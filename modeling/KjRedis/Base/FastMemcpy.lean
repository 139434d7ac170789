import KjRedis.Lib.Memory

/-! `fast_memcpy`: a jump table for up to 128 bytes, and for more of them blocks of eight
registers behind a head that aligns the destination. -/
namespace KjRedis.FastMemcpy

open Memory

abbrev Mem := Nat → UInt8

/-- What a caller of `memcpy` lends. -/
structure Lent where
  destination : Region
  source : Region

/-- Registers loaded with the `n` bytes at `src` and then stored at `dst`; `none` where that
reads or writes what has not been lent. -/
def move (lent : Lent) (mem : Mem) (dst src n : Nat) : Option Mem :=
  if (lent.source.addr ≤ src ∧ src + n ≤ lent.source.limit) ∧
      lent.destination.addr ≤ dst ∧ dst + n ≤ lent.destination.limit then
    some (write mem dst (read mem src n))
  else none

/-- The cases of `memcpy_tiny` up to 63: how far before the end each piece begins, and its
bytes. -/
def lowCase : Nat → List (Nat × Nat)
  | 0 => [] | 1 => [(1, 1)] | 2 => [(2, 2)] | 3 => [(3, 2), (1, 1)] | 4 => [(4, 4)]
  | 5 => [(5, 4), (1, 1)] | 6 => [(6, 4), (2, 2)] | 7 => [(7, 4), (4, 4)] | 8 => [(8, 8)]
  | 9 => [(9, 8), (1, 1)] | 10 => [(10, 8), (2, 2)] | 11 => [(11, 8), (4, 4)]
  | 12 => [(12, 8), (4, 4)] | 13 => [(13, 8), (5, 4), (1, 1)] | 14 => [(14, 8), (8, 8)]
  | 15 => [(15, 8), (8, 8)] | 16 => [(16, 16)] | 17 => [(17, 16), (1, 1)]
  | 18 => [(18, 16), (2, 2)] | 19 => [(19, 16), (3, 2), (1, 1)] | 20 => [(20, 16), (4, 4)]
  | 21 => [(21, 16), (5, 4), (1, 1)] | 22 => [(22, 16), (6, 4), (2, 2)]
  | 23 => [(23, 16), (7, 4), (4, 4)] | 24 => [(24, 16), (16, 16)] | 25 => [(25, 16), (16, 16)]
  | 26 => [(26, 16), (16, 16)] | 27 => [(27, 16), (16, 16)] | 28 => [(28, 16), (16, 16)]
  | 29 => [(29, 16), (16, 16)] | 30 => [(30, 16), (16, 16)] | 31 => [(31, 16), (16, 16)]
  | 32 => [(32, 32)] | 33 => [(33, 32), (1, 1)] | 34 => [(34, 32), (2, 2)]
  | 35 => [(35, 32), (3, 2), (1, 1)] | 36 => [(36, 32), (4, 4)] | 37 => [(37, 32), (5, 4), (1, 1)]
  | 38 => [(38, 32), (6, 4), (2, 2)] | 39 => [(39, 32), (7, 4), (4, 4)] | 40 => [(40, 32), (8, 8)]
  | 41 => [(41, 32), (9, 8), (1, 1)] | 42 => [(42, 32), (10, 8), (2, 2)]
  | 43 => [(43, 32), (11, 8), (4, 4)] | 44 => [(44, 32), (12, 8), (4, 4)]
  | 45 => [(45, 32), (13, 8), (5, 4), (1, 1)] | 46 => [(46, 32), (14, 8), (8, 8)]
  | 47 => [(47, 32), (15, 8), (8, 8)] | 48 => [(48, 32), (16, 16)]
  | 49 => [(49, 32), (17, 16), (1, 1)] | 50 => [(50, 32), (18, 16), (2, 2)]
  | 51 => [(51, 32), (19, 16), (3, 2), (1, 1)] | 52 => [(52, 32), (20, 16), (4, 4)]
  | 53 => [(53, 32), (21, 16), (5, 4), (1, 1)] | 54 => [(54, 32), (22, 16), (6, 4), (2, 2)]
  | 55 => [(55, 32), (23, 16), (7, 4), (4, 4)] | 56 => [(56, 32), (24, 16), (16, 16)]
  | 57 => [(57, 32), (25, 16), (16, 16)] | 58 => [(58, 32), (26, 16), (16, 16)]
  | 59 => [(59, 32), (27, 16), (16, 16)] | 60 => [(60, 32), (28, 16), (16, 16)]
  | 61 => [(61, 32), (29, 16), (16, 16)] | 62 => [(62, 32), (30, 16), (16, 16)]
  | 63 => [(63, 32), (31, 16), (16, 16)]
  | _ => []

/-- The cases of `memcpy_tiny`: one above 63 copies its first 64 bytes and falls through to
the one 64 below it. -/
def jumpTable (size : Nat) : List (Nat × Nat) :=
  if size < 64 then lowCase size
  else if size < 128 then (size, 64) :: lowCase (size - 64)
  else if size = 128 then [(128, 128)]
  else []

def memcpyTiny (lent : Lent) (mem : Mem) (dst src size : Nat) : Option Mem :=
  (jumpTable size).foldlM
    (fun mem (off, n) => move lent mem (dst + size - off) (src + size - off) n) mem

/-- The loops of `fast_memcpy`. A store to `dst` faults unless it is aligned, and so does a
load from `src` where it is `_mm_load_si128`. -/
def copyBlocks (lent : Lent) (alignedLoad : Bool) (mem : Mem) (dst src size : Nat) :
    Option (Mem × Nat × Nat × Nat) :=
  if 128 ≤ size then
    if dst % 16 = 0 ∧ (alignedLoad → src % 16 = 0) then
      match move lent mem dst src 128 with
      | some mem => copyBlocks lent alignedLoad mem (dst + 128) (src + 128) (size - 128)
      | none => none
    else none
  else some (mem, dst, src, size)
termination_by size
decreasing_by omega

/-- L2-cache size. -/
def cachesize : Nat := 0x200000

/-- The head, up to the first aligned address of the destination. -/
def alignDestination (lent : Lent) (mem : Mem) (dst src size : Nat) :
    Option (Mem × Nat × Nat × Nat) :=
  let padding := (16 - dst % 16) % 16
  if 0 < padding then
    (move lent mem dst src 16).map fun mem => (mem, dst + padding, src + padding, size - padding)
  else some (mem, dst, src, size)

def fastMemcpy (lent : Lent) (mem : Mem) (destination source size : Nat) : Option Mem :=
  if size ≤ 128 then memcpyTiny lent mem destination source size
  else do
    let (mem, dst, src, size) ← alignDestination lent mem destination source size
    let alignedLoad := decide (cachesize < size ∧ src % 16 = 0)
    let (mem, dst, src, size) ← copyBlocks lent alignedLoad mem dst src size
    memcpyTiny lent mem dst src size

variable {mem mem' mem₀ : Mem} {dst src size done off n k : Nat} {ps : List (Nat × Nat)}
  {alignedLoad : Bool}

/-- `size` bytes from `src` to `dst`. -/
def lent (dst src size : Nat) : Lent := ⟨⟨dst, size⟩, ⟨src, size⟩⟩

/-- The first `done` bytes have been copied, and nothing else has changed. -/
structure Copied (mem₀ : Mem) (dst src size done : Nat) (mem : Mem) : Prop where
  copied : ∀ i < done, mem (dst + i) = mem₀ (src + i)
  frame : ∀ x, x < dst ∨ dst + size ≤ x → mem x = mem₀ x

theorem Copied.zero (mem₀ : Mem) : Copied mem₀ dst src size 0 mem₀ :=
  ⟨fun i hi => absurd hi (Nat.not_lt_zero i), fun _ _ => rfl⟩

theorem Copied.mono (h : Copied mem₀ dst src size k mem) (hle : done ≤ k) :
    Copied mem₀ dst src size done mem :=
  ⟨fun i hi => h.copied i (Nat.lt_of_lt_of_le hi hle), h.frame⟩

theorem Copied.eq_write (h : Copied mem₀ dst src size size mem) :
    mem = write mem₀ dst (read mem₀ src size) := by
  funext x
  by_cases hx : dst ≤ x ∧ x < dst + size
  · obtain ⟨i, rfl⟩ := Nat.exists_eq_add_of_le hx.1
    have hi : i < (read mem₀ src size).length := by
      rw [length_read]
      omega
    rw [write_at hi, getElem_read hi, h.copied i (by omega)]
  · rw [h.frame x (by omega), write_apart (by rw [length_read]; omega)]

/-- How far pieces reach that leave no gap and stay within `size` bytes. -/
def reach (size : Nat) : Nat → List (Nat × Nat) → Option Nat
  | done, [] => some done
  | done, (off, n) :: ps =>
    if off ≤ size ∧ n ≤ off ∧ size - off ≤ done then reach size (max done (size - off + n)) ps
    else none

theorem jumpTable_reach : ∀ size ≤ 128, reach size 0 (jumpTable size) = some size := by
  decide +kernel

section Copying

variable (hapart : Region.Apart ⟨src, size⟩ ⟨dst, size⟩)
include hapart

/-- A piece that leaves no gap behind what has been copied. -/
theorem Copied.move (h : Copied mem₀ dst src size done mem) (hoff : off ≤ done)
    (hn : off + n ≤ size) :
    ∃ mem', FastMemcpy.move (lent dst src size) mem (dst + off) (src + off) n = some mem' ∧
      Copied mem₀ dst src size (max done (off + n)) mem' := by
  refine ⟨_, if_pos ?_, ?_, ?_⟩
  · simp only [lent, Region.limit]
    omega
  · intro i hi
    by_cases hin : off ≤ i ∧ i < off + n
    · obtain ⟨j, rfl⟩ := Nat.exists_eq_add_of_le hin.1
      have hj : j < (read mem (src + off) n).length := by
        rw [length_read]
        omega
      -- the source lies outside of all that is written
      have hsrc : mem (src + (off + j)) = mem₀ (src + (off + j)) := by
        refine h.frame _ ?_
        simp only [Region.Apart, Region.limit] at hapart
        omega
      rw [← Nat.add_assoc, write_at hj, getElem_read hj, Nat.add_assoc, hsrc]
    · rw [write_apart (by rw [length_read]; omega)]
      exact h.copied i (by omega)
  · intro x hx
    rw [write_apart (by rw [length_read]; omega)]
    exact h.frame x hx

theorem foldlM_pieces {rest : Nat} (hk : k + rest = size)
    (h : Copied mem₀ dst src size (k + done) mem) (hreach : reach rest done ps = some n) :
    ∃ mem', ps.foldlM (fun mem (off, n) => FastMemcpy.move (lent dst src size) mem
        (dst + k + rest - off) (src + k + rest - off) n) mem = some mem' ∧
      Copied mem₀ dst src size (k + n) mem' := by
  induction ps generalizing done mem with
  | nil =>
    obtain rfl := Option.some.inj hreach
    exact ⟨mem, rfl, h⟩
  | cons piece ps ih =>
    obtain ⟨off, n'⟩ := piece
    simp only [reach] at hreach
    split at hreach
    · next hfits =>
      obtain ⟨mem₁, hmove, hcopied⟩ :=
        h.move hapart (show k + (rest - off) ≤ k + done by omega)
          (show k + (rest - off) + n' ≤ size by omega)
      have haddr : ∀ a, a + k + rest - off = a + (k + (rest - off)) := fun a => by omega
      rw [Nat.add_assoc k, Nat.add_max_add_left] at hcopied
      obtain ⟨mem', hrest, h'⟩ := ih hcopied hreach
      refine ⟨mem', ?_, h'⟩
      rw [List.foldlM_cons]
      simp only [haddr, hmove] at hrest ⊢
      exact hrest
    · cases hreach

/-- `memcpy_tiny` copies what is left. -/
theorem memcpyTiny_copied {rest : Nat} (hk : k + rest = size) (hrest : rest ≤ 128)
    (h : Copied mem₀ dst src size k mem) :
    ∃ mem', memcpyTiny (lent dst src size) mem (dst + k) (src + k) rest = some mem' ∧
      Copied mem₀ dst src size size mem' := by
  have hpieces := foldlM_pieces hapart hk h (jumpTable_reach rest hrest)
  rwa [hk] at hpieces

/-- Whole blocks, from one aligned address of the destination to the next. -/
theorem copyBlocks_copied {rest : Nat} (hk : k + rest = size) (hdst : (dst + k) % 16 = 0)
    (hsrc : alignedLoad → (src + k) % 16 = 0) (h : Copied mem₀ dst src size k mem) :
    ∃ mem' k' rest', copyBlocks (lent dst src size) alignedLoad mem (dst + k) (src + k) rest =
        some (mem', dst + k', src + k', rest') ∧
      k' + rest' = size ∧ rest' ≤ 128 ∧ Copied mem₀ dst src size k' mem' := by
  induction rest using Nat.strongRecOn generalizing k mem with
  | ind rest ih =>
    rw [copyBlocks]
    by_cases hlt : 128 ≤ rest
    · obtain ⟨mem₁, hmove, hcopied⟩ := h.move hapart (Nat.le_refl k) (show k + 128 ≤ size by omega)
      have hmax : max k (k + 128) = k + 128 := by omega
      rw [hmax] at hcopied
      obtain ⟨mem', k', rest', hblocks, h'⟩ := ih (rest - 128) (by omega) (k := k + 128) (by omega)
        (by omega) (fun ha => by have := hsrc ha; omega) hcopied
      refine ⟨mem', k', rest', ?_, h'⟩
      rw [if_pos hlt, if_pos ⟨hdst, hsrc⟩, hmove]
      exact hblocks
    · rw [if_neg hlt]
      exact ⟨mem, k, rest, rfl, hk, by omega, h⟩

theorem alignDestination_copied (mem₀ : Mem) (hsize : 128 < size) :
    ∃ mem' k rest, alignDestination (lent dst src size) mem₀ dst src size =
        some (mem', dst + k, src + k, rest) ∧
      k + rest = size ∧ (dst + k) % 16 = 0 ∧ Copied mem₀ dst src size k mem' := by
  unfold alignDestination
  simp only
  split
  · next hpadding =>
    obtain ⟨mem', hmove, hcopied⟩ :=
      (Copied.zero mem₀).move hapart (Nat.le_refl 0) (show 0 + 16 ≤ size by omega)
    simp only [Nat.add_zero] at hmove
    refine ⟨mem', _, _, by rw [hmove, Option.map_some], by omega, by omega, ?_⟩
    exact hcopied.mono (by omega)
  · next hpadding => exact ⟨mem₀, 0, size, rfl, by omega, by omega, .zero mem₀⟩

/-- At every size and every alignment of the two: no access outside of what has been lent,
no store or load that faults, and what is left is what `memcpy` leaves. -/
theorem fastMemcpy_eq_write (mem : Mem) :
    fastMemcpy (lent dst src size) mem dst src size = some (write mem dst (read mem src size)) := by
  suffices h : ∃ mem', fastMemcpy (lent dst src size) mem dst src size = some mem' ∧
      Copied mem dst src size size mem' by
    obtain ⟨mem', hrun, hcopied⟩ := h
    rw [hrun, hcopied.eq_write]
  unfold fastMemcpy
  split
  · next hsmall => exact memcpyTiny_copied hapart (Nat.zero_add size) hsmall (.zero mem)
  · next hlarge =>
    obtain ⟨mem₁, k₁, rest₁, halign, hk₁, hdst, h₁⟩ :=
      alignDestination_copied hapart mem (Nat.lt_of_not_ge hlarge)
    obtain ⟨mem₂, k₂, rest₂, hblocks, hk₂, hrest, h₂⟩ :=
      copyBlocks_copied hapart hk₁ hdst
        (fun h : decide (cachesize < rest₁ ∧ (src + k₁) % 16 = 0) = true => (of_decide_eq_true h).2) h₁
    obtain ⟨mem₃, htiny, h₃⟩ := memcpyTiny_copied hapart hk₂ hrest h₂
    refine ⟨mem₃, ?_, h₃⟩
    simp only [halign, hblocks, htiny, Option.bind_eq_bind, Option.bind_some]

end Copying

/-- A copy with a head, two blocks and a tail, between addresses that are not aligned. -/
theorem fastMemcpy_eq_write_300 :
    fastMemcpy (lent 1001 7 300) (fun x => UInt8.ofNat x) 1001 7 300 =
      some (write (fun x => UInt8.ofNat x) 1001 (read (fun x => UInt8.ofNat x) 7 300)) :=
  fastMemcpy_eq_write (.inr (.inr (.inl (by decide)))) _

end KjRedis.FastMemcpy
