import KjRedis.Base.BipMemory
import KjRedis.Lib.Transition
import Mathlib.Data.UInt

/-! `bip_buf` as a queue of bytes: what is committed comes out in order, whatever wraps,
grows and moves underneath. -/
namespace KjRedis
open Slice Transition

/-- A call on a `bip_buf`, or the holder of a region writing into it. -/
inductive BipOp
  | reserve
  | forceReserve (junk : Nat → UInt8) (size : Nat)
  | write (offset : Nat) (bytes : List UInt8)
  | commit (size : Nat)
  | decommit (size : Nat)
  | reset

/-- The queue: the bytes committed since the last reset, how many of them were taken off, the
region its writer was given, by its start and its size, and what the writer has in it. -/
structure Fifo where
  committed : List UInt8
  dropped : Nat
  lent : Option (Nat × Nat)
  region : List UInt8

namespace Fifo

def empty : Fifo := ⟨[], 0, none, []⟩

def contents (f : Fifo) : List UInt8 := f.committed.drop f.dropped

end Fifo

namespace BipBuf

/-- What a call gives, and the buffer after it; `lent` is what the writer writes through. `none`
where a call copies between overlapping ranges or past its allocation. -/
def next (bb : BipBuf) (lent : Option (Nat × Nat)) : BipOp → Option (Option (Nat × Nat) × BipBuf)
  | .reserve => bb.reserve.map fun (p, size, bb) => (p.map (·, size), bb)
  | .forceReserve junk size => (bb.forceReserve junk size).map fun (p, bb) => (p.map (·, size), bb)
  | .write offset bytes => lent.map fun (p, _) => (none, bb.write (p + offset) bytes)
  | .commit size => some (none, bb.commit size)
  | .decommit size => some (none, (bb.decommit size).2)
  | .reset => some (none, bb.reset)

/-- What the storage has where a region was given. -/
def found (bb : BipBuf) (r : Nat × Nat) : List UInt8 := slice r.1 (r.1 + r.2) bb.buffer

end BipBuf

namespace Fifo

/-- `given` is what the call has given, in a buffer that is `bb` then. -/
def after (f : Fifo) (given : Option (Nat × Nat)) (bb : BipBuf) : BipOp → Fifo
  | .reserve | .forceReserve _ _ =>
    match given with
    | some r => { f with lent := some r, region := bb.found r }
    | none => f
  | .write offset bytes => { f with region := splice offset bytes f.region }
  | .commit size => ⟨f.committed ++ f.region.take size, f.dropped, none, []⟩
  | .decommit size => { f with dropped := min (f.dropped + size) f.committed.length }
  | .reset => empty

end Fifo

/-- What callers owe: sizes in range, and no write outside the region they were given. -/
def Permitted (s : BipBuf × Fifo) : BipOp → Prop
  | .forceReserve _ size => s.1.availableCapacity + size ≤ 2 ^ 31
  | .write offset bytes => ∃ r, s.2.lent = some r ∧ offset + bytes.length ≤ r.2
  | _ => True

/-- A `bip_buf` with its queue beside it. -/
def bipSystem : System (BipBuf × Fifo) BipOp where
  next := fun (bb, f) op => (bb.next f.lent op).map fun (given, bb') => (bb', f.after given bb' op)

/-- The outstanding reservation, by its start and its size. -/
def BipBuf.reservation (bb : BipBuf) : Option (Nat × Nat) :=
  if 0 < bb.reservationSize then some (bb.rStart, bb.reservationSize) else none

/-- The storage holds what the queue says, and what was given is the reservation. -/
structure Holds (s : BipBuf × Fifo) : Prop where
  sane : BipBuf.Sane s.1
  block : s.1.block = s.2.contents
  lent : s.2.lent = s.1.reservation
  region : s.1.region = s.2.region
  dropped : s.2.dropped ≤ s.2.committed.length

theorem holds_create {junk : Nat → UInt8} {capacity : Nat} (hpos : 0 < capacity) :
    Holds (BipBuf.create junk capacity, Fifo.empty) :=
  ⟨BipBuf.sane_create hpos, slice_self, rfl, slice_self, le_refl 0⟩

section
variable {bb bb' : BipBuf} {f : Fifo} {op : BipOp}

theorem Holds.reserved (h : Holds (bb, f)) {given : Option (Nat × Nat)}
    (hres : BipBuf.Reserved bb given bb') (hop : ∀ bb', f.after given bb' op =
      given.elim f fun r => { f with lent := some r, region := bb'.found r }) :
    Holds (bb', f.after given bb' op) := by
  rw [hop]
  cases hres with
  | refused => exact h
  | granted _ hsane hblock hpos =>
    refine ⟨hsane, hblock.trans h.block, ?_, ?_, h.dropped⟩
    · exact (if_pos hpos).symm
    · show bb'.region = slice bb'.rStart (bb'.rStart + bb'.reservationSize) bb'.buffer
      have hr : bb'.reservationSize = bb'.rEnd - bb'.rStart := rfl
      rw [show bb'.rStart + bb'.reservationSize = bb'.rEnd by omega]
      rfl

theorem Holds.reservation_eq (h : Holds (bb, f)) {r : Nat × Nat} (hlent : f.lent = some r) :
    0 < bb.reservationSize ∧ r = (bb.rStart, bb.reservationSize) := by
  have hgiven := h.lent.symm.trans hlent
  change (if 0 < bb.reservationSize then some (bb.rStart, bb.reservationSize) else none) = some r
    at hgiven
  obtain ⟨hpos, heq⟩ := Option.ite_none_right_eq_some.1 hgiven
  exact ⟨hpos, (Option.some.inj heq).symm⟩

/-- A permitted call is defined and does to the storage what it does to the queue. -/
theorem Holds.next (h : Holds (bb, f)) (hp : Permitted (bb, f) op) :
    ∃ given bb', bb.next f.lent op = some (given, bb') ∧ Holds (bb', f.after given bb' op) := by
  have hs := h.sane
  cases op with
  | reserve =>
    obtain ⟨p, n, bb', hcall, hres⟩ := BipBuf.reserve_spec hs
    refine ⟨_, bb', by simp [BipBuf.next, hcall], h.reserved hres fun bb' => ?_⟩
    cases p <;> rfl
  | forceReserve junk size =>
    obtain ⟨p, bb', hcall, hres⟩ := @BipBuf.forceReserve_spec bb junk size hs hp
    refine ⟨_, bb', by simp [BipBuf.next, hcall], h.reserved hres fun bb' => ?_⟩
    cases p <;> rfl
  | write offset bytes =>
    obtain ⟨r, hlent, hfits⟩ := hp
    obtain ⟨hpos, rfl⟩ := h.reservation_eq hlent
    obtain ⟨hsane, hblock, hregion⟩ := BipBuf.write_spec hs hpos hfits
    have hcall : bb.next f.lent (.write offset bytes) =
        some (none, bb.write (bb.rStart + offset) bytes) := by
      rw [hlent]
      rfl
    exact ⟨_, _, hcall, hsane, hblock.trans h.block, h.lent, hregion.trans (congrArg _ h.region),
      h.dropped⟩
  | commit size =>
    obtain ⟨hsane, hblock, hregion⟩ := @BipBuf.commit_spec bb size hs
    refine ⟨none, _, rfl, hsane, ?_, ?_, hregion, ?_⟩
    · show (bb.commit size).block = (f.committed ++ f.region.take size).drop f.dropped
      rw [hblock, List.drop_append_of_le_length h.dropped]
      exact congrArg₂ _ h.block (congrArg _ h.region)
    · exact (if_neg (by rw [BipBuf.reservationSize_commit]; exact Nat.lt_irrefl 0)).symm
    · show f.dropped ≤ (f.committed ++ f.region.take size).length
      rw [List.length_append]
      exact le_trans h.dropped (Nat.le_add_right _ _)
  | decommit size =>
    obtain ⟨hsane, hblock, hregion⟩ := @BipBuf.decommit_spec bb size hs
    refine ⟨none, _, rfl, hsane, ?_, h.lent, hregion.trans h.region, Nat.min_le_right _ _⟩
    show (bb.decommit size).2.block = f.committed.drop (min (f.dropped + size) f.committed.length)
    rw [hblock, Committed.decommit_eq_drop, h.block]
    unfold Fifo.contents
    rw [List.drop_drop]
    rcases Nat.le_total (f.dropped + size) f.committed.length with hle | hge
    · rw [Nat.min_eq_left hle]
    · rw [Nat.min_eq_right hge, List.drop_eq_nil_of_le hge, List.drop_length]
  | reset =>
    obtain ⟨hsane, hblock, hregion⟩ := BipBuf.reset_spec hs
    exact ⟨none, _, rfl, hsane, hblock, rfl, hregion, le_refl 0⟩

end

theorem Holds.run {s : BipBuf × Fifo} {ops : List BipOp} (h : Holds s)
    (hperm : bipSystem.Meets Permitted s ops) :
    ∃ s', bipSystem.run s ops = some s' ∧ Holds s' := by
  refine System.run_progress ?_ h hperm
  rintro ⟨bb, f⟩ op hs hp
  obtain ⟨given, bb', hcall, hholds⟩ := hs.next hp
  exact ⟨_, by simp [bipSystem, hcall], hholds⟩

/-- Every run of permitted calls is defined throughout. The committed block is what was
committed since the last reset less what was taken off, it fits the capacity, and what has been
given to write to is the outstanding reservation, which lies behind it inside the storage. -/
theorem run_bipSystem (junk : Nat → UInt8) (capacity : Nat) (ops : List BipOp) (hpos : 0 < capacity)
    (hperm : bipSystem.Meets Permitted (BipBuf.create junk capacity, Fifo.empty) ops) :
    ∃ bb f, bipSystem.run (BipBuf.create junk capacity, Fifo.empty) ops = some (bb, f) ∧
      bb.block = f.contents ∧ bb.block.length = bb.committedSize ∧
      bb.committedSize ≤ bb.availableCapacity ∧
      bb.buffer.length = 2 * bb.availableCapacity ∧ bb.aEnd ≤ bb.buffer.length ∧
      f.lent = bb.reservation ∧
      (0 < bb.reservationSize → bb.aEnd ≤ bb.rStart ∧ bb.rEnd ≤ bb.buffer.length ∧
        bb.region = f.region) := by
  obtain ⟨⟨bb, f⟩, hrun, hholds⟩ := (holds_create hpos).run hperm
  have hs : BipBuf.Sane bb := hholds.sane
  have hbounded := hs.bounded
  have hinside := hs.inside
  have hlen := hs.length
  have hr : bb.reservationSize = bb.rEnd - bb.rStart := rfl
  refine ⟨bb, f, hrun, hholds.block, hs.length_block, by omega, hlen, by omega, hholds.lent,
    fun hres => ?_⟩
  obtain ⟨hstart, hlt⟩ : bb.rStart = bb.aEnd ∧ bb.rStart < bb.rEnd :=
    hs.reserved.resolve_left (by omega)
  exact ⟨hstart.ge, by omega, hholds.region⟩

/-- Six bytes through two regions, and a third one for which what is left is moved. -/
theorem run_bipSystem_twice : let ops : List BipOp := [.reserve, .write 0 [1, 2, 3], .commit 3,
      .decommit 2, .reserve, .write 1 [5, 6], .write 0 [4], .commit 9, .decommit 3, .reserve,
      .write 2 [7]]
    ∃ bb f, bipSystem.run (BipBuf.create 0 4, Fifo.empty) ops = some (bb, f) ∧
      bb.block = f.contents ∧ f.lent = bb.reservation := by
  intro ops
  have hperm : bipSystem.Meets Permitted (BipBuf.create 0 4, Fifo.empty) ops :=
    System.meets_cons rfl trivial <| System.meets_cons rfl ⟨_, rfl, by decide⟩ <|
    System.meets_cons rfl trivial <| System.meets_cons rfl trivial <|
    System.meets_cons rfl trivial <| System.meets_cons rfl ⟨_, rfl, by decide⟩ <|
    System.meets_cons rfl ⟨_, rfl, by decide⟩ <| System.meets_cons rfl trivial <|
    System.meets_cons rfl trivial <| System.meets_cons rfl trivial <|
    System.meets_cons rfl ⟨_, rfl, by decide⟩ trivial
  obtain ⟨bb, f, hrun, hblock, -, -, -, -, hlent, -⟩ := run_bipSystem 0 4 ops (by decide) hperm
  exact ⟨bb, f, hrun, hblock, hlent⟩

namespace BipBuf

/-- `bip_buf_is_full`. -/
def isFull (bb : BipBuf) : Bool := bb.availableCapacity = bb.committedSize

/-- What the header promises of `bip_buf_force_reserve`: a region of exactly `size` bytes in
the storage and apart from the committed block, which stays as it was. -/
def MakesRoom (bb : BipBuf) (junk : Nat → UInt8) (size : Nat) : Prop :=
  ∃ p bb', bb.forceReserve junk size = some (some p, bb') ∧ bb'.rStart = p ∧ bb'.rEnd = p + size ∧
    p + size ≤ bb'.buffer.length ∧ (bb'.aEnd ≤ p ∨ p + size ≤ bb'.aStart) ∧ bb'.block = bb.block

section
variable {bb bb' : BipBuf} {f f' : Fifo} {junk : Nat → UInt8} {size : Nat} {ops : List BipOp}

/-- A `bip_buf` of no capacity is never written. -/
theorem create_zero_next {op : BipOp} {given : Option (Nat × Nat)}
    (h : (create junk 0).next none op = some (given, bb')) : given = none ∧ bb' = create junk 0 := by
  cases op with
  | write offset bytes => cases h
  | decommit size =>
    cases h
    exact ⟨rfl, by simp [decommit, create, reset, committedSize]⟩
  | forceReserve junk' size =>
    simp [next, forceReserve, create, reset, reservationSize, committedSize] at h
    exact ⟨h.1.symm, h.2.symm⟩
  | _ =>
    cases h
    exact ⟨rfl, rfl⟩

/-- The states runs of permitted calls reach: sane ones, or one without capacity. -/
theorem run_sane {junk₀ : Nat → UInt8} {capacity : Nat}
    (hperm : bipSystem.Meets Permitted (create junk₀ capacity, Fifo.empty) ops)
    (hrun : bipSystem.run (create junk₀ capacity, Fifo.empty) ops = some (bb, f)) :
    Sane bb ∨ bb = create junk₀ 0 := by
  rcases Nat.eq_zero_or_pos capacity with rfl | hpos
  · refine .inr (@System.run_invariant _ _ _ _ _ _ _
      (fun s => s.2.lent = none ∧ s.1 = create junk₀ 0) ?_ ⟨rfl, rfl⟩ hperm hrun).2
    rintro ⟨b, g⟩ op ⟨b', g'⟩ ⟨hlent, hb⟩ - hnext
    obtain rfl : b = create junk₀ 0 := hb
    change g.lent = none at hlent
    obtain ⟨⟨given, b''⟩, hcall, heq⟩ := Option.map_eq_some_iff.1 hnext
    obtain ⟨rfl, rfl⟩ := Prod.mk.inj heq
    rw [hlent] at hcall
    obtain ⟨rfl, rfl⟩ := create_zero_next hcall
    refine ⟨?_, rfl⟩
    cases op with
    | commit _ => rfl
    | reset => rfl
    | _ => exact hlent
  · obtain ⟨s, hs, hholds⟩ := (holds_create hpos).run hperm
    obtain rfl := Option.some.inj (hs.symm.trans hrun)
    exact .inl hholds.sane

/-- Where a byte is free `bip_buf_force_reserve` makes room for any size; a full buffer it
does not expand. -/
theorem makesRoom_iff {junk₀ : Nat → UInt8} {capacity : Nat}
    (hperm : bipSystem.Meets Permitted (create junk₀ capacity, Fifo.empty) ops)
    (hrun : bipSystem.run (create junk₀ capacity, Fifo.empty) ops = some (bb, f))
    (hres : bb.reservationSize = 0) (hsize : 0 < size) (hmax : bb.availableCapacity + size ≤ 2 ^ 31) :
    bb.MakesRoom junk size ↔ bb.isFull = false := by
  have hfull : bb.isFull = false ↔ bb.committedSize ≠ bb.availableCapacity := by
    simp [isFull, eq_comm]
  rw [hfull]
  constructor
  · rintro ⟨p, bb', hcall, -⟩ hfull
    rw [forceReserve_full hsize hres hfull] at hcall
    cases hcall
  · intro hfree
    rcases run_sane hperm hrun with hs | rfl
    · have hbounded := hs.bounded
      obtain ⟨bb', hcall, hsane, hblock, hgot, -⟩ :=
        @forceReserve_granted bb junk size hs hres hsize (by omega) (.inr hmax)
      have hinside := hsane.inside
      have hlen := hsane.length
      have hr : bb'.reservationSize = bb'.rEnd - bb'.rStart := rfl
      obtain ⟨hstart, hlt⟩ : bb'.rStart = bb'.aEnd ∧ bb'.rStart < bb'.rEnd :=
        hsane.reserved.resolve_left (by omega)
      exact ⟨_, bb', hcall, rfl, by omega, by omega, .inl hstart.ge, hblock⟩
    · exact absurd rfl hfree

theorem makesRoom_iff_one :
    ∃ bb f, bipSystem.run (create 0 4, Fifo.empty) [.reserve, .commit 3] = some (bb, f) ∧
      bb.reservationSize = 0 ∧ bb.MakesRoom 0 9 := by
  have hperm : bipSystem.Meets Permitted (create 0 4, Fifo.empty) [.reserve, .commit 3] := by
    apply System.meets_of_forall
    simp [Permitted]
  exact ⟨_, _, rfl, rfl, (@makesRoom_iff _ _ 0 9 _ 0 4 hperm rfl rfl (by decide) (by decide)).2 rfl⟩

/-- Four bytes of a capacity of four are committed; then one byte is asked for. -/
theorem not_makesRoom :
    ∃ bb f, bipSystem.run (create 0 4, Fifo.empty) [.reserve, .commit 4] = some (bb, f) ∧
      bb.reservationSize = 0 ∧ bb.availableCapacity + 1 ≤ 2 ^ 31 ∧ ¬ bb.MakesRoom 0 1 := by
  refine ⟨_, _, rfl, rfl, by decide, ?_⟩
  rintro ⟨p, bb', hcall, -⟩
  cases hcall

end

end BipBuf

end KjRedis
