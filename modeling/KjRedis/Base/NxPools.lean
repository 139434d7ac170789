import KjRedis.Base.ArrayStack
import KjRedis.Lib.Heap
import KjRedis.Lib.Transition
import Mathlib.Data.List.Perm.Subperm

/-! Any number of pools over one heap: what `nx_pfree`, `nx_reset_pool`, `nx_destroy_pool`
and the reset of a parser give back to it, and what the pools' users hold meanwhile. -/
namespace KjRedis.NxBuf

open Memory Heap

/-- The `malloc` of a whole program: no two of its regions start at one address. -/
structure Allocator extends Malloc where
  distinct : ∀ {live size addr}, alloc live size = some addr → ∀ r ∈ live, r.addr ≠ addr

/-- What an owner sees of it while `held` is allocated. -/
def Allocator.beside (m : Allocator) (held : List Region) : Malloc where
  alloc live size := m.alloc (held ++ live) size
  fresh h r hr := m.fresh h r (List.mem_append_right _ hr)
  aligned h := m.aligned h
  bounded h := m.bounded h

section Calls

variable (malloc : Malloc) (p : Pool)

def mallocCalls (live : List Region) (size : Nat) : List Heap.Call :=
  match malloc.alloc live size with
  | some addr => [.malloc ⟨addr, size⟩]
  | none => []

def pallocSmallCalls (size : Nat) (align : Bool) : List Heap.Call :=
  match scan align size p.current p.blocks with
  | some _ => []
  | none => mallocCalls malloc p.regions (p.d.endAddr - p.d.addr)

/-- An allocation that gets no entry is freed. -/
def linkLargeCalls (r : Region) : List Heap.Call :=
  pallocSmallCalls malloc { p with large := some r :: p.large } NxPool.sizeofPoolLarge true ++
    if (linkLarge malloc p r).isSome then [] else [.free r.addr]

def pallocLargeCalls (size : Nat) : List Heap.Call :=
  match malloc.alloc p.regions size with
  | none => []
  | some addr =>
    .malloc ⟨addr, size⟩ ::
      if (reuse ⟨addr, size⟩ 0 p.large).isSome then [] else linkLargeCalls malloc p ⟨addr, size⟩

def pmemalignCalls (size : Nat) : List Heap.Call :=
  match malloc.alloc p.regions size with
  | none => []
  | some addr => .malloc ⟨addr, size⟩ :: linkLargeCalls malloc p ⟨addr, size⟩

/-- Of `nx_palloc` and of `nx_pnalloc`. -/
def pallocCalls (size : Nat) (align : Bool) : List Heap.Call :=
  if size ≤ p.max then pallocSmallCalls malloc p size align else pallocLargeCalls malloc p size

end Calls

/-- `alloc` of an entry of `large`. -/
def allocOf : Option Region → Nat
  | some r => r.addr
  | none => 0

/-- The loop of `nx_pfree`; `none` is `NX_DECLINED`. -/
def freeEntry (addr : Nat) : List (Option Region) → Option (List (Option Region))
  | [] => none
  | l :: large =>
    if allocOf l = addr then some (none :: large) else (freeEntry addr large).map (l :: ·)

/-- `nx_pfree`, which frees `addr` unless it declines. -/
def pfree (p : Pool) (addr : Nat) : Option Pool :=
  (freeEntry addr p.large).map fun large => { p with large }

/-- `nx_reset_pool`. -/
def resetPool (p : Pool) : Pool :=
  { p with
    d := { p.d with last := p.d.addr + NxPool.sizeofPool, failed := 0 }
    nexts := p.nexts.map fun b => { b with last := b.addr + sizeofPoolData, failed := 0 }
    current := 0
    large := [] }

def freeLarges (p : Pool) : List Heap.Call := p.larges.map fun r => .free r.addr

/-- The loop that follows `nx_reset_pool` in `reset_reply_parser` and `reset_rdb_parser`. -/
def shrink (p : Pool) : Pool := { p with nexts := [] }

def freeNexts (p : Pool) : List Heap.Call := p.nexts.map fun b => .free b.addr

/-- `nx_destroy_pool` of a pool without cleanups. -/
def freePool (p : Pool) : List Heap.Call := freeLarges p ++ p.blocks.map fun b => .free b.addr

def Alloc.calls (malloc : Malloc) (p : Pool) (size : Nat) : Alloc → List Heap.Call
  | .palloc => pallocCalls malloc p size true
  | .pnalloc => pallocCalls malloc p size false
  | .pmemalign => pmemalignCalls malloc p size

/-- The pools in the order of their creation, `none` once destroyed; the heap, `none` once
something has been freed that was not held; and the allocations of each pool that its users
may go on using. -/
structure Pools where
  pools : List (Option Pool)
  held : Option (List Region)
  granted : List (Nat × Region)

inductive PoolEvent where
  | create (size : Nat)
  | alloc (a : Alloc) (k size : Nat)
  | pfree (k addr : Nat)
  | reset (k : Nat)
  | resetParser (k : Nat)
  | destroy (k : Nat)

namespace Pools

def pool (s : Pools) (k : Nat) : Option Pool := s.pools[k]?.join

def called (s : Pools) (cs : List Heap.Call) : Pools := { s with held := s.held.bind (Heap.calls · cs) }

def put (s : Pools) (k : Nat) (p : Option Pool) : Pools := { s with pools := s.pools.set k p }

def grant (s : Pools) (k : Nat) (r : Region) : Pools :=
  { s with granted := if 0 < r.len then (k, r) :: s.granted else s.granted }

def revoke (s : Pools) (gone : Nat × Region → Bool) : Pools :=
  { s with granted := s.granted.filter fun g => !gone g }

def regions (s : Pools) : List Region := s.pools.flatMap fun p => p.elim [] Pool.regions

def created (s : Pools) (malloc : Malloc) (size : Nat) : Pools :=
  match createPool malloc size with
  | none => s
  | some p => { s with pools := s.pools ++ [some p] }.called [.malloc p.d.region]

def allocated (s : Pools) (malloc : Malloc) (a : Alloc) (k : Nat) (p : Pool) (size : Nat) : Pools :=
  match a.serve malloc p size with
  | none => s.called (a.calls malloc p size)
  | some (addr, p') =>
    ((s.put k (some p')).called (a.calls malloc p size)).grant k ⟨addr, size⟩

def freed (s : Pools) (k : Nat) (p : Pool) (addr : Nat) : Pools :=
  match pfree p addr with
  | none => s
  | some p' =>
    ((s.put k (some p')).called [.free addr]).revoke fun g => g.1 = k ∧ g.2.addr = addr

end Pools

def pools (m : Allocator) : Transition.System Pools PoolEvent where
  next s
    | .create size => some (s.created (m.beside (s.held.getD [])) size)
    | .alloc a k size => (s.pool k).map fun p => s.allocated (m.beside (s.held.getD [])) a k p size
    | .pfree k addr => (s.pool k).map fun p => s.freed k p addr
    | .reset k => (s.pool k).map fun p =>
        ((s.put k (some (resetPool p))).called (freeLarges p)).revoke fun g => g.1 = k
    | .resetParser k => (s.pool k).map fun p =>
        ((s.put k (some (shrink (resetPool p)))).called (freeLarges p ++ freeNexts p)).revoke
          fun g => g.1 = k
    | .destroy k => (s.pool k).map fun p =>
        ((s.put k none).called (freePool p)).revoke fun g => g.1 = k

/-- What a pool is created with leaves room for its header and ends at a word, as the sizes
1024 and 4096 of this code do. `nx_create_pool` does not ask for it. -/
def PoolEvent.Fits : PoolEvent → Prop
  | .create size => 8 ∣ size ∧ NxPool.sizeofPool ≤ size
  | _ => True

def noPools : Pools := { pools := [], held := some [], granted := [] }

open Pool

variable {malloc : Malloc} {p p' : Pool} {b : Block} {bs bs' : List Block} {r x : Region}
  {m n size addr : Nat} {align : Bool} {cs : List Heap.Call} {a : Alloc}

namespace Pool

/-- The blocks of a pool have one size. -/
def Uniform (p : Pool) : Prop := ∀ r ∈ p.blocks.map Block.region, r.len = p.d.region.len

/-- The pool goes to `p'` with `cs`: it keeps its blocks, and has new ones of their size. -/
structure Grows (malloc : Malloc) (p : Pool) (cs : List Heap.Call) (p' : Pool) : Prop where
  account : Account malloc.alloc p.regions cs p'.regions
  blocks : ∃ more, p'.blocks.map Block.region = p.blocks.map Block.region ++ more ∧
    ∀ r ∈ more, r.len = p.d.region.len

theorem Grows.uniform (h : p.Grows malloc cs p') (hp : p.Uniform) : p'.Uniform := by
  obtain ⟨more, hblocks, hmore⟩ := h.blocks
  have hd : p'.d.region = p.d.region := (List.cons.inj hblocks).1
  intro r hr
  rw [hblocks] at hr
  rw [hd]
  rcases List.mem_append.1 hr with hr | hr
  · exact hp r hr
  · exact hmore r hr

end Pool

theorem Served.regions (h : Served size m bs bs') : bs'.map Block.region = bs.map Block.region := by
  obtain ⟨l, b, l', rfl, rfl, -⟩ := h
  rw [List.map_append, List.map_append]
  rfl

theorem pallocBlock_regions (h : pallocBlock malloc p size = some (m, p')) :
    ∃ new, malloc.alloc p.regions p.d.region.len = some new ∧ p'.larges = p.larges ∧
      p'.blocks.map Block.region = p.blocks.map Block.region ++ [⟨new, p.d.region.len⟩] := by
  obtain ⟨new, hnew, heq⟩ := Option.map_eq_some_iff.1 h
  obtain ⟨rfl, rfl⟩ := Prod.mk.inj heq
  have haged := @countFailed_aged p.blocks p.current 0 p.current
  refine ⟨new, hnew, setBlocks_larges (p := p), ?_⟩
  set bs := (countFailed p.current 0 p.current p.blocks).2
  set b : Block := ⟨new, nxAlign (new + sizeofPoolData) + size, new + p.d.region.len, 0⟩
  have hblocks : (p.setBlocks (bs ++ [b])).blocks = bs ++ [b] := setBlocks_blocks (by simp)
  have hregion : b.region = ⟨new, p.d.region.len⟩ := by simp [b, Block.region]
  change (p.setBlocks (bs ++ [b])).blocks.map Block.region = _
  rw [hblocks, List.map_append, map_of_aged haged fun _ => rfl, ← hregion]
  rfl

theorem pallocSmall_grows (hfine : ∀ b ∈ p.blocks, b.Fine)
    (h : pallocSmall malloc p size align = some (m, p')) :
    p.Grows malloc (pallocSmallCalls malloc p size align) p' ∧ p'.larges = p.larges := by
  unfold pallocSmall at h
  unfold pallocSmallCalls
  split at h
  · next m' bs hscan =>
    obtain ⟨rfl, rfl⟩ := Prod.mk.inj (Option.some.inj h)
    have hserved := scan_served hfine hscan
    have hblocks : (p.setBlocks bs).blocks = bs := setBlocks_blocks (by
      obtain ⟨l, b, l', -, rfl, -⟩ := hserved
      simp)
    have hregions : (p.setBlocks bs).blocks.map Block.region = p.blocks.map Block.region := by
      rw [hblocks, hserved.regions]
    simp only [hscan]
    refine ⟨⟨.done ?_, [], by rw [hregions, List.append_nil], by simp⟩, setBlocks_larges⟩
    unfold regions
    rw [setBlocks_larges, hregions]
  · next hscan =>
    obtain ⟨new, hnew, hlarges, hblocks⟩ := pallocBlock_regions h
    simp only [hscan, mallocCalls]
    change malloc.alloc p.regions (p.d.endAddr - p.d.addr) = some new at hnew
    simp only [hnew]
    refine ⟨⟨.malloc hnew (.done ?_), _, hblocks, by simp⟩, hlarges⟩
    unfold regions
    rw [hlarges, hblocks, ← List.append_assoc]
    exact (List.perm_append_singleton _ _).symm

/-- Where nothing fits and `malloc` fails, nothing has been called for. -/
theorem pallocSmallCalls_none (h : pallocSmall malloc p size align = none) :
    pallocSmallCalls malloc p size align = [] := by
  unfold pallocSmall at h
  unfold pallocSmallCalls
  split at h
  · cases h
  · next hscan =>
    have hnone : malloc.alloc p.regions (p.d.endAddr - p.d.addr) = none := Option.map_eq_none_iff.1 h
    simp only [hscan, mallocCalls, hnone]

/-- The allocation gets its entry, or is given back. -/
theorem linkLarge_grows (hp : p.Valid) (halloc : malloc.alloc p.regions size = some addr)
    (h : linkLarge malloc p ⟨addr, size⟩ = some (m, p')) :
    p.Grows malloc (.malloc ⟨addr, size⟩ :: linkLargeCalls malloc p ⟨addr, size⟩) p' ∧
      p'.larges = ⟨addr, size⟩ :: p.larges := by
  obtain ⟨⟨header, p''⟩, hsmall, heq⟩ := Option.map_eq_some_iff.1 h
  obtain ⟨rfl, rfl⟩ := Prod.mk.inj heq
  obtain ⟨hgrows, hlarges⟩ :=
    pallocSmall_grows (p := { p with large := some ⟨addr, size⟩ :: p.large }) hp.fine hsmall
  unfold linkLargeCalls
  rw [h, Option.isSome_some, if_pos rfl, List.append_nil]
  exact ⟨⟨.malloc halloc hgrows.account, hgrows.blocks⟩, hlarges⟩

theorem linkLarge_account (halloc : malloc.alloc p.regions size = some addr)
    (h : linkLarge malloc p ⟨addr, size⟩ = none) :
    Account malloc.alloc p.regions
      (.malloc ⟨addr, size⟩ :: linkLargeCalls malloc p ⟨addr, size⟩) p.regions := by
  have hnone := pallocSmallCalls_none (Option.map_eq_none_iff.1 h)
  unfold linkLargeCalls
  rw [hnone, h, Option.isSome_none, if_neg (by simp), List.nil_append]
  exact .malloc halloc (.free (r := ⟨addr, size⟩) (List.Perm.refl _) (.done (List.Perm.refl _)))

theorem pallocLarge_grows (hp : p.Valid) (h : pallocLarge malloc p size = some (m, p')) :
    p.Grows malloc (pallocLargeCalls malloc p size) p' ∧
      p'.larges.Perm (⟨m, size⟩ :: p.larges) := by
  unfold pallocLarge at h
  unfold pallocLargeCalls
  cases halloc : malloc.alloc p.regions size with
  | none => simp [halloc] at h
  | some addr =>
    simp only [halloc] at h ⊢
    split at h
    · next large hreuse =>
      obtain ⟨rfl, rfl⟩ := Prod.mk.inj (Option.some.inj h)
      have hlarges : ({ p with large } : Pool).larges.Perm (⟨addr, size⟩ :: p.larges) :=
        reuse_perm hreuse
      rw [hreuse, Option.isSome_some, if_pos rfl]
      exact ⟨⟨.malloc halloc (.done (hlarges.append_right _).symm), [],
        (List.append_nil _).symm, by simp⟩, hlarges⟩
    · next hreuse =>
      have hm := (linkLarge_grants hp halloc h).1
      obtain ⟨hgrows, hlarges⟩ := linkLarge_grows hp halloc h
      rw [hreuse, Option.isSome_none, if_neg (by simp), hm, hlarges]
      exact ⟨hgrows, List.Perm.refl _⟩

theorem pallocLarge_account (h : pallocLarge malloc p size = none) :
    Account malloc.alloc p.regions (pallocLargeCalls malloc p size) p.regions := by
  unfold pallocLarge at h
  unfold pallocLargeCalls
  cases halloc : malloc.alloc p.regions size with
  | none => exact .done (List.Perm.refl _)
  | some addr =>
    simp only [halloc] at h ⊢
    split at h
    · cases h
    · next hreuse =>
      rw [hreuse, Option.isSome_none, if_neg (by simp)]
      exact linkLarge_account halloc h

/-- Of `nx_palloc` and of `nx_pnalloc`. -/
theorem poolAlloc_grows (hp : p.Valid)
    (h : (if size ≤ p.max then pallocSmall malloc p size align else pallocLarge malloc p size) =
      some (m, p')) :
    p.Grows malloc (pallocCalls malloc p size align) p' ∧
      (p'.larges = p.larges ∨ p'.larges.Perm (⟨m, size⟩ :: p.larges)) := by
  unfold pallocCalls
  split at h
  · next hle =>
    rw [if_pos hle]
    exact (pallocSmall_grows hp.fine h).imp_right .inl
  · next hle =>
    rw [if_neg hle]
    exact (pallocLarge_grows hp h).imp_right .inr

theorem poolAlloc_account
    (h : (if size ≤ p.max then pallocSmall malloc p size align else pallocLarge malloc p size) =
      none) : Account malloc.alloc p.regions (pallocCalls malloc p size align) p.regions := by
  unfold pallocCalls
  split at h
  · next hle =>
    rw [if_pos hle, pallocSmallCalls_none h]
    exact .done (List.Perm.refl _)
  · next hle =>
    rw [if_neg hle]
    exact pallocLarge_account h

namespace Alloc

theorem serve_grows (hp : p.Valid) (h : a.serve malloc p size = some (m, p')) :
    p.Grows malloc (a.calls malloc p size) p' ∧
      (p'.larges = p.larges ∨ p'.larges.Perm (⟨m, size⟩ :: p.larges)) := by
  cases a with
  | palloc => exact poolAlloc_grows hp h
  | pnalloc => exact poolAlloc_grows hp h
  | pmemalign =>
    simp only [serve, NxBuf.pmemalign] at h
    simp only [calls, pmemalignCalls]
    cases halloc : malloc.alloc p.regions size with
    | none => simp [halloc] at h
    | some addr =>
      simp only [halloc] at h ⊢
      have hm := (linkLarge_grants hp halloc h).1
      obtain ⟨hgrows, hlarges⟩ := linkLarge_grows hp halloc h
      rw [hm, hlarges]
      exact ⟨hgrows, .inr (List.Perm.refl _)⟩

theorem serve_account (h : a.serve malloc p size = none) :
    Account malloc.alloc p.regions (a.calls malloc p size) p.regions := by
  cases a with
  | palloc => exact poolAlloc_account h
  | pnalloc => exact poolAlloc_account h
  | pmemalign =>
    simp only [serve, NxBuf.pmemalign] at h
    simp only [calls, pmemalignCalls]
    cases halloc : malloc.alloc p.regions size with
    | none => exact .done (List.Perm.refl _)
    | some addr =>
      simp only [halloc] at h
      exact linkLarge_account halloc h

theorem serve_grants (hp : p.Valid) (h : a.serve malloc p size = some (m, p')) :
    p.Grants ⟨m, size⟩ p' := by
  cases a with
  | palloc => exact palloc_grants hp h
  | pnalloc => exact pnalloc_grants hp h
  | pmemalign => exact pmemalign_grants hp h

end Alloc

theorem freeEntry_perm {large large' : List (Option Region)}
    (h : freeEntry addr large = some large') :
    addr = 0 ∧ large'.filterMap id = large.filterMap id ∨
      ∃ r, r.addr = addr ∧ (large.filterMap id).Perm (r :: large'.filterMap id) := by
  induction large generalizing large' with
  | nil => cases h
  | cons l large ih =>
    simp only [freeEntry] at h
    split at h
    · next hl =>
      obtain rfl := Option.some.inj h
      cases l with
      | none => exact .inl ⟨hl.symm, rfl⟩
      | some r => exact .inr ⟨r, hl, List.Perm.refl _⟩
    · obtain ⟨large'', hrest, rfl⟩ := Option.map_eq_some_iff.1 h
      rcases ih hrest with ⟨haddr, heq⟩ | ⟨r, hr, hperm⟩
      · refine .inl ⟨haddr, ?_⟩
        cases l with
        | none => exact heq
        | some l => exact congrArg (l :: ·) heq
      · refine .inr ⟨r, hr, ?_⟩
        cases l with
        | none => exact hperm
        | some l => exact (hperm.cons l).trans (List.Perm.swap r l _)

theorem pfree_account (h : pfree p addr = some p') :
    Account malloc.alloc p.regions [.free addr] p'.regions := by
  obtain ⟨large, hfree, rfl⟩ := Option.map_eq_some_iff.1 h
  rcases freeEntry_perm hfree with ⟨rfl, heq⟩ | ⟨r, rfl, hperm⟩
  · refine .null (.done ?_)
    unfold Pool.regions Pool.larges
    rw [heq]
    exact List.Perm.refl _
  · exact .free (hperm.append_right _) (.done (List.Perm.refl _))

theorem reset_blocks : (resetPool p).blocks.map Block.region = p.blocks.map Block.region := by
  simp [Pool.blocks, resetPool, Block.region]

theorem reset_account : Account malloc.alloc p.regions (freeLarges p) (resetPool p).regions := by
  have h : (resetPool p).regions = p.blocks.map Block.region := reset_blocks
  rw [h]
  exact .frees (List.Perm.refl _)

/-- The first block is all that is left. -/
theorem shrink_account :
    Account malloc.alloc p.regions (freeLarges p ++ freeNexts p) (shrink (resetPool p)).regions := by
  have h : freeLarges p ++ freeNexts p =
      (p.larges ++ p.nexts.map Block.region).map fun r => .free r.addr := by
    unfold freeLarges freeNexts
    rw [List.map_append, List.map_map]
    rfl
  rw [h]
  refine .frees ?_
  change (p.larges ++ p.d.region :: p.nexts.map Block.region).Perm
    (p.larges ++ p.nexts.map Block.region ++ [p.d.region])
  rw [List.append_assoc]
  exact (List.perm_append_singleton _ _).symm.append_left p.larges

theorem freePool_account : Account malloc.alloc p.regions (freePool p) [] := by
  have h : freePool p = p.regions.map fun r => .free r.addr := by
    unfold freePool freeLarges Pool.regions
    rw [List.map_append, List.map_map]
    rfl
  rw [h]
  exact .frees (by rw [List.append_nil])

/-- A pool that has given up some of its regions. -/
theorem Pool.Valid.less (hp : p.Valid) (hfine : ∀ b ∈ p'.blocks, b.Fine)
    (hregions : p'.regions.Subperm p.regions) (hlarges : ∀ r ∈ p'.larges, r ∈ p.larges)
    (hd : p'.d.region = p.d.region) (hmax : p'.max = p.max) : p'.Valid := by
  obtain ⟨rs, hperm, hsub⟩ := hregions
  refine ⟨hfine, ?_, fun r hr => hp.bounded r (hlarges r hr), hd ▸ hp.words, by
    rw [hd, hmax]
    exact hp.size⟩
  exact (hperm.pairwise_iff Region.Apart.symm).1 (hp.apart.sublist hsub)

theorem pfree_valid (hp : p.Valid) (h : pfree p addr = some p') : p'.Valid := by
  obtain ⟨large, hfree, rfl⟩ := Option.map_eq_some_iff.1 h
  have hsub : (large.filterMap id).Subperm p.larges := by
    rcases freeEntry_perm hfree with ⟨-, heq⟩ | ⟨r, -, hperm⟩
    · exact heq ▸ List.Subperm.refl _
    · exact (List.sublist_cons_self r _).subperm.trans hperm.symm.subperm
  exact hp.less hp.fine ((List.subperm_append_right _).2 hsub) hsub.subset rfl rfl

theorem reset_fine (hp : p.Valid) (huniform : p.Uniform) : ∀ b ∈ (resetPool p).blocks, b.Fine := by
  have hsize := hp.size
  unfold NxPool.sizeofPool at hsize
  have hroom : ∀ b ∈ p.blocks, ∀ n, 0 < n → n ≤ 72 →
      ({ b with last := b.addr + n, failed := 0 } : Block).Fine := by
    intro b hb n hpos hn
    have hlen := huniform b.region (List.mem_map_of_mem hb)
    obtain ⟨hstart, hheader, hlast, hword, hbounded⟩ := hp.fine b hb
    rw [← hlen] at hsize
    simp only [Block.region] at hsize
    exact ⟨hstart, by simp only; omega, by simp only; omega, hword, hbounded⟩
  intro b hb
  rcases List.mem_cons.1 hb with rfl | hb
  · exact hroom p.d List.mem_cons_self _ (by decide) (by decide)
  · obtain ⟨c, hc, rfl⟩ := List.mem_map.1 hb
    exact hroom c (List.mem_cons_of_mem _ hc) _ (by decide) (by decide)

theorem reset_valid (hp : p.Valid) (huniform : p.Uniform) : (resetPool p).Valid := by
  refine hp.less (reset_fine hp huniform) ?_ (fun r hr => absurd hr List.not_mem_nil) rfl rfl
  have h : (resetPool p).regions = p.blocks.map Block.region := reset_blocks
  rw [h]
  exact (List.sublist_append_right _ _).subperm

theorem reset_uniform (huniform : p.Uniform) : (resetPool p).Uniform := by
  intro r hr
  rw [reset_blocks] at hr
  exact huniform r hr

theorem shrink_uniform : (shrink p).Uniform := by
  intro r hr
  obtain rfl := List.mem_singleton.1 hr
  rfl

theorem shrink_valid (hp : p.Valid) : (shrink p).Valid := by
  refine hp.less (fun b hb => ?_) ?_ (fun r hr => hr) rfl rfl
  · obtain rfl := List.mem_singleton.1 hb
    exact hp.fine p.d List.mem_cons_self
  · exact ((List.Sublist.refl p.larges).append ((List.nil_sublist _).cons_cons _)).subperm

/-- The bytes of `r` are a large allocation, or lie in what a block has handed out. -/
def Pool.Holds (p : Pool) (r : Region) : Prop :=
  0 < r.len ∧ (r ∈ p.larges ∨ ∃ b ∈ p.blocks, r.Within b.used)

theorem not_apart_of_within (hlen : 0 < r.len) (hwithin : r.Within x) : ¬ x.Apart r := by
  unfold Region.Within Region.limit at hwithin
  unfold Region.Apart Region.limit
  omega

theorem Pool.Holds.used (h : p.Holds r) : p.Used r := by
  rcases h.2 with hr | hr
  · exact .inl ⟨r, hr, Region.Within.refl r⟩
  · exact .inr hr

/-- What is used and apart from all that was large before is new, or lies in a block. -/
theorem holds_of_used (hlen : 0 < r.len) (hr : p.Used r)
    (hlarges : ∀ y ∈ p.larges, y = r ∨ y.Apart r) : p.Holds r := by
  rcases hr with ⟨y, hy, hry⟩ | hr
  · rcases hlarges y hy with rfl | hapart
    · exact ⟨hlen, .inl hy⟩
    · exact absurd hapart (not_apart_of_within hlen hry)
  · exact ⟨hlen, .inr hr⟩

theorem mem_larges {y : Region} (hlarges : p'.larges = p.larges ∨ p'.larges.Perm (r :: p.larges))
    (hy : y ∈ p'.larges) : y = r ∨ y ∈ p.larges := by
  rcases hlarges with heq | hperm
  · exact .inr (heq ▸ hy)
  · exact List.mem_cons.1 (hperm.mem_iff.1 hy)

section Granted

variable (hgrants : p.Grants r p') (hlarges : p'.larges = p.larges ∨ p'.larges.Perm (r :: p.larges))
include hgrants hlarges

theorem Pool.Grants.holds_new (hlen : 0 < r.len) : p'.Holds r := by
  refine holds_of_used hlen hgrants.used fun y hy => ?_
  refine (mem_larges hlarges hy).imp_right fun hy => ?_
  exact hgrants.apart y (.inl ⟨y, hy, Region.Within.refl y⟩)

theorem Pool.Grants.holds (hp : p.Valid) (hx : p.Holds x) : p'.Holds x := by
  have hused := hx.used
  obtain ⟨hlen, hx' | ⟨b, hb, hxb⟩⟩ := hx
  · refine ⟨hlen, .inl ?_⟩
    rcases hlarges with heq | hperm
    · exact heq ▸ hx'
    · exact hperm.mem_iff.2 (List.mem_cons_of_mem r hx')
  · refine holds_of_used hlen (hgrants.keeps x hused) fun y hy => .inr ?_
    rcases mem_larges hlarges hy with rfl | hy
    · exact (hgrants.apart x hused).symm
    · have hapart := (List.pairwise_append.1 hp.apart).2.2 y hy b.region (List.mem_map_of_mem hb)
      exact (hapart.symm.within (hxb.trans (hp.fine b hb).used_within)).symm

end Granted

theorem pfree_holds (h : pfree p addr = some p') (hx : p.Holds x) (haddr : x.addr ≠ addr) :
    p'.Holds x := by
  obtain ⟨large, hfree, rfl⟩ := Option.map_eq_some_iff.1 h
  refine ⟨hx.1, hx.2.imp_left fun hmem => ?_⟩
  rcases freeEntry_perm hfree with ⟨-, heq⟩ | ⟨r, hr, hperm⟩
  · have hsame : ({ p with large } : Pool).larges = p.larges := heq
    exact hsame ▸ hmem
  · rcases List.mem_cons.1 (hperm.mem_iff.1 hmem) with rfl | hmem
    · exact absurd hr haddr
    · exact hmem

namespace Pools

variable {s s' : Pools} {k : Nat} {o : Option Pool} {held : List Region} {m : Allocator}
  {g : Nat × Region}

/-- What the heap holds is what the pools have, and what they have granted lies in it, no
two allocations in each other's way. -/
structure Sound (s : Pools) : Prop where
  held : ∃ held, s.held = some held ∧ held.Perm s.regions ∧ Sane held
  granted : ∀ g ∈ s.granted, ∃ p, s.pool g.1 = some p ∧ p.Holds g.2
  apart : s.granted.Pairwise fun g g' => g.2.Apart g'.2

/-- The invariant. -/
structure Inv (s : Pools) : Prop extends Sound s where
  valid : ∀ k p, s.pool k = some p → p.Valid ∧ p.Uniform

theorem pool_eq : s.pool k = some p ↔ s.pools[k]? = some (some p) := by
  simp [pool, Option.join_eq_some_iff]

theorem pool_lt (h : s.pool k = some p) : k < s.pools.length :=
  (List.getElem?_eq_some_iff.1 (pool_eq.1 h)).1

theorem pool_put {j : Nat} (h : s.pool k = some p) :
    (s.put k o).pool j = if j = k then o else s.pool j := by
  unfold pool put
  split
  · next hj =>
    rw [hj, List.getElem?_set_self (pool_lt h), Option.join_some]
  · next hj => rw [List.getElem?_set_ne (Ne.symm hj)]

theorem put_self (h : s.pool k = some p) : s.put k (some p) = s := by
  obtain ⟨hlt, hget⟩ := List.getElem?_eq_some_iff.1 (pool_eq.1 h)
  unfold put
  rw [← hget, List.set_getElem_self]

/-- The regions of the pool at `k` and those of the others. -/
theorem regions_put (h : s.pool k = some p) :
    (s.put k o).regions.Perm (o.elim [] Pool.regions ++ (s.put k none).regions) := by
  have hlt := pool_lt h
  unfold regions put
  rw [List.set_eq_take_append_cons_drop, if_pos hlt, List.set_eq_take_append_cons_drop, if_pos hlt,
    List.flatMap_append, List.flatMap_cons, List.flatMap_append, List.flatMap_cons]
  simp only [Option.elim_none, List.nil_append]
  rw [← List.append_assoc, ← List.append_assoc]
  exact List.perm_append_comm.append_right _

/-- A pool's calls, where it becomes `o` with them. -/
theorem held_put (h : s.pool k = some p)
    (hheld : ∃ held, s.held = some held ∧ held.Perm s.regions ∧ Sane held)
    (hacc : Account (m.beside (s.held.getD [])).alloc p.regions cs (o.elim [] Pool.regions)) :
    ∃ held, ((s.put k o).called cs).held = some held ∧ held.Perm (s.put k o).regions ∧
      Sane held := by
  obtain ⟨held, hsome, hperm, hsane⟩ := hheld
  have hregions := regions_put (o := some p) h
  rw [put_self h] at hregions
  have hown := hperm.trans hregions
  rw [hsome] at hacc
  have hfresh : ∀ {live : List Region} {size addr : Nat},
      (m.beside held).alloc live size = some addr →
        addr ≠ 0 ∧ ∀ r ∈ (s.put k none).regions ++ live, Beside r ⟨addr, size⟩ := by
    intro live size addr halloc
    refine ⟨Nat.pos_iff_ne_zero.1 (Malloc.bounded _ halloc).1, fun r hr => ?_⟩
    have hmem : r ∈ held ++ live := by
      rcases List.mem_append.1 hr with hr | hr
      · exact List.mem_append_left _ (hown.mem_iff.2 (List.mem_append_right _ hr))
      · exact List.mem_append_right _ hr
    exact ⟨m.fresh halloc r hmem, m.distinct halloc r hmem⟩
  obtain ⟨held', hrun, hperm', hsane'⟩ := hacc.run hfresh hsane hown
  refine ⟨held', ?_, hperm'.trans (regions_put h).symm, hsane'⟩
  change s.held.bind (Heap.calls · cs) = some held'
  rw [hsome]
  exact hrun

/-- A region of the pool at `k` as it is now, and one of another pool. -/
theorem regions_beside {j : Nat} {q : Pool} {y z : Region} (h : s.pool k = some p) (hj : j ≠ k)
    (hq : s.pool j = some q) (hy : y ∈ p'.regions) (hz : z ∈ q.regions)
    (hsane : Sane (s.put k (some p')).regions) : Beside y z := by
  have hothers : z ∈ (s.put k none).regions := by
    have hget : (s.put k none).pool j = some q := by rw [pool_put h, if_neg hj, hq]
    exact List.mem_flatMap.2 ⟨some q, List.mem_of_getElem? (pool_eq.1 hget), hz⟩
  exact (List.pairwise_append.1 (hsane.perm (regions_put h)).beside).2.2 y hy z hothers

/-- The pool at `k` becomes `o`; the others keep what they have granted. -/
theorem Inv.update {granted : List (Nat × Region)} (h : s.Inv) (hk : s.pool k = some p)
    (hacc : Account (m.beside (s.held.getD [])).alloc p.regions cs (o.elim [] Pool.regions))
    (hvalid : ∀ p', o = some p' → p'.Valid ∧ p'.Uniform)
    (hothers : ∀ g ∈ granted, g.1 ≠ k → g ∈ s.granted)
    (hown : ∀ g ∈ granted, g.1 = k → ∃ p', o = some p' ∧ p'.Holds g.2)
    (hapart : granted.Pairwise fun g g' => g.2.Apart g'.2) :
    Inv { (s.put k o).called cs with granted } := by
  refine ⟨⟨held_put hk h.held hacc, fun g hg => ?_, hapart⟩, fun j q hq => ?_⟩
  · change ∃ p, (s.put k o).pool g.1 = some p ∧ p.Holds g.2
    rw [pool_put hk]
    split
    · next hgk => exact hown g hg hgk
    · next hgk => exact h.granted g (hothers g hg hgk)
  · change (s.put k o).pool j = some q at hq
    rw [pool_put hk] at hq
    split at hq
    · exact hvalid q hq
    · exact h.valid j q hq

/-- A pool that takes back all it has granted. -/
theorem Inv.revoked (h : s.Inv) (hk : s.pool k = some p)
    (hacc : Account (m.beside (s.held.getD [])).alloc p.regions cs (o.elim [] Pool.regions))
    (hvalid : ∀ p', o = some p' → p'.Valid ∧ p'.Uniform) :
    (((s.put k o).called cs).revoke fun g => g.1 = k).Inv := by
  have hmem : ∀ g ∈ s.granted.filter fun g => !decide (g.1 = k), g ∈ s.granted ∧ g.1 ≠ k := by
    intro g hg
    simpa using hg
  refine h.update hk hacc hvalid (fun g hg _ => (hmem g hg).1)
    (fun g hg hgk => absurd hgk (hmem g hg).2) ?_
  exact h.apart.sublist List.filter_sublist

theorem Inv.freed {addr : Nat} (h : s.Inv) (m : Allocator) (hk : s.pool k = some p) :
    (s.freed k p addr).Inv := by
  obtain ⟨hvalid, huniform⟩ := h.valid k p hk
  unfold Pools.freed
  cases hfree : pfree p addr with
  | none => exact h
  | some p' =>
    have hmem : ∀ g ∈ s.granted.filter fun g => !decide (g.1 = k ∧ g.2.addr = addr),
        g ∈ s.granted ∧ (g.1 = k → g.2.addr ≠ addr) := by
      intro g hg
      simp only [List.mem_filter, Bool.not_eq_true', decide_eq_false_iff_not, not_and] at hg
      exact hg
    have hblocks : p'.blocks = p.blocks := by
      obtain ⟨large, -, rfl⟩ := Option.map_eq_some_iff.1 hfree
      rfl
    refine h.update (m := m) (o := some p') hk (pfree_account hfree) ?_
      (fun g hg _ => (hmem g hg).1) (fun g hg hgk => ?_) (h.apart.sublist List.filter_sublist)
    · rintro q ⟨⟩
      have hd : p'.d = p.d := (List.cons.inj hblocks).1
      refine ⟨pfree_valid hvalid hfree, fun r hr => ?_⟩
      rw [hd]
      rw [hblocks] at hr
      exact huniform r hr
    · obtain ⟨q, hq, hholds⟩ := h.granted g (hmem g hg).1
      rw [hgk] at hq
      obtain rfl := Option.some.inj (hk.symm.trans hq)
      exact ⟨p', rfl, pfree_holds hfree hholds ((hmem g hg).2 hgk)⟩

/-- What is granted anew shares nothing with what any pool has granted before. -/
theorem granted_apart (h : s.Inv) (hk : s.pool k = some p) (hp' : p'.Valid)
    (hgrants : p.Grants r p') (hr : p'.Holds r) (hsane : Sane (s.put k (some p')).regions)
    (hg : g ∈ s.granted) : r.Apart g.2 := by
  obtain ⟨q, hq, hholds⟩ := h.granted g hg
  by_cases hgk : g.1 = k
  · rw [hgk] at hq
    obtain rfl := Option.some.inj (hk.symm.trans hq)
    exact (hgrants.apart g.2 hholds.used).symm
  · obtain ⟨y, hy, hry⟩ := hp'.within hr.used
    obtain ⟨z, hz, hgz⟩ := (h.valid g.1 q hq).1.within hholds.used
    have hapart := (regions_beside hk hgk hq hy hz hsane).1
    exact ((hapart.within hry).symm.within hgz).symm

theorem Inv.allocated {size : Nat} (h : s.Inv) (hk : s.pool k = some p) :
    (s.allocated (m.beside (s.held.getD [])) a k p size).Inv := by
  obtain ⟨hvalid, huniform⟩ := h.valid k p hk
  unfold Pools.allocated
  cases hrun : a.serve (m.beside (s.held.getD [])) p size with
  | none =>
    have hsame := put_self hk
    have hinv := h.update (m := m) (o := some p) hk (Alloc.serve_account hrun) ?_ (fun g hg _ => hg)
      (fun g hg hgk => ?_) h.apart
    · rwa [hsame] at hinv
    · rintro q ⟨⟩
      exact ⟨hvalid, huniform⟩
    · obtain ⟨q, hq, hholds⟩ := h.granted g hg
      rw [hgk] at hq
      exact ⟨q, (hk.symm.trans hq), hholds⟩
  | some granted =>
    obtain ⟨addr, p'⟩ := granted
    obtain ⟨hgrows, hlarges⟩ := Alloc.serve_grows hvalid hrun
    have hgrants := Alloc.serve_grants hvalid hrun
    obtain ⟨held, -, hperm, hsane⟩ := held_put (o := some p') hk h.held hgrows.account
    have hold : ∀ g ∈ s.granted, g.1 = k → ∃ q, some p' = some q ∧ q.Holds g.2 := by
      intro g hg hgk
      obtain ⟨q, hq, hholds⟩ := h.granted g hg
      rw [hgk] at hq
      obtain rfl := Option.some.inj (hk.symm.trans hq)
      exact ⟨p', rfl, hgrants.holds hlarges hvalid hholds⟩
    have hvalid' : ∀ q, some p' = some q → q.Valid ∧ q.Uniform := by
      rintro q ⟨⟩
      exact ⟨hgrants.valid, hgrows.uniform huniform⟩
    simp only [grant]
    split
    · next hlen =>
      have hnew := hgrants.holds_new hlarges hlen
      refine h.update hk hgrows.account hvalid' (fun g hg hgk => ?_) (fun g hg hgk => ?_)
        (List.pairwise_cons.2 ⟨fun g hg => ?_, h.apart⟩)
      · rcases List.mem_cons.1 hg with rfl | hg
        · exact absurd rfl hgk
        · exact hg
      · rcases List.mem_cons.1 hg with rfl | hg
        · exact ⟨p', rfl, hnew⟩
        · exact hold g hg hgk
      · exact granted_apart h hk hgrants.valid hgrants hnew (hsane.perm hperm) hg
    · exact h.update hk hgrows.account hvalid' (fun g hg _ => hg) hold h.apart

theorem regions_snoc : ({ s with pools := s.pools ++ [some p] } : Pools).regions =
    s.regions ++ p.regions := by
  unfold regions
  rw [List.flatMap_append, List.flatMap_singleton]
  rfl

theorem pool_snoc (k : Nat) : ({ s with pools := s.pools ++ [some p] } : Pools).pool k =
    if k = s.pools.length then some p else s.pool k := by
  unfold pool
  split
  · next hk =>
    rw [hk, List.getElem?_concat_length]
    rfl
  · next hk =>
    rcases Nat.lt_or_gt_of_ne hk with hlt | hgt
    · rw [List.getElem?_append_left hlt]
    · rw [List.getElem?_eq_none (by simp; omega), List.getElem?_eq_none (by omega)]

theorem createPool_uniform {malloc : Malloc} (h : createPool malloc size = some p) :
    p.Uniform ∧ p.regions = [p.d.region] ∧ malloc.alloc [] size = some p.d.addr ∧
      p.d.region = ⟨p.d.addr, size⟩ := by
  obtain ⟨addr, halloc, rfl⟩ := Option.map_eq_some_iff.1 h
  refine ⟨fun r hr => ?_, rfl, halloc, by simp [Block.region]⟩
  obtain rfl := List.mem_singleton.1 hr
  rfl

theorem Inv.created {size : Nat} (h : s.Inv) (hwords : 8 ∣ size)
    (hsize : NxPool.sizeofPool ≤ size) : (s.created (m.beside (s.held.getD [])) size).Inv := by
  unfold Pools.created
  cases hcreate : createPool (m.beside (s.held.getD [])) size with
  | none => exact h
  | some p =>
    have hvalid := createPool_valid hwords hsize hcreate
    obtain ⟨huniform, hregions, halloc, hregion⟩ := createPool_uniform hcreate
    have hpool := @pool_snoc p s
    obtain ⟨held, hheld, hperm, hsane⟩ := h.held
    refine ⟨⟨⟨p.d.region :: held, ?_, ?_, ?_⟩, fun g hg => ?_, h.apart⟩, fun j q hq => ?_⟩
    · change s.held.bind (Heap.calls · _) = _
      rw [hheld]
      rfl
    · change (p.d.region :: held).Perm ({ s with pools := s.pools ++ [some p] } : Pools).regions
      rw [regions_snoc, hregions]
      exact (hperm.cons _).trans (List.perm_append_singleton _ _).symm
    · rw [hheld] at halloc
      have hmem : ∀ r ∈ held, r ∈ held ++ [] := fun r hr => List.mem_append_left [] hr
      rw [hregion]
      refine hsane.cons (Nat.pos_iff_ne_zero.1 (m.bounded halloc).1) fun r hr => ?_
      exact ⟨m.fresh halloc r (hmem r hr), m.distinct halloc r (hmem r hr)⟩
    · obtain ⟨q, hq, hholds⟩ := h.granted g hg
      refine ⟨q, ?_, hholds⟩
      change ({ s with pools := s.pools ++ [some p] } : Pools).pool g.1 = some q
      rw [hpool, if_neg (Nat.ne_of_lt (pool_lt hq)), hq]
    · change ({ s with pools := s.pools ++ [some p] } : Pools).pool j = some q at hq
      rw [hpool] at hq
      split at hq
      · obtain rfl := Option.some.inj hq
        exact ⟨hvalid, huniform⟩
      · exact h.valid j q hq

theorem Inv.next {e : PoolEvent} (h : s.Inv) (hfits : e.Fits)
    (hnext : (NxBuf.pools m).next s e = some s') : s'.Inv := by
  cases e with
  | create size =>
    obtain rfl := Option.some.inj hnext
    exact h.created hfits.1 hfits.2
  | alloc a k size =>
    obtain ⟨p, hk, rfl⟩ := Option.map_eq_some_iff.1 hnext
    exact h.allocated hk
  | pfree k addr =>
    obtain ⟨p, hk, rfl⟩ := Option.map_eq_some_iff.1 hnext
    exact h.freed m hk
  | reset k =>
    obtain ⟨p, hk, rfl⟩ := Option.map_eq_some_iff.1 hnext
    obtain ⟨hvalid, huniform⟩ := h.valid k p hk
    refine h.revoked (m := m) (o := some (resetPool p)) hk reset_account ?_
    rintro q ⟨⟩
    exact ⟨reset_valid hvalid huniform, reset_uniform huniform⟩
  | resetParser k =>
    obtain ⟨p, hk, rfl⟩ := Option.map_eq_some_iff.1 hnext
    obtain ⟨hvalid, huniform⟩ := h.valid k p hk
    refine h.revoked (m := m) (o := some (shrink (resetPool p))) hk shrink_account ?_
    rintro q ⟨⟩
    exact ⟨shrink_valid (reset_valid hvalid huniform), shrink_uniform⟩
  | destroy k =>
    obtain ⟨p, hk, rfl⟩ := Option.map_eq_some_iff.1 hnext
    exact h.revoked (m := m) (o := none) hk freePool_account fun q hq => by cases hq

end Pools

theorem noPools_inv : noPools.Inv :=
  ⟨⟨⟨[], rfl, List.Perm.refl _, Sane.nil⟩, fun g hg => absurd hg List.not_mem_nil,
    List.Pairwise.nil⟩, fun k p hk => by simp [noPools, Pools.pool] at hk⟩

/-- Whatever the pools' users do, in whatever order, with pools of sizes that fit: nothing is freed that is not held, the
heap holds what the pools have and no more, and what has been granted and not taken back
lies apart in it; with the last pool gone, all has been given back. -/
theorem pools_sound {m : Allocator} {events : List PoolEvent} {s : Pools}
    (hfits : ∀ e ∈ events, e.Fits) (hrun : (pools m).run noPools events = some s) :
    s.Sound ∧ ((∀ k, s.pool k = none) → s.held = some []) := by
  have hinv : s.Inv := by
    refine Transition.System.run_invariant (P := fun _ e => e.Fits) (fun s e s' h he hnext => ?_)
      noPools_inv (Transition.System.meets_of_forall fun _ => hfits) hrun
    exact h.next he hnext
  refine ⟨hinv.toSound, fun hnone => ?_⟩
  obtain ⟨held, hheld, hperm, -⟩ := hinv.held
  have hregions : s.regions = [] := by
    refine List.flatMap_eq_nil_iff.2 fun o ho => ?_
    obtain ⟨k, hk⟩ := List.mem_iff_getElem?.1 ho
    cases o with
    | none => rfl
    | some p => exact absurd (hnone k) (by rw [Pools.pool_eq.2 hk]; simp)
  rw [hregions] at hperm
  rw [hheld, hperm.eq_nil]

/-- A region and the byte behind it. -/
def padded (r : Region) : Region := ⟨r.addr, r.len + 1⟩

theorem nextFree_padded {live : List Region} {size addr : Nat} {r : Region}
    (h : nextFree.alloc (live.map padded) size = some addr) (hr : r ∈ live) : r.addr < addr := by
  obtain ⟨-, heq⟩ := Option.ite_none_right_eq_some.1 h
  rw [← Option.some.inj heq]
  have hlimit : (padded r).limit ≤ behind (live.map padded) :=
    limit_le_behind (List.mem_map_of_mem hr)
  exact Nat.lt_of_lt_of_le (Nat.lt_add_of_pos_right (Nat.succ_pos _)) hlimit

/-- A `malloc` that leaves a byte behind every region. -/
def nextApart : Allocator where
  alloc live size := nextFree.alloc (live.map padded) size
  fresh h r hr := (nextFree.fresh h (padded r) (List.mem_map_of_mem hr)).within
    ⟨Nat.le_refl _, Nat.le_succ _⟩
  aligned h := nextFree.aligned h
  bounded h := nextFree.bounded h
  distinct h _ hr := Nat.ne_of_lt (nextFree_padded h hr)

/-- The two pools of a parser, the second reset after it has freed what it had of its own. -/
def parserPools : List PoolEvent :=
  [.create 1024, .create 4096, .alloc .palloc 0 100, .alloc .palloc 1 5000, .alloc .pnalloc 1 3,
    .alloc .palloc 1 4000, .alloc .palloc 1 64, .pfree 1 5168, .alloc .pmemalign 0 2000,
    .resetParser 1, .alloc .palloc 1 500]

theorem pools_sound_parserPools : ∃ s, (pools nextApart).run noPools parserPools = some s ∧
    s.Sound ∧ s.granted.length = 3 := by
  obtain ⟨s, hrun⟩ := Option.isSome_iff_exists.1
    (show ((pools nextApart).run noPools parserPools).isSome from rfl)
  have hlen : ((pools nextApart).run noPools parserPools).map (·.granted.length) = some 3 := rfl
  rw [hrun] at hlen
  have hfits : ∀ e ∈ parserPools, e.Fits := by
    simp [parserPools, PoolEvent.Fits, NxPool.sizeofPool]
  exact ⟨s, hrun, (pools_sound hfits hrun).1, Option.some.inj hlen⟩

end KjRedis.NxBuf
