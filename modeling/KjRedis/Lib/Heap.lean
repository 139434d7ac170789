import KjRedis.Lib.Memory

/-! A heap as its callers see it: the regions allocated and not yet freed, and what calls
of `malloc` and `free` make of them. -/
namespace Heap

open Memory

/-- The calls that come back with a region, and those that give one back. -/
inductive Call where
  | malloc (r : Region)
  | free (addr : Nat)
  deriving DecidableEq, Repr

/-- `none` where what is freed is neither null nor the start of a region that is held. -/
def call (held : List Region) : Call → Option (List Region)
  | .malloc r => some (r :: held)
  | .free addr =>
    if addr = 0 then some held
    else if addr ∈ held.map Region.addr then some (held.eraseP fun r => r.addr = addr)
    else none

def calls (held : List Region) (cs : List Call) : Option (List Region) := cs.foldlM call held

/-- What two regions that are held at one time are to each other. -/
def Beside (r s : Region) : Prop := r.Apart s ∧ r.addr ≠ s.addr

/-- A heap that no region of which is at the null address or in the way of another. -/
structure Sane (held : List Region) : Prop where
  beside : held.Pairwise Beside
  nonnull : ∀ r ∈ held, r.addr ≠ 0

/-- The calls take an owner of the regions `live` to `live'`: it frees what is its own, and
`alloc` is told what it has. -/
inductive Account (alloc : List Region → Nat → Option Nat) :
    List Region → List Call → List Region → Prop
  | done {live live' : List Region} (h : live.Perm live') : Account alloc live [] live'
  | malloc {live live' : List Region} {size addr : Nat} {cs : List Call}
      (h : alloc live size = some addr) (hrest : Account alloc (⟨addr, size⟩ :: live) cs live') :
      Account alloc live (.malloc ⟨addr, size⟩ :: cs) live'
  | free {live rest live' : List Region} {r : Region} {cs : List Call}
      (h : live.Perm (r :: rest)) (hrest : Account alloc rest cs live') :
      Account alloc live (.free r.addr :: cs) live'
  | null {live live' : List Region} {cs : List Call} (hrest : Account alloc live cs live') :
      Account alloc live (.free 0 :: cs) live'

variable {r s : Region} {held live live' rest rs : List Region} {c : Call} {cs : List Call}
  {alloc : List Region → Nat → Option Nat}

theorem Beside.symm (h : Beside r s) : Beside s r := ⟨h.1.symm, h.2.symm⟩

theorem Sane.nil : Sane [] := ⟨List.Pairwise.nil, fun _ h => absurd h List.not_mem_nil⟩

theorem Sane.perm (h : Sane held) (hperm : held.Perm live) : Sane live :=
  ⟨(hperm.pairwise_iff Beside.symm).1 h.beside, fun r hr => h.nonnull r (hperm.mem_iff.2 hr)⟩

theorem Sane.tail (h : Sane (r :: held)) : Sane held :=
  ⟨(List.pairwise_cons.1 h.beside).2, fun s hs => h.nonnull s (List.mem_cons_of_mem r hs)⟩

theorem Sane.cons (h : Sane held) (hr : r.addr ≠ 0) (hbeside : ∀ s ∈ held, Beside s r) :
    Sane (r :: held) := by
  refine ⟨List.pairwise_cons.2 ⟨fun s hs => (hbeside s hs).symm, h.beside⟩, fun s hs => ?_⟩
  rcases List.mem_cons.1 hs with rfl | hs
  · exact hr
  · exact h.nonnull s hs

theorem calls_cons (h : call held c = some live) : calls held (c :: cs) = calls live cs := by
  unfold calls
  rw [List.foldlM_cons, h]
  rfl

/-- An address frees the one region that starts there. -/
theorem call_free (hsane : Sane held) (hperm : held.Perm (r :: rest)) :
    ∃ held', call held (.free r.addr) = some held' ∧ held'.Perm rest := by
  have hmem : r ∈ held := hperm.mem_iff.2 List.mem_cons_self
  obtain ⟨s, l, l', -, hsr, hheld, herase⟩ :=
    @List.exists_of_eraseP _ (fun s => decide (s.addr = r.addr)) held r hmem (decide_eq_true rfl)
  refine ⟨l ++ l', ?_, ?_⟩
  · simp only [call]
    rw [if_neg (hsane.nonnull r hmem), if_pos (List.mem_map_of_mem hmem), herase]
  · have hs : s ∈ r :: rest := hperm.mem_iff.1 (by rw [hheld]; simp)
    have hsame : s = r := by
      rcases List.mem_cons.1 hs with hs | hs
      · exact hs
      · have hbeside := (List.pairwise_cons.1 (hsane.perm hperm).beside).1 s hs
        exact absurd (of_decide_eq_true hsr).symm hbeside.2
    rw [hheld, hsame] at hperm
    exact (List.perm_middle.symm.trans hperm).cons_inv

/-- What an owner does on its own account leaves the others' regions as they were. -/
theorem Account.run (hacc : Account alloc live cs live')
    (halloc : ∀ {live size addr}, alloc live size = some addr →
      addr ≠ 0 ∧ ∀ s ∈ rest ++ live, Beside s ⟨addr, size⟩)
    (hsane : Sane held) (hperm : held.Perm (live ++ rest)) :
    ∃ held', calls held cs = some held' ∧ held'.Perm (live' ++ rest) ∧ Sane held' := by
  induction hacc generalizing held with
  | done h => exact ⟨held, rfl, hperm.trans (h.append_right rest), hsane⟩
  | malloc h hrest ih =>
    obtain ⟨hnonnull, hbeside⟩ := halloc h
    have hsane' := hsane.cons hnonnull fun s hs =>
      hbeside s (List.perm_append_comm.mem_iff.1 (hperm.mem_iff.1 hs))
    obtain ⟨held', hrun, h'⟩ := ih hsane' (hperm.cons _)
    exact ⟨held', (calls_cons rfl).trans hrun, h'⟩
  | @free live own live' r cs h hrest ih =>
    have howned : held.Perm (r :: (own ++ rest)) := hperm.trans (h.append_right rest)
    obtain ⟨held₁, hcall, hperm₁⟩ := call_free hsane howned
    obtain ⟨held', hrun, h'⟩ := ih ((hsane.perm howned).tail.perm hperm₁.symm) hperm₁
    exact ⟨held', (calls_cons hcall).trans hrun, h'⟩
  | null hrest ih =>
    obtain ⟨held', hrun, h'⟩ := ih hsane hperm
    exact ⟨held', (calls_cons (by simp [call])).trans hrun, h'⟩

/-- The regions `rs` are all freed, one after the other. -/
theorem Account.frees (h : live.Perm (rs ++ rest)) :
    Account alloc live (rs.map fun r => .free r.addr) rest := by
  induction rs generalizing live with
  | nil => exact .done h
  | cons r rs ih => exact .free h (ih (List.Perm.refl _))

end Heap
