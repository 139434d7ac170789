import KjRedis.Reply.Stack
import Mathlib.Tactic.IntervalCases

/-! The builder stack over every storage it grows into. A builder pushed on a full
stack moves the stack, while the builders below it keep being used where they were. -/
namespace KjRedis.Reply

/-- The stack's array and the pool after `k` pushes on a full stack. -/
def storage : Nat → NxArray × NxPool
  | 0 => (createReplyParser.stackRrb, createReplyParser.pool)
  | k + 1 =>
    let (a, p) := storage k
    let (_, a, p, _) := { a with nelts := a.nalloc }.push p fun _ => ()
    (a, p)

def capacity (k : Nat) : Nat := (storage k).1.nalloc

def slotOf (k i : Nat) : Nat := (storage k).1.slot i

example : (List.range 10).map capacity = [16, 32, 33, 34, 35, 36, 37, 74, 148, 296] := by decide

/-- What a pop at a height of `n` clears: a slot of the array or free bytes of the
pool's block, the head of the reply, or memory that is not the pool's. -/
def popClears (k n : Nat) : Option Bool :=
  if n < capacity k then some false
  else if slotOf k n = createReplyParser.rAddr then some true
  else if slotOf k n + sizeofReplyBuilder ≤ (storage k).2.endAddr then some false
  else none

example : (List.range 10).map (fun k => popClears k (capacity k)) =
    [some true, some false, some false, some false, some false, some false, none, none, none, none] := by
  decide

theorem storage_size : ∀ k ≤ 9, (storage k).1.size = sizeofReplyBuilder := by decide

/-- The array is the last thing in the pool's block, with room for one more element. -/
def Extensible (k : Nat) : Prop :=
  (storage k).1.elts + (storage k).1.size * (storage k).1.nalloc = (storage k).2.last ∧
    (storage k).2.last + (storage k).1.size ≤ (storage k).2.endAddr

instance (k : Nat) : Decidable (Extensible k) := inferInstanceAs (Decidable (_ ∧ _))

theorem storage_moves : ∀ k < 9, ¬ Extensible k → slotOf k (capacity k) ≤ (storage (k + 1)).1.elts := by
  decide

theorem storage_elts_mono : ∀ k < 9, (storage k).1.elts ≤ (storage (k + 1)).1.elts := by decide

theorem capacity_grows : ∀ k < 9, capacity k < capacity (k + 1) := by decide

theorem capacity_pos : ∀ k ≤ 9, 16 ≤ capacity k := by decide

theorem capacity_last : capacity 9 = 296 := by decide

theorem slotOf_eq {k : Nat} (hk : k ≤ 9) (i : Nat) :
    slotOf k i = (storage k).1.elts + 16 * i := by
  rw [slotOf, NxArray.slot, storage_size k hk, sizeofReplyBuilder]

/-- A push on a full stack: the new storage starts where it was or beyond its end, and
the old builders are copied. -/
theorem push_full {α : Type*} {k : Nat} (hk : k < 9) (mem : Nat → α) :
    ∃ mem', NxArray.push { (storage k).1 with nelts := capacity k } (storage k).2 mem =
        (slotOf (k + 1) (capacity k), { (storage (k + 1)).1 with nelts := capacity k + 1 },
          (storage (k + 1)).2, mem') ∧
      (∀ a < slotOf k (capacity k), mem' a = mem a) ∧
      ∀ i < capacity k, mem' (slotOf (k + 1) i) = mem (slotOf k i) := by
  have hle := Nat.le_of_lt hk
  have hk' : k + 1 ≤ 9 := hk
  have hcap := capacity_pos k hle
  set full : NxArray := { (storage k).1 with nelts := capacity k } with hfull
  have hnext : ∀ res : Nat × NxArray × NxPool × (Nat → Unit), full.push (storage k).2 (fun _ => ()) = res →
      storage (k + 1) = (res.2.1, res.2.2.1) := by
    rintro res rfl
    rfl
  by_cases hin : Extensible k
  · have hs := hnext _ (@NxArray.push_in_place _ full _ _ rfl hin)
    refine ⟨mem, ?_, fun _ _ => rfl, fun i _ => ?_⟩
    · rw [@NxArray.push_in_place _ full _ mem rfl hin, slotOf, hs]
      rfl
    · rw [slotOf_eq hk', slotOf_eq hle, hs]
  · have hs := hnext _ (@NxArray.push_moved _ full _ _ rfl hin)
    have hbeyond := storage_moves k hk hin
    have helts := congrArg (fun q => q.1.elts) hs
    simp only at helts
    rw [slotOf_eq hle] at hbeyond ⊢
    have hlen : full.size * full.nalloc = 16 * capacity k := by
      rw [hfull, storage_size k hle]
      rfl
    refine ⟨NxArray.memcpy mem ((storage k).2.palloc (2 * (full.size * full.nalloc))).1 full.elts
      (full.size * full.nalloc), (@NxArray.push_moved _ full _ mem rfl hin).trans ?_, fun a ha => ?_,
      fun i hi => ?_⟩
    · rw [slotOf, hs]
      rfl
    · rw [NxArray.memcpy, if_neg (by omega)]
    · rw [slotOf_eq hk', slotOf_eq hle, NxArray.memcpy, helts, if_pos (by omega)]
      congr 1
      show (storage k).1.elts + _ = _
      omega

theorem storage_elts_le {k k' : Nat} (h : k ≤ k') (hk' : k' ≤ 9) :
    (storage k).1.elts ≤ (storage k').1.elts := by
  induction k', h using Nat.le_induction with
  | base => exact Nat.le_refl _
  | succ k' _ ih => exact (ih (by omega)).trans (storage_elts_mono k' hk')

theorem storage_apart : ∀ k ≤ 9, ∀ k' ≤ 9, k ≤ k' →
    (storage k').1.elts = (storage k).1.elts ∨ slotOf k (capacity k) ≤ (storage k').1.elts := by
  decide

/-- A builder stays apart from those of other depths, on its storage and every later one. -/
theorem slotOf_ne {k k' i j : Nat} (h : k ≤ k') (hk' : k' ≤ 9) (hi : i < capacity k) (hne : i ≠ j) :
    slotOf k i ≠ slotOf k' j := by
  have hslot := slotOf_eq (h.trans hk')
  rcases storage_apart k (h.trans hk') k' hk' h with heq | hle
  · rw [hslot, slotOf_eq hk', heq]
    omega
  · rw [hslot] at hle
    rw [hslot, slotOf_eq hk']
    omega

theorem slotOf_le {k k' : Nat} (h : k ≤ k') (hk' : k' ≤ 9) (i : Nat) : slotOf k i ≤ slotOf k' i := by
  rw [slotOf_eq (h.trans hk'), slotOf_eq hk']
  exact Nat.add_le_add_right (storage_elts_le h hk') _

/-- The stack holds `n` builders on its storage `k`. -/
structure RedisReplyParser.Holds (rrp : RedisReplyParser) (k n : Nat) : Prop where
  stack : rrp.stackRrb = { (storage k).1 with nelts := n }
  pool : rrp.pool = (storage k).2
  grown : k ≤ 9
  within : n ≤ capacity k

/-- The stack holds `n` builders on its storage `k`, the first of them the main builder
inside a reply. -/
structure RedisReplyParser.StackAt (rrp : RedisReplyParser) (k n : Nat) (cleared : Bool) : Prop where
  stack : rrp.stackRrb = { (storage k).1 with nelts := n }
  pool : rrp.pool = (storage k).2
  rAddr : rrp.rAddr = createReplyParser.rAddr
  grown : k ≤ 9
  within : n ≤ capacity k
  main : (rrp.builders (slotOf k 0)).state = 2
  cleared : rrp.rZeroed = cleared

/-- From `rrp` to `rrp'` no builder below an address changes. -/
structure RedisReplyParser.Below (addr : Nat) (rrp rrp' : RedisReplyParser) : Prop where
  builders : ∀ a < addr, rrp'.builders a = rrp.builders a
  state : rrp'.state = rrp.state

namespace RedisReplyParser

variable {rrp : RedisReplyParser} {k n : Nat} {z : Bool}

theorem Below.trans {addr addr' : Nat} {a b c : RedisReplyParser} (h : Below addr a b)
    (h' : Below addr' b c) (hle : addr ≤ addr') : Below addr a c where
  builders x hx := (h'.builders x (by omega)).trans (h.builders x hx)
  state := h'.state.trans h.state

theorem write_builders (rrp : RedisReplyParser) (rb a : Nat) (b : RedisReplyBuilder) :
    (rrp.write rb b).builders a = if a = rb then b else rrp.builders a :=
  Function.update_apply ..

/-- Storing through a builder that is not the main one. -/
theorem StackAt.write (h : StackAt rrp k n z) {rb : Nat} (hrb : rb ≠ slotOf k 0)
    (b : RedisReplyBuilder) : StackAt (rrp.write rb b) k n z :=
  { h with
    main := by
      rw [write_builders, if_neg hrb.symm]
      exact h.main }

theorem StackAt.parsed (h : StackAt rrp k n z) (m : Nat) :
    StackAt { rrp with parsed := m } k n z :=
  ⟨h.stack, h.pool, h.rAddr, h.grown, h.within, h.main, h.cleared⟩

theorem Below.write {addr rb : Nat} (hrb : addr ≤ rb) (b : RedisReplyBuilder) :
    Below addr rrp (rrp.write rb b) where
  builders a ha := by rw [write_builders, if_neg (by omega)]
  state := rfl

/-- The stack's storage once the builder of a depth is pushed. -/
def grow (k depth : Nat) : Nat := if depth = capacity k then k + 1 else k

/-- A push: the builders there are keep their values, in the old storage and in the new. -/
theorem Holds.push (h : Holds rrp k n) (hn : n < 2 ^ 8) :
    ∃ rrp', rrp.stackPushReplyBuilder = (slotOf (grow k n) n, rrp') ∧ Holds rrp' (grow k n) (n + 1) ∧
      rrp'.builders (slotOf (grow k n) n) = .zero ∧ Below (slotOf k n) rrp rrp' ∧
      (∀ i < n, rrp'.builders (slotOf (grow k n) i) = rrp.builders (slotOf k i)) ∧
      rrp'.rAddr = rrp.rAddr ∧ rrp'.rZeroed = rrp.rZeroed := by
  have hgrown := h.grown
  have hslot := slotOf_eq hgrown
  rw [stackPushReplyBuilder, h.stack, h.pool]
  by_cases hfull : n = capacity k
  · have hk : k < 9 := by
      rcases Nat.lt_or_eq_of_le hgrown with hk | rfl
      · exact hk
      · rw [capacity_last] at hfull
        omega
    have hslot' := slotOf_eq (show k + 1 ≤ 9 from hk)
    have hmono := storage_elts_mono k hk
    subst hfull
    rw [grow, if_pos rfl]
    obtain ⟨mem, hpush, hbelow, hcopied⟩ := push_full hk rrp.builders
    rw [hpush]
    refine ⟨_, rfl, ⟨rfl, rfl, hk, capacity_grows k hk⟩, Function.update_self .., ⟨fun a ha => ?_, rfl⟩,
      fun i hi => ?_, rfl, rfl⟩
    · show Function.update mem _ _ a = _
      rw [Function.update_of_ne (by rw [hslot] at ha; rw [hslot']; omega), hbelow a ha]
    · show Function.update mem _ _ (slotOf (k + 1) i) = _
      rw [Function.update_of_ne (by rw [hslot', hslot']; omega), hcopied i hi]
  · have hwithin := h.within
    have hlt : n < capacity k := by omega
    rw [grow, if_neg hfull, NxArray.push_of_lt (storage k).2 rrp.builders hlt]
    refine ⟨_, rfl, ⟨rfl, rfl, hgrown, hlt⟩, Function.update_self .., ⟨fun a ha => ?_, rfl⟩,
      fun i hi => ?_, rfl, rfl⟩
    · show Function.update rrp.builders (slotOf k n) _ a = _
      exact Function.update_of_ne (Nat.ne_of_lt ha) ..
    · show Function.update rrp.builders (slotOf k n) _ (slotOf k i) = _
      exact Function.update_of_ne (by rw [hslot, hslot]; omega) ..

theorem StackAt.holds (h : StackAt rrp k n z) : Holds rrp k n :=
  ⟨h.stack, h.pool, h.grown, h.within⟩

theorem StackAt.push (h : StackAt rrp k n z) (hpos : 0 < n) (hn : n < 2 ^ 8) :
    ∃ rb rrp', rrp.stackPushReplyBuilder = (rb, rrp') ∧ StackAt rrp' (grow k n) (n + 1) z ∧
      rb = slotOf (grow k n) n ∧ rrp'.builders rb = .zero ∧ Below (slotOf k n) rrp rrp' := by
  obtain ⟨rrp', hpush, hon, hzero, hbelow, hlive, haddr, hcleared⟩ := h.holds.push hn
  refine ⟨_, rrp', hpush, ⟨hon.stack, hon.pool, haddr.trans h.rAddr, hon.grown, hon.within, ?_,
    hcleared.trans h.cleared⟩, rfl, hzero, hbelow⟩
  rw [hlive 0 hpos]
  exact h.main

theorem le_grow (k n : Nat) : k ≤ grow k n := by
  rw [grow]
  split <;> omega

theorem StackAt.alloc (h : StackAt rrp k n z) (hpos : 0 < n) (hn : n < 2 ^ 8) :
    ∃ rb rrp', rrp.stackAllocReplyBuilder n = (rb, rrp') ∧ StackAt rrp' (grow k n) (n + 1) z ∧
      rb = slotOf (grow k n) n ∧ rrp'.builders rb = { RedisReplyBuilder.zero with depth := n } ∧
      Below (slotOf k n) rrp rrp' := by
  obtain ⟨rb, rrp', hpush, hat, rfl, hzero, hbelow⟩ := h.push hpos hn
  have hslot := slotOf_eq hat.grown
  have hle := slotOf_le (le_grow k n) hat.grown n
  refine ⟨_, rrp'.write _ { rrp'.builders (slotOf (grow k n) n) with depth := n }, ?_,
    hat.write (by rw [hslot, hslot]; omega) _, rfl, ?_, hbelow.trans (Below.write (Nat.le_refl _) _) hle⟩
  · have hat' : rrp.stackRrb.at? n = none := NxArray.at?_of_le (by rw [h.stack])
    rw [stackAllocReplyBuilder, Nat.mod_eq_of_lt hn]
    simp only [hat', hpush]
  · rw [write_builders, if_pos rfl, hzero]

/-- The main builder on an empty stack. -/
theorem alloc_main (hk : k ≤ 9) (hstack : rrp.stackRrb = { (storage k).1 with nelts := 0 }) :
    ∃ rrp', rrp.stackAllocReplyBuilder 0 = (slotOf k 0, rrp') ∧
      rrp' = { rrp with
        stackRrb := { (storage k).1 with nelts := 1 }
        builders := Function.update rrp.builders (slotOf k 0) .zero } ∧
      rrp'.builders (slotOf k 0) = .zero := by
  have hat : rrp.stackRrb.at? 0 = none := NxArray.at?_of_le (by rw [hstack])
  have hroom : rrp.stackRrb.nelts < rrp.stackRrb.nalloc := by
    rw [hstack]
    exact Nat.lt_of_lt_of_le (show 0 < 16 by decide) (capacity_pos k hk)
  have hpush : rrp.stackPushReplyBuilder =
      (slotOf k 0, { rrp with
        stackRrb := { (storage k).1 with nelts := 1 }
        builders := Function.update rrp.builders (slotOf k 0) .zero }) := by
    rw [stackPushReplyBuilder, NxArray.push_of_lt rrp.pool rrp.builders hroom, hstack]
    rfl
  refine ⟨_, ?_, rfl, Function.update_self ..⟩
  rw [stackAllocReplyBuilder, Nat.zero_mod]
  simp only [hat, hpush]
  refine congrArg (Prod.mk _) ?_
  rw [RedisReplyParser.write, RedisReplyParser.mk.injEq]
  refine ⟨rfl, rfl, rfl, rfl, ?_, rfl, rfl, rfl⟩
  funext a
  simp only [Function.update_apply]
  split <;> rfl

/-- `uint8_t` turns the depth 256 into that of the main builder. -/
theorem StackAt.alloc_wraps (h : StackAt rrp k (2 ^ 8) z) :
    rrp.stackAllocReplyBuilder (2 ^ 8) = (slotOf k 0, rrp) := by
  rw [stackAllocReplyBuilder, Nat.mod_self, h.stack]
  rfl

/-- A pop that keeps to the parser's memory clears none of the builders that were there. -/
theorem Holds.pop {rrp' : RedisReplyParser} (h : Holds rrp k (n + 1))
    (hpop : rrp.stackPopReplyBuilder = some rrp') :
    Holds rrp' k n ∧ (∀ a ≠ slotOf k (n + 1), rrp'.builders a = rrp.builders a) ∧
      rrp'.state = rrp.state := by
  have hwithin := h.within
  have htop : rrp.stackRrb.pop = (some (slotOf k (n + 1)), { (storage k).1 with nelts := n }) := by
    rw [h.stack, NxArray.pop_of_pos (Nat.succ_pos n)]
    rfl
  unfold stackPopReplyBuilder at hpop
  simp only [htop] at hpop
  split at hpop
  · obtain rfl := Option.some.inj hpop
    exact ⟨⟨rfl, h.pool, h.grown, by omega⟩, fun a ha => Function.update_of_ne ha .., rfl⟩
  · split at hpop
    · obtain rfl := Option.some.inj hpop
      exact ⟨⟨rfl, h.pool, h.grown, by omega⟩, fun a _ => rfl, rfl⟩
    · split at hpop
      · obtain rfl := Option.some.inj hpop
        exact ⟨⟨rfl, h.pool, h.grown, by omega⟩, fun a ha => Function.update_of_ne ha .., rfl⟩
      · cases hpop

theorem StackAt.pop (h : StackAt rrp k (n + 1) z) :
    match popClears k (n + 1) with
    | some c => ∃ rrp', rrp.stackPopReplyBuilder = some rrp' ∧ StackAt rrp' k n (z || c) ∧
        Below (slotOf k (n + 1)) rrp rrp'
    | none => rrp.stackPopReplyBuilder = none := by
  have hslot := slotOf_eq h.grown
  have hwithin := h.within
  have hpop : rrp.stackRrb.pop = (some (slotOf k (n + 1)), { (storage k).1 with nelts := n }) := by
    rw [h.stack, NxArray.pop_of_pos (Nat.succ_pos n)]
    rfl
  have hclear : StackAt { rrp with
      stackRrb := { (storage k).1 with nelts := n }
      builders := Function.update rrp.builders (slotOf k (n + 1)) .zero } k n z := by
    refine ⟨rfl, h.pool, h.rAddr, h.grown, by omega, ?_, h.cleared⟩
    show (Function.update rrp.builders _ _ (slotOf k 0)).state = 2
    rw [Function.update_of_ne (by rw [hslot, hslot]; omega)]
    exact h.main
  have hbelow : Below (slotOf k (n + 1)) rrp { rrp with
      stackRrb := { (storage k).1 with nelts := n }
      builders := Function.update rrp.builders (slotOf k (n + 1)) .zero } :=
    ⟨fun a ha => Function.update_of_ne (Nat.ne_of_lt ha) .., rfl⟩
  have hroom : (rrp.stackRrb.nelts < rrp.stackRrb.nalloc) = (n + 1 < capacity k) := by
    rw [h.stack]
    rfl
  have haddr : (slotOf k (n + 1) = rrp.rAddr) = (slotOf k (n + 1) = createReplyParser.rAddr) := by
    rw [h.rAddr]
  have hend : (slotOf k (n + 1) + sizeofReplyBuilder ≤ rrp.pool.endAddr) =
      (slotOf k (n + 1) + sizeofReplyBuilder ≤ (storage k).2.endAddr) := by
    rw [h.pool]
  rw [popClears, stackPopReplyBuilder, hpop]
  simp only [hroom, haddr, hend]
  by_cases h₁ : n + 1 < capacity k
  · simp only [if_pos h₁, Bool.or_false]
    exact ⟨_, rfl, hclear, hbelow⟩
  simp only [if_neg h₁]
  by_cases h₂ : slotOf k (n + 1) = createReplyParser.rAddr
  · simp only [if_pos h₂, Bool.or_true]
    exact ⟨_, rfl, ⟨rfl, h.pool, h.rAddr, h.grown, by omega, h.main, rfl⟩, fun _ _ => rfl, rfl⟩
  simp only [if_neg h₂]
  by_cases h₃ : slotOf k (n + 1) + sizeofReplyBuilder ≤ (storage k).2.endAddr
  · simp only [if_pos h₃, Bool.or_false]
    exact ⟨_, rfl, hclear, hbelow⟩
  · simp only [if_neg h₃]

end RedisReplyParser

end KjRedis.Reply
