import KjRedis.Reply.Storage

/-! The builders of the stack by depth, through the storages the stack moves to: what an
operation at one depth leaves of those below it, and what a pointer taken before a move
can still reach. -/
namespace KjRedis.Reply.RedisReplyParser

/-- The builder at each depth of the stack while it is on its storage `k`. -/
def live (rrp : RedisReplyParser) (k : Nat) : Nat → RedisReplyBuilder :=
  fun i => rrp.builders (slotOf k i)

/-- The stack holds `n` builders, and each of them its own depth. -/
structure Leveled (rrp : RedisReplyParser) (k n : Nat) : Prop extends Holds rrp k n where
  depth : ∀ i < n, (rrp.live k i).depth = i

/-- From `rrp` on storage `k` to `rrp'` on `k'` the memory below an address stays, and so do
the builders at depths below `d`. -/
structure Spares (addr d k k' : Nat) (rrp rrp' : RedisReplyParser) : Prop where
  grows : k ≤ k'
  below : ∀ a < addr, rrp'.builders a = rrp.builders a
  live : ∀ i < d, rrp'.live k' i = rrp.live k i
  state : rrp'.state = rrp.state

/-- A pointer to the builder of depth `d` on a storage up to `k`. -/
def Pointer (k d rrb : Nat) : Prop := ∃ k₀ ≤ k, d < capacity k₀ ∧ rrb = slotOf k₀ d

variable {rrp rrp' rrp'' : RedisReplyParser} {addr addr' d d' k k' k'' n rrb : Nat}
  {b : RedisReplyBuilder}

theorem Pointer.self (h : d < capacity k) : Pointer k d (slotOf k d) := ⟨k, Nat.le_refl k, h, rfl⟩

theorem Pointer.mono (h : Pointer k d rrb) (hle : k ≤ k') : Pointer k' d rrb := by
  obtain ⟨k₀, hk₀, hd, hrrb⟩ := h
  exact ⟨k₀, hk₀.trans hle, hd, hrrb⟩

/-- A pointer of one depth is the builder of no other. -/
theorem Pointer.ne (h : Pointer k d rrb) (hk : k ≤ 9) {i : Nat} (hi : i ≠ d) :
    slotOf k i ≠ rrb := by
  obtain ⟨k₀, hk₀, hd, rfl⟩ := h
  exact (slotOf_ne hk₀ hk hd hi.symm).symm

theorem Pointer.lt (h : Pointer k d rrb) (hk : k ≤ 9) : rrb < slotOf k (d + 1) := by
  obtain ⟨k₀, hk₀, -, rfl⟩ := h
  have := slotOf_le hk₀ hk d
  rw [slotOf_eq hk] at this ⊢
  omega

theorem Spares.refl (addr d k : Nat) (rrp : RedisReplyParser) : Spares addr d k k rrp rrp :=
  ⟨Nat.le_refl k, fun _ _ => rfl, fun _ _ => rfl, rfl⟩

theorem Spares.trans (h : Spares addr d k k' rrp rrp') (h' : Spares addr' d k' k'' rrp' rrp'')
    (hle : addr ≤ addr') : Spares addr d k k'' rrp rrp'' where
  grows := h.grows.trans h'.grows
  below a ha := (h'.below a (by omega)).trans (h.below a ha)
  live i hi := (h'.live i hi).trans (h.live i hi)
  state := h'.state.trans h.state

theorem Spares.mono (h : Spares addr' d' k k' rrp rrp') (haddr : addr ≤ addr') (hd : d ≤ d') :
    Spares addr d k k' rrp rrp' :=
  ⟨h.grows, fun a ha => h.below a (by omega), fun i hi => h.live i (by omega), h.state⟩

theorem Spares.parsed (m : Nat) : Spares addr d k k rrp { rrp with parsed := m } :=
  ⟨Nat.le_refl k, fun _ _ => rfl, fun _ _ => rfl, rfl⟩

/-- Storing through a pointer of depth `d`, onto the stack or past it. -/
theorem Pointer.spares (h : Pointer k d rrb) (hk : k ≤ 9) (hle : addr ≤ rrb) :
    Spares addr d k k rrp (rrp.write rrb b) where
  grows := Nat.le_refl k
  below a ha := by rw [write_builders, if_neg (by omega)]
  live i hi := by
    rw [RedisReplyParser.live, write_builders, if_neg (h.ne hk (Nat.ne_of_lt hi))]
    rfl
  state := rfl

/-- The stack is what the parser has of its stack, whatever else is in it. -/
theorem Leveled.congr (h : Leveled rrp k n) (hstack : rrp'.stackRrb = rrp.stackRrb)
    (hpool : rrp'.pool = rrp.pool) (hbuilders : rrp'.builders = rrp.builders) : Leveled rrp' k n := by
  refine ⟨⟨hstack.trans h.stack, hpool.trans h.pool, h.grown, h.within⟩, fun i hi => ?_⟩
  rw [live, hbuilders]
  exact h.depth i hi

theorem Leveled.parsed (h : Leveled rrp k n) (m : Nat) : Leveled { rrp with parsed := m } k n :=
  h.congr rfl rfl rfl

theorem Leveled.write (h : Leveled rrp k n) (hrrb : Pointer k d rrb) (hb : b.depth = d) :
    Leveled (rrp.write rrb b) k n := by
  refine ⟨⟨h.stack, h.pool, h.grown, h.within⟩, fun i hi => ?_⟩
  rw [live, write_builders]
  split
  · next heq =>
    by_contra hne
    exact hrrb.ne h.grown (fun hid => hne (hb.trans hid.symm)) heq
  · exact h.depth i hi

theorem Leveled.slot (h : Leveled rrp k n) (i : Nat) : rrp.stackRrb.slot i = slotOf k i := by
  rw [h.stack]
  rfl

theorem Leveled.alloc_at (h : Leveled rrp k n) (hd : d < n) (hdepth : d < 2 ^ 8) :
    rrp.stackAllocReplyBuilder d = (slotOf k d, rrp) := by
  have hat : rrp.stackRrb.at? d = some (slotOf k d) := by
    rw [← h.slot, NxArray.at?_of_lt (by rw [h.stack]; exact hd)]
  rw [stackAllocReplyBuilder, Nat.mod_eq_of_lt hdepth]
  simp only [hat]

theorem Leveled.alloc_new (h : Leveled rrp k n) (hn : n < 2 ^ 8) :
    ∃ rrp', rrp.stackAllocReplyBuilder n = (slotOf (grow k n) n, rrp') ∧
      Leveled rrp' (grow k n) (n + 1) ∧
      rrp'.live (grow k n) n = { RedisReplyBuilder.zero with depth := n } ∧
      Spares (slotOf k n) n k (grow k n) rrp rrp' := by
  obtain ⟨rrp₁, hpush, hon, hzero, hbelow, hlive, -, -⟩ := h.toHolds.push hn
  have hpointer : Pointer (grow k n) n (slotOf (grow k n) n) := .self hon.within
  have hle := slotOf_le (le_grow k n) hon.grown n
  set new : RedisReplyBuilder := { rrp₁.builders (slotOf (grow k n) n) with depth := n } with hnew
  have hspares := (Spares.mk (le_grow k n) hbelow.builders hlive hbelow.state).trans
    (hpointer.spares (b := new) hon.grown (Nat.le_refl _)) hle
  have hself : (rrp₁.write (slotOf (grow k n) n) new).live (grow k n) n =
      { RedisReplyBuilder.zero with depth := n } := by
    rw [live, write_builders, if_pos rfl, hnew, hzero]
  refine ⟨rrp₁.write _ new, ?_, ⟨⟨hon.stack, hon.pool, hon.grown, hon.within⟩, fun i hi => ?_⟩, hself,
    hspares⟩
  · have hat : rrp.stackRrb.at? n = none := NxArray.at?_of_le (by rw [h.stack])
    rw [stackAllocReplyBuilder, Nat.mod_eq_of_lt hn]
    simp only [hat, hpush]
    rfl
  · rcases Nat.lt_or_eq_of_le (Nat.le_of_lt_succ hi) with hlt | rfl
    · rw [hspares.live i hlt]
      exact h.depth i hlt
    · rw [hself]

theorem Leveled.pop (h : Leveled rrp k (d + 1)) (hpop : rrp.stackPopReplyBuilder = some rrp')
    (hle : addr ≤ slotOf k (d + 1)) : Leveled rrp' k d ∧ Spares addr d k k rrp rrp' := by
  obtain ⟨hon, hkept, hstate⟩ := h.toHolds.pop hpop
  have hlive : ∀ i < d + 1, rrp'.live k i = rrp.live k i := fun i hi =>
    hkept _ (by rw [slotOf_eq h.grown, slotOf_eq h.grown]; omega)
  refine ⟨⟨hon, fun i hi => ?_⟩, ⟨Nat.le_refl k, fun a ha => hkept a (by omega),
    fun i hi => hlive i (by omega), hstate⟩⟩
  rw [hlive i (by omega)]
  exact h.depth i (by omega)

end KjRedis.Reply.RedisReplyParser
