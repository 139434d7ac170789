import KjRedis.Reply.Builder

/-! The builder stack while it stays on its first storage: builders by index, and
what an operation at one depth leaves alone below it. -/
namespace KjRedis.Reply.RedisReplyParser

/-- The builder at an index of the stack. -/
def frame (rrp : RedisReplyParser) (i : Nat) : RedisReplyBuilder :=
  rrp.builders (rrp.stackRrb.slot i)

/-- The sixteen slots `create_reply_parser` allocates, and no reply half cleared. -/
structure FirstStorage (rrp : RedisReplyParser) : Prop where
  size : rrp.stackRrb.size = sizeofReplyBuilder
  nalloc : rrp.stackRrb.nalloc = 16
  rZeroed : rrp.rZeroed = false

/-- From `rrp` to `rrp'` the storage and every builder below `depth` stay. -/
structure Keeps (depth : Nat) (rrp rrp' : RedisReplyParser) : Prop where
  elts : rrp'.stackRrb.elts = rrp.stackRrb.elts
  size : rrp'.stackRrb.size = rrp.stackRrb.size
  nalloc : rrp'.stackRrb.nalloc = rrp.stackRrb.nalloc
  rZeroed : rrp'.rZeroed = rrp.rZeroed
  state : rrp'.state = rrp.state
  frame : ∀ i < depth, rrp'.frame i = rrp.frame i

theorem Keeps.refl (depth : Nat) (rrp : RedisReplyParser) : Keeps depth rrp rrp :=
  ⟨rfl, rfl, rfl, rfl, rfl, fun _ _ => rfl⟩

theorem Keeps.trans {depth : Nat} {a b c : RedisReplyParser} (h : Keeps depth a b)
    (h' : Keeps depth b c) : Keeps depth a c where
  elts := h'.elts.trans h.elts
  size := h'.size.trans h.size
  nalloc := h'.nalloc.trans h.nalloc
  rZeroed := h'.rZeroed.trans h.rZeroed
  state := h'.state.trans h.state
  frame i hi := (h'.frame i hi).trans (h.frame i hi)

theorem Keeps.mono {depth depth' : Nat} {a b : RedisReplyParser} (h : Keeps depth' a b)
    (hle : depth ≤ depth') : Keeps depth a b :=
  { h with frame := fun i hi => h.frame i (by omega) }

theorem Keeps.slot {depth : Nat} {a b : RedisReplyParser} (h : Keeps depth a b) (i : Nat) :
    b.stackRrb.slot i = a.stackRrb.slot i := by
  unfold NxArray.slot
  rw [h.elts, h.size]

theorem Keeps.firstStorage {depth : Nat} {a b : RedisReplyParser} (h : Keeps depth a b)
    (ha : a.FirstStorage) : b.FirstStorage :=
  ⟨h.size.trans ha.size, h.nalloc.trans ha.nalloc, h.rZeroed.trans ha.rZeroed⟩

theorem slot_inj {rrp : RedisReplyParser} (h : rrp.FirstStorage) {i j : Nat} :
    rrp.stackRrb.slot i = rrp.stackRrb.slot j ↔ i = j := by
  unfold NxArray.slot
  rw [h.size, sizeofReplyBuilder]
  omega

/-- Storing through the pointer of the builder at `i` changes that builder only. -/
theorem write_frame {rrp : RedisReplyParser} (h : rrp.FirstStorage) (i j : Nat)
    (b : RedisReplyBuilder) :
    (rrp.write (rrp.stackRrb.slot i) b).frame j = if j = i then b else rrp.frame j := by
  have hslot : (rrp.write (rrp.stackRrb.slot i) b).stackRrb.slot j = rrp.stackRrb.slot j := rfl
  unfold frame
  rw [hslot]
  show Function.update rrp.builders _ b _ = _
  rw [Function.update_apply]
  simp only [slot_inj h]

theorem write_keeps {rrp : RedisReplyParser} (h : rrp.FirstStorage) {i depth : Nat}
    (hi : depth ≤ i) (b : RedisReplyBuilder) :
    Keeps depth rrp (rrp.write (rrp.stackRrb.slot i) b) where
  elts := rfl
  size := rfl
  nalloc := rfl
  rZeroed := rfl
  state := rfl
  frame j hj := by rw [write_frame h, if_neg (by omega)]

theorem alloc_at {rrp : RedisReplyParser} {i : Nat} (hi : i < rrp.stackRrb.nelts) (hle : i < 16) :
    rrp.stackAllocReplyBuilder i = (rrp.stackRrb.slot i, rrp) := by
  unfold stackAllocReplyBuilder
  rw [Nat.mod_eq_of_lt (by omega)]
  simp only [NxArray.at?_of_lt hi]

/-- The parser after a push that finds room. -/
def pushed (rrp : RedisReplyParser) : RedisReplyParser :=
  { rrp with
    stackRrb := { rrp.stackRrb with nelts := rrp.stackRrb.nelts + 1 }
    builders := Function.update rrp.builders (rrp.stackRrb.slot rrp.stackRrb.nelts) .zero }

theorem push_eq_pushed {rrp : RedisReplyParser} (h : rrp.FirstStorage)
    (hlt : rrp.stackRrb.nelts < 16) :
    rrp.stackPushReplyBuilder = (rrp.stackRrb.slot rrp.stackRrb.nelts, rrp.pushed) := by
  unfold stackPushReplyBuilder
  rw [NxArray.push_of_lt rrp.pool rrp.builders (by rw [h.nalloc]; exact hlt)]
  rfl

theorem pushed_keeps {rrp : RedisReplyParser} (h : rrp.FirstStorage) :
    Keeps rrp.stackRrb.nelts rrp rrp.pushed where
  elts := rfl
  size := rfl
  nalloc := rfl
  rZeroed := rfl
  state := rfl
  frame j hj := by
    show Function.update rrp.builders _ _ (rrp.stackRrb.slot j) = _
    rw [Function.update_apply, if_neg (by rw [slot_inj h]; omega)]
    rfl

theorem pushed_frame (rrp : RedisReplyParser) :
    rrp.pushed.frame rrp.stackRrb.nelts = .zero := by
  show Function.update rrp.builders _ _ (rrp.stackRrb.slot rrp.stackRrb.nelts) = _
  exact Function.update_self ..

theorem alloc_push {rrp : RedisReplyParser} {i : Nat} (h : rrp.FirstStorage)
    (hi : rrp.stackRrb.nelts = i) (hle : i < 16) :
    ∃ rrp', rrp.stackAllocReplyBuilder i = (rrp.stackRrb.slot i, rrp') ∧ Keeps i rrp rrp' ∧
      rrp'.stackRrb.nelts = i + 1 ∧ rrp'.frame i = { RedisReplyBuilder.zero with depth := i } := by
  subst hi
  set i := rrp.stackRrb.nelts with hi
  have hkeeps := pushed_keeps h
  have hslot : rrp.stackRrb.slot i = rrp.pushed.stackRrb.slot i := rfl
  refine ⟨rrp.pushed.write (rrp.stackRrb.slot i) { rrp.pushed.frame i with depth := i }, ?_, ?_, ?_, ?_⟩
  · unfold stackAllocReplyBuilder
    rw [Nat.mod_eq_of_lt (by omega)]
    simp only [NxArray.at?_of_le (Nat.le_of_eq hi.symm), push_eq_pushed h (hi ▸ hle)]
    rfl
  · rw [hslot]
    exact hkeeps.trans (write_keeps (hkeeps.firstStorage h) (Nat.le_refl i) _)
  · rfl
  · rw [hslot, write_frame (hkeeps.firstStorage h), if_pos rfl, hi, pushed_frame]

theorem pop_keeps {rrp : RedisReplyParser} {i : Nat} (h : rrp.FirstStorage)
    (hi : rrp.stackRrb.nelts = i + 1) (hle : i ≤ 14) :
    ∃ rrp', rrp.stackPopReplyBuilder = some rrp' ∧ Keeps i rrp rrp' ∧
      rrp'.stackRrb.nelts = i := by
  have hlt : rrp.stackRrb.nelts < rrp.stackRrb.nalloc := by
    rw [h.nalloc, hi]
    omega
  refine ⟨{ rrp with
    stackRrb := { rrp.stackRrb with nelts := rrp.stackRrb.nelts - 1 }
    builders := Function.update rrp.builders (rrp.stackRrb.slot rrp.stackRrb.nelts) .zero },
    ?_, ⟨rfl, rfl, rfl, rfl, rfl, fun j hj => ?_⟩, by simp only [hi]; omega⟩
  · unfold stackPopReplyBuilder
    rw [NxArray.pop_of_pos (by omega)]
    simp only [if_pos hlt]
  · show Function.update rrp.builders _ _ (rrp.stackRrb.slot j) = _
    rw [Function.update_apply, if_neg (by rw [slot_inj h]; omega)]
    rfl

end KjRedis.Reply.RedisReplyParser
