import KjRedis.Queue.ReaderWriterQueue
import Mathlib.Data.Nat.ModEq

/-! A block holds a list of elements between its `front` and its `tail`; what each access
of the two threads does to it. -/
namespace KjRedis.Queue

variable {T : Type}

/-- What is `i` slots behind the front of a block: one of its elements, of which the first
may have been taken already, or behind them one that has been built but not published. -/
def slotAt (xs : List T) (taken : Bool) (built : Option T) (i : Nat) : Option T :=
  if i < xs.length then if taken && i == 0 then none else xs[i]?
  else if i = xs.length then built else none

namespace Block

structure Holds (b : Block T) (xs : List T) (taken : Bool) (built : Option T) : Prop where
  size : ∃ k, b.sizeMask + 1 = 2 ^ k
  front_le : b.front ≤ b.sizeMask
  length_le : xs.length ≤ b.sizeMask
  tail_eq : b.tail = b.wrap (b.front + xs.length)
  slots : ∀ i ≤ b.sizeMask, b.data (b.wrap (b.front + i)) = slotAt xs taken built i

/-- `localTail` is a `tail` the block once had, with `n` elements or more before it. -/
def Knows (b : Block T) (xs : List T) (n : Nat) : Prop :=
  ∃ k, n ≤ k ∧ k ≤ xs.length ∧ b.localTail = b.wrap (b.front + k)

/-- `localFront` is a `front` the block once had, from where there is room for `n` elements
more. -/
def Room (b : Block T) (xs : List T) (n : Nat) : Prop :=
  b.localFront ≤ b.sizeMask ∧
    ∃ j, j + xs.length + n ≤ b.sizeMask ∧ b.front = b.wrap (b.localFront + j)

variable {b b' : Block T} {x : T} {xs : List T} {taken : Bool} {built : Option T} {i j n : Nat}

section Wrap

theorem wrap_eq (hsize : ∃ k, b.sizeMask + 1 = 2 ^ k) (i : Nat) : b.wrap i = i % (b.sizeMask + 1) := by
  obtain ⟨k, hk⟩ := hsize
  have hmask : b.sizeMask = 2 ^ k - 1 := by omega
  rw [wrap, hmask, Nat.and_two_pow_sub_one_eq_mod, Nat.sub_add_cancel Nat.one_le_two_pow]

variable (hsize : ∃ k, b.sizeMask + 1 = 2 ^ k)
include hsize

theorem wrap_le (i : Nat) : b.wrap i ≤ b.sizeMask := by
  rw [wrap_eq hsize]
  exact Nat.le_of_lt_succ (Nat.mod_lt _ (Nat.succ_pos _))

theorem wrap_of_le (h : i ≤ b.sizeMask) : b.wrap i = i := by
  rw [wrap_eq hsize]
  exact Nat.mod_eq_of_lt (Nat.lt_succ_of_le h)

theorem wrap_wrap (i j : Nat) : b.wrap (b.wrap i + j) = b.wrap (i + j) := by
  rw [wrap_eq hsize, wrap_eq hsize, wrap_eq hsize, Nat.mod_add_mod]

theorem wrap_size (i : Nat) : b.wrap (i + (b.sizeMask + 1)) = b.wrap i := by
  rw [wrap_eq hsize, wrap_eq hsize, Nat.add_mod_right]

theorem wrap_injective {a : Nat} (hi : i ≤ b.sizeMask) (hj : j ≤ b.sizeMask)
    (heq : b.wrap (a + i) = b.wrap (a + j)) : i = j := by
  rw [wrap_eq hsize, wrap_eq hsize] at heq
  exact (Nat.ModEq.add_left_cancel' a heq).eq_of_lt_of_lt (Nat.lt_succ_of_le hi) (Nat.lt_succ_of_le hj)

/-- The number that is `i` behind `a` is `a` only for `i = 0`. -/
theorem wrap_ne {a : Nat} (ha : a ≤ b.sizeMask) (hi : i ≤ b.sizeMask) (h0 : i ≠ 0) :
    b.wrap (a + i) ≠ a := by
  intro heq
  refine h0 (wrap_injective (a := a) hsize hi (Nat.zero_le _) ?_)
  rw [heq, Nat.add_zero, wrap_of_le hsize ha]

end Wrap

namespace Holds

theorem front_eq (h : b.Holds xs taken built) : b.wrap (b.front + 0) = b.front :=
  wrap_of_le h.size h.front_le

theorem front_eq_tail_iff (h : b.Holds xs taken built) : b.front = b.tail ↔ xs = [] := by
  rw [h.tail_eq]
  constructor
  · intro heq
    by_contra hne
    exact wrap_ne h.size h.front_le h.length_le (fun h0 => hne (List.length_eq_zero_iff.1 h0)) heq.symm
  · rintro rfl
    exact h.front_eq.symm

theorem wrap_tail (h : b.Holds xs taken built) (n : Nat) :
    b.wrap (b.tail + n) = b.wrap (b.front + (xs.length + n)) := by
  rw [h.tail_eq, wrap_wrap h.size, Nat.add_assoc]

/-- One slot is left free, for `front` and `tail` to differ. -/
theorem full_iff (h : b.Holds xs taken built) :
    b.wrap (b.tail + 1) = b.front ↔ xs.length = b.sizeMask := by
  rw [h.wrap_tail]
  constructor
  · intro heq
    by_contra hne
    have hlt : xs.length + 1 ≤ b.sizeMask := by
      have := h.length_le
      omega
    exact wrap_ne h.size h.front_le hlt (Nat.succ_ne_zero _) heq
  · intro heq
    rw [heq, wrap_size h.size, wrap_of_le h.size h.front_le]

/-- The element to be taken is there. -/
theorem data_front (h : b.Holds (x :: xs) false built) : b.data b.front = some x := by
  have hslot := h.slots 0 (Nat.zero_le _)
  rw [h.front_eq] at hslot
  exact hslot

/-- The slot to be written to is raw memory. -/
theorem data_tail (h : b.Holds xs taken built) : b.data b.tail = built := by
  rw [h.tail_eq, h.slots _ h.length_le, slotAt, if_neg (Nat.lt_irrefl _), if_pos rfl]

/-- Two slots of a block are one only at the same distance from its front. -/
theorem slots_update (h : b.Holds xs taken built) (hj : j ≤ b.sizeMask) (hi : i ≤ b.sizeMask)
    (v : Option T) : Function.update b.data (b.wrap (b.front + j)) v (b.wrap (b.front + i)) =
      if i = j then v else slotAt xs taken built i := by
  by_cases heq : i = j
  · rw [if_pos heq, heq, Function.update_self]
  · rw [if_neg heq, Function.update_of_ne fun hw => heq (wrap_injective h.size hi hj hw)]
    exact h.slots i hi

theorem build (h : b.Holds xs taken none) (x : T) : (b.put b.tail (some x)).Holds xs taken (some x) :=
  { h with
    slots := by
      intro i hi
      show Function.update b.data b.tail (some x) (b.wrap (b.front + i)) = _
      rw [h.tail_eq, h.slots_update h.length_le hi]
      unfold slotAt
      split
      · next heq => rw [if_neg (by omega)]
      · next hne => rfl }

theorem push (h : b.Holds xs taken (some x)) (hlt : xs.length < b.sizeMask)
    (htaken : taken = true → xs ≠ []) :
    (b.setTail (b.wrap (b.tail + 1))).Holds (xs ++ [x]) taken none :=
  { h with
    length_le := by
      rw [List.length_append]
      exact hlt
    tail_eq := by
      rw [List.length_append]
      exact h.wrap_tail 1
    slots := by
      intro i hi
      show b.data (b.wrap (b.front + i)) = _
      rw [h.slots i hi]
      unfold slotAt
      simp only [List.length_append, List.length_singleton]
      rcases Nat.lt_trichotomy i xs.length with hi | hi | hi
      · rw [if_pos hi, if_pos (Nat.lt_succ_of_lt hi), List.getElem?_append_left hi]
      · -- slot 0 is taken only where there is an element
        subst hi
        simpa using htaken
      · rw [if_neg (Nat.not_lt_of_gt hi), if_neg (Nat.ne_of_gt hi), if_neg (Nat.not_lt_of_ge hi)]
        exact (ite_self none).symm }

theorem take (h : b.Holds xs false built) (hne : xs ≠ []) : (b.put b.front none).Holds xs true built :=
  { h with
    slots := by
      intro i hi
      show Function.update b.data b.front none (b.wrap (b.front + i)) = _
      have hupdate := h.slots_update (Nat.zero_le _) hi none
      rw [h.front_eq] at hupdate
      rw [hupdate]
      unfold slotAt
      split
      · next heq =>
        subst heq
        rw [if_pos (List.length_pos_iff.2 hne)]
        rfl
      · next h0 => simp [h0] }

theorem pop (h : b.Holds (x :: xs) true built) :
    (b.setFront (b.wrap (b.front + 1))).Holds xs false built :=
  { h with
    front_le := wrap_le h.size _
    length_le := Nat.le_of_succ_le h.length_le
    tail_eq := by
      show b.tail = b.wrap (b.wrap (b.front + 1) + xs.length)
      rw [wrap_wrap h.size, h.tail_eq, List.length_cons, Nat.add_assoc, Nat.add_comm 1]
    slots := by
      intro i hi
      change i ≤ b.sizeMask at hi
      show b.data (b.wrap (b.wrap (b.front + 1) + i)) = _
      have hlen : xs.length + 1 ≤ b.sizeMask := h.length_le
      rw [wrap_wrap h.size, Nat.add_assoc, Nat.add_comm 1]
      rcases Nat.lt_or_ge i b.sizeMask with hlt | hge
      · rw [h.slots _ hlt]
        simp [slotAt]
      · obtain rfl : i = b.sizeMask := Nat.le_antisymm hi hge
        have hslot := h.slots 0 (Nat.zero_le _)
        rw [wrap_size h.size, ← Nat.add_zero b.front, hslot]
        unfold slotAt
        rw [if_pos (List.length_pos_of_mem List.mem_cons_self), if_neg (Nat.not_lt_of_gt hlen),
          if_neg (Nat.ne_of_gt hlen)]
        rfl }

end Holds

theorem Knows.mono (h : b.Knows xs n) (hle : j ≤ n) : b.Knows xs j := by
  obtain ⟨k, hk, hlen, heq⟩ := h
  exact ⟨k, hle.trans hk, hlen, heq⟩

theorem Knows.of_ne (h : b.Knows xs 0) (hh : b.Holds xs taken built) (hne : b.front ≠ b.localTail) :
    b.Knows xs 1 := by
  obtain ⟨k, -, hlen, heq⟩ := h
  refine ⟨k, Nat.one_le_iff_ne_zero.2 fun h0 => hne ?_, hlen, heq⟩
  rw [heq, h0, hh.front_eq]

theorem knows_load (hh : b.Holds xs taken built) : (b.setLocalTail b.tail).Knows xs xs.length :=
  ⟨xs.length, Nat.le_refl _, Nat.le_refl _, hh.tail_eq⟩

theorem Knows.push (h : b.Knows xs n) (x : T) (tail : Nat) : (b.setTail tail).Knows (xs ++ [x]) n := by
  obtain ⟨k, hk, hlen, heq⟩ := h
  refine ⟨k, hk, ?_, heq⟩
  rw [List.length_append]
  exact Nat.le_succ_of_le hlen

theorem Knows.pop (h : b.Knows (x :: xs) 1) (hh : b.Holds (x :: xs) taken built) :
    (b.setFront (b.wrap (b.front + 1))).Knows xs 0 := by
  obtain ⟨k, hk, hlen, heq⟩ := h
  refine ⟨k - 1, Nat.zero_le _, Nat.sub_le_of_le_add hlen, ?_⟩
  show b.localTail = b.wrap (b.wrap (b.front + 1) + (k - 1))
  rw [wrap_wrap hh.size, heq, Nat.add_assoc, Nat.add_sub_cancel' hk]

theorem Knows.ne_nil (h : b.Knows xs 1) : xs ≠ [] := by
  obtain ⟨k, hk, hlen, -⟩ := h
  exact List.length_pos_iff.1 (Nat.le_trans hk hlen)

theorem Room.mono (h : b.Room xs n) (hle : j ≤ n) : b.Room xs j := by
  obtain ⟨hlocal, k, hk, heq⟩ := h
  exact ⟨hlocal, k, by omega, heq⟩

theorem Room.lt (h : b.Room xs 1) : xs.length < b.sizeMask := by
  obtain ⟨-, k, hk, -⟩ := h
  omega

theorem Room.of_ne (h : b.Room xs 0) (hh : b.Holds xs taken built)
    (hne : b.wrap (b.tail + 1) ≠ b.localFront) : b.Room xs 1 := by
  obtain ⟨hlocal, j, hj, heq⟩ := h
  refine ⟨hlocal, j, Nat.lt_of_le_of_ne hj fun hmax => hne ?_, heq⟩
  rw [hh.wrap_tail, heq, wrap_wrap hh.size, Nat.add_assoc,
    show j + (xs.length + 1) = b.sizeMask + 1 by omega, wrap_size hh.size, wrap_of_le hh.size hlocal]

theorem room_load (hh : b.Holds xs taken built) (hlt : xs.length + n ≤ b.sizeMask) :
    (b.setLocalFront b.front).Room xs n := by
  refine ⟨hh.front_le, 0, by rwa [Nat.zero_add], ?_⟩
  exact hh.front_eq.symm

theorem Room.push (h : b.Room xs 1) (x : T) (tail : Nat) : (b.setTail tail).Room (xs ++ [x]) 0 := by
  obtain ⟨hlocal, j, hj, heq⟩ := h
  refine ⟨hlocal, j, ?_, heq⟩
  rw [List.length_append]
  show j + (xs.length + 1) + 0 ≤ b.sizeMask
  omega

theorem Room.pop (h : b.Room (x :: xs) n) (hh : b.Holds (x :: xs) taken built) :
    (b.setFront (b.wrap (b.front + 1))).Room xs n := by
  obtain ⟨hlocal, j, hj, heq⟩ := h
  refine ⟨hlocal, j + 1, ?_, ?_⟩
  · show j + 1 + xs.length + n ≤ b.sizeMask
    rw [List.length_cons] at hj
    omega
  · show b.wrap (b.front + 1) = b.wrap (b.localFront + (j + 1))
    rw [heq, wrap_wrap hh.size, Nat.add_assoc]

end Block

end KjRedis.Queue
