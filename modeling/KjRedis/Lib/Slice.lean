import Mathlib.Data.List.Basic

/-! Ranges of an array of cells: reading `[a, b)` and overwriting a range, and what one
does to the other. -/
namespace Slice

variable {α : Type*}

/-- The cells at positions `a` up to but not including `b`. -/
def slice (a b : Nat) (l : List α) : List α := (l.take b).drop a

/-- The cells with those from position `i` on overwritten by `xs`. -/
def splice (i : Nat) (xs l : List α) : List α := l.take i ++ xs ++ l.drop (i + xs.length)

variable {a b c i n : Nat} {l xs : List α}

theorem length_slice (h : b ≤ l.length) : (slice a b l).length = b - a := by
  unfold slice
  rw [List.length_drop, List.length_take, Nat.min_eq_left h]

theorem getElem?_slice (k : Nat) : (slice a b l)[k]? = if a + k < b then l[a + k]? else none := by
  unfold slice
  rw [List.getElem?_drop, List.getElem?_take]

theorem slice_eq_nil (h : b ≤ a) : slice a b l = [] := by
  apply List.drop_eq_nil_of_le
  rw [List.length_take]
  omega

theorem slice_self : slice a a l = [] := slice_eq_nil (Nat.le_refl a)

theorem drop_slice : (slice a b l).drop n = slice (a + n) b l := by
  unfold slice
  rw [List.drop_drop]

theorem take_slice (h : a + n ≤ b) : (slice a b l).take n = slice a (a + n) l := by
  unfold slice
  rw [List.take_drop, List.take_take, Nat.min_eq_left h]

theorem slice_append (hab : a ≤ b) (hbc : b ≤ c) : slice a b l ++ slice b c l = slice a c l := by
  obtain ⟨n, rfl⟩ := Nat.exists_eq_add_of_le hab
  rw [← take_slice hbc, ← drop_slice]
  exact List.take_append_drop n _

theorem length_splice (h : i + xs.length ≤ l.length) : (splice i xs l).length = l.length := by
  unfold splice
  rw [List.length_append, List.length_append, List.length_take, List.length_drop]
  omega

theorem getElem?_splice (h : i + xs.length ≤ l.length) (k : Nat) :
    (splice i xs l)[k]? = if i ≤ k ∧ k < i + xs.length then xs[k - i]? else l[k]? := by
  have hhead : (l.take i).length = i := by
    rw [List.length_take]
    omega
  unfold splice
  rw [List.append_assoc]
  rcases Nat.lt_or_ge k i with hlt | hge
  · rw [if_neg (by omega), List.getElem?_append_left (by omega), List.getElem?_take, if_pos hlt]
  · rw [List.getElem?_append_right (by omega), hhead]
    rcases Nat.lt_or_ge (k - i) xs.length with hin | hout
    · rw [if_pos (by omega), List.getElem?_append_left hin]
    · rw [if_neg (by omega), List.getElem?_append_right hout, List.getElem?_drop]
      congr 1
      omega

theorem take_splice_zero : (splice 0 xs l).take xs.length = xs := by
  unfold splice
  rw [List.take_zero, List.nil_append]
  exact List.take_left

theorem slice_splice_self (h : i + xs.length ≤ l.length) :
    slice i (i + xs.length) (splice i xs l) = xs := by
  apply List.ext_getElem?
  intro k
  rw [getElem?_slice, getElem?_splice h]
  rcases Nat.lt_or_ge k xs.length with hin | hout
  · rw [if_pos (by omega), if_pos (by omega), Nat.add_sub_cancel_left]
  · rw [if_neg (by omega), List.getElem?_eq_none hout]

/-- Overwriting leaves what lies before the range alone. -/
theorem slice_splice_before (hb : b ≤ i) (h : i + xs.length ≤ l.length) :
    slice a b (splice i xs l) = slice a b l := by
  apply List.ext_getElem?
  intro k
  rw [getElem?_slice, getElem?_slice, getElem?_splice h]
  split
  · rw [if_neg (by omega)]
  · rfl

/-- Overwriting inside a range overwrites the range. -/
theorem slice_splice_inside (ha : a ≤ i) (hb : i + xs.length ≤ b) (h : b ≤ l.length) :
    slice a b (splice i xs l) = splice (i - a) xs (slice a b l) := by
  have hlen := @length_slice α a b l h
  apply List.ext_getElem?
  intro k
  rw [getElem?_slice, getElem?_splice (by omega), getElem?_splice (by omega), getElem?_slice]
  by_cases hin : i - a ≤ k ∧ k < i - a + xs.length
  · rw [if_pos (by omega), if_pos (by omega), if_pos hin]
    congr 1
    omega
  · rw [if_neg hin]
    split
    · rw [if_neg (by omega)]
    · rfl

end Slice
