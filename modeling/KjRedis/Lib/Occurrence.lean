import Mathlib.Data.List.Infix
import Mathlib.Algebra.BigOperators.Group.List.Basic

/-! Where a pattern occurs in a text, the first position that meets a condition, and the
sum over a window that slides along the text. -/
namespace Occurrence

variable {α M : Type*}

/-- `pat` stands in `text` at position `p`. -/
def At (pat text : List α) (p : Nat) : Prop := pat <+: text.drop p

instance [DecidableEq α] (pat text : List α) (p : Nat) : Decidable (At pat text p) :=
  inferInstanceAs (Decidable (pat <+: text.drop p))

/-- The first position whose remaining text meets a condition. -/
def first (P : List α → Bool) (text : List α) : Option Nat := text.tails.findIdx? P

/-- The first position at which a pattern occurs. -/
def search [DecidableEq α] (pat text : List α) : Option Nat := first (pat.isPrefixOf ·) text

variable {P : List α → Bool} {pat text : List α} {p : Nat}

theorem at_add {k : Nat} : At pat text (k + p) ↔ At pat (text.drop k) p := by
  unfold At
  rw [List.drop_drop]

theorem At.length_le (h : At pat text p) (hne : pat ≠ []) : p + pat.length ≤ text.length := by
  have hle := List.IsPrefix.length_le h
  have hpos := List.length_pos_iff.2 hne
  rw [List.length_drop] at hle
  omega

theorem At.prefix {pat' : List α} (h : At pat text p) (hpre : pat' <+: pat) : At pat' text p :=
  List.IsPrefix.trans hpre h

theorem first_cons (c : α) : first P (c :: text) =
    if P (c :: text) then some 0 else (first P text).map (· + 1) := by
  unfold first
  rw [List.tails_cons, List.findIdx?_cons]

theorem first_eq_some_iff : first P text = some p ↔
    p ≤ text.length ∧ P (text.drop p) ∧ ∀ q < p, P (text.drop q) = false := by
  unfold first
  rw [List.findIdx?_eq_some_iff_getElem]
  constructor
  · rintro ⟨hlt, hp, hbefore⟩
    rw [List.length_tails] at hlt
    rw [List.getElem_tails] at hp
    refine ⟨by omega, hp, fun q hq => ?_⟩
    have := hbefore q hq
    rwa [List.getElem_tails, Bool.not_eq_true] at this
  · rintro ⟨hle, hp, hbefore⟩
    refine ⟨by rw [List.length_tails]; omega, by rwa [List.getElem_tails], fun q hq => ?_⟩
    rw [List.getElem_tails, Bool.not_eq_true]
    exact hbefore q hq

theorem first_eq_none_iff : first P text = none ↔ ∀ p ≤ text.length, P (text.drop p) = false := by
  unfold first
  rw [List.findIdx?_eq_none_iff]
  constructor
  · intro h p _
    exact h _ ((List.mem_tails _ _).2 (List.drop_suffix p text))
  · intro h l hl
    obtain ⟨k, rfl⟩ := (List.mem_tails _ _).1 hl
    have := h k.length (by simp)
    rwa [List.drop_left] at this

/-- The sum of the weights of the first `n` elements. -/
def windowSum [AddCommGroup M] (weight : α → M) (n : Nat) (text : List α) : M :=
  ((text.take n).map weight).sum

section Window
variable [AddCommGroup M] {weight : α → M}

/-- Sliding a window one element on takes the element behind it out and the next in. -/
theorem windowSum_slide {s c : α} {n : Nat} {rest : List α} (h : (s :: text).drop (n + 1) = c :: rest) :
    windowSum weight (n + 1) text = windowSum weight (n + 1) (s :: text) - weight s + weight c := by
  have hnext : text.drop n = c :: rest := h
  have hget : text[n]? = some c := by
    have := congrArg (fun l => l[0]?) hnext
    simpa using this
  have htake : text.take (n + 1) = text.take n ++ [c] := by
    rw [List.take_add_one, hget]
    rfl
  unfold windowSum
  rw [htake, List.map_append, List.sum_append, List.take_succ_cons]
  simp only [List.map_cons, List.map_nil, List.sum_cons, List.sum_nil, add_zero, add_sub_cancel_left]

end Window

variable [DecidableEq α]

theorem search_eq_some_iff (hne : pat ≠ []) :
    search pat text = some p ↔ At pat text p ∧ ∀ q < p, ¬ At pat text q := by
  unfold search At
  rw [first_eq_some_iff]
  simp only [List.isPrefixOf_iff_prefix, Bool.eq_false_iff, ne_eq]
  refine ⟨And.right, fun h => ⟨?_, h⟩⟩
  have := At.length_le h.1 hne
  omega

theorem search_eq_none_iff (hne : pat ≠ []) : search pat text = none ↔ ∀ p, ¬ At pat text p := by
  unfold search At
  rw [first_eq_none_iff]
  simp only [List.isPrefixOf_iff_prefix, Bool.eq_false_iff, ne_eq]
  refine ⟨fun h p hp => ?_, fun h p _ => h p⟩
  have := At.length_le hp hne
  exact h p (by omega) hp

theorem search_singleton (c : α) : search [c] text = text.findIdx? (· == c) := by
  unfold search
  induction text with
  | nil => rfl
  | cons c' text ih =>
    rw [first_cons, List.findIdx?_cons, ih]
    by_cases h : c' = c
    · simp [h]
    · simp [h, Ne.symm h]

/-- Positions at which the pattern is known not to occur can be left out of the search. -/
theorem search_skip {k : Nat} (hne : pat ≠ []) (h : ∀ q < k, ¬ At pat text q) :
    search pat text = (search pat (text.drop k)).map (· + k) := by
  cases hs : search pat (text.drop k) with
  | none =>
    refine (search_eq_none_iff hne).2 fun q hq => ?_
    obtain hlt | ⟨j, rfl⟩ := (Nat.lt_or_ge q k).imp_right Nat.exists_eq_add_of_le
    · exact h q hlt hq
    · exact (search_eq_none_iff hne).1 hs j (at_add.1 hq)
  | some p =>
    obtain ⟨hp, hbefore⟩ := (search_eq_some_iff hne).1 hs
    rw [Option.map_some]
    refine (search_eq_some_iff hne).2 ⟨?_, fun q hq hat => ?_⟩
    · rw [Nat.add_comm]
      exact at_add.2 hp
    · obtain hlt | ⟨j, rfl⟩ := (Nat.lt_or_ge q k).imp_right Nat.exists_eq_add_of_le
      · exact h q hlt hat
      · exact hbefore j (by omega) (at_add.1 hat)

end Occurrence
