import Mathlib.Data.List.Basic

/-! Text written as literal runs and copies of what stands some way back in it. -/
namespace BackReference

variable {α : Type*}

inductive Token (α : Type*)
  | literal (run : List α)
  | copy (back len : Nat)

/-- `w` continues `out` with what stands `back` symbols before; it may run into itself. -/
structure IsCopy (out : List α) (back : Nat) (w : List α) : Prop where
  pos : 0 < back
  le : back ≤ out.length
  copied : ∀ i < w.length, w[i]? = (out ++ w)[out.length - back + i]?

/-- `result` is what the tokens make, behind what is there. -/
inductive Expands : List α → List (Token α) → List α → Prop
  | nil (out : List α) : Expands out [] out
  | literal {out run result : List α} {ts : List (Token α)} (h : Expands (out ++ run) ts result) :
      Expands out (.literal run :: ts) result
  | copy {out w result : List α} {back : Nat} {ts : List (Token α)} (hcopy : IsCopy out back w)
      (h : Expands (out ++ w) ts result) : Expands out (.copy back w.length :: ts) result

variable {out w w' result : List α} {back : Nat} {ts : List (Token α)}

theorem Expands.length_le (h : Expands out ts result) : out.length ≤ result.length := by
  induction h with
  | nil out => exact Nat.le_refl _
  | literal h ih | copy hcopy h ih =>
    rw [List.length_append] at ih
    omega

/-- A copy of some length is unique. -/
theorem IsCopy.unique (h : IsCopy out back w) (h' : IsCopy out back w')
    (hlen : w.length = w'.length) : w = w' := by
  have hprefix : ∀ n ≤ w.length, w.take n = w'.take n := by
    intro n hn
    induction n with
    | zero => rfl
    | succ n ih =>
      have hback := h.pos
      have hin := h.le
      have hsame : (out ++ w)[out.length - back + n]? = (out ++ w')[out.length - back + n]? := by
        by_cases hout : out.length - back + n < out.length
        · rw [List.getElem?_append_left hout, List.getElem?_append_left hout]
        · -- the symbol is one that has been copied before
          have hbefore : out.length - back + n - out.length < n := by omega
          rw [List.getElem?_append_right (by omega), List.getElem?_append_right (by omega),
            ← List.getElem?_take_of_lt hbefore, ih (by omega), List.getElem?_take_of_lt hbefore]
      rw [List.take_add_one, List.take_add_one, ih (by omega), h.copied n (by omega),
        h'.copied n (by omega), hsame]
  have hall := hprefix w.length (Nat.le_refl _)
  rwa [List.take_length, hlen, List.take_length] at hall

/-- A copy can be made longer, symbol by symbol. -/
theorem IsCopy.snoc (h : IsCopy out back w) {a : α}
    (ha : (out ++ w)[out.length - back + w.length]? = some a) : IsCopy out back (w ++ [a]) := by
  have hback := h.pos
  have hin := h.le
  refine ⟨hback, hin, fun i hi => ?_⟩
  rw [List.length_append, List.length_singleton] at hi
  have hlast : out.length - back + i < (out ++ w).length := by
    rw [List.length_append]
    omega
  rw [← List.append_assoc, List.getElem?_append_left hlast]
  rcases Nat.lt_succ_iff_lt_or_eq.1 hi with hlt | rfl
  · rw [List.getElem?_append_left hlt, h.copied i hlt]
  · rw [List.getElem?_append_right (Nat.le_refl _), Nat.sub_self, ha]
    rfl

theorem isCopy_nil (hpos : 0 < back) (hle : back ≤ out.length) : IsCopy out back [] :=
  ⟨hpos, hle, fun _ hi => absurd hi (Nat.not_lt_zero _)⟩

end BackReference
