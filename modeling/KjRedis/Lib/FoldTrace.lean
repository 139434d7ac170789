import Mathlib.Data.List.Basic

/-! What a fold makes on the way, in the steps from each state to the next. -/
namespace FoldTrace

variable {σ α β : Type*} {f : σ → α → σ} {made : σ → α → List β} {s : σ}

def trace (f : σ → α → σ) (made : σ → α → List β) : σ → List α → List β
  | _, [] => []
  | s, a :: as => made s a ++ trace f made (f s a) as

theorem trace_append (as bs : List α) :
    trace f made s (as ++ bs) = trace f made s as ++ trace f made (as.foldl f s) bs := by
  induction as generalizing s with
  | nil => rfl
  | cons a as ih => rw [List.cons_append, trace, trace, ih, List.append_assoc, List.foldl_cons]

theorem trace_snoc (as : List α) (a : α) :
    trace f made s (as ++ [a]) = trace f made s as ++ made (as.foldl f s) a := by
  rw [trace_append, trace, trace, List.append_nil]

end FoldTrace
