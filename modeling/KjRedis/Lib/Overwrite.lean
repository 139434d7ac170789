import Mathlib.Data.List.Basic

/-! A register that a list of operations overwrites: each sets it to a value or leaves
it. What it holds in the end depends on the last that sets it. -/
namespace Overwrite

variable {α β : Type*}

/-- `turn a` is what `a` sets the register to. -/
def run (turn : α → Option β) (b : β) (l : List α) : β := l.foldl (fun b a => (turn a).getD b) b

variable {turn : α → Option β} {b b' c : β} {l l' : List α}

@[simp] theorem run_nil : run turn b [] = b := rfl

@[simp] theorem run_cons (a : α) : run turn b (a :: l) = run turn ((turn a).getD b) l := rfl

theorem run_append : run turn b (l ++ l') = run turn (run turn b l) l' := List.foldl_append

theorem run_of_none (h : ∀ a ∈ l, turn a = none) : run turn b l = b := by
  induction l generalizing b with
  | nil => rfl
  | cons a l ih =>
    rw [run_cons, h a List.mem_cons_self, Option.getD_none]
    exact ih fun a' ha' => h a' (List.mem_cons_of_mem a ha')

/-- Once the register has been set, what it held before does not matter. -/
theorem run_of_some {a : α} (hmem : a ∈ l) (ha : turn a = some c) :
    run turn b l = run turn b' l := by
  induction l generalizing b b' with
  | nil => cases hmem
  | cons a' l ih =>
    rw [run_cons, run_cons]
    rcases List.mem_cons.1 hmem with rfl | hmem
    · rw [ha, Option.getD_some, Option.getD_some]
    · exact ih hmem

/-- The register holds what it held, or what one of the operations set. -/
theorem run_cases : run turn b l = b ∨ ∃ a ∈ l, turn a = some (run turn b l) := by
  induction l generalizing b with
  | nil => exact .inl rfl
  | cons a l ih =>
    rw [run_cons]
    rcases @ih ((turn a).getD b) with h | ⟨a', ha', hturn⟩
    · rw [h]
      cases hturn : turn a with
      | none => exact .inl rfl
      | some c => exact .inr ⟨a, List.mem_cons_self, hturn⟩
    · exact .inr ⟨a', List.mem_cons_of_mem a ha', hturn⟩

/-- A register that starts anew and misses the first operations agrees with one that has
seen them all just when one of the rest sets it, if it is to be set. -/
theorem run_suffix {turn : α → Option Bool} :
    run turn false l' = run turn false (l ++ l') ↔
      (run turn false (l ++ l') = true → ∃ a ∈ l', turn a = some true) := by
  rw [run_append]
  constructor
  · intro heq htrue
    rw [← heq] at htrue
    rcases @run_cases _ _ turn false l' with hfalse | ⟨a, ha, hturn⟩
    · rw [htrue] at hfalse
      cases hfalse
    · exact ⟨a, ha, htrue ▸ hturn⟩
  · intro h
    by_cases hset : ∃ a ∈ l', turn a ≠ none
    · obtain ⟨a, ha, hturn⟩ := hset
      obtain ⟨c, hc⟩ := Option.ne_none_iff_exists'.1 hturn
      exact run_of_some ha hc
    · have hnone : ∀ a ∈ l', turn a = none := fun a ha => by
        by_contra hturn
        exact hset ⟨a, ha, hturn⟩
      rw [run_of_none hnone, run_of_none hnone] at *
      cases hstart : run turn false l with
      | false => rfl
      | true =>
        obtain ⟨a, ha, hturn⟩ := h hstart
        rw [hnone a ha] at hturn
        cases hturn

end Overwrite
