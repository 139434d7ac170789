import Mathlib.Data.List.Chain
import Mathlib.Data.List.Nodup
import Mathlib.Logic.Function.Basic

/-! Nodes in a ring, each with the next one, of which those from `front` to `last` are in
use and the others are spare. -/

/-- `live` are the nodes in use and `spare` those behind them, up to `front` again. -/
structure LinkedRing {ι : Type*} (next : ι → ι) (front last : ι) (live spare : List ι) : Prop where
  nodup : (live ++ spare).Nodup
  head : live.head? = some front
  getLast : live.getLast? = some last
  chain : (live ++ spare ++ [front]).IsChain fun a b => next a = b

namespace LinkedRing

variable {ι : Type*} {next next' : ι → ι} {front last b c : ι} {l live spare rest : List ι}

/-- Only the next nodes of those before the last one matter. -/
theorem chain_congr (heq : ∀ a ∈ l, next' a = next a)
    (h : (l ++ [c]).IsChain fun a b => next a = b) : (l ++ [c]).IsChain fun a b => next' a = b := by
  rw [List.isChain_iff_forall_rel_of_append_cons_cons] at h ⊢
  intro a b l₁ l₂ hsplit
  have hlen : l₁.length < l.length := by
    have := congrArg List.length hsplit
    simp only [List.length_append, List.length_cons, List.length_nil] at this
    omega
  have hget : (l ++ [c])[l₁.length]? = some a := by
    rw [hsplit, List.getElem?_append_right (Nat.le_refl _), Nat.sub_self]
    rfl
  rw [List.getElem?_append_left hlen] at hget
  rw [heq a (List.mem_of_getElem? hget)]
  exact h hsplit

theorem front_mem (h : LinkedRing next front last live spare) : front ∈ live :=
  List.mem_of_mem_head? (by simp [h.head])

theorem last_mem (h : LinkedRing next front last live spare) : last ∈ live :=
  List.mem_of_getLast? h.getLast

theorem not_mem_spare (h : LinkedRing next front last live spare) (hb : b ∈ live) : b ∉ spare :=
  fun hmem => List.disjoint_of_nodup_append h.nodup hb hmem

/-- The nodes in use but the last one. -/
theorem live_eq (h : LinkedRing next front last live spare) : ∃ before, live = before ++ [last] :=
  ⟨live.dropLast, (List.dropLast_append_getLast? last (by simp [h.getLast])).symm⟩

/-- Only what the nodes of the ring have as their next ones matters. -/
theorem congr (h : LinkedRing next front last live spare) (heq : ∀ a ∈ live ++ spare, next' a = next a) :
    LinkedRing next' front last live spare :=
  { h with chain := chain_congr heq h.chain }

/-- The node that follows the last one in use: a spare one, or else the first in use. -/
theorem next_last (h : LinkedRing next front last live spare) :
    (spare ++ [front]).head? = some (next last) := by
  obtain ⟨before, rfl⟩ := h.live_eq
  have hchain := h.chain
  rw [List.append_assoc, List.append_assoc] at hchain
  have hlast := hchain.right_of_append
  cases spare with
  | nil =>
    have hrel : next last = front := by simpa using hlast
    simp [hrel]
  | cons b spare =>
    have hrel : next last = b := by
      have := List.isChain_cons_cons.1 hlast
      exact this.1
    simp [hrel]

theorem head_spare_iff (h : LinkedRing next front last live spare) :
    spare.head? = some (next last) ↔ next last ≠ front := by
  have hnext := h.next_last
  cases spare with
  | nil =>
    obtain rfl : front = next last := by simpa using hnext
    simp
  | cons b spare =>
    obtain rfl : b = next last := by simpa using hnext
    refine ⟨fun _ heq => ?_, fun _ => rfl⟩
    exact h.not_mem_spare h.front_mem (heq ▸ List.mem_cons_self)

theorem spare_eq_nil_iff (h : LinkedRing next front last live spare) : spare = [] ↔ next last = front := by
  have hnext := h.next_last
  cases spare with
  | nil =>
    obtain rfl : front = next last := by simpa using hnext
    simp
  | cons b spare =>
    obtain rfl : b = next last := by simpa using hnext
    refine iff_of_false (List.cons_ne_nil _ _) fun heq => ?_
    exact h.not_mem_spare h.front_mem (heq ▸ List.mem_cons_self)

/-- Where the first and the last node in use are two, another follows the first. -/
theorem live_cons (h : LinkedRing next front last live spare) (hne : last ≠ front) :
    ∃ rest, live = front :: next front :: rest := by
  obtain ⟨before, rfl⟩ := h.live_eq
  cases before with
  | nil => exact absurd (Option.some.inj h.head) hne
  | cons a before =>
    obtain rfl : a = front := Option.some.inj h.head
    have hchain := h.chain
    cases before with
    | nil =>
      have hrel : next a = last := (List.isChain_cons_cons.1 hchain).1
      exact ⟨[], by rw [hrel]; rfl⟩
    | cons c before =>
      have hrel : next a = c := (List.isChain_cons_cons.1 hchain).1
      exact ⟨before ++ [last], by rw [hrel]; rfl⟩

/-- Where the first and the last node in use are one, no other is. -/
theorem live_eq_singleton (h : LinkedRing next b b live spare) : live = [b] := by
  obtain ⟨before, rfl⟩ := h.live_eq
  cases before with
  | nil => rfl
  | cons a before =>
    obtain rfl : a = b := Option.some.inj h.head
    have hnodup : (a :: (before ++ [a])).Nodup := h.nodup.of_append_left
    exact absurd (List.mem_append_right before (List.mem_singleton_self a)) (List.nodup_cons.1 hnodup).1

/-- The first node is done with: it becomes the last of the spare ones. -/
theorem advance_front (h : LinkedRing next front last (front :: b :: rest) spare) :
    LinkedRing next b last (b :: rest) (spare ++ [front]) where
  nodup := by
    have hnodup : (front :: (b :: rest ++ spare)).Nodup := h.nodup
    rw [← List.append_assoc]
    exact (List.perm_append_singleton front (b :: rest ++ spare)).nodup_iff.2 hnodup
  head := rfl
  getLast := by
    rw [← h.getLast, List.getLast?_cons_cons]
  chain := by
    have hchain : (front :: b :: (rest ++ spare ++ [front])).IsChain fun a b => next a = b := h.chain
    obtain ⟨hnext, hrest⟩ := List.isChain_cons_cons.1 hchain
    have hcat : (b :: (rest ++ spare ++ [front]) ++ [b]).IsChain fun a b => next a = b := by
      have heq : b :: (rest ++ spare ++ [front]) ++ [b] = b :: (rest ++ spare) ++ front :: [b] := by
        simp
      rw [heq, List.isChain_split]
      exact ⟨hrest, List.isChain_pair.2 hnext⟩
    simpa using hcat

/-- The next spare node comes into use. -/
theorem advance_last (h : LinkedRing next front last live (b :: spare)) :
    LinkedRing next front b (live ++ [b]) spare where
  nodup := by simpa using h.nodup
  head := by simp [h.head]
  getLast := by simp
  chain := by simpa using h.chain

/-- A new node behind the last one in use. -/
theorem insert [DecidableEq ι] (h : LinkedRing next front last live spare) (hnew : b ∉ live ++ spare)
    (hnext : next b = next last) : LinkedRing (Function.update next last b) front last live (b :: spare) := by
  have hbefore := h.chain
  have hafter := h.next_last
  obtain ⟨before, rfl⟩ := h.live_eq
  have hmem : ∀ {a : ι}, a ∈ before ∨ a ∈ spare → a ≠ last := by
    rintro a ha rfl
    have hnodup := h.nodup
    rw [List.append_assoc] at hnodup
    have hdisj := List.disjoint_of_nodup_append hnodup
    rcases ha with ha | ha
    · exact hdisj ha (by simp)
    · exact (List.nodup_cons.1 hnodup.of_append_right).1 ha
  have hbl : b ≠ last := by
    rintro rfl
    exact hnew (by simp)
  refine ⟨?_, h.head, h.getLast, ?_⟩
  · have hperm : (before ++ [last] ++ b :: spare).Perm (b :: (before ++ [last] ++ spare)) :=
      List.perm_middle
    exact hperm.nodup_iff.2 (List.nodup_cons.2 ⟨hnew, h.nodup⟩)
  · rw [List.append_assoc] at hbefore
    have hleft : (before ++ [last]).IsChain fun a c => Function.update next last b a = c :=
      chain_congr (fun a ha => Function.update_of_ne (hmem (.inl ha)) _ _) hbefore.left_of_append
    have hright : (b :: spare ++ [front]).IsChain fun a c => Function.update next last b a = c := by
      apply @chain_congr _ next
      · intro a ha
        refine Function.update_of_ne ?_ _ _
        rcases List.mem_cons.1 ha with rfl | ha
        · exact hbl
        · exact hmem (.inr ha)
      · refine List.isChain_cons.2 ⟨fun y hy => ?_, hbefore.right_of_append⟩
        rw [hnext]
        exact Option.some.inj (hafter.symm.trans hy)
    rw [show before ++ [last] ++ b :: spare ++ [front] = before ++ last :: b :: (spare ++ [front]) by simp,
      List.isChain_append_cons_cons]
    exact ⟨hleft, Function.update_self _ _ _, hright⟩

end LinkedRing
