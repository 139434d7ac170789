import Mathlib.Data.List.Nodup
import Mathlib.Logic.Function.Basic

/-! A cache in front of a database. Changes are made in the cache and kept as pending,
until they are taken and applied to the database. -/
namespace WriteBehind

/-- `pending` is `some none` for a deletion. `version` counts the changes of a key, and
`taken` is what has been applied to the database, each change under its version. -/
structure Backed (K V : Type*) where
  cache : K → Option V
  pending : K → Option (Option V)
  db : K → Option V
  removed : K → Bool
  version : K → Nat
  taken : List (K × Nat)

namespace Backed

variable {K V : Type*}

/-- What the database would be if all that is pending were applied. -/
def settled (b : Backed K V) (k : K) : Option V := (b.pending k).getD (b.db k)

/-- Cached values are forgotten. -/
def evict (b : Backed K V) (p : K → Bool) : Backed K V :=
  { b with cache := fun k => if p k then none else b.cache k }

/-- The invariant. Only the keys that are live have started with the cache and the
database in agreement. -/
structure Sound (live : K → Prop) (b : Backed K V) : Prop where
  coherent : ∀ k v, live k → b.cache k = some v → b.settled k = some v
  gone : ∀ k, b.removed k = true → b.settled k = none
  past : ∀ k n, (k, n) ∈ b.taken → n ≤ b.version k
  fresh : ∀ k n, b.pending k ≠ none → (k, n) ∈ b.taken → n < b.version k
  once : b.taken.Nodup

variable {live : K → Prop} {b : Backed K V}

theorem Sound.evict (h : b.Sound live) (p : K → Bool) : (b.evict p).Sound live :=
  { h with
    coherent := by
      intro k v hlive hcache
      simp only [Backed.evict] at hcache
      split at hcache
      · cases hcache
      · exact h.coherent k v hlive hcache }

variable [DecidableEq K]

/-- A change that sets the key to a value, or deletes it. -/
def change (b : Backed K V) (k : K) (value : Option V) : Backed K V :=
  { b with
    cache := Function.update b.cache k value
    pending := Function.update b.pending k (some value)
    removed := Function.update b.removed k value.isNone
    version := Function.update b.version k (b.version k + 1) }

def take (b : Backed K V) (keys : List K) : Backed K V :=
  { b with
    pending := fun k => if k ∈ keys then none else b.pending k
    db := fun k => if k ∈ keys then b.settled k else b.db k
    taken := b.taken ++ keys.map fun k => (k, b.version k) }

variable {k : K} {value : Option V} {keys : List K}

theorem settled_change (k' : K) :
    (b.change k value).settled k' = if k' = k then value else b.settled k' := by
  simp only [settled, change, Function.update_apply]
  split
  · rfl
  · rfl

@[simp] theorem settled_take (k' : K) : (b.take keys).settled k' = b.settled k' := by
  simp only [settled, take]
  split
  · rfl
  · rfl

theorem version_le_change (k' : K) : b.version k' ≤ (b.change k value).version k' := by
  simp only [change, Function.update_apply]
  split
  · next heq =>
    subst heq
    exact Nat.le_succ _
  · exact Nat.le_refl _

theorem Sound.change (h : b.Sound live) (k : K) (value : Option V) :
    (b.change k value).Sound live where
  coherent := by
    intro k' v hlive hcache
    rw [settled_change]
    simp only [Backed.change, Function.update_apply] at hcache
    split at hcache
    · next heq =>
      rw [if_pos heq]
      exact hcache
    · next hne =>
      rw [if_neg hne]
      exact h.coherent k' v hlive hcache
  gone := by
    intro k' hremoved
    rw [settled_change]
    simp only [Backed.change, Function.update_apply] at hremoved
    split at hremoved
    · next heq =>
      rw [if_pos heq]
      exact Option.isNone_iff_eq_none.1 hremoved
    · next hne =>
      rw [if_neg hne]
      exact h.gone k' hremoved
  past := fun k' n hmem => Nat.le_trans (h.past k' n hmem) (version_le_change k')
  fresh := by
    intro k' n hpending hmem
    by_cases heq : k' = k
    · subst heq
      have hle := h.past k' n hmem
      simp only [Backed.change, Function.update_self]
      exact Nat.lt_succ_of_le hle
    · simp only [Backed.change, Function.update_of_ne heq] at hpending ⊢
      exact h.fresh k' n hpending hmem
  once := h.once

/-- Each key is taken once, and only while it is pending. -/
theorem Sound.take (h : b.Sound live) (hnodup : keys.Nodup)
    (hpending : ∀ k ∈ keys, b.pending k ≠ none) : (b.take keys).Sound live where
  coherent := by
    intro k v hlive hcache
    rw [settled_take]
    exact h.coherent k v hlive hcache
  gone := by
    intro k hremoved
    rw [settled_take]
    exact h.gone k hremoved
  past := by
    intro k n hmem
    rcases List.mem_append.1 hmem with hmem | hmem
    · exact h.past k n hmem
    · obtain ⟨k', -, heq⟩ := List.mem_map.1 hmem
      obtain ⟨rfl, rfl⟩ := Prod.mk.inj heq
      exact Nat.le_refl _
  fresh := by
    intro k n hleft hmem
    have hnot : k ∉ keys := by
      intro hin
      simp only [Backed.take, if_pos hin, ne_eq, not_true] at hleft
    simp only [Backed.take, if_neg hnot] at hleft
    rcases List.mem_append.1 hmem with hmem | hmem
    · exact h.fresh k n hleft hmem
    · obtain ⟨k', hin, heq⟩ := List.mem_map.1 hmem
      obtain ⟨rfl, rfl⟩ := Prod.mk.inj heq
      exact absurd hin hnot
  once := by
    apply List.Nodup.append h.once
    · exact hnodup.map fun _ _ heq => congrArg Prod.fst heq
    · intro p hold hnew
      obtain ⟨k, hin, rfl⟩ := List.mem_map.1 hnew
      exact Nat.lt_irrefl _ (h.fresh k _ (hpending k hin) hold)

end Backed

end WriteBehind
