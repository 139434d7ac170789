import Mathlib.Data.List.Basic
import Mathlib.Data.Option.Basic

/-! Consumers fed in chunks against machines reading one item at a time. A consumer
that tracks a machine cannot tell one cutting of its input from another. -/
namespace Incremental

variable {σ ι ο τ ω ρ : Type*}

/-- `step` is `none` where the machine makes no promise. -/
structure Machine (σ ι ο : Type*) where
  step : σ → ι → Option (σ × List ο)

namespace Machine

def run (m : Machine σ ι ο) : σ → List ι → Option (σ × List ο)
  | s, [] => some (s, [])
  | s, i :: is =>
    match m.step s i with
    | none => none
    | some (s', out) =>
      match m.run s' is with
      | none => none
      | some (s'', out') => some (s'', out ++ out')

@[simp] theorem run_nil (m : Machine σ ι ο) (s : σ) : m.run s [] = some (s, []) := rfl

theorem run_cons_some {m : Machine σ ι ο} {s s'' : σ} {i : ι} {is : List ι} {out : List ο} :
    m.run s (i :: is) = some (s'', out) ↔
      ∃ s' out₁ out₂, m.step s i = some (s', out₁) ∧ m.run s' is = some (s'', out₂) ∧
        out = out₁ ++ out₂ := by
  constructor
  · intro h
    simp only [run] at h
    split at h
    · cases h
    · next s' out₁ hs =>
      split at h
      · cases h
      · next t out₂ ht =>
        obtain ⟨rfl, rfl⟩ := Prod.mk.inj (Option.some.inj h)
        exact ⟨s', out₁, out₂, hs, ht, rfl⟩
  · rintro ⟨s', out₁, out₂, hs, ht, rfl⟩
    simp only [run, hs, ht]

theorem run_append {m : Machine σ ι ο} {s s' s'' : σ} {is js : List ι} {out out' : List ο}
    (h : m.run s is = some (s', out)) (h' : m.run s' js = some (s'', out')) :
    m.run s (is ++ js) = some (s'', out ++ out') := by
  induction is generalizing s out with
  | nil =>
    obtain ⟨rfl, rfl⟩ := Prod.mk.inj (Option.some.inj h)
    simpa using h'
  | cons i is ih =>
    obtain ⟨t, out₁, out₂, hs, ht, rfl⟩ := run_cons_some.1 h
    exact run_cons_some.2 ⟨t, out₁, out₂ ++ out', hs, ih ht, List.append_assoc ..⟩

theorem run_append_inv {m : Machine σ ι ο} {s s'' : σ} {is js : List ι} {out : List ο}
    (h : m.run s (is ++ js) = some (s'', out)) :
    ∃ s' out₁ out₂, m.run s is = some (s', out₁) ∧ m.run s' js = some (s'', out₂) ∧
      out = out₁ ++ out₂ := by
  induction is generalizing s out with
  | nil => exact ⟨s, [], out, rfl, h, rfl⟩
  | cons i is ih =>
    obtain ⟨t, out₁, out₂, hs, ht, rfl⟩ := run_cons_some.1 h
    obtain ⟨s', o₁, o₂, h₁, h₂, rfl⟩ := ih ht
    exact ⟨s', out₁ ++ o₁, o₂, run_cons_some.2 ⟨t, out₁, o₁, hs, h₁, rfl⟩, h₂,
      (List.append_assoc ..).symm⟩

end Machine

/-- Feed the chunks one by one, keeping what was emitted and the last verdict. -/
def feedAll (feed : τ → List ι → Option (τ × List ω × ρ)) :
    τ → List (List ι) → Option (τ × List ω × Option ρ)
  | t, [] => some (t, [], none)
  | t, chunk :: chunks =>
    match feed t chunk with
    | none => none
    | some (t', out, verdict) =>
      match feedAll feed t' chunks with
      | none => none
      | some (t'', out', verdict') => some (t'', out ++ out', verdict'.or (some verdict))

/-- Wherever the machine promises a run over a chunk, feeding that chunk returns,
emits what the machine emits, seen through `view`, and reports the verdict of the
machine's state. -/
def Tracks (m : Machine σ ι ο) (feed : τ → List ι → Option (τ × List ω × ρ))
    (Rep : τ → σ → Prop) (view : ο → ω) (verdict : σ → ρ) : Prop :=
  ∀ t s chunk s' out, Rep t s → m.run s chunk = some (s', out) →
    ∃ t', feed t chunk = some (t', out.map view, verdict s') ∧ Rep t' s'

variable {m : Machine σ ι ο} {feed : τ → List ι → Option (τ × List ω × ρ)}
  {Rep : τ → σ → Prop} {view : ο → ω} {verdict : σ → ρ}

theorem Tracks.feedAll (h : Tracks m feed Rep view verdict) {t : τ} {s s' : σ}
    {chunks : List (List ι)} {out : List ο} (hrep : Rep t s)
    (hrun : m.run s chunks.flatten = some (s', out)) :
    ∃ t', Incremental.feedAll feed t chunks =
      some (t', out.map view, if chunks = [] then none else some (verdict s')) ∧ Rep t' s' := by
  induction chunks generalizing t s out with
  | nil =>
    obtain ⟨rfl, rfl⟩ := Prod.mk.inj (Option.some.inj hrun)
    exact ⟨t, rfl, hrep⟩
  | cons chunk chunks ih =>
    obtain ⟨s₁, out₁, out₂, h₁, h₂, rfl⟩ := Machine.run_append_inv hrun
    obtain ⟨t₁, hfeed, hrep₁⟩ := h t s chunk s₁ out₁ hrep h₁
    obtain ⟨t', hall, hrep'⟩ := ih hrep₁ h₂
    refine ⟨t', ?_, hrep'⟩
    simp only [Incremental.feedAll, hfeed, hall, List.map_append]
    cases chunks with
    | nil =>
      obtain ⟨rfl, rfl⟩ := Prod.mk.inj (Option.some.inj h₂)
      simp
    | cons c cs => simp

/-- Two cuttings of one input, each with at least one chunk, emit the same items
and end with the same verdict. -/
theorem Tracks.cutting_invariant (h : Tracks m feed Rep view verdict) {t : τ} {s s' : σ}
    {chunks chunks' : List (List ι)} {out : List ο} (hrep : Rep t s)
    (hcut : chunks.flatten = chunks'.flatten) (hne : chunks ≠ []) (hne' : chunks' ≠ [])
    (hrun : m.run s chunks.flatten = some (s', out)) :
    (∃ t₁, Incremental.feedAll feed t chunks = some (t₁, out.map view, some (verdict s'))) ∧
      ∃ t₂, Incremental.feedAll feed t chunks' = some (t₂, out.map view, some (verdict s')) := by
  obtain ⟨t₁, h₁, -⟩ := h.feedAll hrep hrun
  obtain ⟨t₂, h₂, -⟩ := h.feedAll hrep (hcut ▸ hrun)
  rw [if_neg hne] at h₁
  rw [if_neg hne'] at h₂
  exact ⟨⟨t₁, h₁⟩, ⟨t₂, h₂⟩⟩

end Incremental
