import Mathlib.Data.List.Basic

/-! Systems that show labels as they take events, and simulations between two of them: what
the one can show, the other can. -/
namespace History

variable {σ τ ε ε' δ ο : Type*}

/-- `next` is `none` where the event cannot happen. -/
structure System (σ ε ο : Type*) where
  next : σ → ε → Option (List ο × σ)

namespace System

/-- Some events lead from the one state to the other, and show the labels in their order. -/
inductive Runs (sys : System σ ε ο) : σ → List ο → σ → Prop
  | refl (s : σ) : Runs sys s [] s
  | step {s s' s'' : σ} {h out : List ο} {e : ε} (hrun : Runs sys s h s')
      (hnext : sys.next s' e = some (out, s'')) : Runs sys s (h ++ out) s''

variable {sys : System σ ε ο} {s s' s'' : σ} {h h' out : List ο} {e : ε}

theorem Runs.one (hnext : sys.next s e = some (out, s')) : sys.Runs s out s' :=
  .step (.refl s) hnext

theorem Runs.trans (hrun : sys.Runs s h s') (hrun' : sys.Runs s' h' s'') :
    sys.Runs s (h ++ h') s'' := by
  induction hrun' with
  | refl =>
    rw [List.append_nil]
    exact hrun
  | step _ hnext ih =>
    rw [← List.append_assoc]
    exact .step ih hnext

/-- What every step keeps, a run keeps. -/
theorem Runs.invariant {Inv : List ο → σ → Prop}
    (hstep : ∀ h s e out s', Inv h s → sys.next s e = some (out, s') → Inv (h ++ out) s')
    (hinv : Inv [] s) (hrun : sys.Runs s h s') : Inv h s' := by
  induction hrun with
  | refl => exact hinv
  | step _ hnext ih => exact hstep _ _ _ _ _ ih hnext

/-- The same system where only the `allowed` events happen. -/
def restrict (sys : System σ ε ο) (allowed : ε → Bool) : System σ ε ο where
  next s e := if allowed e then sys.next s e else none

theorem restrict_next {allowed : ε → Bool} (hallowed : allowed e = true)
    (hnext : sys.next s e = some (out, s')) : (sys.restrict allowed).next s e = some (out, s') :=
  (if_pos hallowed).trans hnext

theorem Runs.unrestrict {allowed : ε → Bool} (hrun : (sys.restrict allowed).Runs s h s') :
    sys.Runs s h s' := by
  induction hrun with
  | refl => exact .refl s
  | @step s' s'' h out e _ hnext ih =>
    have hsys : sys.next s' e = some (out, s'') := by
      simp only [restrict] at hnext
      split at hnext
      · exact hnext
      · cases hnext
    exact ih.step hsys

/-- The events of a list, one after another. -/
def run (sys : System σ ε ο) : σ → List ε → Option (List ο × σ)
  | s, [] => some ([], s)
  | s, e :: es => do
    let (out, s) ← sys.next s e
    let (more, s) ← sys.run s es
    return (out ++ more, s)

theorem runs_of_run (es : List ε) (hrun : sys.run s es = some (h, s')) : sys.Runs s h s' := by
  induction es generalizing s h with
  | nil =>
    obtain ⟨rfl, rfl⟩ := Prod.mk.inj (Option.some.inj hrun)
    exact .refl s
  | cons e es ih =>
    obtain ⟨⟨out, t⟩, hnext, hrest⟩ := Option.bind_eq_some_iff.1 hrun
    obtain ⟨⟨more, t'⟩, hmore, heq⟩ := Option.bind_eq_some_iff.1 hrest
    obtain ⟨rfl, rfl⟩ := Prod.mk.inj (Option.some.inj heq)
    exact (Runs.one hnext).trans (ih hmore)

end System

/-- `R` relates the states of the two systems: the abstract one follows each step of the
other by steps of its own, and shows the same. -/
def Simulates (abs : System τ δ ο) (sys : System σ ε ο) (R : τ → σ → Prop) : Prop :=
  ∀ a s e out s', R a s → sys.next s e = some (out, s') → ∃ a', abs.Runs a out a' ∧ R a' s'

theorem Simulates.run {abs : System τ δ ο} {sys : System σ ε ο} {R : τ → σ → Prop}
    (hsim : Simulates abs sys R) {a : τ} {s s' : σ} {h : List ο} (hrel : R a s)
    (hrun : sys.Runs s h s') : ∃ a', abs.Runs a h a' ∧ R a' s' := by
  induction hrun with
  | refl => exact ⟨a, .refl a, hrel⟩
  | step _ hnext ih =>
    obtain ⟨b, habs, hb⟩ := ih
    obtain ⟨a', hstep, ha'⟩ := hsim b _ _ _ _ hb hnext
    exact ⟨a', habs.trans hstep, ha'⟩

variable {κ : Type*} {note : κ → ο → Option κ} {act : κ → δ → Option κ}

/-- The program follows what the system shows with `note`, and takes steps of its own with
`act`. A step of the system that it does not expect cannot happen. -/
def System.guided (sys : System σ ε ο) (note : κ → ο → Option κ) (act : κ → δ → Option κ) :
    System (σ × κ) (ε ⊕ δ) (ο ⊕ δ) where
  next s e :=
    match e with
    | .inl e =>
      (sys.next s.1 e).bind fun r =>
        (r.1.foldlM note s.2).map fun k => (r.1.map .inl, (r.2, k))
    | .inr d => (act s.2 d).map fun k => ([.inr d], (s.1, k))

variable {sys : System σ ε ο} {s s' : σ} {k k' : κ} {out : List ο} {e : ε} {d : δ}

theorem System.guided_inl (hnext : sys.next s e = some (out, s')) (hnote : out.foldlM note k = some k') :
    (sys.guided note act).next (s, k) (.inl e) = some (out.map .inl, (s', k')) := by
  simp [System.guided, hnext, hnote]

theorem System.guided_inr (hact : act k d = some k') :
    (sys.guided note act).next (s, k) (.inr d) = some ([.inr d], (s, k')) := by
  simp [System.guided, hact]

/-- What a step is: one of the system that the program follows, or one of the program. -/
theorem System.guided_cases {e : ε ⊕ δ} {out : List (ο ⊕ δ)} {t : σ × κ}
    (hnext : (sys.guided note act).next (s, k) e = some (out, t)) :
    (∃ e' out', sys.next s e' = some (out', t.1) ∧ out'.foldlM note k = some t.2 ∧
        out = out'.map .inl) ∨
      ∃ d, e = .inr d ∧ act k d = some t.2 ∧ t.1 = s ∧ out = [.inr d] := by
  cases e with
  | inl e =>
    obtain ⟨⟨out', s'⟩, hsys, hrest⟩ := Option.bind_eq_some_iff.1 hnext
    obtain ⟨k', hnote, heq⟩ := Option.map_eq_some_iff.1 hrest
    obtain ⟨rfl, rfl⟩ := Prod.mk.inj heq
    exact .inl ⟨e, out', hsys, hnote, rfl⟩
  | inr d =>
    obtain ⟨k', hact, heq⟩ := Option.map_eq_some_iff.1 hnext
    obtain ⟨rfl, rfl⟩ := Prod.mk.inj heq
    exact .inr ⟨d, rfl, hact, rfl, rfl⟩

/-- What the program keeps by itself, whatever the system is. -/
theorem System.Runs.program {P : κ → Prop} {h : List (ο ⊕ δ)} {t t' : σ × κ}
    (hnote : ∀ k l k', P k → note k l = some k' → P k') (hact : ∀ k d k', P k → act k d = some k' → P k')
    (hrun : (sys.guided note act).Runs t h t') (hp : P t.2) : P t'.2 := by
  have hfold : ∀ {out : List ο} {k k' : κ}, P k → out.foldlM note k = some k' → P k' := by
    intro out
    induction out with
    | nil =>
      intro k k' hk hsome
      exact Option.some.inj hsome ▸ hk
    | cons l out ih =>
      intro k k' hk hsome
      obtain ⟨k₁, hfirst, hrest⟩ := Option.bind_eq_some_iff.1 hsome
      exact ih (hnote k l k₁ hk hfirst) hrest
  refine @Runs.invariant _ _ _ _ _ _ _ (fun _ t => P t.2) (fun _ t e out t' hinv hnext => ?_) hp hrun
  rcases System.guided_cases hnext with ⟨_, _, -, hsome, -⟩ | ⟨d, -, hsome, -, -⟩
  · exact hfold hinv hsome
  · exact hact _ d _ hinv hsome

/-- The program follows a whole run of the system. -/
theorem System.Runs.guided {h : List ο} (hrun : sys.Runs s h s') (hnote : h.foldlM note k = some k') :
    (sys.guided note act).Runs (s, k) (h.map .inl) (s', k') := by
  induction hrun generalizing k' with
  | refl =>
    obtain rfl := Option.some.inj hnote
    exact .refl _
  | step _ hnext ih =>
    rw [List.foldlM_append] at hnote
    obtain ⟨k₁, hbefore, hlast⟩ := Option.bind_eq_some_iff.1 hnote
    rw [List.map_append]
    exact (ih hbefore).step (System.guided_inl hnext hlast)

/-- Some events of the system and some of the program's own: those of the program around the
system of the former. -/
theorem System.guided_restrict (sys : System σ ε ο) (note : κ → ο → Option κ) (act : κ → δ → Option κ)
    (allowed : ε → Bool) (own : δ → Bool) :
    (sys.restrict allowed).guided note (fun k d => if own d then act k d else none) =
      (sys.guided note act).restrict (Sum.elim allowed own) := by
  refine congrArg System.mk (funext fun s => funext fun e => ?_)
  cases e with
  | inl e =>
    cases hallowed : allowed e with
    | true => simp [restrict, System.guided, hallowed]
    | false => simp [restrict, hallowed]
  | inr d =>
    cases hown : own d with
    | true => simp [System.guided, hown]
    | false => simp [hown]

/-- The program cannot tell a system from the one that simulates it. -/
theorem Simulates.guided {abs : System τ ε' ο} {R : τ → σ → Prop} (hsim : Simulates abs sys R) :
    Simulates (abs.guided note act) (sys.guided note act) fun a s => R a.1 s.1 ∧ a.2 = s.2 := by
  rintro ⟨a, k⟩ ⟨s, k'⟩ e out t ⟨hrel, rfl⟩ hnext
  rcases System.guided_cases hnext with ⟨e', out', hsys, hnote, rfl⟩ | ⟨d, rfl, hact, hsame, rfl⟩
  · obtain ⟨a', habs, hrel'⟩ := hsim a s e' out' t.1 hrel hsys
    exact ⟨(a', t.2), habs.guided hnote, hrel', rfl⟩
  · refine ⟨(a, t.2), .one (System.guided_inr hact), ?_, rfl⟩
    rw [hsame]
    exact hrel

end History
