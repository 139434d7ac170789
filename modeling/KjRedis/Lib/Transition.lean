import Mathlib.Data.List.Basic
import Mathlib.Data.Option.Basic

/-! Systems taking one event after another, and what holds after every run of them. -/
namespace Transition

variable {σ ε : Type*}

/-- `next` is `none` where the event cannot happen. -/
structure System (σ ε : Type*) where
  next : σ → ε → Option σ

namespace System

def run (sys : System σ ε) : σ → List ε → Option σ
  | s, [] => some s
  | s, e :: es =>
    match sys.next s e with
    | none => none
    | some s' => sys.run s' es

/-- Every step of the run meets `P`. -/
def Meets (sys : System σ ε) (P : σ → ε → Prop) : σ → List ε → Prop
  | _, [] => True
  | s, e :: es => P s e ∧ ∀ s', sys.next s e = some s' → sys.Meets P s' es

/-- `Q` holds in every state the run passes, its first and its last among them. -/
def Always (sys : System σ ε) (Q : σ → Prop) : σ → List ε → Prop
  | s, [] => Q s
  | s, e :: es => Q s ∧ ∀ s', sys.next s e = some s' → sys.Always Q s' es

variable {sys : System σ ε} {P : σ → ε → Prop} {s s' s'' : σ} {e : ε} {es fs : List ε}

@[simp] theorem run_nil : sys.run s [] = some s := rfl

theorem run_cons_some :
    sys.run s (e :: es) = some s'' ↔ ∃ s', sys.next s e = some s' ∧ sys.run s' es = some s'' := by
  constructor
  · intro h
    simp only [run] at h
    split at h
    · cases h
    · next s' hs => exact ⟨s', hs, h⟩
  · rintro ⟨s', hs, h⟩
    simp only [run, hs, h]

theorem run_append_some :
    sys.run s (es ++ fs) = some s'' ↔ ∃ s', sys.run s es = some s' ∧ sys.run s' fs = some s'' := by
  induction es generalizing s with
  | nil => simp
  | cons e es ih =>
    rw [List.cons_append, run_cons_some]
    constructor
    · rintro ⟨t, hs, h⟩
      obtain ⟨s', h₁, h₂⟩ := ih.1 h
      exact ⟨s', run_cons_some.2 ⟨t, hs, h₁⟩, h₂⟩
    · rintro ⟨s', h₁, h₂⟩
      obtain ⟨t, hs, h⟩ := run_cons_some.1 h₁
      exact ⟨t, hs, ih.2 ⟨s', h, h₂⟩⟩

theorem meets_append (hrun : sys.run s es = some s') :
    sys.Meets P s (es ++ fs) ↔ sys.Meets P s es ∧ sys.Meets P s' fs := by
  induction es generalizing s with
  | nil =>
    obtain rfl := Option.some.inj hrun
    simp [Meets]
  | cons e es ih =>
    obtain ⟨t, hs, h⟩ := run_cons_some.1 hrun
    simp only [List.cons_append, Meets, and_assoc]
    refine and_congr_right fun _ => ⟨fun hall => ?_, fun hall u hu => ?_⟩
    · obtain ⟨h₁, h₂⟩ := (ih h).1 (hall t hs)
      refine ⟨fun u hu => ?_, h₂⟩
      obtain rfl := Option.some.inj (hs.symm.trans hu)
      exact h₁
    · obtain rfl := Option.some.inj (hs.symm.trans hu)
      exact (ih h).2 ⟨hall.1 t hs, hall.2⟩

/-- What every step that meets `P` keeps, a run of such steps keeps. -/
theorem run_invariant {Inv : σ → Prop}
    (hstep : ∀ s e s', Inv s → P s e → sys.next s e = some s' → Inv s')
    (hinv : Inv s) (hmeets : sys.Meets P s es) (hrun : sys.run s es = some s') : Inv s' := by
  induction es generalizing s with
  | nil =>
    obtain rfl := Option.some.inj hrun
    exact hinv
  | cons e es ih =>
    obtain ⟨t, hs, h⟩ := run_cons_some.1 hrun
    exact ih (hstep s e t hinv hmeets.1 hs) (hmeets.2 t hs) h

/-- The same for what relates a state to the events that led to it. -/
theorem run_history {Inv : List ε → σ → Prop}
    (hstep : ∀ past s e s', Inv past s → P s e → sys.next s e = some s' → Inv (past ++ [e]) s')
    {past : List ε} (hinv : Inv past s) (hmeets : sys.Meets P s es)
    (hrun : sys.run s es = some s') : Inv (past ++ es) s' := by
  induction es generalizing s past with
  | nil =>
    obtain rfl := Option.some.inj hrun
    rw [List.append_nil]
    exact hinv
  | cons e es ih =>
    obtain ⟨t, hs, h⟩ := run_cons_some.1 hrun
    rw [List.append_cons]
    exact ih (hstep past s e t hinv hmeets.1 hs) (hmeets.2 t hs) h

/-- Where a step that meets `P` can always be taken, so can a run of such steps. -/
theorem run_progress {Inv : σ → Prop}
    (hstep : ∀ s e, Inv s → P s e → ∃ s', sys.next s e = some s' ∧ Inv s')
    (hinv : Inv s) (hmeets : sys.Meets P s es) : ∃ s', sys.run s es = some s' ∧ Inv s' := by
  induction es generalizing s with
  | nil => exact ⟨s, rfl, hinv⟩
  | cons e es ih =>
    obtain ⟨t, hs, ht⟩ := hstep s e hinv hmeets.1
    obtain ⟨s', hrun, hinv'⟩ := ih ht (hmeets.2 t hs)
    exact ⟨s', run_cons_some.2 ⟨t, hs, hrun⟩, hinv'⟩

theorem meets_of_forall (h : ∀ s, ∀ e ∈ es, P s e) : sys.Meets P s es := by
  induction es generalizing s with
  | nil => trivial
  | cons e es ih =>
    exact ⟨h s e List.mem_cons_self, fun t _ => ih fun u f hf => h u f (List.mem_cons_of_mem e hf)⟩

theorem meets_cons (hnext : sys.next s e = some s') (h : P s e) (hrest : sys.Meets P s' es) :
    sys.Meets P s (e :: es) := by
  refine ⟨h, fun t ht => ?_⟩
  obtain rfl := Option.some.inj (hnext.symm.trans ht)
  exact hrest

theorem Meets.mono {Q : σ → ε → Prop} (h : ∀ s e, P s e → Q s e) (hmeets : sys.Meets P s es) :
    sys.Meets Q s es := by
  induction es generalizing s with
  | nil => trivial
  | cons e es ih => exact ⟨h s e hmeets.1, fun t ht => ih (hmeets.2 t ht)⟩

theorem Meets.and {Q : σ → ε → Prop} (h : sys.Meets P s es) (h' : sys.Meets Q s es) :
    sys.Meets (fun s e => P s e ∧ Q s e) s es := by
  induction es generalizing s with
  | nil => trivial
  | cons e es ih => exact ⟨⟨h.1, h'.1⟩, fun t ht => ih (h.2 t ht) (h'.2 t ht)⟩

theorem meets_imp {q : Prop} (h : q → sys.Meets P s es) : sys.Meets (fun s e => q → P s e) s es := by
  induction es generalizing s with
  | nil => trivial
  | cons e es ih => exact ⟨fun hq => (h hq).1, fun s' hs => ih fun hq => (h hq).2 s' hs⟩

/-- On steps that keep an invariant as they meet `R`, `Q` is no less than `R`. -/
theorem meets_congr {Inv : σ → Prop} {Q R : σ → ε → Prop}
    (hstep : ∀ s e, Inv s → P s e → (Q s e ↔ R s e))
    (hkeep : ∀ s e s', Inv s → P s e → R s e → sys.next s e = some s' → Inv s')
    (hinv : Inv s) (hmeets : sys.Meets P s es) : sys.Meets Q s es ↔ sys.Meets R s es := by
  induction es generalizing s with
  | nil => exact Iff.rfl
  | cons e es ih =>
    simp only [Meets, hstep s e hinv hmeets.1]
    refine and_congr_right fun hr => forall_congr' fun t => forall_congr' fun ht => ?_
    exact ih (hkeep s e t hinv hmeets.1 hr ht) (hmeets.2 t ht)

instance decidableMeets [∀ s e, Decidable (P s e)] : ∀ s es, Decidable (sys.Meets P s es)
  | _, [] => isTrue trivial
  | s, e :: es =>
    match h : sys.next s e with
    | none => decidable_of_iff (P s e) ⟨fun hp => ⟨hp, fun t ht => by rw [h] at ht; cases ht⟩, And.left⟩
    | some t =>
      have := decidableMeets t es
      decidable_of_iff (P s e ∧ sys.Meets P t es) ⟨fun hp => meets_cons h hp.1 hp.2,
        fun hp => ⟨hp.1, hp.2 t h⟩⟩

/-- Where the steps that meet `P` are those that keep an invariant and meet `R`, and after
the others `R` or `Q` fails, a run has `Q` throughout and meets `R` if and only if its
steps meet `P`. -/
theorem always_and_meets_iff {Inv Q : σ → Prop} {R : σ → ε → Prop} (hinv : ∀ s, Inv s → Q s)
    (hstep : ∀ s e s', Inv s → P s e → sys.next s e = some s' → Inv s' ∧ R s e)
    (hbad : ∀ s e s', Inv s → ¬ P s e → sys.next s e = some s' → ¬ (R s e ∧ Q s'))
    (hs : Inv s) (hrun : sys.run s es = some s') :
    sys.Always Q s es ∧ sys.Meets R s es ↔ sys.Meets P s es := by
  induction es generalizing s with
  | nil => exact ⟨fun _ => trivial, fun _ => ⟨hinv s hs, trivial⟩⟩
  | cons e es ih =>
    obtain ⟨t, ht, hrun⟩ := run_cons_some.1 hrun
    have hfirst : ∀ {R : σ → Prop}, (∀ u, sys.next s e = some u → R u) ↔ R t := by
      intro R
      refine ⟨fun h => h t ht, fun h u hu => ?_⟩
      obtain rfl := Option.some.inj (ht.symm.trans hu)
      exact h
    simp only [Always, Meets, hfirst]
    constructor
    · rintro ⟨⟨-, hrest⟩, hr, hmeets⟩
      have hp : P s e := by
        by_contra hp
        refine hbad s e t hs hp ht ⟨hr, ?_⟩
        cases es with
        | nil => exact hrest
        | cons => exact hrest.1
      exact ⟨hp, (ih (hstep s e t hs hp ht).1 hrun).1 ⟨hrest, hmeets⟩⟩
    · rintro ⟨hp, hrest⟩
      obtain ⟨ht', hr⟩ := hstep s e t hs hp ht
      obtain ⟨halways, hmeets⟩ := (ih ht' hrun).2 hrest
      exact ⟨⟨hinv s hs, halways⟩, hr, hmeets⟩

theorem always_iff_meets {Inv Q : σ → Prop} (hinv : ∀ s, Inv s → Q s)
    (hstep : ∀ s e s', Inv s → P s e → sys.next s e = some s' → Inv s')
    (hbad : ∀ s e s', Inv s → ¬ P s e → sys.next s e = some s' → ¬ Q s')
    (hs : Inv s) (hrun : sys.run s es = some s') : sys.Always Q s es ↔ sys.Meets P s es := by
  rw [← always_and_meets_iff hinv (fun s e s' hs hp ht => ⟨hstep s e s' hs hp ht, trivial⟩)
    (fun s e s' hs hp ht h => hbad s e s' hs hp ht h.2) hs hrun]
  exact (and_iff_left (meets_of_forall fun _ _ _ => trivial)).symm

end System

end Transition
