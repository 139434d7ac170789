import Mathlib.Data.List.Basic
import Mathlib.Data.Option.Basic

/-! Procedures that take their input off the front of a buffer and stop with the code
`wait` where it runs out, to be called again when there is more. A procedure is lawful if
such a call and the next one make up a call on the whole input. -/
namespace Resumption

variable {ρ σ ι : Type*}

/-- On some fuel: the code, the state and the input that is left. More fuel changes nothing. -/
structure Proc (ρ σ ι : Type*) where
  run : Nat → σ → List ι → Option (ρ × σ × List ι)
  mono : ∀ {fuel s input out}, run fuel s input = some out → run (fuel + 1) s input = some out

def Runs (p : Proc ρ σ ι) (s : σ) (input : List ι) (out : ρ × σ × List ι) : Prop :=
  ∃ fuel, p.run fuel s input = some out

def ofStep (f : σ → List ι → ρ × σ × List ι) : Proc ρ σ ι where
  run _ s input := some (f s input)
  mono := id

def dispatch (select : σ → Proc ρ σ ι) : Proc ρ σ ι where
  run fuel s input := (select s).run fuel s input
  mono h := (select _).mono h

/-- What is done before, and what it chooses. -/
def after {α : Type*} (f : σ → α × σ) (p : α → Proc ρ σ ι) : Proc ρ σ ι where
  run fuel s input := (p (f s).1).run fuel (f s).2 input
  mono h := (p _).mono h

/-- What is done with the code and the state at the end. -/
def andThen (p : Proc ρ σ ι) (g : ρ → σ → ρ × σ) : Proc ρ σ ι where
  run fuel s input :=
    (p.run fuel s input).map fun (code, s', rest) => ((g code s').1, (g code s').2, rest)
  mono h := by
    obtain ⟨mid, hmid, rfl⟩ := Option.map_eq_some_iff.1 h
    exact Option.map_eq_some_iff.2 ⟨mid, p.mono hmid, rfl⟩

def rounds (more : ρ → σ → Bool) (body : Proc ρ σ ι) :
    Nat → σ → List ι → Option (ρ × σ × List ι)
  | 0, _, _ => none
  | fuel + 1, s, input =>
    match body.run fuel s input with
    | none => none
    | some (code, s', rest) =>
      if more code s' then rounds more body fuel s' rest else some (code, s', rest)

theorem rounds_mono (more : ρ → σ → Bool) (body : Proc ρ σ ι) {fuel : Nat} {s : σ}
    {input : List ι} {out : ρ × σ × List ι} (h : rounds more body fuel s input = some out) :
    rounds more body (fuel + 1) s input = some out := by
  induction fuel generalizing s input with
  | zero => cases h
  | succ fuel ih =>
    rw [rounds] at h ⊢
    cases hbody : body.run fuel s input with
    | none => simp only [hbody, reduceCtorEq] at h
    | some mid =>
      simp only [hbody, body.mono hbody] at h ⊢
      split at h
      · next hmore =>
        rw [if_pos hmore]
        exact ih h
      · next hmore =>
        rw [if_neg hmore]
        exact h

/-- A `do` loop. -/
def loop (more : ρ → σ → Bool) (body : Proc ρ σ ι) : Proc ρ σ ι where
  run := rounds more body
  mono := rounds_mono more body

theorem run_loop (more : ρ → σ → Bool) (body : Proc ρ σ ι) (fuel : Nat) (s : σ) (input : List ι) :
    (loop more body).run (fuel + 1) s input =
      match body.run fuel s input with
      | none => none
      | some (code, s', rest) =>
        if more code s' then (loop more body).run fuel s' rest else some (code, s', rest) := rfl

/-- Calls on chunk after chunk, with their codes: what one of them leaves comes before the
next chunk. -/
inductive Feeds (p : Proc ρ σ ι) : σ → List ι → List (List ι) → List ρ → σ → List ι → Prop
  | nil (s : σ) (left : List ι) : Feeds p s left [] [] s left
  | cons {s s' t : σ} {left left' chunk rest : List ι} {chunks : List (List ι)} {code : ρ}
      {codes : List ρ} (hrun : Runs p s (left ++ chunk) (code, s', left'))
      (hfeeds : Feeds p s' left' chunks codes t rest) :
      Feeds p s left (chunk :: chunks) (code :: codes) t rest

/-- `Any` relates the states before and after every call, `Wait` those of a call that has
run out of input. -/
structure Lawful (wait : ρ) (Inv : σ → Prop) (Any Wait : σ → σ → Prop) (p : Proc ρ σ ι) :
    Prop where
  cut : ∀ {s input more out}, Inv s → Runs p s (input ++ more) out → ∃ out', Runs p s input out'
  keeps : ∀ {s s' input rest code}, Inv s → Runs p s input (code, s', rest) → Inv s'
  any : ∀ {s s' input rest code}, Inv s → Runs p s input (code, s', rest) → Any s s'
  waits : ∀ {s s' input rest}, Inv s → Runs p s input (wait, s', rest) → Wait s s'
  extend : ∀ {s s' input rest code}, Inv s → Runs p s input (code, s', rest) → code ≠ wait →
    ∀ more, Runs p s (input ++ more) (code, s', rest ++ more)
  resume : ∀ {s s' input rest}, Inv s → Runs p s input (wait, s', rest) →
    ∀ more out, Runs p s (input ++ more) out ↔ Runs p s' (rest ++ more) out

section Runs

variable {p : Proc ρ σ ι} {s : σ} {input : List ι} {out out' : ρ × σ × List ι}

theorem Proc.mono_le (p : Proc ρ σ ι) {m n : Nat} (hle : m ≤ n)
    (hrun : p.run m s input = some out) : p.run n s input = some out := by
  induction hle with
  | refl => exact hrun
  | step _ ih => exact p.mono ih

theorem Runs.unique (hrun : Runs p s input out) (hrun' : Runs p s input out') : out = out' := by
  obtain ⟨m, hm⟩ := hrun
  obtain ⟨n, hn⟩ := hrun'
  have hm := p.mono_le (Nat.le_max_left m n) hm
  have hn := p.mono_le (Nat.le_max_right m n) hn
  exact Option.some.inj (hm.symm.trans hn)

@[simp] theorem runs_ofStep {f : σ → List ι → ρ × σ × List ι} :
    Runs (ofStep f) s input out ↔ f s input = out := by
  constructor
  · rintro ⟨_, h⟩
    exact Option.some.inj h
  · intro h
    exact ⟨0, congrArg some h⟩

theorem runs_dispatch {select : σ → Proc ρ σ ι} :
    Runs (dispatch select) s input out ↔ Runs (select s) s input out := Iff.rfl

theorem runs_after {α : Type*} {f : σ → α × σ} {q : α → Proc ρ σ ι} :
    Runs (after f q) s input out ↔ Runs (q (f s).1) (f s).2 input out := Iff.rfl

theorem runs_andThen {g : ρ → σ → ρ × σ} {code : ρ} {t : σ} {rest : List ι} :
    Runs (andThen p g) s input (code, t, rest) ↔
      ∃ code' t', Runs p s input (code', t', rest) ∧ g code' t' = (code, t) := by
  constructor
  · rintro ⟨fuel, h⟩
    obtain ⟨⟨code', t', rest'⟩, hmid, heq⟩ := Option.map_eq_some_iff.1 h
    obtain ⟨hcode, heq⟩ := Prod.mk.inj heq
    obtain ⟨ht, rfl⟩ := Prod.mk.inj heq
    exact ⟨code', t', ⟨fuel, hmid⟩, Prod.ext hcode ht⟩
  · rintro ⟨code', t', ⟨fuel, hmid⟩, heq⟩
    refine ⟨fuel, Option.map_eq_some_iff.2 ⟨_, hmid, ?_⟩⟩
    simp only [heq]

/-- One round of the loop. -/
theorem runs_loop {more : ρ → σ → Bool} :
    Runs (loop more p) s input out ↔ ∃ code s' rest, Runs p s input (code, s', rest) ∧
      if more code s' then Runs (loop more p) s' rest out else (code, s', rest) = out := by
  constructor
  · rintro ⟨_ | fuel, hrun⟩
    · cases hrun
    · rw [run_loop] at hrun
      cases hbody : p.run fuel s input with
      | none => simp only [hbody, reduceCtorEq] at hrun
      | some mid =>
        obtain ⟨code, s', rest⟩ := mid
        simp only [hbody] at hrun
        refine ⟨code, s', rest, ⟨fuel, hbody⟩, ?_⟩
        split at hrun
        · next hmore =>
          rw [if_pos hmore]
          exact ⟨fuel, hrun⟩
        · next hmore =>
          rw [if_neg hmore]
          exact Option.some.inj hrun
  · rintro ⟨code, s', rest, ⟨m, hbody⟩, hrest⟩
    split at hrest
    · next hmore =>
      obtain ⟨n, hloop⟩ := hrest
      refine ⟨max m n + 1, ?_⟩
      rw [run_loop, p.mono_le (Nat.le_max_left m n) hbody]
      simp only [if_pos hmore]
      exact (loop more p).mono_le (Nat.le_max_right m n) hloop
    · next hmore =>
      refine ⟨m + 1, ?_⟩
      rw [run_loop, hbody]
      simp only [if_neg hmore, hrest]

/-- What a loop comes to is decided by its first round. -/
theorem Runs.loop_iff {more : ρ → σ → Bool} {code : ρ} {s' : σ} {rest : List ι}
    (hrun : Runs p s input (code, s', rest)) :
    Runs (loop more p) s input out ↔
      if more code s' then Runs (loop more p) s' rest out else (code, s', rest) = out := by
  rw [runs_loop]
  constructor
  · rintro ⟨_, _, _, hround, hrest⟩
    cases hrun.unique hround
    exact hrest
  · exact fun hrest => ⟨code, s', rest, hrun, hrest⟩

theorem Runs.more_iff {more : ρ → σ → Bool} {code : ρ} {s' : σ} {rest : List ι}
    (hrun : Runs p s input (code, s', rest)) (hmore : more code s' = true) :
    Runs (loop more p) s input out ↔ Runs (loop more p) s' rest out := by
  rw [hrun.loop_iff, if_pos hmore]

theorem Runs.more {more : ρ → σ → Bool} {code : ρ} {s' : σ} {rest : List ι}
    (hrun : Runs p s input (code, s', rest)) (hmore : more code s' = true)
    (hloop : Runs (loop more p) s' rest out) : Runs (loop more p) s input out :=
  (hrun.more_iff hmore).2 hloop

theorem Runs.last {more : ρ → σ → Bool} {code : ρ} {s' : σ} {rest : List ι}
    (hrun : Runs p s input (code, s', rest)) (hlast : more code s' = false) :
    Runs (loop more p) s input (code, s', rest) := by
  rw [hrun.loop_iff, if_neg (Bool.eq_false_iff.1 hlast)]

theorem runs_loop_congr {more : ρ → σ → Bool} {s' : σ} {input' : List ι}
    (h : ∀ out, Runs p s input out ↔ Runs p s' input' out) :
    Runs (loop more p) s input out ↔ Runs (loop more p) s' input' out := by
  rw [runs_loop, runs_loop]
  exact exists_congr fun _ => exists_congr fun _ => exists_congr fun _ => and_congr_left' (h _)

/-- What holds of the last round, and is carried back over a round that goes on, holds of
the loop. -/
theorem loop_induction {more : ρ → σ → Bool} {P : σ → List ι → ρ × σ × List ι → Prop}
    (hlast : ∀ s input code s' rest, Runs p s input (code, s', rest) → more code s' = false →
      P s input (code, s', rest))
    (hmore : ∀ s input code s' rest out, Runs p s input (code, s', rest) → more code s' = true →
      Runs (loop more p) s' rest out → P s' rest out → P s input out)
    (hrun : Runs (loop more p) s input out) : P s input out := by
  obtain ⟨fuel, hrun⟩ := hrun
  induction fuel generalizing s input with
  | zero => cases hrun
  | succ fuel ih =>
    rw [run_loop] at hrun
    cases hbody : p.run fuel s input with
    | none => simp only [hbody, reduceCtorEq] at hrun
    | some mid =>
      obtain ⟨code, s', rest⟩ := mid
      simp only [hbody] at hrun
      split at hrun
      · next hgo => exact hmore s input code s' rest out ⟨fuel, hbody⟩ hgo ⟨fuel, hrun⟩ (ih hrun)
      · next hstop =>
        obtain rfl := Option.some.inj hrun
        exact hlast s input code s' rest ⟨fuel, hbody⟩ (Bool.eq_false_iff.2 hstop)

/-- A loop whose every round goes on comes to nothing. -/
theorem loop_spins {more : ρ → σ → Bool} (Inv : σ → List ι → Prop)
    (hround : ∀ s input, Inv s input → ∃ code s' rest, Runs p s input (code, s', rest) ∧
      more code s' = true ∧ Inv s' rest) (h : Inv s input) : ¬ Runs (loop more p) s input out := by
  intro hrun
  refine loop_induction (P := fun s input _ => ¬ Inv s input) ?_ ?_ hrun h
  · intro s input code s' rest hlast hstop hinv
    obtain ⟨_, _, _, hrun', hmore, -⟩ := hround s input hinv
    cases hlast.unique hrun'
    rw [hmore] at hstop
    cases hstop
  · intro s input code s' rest out hgo _ _ ih hinv
    obtain ⟨_, _, _, hrun', -, hinv'⟩ := hround s input hinv
    cases hgo.unique hrun'
    exact ih hinv'

theorem loop_stopped {more : ρ → σ → Bool} (hrun : Runs (loop more p) s input out) :
    more out.1 out.2.1 = false := by
  refine loop_induction (P := fun _ _ out => more out.1 out.2.1 = false) ?_ ?_ hrun
  · exact fun _ _ _ _ _ _ hlast => hlast
  · exact fun _ _ _ _ _ _ _ _ _ ih => ih

end Runs

namespace Lawful

variable {wait : ρ} {Inv : σ → Prop} {Any Wait : σ → σ → Prop} {p : Proc ρ σ ι}

/-- A procedure without loops. -/
theorem step {f : σ → List ι → ρ × σ × List ι}
    (keeps : ∀ s input, Inv s → Inv (f s input).2.1)
    (any : ∀ s input, Inv s → Any s (f s input).2.1)
    (waits : ∀ s input, Inv s → (f s input).1 = wait → Wait s (f s input).2.1)
    (extend : ∀ s input more, Inv s → (f s input).1 ≠ wait →
      f s (input ++ more) = ((f s input).1, (f s input).2.1, (f s input).2.2 ++ more))
    (resume : ∀ s input more, Inv s → (f s input).1 = wait →
      f s (input ++ more) = f (f s input).2.1 ((f s input).2.2 ++ more)) :
    Lawful wait Inv Any Wait (ofStep f) where
  cut := fun {s} {input} {_} {_} _ _ => ⟨f s input, runs_ofStep.2 rfl⟩
  keeps := by
    intro s s' input rest code hinv hrun
    have heq := runs_ofStep.1 hrun
    have := keeps s input hinv
    rwa [heq] at this
  any := by
    intro s s' input rest code hinv hrun
    have heq := runs_ofStep.1 hrun
    have := any s input hinv
    rwa [heq] at this
  waits := by
    intro s s' input rest hinv hrun
    have heq := runs_ofStep.1 hrun
    have := waits s input hinv
    rw [heq] at this
    exact this rfl
  extend := by
    intro s s' input rest code hinv hrun hne more
    have heq := runs_ofStep.1 hrun
    have := extend s input more hinv
    rw [heq] at this
    exact runs_ofStep.2 (this hne)
  resume := by
    intro s s' input rest hinv hrun more out
    have heq := runs_ofStep.1 hrun
    have := resume s input more hinv
    rw [heq] at this
    rw [runs_ofStep, runs_ofStep, this rfl]

/-- The choice is made again, and the same, when the call is resumed. -/
theorem dispatch {select : σ → Proc ρ σ ι} (h : ∀ s, Lawful wait Inv Any Wait (select s))
    (hsame : ∀ s s', Inv s → Wait s s' → select s' = select s) :
    Lawful wait Inv Any Wait (Resumption.dispatch select) where
  cut := fun {s} {_} {_} {_} hinv hrun => (h s).cut hinv hrun
  keeps := fun {s} {_} {_} {_} {_} hinv hrun => (h s).keeps hinv hrun
  any := fun {s} {_} {_} {_} {_} hinv hrun => (h s).any hinv hrun
  waits := fun {s} {_} {_} {_} hinv hrun => (h s).waits hinv hrun
  extend := fun {s} {_} {_} {_} {_} hinv hrun hne more => (h s).extend hinv hrun hne more
  resume := by
    intro s s' input rest hinv hrun more out
    have hs := hsame s s' hinv ((h s).waits hinv hrun)
    rw [runs_dispatch, runs_dispatch, hs]
    exact (h s).resume hinv hrun more out

/-- Work before and after. A call that is resumed enters with nothing left to do before. -/
theorem enclose {α : Type*} {f : σ → α × σ} {q : α → Proc ρ σ ι} {g : α → ρ → σ → ρ × σ} {a : α}
    {Inv₀ : σ → Prop} {Any₀ Wait₀ : σ → σ → Prop} (h : Lawful wait Inv Any Wait (q a))
    (henter : ∀ s, Inv₀ s → (f s).1 = a ∧ Inv (f s).2) (hagain : ∀ s, Inv s → f s = (a, s))
    (hwait : ∀ s, g a wait s = (wait, s)) (hcode : ∀ code s, code ≠ wait → (g a code s).1 ≠ wait)
    (hinv : ∀ code s, Inv s → Inv₀ (g a code s).2)
    (hany : ∀ code s s', Inv₀ s → Inv s' → Any (f s).2 s' → Any₀ s (g a code s').2)
    (hwaits : ∀ s s', Inv₀ s → Wait (f s).2 s' → Wait₀ s s') :
    Lawful wait Inv₀ Any₀ Wait₀ (after f fun a => Resumption.andThen (q a) (g a)) := by
  have hruns : ∀ {s input code s' rest}, Inv₀ s →
      Runs (after f fun a => Resumption.andThen (q a) (g a)) s input (code, s', rest) →
      ∃ c t, Runs (q a) (f s).2 input (c, t, rest) ∧ g a c t = (code, s') := by
    intro s input code s' rest hs hrun
    have hmid := runs_after.1 hrun
    rw [(henter s hs).1] at hmid
    exact runs_andThen.1 hmid
  have hwaiting : ∀ {s input s' rest}, Inv₀ s →
      Runs (after f fun a => Resumption.andThen (q a) (g a)) s input (wait, s', rest) →
      Runs (q a) (f s).2 input (wait, s', rest) := by
    intro s input s' rest hs hrun
    obtain ⟨c, t, hmid, heq⟩ := hruns hs hrun
    by_cases hc : c = wait
    · rw [hc, hwait] at heq
      rw [hc] at hmid
      obtain ⟨-, rfl⟩ := Prod.mk.inj heq
      exact hmid
    · exact absurd (congrArg Prod.fst heq) (hcode c t hc)
  constructor
  · intro s input more out hs hrun
    obtain ⟨c, t, hmid, -⟩ := hruns hs hrun
    obtain ⟨⟨c', t', rest'⟩, hcut⟩ := h.cut (henter s hs).2 hmid
    refine ⟨((g a c' t').1, (g a c' t').2, rest'), ?_⟩
    rw [runs_after, (henter s hs).1]
    exact runs_andThen.2 ⟨c', t', hcut, rfl⟩
  · intro s s' input rest code hs hrun
    obtain ⟨c, t, hmid, heq⟩ := hruns hs hrun
    have ht := hinv c t (h.keeps (henter s hs).2 hmid)
    rwa [heq] at ht
  · intro s s' input rest code hs hrun
    obtain ⟨c, t, hmid, heq⟩ := hruns hs hrun
    have ht := hany c s t hs (h.keeps (henter s hs).2 hmid) (h.any (henter s hs).2 hmid)
    rwa [heq] at ht
  · intro s s' input rest hs hrun
    exact hwaits s s' hs (h.waits (henter s hs).2 (hwaiting hs hrun))
  · intro s s' input rest code hs hrun hne more
    obtain ⟨c, t, hmid, heq⟩ := hruns hs hrun
    have hc : c ≠ wait := by
      intro hc
      rw [hc, hwait] at heq
      exact hne (congrArg Prod.fst heq).symm
    rw [runs_after, (henter s hs).1]
    exact runs_andThen.2 ⟨c, t, h.extend (henter s hs).2 hmid hc more, heq⟩
  · rintro s s' input rest hs hrun more ⟨code, u, rest'⟩
    have hmid := hwaiting hs hrun
    have hs' := h.keeps (henter s hs).2 hmid
    rw [runs_after, runs_after, (henter s hs).1, hagain s' hs', runs_andThen, runs_andThen]
    exact exists_congr fun _ => exists_congr fun _ =>
      and_congr_left' (h.resume (henter s hs).2 hmid more _)

theorem andThen (h : Lawful wait Inv Any Wait p) {g : ρ → σ → ρ × σ} {Any' : σ → σ → Prop}
    (hwait : ∀ s, g wait s = (wait, s)) (hcode : ∀ code s, code ≠ wait → (g code s).1 ≠ wait)
    (hinv : ∀ code s, Inv s → Inv (g code s).2)
    (hany : ∀ code s s', Inv s → Any s s' → Any' s (g code s').2) :
    Lawful wait Inv Any' Wait (Resumption.andThen p g) :=
  enclose (f := fun s => ((), s)) (q := fun _ => p) (g := fun _ => g) h (fun _ hs => ⟨rfl, hs⟩)
    (fun _ _ => rfl) hwait hcode hinv (fun code s s' hs _ ha => hany code s s' hs ha)
    fun _ _ _ hw => hw

section Loop

variable {more : ρ → σ → Bool} {s : σ} {input : List ι} {out : ρ × σ × List ι}

theorem loop_keeps (h : Lawful wait Inv Any Wait p) (hs : Inv s)
    (hrun : Runs (Resumption.loop more p) s input out) : Inv out.2.1 := by
  refine loop_induction (P := fun s _ out => Inv s → Inv out.2.1) ?_ ?_ hrun hs
  · intro s input code s' rest hrun _ hs
    exact h.keeps hs hrun
  · intro s input code s' rest out hrun _ _ ih hs
    exact ih (h.keeps hs hrun)

theorem loop_any (h : Lawful wait Inv Any Wait p) (htrans : ∀ s t u, Any s t → Any t u → Any s u)
    (hs : Inv s) (hrun : Runs (Resumption.loop more p) s input out) : Any s out.2.1 := by
  refine loop_induction (P := fun s _ out => Inv s → Any s out.2.1) ?_ ?_ hrun hs
  · intro s input code s' rest hrun _ hs
    exact h.any hs hrun
  · intro s input code s' rest out hrun _ _ ih hs
    exact htrans _ _ _ (h.any hs hrun) (ih (h.keeps hs hrun))

variable (hstop : ∀ s, more wait s = false)

include hstop

theorem ne_wait {code : ρ} (hgo : more code s = true) : code ≠ wait := by
  rintro rfl
  rw [hstop] at hgo
  cases hgo

/-- On a part of the input a round ends the loop, or it is the same round. -/
theorem loop_round (h : Lawful wait Inv Any Wait p) {rest left : List ι} {code : ρ} {s' : σ} (hs : Inv s)
    (hrun : Runs p s (input ++ rest) (code, s', left)) :
    (∃ out', Runs (Resumption.loop more p) s input out') ∨
      more code s' = true ∧ ∃ left', Runs p s input (code, s', left') ∧ left = left' ++ rest := by
  obtain ⟨⟨c, t, left'⟩, hcut⟩ := h.cut hs hrun
  cases hgo : more c t with
  | false => exact Or.inl ⟨_, hcut.last hgo⟩
  | true =>
    cases hrun.unique (h.extend hs hcut (ne_wait hstop hgo) rest)
    exact Or.inr ⟨hgo, left', hcut, rfl⟩

theorem loop_cut (h : Lawful wait Inv Any Wait p) {rest : List ι} (hs : Inv s)
    (hrun : Runs (Resumption.loop more p) s (input ++ rest) out) :
    ∃ out', Runs (Resumption.loop more p) s input out' := by
  refine loop_induction (P := fun s whole _ => ∀ input rest, whole = input ++ rest → Inv s →
    ∃ out', Runs (Resumption.loop more p) s input out') ?_ ?_ hrun input rest rfl hs
  · rintro s _ code s' left hrun hlast input rest rfl hs
    rcases h.loop_round hstop hs hrun with hstops | ⟨hgo, -⟩
    · exact hstops
    · rw [hlast] at hgo
      cases hgo
  · rintro s _ code s' left out hrun hgo _ ih input rest rfl hs
    rcases h.loop_round hstop hs hrun with hstops | ⟨-, left', hcut, hleft⟩
    · exact hstops
    · obtain ⟨out', hout'⟩ := ih left' rest hleft (h.keeps hs hrun)
      exact ⟨out', hcut.more hgo hout'⟩

theorem loop_extend (h : Lawful wait Inv Any Wait p) (hs : Inv s)
    (hrun : Runs (Resumption.loop more p) s input out) (hne : out.1 ≠ wait) (rest' : List ι) :
    Runs (Resumption.loop more p) s (input ++ rest') (out.1, out.2.1, out.2.2 ++ rest') := by
  refine loop_induction (P := fun s input out => Inv s → out.1 ≠ wait →
    Runs (Resumption.loop more p) s (input ++ rest') (out.1, out.2.1, out.2.2 ++ rest'))
    ?_ ?_ hrun hs hne
  · intro s input code s' rest hrun hlast hs hne
    exact (h.extend hs hrun hne rest').last hlast
  · intro s input code s' rest out hrun hgo _ ih hs hne
    exact (h.extend hs hrun (ne_wait hstop hgo) rest').more hgo (ih (h.keeps hs hrun) hne)

theorem loop_resume (h : Lawful wait Inv Any Wait p) (hs : Inv s)
    (hrun : Runs (Resumption.loop more p) s input out) (hwait : out.1 = wait) (rest' : List ι)
    (end' : ρ × σ × List ι) :
    Runs (Resumption.loop more p) s (input ++ rest') end' ↔
      Runs (Resumption.loop more p) out.2.1 (out.2.2 ++ rest') end' := by
  refine loop_induction (P := fun s input out => Inv s → out.1 = wait →
    (Runs (Resumption.loop more p) s (input ++ rest') end' ↔
      Runs (Resumption.loop more p) out.2.1 (out.2.2 ++ rest') end')) ?_ ?_ hrun hs hwait
  · intro s input code s' rest hlast _ hs hcode
    obtain rfl : code = wait := hcode
    exact runs_loop_congr fun out => h.resume hs hlast rest' out
  · intro s input code s' rest out hrun hgo _ ih hs hcode
    rw [← ih (h.keeps hs hrun) hcode]
    exact (h.extend hs hrun (ne_wait hstop hgo) rest').more_iff hgo

/-- A loop that does not go on after running out of input. -/
theorem loop (h : Lawful wait Inv Any Wait p) (htrans : ∀ s t u, Any s t → Any t u → Any s u) :
    Lawful wait Inv Any Any (Resumption.loop more p) where
  cut hs hrun := h.loop_cut hstop hs hrun
  keeps hs hrun := h.loop_keeps hs hrun
  any hs hrun := h.loop_any htrans hs hrun
  waits hs hrun := h.loop_any htrans hs hrun
  extend hs hrun hne rest' := h.loop_extend hstop hs hrun hne rest'
  resume hs hrun rest' end' := h.loop_resume hstop hs hrun rfl rest' end'

end Loop

theorem relax (h : Lawful wait Inv Any Wait p) {Any' : σ → σ → Prop}
    (hany : ∀ s s', Any s s' → Any' s s') : Lawful wait Inv Any' Wait p :=
  { h with any := fun hs hrun => hany _ _ (h.any hs hrun) }

theorem congr (h : Lawful wait Inv Any Wait p) {q : Proc ρ σ ι}
    (heq : ∀ s input out, Runs q s input out ↔ Runs p s input out) : Lawful wait Inv Any Wait q where
  cut := by
    intro s input more out hs hrun
    obtain ⟨out', hout'⟩ := h.cut hs ((heq _ _ _).1 hrun)
    exact ⟨out', (heq _ _ _).2 hout'⟩
  keeps := fun hs hrun => h.keeps hs ((heq _ _ _).1 hrun)
  any := fun hs hrun => h.any hs ((heq _ _ _).1 hrun)
  waits := fun hs hrun => h.waits hs ((heq _ _ _).1 hrun)
  extend := fun hs hrun hne more => (heq _ _ _).2 (h.extend hs ((heq _ _ _).1 hrun) hne more)
  resume := by
    intro s s' input rest hs hrun more out
    rw [heq, heq]
    exact h.resume hs ((heq _ _ _).1 hrun) more out

/-- Where a call takes all of its input, one on less of it runs out of input. -/
theorem waits_before (h : Lawful wait Inv Any Wait p) {s t : σ} {input : List ι} {code : ρ} {n : Nat}
    (hs : Inv s) (hrun : Runs p s input (code, t, [])) (hn : n < input.length) :
    ∃ t' left, Runs p s (input.take n) (wait, t', left) := by
  rw [← List.take_append_drop n input] at hrun
  obtain ⟨⟨c, t', left⟩, hcut⟩ := h.cut hs hrun
  by_cases hc : c = wait
  · subst hc
    exact ⟨t', left, hcut⟩
  · have heq := hrun.unique (h.extend hs hcut hc (input.drop n))
    have hleft : [] = left ++ input.drop n := congrArg (fun out => out.2.2) heq
    have hdrop := List.drop_eq_nil_iff.1 (List.append_eq_nil_iff.1 hleft.symm).2
    exact absurd hn (Nat.not_lt.2 hdrop)

theorem feeds_idle {t : σ} {idle : ρ} (h : ∀ input, Runs p t input (idle, t, input))
    (left : List ι) (chunks : List (List ι)) :
    Feeds p t left chunks (List.replicate chunks.length idle) t (left ++ chunks.flatten) := by
  induction chunks generalizing left with
  | nil =>
    rw [List.flatten_nil, List.append_nil]
    exact Feeds.nil t left
  | cons chunk chunks ih =>
    rw [List.flatten_cons, ← List.append_assoc]
    exact Feeds.cons (h (left ++ chunk)) (ih (left ++ chunk))

/-- However the input is cut, the calls come to the end of the call on all of it, if nothing
is done after a call that has not run out of input. -/
theorem feeds (h : Lawful wait Inv Any Wait p) {s t : σ} {left rest : List ι} {code idle : ρ}
    {chunks : List (List ι)} (hs : Inv s) (hne : chunks ≠ [])
    (hrun : Runs p s (left ++ chunks.flatten) (code, t, rest))
    (hidle : code ≠ wait → ∀ input, Runs p t input (idle, t, input)) :
    ∃ codes, Feeds p s left chunks codes t rest ∧ ∀ c ∈ codes, c = wait ∨ c = code ∨ c = idle := by
  induction chunks generalizing s left with
  | nil => exact absurd rfl hne
  | cons chunk chunks ih =>
    rw [List.flatten_cons, ← List.append_assoc] at hrun
    obtain ⟨⟨c, s', left'⟩, hcut⟩ := h.cut hs hrun
    by_cases hc : c = wait
    · rw [hc] at hcut
      have hrest := (h.resume hs hcut chunks.flatten _).1 hrun
      cases chunks with
      | nil =>
        rw [List.flatten_nil, List.append_nil] at hrun
        have heq := hcut.unique hrun
        rw [heq] at hcut
        refine ⟨[code], Feeds.cons hcut (Feeds.nil t rest), ?_⟩
        simp
      | cons next chunks =>
        obtain ⟨codes, hfeeds, hcodes⟩ := ih (h.keeps hs hcut) (List.cons_ne_nil _ _) hrest
        refine ⟨wait :: codes, Feeds.cons hcut hfeeds, ?_⟩
        intro c hmem
        rcases List.mem_cons.1 hmem with rfl | hmem
        · exact Or.inl rfl
        · exact hcodes c hmem
    · have heq := (h.extend hs hcut hc chunks.flatten).unique hrun
      obtain ⟨rfl, hend⟩ := Prod.mk.inj heq
      obtain ⟨rfl, rfl⟩ := Prod.mk.inj hend
      refine ⟨_, Feeds.cons hcut (feeds_idle (hidle hc) left' chunks), ?_⟩
      intro d hmem
      rcases List.mem_cons.1 hmem with rfl | hmem
      · exact Or.inr (Or.inl rfl)
      · exact Or.inr (Or.inr (List.eq_of_mem_replicate hmem))

/-- However the input is cut, some calls run out of input and the next one ends, on the chunk in which
the call on all of the input ends. -/
theorem feeds_until (h : Lawful wait Inv Any Wait p) {s t : σ} {left rest : List ι} {code : ρ}
    {chunks : List (List ι)} (hs : Inv s) (hne : chunks ≠ []) (hcode : code ≠ wait)
    (hrun : Runs p s (left ++ chunks.flatten) (code, t, rest)) :
    ∃ n < chunks.length, ∃ rest', rest' ++ (chunks.drop (n + 1)).flatten = rest ∧
      Feeds p s left (chunks.take (n + 1)) (List.replicate n wait ++ [code]) t rest' := by
  induction chunks generalizing s left with
  | nil => exact absurd rfl hne
  | cons chunk chunks ih =>
    rw [List.flatten_cons, ← List.append_assoc] at hrun
    obtain ⟨⟨c, s', left'⟩, hcut⟩ := h.cut hs hrun
    by_cases hc : c = wait
    · rw [hc] at hcut
      have hrest := (h.resume hs hcut chunks.flatten _).1 hrun
      cases chunks with
      | nil =>
        rw [List.flatten_nil, List.append_nil] at hrun
        exact absurd (congrArg Prod.fst (hrun.unique hcut)) hcode
      | cons next chunks =>
        obtain ⟨n, hn, rest', hrest', hfeeds⟩ := ih (h.keeps hs hcut) (List.cons_ne_nil _ _) hrest
        exact ⟨n + 1, Nat.succ_lt_succ hn, rest', hrest', Feeds.cons hcut hfeeds⟩
    · have heq := (h.extend hs hcut hc chunks.flatten).unique hrun
      obtain ⟨rfl, hend⟩ := Prod.mk.inj heq
      obtain ⟨rfl, rfl⟩ := Prod.mk.inj hend
      exact ⟨0, Nat.succ_pos _, left', rfl, Feeds.cons hcut (Feeds.nil _ _)⟩

/-- However the input of a call that takes all of it is cut, the calls before its last part wait. -/
theorem feeds_last (h : Lawful wait Inv Any Wait p) {s t : σ} {left last : List ι} {code : ρ}
    {chunks : List (List ι)} (hs : Inv s) (hlast : last ≠ [])
    (hrun : Runs p s (left ++ (chunks.flatten ++ last)) (code, t, [])) :
    Feeds p s left (chunks ++ [last]) (List.replicate chunks.length wait ++ [code]) t [] := by
  induction chunks generalizing s left with
  | nil => exact Feeds.cons hrun (Feeds.nil t [])
  | cons chunk chunks ih =>
    rw [List.flatten_cons, List.append_assoc, ← List.append_assoc] at hrun
    have hshort : (left ++ chunk).length < (left ++ chunk ++ (chunks.flatten ++ last)).length := by
      have hpos := List.length_pos_iff.2 hlast
      simp only [List.length_append]
      omega
    obtain ⟨s', left', hfirst⟩ := h.waits_before hs hrun hshort
    rw [List.take_left] at hfirst
    exact Feeds.cons hfirst (ih (h.keeps hs hfirst) ((h.resume hs hfirst _ _).1 hrun))

/-- However what starts with the input of a call is cut, if that call takes all of it or runs out of it:
the calls on what comes before its end wait, and the next one comes to where that call ends. -/
theorem feeds_cut (h : Lawful wait Inv Any Wait p) {s t : σ} {left input rest end' : List ι} {code : ρ}
    {chunks : List (List ι)} (hs : Inv s) (hne : chunks ≠ [])
    (hrun : Runs p s (left ++ input) (code, t, end')) (hend : code = wait ∨ end' = [])
    (hcut : chunks.flatten = input ++ rest) :
    ∃ before a b after, chunks = before ++ (a ++ b) :: after ∧ before.flatten ++ a = input ∧
      ∃ mid left', Feeds p s left before (List.replicate before.length wait) mid left' ∧ Inv mid ∧
        Runs p mid (left' ++ a) (code, t, end') := by
  induction chunks generalizing s left input with
  | nil => exact absurd rfl hne
  | cons chunk chunks ih =>
    rw [List.flatten_cons] at hcut
    rcases List.append_eq_append_iff.1 hcut with ⟨input', rfl, hchunks⟩ | ⟨b, rfl, hrest⟩
    · by_cases hinput : input' = []
      · subst hinput
        rw [List.append_nil] at hrun ⊢
        refine ⟨[], chunk, [], chunks, ?_, rfl, s, left, Feeds.nil s left, hs, hrun⟩
        rw [List.append_nil]
        rfl
      · rw [← List.append_assoc] at hrun
        obtain ⟨⟨c, s', left'⟩, hfirst⟩ := h.cut hs hrun
        have hc : c = wait := by
          by_contra hc
          have heq := hrun.unique (h.extend hs hfirst hc input')
          rcases hend with hwait | hnil
          · exact hc ((congrArg Prod.fst heq).symm.trans hwait)
          · have hleft : end' = left' ++ input' := congrArg (fun out => out.2.2) heq
            rw [hnil] at hleft
            exact hinput (List.append_eq_nil_iff.1 hleft.symm).2
        subst hc
        have hne' : chunks ≠ [] := by
          rintro rfl
          exact hinput (List.append_eq_nil_iff.1 hchunks.symm).1
        obtain ⟨before, a, b, after, rfl, rfl, mid, left'', hfeeds, hmid, hlast⟩ :=
          ih (h.keeps hs hfirst) hne' ((h.resume hs hfirst input' _).1 hrun) hchunks
        refine ⟨chunk :: before, a, b, after, rfl, ?_, mid, left'', Feeds.cons hfirst hfeeds, hmid, hlast⟩
        rw [List.flatten_cons, List.append_assoc]
    · exact ⟨[], input, b, chunks, rfl, rfl, s, left, Feeds.nil s left, hs, hrun⟩

end Lawful

end Resumption
