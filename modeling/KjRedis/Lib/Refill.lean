import KjRedis.Lib.Resumption

/-! A procedure that is called over and over on a buffer of a fixed size, which is filled up from the
input before every call, until none of the input remains. -/
namespace Resumption

variable {ρ σ ι : Type*}

structure Refill (σ ι : Type*) where
  state : σ
  buffer : List ι
  remain : Nat

/-- As much of what remains as there is room for. -/
def Refill.consume (f : Refill σ ι) (size : Nat) : Nat := min (size - f.buffer.length) f.remain

def refill (size : Nat) (p : Proc ρ σ ι) : Proc ρ (Refill σ ι) ι where
  run fuel f input :=
    (p.run fuel f.state (f.buffer ++ input.take (f.consume size))).map fun (code, s, left) =>
      (code, ⟨s, left, f.remain - f.consume size⟩, input.drop (f.consume size))
  mono h := by
    obtain ⟨mid, hmid, rfl⟩ := Option.map_eq_some_iff.1 h
    exact Option.map_eq_some_iff.2 ⟨mid, p.mono hmid, rfl⟩

/-- A call that comes to `fault` is the last one. -/
abbrev refills [DecidableEq ρ] (fault : ρ) (size : Nat) (p : Proc ρ σ ι) : Proc ρ (Refill σ ι) ι :=
  loop (fun code f => 0 < f.remain ∧ code ≠ fault) (refill size p)

section Rounds

variable {size : Nat} {p : Proc ρ σ ι} {f : Refill σ ι} {input : List ι}

theorem runs_refill {code : ρ} {s : σ} {left : List ι}
    (hrun : Runs p f.state (f.buffer ++ input.take (f.consume size)) (code, s, left)) :
    Runs (refill size p) f input
      (code, ⟨s, left, f.remain - f.consume size⟩, input.drop (f.consume size)) := by
  obtain ⟨fuel, hfuel⟩ := hrun
  exact ⟨fuel, Option.map_eq_some_iff.2 ⟨_, hfuel, rfl⟩⟩

theorem of_runs_refill {out : ρ × Refill σ ι × List ι} (hrun : Runs (refill size p) f input out) :
    ∃ code s left, Runs p f.state (f.buffer ++ input.take (f.consume size)) (code, s, left) ∧
      out = (code, ⟨s, left, f.remain - f.consume size⟩, input.drop (f.consume size)) := by
  obtain ⟨fuel, hfuel⟩ := hrun
  obtain ⟨⟨code, s, left⟩, hmid, rfl⟩ := Option.map_eq_some_iff.1 hfuel
  exact ⟨code, s, left, ⟨fuel, hmid⟩, rfl⟩

/-- What goes into the buffer, and what remains. -/
theorem Refill.take_remain (f : Refill σ ι) (size : Nat) (input : List ι) :
    input.take f.remain = input.take (f.consume size) ++
      (input.drop (f.consume size)).take (f.remain - f.consume size) := by
  have hle : f.consume size ≤ f.remain := Nat.min_le_right _ _
  rw [← List.take_add, Nat.add_sub_cancel' hle]

end Rounds

namespace Lawful

variable {wait fault : ρ} {Inv : σ → Prop} {Any Wait : σ → σ → Prop} {p : Proc ρ σ ι}
  {size : Nat} {f : Refill σ ι} {s₀ : σ} {bytes input : List ι}

/-- The calls that were made so far are one call on `bytes`. -/
def Caught (p : Proc ρ σ ι) (s₀ : σ) (bytes : List ι) (f : Refill σ ι) : Prop :=
  ∀ more out, Runs p f.state (f.buffer ++ more) out ↔ Runs p s₀ (bytes ++ more) out

theorem caught_start (p : Proc ρ σ ι) (s₀ : σ) (remain : Nat) : Caught p s₀ [] ⟨s₀, [], remain⟩ :=
  fun _ _ => Iff.rfl

theorem Caught.next (h : Lawful wait Inv Any Wait p) (hs₀ : Inv s₀) {t : σ} {left taken : List ι}
    (hrun : Runs p s₀ (bytes ++ taken) (wait, t, left)) (remain : Nat) :
    Caught p s₀ (bytes ++ taken) ⟨t, left, remain⟩ := by
  intro more out
  exact (h.resume hs₀ hrun more out).symm

variable [DecidableEq ρ]

/-- If a call on all of the input runs out of it, so does the last one of the calls, and in the same
state. -/
theorem refills_ends (h : Lawful wait Inv Any Wait p) (hs₀ : Inv s₀) (hfault : wait ≠ fault)
    (hroom : ∀ bytes t left, Runs p s₀ bytes (wait, t, left) → left.length < size)
    (hcaught : Caught p s₀ bytes f) (hbuffer : f.buffer.length < size) (hpos : 0 < f.remain)
    {t : σ} {left : List ι} (hwhole : Runs p s₀ (bytes ++ input.take f.remain) (wait, t, left)) :
    Runs (refills fault size p) f input (wait, ⟨t, left, 0⟩, input.drop f.remain) := by
  induction hn : f.remain using Nat.strongRecOn generalizing f bytes input with
  | ind n ih =>
    subst hn
    have hconsume : 0 < f.consume size := Nat.lt_min.2 ⟨Nat.sub_pos_of_lt hbuffer, hpos⟩
    have hle : f.consume size ≤ f.remain := Nat.min_le_right _ _
    rw [f.take_remain size input, ← List.append_assoc] at hwhole
    obtain ⟨⟨code, s, buffer⟩, hfirst⟩ := h.cut hs₀ hwhole
    obtain rfl : code = wait := by
      by_contra hne
      have heq := hwhole.unique (h.extend hs₀ hfirst hne _)
      exact hne (congrArg Prod.fst heq).symm
    have hround := runs_refill ((hcaught _ _).2 hfirst)
    rcases Nat.eq_zero_or_pos (f.remain - f.consume size) with hzero | hremain
    · have heq : f.consume size = f.remain := Nat.le_antisymm hle (Nat.le_of_sub_eq_zero hzero)
      rw [hzero, List.take_zero, List.append_nil] at hwhole
      cases hfirst.unique hwhole
      rw [hzero, heq] at hround
      exact hround.last (by simp)
    · refine hround.more (decide_eq_true ⟨hremain, hfault⟩) ?_
      have hnext := ih (f.remain - f.consume size) (Nat.sub_lt hpos hconsume)
        (Caught.next h hs₀ hfirst (f.remain - f.consume size)) (hroom _ _ _ hfirst) hremain hwhole rfl
      rw [List.drop_drop, Nat.add_sub_cancel' hle] at hnext
      exact hnext

/-- If all the calls come to an end, and none of them but with one of the two codes, a call on all of
the input runs out of it too. -/
theorem of_refills (h : Lawful wait Inv Any Wait p) (hs₀ : Inv s₀)
    (hcodes : ∀ bytes code t left, Runs p s₀ bytes (code, t, left) → code = wait ∨ code = fault)
    (hcaught : Caught p s₀ bytes f) {out : ρ × Refill σ ι × List ι}
    (hrun : Runs (refills fault size p) f input out) (hout : out.1 ≠ fault) :
    out.1 = wait ∧ Runs p s₀ (bytes ++ input.take f.remain) (wait, out.2.1.state, out.2.1.buffer) := by
  have hround : ∀ {f input code f' rest} {bytes : List ι}, Caught p s₀ bytes f →
      Runs (refill size p) f input (code, f', rest) → code ≠ fault → code = wait ∧
      Runs p s₀ (bytes ++ input.take (f.consume size)) (wait, f'.state, f'.buffer) ∧
        f'.remain = f.remain - f.consume size ∧ rest = input.drop (f.consume size) := by
    intro f input code f' rest bytes hcaught hrun hcode
    obtain ⟨code', s, left, hcall, heq⟩ := of_runs_refill hrun
    cases heq
    have hcall := (hcaught _ _).1 hcall
    obtain rfl := (hcodes _ _ _ _ hcall).resolve_right hcode
    exact ⟨rfl, hcall, rfl, rfl⟩
  refine loop_induction (P := fun f input out => ∀ bytes, Caught p s₀ bytes f → out.1 ≠ fault →
    out.1 = wait ∧ Runs p s₀ (bytes ++ input.take f.remain) (wait, out.2.1.state, out.2.1.buffer)) ?_ ?_ hrun bytes hcaught hout
  · intro f input code f' rest hlast hstop bytes hcaught hcode
    obtain ⟨hwait, hcall, hremain, -⟩ := hround hcaught hlast hcode
    have hzero : f'.remain = 0 := by
      by_contra hne
      exact of_decide_eq_false hstop ⟨Nat.pos_of_ne_zero hne, hcode⟩
    rw [f.take_remain size input, ← hremain, hzero, List.take_zero, List.append_nil]
    exact ⟨hwait, hcall⟩
  · intro f input code f' rest out hgo hmore _ ih bytes hcaught hcode
    obtain ⟨-, hcall, hremain, hrest⟩ := hround hcaught hgo (of_decide_eq_true hmore).2
    have hnext := ih (bytes ++ input.take (f.consume size)) (Caught.next h hs₀ hcall f'.remain) hcode
    rw [f.take_remain size input, ← List.append_assoc, ← hremain, ← hrest]
    exact hnext

end Lawful

end Resumption
