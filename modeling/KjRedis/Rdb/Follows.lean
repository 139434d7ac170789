import KjRedis.Rdb.Reader
import KjRedis.Rdb.Slots

/-! What it means for a builder, started on its own slots, to do what a reader finds in its input. -/
namespace KjRedis.Rdb

open Resumption

def Rc.isError : Rc → Bool
  | invalidPath | invalidMagicString | invalidNbType | invalidStingEnc | invalidNbState
  | lzfDecompress => true
  | _ => false

abbrev builderLoop (body : Nat → Builder) (d : Nat) : Builder :=
  loop (fun rc _ => rc = .again) (body d)

/-- An error that the next call meets again, whatever it is given, and at once. -/
structure Sticks (k m : Nat) (p : Builder) (rc : Rc) (rp rp' : RdbParser) (left : List UInt8) :
    Prop where
  error : rc.isError = true
  stacked : Stacked k rp'
  frame : Frame m rp rp'
  again : ∀ more, Runs p rp' (left ++ more) (rc, rp', left ++ more)

/-- The builder does what the reader does, and `code` is what it ends with when that is done. What has
been parsed and what is left make up the input, and where this runs out no more is left of it than an
item that is read at once. -/
def FollowsBy {α : Type} (code : α → Rc) (k m : Nat) (p : Builder) (rp : RdbParser) (bb : List UInt8)
    (Done : α → RdbParser → Prop) : Read α → Prop
  | .done x rest => ∃ rp', Runs p rp bb (code x, rp', rest) ∧
      rp'.parsed + rest.length = rp.parsed + bb.length ∧ Done x rp'
  | .more left => ∃ rp', Runs p rp bb (.premature, rp', left) ∧ left.length < 9
  | .fail rc left => ∃ rp', Runs p rp bb (rc, rp', left) ∧ Sticks k m p rc rp rp' left
  | .stray => ∃ rp' left, Runs p rp bb (.stray, rp', left)
  | .endless => ∀ out, ¬ Runs p rp bb out

abbrev Follows {α : Type} (k m : Nat) (p : Builder) (rp : RdbParser) (bb : List UInt8)
    (Done : α → RdbParser → Prop) (r : Read α) : Prop :=
  FollowsBy (fun _ => .over) k m p rp bb Done r

/-- Calls of `p` begin with a call of `q`, and end with it unless it is over. -/
structure Begins (p q : Builder) (rp : RdbParser) : Prop where
  ends : ∀ {bb rc rp' left}, rc ≠ .over → rc ≠ .again → Runs q rp bb (rc, rp', left) →
    Runs p rp bb (rc, rp', left)
  begins : ∀ {bb out}, Runs p rp bb out → ∃ out', Runs q rp bb out'

section Rules

variable {α β : Type} {k m m' d ob : Nat} {p q : Builder} {rp rp₁ : RdbParser} {bb bb₁ : List UInt8}
  {Done : α → RdbParser → Prop} {Done' : β → RdbParser → Prop} {r : Read α}

theorem FollowsBy.mono {code : α → Rc} {Done₂ : α → RdbParser → Prop} (h : FollowsBy code k m p rp bb Done r)
    (hdone : ∀ x rp', Done x rp' → Done₂ x rp') : FollowsBy code k m p rp bb Done₂ r := by
  cases r with
  | done x rest =>
    obtain ⟨rp', hrun, hparsed, hx⟩ := h
    exact ⟨rp', hrun, hparsed, hdone x rp' hx⟩
  | more | fail | stray | endless => exact h

theorem Follows.map {g : α → β} (h : Follows k m p rp bb Done r)
    (hdone : ∀ x rp', Done x rp' → Done' (g x) rp') : Follows k m p rp bb Done' (r.map g) := by
  cases r with
  | done x rest =>
    obtain ⟨rp', hrun, hparsed, hx⟩ := h
    exact ⟨rp', hrun, hparsed, hdone x rp' hx⟩
  | more | fail | stray | endless => exact h

/-- Builders under the ones that have not moved. -/
theorem FollowsBy.le {code : α → Rc} {k' : Nat} (h : FollowsBy code k m p rp bb Done r) (hk : k' ≤ k)
    (hm : m' ≤ m) : FollowsBy code k' m' p rp bb Done r := by
  cases r with
  | fail rc left =>
    obtain ⟨rp', hrun, hsticks⟩ := h
    exact ⟨rp', hrun, { hsticks with
      stacked := hsticks.stacked.le hk, frame := hsticks.frame.le hm }⟩
  | done | more | stray | endless => exact h

/-- A state from which the builder does the same. -/
theorem FollowsBy.from {code : α → Rc} (h : FollowsBy code k m p rp₁ bb Done r)
    (hruns : ∀ out, Runs p rp bb out ↔ Runs p rp₁ bb out) (hparsed : rp₁.parsed = rp.parsed)
    (hframe : Frame m rp rp₁) : FollowsBy code k m p rp bb Done r := by
  cases r with
  | done x rest =>
    obtain ⟨rp', hrun, hparsed', hx⟩ := h
    exact ⟨rp', (hruns _).2 hrun, hparsed ▸ hparsed', hx⟩
  | more left =>
    obtain ⟨rp', hrun, hleft⟩ := h
    exact ⟨rp', (hruns _).2 hrun, hleft⟩
  | fail rc left =>
    obtain ⟨rp', hrun, hsticks⟩ := h
    exact ⟨rp', (hruns _).2 hrun, { hsticks with frame := hframe.trans hsticks.frame }⟩
  | stray =>
    obtain ⟨rp', left, hrun⟩ := h
    exact ⟨rp', left, (hruns _).2 hrun⟩
  | endless => exact fun out hrun => h out ((hruns out).1 hrun)

/-- What comes first, and what follows when it is over. -/
theorem Follows.bind {code : β → Rc} {f : α → List UInt8 → Read β} (h : Follows k m q rp bb Done r)
    (hrp : Stacked k rp) (hm : m' ≤ m)
    (hbegins : ∀ rp', Stacked k rp' → Frame m rp rp' → Begins p q rp')
    (hdone : ∀ x rest rp', r = .done x rest → Runs q rp bb (.over, rp', rest) →
      rp'.parsed + rest.length = rp.parsed + bb.length → Done x rp' →
      FollowsBy code k m' p rp bb Done' (f x rest)) : FollowsBy code k m' p rp bb Done' (r.bind f) := by
  have hfirst := hbegins rp hrp (Frame.refl m rp)
  cases r with
  | done x rest =>
    obtain ⟨rp', hrun, hparsed, hx⟩ := h
    exact hdone x rest rp' rfl hrun hparsed hx
  | more left =>
    obtain ⟨rp', hrun, hleft⟩ := h
    exact ⟨rp', hfirst.ends Rc.noConfusion Rc.noConfusion hrun, hleft⟩
  | fail rc left =>
    obtain ⟨rp', hrun, hsticks⟩ := h
    have hover : rc ≠ .over := by
      rintro rfl
      cases hsticks.error
    have hagain : rc ≠ .again := by
      rintro rfl
      cases hsticks.error
    refine ⟨rp', hfirst.ends hover hagain hrun, { hsticks with
      frame := hsticks.frame.le hm, again := fun more => ?_ }⟩
    exact (hbegins rp' hsticks.stacked hsticks.frame).ends hover hagain (hsticks.again more)
  | stray =>
    obtain ⟨rp', left, hrun⟩ := h
    exact ⟨rp', left, hfirst.ends Rc.noConfusion Rc.noConfusion hrun⟩
  | endless =>
    intro out hrun
    obtain ⟨out', hrun'⟩ := hfirst.begins hrun
    exact h out' hrun'

/-- A round of a loop that goes on. -/
theorem FollowsBy.round {code : α → Rc} {body : Builder} (hround : Runs body rp bb (.again, rp₁, bb₁))
    (hparsed : rp₁.parsed + bb₁.length = rp.parsed + bb.length) (hframe : Frame m rp rp₁)
    (h : FollowsBy code k m (loop (fun rc _ => rc = .again) body) rp₁ bb₁ Done r) :
    FollowsBy code k m (loop (fun rc _ => rc = .again) body) rp bb Done r := by
  cases r with
  | done x rest =>
    obtain ⟨rp', hrun, hparsed', hx⟩ := h
    exact ⟨rp', hround.more rfl hrun, hparsed'.trans hparsed, hx⟩
  | more left =>
    obtain ⟨rp', hrun, hleft⟩ := h
    exact ⟨rp', hround.more rfl hrun, hleft⟩
  | fail rc left =>
    obtain ⟨rp', hrun, hsticks⟩ := h
    exact ⟨rp', hround.more rfl hrun, { hsticks with frame := hframe.trans hsticks.frame }⟩
  | stray =>
    obtain ⟨rp', left, hrun⟩ := h
    exact ⟨rp', left, hround.more rfl hrun⟩
  | endless => exact fun out hrun => h out ((hround.more_iff rfl).1 hrun)

/-- The loop of a builder on its slot, and the pop at its end. -/
theorem Follows.popOver {body : Nat → Builder} {Done₂ : α → RdbParser → Prop}
    (Done : α → RdbParser → Prop) (htop : AtTop ob rp)
    (hob : ob + 1 < 2 ^ 8)
    (h : Follows (ob + 2) (ob + 1) (builderLoop body (ob + 1)) (pushed (ob + 1) rp) bb Done r)
    (hdone : ∀ x rp', Done x rp' → Done₂ x rp'.stackPopObjectBuilder) :
    Follows (ob + 1) (ob + 1) (obLoop (subDepth ob) body popOver) rp bb Done₂ r := by
  have hpop : ∀ {rc rp'}, rc ≠ .over → Rdb.popOver (ob + 1) rc rp' = (rc, rp') := fun hrc => if_neg hrc
  have hrun : ∀ {rc rp' left}, rc ≠ .over →
      Runs (builderLoop body (ob + 1)) (pushed (ob + 1) rp) bb (rc, rp', left) →
      Runs (obLoop (subDepth ob) body Rdb.popOver) rp bb (rc, rp', left) := by
    intro rc rp' left hrc hloop
    have hwhole := runs_popOver htop hob hloop
    rwa [hpop hrc] at hwhole
  cases r with
  | done x rest =>
    obtain ⟨rp', hloop, hparsed, hx⟩ := h
    exact ⟨_, runs_popOver htop hob hloop, hparsed, hdone x rp' hx⟩
  | more left =>
    obtain ⟨rp', hloop, hleft⟩ := h
    exact ⟨rp', hrun Rc.noConfusion hloop, hleft⟩
  | fail rc left =>
    obtain ⟨rp', hloop, hsticks⟩ := h
    have hover : rc ≠ .over := by
      rintro rfl
      cases hsticks.error
    have hframe := (same_pushed (ob + 1) rp).frame.trans hsticks.frame
    refine ⟨rp', hrun hover hloop, hsticks.error, hsticks.stacked.le (Nat.le_succ _), hframe,
      fun more => ?_⟩
    have halloc : rp'.stackAllocObjectBuilder (subDepth ob rp') = (ob + 1, rp') := by
      rw [subDepth, hsticks.stacked.depths ob (Nat.lt_of_lt_of_le (by omega) hsticks.stacked.room)]
      exact stackAllocObjectBuilder_of_lt hob hsticks.stacked.room
    rw [obLoop, runs_after, halloc, runs_andThen]
    exact ⟨rc, rp', hsticks.again more, hpop hover⟩
  | stray =>
    obtain ⟨rp', left, hloop⟩ := h
    exact ⟨rp', left, hrun Rc.noConfusion hloop⟩
  | endless =>
    rintro ⟨rc, t, rest⟩ hwhole
    have halloc : rp.stackAllocObjectBuilder (subDepth ob rp) = (ob + 1, pushed (ob + 1) rp) := by
      rw [subDepth, htop.depths ob (Nat.le_refl ob)]
      exact stackAllocObjectBuilder_of_eq hob htop.nelts
    rw [obLoop, runs_after, halloc, runs_andThen] at hwhole
    obtain ⟨rc', t', hloop, -⟩ := hwhole
    exact h _ hloop

end Rules

end KjRedis.Rdb
