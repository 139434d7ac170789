import KjRedis.Rdb.BodyReader
import KjRedis.Rdb.RdbChunks

/-! `rdb_parse_dumped_data_once` follows the reader of dumps. -/
namespace KjRedis.Rdb

open Resumption

section Builder

variable (cb : List RdbObject → Bool) {rp rp' : RdbParser} {bb rest : List UInt8}
  {out : Rc × RdbParser × List UInt8}

theorem dumpedDataBody_idle
    (h : (rp.slots 0).state = buildBodyIdle ∨ (rp.slots 0).state = buildBodyObjectType) :
    Runs (dumpedDataBody cb 0) rp bb out ↔ buildObjectType 0 rp bb = out := by
  rw [dumpedDataBody, runs_dispatch]
  simp only [if_pos (show (rp.slots 0).state = buildDumpedDataIdle ∨
    (rp.slots 0).state = buildDumpedDataObjectType from h)]
  exact runs_ofStep

theorem dumpedDataBody_val (h : (rp.slots 0).state = buildBodyObjectDetail) :
    Runs (dumpedDataBody cb 0) rp bb out ↔
      Runs (andThen (buildObjectDetailKvVal 0) (dumped cb)) rp bb out := by
  rw [dumpedDataBody, runs_dispatch]
  simp only [h]
  exact Iff.rfl

theorem dumped_over : dumped cb .over rp =
    if cb (rp.walked ++ [rp.o]) then (.over, (given rp).rdbObjectClear) else (.abort, given rp) := by
  rw [dumped, if_pos rfl, RdbParser.walk]
  cases hcb : cb (rp.walked ++ [rp.o]) <;> rfl

/-- What the builder leaves where it stops, before it is popped. -/
def DumpStopped (rp : RdbParser) : Stop → RdbParser → Prop
  | .finished walked, rp' => (rp'.nelts = 1 ∧ rp'.o = .init ∧ rp'.walked = walked) ∧ rp'.state = rp.state ∧
      rp'.version = rp.version
  | .abort walked o, rp' => (Origin.refused walked o).Stands rp' ∧ rp'.state = rp.state ∧
      rp'.version = rp.version

/-- The round in which a value is over. -/
theorem dumpedVal_follows (htop : AtTop 0 rp) (hdetail : (rp.slots 0).state = buildBodyObjectDetail) :
    FollowsBy Stop.code 1 0 (builderLoop (dumpedDataBody cb) 0) rp bb (DumpStopped rp)
      (readDumpedVal cb rp.walked rp.o bb) := by
  apply (value_follows htop (by decide)).bind htop.stacked (Nat.zero_le 1)
  · intro rp' _ hframe
    have hval : Begins (dumpedDataBody cb 0) (andThen (buildObjectDetailKvVal 0) (dumped cb)) rp' :=
      begins_congr fun _ _ => dumpedDataBody_val cb (hframe.chosen.1.trans hdetail)
    exact (begins_loop.trans hval).trans (begins_andThen fun _ _ hrc => if_neg hrc)
  · intro f rest rp₁ _ hrun hparsed hdone
    have hwalked : rp₁.walked = rp.walked := hdone.same.walked
    have ho : rp₁.o = f rp.o := hdone.same.o
    have hdumped := @dumped_over cb rp₁
    rw [hwalked, ho] at hdumped
    have hgiven : (given rp₁).walked = rp.walked ++ [f rp.o] := by
      rw [← hwalked, ← ho]
      rfl
    dsimp only
    by_cases hcb : cb (rp.walked ++ [f rp.o]) = true
    · rw [if_pos hcb] at hdumped ⊢
      have hround := (dumpedDataBody_val cb hdetail).2 (runs_andThen.2 ⟨.over, rp₁, hrun, hdumped⟩)
      exact ⟨_, hround.last rfl, hparsed, ⟨hdone.nelts, rfl, hgiven⟩, hdone.same.state, hdone.same.version⟩
    · rw [if_neg hcb] at hdumped ⊢
      have hround := (dumpedDataBody_val cb hdetail).2 (runs_andThen.2 ⟨.over, rp₁, hrun, hdumped⟩)
      have hslot : (rp₁.slots 0).depth = 0 ∧ (rp₁.slots 0).state = buildBodyObjectDetail := by
        refine ⟨(congrArg Prod.fst hdone.control).trans (htop.depths 0 (Nat.le_refl 0)), ?_⟩
        exact (congrArg (fun c => c.2.1) hdone.control).trans hdetail
      refine ⟨given rp₁, hround.last rfl, hparsed, ⟨⟨hdone.nelts, fun i hi => ?_⟩, hslot.2, hgiven, ho⟩,
        hdone.same.state, hdone.same.version⟩
      obtain rfl := Nat.le_zero.1 hi
      exact hslot.1

/-- A type, and the value behind it. -/
theorem dumpedData_follows (htop : AtTop 0 rp)
    (hbuilder : (rp.slots 0).state = buildBodyIdle ∨ (rp.slots 0).state = buildBodyObjectType)
    (ho : rp.o = .init) :
    FollowsBy Stop.code 1 0 (builderLoop (dumpedDataBody cb) 0) rp bb (DumpStopped rp)
      (readDumpedData cb rp.walked bb) := by
  cases bb with
  | nil => exact ⟨rp, ((dumpedDataBody_idle cb hbuilder).2 rfl).last rfl, Nat.succ_pos 8⟩
  | cons type rest =>
    have hround : Runs (dumpedDataBody cb 0) rp (type :: rest) (.again, typed type rp, rest) :=
      (dumpedDataBody_idle cb hbuilder).2 rfl
    have hnext := @dumpedVal_follows cb (typed type rp) rest (htop.typed type) (by rw [typed_slot])
    have hobject : (typed type rp).o = { RdbObject.init with type } := by
      rw [← ho]
      rfl
    rw [hobject] at hnext
    refine FollowsBy.round hround ?_ (frame_zero rfl) (hnext.mono fun stop rp' h => ?_)
    · show rp.parsed + 1 + rest.length = rp.parsed + (rest.length + 1)
      omega
    · cases stop <;> exact h

end Builder

section Calls

variable (cb : List RdbObject → Bool) {rp rp₁ : RdbParser} {bb : List UInt8}
  {out : Rc × RdbParser × List UInt8}

theorem runs_dumpedDataOnce (h : rp.state ≠ .over) :
    Runs (rdbParseDumpedDataOnce cb) rp bb out ↔
      Runs (loop (fun rc rp => rc ≠ .premature ∧ rc ≠ .stray ∧ rp.state ≠ .over) (buildDumpedData cb)) rp
        bb out := by
  rw [rdbParseDumpedDataOnce, runs_dispatch, if_neg h]

/-- The call comes back where the bytes run out. On an error it spins. -/
def DumpAnswers (rp : RdbParser) (bb : List UInt8) : Read Empty → Prop
  | .done x _ => x.elim
  | .more left => ∃ rp', Runs (rdbParseDumpedDataOnce cb) rp bb (.premature, rp', left) ∧ left.length < 9
  | .stray => ∃ rp' left, Runs (rdbParseDumpedDataOnce cb) rp bb (.stray, rp', left)
  | .fail _ _ | .endless => ∀ out, ¬ Runs (rdbParseDumpedDataOnce cb) rp bb out

/-- What the next builder of the call starts from. -/
def DumpLeft (stop : Stop) (rp : RdbParser) : Prop := stop.origin.Stands rp ∧ rp.state ≠ .over

/-- One builder of the call, on the lowest slot. -/
theorem buildDumpedData_runs {rc : Rc} {t : RdbParser} {left : List UInt8}
    (halloc : rp.stackAllocObjectBuilder 0 = (0, rp₁)) (hover : rc ≠ .over)
    (hrun : Runs (builderLoop (dumpedDataBody cb) 0) rp₁ bb (rc, t, left)) :
    Runs (buildDumpedData cb) rp bb (rc, t, left) := by
  rw [buildDumpedData, runs_obLoop halloc]
  exact runs_andThen.2 ⟨rc, t, hrun, if_neg hover⟩

/-- The call goes on with another one. -/
theorem dumpedDataOnce_goes {rc : Rc} {t : RdbParser} {left : List UInt8} (hstate : rp.state ≠ .over)
    (hrc : rc ≠ .premature ∧ rc ≠ .stray) (ht : t.state ≠ .over)
    (hrun : Runs (buildDumpedData cb) rp bb (rc, t, left)) (out : Rc × RdbParser × List UInt8) :
    Runs (rdbParseDumpedDataOnce cb) rp bb out ↔ Runs (rdbParseDumpedDataOnce cb) t left out := by
  rw [runs_dumpedDataOnce cb hstate, runs_dumpedDataOnce cb ht,
    hrun.more_iff (decide_eq_true ⟨hrc.1, hrc.2, ht⟩)]

/-- When a value is over, the call goes on behind it. -/
theorem dump_goes {stop : Stop} {rest : List UInt8} {t : RdbParser} (hstate : rp.state ≠ .over)
    (halloc : rp.stackAllocObjectBuilder 0 = (0, rp₁)) (hstate₁ : rp₁.state ≠ .over)
    (hrun : Runs (builderLoop (dumpedDataBody cb) 0) rp₁ bb (stop.code, t, rest))
    (hstopped : DumpStopped rp₁ stop t) :
    ∃ rp', DumpLeft stop rp' ∧ rp'.state = rp₁.state ∧ rp'.version = rp₁.version ∧
      rp'.parsed = t.parsed ∧ ∀ out,
        Runs (rdbParseDumpedDataOnce cb) rp bb out ↔ Runs (rdbParseDumpedDataOnce cb) rp' rest out := by
  cases stop with
  | finished walked =>
    obtain ⟨⟨hnelts, ho, hwalked⟩, hstate', hversion⟩ := hstopped
    have hpop : t.stackPopObjectBuilder.nelts = 0 := congrArg (· - 1) hnelts
    have ht : t.stackPopObjectBuilder.state ≠ .over := by
      show t.state ≠ .over
      rw [hstate']
      exact hstate₁
    have hbody : Runs (buildDumpedData cb) rp bb (.over, t.stackPopObjectBuilder, rest) := by
      rw [buildDumpedData, runs_obLoop halloc]
      exact runs_andThen.2 ⟨.over, t, hrun, if_pos rfl⟩
    exact ⟨t.stackPopObjectBuilder, ⟨⟨⟨ho, Or.inl hpop⟩, hwalked⟩, ht⟩, hstate', hversion, rfl,
      dumpedDataOnce_goes cb hstate ⟨Rc.noConfusion, Rc.noConfusion⟩ ht hbody⟩
  | abort walked o =>
    obtain ⟨hstands, hstate', hversion⟩ := hstopped
    have ht : t.state ≠ .over := by
      rw [hstate']
      exact hstate₁
    exact ⟨t, ⟨hstands, ht⟩, hstate', hversion, rfl,
      dumpedDataOnce_goes cb hstate ⟨Rc.noConfusion, Rc.noConfusion⟩ ht
        (buildDumpedData_runs cb halloc Rc.noConfusion hrun)⟩

/-- An error is met again and again. -/
theorem dump_spins {rc : Rc} {left : List UInt8} {t : RdbParser} (hstate : rp.state ≠ .over)
    (halloc : rp.stackAllocObjectBuilder 0 = (0, rp₁)) (hstate₁ : rp₁.state ≠ .over)
    (hrun : Runs (builderLoop (dumpedDataBody cb) 0) rp₁ bb (rc, t, left))
    (hsticks : Sticks 1 0 (builderLoop (dumpedDataBody cb) 0) rc rp₁ t left) :
    ¬ Runs (rdbParseDumpedDataOnce cb) rp bb out := by
  have hover : rc ≠ .over := by
    rintro rfl
    cases hsticks.error
  have hrc : rc ≠ .premature ∧ rc ≠ .stray := by
    refine ⟨?_, ?_⟩
    · rintro rfl
      cases hsticks.error
    · rintro rfl
      cases hsticks.error
  have ht : t.state ≠ .over := by
    rw [hsticks.frame.state]
    exact hstate₁
  have hagain : Runs (buildDumpedData cb) t left (rc, t, left) := by
    have hloop := hsticks.again []
    rw [List.append_nil] at hloop
    exact buildDumpedData_runs cb (stackAllocObjectBuilder_of_lt (by decide) hsticks.stacked.room) hover hloop
  rw [dumpedDataOnce_goes cb hstate hrc ht (buildDumpedData_runs cb halloc hover hrun),
    runs_dumpedDataOnce cb ht]
  apply loop_spins (fun rp bb => rp = t ∧ bb = left) ?_ ⟨rfl, rfl⟩
  rintro _ _ ⟨rfl, rfl⟩
  exact ⟨rc, _, _, hagain, decide_eq_true ⟨hrc.1, hrc.2, ht⟩, rfl, rfl⟩

/-- One builder of the call, and the next ones. -/
theorem dump_step {r : Read Stop} {F : Stop → List UInt8 → Read Empty} (hstate : rp.state ≠ .over)
    (halloc : rp.stackAllocObjectBuilder 0 = (0, rp₁)) (hstate₁ : rp₁.state ≠ .over)
    (h : FollowsBy Stop.code 1 0 (builderLoop (dumpedDataBody cb) 0) rp₁ bb (DumpStopped rp₁) r)
    (hdone : ∀ stop rest rp', r = .done stop rest → DumpLeft stop rp' →
      DumpAnswers cb rp' rest (F stop rest)) : DumpAnswers cb rp bb (r.bind F) := by
  have hlast : ∀ {rc t left}, rc = .premature ∨ rc = .stray →
      Runs (builderLoop (dumpedDataBody cb) 0) rp₁ bb (rc, t, left) →
      Runs (rdbParseDumpedDataOnce cb) rp bb (rc, t, left) := by
    intro rc t left hrc hrun
    rw [runs_dumpedDataOnce cb hstate]
    rcases hrc with rfl | rfl
    · exact (buildDumpedData_runs cb halloc Rc.noConfusion hrun).last rfl
    · exact (buildDumpedData_runs cb halloc Rc.noConfusion hrun).last rfl
  cases r with
  | done stop rest =>
    obtain ⟨t, hrun, -, hstopped⟩ := h
    obtain ⟨rp', hleft, -, -, -, hgoes⟩ := dump_goes cb hstate halloc hstate₁ hrun hstopped
    have hnext := hdone stop rest rp' rfl hleft
    show DumpAnswers cb rp bb (F stop rest)
    cases hread : F stop rest with
    | done x rest => exact x.elim
    | more left =>
      rw [hread] at hnext
      obtain ⟨u, hrun', hlt⟩ := hnext
      exact ⟨u, (hgoes _).2 hrun', hlt⟩
    | stray =>
      rw [hread] at hnext
      obtain ⟨u, left, hrun'⟩ := hnext
      exact ⟨u, left, (hgoes _).2 hrun'⟩
    | fail | endless =>
      rw [hread] at hnext
      exact fun out hrun' => hnext out ((hgoes out).1 hrun')
  | more left =>
    obtain ⟨t, hrun, hleft⟩ := h
    exact ⟨t, hlast (Or.inl rfl) hrun, hleft⟩
  | stray =>
    obtain ⟨t, left, hrun⟩ := h
    exact ⟨t, left, hlast (Or.inr rfl) hrun⟩
  | endless =>
    intro out hrun
    rw [runs_dumpedDataOnce cb hstate] at hrun
    obtain ⟨rc, t, left, hbody, -⟩ := runs_loop.1 hrun
    rw [buildDumpedData, runs_obLoop halloc] at hbody
    obtain ⟨rc', t', hloop, -⟩ := runs_andThen.1 hbody
    exact h _ hloop
  | fail rc left =>
    obtain ⟨t, hrun, hsticks⟩ := h
    exact fun out => dump_spins cb hstate halloc hstate₁ hrun hsticks

/-- A call on a dump does what reading it says, from any point at which a value starts. -/
theorem dumps_answer {g : Origin} (h : g.Stands rp) (hstate : rp.state ≠ .over) :
    DumpAnswers cb rp bb (readDumps cb g bb) := by
  induction hn : bb.length using Nat.strong_induction_on generalizing rp g bb with
  | _ n ih =>
    rw [readDumps_eq]
    have hnext : ∀ stop rest rp', g.readDumped cb bb = .done stop rest → DumpLeft stop rp' →
        DumpAnswers cb rp' rest (readDumps cb stop.origin rest) := by
      intro stop rest rp' hread hleft
      exact ih rest.length (hn ▸ readDumped_shorter hread) hleft.1 hleft.2 rfl
    cases g with
    | start walked =>
      obtain ⟨hawaits, rfl⟩ := h
      obtain ⟨rp₁, hentered⟩ := hawaits.enter
      have hfollows := @dumpedData_follows cb rp₁ bb hentered.top hentered.builder
        (hentered.same.o.trans hawaits.object)
      rw [hentered.same.walked] at hfollows
      exact dump_step cb hstate hentered.alloc (hentered.same.state ▸ hstate) hfollows hnext
    | refused walked o =>
      obtain ⟨htop, hdetail, rfl, rfl⟩ := h
      exact dump_step cb hstate htop.enter hstate (dumpedVal_follows cb htop hdetail) hnext

end Calls

end KjRedis.Rdb
