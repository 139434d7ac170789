import KjRedis.Rdb.RecordReader

/-! The loop of the body follows the reader of records. -/
namespace KjRedis.Rdb

open Resumption

section Lowest

variable {d : Nat} {depth : RdbParser → Nat} {body : Nat → Builder}
  {finish : Nat → Rc → RdbParser → Rc × RdbParser} {rp rp₁ : RdbParser} {bb : List UInt8}
  {out : Rc × RdbParser × List UInt8}

theorem runs_obLoop (halloc : rp.stackAllocObjectBuilder (depth rp) = (d, rp₁)) :
    Runs (obLoop depth body finish) rp bb out ↔
      Runs (andThen (builderLoop body d) (finish d)) rp₁ bb out := by
  rw [obLoop, runs_after, halloc]

/-- The lowest builder is about to read a type. -/
structure Awaits (rp : RdbParser) : Prop where
  object : rp.o = .init
  builder : rp.nelts = 0 ∨
    AtTop 0 rp ∧ ((rp.slots 0).state = buildBodyIdle ∨ (rp.slots 0).state = buildBodyObjectType)

/-- The parser is where reading starts. -/
def Origin.Stands : Origin → RdbParser → Prop
  | start walked, rp => Awaits rp ∧ rp.walked = walked
  | refused walked o, rp => AtTop 0 rp ∧ (rp.slots 0).state = buildBodyObjectDetail ∧ rp.walked = walked ∧
      rp.o = o

theorem awaits_createRdbParser : Awaits createRdbParser := ⟨rfl, Or.inl rfl⟩

theorem Awaits.stacked (h : Awaits rp) : Stacked 0 rp := by
  rcases h.builder with hnelts | ⟨htop, -⟩
  · refine ⟨Nat.zero_le _, fun i hi => ?_⟩
    rw [hnelts] at hi
    exact absurd hi (Nat.not_lt_zero i)
  · exact htop.stacked.le (Nat.zero_le 1)

theorem Origin.Stands.stacked {g : Origin} (h : g.Stands rp) : Stacked 0 rp := by
  cases g with
  | start walked => exact h.1.stacked
  | refused walked o => exact h.1.stacked.le (Nat.zero_le 1)

theorem AtTop.enter (h : AtTop 0 rp) : rp.stackAllocObjectBuilder 0 = (0, rp) :=
  stackAllocObjectBuilder_of_lt (by decide) (h.nelts ▸ Nat.zero_lt_one)

/-- The lowest builder is on its slot. -/
structure Entered (rp rp₁ : RdbParser) : Prop where
  alloc : rp.stackAllocObjectBuilder 0 = (0, rp₁)
  top : AtTop 0 rp₁
  builder : (rp₁.slots 0).state = buildBodyIdle ∨ (rp₁.slots 0).state = buildBodyObjectType
  same : Same 0 rp rp₁
  parsed : rp₁.parsed = rp.parsed

theorem Awaits.enter (h : Awaits rp) : ∃ rp₁, Entered rp rp₁ := by
  rcases h.builder with hnelts | ⟨htop, hstate⟩
  · refine ⟨_, stackAllocObjectBuilder_of_eq (by decide) hnelts, ⟨rfl, ?_⟩, Or.inl ?_, same_pushed 0 rp, rfl⟩
    · intro i hi
      obtain rfl := Nat.le_zero.1 hi
      exact congrArg RdbObjectBuilder.depth (pushed_slot 0 rp)
    · exact congrArg RdbObjectBuilder.state (pushed_slot 0 rp)
  · exact ⟨rp, htop.enter, htop, hstate, Same.refl 0 rp, rfl⟩

/-- What `__build_object_type` leaves. -/
def typed (type : UInt8) (rp : RdbParser) : RdbParser :=
  ({ rp with o := { rp.o with type } }.calcCrc 1).setState 0 buildBodyObjectDetail

theorem typed_slot (type : UInt8) (rp : RdbParser) :
    (typed type rp).slots 0 = { rp.slots 0 with state := buildBodyObjectDetail } := by
  simp only [typed, RdbParser.setState, RdbParser.write, Function.update_self, RdbParser.calcCrc]

theorem AtTop.typed (h : AtTop 0 rp) (type : UInt8) : AtTop 0 (typed type rp) := by
  refine ⟨h.nelts, fun i hi => ?_⟩
  obtain rfl := Nat.le_zero.1 hi
  rw [typed_slot]
  exact h.depths 0 (Nat.le_refl 0)

end Lowest

section Rounds

variable (cb : List RdbObject → Bool) {rp rp' : RdbParser} {bb rest : List UInt8}
  {out : Rc × RdbParser × List UInt8}

theorem bodyBody_idle (h : (rp.slots 0).state = buildBodyIdle ∨ (rp.slots 0).state = buildBodyObjectType) :
    Runs (bodyBody cb 0) rp bb out ↔ buildObjectType 0 rp bb = out := by
  rw [bodyBody, runs_dispatch]
  simp only [if_pos h]
  exact runs_ofStep

theorem bodyBody_detail (h : (rp.slots 0).state = buildBodyObjectDetail) :
    Runs (bodyBody cb 0) rp bb out ↔ Runs (detailOf cb rp.o.type 0) rp bb out := by
  rw [bodyBody, runs_dispatch]
  simp only [h]
  exact Iff.rfl

/-- The parser when the callback has been given the object. -/
def given (rp : RdbParser) : RdbParser := { rp with walked := rp.walked ++ [rp.o] }

/-- And when it has taken it. -/
def taken (rp : RdbParser) : RdbParser := (given rp).rdbObjectClear.setState 0 buildBodyObjectType

theorem processed_over : processed cb 0 .over rp =
    if cb (rp.walked ++ [rp.o]) then (.again, taken rp) else (.abort, given rp) := by
  rw [processed, if_pos rfl, RdbParser.walk]
  cases hcb : cb (rp.walked ++ [rp.o]) <;> rfl

theorem taken_slot (rp : RdbParser) :
    (taken rp).slots 0 = { rp.slots 0 with state := buildBodyObjectType } := by
  simp only [taken, given, RdbParser.rdbObjectClear, RdbParser.setState, RdbParser.write,
    Function.update_self]

theorem AtTop.taken (h : AtTop 0 rp) : AtTop 0 (taken rp) := by
  refine ⟨h.nelts, fun i hi => ?_⟩
  obtain rfl := Nat.le_zero.1 hi
  rw [taken_slot]
  exact h.depths 0 (Nat.le_refl 0)

theorem Detailed.atTop {f : RdbObject → RdbObject} (h : Detailed 0 rp f rp') (htop : AtTop 0 rp) :
    AtTop 0 rp' := by
  refine ⟨h.nelts, fun i hi => ?_⟩
  rw [h.same.slots i (Nat.lt_succ_of_le hi)]
  exact htop.depths i hi

/-- The round in which a record is over. -/
theorem detail_over {f : RdbObject → RdbObject} (htop : AtTop 0 rp)
    (hdetail : (rp.slots 0).state = buildBodyObjectDetail) (haux : rp.o.type ≠ rdbOpcodeAux)
    (heof : rp.o.type ≠ rdbOpcodeEof) (hread : readDetail rp.o.type bb = .done f rest) :
    ∃ rp', Detailed 0 rp f rp' ∧ rp'.parsed + rest.length = rp.parsed + bb.length ∧
      Runs (bodyBody cb 0) rp bb (if cb (rp.walked ++ [f rp.o]) then (.again, taken rp', rest)
        else (.abort, given rp', rest)) := by
  have hfollows := @detail_follows rp bb htop haux
  rw [hread] at hfollows
  obtain ⟨rp', hrun, hparsed, hdone⟩ := hfollows
  refine ⟨rp', hdone, hparsed, ?_⟩
  have hprocessed := @processed_over cb rp'
  rw [hdone.same.walked, hdone.same.o] at hprocessed
  rw [bodyBody_detail cb hdetail, detailOf_plain cb haux heof]
  by_cases hcb : cb (rp.walked ++ [f rp.o]) = true
  · rw [if_pos hcb] at hprocessed ⊢
    exact runs_andThen.2 ⟨.over, rp', hrun, hprocessed⟩
  · rw [if_neg hcb] at hprocessed ⊢
    exact runs_andThen.2 ⟨.over, rp', hrun, hprocessed⟩

end Rounds

section Aux

variable {α : Type} (cb : List RdbObject → Bool) {rp rp' : RdbParser} {bb : List UInt8}

/-- The builder of an auxiliary record is on its slot, and reads a key. -/
structure InAux (rp : RdbParser) : Prop where
  top : AtTop 1 rp
  type : rp.o.type = rdbOpcodeAux
  detail : (rp.slots 0).state = buildBodyObjectDetail
  idle : (rp.slots 1).state = buildOpcodeAuxIdle

theorem alloc_aux (h : Stacked 2 rp) : rp.stackAllocObjectBuilder (subDepth 0 rp) = (1, rp) := by
  have hdepth : (rp.slots 0).depth = 0 := h.depths 0 (Nat.lt_of_lt_of_le Nat.two_pos h.room)
  rw [subDepth, hdepth]
  exact stackAllocObjectBuilder_of_lt (by decide) h.room

theorem InAux.bodyBody (h : InAux rp) (hrp' : Stacked 2 rp') (hframe : Frame 2 rp rp')
    {out : Rc × RdbParser × List UInt8} :
    Runs (Rdb.bodyBody cb 0) rp' bb out ↔
      Runs (andThen (andThen (builderLoop auxBody 1) (auxEnd 0 1)) (processed cb 0)) rp' bb out := by
  have hslot := (hframe.le (Nat.le_succ 1)).chosen
  have htype : rp'.o.type = rdbOpcodeAux := hslot.2.2.2.trans h.type
  rw [bodyBody_detail cb (hslot.1.trans h.detail), htype]
  obtain ⟨rc, t, rest⟩ := out
  show Runs (andThen (buildOpcodeAux 0) (processed cb 0)) rp' bb (rc, t, rest) ↔ _
  rw [runs_andThen, runs_andThen, buildOpcodeAux]
  simp only [runs_obLoop (alloc_aux hrp')]

theorem auxBody_key (h : (rp.slots 1).state = buildOpcodeAuxIdle) {out : Rc × RdbParser × List UInt8} :
    Runs (auxBody 1) rp bb out ↔ Runs (buildStringValue .auxKey 1) rp bb out := by
  rw [auxBody, runs_dispatch]
  simp only [h]
  exact Iff.rfl

theorem auxEnd_other {rc : Rc} (hrc : rc ≠ .over) (rp : RdbParser) : auxEnd 0 1 rc rp = (rc, rp) := by
  rw [auxEnd, if_neg fun h => hrc h.1]
  exact if_neg hrc

/-- Key after key: nothing else comes of an auxiliary record. -/
theorem aux_follows {code : α → Rc} {Done : α → RdbParser → Prop}
    {F : (RdbObject → RdbObject) → List UInt8 → Read α} (h : InAux rp) :
    FollowsBy code 2 0 (builderLoop (bodyBody cb) 0) rp bb Done ((readAux bb).bind F) := by
  induction hn : bb.length using Nat.strong_induction_on generalizing rp bb with
  | _ n ih =>
    rw [readAux_eq, Read.bind_bind]
    apply (string_follows h.top (by decide) (show StrRef.auxKey.Under 1 from trivial)).bind h.top.stacked
      (Nat.zero_le 2)
    · intro rp' hrp' hframe
      apply begins_loop.trans
      apply (begins_congr fun _ _ => h.bodyBody cb hrp' hframe).trans
      apply (begins_andThen fun _ _ hrc => if_neg hrc).trans
      apply (begins_andThen fun _ _ hrc => auxEnd_other hrc _).trans
      apply begins_loop.trans
      exact begins_congr fun _ _ => auxBody_key (hframe.chosen.1.trans h.idle)
    · rintro s rest rp₁ hread hrun hparsed ⟨hnelts, hsame⟩
      have hslot : ∀ i < 2, rp₁.slots i = rp.slots i := hsame.slots
      have hidle : (rp₁.slots 1).state = buildOpcodeAuxIdle := by
        rw [hslot 1 Nat.one_lt_two, h.idle]
      have hend : auxEnd 0 1 .over rp₁ = (.again, rp₁.setState 0 buildBodyObjectDetail) := by
        rw [auxEnd, hidle]
        rfl
      have hround : Runs (Rdb.bodyBody cb 0) rp bb (.again, rp₁.setState 0 buildBodyObjectDetail, rest) := by
        apply (h.bodyBody cb h.top.stacked (Frame.refl 2 rp)).2
        apply runs_andThen.2 ⟨.again, _, ?_, if_neg Rc.noConfusion⟩
        apply runs_andThen.2 ⟨.over, rp₁, ?_, hend⟩
        exact ((auxBody_key h.idle).2 hrun).last rfl
      have hin : InAux (rp₁.setState 0 buildBodyObjectDetail) := by
        refine ⟨⟨hnelts, fun i hi => ?_⟩, ?_, ?_, ?_⟩
        · rcases Nat.lt_or_eq_of_le hi with hlt | rfl
          · obtain rfl := Nat.lt_one_iff.1 hlt
            simp only [RdbParser.setState, RdbParser.write, Function.update_self, hslot 0 Nat.two_pos]
            exact h.top.depths 0 (Nat.zero_le 1)
          · simp only [RdbParser.setState, RdbParser.write, Function.update_of_ne Nat.one_ne_zero,
              hslot 1 Nat.one_lt_two]
            exact h.top.depths 1 (Nat.le_refl 1)
        · show rp₁.o.type = _
          rw [hsame.o]
          exact h.type
        · simp only [RdbParser.setState, RdbParser.write, Function.update_self]
        · simp only [RdbParser.setState, RdbParser.write, Function.update_of_ne Nat.one_ne_zero, hidle]
      have hlt : rest.length < n := by
        rw [← hn]
        exact readString_shorter hread
      exact FollowsBy.round hround hparsed (frame_zero hsame.state) (ih rest.length hlt hin rfl)

/-- An auxiliary record from its start. -/
theorem aux_starts {code : α → Rc} {Done : α → RdbParser → Prop}
    {F : (RdbObject → RdbObject) → List UInt8 → Read α} (htop : AtTop 0 rp)
    (hdetail : (rp.slots 0).state = buildBodyObjectDetail) (haux : rp.o.type = rdbOpcodeAux) :
    FollowsBy code 1 0 (builderLoop (bodyBody cb) 0) rp bb Done ((readAux bb).bind F) := by
  have hslot := (same_pushed 1 rp).slots 0 Nat.one_pos
  have hin : InAux (pushed 1 rp) := by
    refine ⟨htop.pushed, haux, ?_, ?_⟩
    · rw [hslot, hdetail]
    · rw [pushed_slot]
      rfl
  have halloc : rp.stackAllocObjectBuilder (subDepth 0 rp) = (1, pushed 1 rp) := by
    rw [subDepth, htop.depths 0 (Nat.le_refl 0)]
    exact stackAllocObjectBuilder_of_eq (by decide) htop.nelts
  refine ((aux_follows cb hin).le (Nat.le_succ 1) (Nat.le_refl 0)).from (fun out => ?_) rfl (frame_zero rfl)
  apply runs_loop_congr
  rintro ⟨rc, t, rest⟩
  rw [hin.bodyBody cb hin.top.stacked (Frame.refl 2 _), bodyBody_detail cb hdetail, haux]
  show Runs (andThen (buildOpcodeAux 0) (processed cb 0)) rp bb (rc, t, rest) ↔ _
  rw [runs_andThen, runs_andThen, buildOpcodeAux]
  simp only [runs_obLoop halloc]

end Aux

section Records

variable (cb : List RdbObject → Bool) {rp rp' : RdbParser} {bb : List UInt8}

/-- What the body leaves where it stops. -/
def Stopped (rp : RdbParser) : Stop → RdbParser → Prop
  | .finished walked, rp' => rp'.walked = walked ∧ rp'.state = rp.state
  | .abort walked o, rp' => (Origin.refused walked o).Stands rp' ∧ rp'.state = rp.state

theorem Stopped.from {rp₁ : RdbParser} {stop : Stop} (h : Stopped rp₁ stop rp')
    (hstate : rp₁.state = rp.state) : Stopped rp stop rp' := by
  cases stop with
  | finished walked => exact ⟨h.1, h.2.trans hstate⟩
  | abort walked o => exact ⟨h.1, h.2.trans hstate⟩

/-- A type, and the record that it starts. -/
theorem typed_follows (htop : AtTop 0 rp)
    (hbuilder : (rp.slots 0).state = buildBodyIdle ∨ (rp.slots 0).state = buildBodyObjectType)
    (ho : rp.o = .init)
    (hrecords : ∀ type rest, readType bb = .done type rest → AtTop 0 (typed type rp) →
      ((typed type rp).slots 0).state = buildBodyObjectDetail →
      FollowsBy Stop.code 1 0 (builderLoop (bodyBody cb) 0) (typed type rp) rest (Stopped (typed type rp))
        (readRecords cb (typed type rp).walked (typed type rp).o rest)) :
    FollowsBy Stop.code 1 0 (builderLoop (bodyBody cb) 0) rp bb (Stopped rp)
      (readRecord cb rp.walked bb) := by
  cases bb with
  | nil => exact ⟨rp, ((bodyBody_idle cb hbuilder).2 rfl).last rfl, Nat.succ_pos 8⟩
  | cons type rest =>
    have hround : Runs (bodyBody cb 0) rp (type :: rest) (.again, typed type rp, rest) :=
      (bodyBody_idle cb hbuilder).2 rfl
    have hnext := hrecords type rest rfl (htop.typed type) (by rw [typed_slot])
    have hobject : (typed type rp).o = { RdbObject.init with type } := by
      rw [← ho]
      rfl
    rw [hobject] at hnext
    refine FollowsBy.round hround ?_ (frame_zero rfl) (hnext.mono fun stop rp' h => h.from rfl)
    show rp.parsed + 1 + rest.length = rp.parsed + (rest.length + 1)
    omega

/-- The records are built and given to the callback as they are read. -/
theorem records_follow (htop : AtTop 0 rp) (hdetail : (rp.slots 0).state = buildBodyObjectDetail) :
    FollowsBy Stop.code 1 0 (builderLoop (bodyBody cb) 0) rp bb (Stopped rp)
      (readRecords cb rp.walked rp.o bb) := by
  induction hn : bb.length using Nat.strong_induction_on generalizing rp bb with
  | _ n ih =>
    by_cases heof : rp.o.type = rdbOpcodeEof
    · have hrun : Runs (bodyBody cb 0) rp bb (.over, rp, bb) := by
        rw [bodyBody_detail cb hdetail, heof]
        exact runs_ofStep.2 rfl
      rw [readRecords, if_pos heof]
      exact ⟨rp, hrun.last rfl, rfl, rfl, rfl⟩
    rw [readRecords_eq cb rp.walked heof]
    by_cases haux : rp.o.type = rdbOpcodeAux
    · rw [haux]
      exact aux_starts cb htop hdetail haux
    apply (detail_follows htop haux).bind htop.stacked (Nat.zero_le 1)
    · intro rp' _ hframe
      have hchosen := hframe.chosen
      have hplain : Begins (bodyBody cb 0) (andThen (detailBuilder rp.o.type) (processed cb 0)) rp' := by
        apply begins_congr
        intro bb out
        rw [bodyBody_detail cb (hchosen.1.trans hdetail), hchosen.2.2.2]
        exact detailOf_plain cb haux heof rp' bb out
      exact (begins_loop.trans hplain).trans (begins_andThen fun _ _ hrc => if_neg hrc)
    · intro f rest _ hread _ _ _
      obtain ⟨rp₁, hdone, hparsed, hround⟩ := detail_over cb htop hdetail haux heof hread
      have htop₁ := hdone.atTop htop
      have ho₁ : rp₁.o = f rp.o := hdone.same.o
      have hwalked₁ : rp₁.walked = rp.walked := hdone.same.walked
      have hstate₁ : rp₁.state = rp.state := hdone.same.state
      by_cases hcb : cb (rp.walked ++ [f rp.o]) = true
      · rw [if_pos hcb] at hround ⊢
        have hlt := readDetail_shorter hread
        have hwalked : (taken rp₁).walked = rp.walked ++ [f rp.o] := by
          rw [← hwalked₁, ← ho₁]
          rfl
        have hnext := @typed_follows cb (taken rp₁) rest htop₁.taken (Or.inr (by rw [taken_slot])) rfl
          fun type left htype htop₂ hdetail₂ =>
            ih left.length (by have := readType_shorter htype; omega) htop₂ hdetail₂ rfl
        rw [hwalked] at hnext
        exact FollowsBy.round hround hparsed (frame_zero hstate₁) (hnext.mono fun _ _ h => h.from hstate₁)
      · rw [if_neg hcb] at hround ⊢
        refine ⟨given rp₁, hround.last rfl, hparsed, ⟨⟨htop₁.nelts, htop₁.depths⟩, ?_, ?_, ho₁⟩, hstate₁⟩
        · show (rp₁.slots 0).state = _
          rw [hdone.same.slots 0 Nat.one_pos]
          exact hdetail
        · show rp₁.walked ++ [rp₁.o] = _
          rw [hwalked₁, ho₁]

/-- So are those that follow a start. -/
theorem record_follows (htop : AtTop 0 rp)
    (hbuilder : (rp.slots 0).state = buildBodyIdle ∨ (rp.slots 0).state = buildBodyObjectType)
    (ho : rp.o = .init) :
    FollowsBy Stop.code 1 0 (builderLoop (bodyBody cb) 0) rp bb (Stopped rp) (readRecord cb rp.walked bb) :=
  typed_follows cb htop hbuilder ho fun _ _ _ htop₁ hdetail => records_follow cb htop₁ hdetail

end Records

end KjRedis.Rdb
