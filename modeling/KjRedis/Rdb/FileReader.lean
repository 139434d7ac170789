import KjRedis.Rdb.BodyReader
import KjRedis.Rdb.RdbChunks

/-! `rdb_parse_object_once` follows the reader of files, over any number of calls. -/
namespace KjRedis.Rdb

open Resumption

section Calls

variable (cb : List RdbObject → Bool) {rp rp' : RdbParser} {bb bb' : List UInt8}
  {out : Rc × RdbParser × List UInt8}

theorem runs_bodyRound (hstate : rp.state = .body) :
    Runs (objectRound cb) rp bb out ↔ Runs (andThen (buildBody cb) (thenParse .footer)) rp bb out := by
  rw [objectRound, runs_dispatch, hstate]

/-- Where the builder of the body does the same, the parser does. -/
theorem objectOnce_congr (hstate : rp.state = .body) (hstate' : rp'.state = .body)
    (hbody : ∀ out, Runs (buildBody cb) rp bb out ↔ Runs (buildBody cb) rp' bb' out) :
    Runs (rdbParseObjectOnce cb) rp bb out ↔ Runs (rdbParseObjectOnce cb) rp' bb' out := by
  rw [runs_rdbParseObjectOnce, runs_rdbParseObjectOnce]
  apply runs_loop_congr
  rintro ⟨rc, t, rest⟩
  rw [runs_bodyRound cb hstate, runs_bodyRound cb hstate', runs_andThen, runs_andThen]
  exact exists_congr fun _ => exists_congr fun _ => and_congr_left' (hbody _)

/-- A call that ends with the round of the body. -/
theorem objectOnce_body {rc : Rc} {rest : List UInt8} (hstate : rp.state = .body)
    (hbody : Runs (buildBody cb) rp bb (rc, rp', rest)) (hrc : rc ≠ .over ∧ rc ≠ .again) :
    Runs (rdbParseObjectOnce cb) rp bb (rc, rp', rest) := by
  rw [runs_rdbParseObjectOnce]
  apply Runs.last
  · rw [runs_bodyRound cb hstate]
    exact runs_andThen.2 ⟨rc, rp', hbody, if_neg hrc.1⟩
  · simp [hrc.1, hrc.2]

/-- And one that ends with the file. -/
theorem objectOnce_over {rest : List UInt8} (hstate : rp.state = .body)
    (hbody : Runs (buildBody cb) rp bb (.over, rp', rest)) :
    Runs (rdbParseObjectOnce cb) rp bb (.over, { rp' with state := .over }, rest) := by
  rw [runs_rdbParseObjectOnce]
  have hfirst : Runs (objectRound cb) rp bb (.over, { rp' with state := .footer }, rest) := by
    rw [runs_bodyRound cb hstate]
    exact runs_andThen.2 ⟨.over, rp', hbody, rfl⟩
  have hsecond : Runs (objectRound cb) { rp' with state := .footer } rest
      (.over, { rp' with state := .over }, rest) := by
    rw [objectRound, runs_dispatch]
    exact runs_andThen.2 ⟨.over, { rp' with state := .footer }, runs_ofStep.2 rfl, rfl⟩
  exact hfirst.more rfl (hsecond.last rfl)

/-- The call does what the reader does. An error is met again by the next one. -/
def Answers (rp : RdbParser) (bb : List UInt8) (Done : Stop → RdbParser → Prop) : Read Stop → Prop
  | .done stop rest => ∃ rp', Runs (rdbParseObjectOnce cb) rp bb (stop.code, rp', rest) ∧ Done stop rp'
  | .more left => ∃ rp', Runs (rdbParseObjectOnce cb) rp bb (.premature, rp', left) ∧ left.length < 9
  | .fail rc left => rc.isError = true ∧ ∃ rp', Runs (rdbParseObjectOnce cb) rp bb (rc, rp', left) ∧
      ∀ more, Runs (rdbParseObjectOnce cb) rp' (left ++ more) (rc, rp', left ++ more)
  | .stray => ∃ rp' left, Runs (rdbParseObjectOnce cb) rp bb (.stray, rp', left)
  | .endless => ∀ out, ¬ Runs (rdbParseObjectOnce cb) rp bb out

theorem Answers.from {Done : Stop → RdbParser → Prop} {r : Read Stop} (h : Answers cb rp' bb' Done r)
    (hruns : ∀ out, Runs (rdbParseObjectOnce cb) rp bb out ↔ Runs (rdbParseObjectOnce cb) rp' bb' out) :
    Answers cb rp bb Done r := by
  cases r with
  | done stop rest =>
    obtain ⟨t, hrun, hdone⟩ := h
    exact ⟨t, (hruns _).2 hrun, hdone⟩
  | more left =>
    obtain ⟨t, hrun, hleft⟩ := h
    exact ⟨t, (hruns _).2 hrun, hleft⟩
  | fail rc left =>
    obtain ⟨herror, t, hrun, hagain⟩ := h
    exact ⟨herror, t, (hruns _).2 hrun, hagain⟩
  | stray =>
    obtain ⟨t, left, hrun⟩ := h
    exact ⟨t, left, (hruns _).2 hrun⟩
  | endless => exact fun out hrun => h out ((hruns out).1 hrun)

/-- What the reader has found, from what the call returns. -/
theorem Answers.of_runs {Done : Stop → RdbParser → Prop} {r : Read Stop} {code : Rc} {left : List UInt8}
    (h : Answers cb rp bb Done r) (hrun : Runs (rdbParseObjectOnce cb) rp bb (code, rp', left)) :
    (∃ stop, r = .done stop left ∧ code = stop.code ∧ Done stop rp') ∨
      (r = .more left ∧ code = .premature) ∨
      (r = .fail code left ∧ code.isError = true ∧
        ∀ more, Runs (rdbParseObjectOnce cb) rp' (left ++ more) (code, rp', left ++ more)) ∨
      (r = .stray ∧ code = .stray) := by
  cases r with
  | done stop rest =>
    obtain ⟨t, hrun', hdone⟩ := h
    cases hrun.unique hrun'
    exact Or.inl ⟨stop, rfl, rfl, hdone⟩
  | more rest =>
    obtain ⟨t, hrun', -⟩ := h
    cases hrun.unique hrun'
    exact Or.inr (Or.inl ⟨rfl, rfl⟩)
  | fail rc rest =>
    obtain ⟨herror, t, hrun', hagain⟩ := h
    cases hrun.unique hrun'
    exact Or.inr (Or.inr (Or.inl ⟨rfl, herror, hagain⟩))
  | stray =>
    obtain ⟨t, rest, hrun'⟩ := h
    cases hrun.unique hrun'
    exact Or.inr (Or.inr (Or.inr ⟨rfl, rfl⟩))
  | endless => exact absurd hrun (h _)

/-- The parser is where reading a file starts: at the header, or within the body. -/
def Origin.Holds (g : Origin) (rp : RdbParser) : Prop :=
  g.Stands rp ∧ rp.state = match g with
    | start _ => .idle
    | refused _ _ => .body

/-- What a call leaves that is over or aborted. -/
def Left : Stop → RdbParser → Prop
  | .finished walked, rp => rp.state = .over ∧ rp.walked = walked
  | .abort walked o, rp => (Origin.refused walked o).Holds rp

theorem body_answers {rp₁ : RdbParser} {r : Read Stop} (hstate : rp.state = .body)
    (halloc : rp.stackAllocObjectBuilder 0 = (0, rp₁)) (hstate₁ : rp₁.state = .body)
    (h : FollowsBy Stop.code 1 0 (builderLoop (bodyBody cb) 0) rp₁ bb (Stopped rp₁) r) :
    Answers cb rp bb Left r := by
  have hend : ∀ {rc t left}, rc ≠ .over → rc ≠ .again →
      Runs (builderLoop (bodyBody cb) 0) rp₁ bb (rc, t, left) →
      Runs (rdbParseObjectOnce cb) rp bb (rc, t, left) := by
    intro rc t left hover hagain hrun
    apply objectOnce_body cb hstate ?_ ⟨hover, hagain⟩
    rw [buildBody, runs_obLoop halloc]
    exact runs_andThen.2 ⟨rc, t, hrun, if_neg hover⟩
  cases r with
  | done stop rest =>
    obtain ⟨t, hrun, -, hdone⟩ := h
    cases stop with
    | finished walked =>
      have hbody : Runs (buildBody cb) rp bb (.over, t.stackPopObjectBuilder, rest) := by
        rw [buildBody, runs_obLoop halloc]
        exact runs_andThen.2 ⟨.over, t, hrun, if_pos rfl⟩
      exact ⟨_, objectOnce_over cb hstate hbody, rfl, hdone.1⟩
    | abort walked o =>
      exact ⟨t, hend Rc.noConfusion Rc.noConfusion hrun, hdone.1, hdone.2.trans hstate₁⟩
  | more left =>
    obtain ⟨t, hrun, hleft⟩ := h
    exact ⟨t, hend Rc.noConfusion Rc.noConfusion hrun, hleft⟩
  | fail rc left =>
    obtain ⟨t, hrun, hsticks⟩ := h
    have hover : rc ≠ .over := by
      rintro rfl
      cases hsticks.error
    have hagain : rc ≠ .again := by
      rintro rfl
      cases hsticks.error
    refine ⟨hsticks.error, t, hend hover hagain hrun, fun more => ?_⟩
    apply objectOnce_body cb (hsticks.frame.state.trans hstate₁) ?_ ⟨hover, hagain⟩
    rw [buildBody, runs_obLoop (stackAllocObjectBuilder_of_lt (by decide) hsticks.stacked.room)]
    exact runs_andThen.2 ⟨rc, t, hsticks.again more, if_neg hover⟩
  | stray =>
    obtain ⟨t, left, hrun⟩ := h
    exact ⟨t, left, hend Rc.noConfusion Rc.noConfusion hrun⟩
  | endless =>
    rintro ⟨rc, t, left⟩ hrun
    rw [runs_rdbParseObjectOnce] at hrun
    obtain ⟨rc₁, t₁, left₁, hround, -⟩ := runs_loop.1 hrun
    rw [runs_bodyRound cb hstate] at hround
    obtain ⟨rc₂, t₂, hbody, -⟩ := runs_andThen.1 hround
    rw [buildBody, runs_obLoop halloc] at hbody
    obtain ⟨rc₃, t₃, hloop, -⟩ := runs_andThen.1 hbody
    exact h _ hloop

theorem runs_headerRound (hstate : rp.state = .idle) :
    Runs (objectRound cb) rp bb out ↔ Runs (andThen (ofStep buildHeader) (thenParse .body)) rp bb out := by
  rw [objectRound, runs_dispatch, hstate]

theorem awaits_answers (hawaits : Awaits rp) (hstate : rp.state = .body) :
    Answers cb rp bb Left (readRecord cb rp.walked bb) := by
  obtain ⟨rp₁, hentered⟩ := hawaits.enter
  have hfollows := @record_follows cb rp₁ bb hentered.top hentered.builder
    (hentered.same.o.trans hawaits.object)
  rw [hentered.same.walked] at hfollows
  exact body_answers cb hstate hentered.alloc (hentered.same.state.trans hstate) hfollows

theorem start_answers (hawaits : Awaits rp) (hstate : rp.state = .idle) :
    Answers cb rp bb Left (readFile cb rp.walked bb) := by
  have hround : ∀ {bb rc t left}, buildHeader rp bb = (rc, t, left) → rc ≠ .over → rc ≠ .again →
      Runs (rdbParseObjectOnce cb) rp bb (rc, t, left) := by
    intro bb rc t left hheader hover hagain
    rw [runs_rdbParseObjectOnce]
    apply Runs.last
    · rw [runs_headerRound cb hstate]
      exact runs_andThen.2 ⟨rc, t, runs_ofStep.2 hheader, if_neg hover⟩
    · simp [hover, hagain]
  rw [readFile, readHeader]
  by_cases hshort : bb.length < 9
  · rw [if_pos hshort]
    exact ⟨rp, hround (if_pos hshort) Rc.noConfusion Rc.noConfusion, hshort⟩
  rw [if_neg hshort]
  by_cases hmagic : bb.take 5 ≠ magicStr
  · rw [if_pos hmagic]
    refine ⟨rfl, rp, hround ?_ Rc.noConfusion Rc.noConfusion, fun more => ?_⟩
    · rw [buildHeader, if_neg hshort, if_pos hmagic]
    · apply hround ?_ Rc.noConfusion Rc.noConfusion
      rw [buildHeader, if_neg (by rw [List.length_append]; omega),
        List.take_append_of_le_length (by omega), if_pos hmagic]
  · rw [if_neg hmagic]
    set rp₂ := ({ { rp with version := atoi ((bb.drop 5).take 4) }.calcCrc 9 with state := .body } :
      RdbParser) with hrp₂
    have hheader : Runs (objectRound cb) rp bb (.over, rp₂, bb.drop 9) := by
      rw [runs_headerRound cb hstate]
      refine runs_andThen.2 ⟨.over, { rp with version := atoi ((bb.drop 5).take 4) }.calcCrc 9,
        runs_ofStep.2 ?_, rfl⟩
      rw [buildHeader, if_neg hshort, if_neg hmagic]
    have hawaits₂ : Awaits rp₂ := by
      refine ⟨hawaits.object, hawaits.builder.imp id fun h => ?_⟩
      exact ⟨⟨h.1.nelts, h.1.depths⟩, h.2⟩
    refine (awaits_answers cb hawaits₂ rfl).from cb fun out => ?_
    rw [runs_rdbParseObjectOnce, runs_rdbParseObjectOnce]
    exact hheader.more_iff rfl

theorem refused_answers (htop : AtTop 0 rp) (hdetail : (rp.slots 0).state = buildBodyObjectDetail)
    (hstate : rp.state = .body) : Answers cb rp bb Left (readRecords cb rp.walked rp.o bb) :=
  body_answers cb hstate htop.enter hstate (records_follow cb htop hdetail)

theorem origin_answers {g : Origin} (h : g.Holds rp) : Answers cb rp bb Left (g.readFile cb bb) := by
  cases g with
  | start walked =>
    obtain ⟨⟨hawaits, rfl⟩, hstate⟩ := h
    exact start_answers cb hawaits hstate
  | refused walked o =>
    obtain ⟨⟨htop, hdetail, rfl, rfl⟩, hstate⟩ := h
    exact refused_answers cb htop hdetail hstate

end Calls

/-- How far reading has come over the calls: the bytes since an origin that it has not got beyond, or
nothing is read any more. -/
inductive Reading
  | within (g : Origin) (bytes : List UInt8)
  | ended

namespace Reading

variable (cb : List RdbObject → Bool) {chunk left left' : List UInt8} {rp rp' : RdbParser} {code : Rc}

def next : Reading → List UInt8 → Reading
  | within g bytes, chunk =>
    match g.readFile cb (bytes ++ chunk) with
    | .more _ => within g (bytes ++ chunk)
    | .done (.abort walked o) rest => within (.refused walked o) rest
    | _ => ended
  | ended, _ => ended

def after (reading : Reading) (chunks : List (List UInt8)) : Reading := chunks.foldl (next cb) reading

/-- What is to be read next comes neither to a container of no elements nor to something at which a
builder leaves its memory. -/
def Sound : Reading → List UInt8 → Prop
  | within g bytes, chunk =>
    match g.readFile cb (bytes ++ chunk) with
    | .stray => False
    | .endless => False
    | _ => True
  | ended, _ => True

/-- The parser is as far, with `left` in its buffer. -/
def At : Reading → RdbParser → List UInt8 → Prop
  | within g bytes, rp, left => ∃ rp₀, g.Holds rp₀ ∧ ∀ more out,
      Runs (rdbParseObjectOnce cb) rp (left ++ more) out ↔
        Runs (rdbParseObjectOnce cb) rp₀ (bytes ++ more) out
  | ended, rp, left => ∃ rc, (rc = .again ∨ rc.isError = true) ∧ ∀ more,
      Runs (rdbParseObjectOnce cb) rp (left ++ more) (rc, rp, left ++ more)

/-- The call and the reader go on together. -/
theorem At.next {reading : Reading} (h : At cb reading rp left)
    (hrun : Runs (rdbParseObjectOnce cb) rp (left ++ chunk) (code, rp', left')) (hcode : code ≠ .stray) :
    At cb (reading.next cb chunk) rp' left' := by
  cases reading with
  | ended =>
    obtain ⟨rc, hrc, hagain⟩ := h
    cases hrun.unique (hagain chunk)
    refine ⟨code, hrc, fun more => ?_⟩
    rw [List.append_assoc]
    exact hagain _
  | within g bytes =>
    obtain ⟨rp₀, hg, hruns⟩ := h
    have hrun₀ := (hruns chunk _).1 hrun
    rw [Reading.next]
    rcases (origin_answers cb hg).of_runs cb hrun₀ with ⟨stop, hread, -, hleft⟩ | ⟨hread, rfl⟩ |
      ⟨hread, herror, hagain⟩ | ⟨-, hstray⟩
    · rw [hread]
      cases stop with
      | finished walked => exact ⟨.again, Or.inl rfl, fun more => (runs_of_over cb hleft.1).1⟩
      | abort walked o => exact ⟨rp', hleft, fun _ _ => Iff.rfl⟩
    · rw [hread]
      refine ⟨rp₀, hg, fun more out => ?_⟩
      exact ((lawful_rdbParseObjectOnce cb).resume hg.1.stacked hrun₀ more out).symm
    · rw [hread]
      exact ⟨code, Or.inr herror, hagain⟩
    · exact absurd hstray hcode

theorem At.after {reading : Reading} {chunks : List (List UInt8)} {codes : List Rc}
    (h : At cb reading rp left)
    (hfeeds : Feeds (rdbParseObjectOnce cb) rp left chunks codes rp' left') (hcodes : Rc.stray ∉ codes) :
    At cb (reading.after cb chunks) rp' left' := by
  induction hfeeds generalizing reading with
  | nil s left => exact h
  | cons hrun hfeeds ih =>
    rw [List.mem_cons, not_or] at hcodes
    exact ih (h.next cb hrun (Ne.symm hcodes.1)) hcodes.2

end Reading

/-- A parser that has been created, or reset. -/
structure Fresh (rp : RdbParser) : Prop where
  state : rp.state = .idle
  nelts : rp.nelts = 0
  object : rp.o = .init

theorem fresh_createRdbParser : Fresh createRdbParser := ⟨rfl, rfl, rfl⟩

theorem Fresh.holds {rp : RdbParser} (h : Fresh rp) : (Origin.start rp.walked).Holds rp :=
  ⟨⟨⟨h.object, Or.inl h.nelts⟩, rfl⟩, h.state⟩

end KjRedis.Rdb
