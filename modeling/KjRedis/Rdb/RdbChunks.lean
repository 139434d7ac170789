import KjRedis.Rdb.Suspension

/-! However its input is cut, the RDB parser hands out the same objects. -/
namespace KjRedis.Rdb

open Resumption

/-- What the parser shows of itself. -/
structure SameWalk (rp rp' : RdbParser) : Prop where
  walked : rp.walked = rp'.walked
  state : rp.state = rp'.state
  parsed : rp.parsed = rp'.parsed

section Procedures

variable (cb : List RdbObject → Bool) {rp rp' : RdbParser} {bb rest : List UInt8} {code : Rc}

theorem lawful_buildHeader : LawfulAt 0 (ofStep buildHeader) := by
  apply lawful_read
    (fun _ bb => if bb.length < 9 then none else some (if bb.take 5 = magicStr then 9 else 0, bb.take 9))
    (fun n bytes rp => if bytes.take 5 = magicStr then
      (.over, { rp with version := atoi (bytes.drop 5) }.calcCrc n) else (.invalidMagicString, rp))
  · intro rp bb n v h
    dsimp only at h ⊢
    split at h
    · cases h
    · next hlen =>
      cases h
      refine ⟨by split <;> omega, fun more => ?_⟩
      rw [if_neg (by rw [List.length_append]; omega), List.take_append_of_le_length (by omega),
        List.take_append_of_le_length (by omega)]
  · intro n bytes rp
    split <;> exact Rc.noConfusion
  · intro n bytes rp
    split
    · refine Kept.trans ?_ (kept_calcCrc n)
      exact ⟨⟨rfl, fun _ => rfl, fun _ => rfl, fun _ _ => rfl⟩, rfl, fun _ => rfl⟩
    · exact Kept.refl _ _
  · intro rp bb
    simp only [buildHeader]
    split
    · rfl
    · dsimp only
      rw [List.take_take, List.drop_take, show min 5 9 = 5 from rfl]
      by_cases hmagic : bb.take 5 = magicStr
      · rw [if_neg (not_not.2 hmagic), if_pos hmagic, if_pos hmagic]
      · rw [if_pos hmagic, if_neg hmagic, if_neg hmagic, List.drop_zero]

theorem lawful_thenParse {p : Builder} (h : LawfulAt 0 p) (next : ParseRdb) :
    Lawful Rc.premature (Stacked 0) (fun _ _ => True) (Frame 0) (andThen p (thenParse next)) := by
  apply h.andThen
  · exact fun _ => rfl
  · intro rc rp hrc
    simp only [thenParse]
    split <;> exact hrc
  · intro rc rp hrp
    simp only [thenParse]
    split
    · exact ⟨hrp.room, hrp.depths⟩
    · exact hrp
  · exact fun _ _ _ _ _ => trivial

theorem lawful_objectRound :
    Lawful Rc.premature (Stacked 0) (fun _ _ => True) (Frame 0) (objectRound cb) := by
  apply Lawful.dispatch
  · intro rp
    split
    · exact lawful_thenParse lawful_buildHeader _
    · exact lawful_thenParse lawful_buildHeader _
    · exact lawful_thenParse (lawful_buildBody cb) _
    · exact lawful_thenParse (lawful_fail Rc.noConfusion) _
    · exact (lawful_fail (k := 0) Rc.noConfusion).relax fun _ _ _ => trivial
  · intro rp rp' _ h
    rw [h.state]

/-- Asking before the first round or after it is the same. -/
theorem runs_rdbParseObjectOnce {out : Rc × RdbParser × List UInt8} :
    Runs (rdbParseObjectOnce cb) rp bb out ↔
      Runs (loop (fun rc rp => rp.state ≠ .over ∧ (rc = .again ∨ rc = .over)) (objectRound cb))
        rp bb out := by
  rw [rdbParseObjectOnce, runs_dispatch]
  by_cases hover : rp.state = .over
  · have hround : ∀ out, Runs (objectRound cb) rp bb out ↔ fail .again rp bb = out := by
      intro out
      rw [objectRound, runs_dispatch, hover]
      exact runs_ofStep
    rw [if_pos hover, runs_loop, runs_ofStep]
    constructor
    · intro h
      refine ⟨.again, rp, bb, (hround _).2 rfl, ?_⟩
      simp only [hover, ne_eq, not_true_eq_false, false_and, decide_false, Bool.false_eq_true, if_false]
      exact h
    · rintro ⟨code, rp', rest, hrun, hend⟩
      cases (hround _).1 hrun
      simp only [hover, ne_eq, not_true_eq_false, false_and, decide_false, Bool.false_eq_true,
        if_false] at hend
      exact hend
  · rw [if_neg hover]

theorem lawful_rdbParseObjectOnce :
    Lawful Rc.premature (Stacked 0) (fun _ _ => True) (fun _ _ => True) (rdbParseObjectOnce cb) := by
  refine Lawful.congr ?_ fun _ _ _ => runs_rdbParseObjectOnce cb
  exact (lawful_objectRound cb).loop (fun _ => by simp) fun _ _ _ _ _ => trivial

theorem lawful_rdbParseDumpedDataOnce :
    Lawful Rc.premature (Stacked 0) (Frame 0) (Frame 0) (rdbParseDumpedDataOnce cb) := by
  apply Lawful.dispatch
  · intro rp
    split
    · exact lawful_fail Rc.noConfusion
    · exact (lawful_buildDumpedData cb).loop (fun _ => by simp) fun _ _ _ h h' => h.trans h'
  · intro rp rp' _ h
    rw [h.state]

theorem runs_of_over (hover : rp.state = .over) :
    Runs (rdbParseObjectOnce cb) rp bb (.again, rp, bb) ∧
      Runs (rdbParseDumpedDataOnce cb) rp bb (.again, rp, bb) := by
  constructor
  · rw [rdbParseObjectOnce, runs_dispatch, if_pos hover]
    exact runs_ofStep.2 rfl
  · rw [rdbParseDumpedDataOnce, runs_dispatch, if_pos hover]
    exact runs_ofStep.2 rfl

theorem over_of_object (hrun : Runs (rdbParseObjectOnce cb) rp bb (code, rp', rest))
    (hcode : code = .over ∨ code = .again) : rp'.state = .over := by
  have hstop := loop_stopped ((runs_rdbParseObjectOnce cb).1 hrun)
  by_contra hne
  simp only [ne_eq, hne, not_false_eq_true, hcode.symm, and_self, decide_true, reduceCtorEq] at hstop

theorem over_of_dumpedData (hrun : Runs (rdbParseDumpedDataOnce cb) rp bb (code, rp', rest))
    (hcode : code = .over ∨ code = .again) : rp'.state = .over := by
  rw [rdbParseDumpedDataOnce, runs_dispatch] at hrun
  by_cases hover : rp.state = .over
  · rw [if_pos hover, runs_ofStep] at hrun
    cases hrun
    exact hover
  · rw [if_neg hover] at hrun
    have hstop := loop_stopped hrun
    by_contra hne
    rcases hcode with rfl | rfl <;> simp [hne] at hstop

end Procedures

theorem stacked_createRdbParser : Stacked 0 createRdbParser :=
  ⟨Nat.le_refl 0, fun _ hi => absurd hi (Nat.not_lt_zero _)⟩

/-- The codes of a parser that has met no error. -/
def goesWell (code : Rc) : Prop := code = .over ∨ code = .again ∨ code = .premature

/-- Any cutting of the input against none. -/
theorem feeds_of_uncut {once : Builder} {Any Wait : RdbParser → RdbParser → Prop}
    (hlaw : Lawful Rc.premature (Stacked 0) Any Wait once)
    (hidle : ∀ rp bb, rp.state = .over → Runs once rp bb (.again, rp, bb))
    (hover : ∀ bb code rp rest, Runs once createRdbParser bb (code, rp, rest) →
      code = .over ∨ code = .again → rp.state = .over)
    (hnil : ∃ rp, Runs once createRdbParser [] (.premature, rp, []) ∧ SameWalk createRdbParser rp)
    {s : List UInt8} {code : Rc} {rp : RdbParser} {rest : List UInt8}
    (hrun : Runs once createRdbParser s (code, rp, rest)) (hcode : goesWell code)
    {chunks : List (List UInt8)} (hcut : chunks.flatten = s) :
    ∃ codes rp' rest', Feeds once createRdbParser [] chunks codes rp' rest' ∧
      (∀ c ∈ codes, goesWell c) ∧ SameWalk rp' rp := by
  obtain rfl := hcut
  cases chunks with
  | nil =>
    obtain ⟨rp', hrun', hsame⟩ := hnil
    have heq := hrun.unique hrun'
    obtain ⟨-, hend⟩ := Prod.mk.inj heq
    obtain ⟨rfl, -⟩ := Prod.mk.inj hend
    exact ⟨[], createRdbParser, [], Feeds.nil _ _, fun _ h => absurd h List.not_mem_nil, hsame⟩
  | cons chunk chunks =>
    have hdone : code ≠ .premature → ∀ input, Runs once rp input (.again, rp, input) := by
      intro hne input
      refine hidle rp input (hover _ _ _ _ hrun ?_)
      rcases hcode with h | h | h
      · exact Or.inl h
      · exact Or.inr h
      · exact absurd h hne
    have hwhole : Runs once createRdbParser ([] ++ (chunk :: chunks).flatten) (code, rp, rest) := hrun
    obtain ⟨codes, hfeeds, hcodes⟩ :=
      hlaw.feeds stacked_createRdbParser (List.cons_ne_nil chunk chunks) hwhole hdone
    refine ⟨codes, rp, rest, hfeeds, fun c hc => ?_, rfl, rfl, rfl⟩
    rcases hcodes c hc with rfl | rfl | rfl
    · exact Or.inr (Or.inr rfl)
    · exact hcode
    · exact Or.inr (Or.inl rfl)

/-- Two cuttings of one input against each other. A run that ends has fuel enough. -/
theorem once_chunks (cb : List RdbObject → Bool) {once : Builder}
    (honce : once = rdbParseObjectOnce cb ∨ once = rdbParseDumpedDataOnce cb) {s : List UInt8}
    {code : Rc} {rp : RdbParser} {rest : List UInt8}
    (hrun : Runs once createRdbParser s (code, rp, rest)) (hcode : goesWell code)
    {chunks chunks' : List (List UInt8)} (hcut : chunks.flatten = s) (hcut' : chunks'.flatten = s) :
    ∃ codes rp₁ rest₁ codes' rp₂ rest₂,
      Feeds once createRdbParser [] chunks codes rp₁ rest₁ ∧
      Feeds once createRdbParser [] chunks' codes' rp₂ rest₂ ∧
      (∀ c ∈ codes ++ codes', goesWell c) ∧ SameWalk rp₁ rp₂ := by
  have hcuts : ∀ {chunks : List (List UInt8)}, chunks.flatten = s →
      ∃ codes rp' rest', Feeds once createRdbParser [] chunks codes rp' rest' ∧
        (∀ c ∈ codes, goesWell c) ∧ SameWalk rp' rp := by
    intro chunks hcut
    rcases honce with rfl | rfl
    · refine feeds_of_uncut (lawful_rdbParseObjectOnce cb) (fun _ _ h => (runs_of_over cb h).1)
        (fun _ _ _ _ => over_of_object cb) ?_ hrun hcode hcut
      exact ⟨createRdbParser, ⟨2, rfl⟩, rfl, rfl, rfl⟩
    · refine feeds_of_uncut (lawful_rdbParseDumpedDataOnce cb) (fun _ _ h => (runs_of_over cb h).2)
        (fun _ _ _ _ => over_of_dumpedData cb) ?_ hrun hcode hcut
      exact ⟨_, ⟨3, rfl⟩, rfl, rfl, rfl⟩
  obtain ⟨codes, rp₁, rest₁, hfeeds, hcodes, hsame⟩ := hcuts hcut
  obtain ⟨codes', rp₂, rest₂, hfeeds', hcodes', hsame'⟩ := hcuts hcut'
  refine ⟨codes, rp₁, rest₁, codes', rp₂, rest₂, hfeeds, hfeeds', ?_, ?_⟩
  · intro c hc
    exact (List.mem_append.1 hc).elim (hcodes c) (hcodes' c)
  · exact ⟨hsame.walked.trans hsame'.walked.symm, hsame.state.trans hsame'.state.symm,
      hsame.parsed.trans hsame'.parsed.symm⟩

/-- A file with a database selector and a hash of one pair, cut inside the header and inside the
hash, against the file read byte by byte. -/
def hashFile : List UInt8 :=
  [82, 69, 68, 73, 83, 48, 48, 48, 54, 254, 3, 4, 1, 72, 1, 1, 97, 192, 5, 255]

theorem once_chunks_hashFile : ∃ codes rp₁ rest₁ codes' rp₂ rest₂,
    Feeds (rdbParseObjectOnce fun _ => true) createRdbParser []
      [hashFile.take 4, hashFile.drop 4 |>.take 13, hashFile.drop 17] codes rp₁ rest₁ ∧
    Feeds (rdbParseObjectOnce fun _ => true) createRdbParser [] (hashFile.map fun b => [b])
      codes' rp₂ rest₂ ∧
    (∀ c ∈ codes ++ codes', goesWell c) ∧ SameWalk rp₁ rp₂ := by
  have hover : ((rdbParseObjectOnce fun _ => true).run 20 createRdbParser hashFile).map Prod.fst =
      some .over := by decide +kernel
  obtain ⟨⟨code, rp, rest⟩, hrun, rfl⟩ := Option.map_eq_some_iff.1 hover
  exact once_chunks (fun _ => true) (Or.inl rfl) ⟨20, hrun⟩ (Or.inl rfl) rfl rfl

end KjRedis.Rdb
