import KjRedis.Reply.BuilderSpecs

/-! The array builder, which calls the others and itself: one element at a time, its
loop and its recursion go where the reader goes. -/
namespace KjRedis.Reply

open RedisReplyParser

variable {env : Envelope} {depth fuel : Nat} {rrp : RedisReplyParser} {r : RedisReply}
  {b : List UInt8}

private theorem ofNum_leading {kind : NumKind} {n : Int} :
    match Part.ofNum kind n with
    | .part p => p.leading = kind.leading ∧ p.started
    | .value v => v.leading = kind.leading
    | .wild => True := by
  cases kind with
  | int => rfl
  | bulkLen =>
    simp only [Part.ofNum, Part.bulkOfLen]
    split_ifs <;> simp [Part.leading, Part.started, Resp.leading, NumKind.leading]
  | arrayLen =>
    simp only [Part.ofNum, Part.arrayOfLen]
    split_ifs <;> simp [Part.leading, Part.started, Resp.leading, NumKind.leading]

theorem step_leading {p : Part} {c : UInt8} (hstarted : p.started) :
    match p.step env depth c with
    | .part p' => p'.leading = p.leading ∧ p'.started
    | .value v => v.leading = p.leading
    | .wild => True := by
  cases p with
  | type => simp [Part.started] at hstarted
  | badType => simp [Part.started] at hstarted
  | text isError acc gotCr =>
    simp only [Part.step, Part.stepText]
    split_ifs <;> simp [Part.leading, Part.started, Resp.leading]
  | num kind acc =>
    simp only [Part.step, Part.stepNum]
    by_cases hok : env.numOk kind (acc ++ [c])
    · rw [if_pos hok]
      cases redisReplyReadInteger (acc ++ [c]) with
      | none => exact ⟨rfl, rfl⟩
      | some vn => exact ofNum_leading
    · rw [if_neg hok]
      trivial
  | payload len acc =>
    simp only [Part.step, Part.stepPayload]
    split_ifs <;> simp [Part.leading, Part.started, Resp.leading]
  | badPayload len acc => exact ⟨rfl, rfl⟩
  | array len done cur =>
    simp only [Part.step]
    cases cur.step env (depth + 1) c with
    | part cur' => exact ⟨rfl, rfl⟩
    | value v =>
      simp only [Part.arrayNext]
      split_ifs <;> simp [Part.leading, Part.started, Resp.leading]
    | wild => trivial

theorem run_leading {p : Part} (hstarted : p.started) :
    match p.run env depth b with
    | .more q => q.leading = p.leading
    | .done v _ => v.leading = p.leading
    | .wild => True := by
  induction b generalizing p with
  | nil => rfl
  | cons c b ih =>
    have hstep := @step_leading env depth p c hstarted
    cases h : p.step env depth c with
    | part p' =>
      rw [h] at hstep
      rw [Part.run_cons_part h, ← hstep.1]
      exact ih hstep.2
    | value w =>
      rw [h] at hstep
      rw [Part.run_cons_value h]
      exact hstep
    | wild => rw [Part.run_cons_wild h]; trivial

theorem run_done_leading {p : Part} (hstarted : p.started) {v : Resp} {rest : List UInt8}
    (hrun : p.run env depth b = .done v rest) : v.leading = p.leading := by
  have := @run_leading env depth b p hstarted
  rwa [hrun] at this

theorem run_more_leading {p q : Part} (hstarted : p.started) (hrun : p.run env depth b = .more q) :
    q.leading = p.leading := by
  have := @run_leading env depth b p hstarted
  rwa [hrun] at this

theorem draft_type {p : Part} : p.draft.type = p.leading := by
  cases p <;> rfl

theorem Entry.type_eq {p : Part} (h : Entry rrp depth p r) : r.type = p.leading := by
  rcases h with ⟨-, -, rfl⟩ | ⟨-, rfl, -⟩
  · exact draft_type
  · rfl

theorem Entry.started {p : Part} (h : Entry rrp depth p r) : p.started := by
  rcases h with ⟨h, -, -⟩ | ⟨-, -, ⟨_, rfl, -⟩ | rfl | ⟨_, rfl, -⟩⟩
  · exact h
  · rfl
  · rfl
  · rfl

/-- What the array builder's recursive calls are owed, for parts and blocks of a size. -/
def ArraySpec (env : Envelope) (recArray : Nat → Step) (size : Nat) : Prop :=
  ∀ (depth : Nat) (p : Part) (rrp : RedisReplyParser) (r : RedisReply) (b : List UInt8),
    rrp.FirstStorage → (rrp.frame depth).depth = depth → p.leading = .array →
    Entry rrp (depth + 1) p r → p.Settled env b → p.run env (depth + 1) b ≠ .wild →
    p.height + b.length + 3 ≤ size →
    ∃ o, recArray (rrp.stackRrb.slot depth) rrp b r = some o ∧
      Outcome env (depth + 1) (depth + 1) p b rrp o

theorem rBuildIntval_outcome {acc : List UInt8} (hentry : Entry rrp depth (.num .int acc) r)
    (hwild : Part.run env depth (.num .int acc) b ≠ .wild) :
    ∃ o, rBuildIntval rrp b r = some o ∧ Outcome env depth depth (.num .int acc) b rrp o := by
  obtain ⟨rfl, hnelts, rfl⟩ : acc = [] ∧ rrp.stackRrb.nelts = depth ∧
      r = Part.draft (.num .int []) := by
    rcases hentry with ⟨-, ⟨rfl, h⟩, rfl⟩ | ⟨hn, rfl, ⟨_, h, -⟩ | h | ⟨_, h, -⟩⟩
    · exact ⟨rfl, h, rfl⟩
    · cases h
    · cases h
      exact ⟨rfl, hn, rfl⟩
    · cases h
      exact ⟨rfl, hn, rfl⟩
  have hheld : Held rrp depth (.num .int []) := ⟨rfl, hnelts⟩
  rw [rBuildIntval]
  cases hread : redisReplyReadInteger b with
  | none =>
    rw [rBuildInteger_none hread]
    exact ⟨_, rfl, num_premature hheld hread hwild _⟩
  | some vn =>
    obtain ⟨v, n⟩ := vn
    rw [rBuildInteger_some hread]
    refine ⟨_, rfl, ?_⟩
    have hline := run_num_line hread hwild
    simp only [Part.ofNum] at hline
    rw [Outcome, hline]
    exact ⟨rfl, ⟨rfl, rfl, rfl, rfl, rfl, fun _ _ => rfl⟩, hnelts, rfl, rfl⟩

theorem text_gotCr {isError : Bool} {acc : List UInt8} {gotCr : Bool}
    (hentry : Entry rrp depth (.text isError acc gotCr) r) : gotCr = false := by
  rcases hentry with ⟨-, h, -⟩ | ⟨-, -, ⟨_, h, -⟩ | h | ⟨_, h, -⟩⟩
  · exact h.1
  · cases h
    rfl
  · cases h
  · cases h

theorem buildByType_outcome {recArray : Nat → Step} {size : Nat} {p : Part}
    (henv : env.Shallow) (hrec : ArraySpec env recArray size) (hfs : rrp.FirstStorage)
    (hparent : (rrp.frame depth).depth = depth) (hentry : Entry rrp (depth + 1) p r)
    (hset : p.Settled env b) (hwild : p.run env (depth + 1) b ≠ .wild) (hfuel : 2 ≤ fuel)
    (hsize : p.height + b.length + 3 ≤ size) :
    ∃ o, buildByType recArray fuel (rrp.stackRrb.slot depth) rrp b r = some o ∧
      Outcome env (depth + 1) (depth + 1) p b rrp o := by
  have htype := hentry.type_eq
  rw [buildByType]
  cases hlead : p.leading with
  | unknown =>
    have := hentry.started
    cases p with
    | text isError acc gotCr => cases isError <;> simp [Part.leading, textLeading] at hlead
    | num kind acc => cases kind <;> simp [Part.leading, NumKind.leading] at hlead
    | type => simp [Part.started] at this
    | badType => simp [Part.started] at this
    | _ => simp [Part.leading] at hlead
  | integer =>
    simp only [htype, hlead]
    cases p with
    | num kind acc =>
      obtain rfl : kind = .int := by cases kind <;> simp [Part.leading, NumKind.leading] at hlead ⊢
      exact rBuildIntval_outcome hentry hwild
    | text isError acc gotCr => cases isError <;> simp [Part.leading, textLeading] at hlead
    | _ => simp [Part.leading] at hlead
  | bulkString =>
    simp only [htype, hlead]
    exact rBuildBulkString_outcome hfs hparent hlead hentry hwild hfuel
  | array =>
    simp only [htype, hlead]
    exact hrec depth p rrp r b hfs hparent hlead hentry hset hwild hsize
  | simpleString =>
    simp only [htype, hlead]
    cases p with
    | text isError acc gotCr =>
      obtain rfl := text_gotCr hentry
      exact rBuildSimpleString_outcome henv hfs hparent hentry hset hwild hfuel
    | num kind acc => cases kind <;> simp [Part.leading, NumKind.leading] at hlead
    | _ => simp [Part.leading] at hlead
  | errorString =>
    simp only [htype, hlead]
    cases p with
    | text isError acc gotCr =>
      obtain rfl := text_gotCr hentry
      exact rBuildSimpleString_outcome henv hfs hparent hentry hset hwild hfuel
    | num kind acc => cases kind <;> simp [Part.leading, NumKind.leading] at hlead
    | _ => simp [Part.leading] at hlead

/-- An array under construction, with the element being read, if any, as `tail`. -/
def arrayReply (len : Nat) (done : List Resp) (tail : List RedisReply) (elemtype : LeadingType) :
    RedisReply :=
  { RedisReply.init with
    type := .array, arrval := some (done.map Resp.render ++ tail), nalloc := len, elemtype }

/-- `__build_array_element` finds its element, or pushes it, and then builds it. -/
theorem buildArrayElement_eq {recArray : Nat → Step} {rb len : Nat} {done : List Resp}
    {elemtype : LeadingType} {tail : List RedisReply} {r2 : RedisReply}
    (harr : (rrp.builders rb).arridx = done.length) (hlt : done.length < len)
    (htail : (tail = [] ∧ r2 = { RedisReply.init with type := elemtype }) ∨ tail = [r2]) :
    buildArrayElement recArray fuel rb rrp b (arrayReply len done tail elemtype) =
      (buildByType recArray fuel rb rrp b r2).map fun o =>
        buildArrayElementEnd rb (arrayReply len done [o.r] elemtype) o := by
  have hget : (done.map Resp.render ++ [r2])[done.length]? = some r2 := by
    rw [List.getElem?_append_right (by simp), List.length_map, Nat.sub_self]
    rfl
  have hset : ∀ x, (done.map Resp.render ++ [r2]).set done.length x =
      done.map Resp.render ++ [x] := by
    intro x
    rw [List.set_append_right _ _ (by simp), List.length_map, Nat.sub_self]
    rfl
  have helems : (if (done.map Resp.render ++ tail).length ≤ done.length then
      done.map Resp.render ++ tail ++ [{ RedisReply.init with type := elemtype }]
      else done.map Resp.render ++ tail) = done.map Resp.render ++ [r2] := by
    rcases htail with ⟨rfl, rfl⟩ | rfl
    · rw [if_pos (by simp), List.append_nil]
    · rw [if_neg (by simp)]
  have hroom : ¬ ((done.map Resp.render ++ tail).length ≤ done.length ∧ len = 0) := by omega
  have hlast : min done.length ((done.map Resp.render ++ [r2]).length - 1) = done.length := by simp
  rw [buildArrayElement]
  simp only [arrayReply, harr, if_neg hroom, helems, hlast, hget, hset]
  cases buildByType recArray fuel rb rrp b r2 <;> rfl

/-- One round of the array builder on an element that is open. -/
def ElementOutcome (env : Envelope) (depth len : Nat) (done : List Resp) (cur : Part)
    (b : List UInt8) (rrp : RedisReplyParser) (o : Out) : Prop :=
  match cur.run env (depth + 1) b with
  | .more q =>
    o.rc = q.code ∧ Keeps depth rrp o.rrp ∧
      ∃ p', p'.started ∧ Held o.rrp depth (.array len done p') ∧
        o.r = Part.draft (.array len done p') ∧ p'.run env (depth + 1) o.bb = .more q ∧
        p'.Copied env o.bb
  | .done v rest =>
    o.bb = rest ∧ Keeps depth rrp o.rrp ∧
      match Part.arrayNext len (done ++ [v]) with
      | .part p => o.rc = .again ∧ Held o.rrp depth p ∧ o.r = p.draft
      | .value w => o.rc = .over ∧ o.rrp.stackRrb.nelts = depth + 1 ∧ o.r = w.render
      | .wild => True
  | .wild => True

theorem lastLeading_snoc (done : List Resp) (v : Resp) : lastLeading (done ++ [v]) = v.leading := by
  simp [lastLeading]

theorem elementEnd_outcome {len : Nat} {done : List Resp} {cur : Part} {o : Out}
    (hfs : rrp.FirstStorage) (hdepth : depth ≤ maxBuilder) (hat : rrp.At depth 3)
    (hlen : (rrp.frame depth).len = len) (harr : (rrp.frame depth).arridx = done.length)
    (hlt : done.length < len) (hstarted : cur.started)
    (hout : Outcome env (depth + 1) (depth + 1) cur b rrp o) :
    ElementOutcome env depth len done cur b rrp
      (buildArrayElementEnd (rrp.stackRrb.slot depth) (arrayReply len done [o.r] cur.leading) o) := by
  rw [Outcome] at hout
  rw [ElementOutcome]
  cases hrun : cur.run env (depth + 1) b with
  | wild => trivial
  | more q =>
    rw [hrun] at hout
    obtain ⟨hrc, hk, p', hp', hheld, hr, hrun', hset⟩ := hout
    have hown := hk.frame depth (by omega)
    rw [buildArrayElementEnd, if_neg (by rw [hrc]; exact q.code_ne.2)]
    refine ⟨hrc, hk.mono (by omega), p', hp', ?_, ?_, hrun', hset⟩
    · refine ⟨hdepth, ?_, by rw [hown]; exact hlen, by rw [hown]; exact harr, hlt, hheld⟩
      rw [if_pos hp', RedisReplyParser.At, hown]
      exact hat
    · have hlead : p'.leading = cur.leading :=
        (run_more_leading hp' hrun').symm.trans (run_more_leading hstarted hrun)
      simp only [arrayReply, Part.draft, hp', hr, hlead, if_true]
  | done v rest =>
    rw [hrun] at hout
    obtain ⟨hrc, hk, hnelts, hbb, hr⟩ := hout
    have hown := hk.frame depth (by omega)
    have hslot := hk.slot depth
    have hlead := run_done_leading hstarted hrun
    have hfs' := hk.firstStorage hfs
    have hb : o.rrp.builders (rrp.stackRrb.slot depth) = rrp.frame depth := by
      rw [← hslot]
      exact hown
    rw [buildArrayElementEnd, if_pos hrc]
    simp only [hb, hlen, harr, Part.arrayNext, List.length_append, List.length_singleton]
    by_cases hint : 2 ^ 31 ≤ done.length + 1 + 1
    · rw [if_pos hint, if_pos hint]
      exact ⟨hbb, hk.mono (by omega), trivial⟩
    · rw [if_neg hint, if_neg hint]
      by_cases hnext : done.length + 1 + 1 ≤ len
      · rw [if_pos hnext, if_pos hnext, ← hslot]
        refine ⟨hbb, (hk.mono (by omega)).trans (write_keeps hfs' (Nat.le_refl depth) _), rfl, ?_, ?_⟩
        · set f : RedisReplyBuilder :=
            { depth := (rrp.frame depth).depth, state := 2, storeLen := (rrp.frame depth).storeLen
              len, arridx := done.length + 1 } with hf
          have hself := write_frame hfs' depth depth f
          rw [if_pos rfl] at hself
          refine ⟨hdepth, ⟨?_, ?_⟩, ?_, ?_, by rw [List.length_append]; exact hnext, hnelts⟩
          · rw [hself]
            exact hat.1
          · rw [hself]
            rfl
          · rw [hself]
          · rw [hself, List.length_append, List.length_singleton]
        · simp [arrayReply, Part.draft, Part.started, lastLeading_snoc, hr, hlead]
      · rw [if_neg hnext, if_neg hnext, ← hslot]
        refine ⟨hbb, (hk.mono (by omega)).trans (write_keeps hfs' (Nat.le_refl depth) _), hrc, hnelts, ?_⟩
        have hfull : len = done.length + 1 := by omega
        simp [arrayReply, Resp.render, Resp.renderAll_eq_map, lastLeading_snoc, hr, hlead, hfull]

def arrayStep (recArray : Nat → Step) (fuel subRrb : Nat) : Step := fun rrp bb r =>
  match (rrp.builders subRrb).state with
  | 0 | 1 => buildArrayLen subRrb rrp bb r
  | 2 => buildArrayElementType subRrb rrp bb r
  | 3 => buildArrayElement recArray fuel subRrb rrp bb r
  | _ => some { rc := .invalidRrbState, rrp, bb, r }

section

variable {rb : Nat} {recArray : Nat → Step}

theorem arrayStep_len (h : (rrp.builders rb).state = 0) :
    arrayStep recArray fuel rb rrp = buildArrayLen rb rrp := by
  funext b r
  rw [arrayStep, h]
  rfl

theorem arrayStep_type (h : (rrp.builders rb).state = 2) :
    arrayStep recArray fuel rb rrp = buildArrayElementType rb rrp := by
  funext b r
  rw [arrayStep, h]
  rfl

theorem rBuildArray_succ (b : Committed) (r : RedisReply) :
    rBuildArray (fuel + 1) rb rrp b r =
      withBuilder fuel ((rrp.builders rb).depth + 1) (arrayStep (rBuildArray fuel) fuel) rrp b r := rfl

theorem arrayStep_element (h : (rrp.builders rb).state = 3) :
    arrayStep recArray fuel rb rrp = buildArrayElement recArray fuel rb rrp := by
  funext b r
  rw [arrayStep, h]
  rfl

end

/-- What `rounds` rounds of the array builder's loop make of a part it holds. -/
private def LoopSpec (env : Envelope) (recArray : Nat → Step) (fuel size depth rounds : Nat) : Prop :=
  ∀ (p : Part) (rrp : RedisReplyParser) (b : List UInt8), rrp.FirstStorage → Held rrp depth p →
    p.leading = .array → p.Settled env b → p.run env depth b ≠ .wild →
    p.height + b.length + 2 ≤ size → b.length + 1 ≤ rounds →
    ∃ o, rrbLoop (arrayStep recArray fuel (rrp.stackRrb.slot depth)) rounds rrp b p.draft = some o ∧
      Outcome env depth (depth + 1) p b rrp o

private theorem element_round {recArray : Nat → Step} {size rounds len : Nat} {done : List Resp}
    {cur : Part} {tail : List RedisReply} {r2 : RedisReply} (henv : env.Shallow)
    (hrec : ArraySpec env recArray size) (hfuel : 2 ≤ fuel)
    (hrest : LoopSpec env recArray fuel size depth rounds) (hfs : rrp.FirstStorage)
    (hdepth : depth ≤ maxBuilder) (hat : rrp.At depth 3) (hlen : (rrp.frame depth).len = len)
    (harr : (rrp.frame depth).arridx = done.length) (hlt : done.length < len)
    (htail : (tail = [] ∧ r2 = { RedisReply.init with type := cur.leading }) ∨ tail = [r2])
    (hentry : Entry rrp (depth + 1) cur r2) (hset : cur.Settled env b)
    (hwild : Part.run env depth (.array len done cur) b ≠ .wild)
    (hsize : cur.height + b.length + 3 ≤ size) (hrounds : b.length ≤ rounds) :
    ∃ o, rrbLoop (arrayStep recArray fuel (rrp.stackRrb.slot depth)) (rounds + 1) rrp b
        (arrayReply len done tail cur.leading) = some o ∧
      Outcome env depth (depth + 1) (.array len done cur) b rrp o := by
  have hrun := @Part.run_array env depth len done cur b
  have hwild' : cur.run env (depth + 1) b ≠ .wild := by
    intro h
    rw [h] at hrun
    exact hwild hrun
  obtain ⟨o, hchild, hout⟩ :=
    buildByType_outcome henv hrec hfs hat.1 hentry hset hwild' hfuel hsize
  have hstep : arrayStep recArray fuel (rrp.stackRrb.slot depth) rrp b
      (arrayReply len done tail cur.leading) =
        some (buildArrayElementEnd (rrp.stackRrb.slot depth)
          (arrayReply len done [o.r] cur.leading) o) := by
    rw [arrayStep_element hat.2]
    refine (buildArrayElement_eq harr hlt htail).trans ?_
    rw [hchild]
    rfl
  have hend := elementEnd_outcome hfs hdepth hat hlen harr hlt hentry.started hout
  set o' := buildArrayElementEnd (rrp.stackRrb.slot depth)
    (arrayReply len done [o.r] cur.leading) o with ho'
  rw [ElementOutcome] at hend
  cases hcur : cur.run env (depth + 1) b with
  | wild => exact absurd hcur hwild'
  | more q =>
    rw [hcur] at hend hrun
    obtain ⟨hrc, hk, p', hp', hheld, hr, hrun', hset'⟩ := hend
    refine ⟨o', rrbLoop_stop hstep (by rw [hrc]; exact q.code_ne.1), ?_⟩
    rw [Outcome, hrun]
    refine ⟨hrc, hk, .array len done p', rfl, hheld, hr, ?_, hset'⟩
    rw [Part.run_array, hrun']
  | done v rest =>
    rw [hcur] at hend hrun
    obtain ⟨hbb, hk, hnext⟩ := hend
    simp only at hrun
    cases harrNext : Part.arrayNext len (done ++ [v]) with
    | wild =>
      rw [harrNext] at hrun
      exact absurd hrun hwild
    | value w =>
      rw [harrNext] at hnext hrun
      obtain ⟨hrc, hnelts, hr⟩ := hnext
      refine ⟨o', rrbLoop_stop hstep (by rw [hrc]; simp), ?_⟩
      rw [Outcome, hrun]
      exact ⟨hrc, hk, hnelts, hbb, hr⟩
    | part p =>
      rw [harrNext] at hnext hrun
      obtain ⟨hrc, hheld, hr⟩ := hnext
      obtain rfl : p = .array len (done ++ [v]) .type := by
        simp only [Part.arrayNext] at harrNext
        split_ifs at harrNext
        exact (Next.part.inj harrNext).symm
      have hshort := Part.run_done_length hcur
      simp only at hrun
      obtain ⟨o₂, hloop, hout₂⟩ := hrest (.array len (done ++ [v]) .type) o'.rrp rest
        (hk.firstStorage hfs) hheld rfl trivial (hrun ▸ hwild)
        (by simp only [Part.height]; omega) (by omega)
      refine ⟨o₂, ?_, hout₂.transfer hrun hk⟩
      rw [rrbLoop_again hstep hrc, hbb, hr, ← hk.slot]
      exact hloop

/-- The length's round: the array stays closed, ends empty or null, or opens. -/
private theorem len_round {recArray : Nat → Step} {size rounds : Nat}
    (hrest : LoopSpec env recArray fuel size depth rounds) (hfs : rrp.FirstStorage)
    (hheld : Held rrp depth (.num .arrayLen []))
    (hwild : Part.run env depth (.num .arrayLen []) b ≠ .wild)
    (hsize : b.length + 2 ≤ size) (hrounds : b.length ≤ rounds) :
    ∃ o, rrbLoop (arrayStep recArray fuel (rrp.stackRrb.slot depth)) (rounds + 1) rrp b
        (Part.draft (.num .arrayLen [])) = some o ∧
      Outcome env depth (depth + 1) (.num .arrayLen []) b rrp o := by
  have hheld' := hheld
  obtain ⟨-, hnelts, hdepth, hat, harr⟩ := hheld
  have hstep := congrFun (@arrayStep_len fuel rrp (rrp.stackRrb.slot depth) recArray hat.2) b
  cases hread : redisReplyReadInteger b with
  | none =>
    refine ⟨⟨.premature, rrp, b, Part.draft (.num .arrayLen [])⟩, rrbLoop_stop ?_ (by simp),
      num_premature hheld' hread hwild _⟩
    rw [hstep, buildArrayLen, rBuildInteger_none hread]
  | some vn =>
    obtain ⟨v, n⟩ := vn
    have hline := run_num_line hread hwild
    have hn := redisReplyReadInteger_length hread
    simp only [Part.ofNum, Part.arrayOfLen] at hline
    set rrp₁ : RedisReplyParser := { rrp with parsed := rrp.parsed + n } with hrrp₁
    have hk₁ : Keeps depth rrp rrp₁ := ⟨rfl, rfl, rfl, rfl, rfl, fun _ _ => rfl⟩
    rcases lt_or_ge 0 v with hpos | hnon
    · rw [if_neg (by omega), if_neg (by omega)] at hline
      have hlen : toUint32 v ≠ 0 := by
        intro h
        rw [if_pos h] at hline
        exact hwild hline
      rw [if_neg hlen] at hline
      simp only at hline
      have hfs₁ := hk₁.firstStorage hfs
      set f := { rrp.frame depth with storeLen := 0, len := toUint32 v, state := 2 } with hf
      have hk₂ := write_keeps hfs₁ (Nat.le_refl depth) f
      have hframe := write_frame hfs₁ depth depth f
      rw [if_pos rfl] at hframe
      have hagain : arrayStep recArray fuel (rrp.stackRrb.slot depth) rrp b
          (Part.draft (.num .arrayLen [])) =
            some ⟨.again, rrp₁.write (rrp₁.stackRrb.slot depth) f, b.drop n,
              Part.draft (.array (toUint32 v) [] .type)⟩ := by
        rw [hstep, buildArrayLen, rBuildInteger_some hread]
        simp only [if_pos hpos]
        rfl
      have hopen : Held (rrp₁.write (rrp₁.stackRrb.slot depth) f) depth
          (.array (toUint32 v) [] .type) := by
        refine ⟨hdepth, ⟨?_, ?_⟩, ?_, ?_, Nat.pos_of_ne_zero hlen, hnelts⟩ <;> rw [hframe, hf]
        · exact hat.1
        · rfl
        · exact harr
      obtain ⟨o, hloop, hout⟩ := hrest (.array (toUint32 v) [] .type) _ (b.drop n)
        (hk₂.firstStorage hfs₁) hopen rfl trivial (hline ▸ hwild)
        (by simp only [Part.height, List.length_drop]; omega)
        (by simp only [List.length_drop]; omega)
      rw [hk₂.slot] at hloop
      exact ⟨o, (rrbLoop_again hagain rfl).trans hloop, hout.transfer hline (hk₁.trans hk₂)⟩
    · have hstop : ∀ w : Resp, w.render =
          { Part.draft (.num .arrayLen []) with
            isNull := decide (v < 0), elemtype := .unknown, arrval := none } →
          Part.run env depth (.num .arrayLen []) b = .done w (b.drop n) →
          ∃ o, rrbLoop (arrayStep recArray fuel (rrp.stackRrb.slot depth)) (rounds + 1) rrp b
              (Part.draft (.num .arrayLen [])) = some o ∧
            Outcome env depth (depth + 1) (.num .arrayLen []) b rrp o := by
        intro w hw hdone
        refine ⟨⟨.over, rrp₁, b.drop n, w.render⟩, rrbLoop_stop ?_ (by simp), ?_⟩
        · rw [hstep, buildArrayLen, rBuildInteger_some hread]
          simp only [if_neg (not_lt.2 hnon), hw]
          rfl
        · rw [Outcome, hdone]
          exact ⟨rfl, hk₁, hnelts, rfl, rfl⟩
      rcases lt_or_eq_of_le hnon with hneg | rfl
      · rw [if_pos hneg] at hline
        exact hstop .nullArray (by
          simp [Resp.render, Part.draft, NumKind.leading, RedisReply.init, hneg]) hline
      · rw [if_neg (by omega), if_pos rfl] at hline
        exact hstop (.array []) (by
          simp [Resp.render, Part.draft, NumKind.leading, RedisReply.init]) hline

theorem leadingType_ne_unknown {c : UInt8} {type : LeadingType} (h : leadingType c = some type) :
    type ≠ .unknown := by
  rintro rfl
  rw [leadingType] at h
  split_ifs at h <;> cases h

/-- What a leading character opens, when the reader goes on. -/
theorem opened_cases {env : Envelope} {depth : Nat} {c : UInt8} {type : LeadingType}
    (henv : env.Shallow) (hc : leadingType c = some type) (hnelts : rrp.stackRrb.nelts = depth)
    (hwild : Part.step env depth .type c ≠ .wild) :
    ∃ p, Part.step env depth .type c = .part p ∧ p.leading = type ∧ p.height = 0 ∧
      Opened rrp depth p { RedisReply.init with type } ∧ ∀ bs, p.Settled env bs := by
  have htype := leadingType_ne_unknown hc
  simp only [Part.step, hc, Option.getD_some] at hwild ⊢
  cases type with
  | unknown => exact absurd rfl htype
  | integer => exact ⟨_, rfl, rfl, rfl, ⟨hnelts, rfl, .inr (.inl rfl)⟩, fun _ => trivial⟩
  | simpleString =>
    by_cases hd : env.opens depth .simpleString
    · rw [Part.opened, if_pos hd]
      exact ⟨_, rfl, rfl, rfl, ⟨hnelts, rfl, .inl ⟨false, rfl, henv.opens hd⟩⟩, fun _ => .inl rfl⟩
    · exact absurd (if_neg hd) hwild
  | errorString =>
    by_cases hd : env.opens depth .errorString
    · rw [Part.opened, if_pos hd]
      exact ⟨_, rfl, rfl, rfl, ⟨hnelts, rfl, .inl ⟨true, rfl, henv.opens hd⟩⟩, fun _ => .inl rfl⟩
    · exact absurd (if_neg hd) hwild
  | bulkString =>
    by_cases hd : env.opens depth .bulkString
    · rw [Part.opened, if_pos hd]
      exact ⟨_, rfl, rfl, rfl, ⟨hnelts, rfl, .inr (.inr ⟨_, rfl, henv.opens hd⟩)⟩, fun _ => trivial⟩
    · exact absurd (if_neg hd) hwild
  | array =>
    by_cases hd : env.opens depth .array
    · rw [Part.opened, if_pos hd]
      exact ⟨_, rfl, rfl, rfl, ⟨hnelts, rfl, .inr (.inr ⟨_, rfl, henv.opens hd⟩)⟩, fun _ => trivial⟩
    · exact absurd (if_neg hd) hwild

private theorem array_loop {recArray : Nat → Step} {size : Nat} (henv : env.Shallow)
    (hrec : ArraySpec env recArray size) (hfuel : 2 ≤ fuel) (rounds : Nat) :
    LoopSpec env recArray fuel size depth rounds := by
  induction rounds using Nat.strong_induction_on with
  | _ rounds ih =>
  intro p rrp b hfs hheld hlead hset hwild hsize hrounds
  obtain ⟨rounds, rfl⟩ : ∃ n, rounds = n + 1 := ⟨rounds - 1, by omega⟩
  cases p with
  | num kind acc =>
    obtain rfl : kind = .arrayLen := by cases kind <;> simp [Part.leading, NumKind.leading] at hlead ⊢
    obtain rfl : acc = [] := hheld.1
    exact len_round (ih rounds (by omega)) hfs hheld hwild (by omega) (by omega)
  | array len done cur =>
    obtain ⟨hdepth, hat, hlen, harr, hlt, hcur⟩ := hheld
    simp only [Part.height] at hsize
    by_cases hstarted : cur.started
    · rw [if_pos hstarted] at hat
      have hdraft : Part.draft (.array len done cur) =
          arrayReply len done [cur.draft] cur.leading := by
        simp only [Part.draft, hstarted, if_true, arrayReply]
      rw [hdraft]
      exact element_round henv hrec hfuel (ih rounds (by omega)) hfs hdepth hat hlen harr hlt
        (.inr rfl) (.inl ⟨hstarted, hcur, rfl⟩) hset hwild (by omega) (by omega)
    · obtain rfl : cur = .type := by
        cases cur with
        | type => rfl
        | badType => exact hcur.elim
        | _ => simp [Part.started] at hstarted
      rw [if_neg hstarted] at hat
      have hstep := congrFun (@arrayStep_type fuel rrp (rrp.stackRrb.slot depth) recArray hat.2) b
      have hheld : Held rrp depth (.array len done .type) := by
        refine ⟨hdepth, ?_, hlen, harr, hlt, hcur⟩
        rw [if_neg hstarted]
        exact hat
      cases b with
      | nil =>
        refine ⟨⟨.premature, rrp, [], Part.draft (.array len done .type)⟩, rrbLoop_stop ?_ (by simp), ?_⟩
        · rw [hstep]
          rfl
        · exact ⟨rfl, Keeps.refl _ _, .array len done .type, rfl, hheld, rfl, rfl, trivial⟩
      | cons c b =>
        cases hc : leadingType c with
        | none =>
          have hrun : Part.run env depth (.array len done .type) (c :: b) =
              .more (.array len done .badType) := by
            rw [Part.run_array, Part.run_cons_part (by rw [Part.step, hc]; rfl), Part.run_badType]
          refine ⟨⟨.invalidLeadingChar, rrp, c :: b, Part.draft (.array len done .type)⟩,
            rrbLoop_stop ?_ (by simp), ?_⟩
          · rw [hstep, buildArrayElementType]
            simp only [redisReplyReadLeading, List.head?_cons, hc]
          · rw [Outcome, hrun]
            exact ⟨rfl, Keeps.refl _ _, .array len done .type, rfl, hheld, rfl, hrun, trivial⟩
        | some type =>
          have hwild' : Part.step env (depth + 1) .type c ≠ .wild := by
            intro h
            apply hwild
            rw [Part.run_array, Part.run_cons_wild h]
          obtain ⟨cur, hcur', hlead', hheight, hopened, hsettled⟩ := opened_cases henv hc hcur hwild'
          set f := { rrp.frame depth with state := 3 } with hf
          set rrp₁ : RedisReplyParser := { rrp.write (rrp.stackRrb.slot depth) f with
            parsed := rrp.parsed + 1 } with hrrp₁
          have hk : Keeps depth rrp rrp₁ :=
            have hw := write_keeps hfs (Nat.le_refl depth) f
            ⟨hw.elts, hw.size, hw.nalloc, hw.rZeroed, hw.state, hw.frame⟩
          have hframe : rrp₁.frame depth = f := (write_frame hfs depth depth f).trans (if_pos rfl)
          have hagain : arrayStep recArray fuel (rrp.stackRrb.slot depth) rrp (c :: b)
              (Part.draft (.array len done .type)) =
                some ⟨.again, rrp₁, b, arrayReply len done [] type⟩ := by
            rw [hstep, buildArrayElementType]
            simp only [redisReplyReadLeading, List.head?_cons, hc, Committed.decommit_eq_drop,
              List.drop_one, List.tail_cons]
            rfl
          have hrun : Part.run env depth (.array len done .type) (c :: b) =
              Part.run env depth (.array len done cur) b := by
            rw [Part.run_array, Part.run_cons_part hcur', ← Part.run_array]
          have hopened₁ : Opened rrp₁ (depth + 1) cur { RedisReply.init with type } := hopened
          simp only [List.length_cons] at hsize hrounds
          obtain ⟨rounds, rfl⟩ : ∃ n, rounds = n + 1 := ⟨rounds - 1, by omega⟩
          subst hlead'
          obtain ⟨o, hloop, hout⟩ := @element_round env depth fuel rrp₁ b _ _ _ _ _ _ _ _ henv hrec hfuel (ih rounds (by omega))
            (hk.firstStorage hfs) hdepth ⟨by rw [hframe]; exact hat.1, by rw [hframe]⟩
            (by rw [hframe]; exact hlen) (by rw [hframe]; exact harr) hlt (.inl ⟨rfl, rfl⟩)
            (.inr hopened₁) (hsettled b) (hrun ▸ hwild) (by omega) (by omega)
          rw [hk.slot] at hloop
          exact ⟨o, (rrbLoop_again hagain rfl).trans hloop, hout.transfer hrun hk⟩
  | text isError acc gotCr => cases isError <;> simp [Part.leading, textLeading] at hlead
  | _ => simp [Part.leading] at hlead

/-- The array builder, at every depth of its recursion. -/
theorem rBuildArray_spec (henv : env.Shallow) (fuel : Nat) :
    ArraySpec env (rBuildArray fuel) fuel := by
  induction fuel with
  | zero =>
    intro depth p rrp r b _ _ _ _ _ _ hsize
    omega
  | succ fuel ih =>
    intro depth p rrp r b hfs hparent hlead hentry hset hwild hsize
    have hloop := @array_loop env (depth + 1) fuel (rBuildArray fuel) fuel henv ih (by omega) fuel
    rw [rBuildArray_succ, show (rrp.builders (rrp.stackRrb.slot depth)).depth = depth from hparent]
    cases p with
    | num kind acc =>
      obtain rfl : kind = .arrayLen := by cases kind <;> simp [Part.leading, NumKind.leading] at hlead ⊢
      obtain rfl : acc = [] := by
        rcases hentry with ⟨-, h, -⟩ | ⟨-, -, ⟨_, h, -⟩ | h | ⟨_, h, -⟩⟩
        · exact h.1
        · cases h
        · cases h
        · exact (Part.num.inj h).2
      obtain ⟨rrp₁, halloc, hk, hdepth, hheld, rfl⟩ := hentry.enter_num hfs (by simp)
      refine withBuilder_outcome _ hfs hdepth halloc hk hwild ?_
      rw [← hk.slot]
      exact hloop _ rrp₁ b (hk.firstStorage hfs) hheld rfl trivial hwild (by omega) (by omega)
    | array len done cur =>
      rcases hentry with ⟨-, hheld, rfl⟩ | ⟨-, -, ⟨_, h, -⟩ | h | ⟨_, h, -⟩⟩
      · have hdepth := hheld.1
        have hnelts := hheld.nelts_gt rfl
        refine withBuilder_outcome _ hfs hdepth (alloc_at hnelts (by unfold maxBuilder at hdepth; omega))
          (Keeps.refl _ _) hwild ?_
        exact hloop _ rrp b hfs hheld rfl hset hwild (by omega) (by omega)
      · cases h
      · cases h
      · cases h
    | text isError acc gotCr => cases isError <;> simp [Part.leading, textLeading] at hlead
    | _ => simp [Part.leading] at hlead

end KjRedis.Reply
