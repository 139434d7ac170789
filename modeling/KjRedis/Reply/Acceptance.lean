import KjRedis.Reply.Nesting

/-! Which byte strings the reply parser accepts. On input that keeps to the grammar up
to its first offending byte, the parser reports an error exactly when there is such a
byte, and delivers the replies before it, where the builder stack holds. -/
namespace KjRedis.Reply

open KjRedis.Reply.Part

variable {env : Envelope} {depth : Nat}

theorem run_readAs {p : Part} {u bs : List UInt8} (h : ReadAs p u) :
    match run strict depth p bs with
    | .more q => ReadAs q (u ++ bs)
    | .done v rest => ∃ w, bs = w ++ rest ∧ Replies (u ++ w) [v]
    | .wild => True := by
  induction bs generalizing p u with
  | nil => simpa using h
  | cons b bs ih =>
    have hstep := @step_readAs depth p u b h
    cases hs : step strict depth p b with
    | part p' =>
      rw [hs] at hstep
      have hih := ih hstep
      rw [run_cons_part hs]
      cases hr : run strict depth p' bs with
      | more q =>
        rw [hr] at hih
        simpa using hih
      | done v rest =>
        rw [hr] at hih
        obtain ⟨w, rfl, hw⟩ := hih
        exact ⟨b :: w, rfl, by simpa using hw⟩
      | wild => trivial
    | value v =>
      rw [hs] at hstep
      rw [run_cons_value hs]
      exact ⟨[b], rfl, hstep⟩
    | wild =>
      rw [run_cons_wild hs]
      trivial

/-- A stream is the valid replies the strict reader emits, then the bytes it is in the
middle of. -/
theorem reader_readAs {s : List UInt8} {q : Part} {out : List Resp}
    (h : (reader strict).run .type s = some (q, out)) :
    ∃ w rest, s = w ++ rest ∧ Replies w out ∧ run strict 1 .type rest = .more q ∧
      ReadAs q rest := by
  induction hn : s.length using Nat.strong_induction_on generalizing s out with
  | _ n ih =>
    have hread := @run_readAs 1 .type [] s rfl
    rcases reader_run_cases h with ⟨hmore, rfl⟩ | ⟨v, rest, out', hdone, hrest, rfl⟩
    · rw [hmore] at hread
      exact ⟨[], s, rfl, .nil, hmore, hread⟩
    · rw [hdone] at hread
      obtain ⟨w, rfl, hw⟩ := hread
      obtain ⟨w', rest', rfl, hw', hmore, hq⟩ :=
        ih rest.length (hn ▸ run_done_length hdone) hrest rfl
      exact ⟨w ++ w', rest', (List.append_assoc ..).symm, hw.append hw', hmore, hq⟩

/-- No byte stands where a payload's CR belongs, but a CR. The parser looks at the two
bytes of a payload's end together. -/
def AwaitsTerminator : Part → Prop
  | .payload len acc => acc.length = len + 1 → acc.getLast? = some cr
  | .array _ _ cur => AwaitsTerminator cur
  | _ => True

theorem unterminated_code {p : Part} (h : ¬ AwaitsTerminator p) : p.code = .premature := by
  induction p with
  | payload len acc => rfl
  | array len done cur ih => exact ih h
  | _ => exact absurd trivial h

def zeroReply : List UInt8 := [colon, zeroChar, cr, lf]

theorem replies_zeros (n : Nat) :
    Replies (List.replicate n zeroReply).flatten (List.replicate n (.int 0)) := by
  induction n with
  | zero => exact .nil
  | succ n ih =>
    have hzero : IsInt64 [zeroChar] 0 :=
      ⟨⟨false, [zeroChar], by simp, List.forall_mem_singleton.2 rfl, rfl, rfl⟩, by decide, by decide⟩
    exact Replies.int hzero ih

/-- Bytes that complete an array once its next element is there. -/
private theorem complete_elements {len : Nat} {x u₁ : List UInt8} {done : List Resp}
    (hx : IsInt64 x len) (hdone : Replies u₁ done) (hlen : done.length ≤ len) :
    ∃ t v, Replies (star :: (x ++ cr :: lf :: (u₁ ++ t))) [v] := by
  have hall := hdone.append (replies_zeros (len - done.length))
  have hcount : (done ++ List.replicate (len - done.length) (Resp.int 0)).length = len := by
    rw [List.length_append, List.length_replicate]
    omega
  have hreply := Replies.array (hcount.symm ▸ hx) hall .nil
  rw [List.append_nil] at hreply
  exact ⟨_, _, hreply⟩

private theorem complete_payload {len : Nat} {x acc : List UInt8} (hx : IsInt64 x len)
    (hacc : acc.length < len + 2) (hterm : acc.length = len + 1 → acc.getLast? = some cr) :
    ∃ t v, Replies (dollar :: (x ++ cr :: lf :: (acc ++ t))) [v] := by
  by_cases hfull : acc.length = len + 1
  · obtain ⟨bytes, rfl⟩ := List.getLast?_eq_some_iff.1 (hterm hfull)
    have hlen : bytes.length = len := by
      rw [List.length_append, List.length_singleton] at hfull
      omega
    have hreply := @Replies.bulk x bytes [] [] (hlen.symm ▸ hx) .nil
    exact ⟨[lf], _, by simpa using hreply⟩
  · have hlen : (acc ++ List.replicate (len - acc.length) zeroChar).length = len := by
      rw [List.length_append, List.length_replicate]
      omega
    have hreply := @Replies.bulk x (acc ++ List.replicate (len - acc.length) zeroChar) [] []
      (hlen.symm ▸ hx) .nil
    exact ⟨_, _, by rwa [List.append_assoc] at hreply⟩

/-- Bytes that complete the reply a number's line begins. -/
private theorem complete_line {kind : NumKind} {x : List UInt8} {v : Int} (hx : IsInt64 x v)
    (hholds : kind.holds v) : ∃ t v, Replies (kind.char :: (x ++ cr :: lf :: t)) [v] := by
  cases kind with
  | int => exact ⟨[], _, .int hx .nil⟩
  | bulkLen =>
    simp only [NumKind.holds, Bool.and_eq_true, decide_eq_true_eq] at hholds
    by_cases hneg : v < 0
    · obtain rfl : v = -1 := by omega
      exact ⟨[], _, .nullBulk hx .nil⟩
    · obtain ⟨n, rfl⟩ := Int.eq_ofNat_of_zero_le (Int.not_lt.1 hneg)
      exact @complete_payload n x [] hx (Nat.succ_pos _) (fun h => absurd h (Nat.succ_ne_zero n).symm)
  | arrayLen =>
    simp only [NumKind.holds, Bool.and_eq_true, decide_eq_true_eq] at hholds
    by_cases hneg : v < 0
    · obtain rfl : v = -1 := by omega
      exact ⟨[], _, .nullArray hx .nil⟩
    · obtain ⟨n, rfl⟩ := Int.eq_ofNat_of_zero_le (Int.not_lt.1 hneg)
      exact complete_elements hx .nil (Nat.zero_le n)

/-- What the strict reader is in the middle of is the beginning of a valid reply. -/
theorem ReadAs.complete {p : Part} {u : List UInt8} (h : ReadAs p u) (hcode : p.code = .premature)
    (hterm : AwaitsTerminator p) : ∃ t v, Replies (u ++ t) [v] := by
  induction p generalizing u with
  | type =>
    obtain rfl := h
    exact ⟨zeroReply, _, replies_zeros 1⟩
  | badType => cases hcode
  | text isError acc gotCr =>
    obtain ⟨rfl, hcr, hlf⟩ := h
    have hreply := Replies.text isError hcr hlf .nil
    cases gotCr with
    | true => exact ⟨[lf], _, by simpa using hreply⟩
    | false => exact ⟨[cr, lf], _, by simpa using hreply⟩
  | num kind acc =>
    obtain ⟨rfl, hviable, hnone⟩ := h
    rcases viable_line hviable with ⟨-, rest, x, v, hline, hx, hholds⟩ | ⟨x, v, -, hread, -, -⟩
    · obtain ⟨t, w, hreply⟩ := complete_line hx hholds
      refine ⟨rest ++ t, w, ?_⟩
      rw [List.cons_append, ← List.append_assoc, hline]
      simpa using hreply
    · rw [hnone] at hread
      cases hread
  | payload len acc =>
    obtain ⟨x, hx, rfl, hacc⟩ := h
    obtain ⟨t, w, hreply⟩ := complete_payload hx hacc hterm
    exact ⟨t, w, by simpa using hreply⟩
  | badPayload len acc => cases hcode
  | array len done cur ih =>
    obtain ⟨x, u₁, u₂, hx, rfl, hdone, hlen, hcur⟩ := h
    obtain ⟨t, w, helem⟩ := ih hcur hcode hterm
    obtain ⟨t', w', hreply⟩ := complete_elements hx (hdone.append helem) (by simp; omega)
    exact ⟨t ++ t', w', by simpa using hreply⟩

/-- A code that is none of `over`, `again` and `premature`. -/
def Rc.isProtocolError (rc : Rc) : Prop := rc ≠ .over ∧ rc ≠ .again ∧ rc ≠ .premature

/-- A prefix of a concatenation of valid replies. -/
def ValidSoFar (s : List UInt8) : Prop := ∃ w vs, s <+: w ∧ Replies w vs

/-- The valid replies that are complete in `s` before its first offending byte. -/
def Completes (s : List UInt8) (vs : List Resp) : Prop :=
  ∃ w rest, s = w ++ rest ∧ Replies w vs ∧ ∀ u v, u <+: rest → ¬ Replies u [v]

/-- A fresh parser fed `s` keeps to its memory, reports an error exactly when `s` cannot be
continued to valid replies, and delivers exactly the replies complete in it. -/
def AcceptsGrammar (s : List UInt8) : Prop :=
  ∃ res, redisReplyParseOnce (fun _ => 0) createReplyParser s = some res ∧ res.rc ≠ .stray ∧
    (res.rc.isProtocolError ↔ ¬ ValidSoFar s) ∧
    ∃ vs, Completes s vs ∧ res.delivered = vs.map Resp.render

/-- Up to the first bad leading character or bad end of a payload, every line of `s` is
one the grammar has and the parser handles. -/
def Lined (s : List UInt8) : Prop := ((reader strict).run .type s).isSome

instance (s : List UInt8) : Decidable (Lined s) := inferInstanceAs (Decidable (_ = _))

/-- Besides, `s` does not stop between the two bytes of a bad end, and the builders of its
replies keep to the stack's memory and to the depths of a `uint8_t`. -/
def Proper (s : List UInt8) : Prop :=
  ∃ q out, (reader strict).run .type s = some (q, out) ∧ AwaitsTerminator q ∧ (streamUse out q 0).isSome

theorem strict_opens (type : LeadingType) : ¬ strict.opens (2 ^ 8) type := by
  simp [strict]

theorem strict_bounded : strict.Bounded where
  text := Nat.le_refl _
  wraps h := absurd h (strict_opens _)
  digits h := absurd h (strict_opens _)

/-- No builder of a strict reply is too deep, so that a stack can only fail by a pop. -/
theorem strict_fails {rc : Rc} (h : strict.Fails rc) : rc = .stray := by
  rcases h with h | ⟨⟨type, hopens⟩, -⟩
  · exact h
  · exact absurd hopens (strict_opens type)

theorem code_cases (q : Part) : q.code = .premature ∨ q.code.isProtocolError ∧ q.code ≠ .stray := by
  induction q with
  | badType => exact .inr ⟨⟨by simp [code], by simp [code], by simp [code]⟩, by simp [code]⟩
  | badPayload len acc => exact .inr ⟨⟨by simp [code], by simp [code], by simp [code]⟩, by simp [code]⟩
  | array len done cur ih => exact ih
  | _ => exact .inl rfl

/-- A reader that never again awaits a reply has met an offending byte. -/
theorem not_validSoFar {s : List UInt8} {q : Part} {out : List Resp}
    (hrun : (reader strict).run .type s = some (q, out))
    (hnever : ∀ t, ∃ q', q' ≠ .type ∧ run strict 1 q t = .more q') : ¬ ValidSoFar s := by
  rintro ⟨full, vs, ⟨t, rfl⟩, hfull⟩
  obtain ⟨q', hne, hmore⟩ := hnever t
  have hall := Incremental.Machine.run_append hrun (reader_run_more hmore)
  obtain ⟨out', hend, -⟩ := hfull.reader_run (by rw [List.append_nil]; exact hall)
  obtain ⟨rfl, -⟩ := Prod.mk.inj (Option.some.inj hend)
  exact hne rfl

/-- Whatever comes after a byte in place of a payload's CR, the payload's end is bad. -/
theorem step_unterminated {q : Part} {u : List UInt8} (hread : ReadAs q u) (h : ¬ AwaitsTerminator q)
    (b : UInt8) : ∃ q', step strict depth q b = .part q' ∧ q'.code ≠ .premature := by
  induction q generalizing depth u with
  | payload len acc =>
    rw [AwaitsTerminator, Classical.not_imp] at h
    obtain ⟨hlen, hlast⟩ := h
    obtain ⟨bytes, c, rfl⟩ : ∃ bytes c, acc = bytes ++ [c] := by
      rcases List.eq_nil_or_concat acc with rfl | ⟨bytes, c, rfl⟩
      · cases hlen
      · exact ⟨bytes, c, by simp⟩
    rw [List.length_append, List.length_singleton, Nat.add_right_cancel_iff] at hlen
    have hdrop : (bytes ++ [c] ++ [b]).drop len = [c, b] := by
      rw [List.append_assoc]
      exact List.drop_left' hlen
    have hbad : ¬ (bytes ++ [c] ++ [b]).drop len = crlf := by
      rw [hdrop]
      intro hcrlf
      rw [List.getLast?_append, List.getLast?_singleton, Option.some_or] at hlast
      exact hlast (congrArg some (List.cons.inj hcrlf).1)
    refine ⟨.badPayload len (bytes ++ [c] ++ [b]), ?_, by simp [code]⟩
    rw [step, stepPayload, if_neg (by simp only [List.length_append, List.length_singleton]; omega), if_neg hbad]
  | array len done cur ih =>
    obtain ⟨x, u₁, u₂, -, -, -, -, hcur⟩ := hread
    obtain ⟨q', hstep, hcode⟩ := @ih (depth + 1) u₂ hcur h
    exact ⟨.array len done q', by rw [step, hstep], hcode⟩
  | _ => exact absurd trivial h

/-- The first of some valid replies. -/
theorem Replies.head {w : List UInt8} {v : Resp} {vs : List Resp} (h : Replies w (v :: vs)) :
    ∃ u, u <+: w ∧ Replies u [v] := by
  cases h with
  | @text isError bytes w _ hcr hlf _ => exact ⟨_, ⟨w, by simp⟩, .text isError hcr hlf .nil⟩
  | @int x w _ _ hx _ => exact ⟨_, ⟨w, by simp⟩, .int hx .nil⟩
  | @nullBulk x w _ hx _ => exact ⟨_, ⟨w, by simp⟩, .nullBulk hx .nil⟩
  | @bulk x bytes w _ hx _ => exact ⟨_, ⟨w, by simp⟩, .bulk hx .nil⟩
  | @nullArray x w _ hx _ => exact ⟨_, ⟨w, by simp⟩, .nullArray hx .nil⟩
  | @array x u w elems _ hx hu _ => exact ⟨_, ⟨w, by simp⟩, .array hx hu .nil⟩

/-- The replies complete in `s` are those the strict reader emits. -/
theorem completes_iff {s : List UInt8} {q : Part} {out vs : List Resp}
    (hrun : (reader strict).run .type s = some (q, out)) : Completes s vs ↔ vs = out := by
  constructor
  · rintro ⟨w, rest, rfl, hw, hnone⟩
    obtain ⟨out', hrest, rfl⟩ := hw.reader_run hrun
    cases out' with
    | nil => rw [List.append_nil]
    | cons v vs' =>
      obtain ⟨w', rest', rfl, hw', -⟩ := reader_readAs hrest
      obtain ⟨u, hu, hreply⟩ := hw'.head
      exact absurd hreply (hnone u v (hu.trans (List.prefix_append _ _)))
  · rintro rfl
    obtain ⟨w, rest, rfl, hw, hmore, -⟩ := reader_readAs hrun
    refine ⟨w, rest, rfl, hw, ?_⟩
    rintro u v ⟨t, rfl⟩ hreply
    obtain ⟨out', -, hcons⟩ := hreply.reader_run (reader_run_more hmore)
    cases hcons

/-- What the strict reader is in the middle of can be completed, or there is an offending
byte and the reader's code says so. -/
theorem code_iff {s : List UInt8} {q : Part} {out : List Resp}
    (hrun : (reader strict).run .type s = some (q, out)) :
    (q.code.isProtocolError ↔ ¬ ValidSoFar s) ↔ AwaitsTerminator q := by
  obtain ⟨w, rest, hs, hw, hmore, hread⟩ := reader_readAs hrun
  rcases code_cases q with hpre | ⟨herr, -⟩
  · have hno : ¬ q.code.isProtocolError := fun h => h.2.2 hpre
    constructor
    · intro hiff
      by_contra hterm
      refine hno (hiff.2 (not_validSoFar hrun fun t => ?_))
      cases t with
      | nil =>
        refine ⟨q, ?_, rfl⟩
        rintro rfl
        exact hterm trivial
      | cons b t =>
        obtain ⟨q', hstep, hbad⟩ := @step_unterminated 1 q rest hread hterm b
        refine ⟨q', ?_, (run_cons_part hstep t).trans (run_of_bad hbad t)⟩
        rintro rfl
        exact hbad rfl
    · intro hterm
      obtain ⟨t, v, hreply⟩ := hread.complete hpre hterm
      refine iff_of_false hno (not_not.2 ⟨_, _, ⟨t, ?_⟩, hw.append hreply⟩)
      rw [hs, List.append_assoc]
  · have hterm : AwaitsTerminator q := by
      by_contra hterm
      have hpre : q.code = .premature := unterminated_code hterm
      exact herr.2.2 hpre
    refine iff_of_true (iff_of_true herr (not_validSoFar hrun fun t => ⟨q, ?_, run_of_bad herr.2.2 t⟩)) hterm
    rintro rfl
    exact herr.2.2 rfl

/-- On input whose lines are the grammar's, the parser accepts exactly what is proper. -/
theorem acceptsGrammar_of_lined {s : List UInt8} {q : Part} {out : List Resp}
    (hrun : (reader strict).run .type s = some (q, out)) :
    AcceptsGrammar s ↔ AwaitsTerminator q ∧ (streamUse out q 0).isSome := by
  obtain ⟨res, hres, hland⟩ := redisReplyParseOnce_lands strict_bounded hrun
  rw [StreamLands] at hland
  cases hu : streamUse out q 0 with
  | none =>
    rw [hu] at hland
    refine iff_of_false ?_ (by simp)
    rintro ⟨res', hres', hstray, -, vs, hvs, hdel⟩
    obtain rfl := Option.some.inj (hres.symm.trans hres')
    obtain rfl := (completes_iff hrun).1 hvs
    rcases hland with hne | ⟨-, hfails⟩
    · exact hne hdel
    · exact hstray (strict_fails hfails)
  | some u =>
    rw [hu, Option.elim_some] at hland
    obtain ⟨hcode, hdel, -⟩ := hland
    rw [Option.isSome_some, and_iff_left rfl, ← code_iff hrun, ← hcode]
    constructor
    · rintro ⟨res', hres', -, hiff, -⟩
      obtain rfl := Option.some.inj (hres.symm.trans hres')
      exact hiff
    · intro hiff
      refine ⟨res, hres, ?_, hiff, out, (completes_iff hrun).2 rfl, hdel⟩
      rw [hcode]
      rcases code_cases q with hpre | ⟨-, hstray⟩
      · rw [hpre]
        simp
      · exact hstray

/-- Proper input is accepted; where the lines are the grammar's, no other is. -/
theorem acceptsGrammar_iff_proper {s : List UInt8} :
    (Proper s → AcceptsGrammar s) ∧ (Lined s → AcceptsGrammar s → Proper s) := by
  constructor
  · rintro ⟨q, out, hrun, hproper⟩
    exact (acceptsGrammar_of_lined hrun).2 hproper
  · intro hlined haccepts
    obtain ⟨⟨q, out⟩, hrun⟩ := Option.isSome_iff_exists.1 hlined
    exact ⟨q, out, hrun, (acceptsGrammar_of_lined hrun).1 haccepts⟩

/-- `:12\r\n$1\r\naxy`, a number and then a payload whose end is wrong; and sixteen arrays
inside each other, where fifteen clear the head of the reply. -/
theorem acceptsGrammar_iff_proper_payload :
    AcceptsGrammar [58, 49, 50, 13, 10, 36, 49, 13, 10, 97, 120, 121] ∧
      AcceptsGrammar (nested 15).encode ∧ ¬ AcceptsGrammar (nested 14).encode := by
  refine ⟨acceptsGrammar_iff_proper.1 ⟨.badPayload 1 [97, 120, 121], [.int 12], rfl, trivial, rfl⟩, ?_, ?_⟩
  · exact acceptsGrammar_iff_proper.1 ⟨.type, [nested 15], rfl, trivial, by decide +kernel⟩
  · intro haccepts
    obtain ⟨q, out, hrun, -, hstack⟩ := acceptsGrammar_iff_proper.2 (by decide +kernel) haccepts
    have hread : (reader strict).run .type (nested 14).encode = some (.type, [nested 14]) := rfl
    obtain ⟨rfl, rfl⟩ := Prod.mk.inj (Option.some.inj (hread.symm.trans hrun))
    exact absurd hstack (by decide +kernel)

/-- `:a\r\n` is no reply, yet the parser delivers the integer 49 and asks for more. -/
theorem not_acceptsGrammar_letter : ¬ AcceptsGrammar [58, 97, 13, 10] := by
  rintro ⟨res, hres, -, herror, -⟩
  have hrc : (redisReplyParseOnce (fun _ => 0) createReplyParser [58, 97, 13, 10]).map ParseOut.rc =
      some .premature := by decide
  rw [hres, Option.map_some] at hrc
  have hvalid : ValidSoFar [58, 97, 13, 10] := by
    by_contra hinvalid
    exact (herror.2 hinvalid).2.2 (Option.some.inj hrc)
  obtain ⟨w, vs, ⟨t, ht⟩, hw⟩ := hvalid
  have hhead : ∀ {x w : List UInt8} {v : Int}, IsInt64 x v → x ++ cr :: lf :: w ≠ 97 :: 13 :: 10 :: t := by
    rintro x w v ⟨⟨neg, ds, hne, hds, rfl, -⟩, -⟩ heq
    obtain ⟨d, ds, rfl⟩ := List.exists_cons_of_ne_nil hne
    cases neg with
    | true => exact absurd (List.cons.inj heq).1 (by decide)
    | false =>
      obtain rfl := (List.cons.inj heq).1
      exact absurd (hds 97 (by simp)) (by decide)
  cases hw with
  | nil => cases ht
  | text isError => cases isError <;> cases ht
  | int hx => exact hhead hx (List.cons.inj ht).2.symm
  | nullBulk => cases ht
  | bulk => cases ht
  | nullArray => cases ht
  | array => cases ht

end KjRedis.Reply
