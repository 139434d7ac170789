import KjRedis.Rdb.Follows

/-! The string builders follow the readers of strings. -/
namespace KjRedis.Rdb

open Resumption

section Rounds

variable {α : Type} {k m m' : Nat} {p q body : Builder} {rp : RdbParser} {bb : List UInt8}
  {Done : α → RdbParser → Prop} {r : Read α}

theorem Begins.trans {t : Builder} (h : Begins p q rp) (h' : Begins q t rp) : Begins p t rp where
  ends hover hagain hrun := h.ends hover hagain (h'.ends hover hagain hrun)
  begins hrun := by
    obtain ⟨out, hmid⟩ := h.begins hrun
    exact h'.begins hmid

theorem begins_loop : Begins (loop (fun rc _ => rc = .again) body) body rp where
  ends _ hagain hrun := hrun.last (decide_eq_false hagain)
  begins hrun := by
    obtain ⟨rc, rp', left, hround, -⟩ := runs_loop.1 hrun
    exact ⟨_, hround⟩

theorem begins_congr (h : ∀ bb out, Runs p rp bb out ↔ Runs q rp bb out) : Begins p q rp where
  ends _ _ hrun := (h _ _).2 hrun
  begins hrun := ⟨_, (h _ _).1 hrun⟩

theorem begins_andThen {g : Rc → RdbParser → Rc × RdbParser}
    (hg : ∀ rc rp, rc ≠ .over → g rc rp = (rc, rp)) : Begins (andThen q g) q rp where
  ends hover _ hrun := runs_andThen.2 ⟨_, _, hrun, hg _ _ hover⟩
  begins := by
    rintro bb ⟨rc, rp', left⟩ hrun
    obtain ⟨rc', rp'', hrun', -⟩ := runs_andThen.1 hrun
    exact ⟨_, hrun'⟩

/-- The last round of a loop. -/
theorem Follows.last (h : Follows k m body rp bb Done r) (hrp : Stacked k rp) (hm : m' ≤ m) :
    Follows k m' (loop (fun rc _ => rc = .again) body) rp bb Done r := by
  rw [← r.bind_done]
  apply h.bind hrp hm fun _ _ _ => begins_loop
  intro x rest rp' _ hrun hparsed hx
  exact ⟨rp', hrun.last rfl, hparsed, hx⟩

/-- A round that reads a length. -/
theorem follows_readLen (act : Nat → Bool × Nat → RdbParser) {F : Bool × Nat → List UInt8 → Read α}
    (hbody : ∀ out, Runs body rp bb out ↔
      (match rdbObjectReadStoreLen bb with
        | none => (.premature, rp, bb)
        | some (n, len) => (.again, act n len, bb.drop n)) = out)
    (hparsed : ∀ n len, (act n len).parsed = rp.parsed + n)
    (hframe : ∀ n len, Frame m rp (act n len))
    (hnext : ∀ n len, Follows k m (loop (fun rc _ => rc = .again) body) (act n len) (bb.drop n) Done
      (F len (bb.drop n))) :
    Follows k m (loop (fun rc _ => rc = .again) body) rp bb Done ((readLen bb).bind F) := by
  rw [readLen]
  cases hread : rdbObjectReadStoreLen bb with
  | none =>
    refine ⟨rp, Runs.last ?_ rfl, readStoreLen_none hread⟩
    rw [hbody, hread]
  | some v =>
    obtain ⟨n, len⟩ := v
    have hround : Runs body rp bb (.again, act n len, bb.drop n) := by rw [hbody, hread]
    have hle := (readStoreLen_length_le hread).2
    apply FollowsBy.round hround ?_ (hframe n len) (hnext n len)
    rw [hparsed, List.length_drop]
    omega

end Rounds

theorem append_empty (bytes : List UInt8) : NxStr.append (some []) bytes = some (bytes.map some) := by
  rw [NxStr.append]
  split
  · next hnil => rw [hnil, List.map_nil]
  · rfl

section Compressed

variable {val : StrRef} {d e cLen len : Nat} {rp : RdbParser} {bb : List UInt8}

/-- Nothing is missing: the buffer is decompressed, in any later call too. -/
theorem buildLzf_full (h : (rp.slots e).cLen - (rp.slots e).tmpVal.len = 0) :
    buildLzf val e rp bb =
      match decompressed (rp.slots e).tmpVal (rp.slots e).len with
      | .error rc => (rc, rp, bb)
      | .ok s => (.over, rp.setStr s val, bb) := by
  have hwrite : (rp.write e (rp.slots e)).calcCrc 0 = rp := by
    rw [RdbParser.write, Function.update_eq_self]
    rfl
  rw [buildLzf]
  simp only [h, Nat.min_zero, List.take_zero, List.drop_zero, Nat.lt_irrefl, and_false, if_false, if_true,
    NxStr.append]
  cases decompressed (rp.slots e).tmpVal (rp.slots e).len with
  | error rc => exact congrArg (fun r => (rc, r, bb)) hwrite
  | ok s => exact congrArg (fun r : RdbParser => (Rc.over, r.setStr s val, bb)) hwrite

/-- The compressed bytes come into an empty buffer. -/
theorem buildLzf_fresh (hcLen : (rp.slots e).cLen = cLen) (htmp : (rp.slots e).tmpVal = some [])
    (hlen : (rp.slots e).len = len) :
    buildLzf val e rp bb =
      if noBuffer cLen ∧ bb ≠ [] then (.stray, rp, bb)
      else
        let data := bb.take cLen
        let rp' := (rp.write e { rp.slots e with tmpVal := some (data.map some) }).calcCrc
          (min bb.length cLen)
        if bb.length < cLen then (.premature, rp', [])
        else
          match decompressed (some (data.map some)) len with
          | .error rc => (rc, rp', bb.drop cLen)
          | .ok s => (.over, rp'.setStr s val, bb.drop cLen) := by
  have hbuffer : noBuffer cLen ∧ 0 < min bb.length cLen ↔ noBuffer cLen ∧ bb ≠ [] := by
    refine and_congr_right fun hno => ?_
    rw [noBuffer] at hno
    rw [← List.length_pos_iff]
    omega
  rw [buildLzf]
  simp only [hcLen, htmp, hlen, NxStr.len, Option.getD_some, List.length_nil, Nat.sub_zero, hbuffer,
    append_empty]
  split
  · rfl
  · by_cases hshort : bb.length < cLen
    · have hmin : min bb.length cLen = bb.length := by omega
      have htake : bb.take cLen = bb := List.take_of_length_le (by omega)
      rw [if_pos hshort, if_neg (by omega), hmin, List.take_length, List.drop_length, htake]
    · have hmin : min bb.length cLen = cLen := by omega
      rw [if_neg hshort, hmin]
      cases decompressed (some ((bb.take cLen).map some)) len <;> exact if_pos rfl

theorem lzfBody_idle (h : (rp.slots e).state = buildLzfStringIdle) {out : Rc × RdbParser × List UInt8} :
    Runs (lzfBody val e) rp bb out ↔ buildCompressLen e rp bb = out := by
  rw [lzfBody, runs_dispatch]
  simp only [h, true_or, if_true]
  exact runs_ofStep

theorem lzfBody_rawLen (h : (rp.slots e).state = buildLzfStringRawLen)
    {out : Rc × RdbParser × List UInt8} :
    Runs (lzfBody val e) rp bb out ↔ buildRawLen e rp bb = out := by
  rw [lzfBody, runs_dispatch]
  simp only [h]
  exact runs_ofStep

theorem lzfBody_lzf (h : (rp.slots e).state = buildLzfStringLzf) {out : Rc × RdbParser × List UInt8} :
    Runs (lzfBody val e) rp bb out ↔ buildLzf val e rp bb = out := by
  rw [lzfBody, runs_dispatch]
  simp only [h]
  exact runs_ofStep

/-- The last round on a compressed string. -/
theorem inflate_follows (hval : val.Under d) (hstacked : Stacked (d + 2) rp)
    (hslot : rp.slots (d + 1) = { RdbObjectBuilder.zero with
      depth := d + 1, cLen, state := buildLzfStringLzf, tmpVal := some [], len }) :
    Follows (d + 2) (d + 2) (lzfBody val (d + 1)) rp bb
      (fun s rp' => rp'.nelts = rp.nelts ∧ Same (d + 1) (rp.setStr s val) rp')
      ((readBytes cLen bb).bind fun data rest => inflate data len rest) := by
  have hfresh := @buildLzf_fresh val (d + 1) cLen len rp bb (by rw [hslot]) (by rw [hslot])
    (by rw [hslot])
  have hrun : ∀ out, Runs (lzfBody val (d + 1)) rp bb out ↔ buildLzf val (d + 1) rp bb = out :=
    fun out => lzfBody_lzf (by rw [hslot])
  rw [readBytes]
  by_cases hno : noBuffer cLen ∧ bb ≠ []
  · rw [if_pos hno] at hfresh ⊢
    exact ⟨rp, bb, (hrun _).2 hfresh⟩
  · rw [if_neg hno] at hfresh ⊢
    by_cases hshort : bb.length < cLen
    · rw [if_pos hshort]
      dsimp only at hfresh
      rw [if_pos hshort] at hfresh
      exact ⟨_, (hrun _).2 hfresh, Nat.succ_pos 8⟩
    · rw [if_neg hshort]
      dsimp only at hfresh
      rw [if_neg hshort] at hfresh
      have hmin : min bb.length cLen = cLen := by omega
      set rp' := (rp.write (d + 1) { rp.slots (d + 1) with
        tmpVal := some ((bb.take cLen).map some) }).calcCrc (min bb.length cLen) with hrp'
      have hsame : Same (d + 1) rp rp' := (same_write (Nat.le_refl _) _).calcCrc _
      have hkept : Kept (d + 2) rp rp' := by
        apply Kept.trans (kept_strings _) (kept_calcCrc _)
        rfl
      have hslot' : rp'.slots (d + 1) = { rp.slots (d + 1) with
          tmpVal := some ((bb.take cLen).map some) } := by
        simp only [hrp', RdbParser.calcCrc, RdbParser.write, Function.update_self]
      show Follows _ _ _ _ _ _ (inflate (bb.take cLen) len (bb.drop cLen))
      rw [inflate]
      cases hdata : decompressed (some ((bb.take cLen).map some)) len with
      | ok s =>
        rw [hdata] at hfresh
        refine ⟨rp'.setStr s val, (hrun _).2 hfresh, ?_, nelts_setStr s, same_setStr hval hsame s⟩
        rw [parsed_setStr, List.length_drop]
        show rp.parsed + min bb.length cLen + _ = _
        omega
      | error rc =>
        rw [hdata] at hfresh
        rcases decompressed_error hdata with rfl | rfl
        · exact ⟨rp', _, (hrun _).2 hfresh⟩
        · refine ⟨rp', (hrun _).2 hfresh, rfl, hstacked.kept hkept, hkept.toFrame, fun more => ?_⟩
          have hagain := @buildLzf_full val (d + 1) rp' (bb.drop cLen ++ more) (by
            rw [hslot', hslot]
            simp only [NxStr.len, Option.getD_some, List.length_map, List.length_take]
            omega)
          rw [hslot', hslot] at hagain
          simp only [hdata] at hagain
          exact (lzfBody_lzf (by rw [hslot', hslot])).2 hagain

theorem lzf_follows (htop : AtTop d rp) (hd : d + 1 < 2 ^ 8) (hval : val.Under d) :
    Follows (d + 1) (d + 1) (buildLzfStringValue val d) rp bb
      (fun s rp' => rp'.nelts = d + 1 ∧ Same (d + 1) (rp.setStr s val) rp') (readLzf bb) := by
  have hslot := pushed_slot (d + 1) rp
  have hsame := (same_pushed (d + 1) rp)
  apply Follows.popOver (fun s rp' => rp'.nelts = d + 2 ∧ Same (d + 1) (rp.setStr s val) rp')
    htop hd
  · apply follows_readLen (fun n len => ((pushed (d + 1) rp).write (d + 1) { RdbObjectBuilder.zero with
      depth := d + 1, cLen := len.2, state := buildLzfStringRawLen, tmpVal := some [] }).calcCrc n)
    · intro out
      rw [lzfBody_idle (by rw [hslot]; rfl), buildCompressLen, hslot]
      cases rdbObjectReadStoreLen bb <;> exact Iff.rfl
    · exact fun _ _ => rfl
    · intro n len
      apply Kept.toFrame
      apply kept_write_calcCrc (Nat.le_refl _)
      rw [hslot]
    intro n cLen
    set rp₂ := ((pushed (d + 1) rp).write (d + 1) { RdbObjectBuilder.zero with
      depth := d + 1, cLen := cLen.2, state := buildLzfStringRawLen, tmpVal := some [] }).calcCrc n with hrp₂
    have hslot₂ : rp₂.slots (d + 1) = { RdbObjectBuilder.zero with
        depth := d + 1, cLen := cLen.2, state := buildLzfStringRawLen, tmpVal := some [] } := by
      simp only [hrp₂, RdbParser.calcCrc, RdbParser.write, Function.update_self]
    have hkept₂ : Kept (d + 1) (pushed (d + 1) rp) rp₂ := by
      apply kept_write_calcCrc (Nat.le_refl _)
      rw [hslot]
    have hsame₂ : Same (d + 1) rp rp₂ :=
      (hsame.trans (same_write (Nat.le_refl _) _)).calcCrc n
    apply follows_readLen (fun n len => (rp₂.write (d + 1) { rp₂.slots (d + 1) with
      len := len.2, state := buildLzfStringLzf }).calcCrc n)
    · intro out
      rw [lzfBody_rawLen (by rw [hslot₂]), buildRawLen]
      cases rdbObjectReadStoreLen (bb.drop _) <;> exact Iff.rfl
    · exact fun _ _ => rfl
    · intro n len
      apply Kept.toFrame
      apply kept_write_calcCrc (Nat.le_refl _)
      rfl
    intro n len
    set rp₃ := (rp₂.write (d + 1) { rp₂.slots (d + 1) with
      len := len.2, state := buildLzfStringLzf }).calcCrc n with hrp₃
    have hslot₃ : rp₃.slots (d + 1) = { RdbObjectBuilder.zero with
        depth := d + 1, cLen := cLen.2, state := buildLzfStringLzf, tmpVal := some [], len := len.2 } := by
      simp only [hrp₃, RdbParser.calcCrc, RdbParser.write, Function.update_self, hslot₂]
    have hsame₃ : Same (d + 1) rp rp₃ :=
      (hsame₂.trans (same_write (Nat.le_refl _) _)).calcCrc n
    have hkept₃ : Kept (d + 1) rp₂ rp₃ := by
      apply kept_write_calcCrc (Nat.le_refl _)
      rfl
    have hstacked₃ : Stacked (d + 2) rp₃ := (htop.pushed.stacked.kept hkept₂).kept hkept₃
    refine ((inflate_follows hval hstacked₃ hslot₃).last hstacked₃ (Nat.le_succ _)).mono ?_
    rintro s rp' ⟨hnelts, hdone⟩
    exact ⟨hnelts, (same_setStr hval hsame₃ s).trans hdone⟩
  · rintro s rp' ⟨hnelts, hdone⟩
    obtain ⟨hpop, hnelts'⟩ := pop_same rp' hnelts
    exact ⟨hnelts', hdone.trans hpop⟩

end Compressed

section Strings

variable {val : StrRef} {ob d : Nat} {rp : RdbParser} {bb : List UInt8}
  {out : Rc × RdbParser × List UInt8}

theorem stringBody_idle (h : (rp.slots d).state = buildStringIdle) :
    Runs (stringBody val d) rp bb out ↔ stringStoreLen val d rp bb = out := by
  rw [stringBody, runs_dispatch]
  simp only [h, true_or, if_true]
  exact runs_ofStep

theorem stringBody_enc (h : (rp.slots d).state = buildStringEnc) :
    Runs (stringBody val d) rp bb out ↔ Runs (stringEnc val d) rp bb out := by
  rw [stringBody, runs_dispatch]
  simp only [h]
  exact Iff.rfl

theorem stringBody_plain (h : (rp.slots d).state = buildStringPlain) :
    Runs (stringBody val d) rp bb out ↔ stringPlain val d rp bb = out := by
  rw [stringBody, runs_dispatch]
  simp only [h]
  exact runs_ofStep

/-- The bytes of a plain string come into an empty buffer. -/
theorem plain_follows {n k m : Nat} (hstate : (rp.slots d).state = buildStringPlain)
    (hstoreLen : (rp.slots d).storeLen = n) (hstr : rp.str val = some []) :
    Follows k m (stringBody val d) rp bb
      (fun s rp' => rp'.nelts = rp.nelts ∧ ∃ n, rp' = (rp.setStr s val).calcCrc n)
      ((readBytes n bb).map fun s => some (s.map some)) := by
  have hbuffer : noBuffer n ∧ 0 < min bb.length n ↔ noBuffer n ∧ bb ≠ [] := by
    refine and_congr_right fun hno => ?_
    rw [noBuffer] at hno
    rw [← List.length_pos_iff]
    omega
  have hrun : ∀ out, Runs (stringBody val d) rp bb out ↔
      (if noBuffer n ∧ bb ≠ [] then (.stray, rp, bb)
      else (if n = min bb.length n then .over else .premature,
        (rp.setStr (some ((bb.take (min bb.length n)).map some)) val).calcCrc (min bb.length n),
        bb.drop (min bb.length n))) = out := by
    intro out
    rw [stringBody_plain hstate, stringPlain]
    simp only [hstoreLen, hstr, NxStr.len, Option.getD_some, List.length_nil, Nat.sub_zero, hbuffer,
      append_empty]
  rw [readBytes]
  by_cases hno : noBuffer n ∧ bb ≠ []
  · rw [if_pos hno]
    exact ⟨rp, bb, (hrun _).2 (if_pos hno)⟩
  · rw [if_neg hno]
    by_cases hshort : bb.length < n
    · rw [if_pos hshort]
      refine ⟨(rp.setStr (some ((bb.take (min bb.length n)).map some)) val).calcCrc (min bb.length n),
        (hrun _).2 ?_, Nat.succ_pos 8⟩
      have hmin : min bb.length n = bb.length := by omega
      rw [if_neg hno, if_neg (by omega), hmin, List.drop_length]
    · rw [if_neg hshort]
      have hmin : min bb.length n = n := by omega
      refine ⟨(rp.setStr (some ((bb.take n).map some)) val).calcCrc n, (hrun _).2 ?_, ?_, nelts_setStr _,
        n, rfl⟩
      · rw [if_neg hno, hmin, if_pos rfl]
      · show (rp.setStr _ val).parsed + n + _ = _
        rw [parsed_setStr, List.length_drop]
        omega

theorem int_follows {enc k m : Nat} (henc : enc = encInt8 ∨ enc = encInt16 ∨ enc = encInt32)
    (hstate : (rp.slots d).state = buildStringEnc) (hstoreLen : (rp.slots d).storeLen = enc) :
    Follows k m (stringBody val d) rp bb
      (fun s rp' => rp'.nelts = rp.nelts ∧ ∃ n, rp' = (rp.setStr s val).calcCrc n) (readInt enc bb) := by
  have hrun : ∀ out, Runs (stringBody val d) rp bb out ↔ stringInt val d rp bb = out := by
    intro out
    rw [stringBody_enc hstate, stringEnc, runs_dispatch]
    simp only [hstoreLen, if_pos henc]
    exact runs_ofStep
  rw [readInt]
  cases hread : rdbObjectReadInt bb enc with
  | none =>
    refine ⟨rp, (hrun _).2 ?_, readInt_none hread⟩
    simp only [stringInt, hstoreLen, hread]
  | some v =>
    cases hprinted : printed 32 v.2 with
    | none =>
      simp only [hprinted]
      refine ⟨rp, bb, (hrun _).2 ?_⟩
      simp only [stringInt, hstoreLen, hread, hprinted]
    | some s =>
      simp only [hprinted]
      have hle := (prefixed_readInt enc bb v.1 v.2 hread).1
      refine ⟨(rp.setStr (some (s.map some)) val).calcCrc v.1, (hrun _).2 ?_, ?_, nelts_setStr _,
        v.1, rfl⟩
      · simp only [stringInt, hstoreLen, hread, hprinted]
      · show (rp.setStr _ val).parsed + v.1 + _ = _
        rw [parsed_setStr, List.length_drop]
        omega

theorem enc_follows {enc : Nat} (htop : AtTop d rp) (hd : d + 1 < 2 ^ 8) (hval : val.Under d)
    (hstate : (rp.slots d).state = buildStringEnc) (hstoreLen : (rp.slots d).storeLen = enc) :
    Follows (d + 1) (d + 1) (stringBody val d) rp bb
      (fun s rp' => rp'.nelts = d + 1 ∧ Same (d + 1) (rp.setStr s val) rp') (readEncoded enc bb) := by
  rw [readEncoded]
  split
  · next henc =>
    refine (int_follows henc hstate hstoreLen).mono ?_
    rintro s rp' ⟨hnelts, n, rfl⟩
    exact ⟨hnelts.trans htop.nelts, (Same.refl _ _).calcCrc n⟩
  · next hint =>
    split
    · next hlzf =>
      rw [← (readLzf bb).bind_done]
      apply (lzf_follows htop hd hval).bind htop.stacked (Nat.le_refl _)
      · intro rp' _ hframe
        apply begins_congr
        intro bb out
        rw [stringBody_enc (hframe.chosen.1.trans hstate), stringEnc, runs_dispatch]
        simp only [hframe.chosen.2.1, hstoreLen, if_neg hint, if_pos hlzf]
      · intro s rest rp' _ hrun hparsed hdone
        refine ⟨rp', ?_, hparsed, hdone⟩
        rw [stringBody_enc hstate, stringEnc, runs_dispatch]
        simp only [hstoreLen, if_neg hint, if_pos hlzf]
        exact hrun
    · next hlzf =>
      have hrun : ∀ bb, Runs (stringBody val d) rp bb (.invalidStingEnc, rp, bb) := by
        intro bb
        rw [stringBody_enc hstate, stringEnc, runs_dispatch]
        simp only [hstoreLen, if_neg hint, if_neg hlzf]
        exact runs_ofStep.2 rfl
      exact ⟨rp, hrun bb, rfl, htop.stacked, Frame.refl _ _, fun _ => hrun _⟩

/-- The last round on a string, after the byte that says how it is encoded. -/
theorem enc_last (htop : AtTop ob rp) (hob : ob + 2 < 2 ^ 8) (hval : val.Under ob) (n enc : Nat) :
    Follows (ob + 2) (ob + 1) (builderLoop (stringBody val) (ob + 1))
      (((pushed (ob + 1) rp).write (ob + 1) { RdbObjectBuilder.zero with
        depth := ob + 1, storeLen := enc, state := buildStringEnc }).calcCrc n) bb
      (fun s rp' => rp'.nelts = ob + 2 ∧ Same (ob + 1) (rp.setStr s val) rp') (readEncoded enc bb) := by
  set rp₂ := ((pushed (ob + 1) rp).write (ob + 1) { RdbObjectBuilder.zero with
    depth := ob + 1, storeLen := enc, state := buildStringEnc }).calcCrc n with hrp₂
  have hslot₂ : rp₂.slots (ob + 1) = { RdbObjectBuilder.zero with
      depth := ob + 1, storeLen := enc, state := buildStringEnc } := by
    simp only [hrp₂, RdbParser.calcCrc, RdbParser.write, Function.update_self]
  have hsame₂ : Same (ob + 1) rp rp₂ :=
    ((same_pushed (ob + 1) rp).trans (same_write (Nat.le_refl _) _)).calcCrc n
  have htop₂ : AtTop (ob + 1) rp₂ := by
    refine ⟨rfl, fun i hi => ?_⟩
    rcases Nat.lt_or_eq_of_le hi with hlt | rfl
    · rw [hsame₂.slots i hlt]
      exact htop.depths i (Nat.le_of_lt_succ hlt)
    · rw [hslot₂]
  refine ((enc_follows htop₂ hob hval.succ (by rw [hslot₂]) (by rw [hslot₂])).last htop₂.stacked
    (Nat.le_succ _)).mono ?_
  rintro s rp' ⟨hnelts, hdone⟩
  exact ⟨hnelts, (same_setStr hval hsame₂ s).trans (hdone.le (Nat.le_succ _))⟩

theorem plain_last (htop : AtTop ob rp) (hval : val.Under ob) (n len : Nat) :
    Follows (ob + 2) (ob + 1) (builderLoop (stringBody val) (ob + 1))
      ((((pushed (ob + 1) rp).write (ob + 1) { RdbObjectBuilder.zero with
        depth := ob + 1, storeLen := len, state := buildStringPlain }).setStr (some []) val).calcCrc n) bb
      (fun s rp' => rp'.nelts = ob + 2 ∧ Same (ob + 1) (rp.setStr s val) rp')
      ((readBytes len bb).map fun s => some (s.map some)) := by
  set rp₁ := (pushed (ob + 1) rp).write (ob + 1) { RdbObjectBuilder.zero with
    depth := ob + 1, storeLen := len, state := buildStringPlain } with hrp₁
  have hslot₁ : (rp₁.setStr (some []) val).slots (ob + 1) = { RdbObjectBuilder.zero with
      depth := ob + 1, storeLen := len, state := buildStringPlain } := by
    rw [slots_setStr hval (Nat.lt_succ_self ob)]
    simp only [hrp₁, RdbParser.write, Function.update_self]
  have hsame₁ : Same (ob + 1) rp rp₁ :=
    (same_pushed (ob + 1) rp).trans (same_write (Nat.le_refl _) _)
  have hkept : Kept (ob + 1) (pushed (ob + 1) rp) ((rp₁.setStr (some []) val).calcCrc n) := by
    apply Kept.trans (Kept.trans (kept_write (Nat.le_refl _) _) (kept_setStr _ _)) (kept_calcCrc n)
    rw [pushed_slot]
  refine ((plain_follows (by rw [slots_calcCrc, hslot₁]) (by rw [slots_calcCrc, hslot₁])
    (by rw [str_calcCrc, str_setStr])).last (htop.pushed.stacked.kept hkept) (Nat.le_succ _)).mono ?_
  rintro s rp' ⟨hnelts, n', rfl⟩
  refine ⟨hnelts.trans hkept.nelts, ?_⟩
  rw [setStr_calcCrc, setStr_setStr]
  exact ((same_setStr hval hsame₁ s).calcCrc n).calcCrc n'

/-- A string is built as it is read. -/
theorem string_follows (htop : AtTop ob rp) (hob : ob + 2 < 2 ^ 8) (hval : val.Under ob) :
    Follows (ob + 1) (ob + 1) (buildStringValue val ob) rp bb
      (fun s rp' => rp'.nelts = ob + 1 ∧ Same (ob + 1) (rp.setStr s val) rp') (readString bb) := by
  have hslot := pushed_slot (ob + 1) rp
  have hsame := (same_pushed (ob + 1) rp)
  apply Follows.popOver (fun s rp' => rp'.nelts = ob + 2 ∧ Same (ob + 1) (rp.setStr s val) rp')
    htop (Nat.lt_of_succ_lt hob)
  · apply follows_readLen (fun n len =>
      if len.1 then ((pushed (ob + 1) rp).write (ob + 1) { RdbObjectBuilder.zero with
        depth := ob + 1, storeLen := len.2, state := buildStringEnc }).calcCrc n
      else (((pushed (ob + 1) rp).write (ob + 1) { RdbObjectBuilder.zero with
        depth := ob + 1, storeLen := len.2, state := buildStringPlain }).setStr (some []) val).calcCrc n)
    · intro out
      rw [stringBody_idle (by rw [hslot]; rfl), stringStoreLen, hslot]
      rcases rdbObjectReadStoreLen bb with _ | ⟨n, enc, len⟩
      · exact Iff.rfl
      · cases enc <;> exact Iff.rfl
    · rintro n ⟨enc, len⟩
      cases enc with
      | true => rfl
      | false => exact congrArg (· + n) (@parsed_setStr val _ _)
    · rintro n ⟨enc, len⟩
      cases enc with
      | true =>
        apply Kept.toFrame
        apply kept_write_calcCrc (Nat.le_refl _)
        rw [hslot]
      | false =>
        apply Kept.toFrame
        apply Kept.trans (Kept.trans (kept_write (Nat.le_refl _) _) (kept_setStr _ _)) (kept_calcCrc n)
        rw [hslot]
    · rintro n ⟨enc, len⟩
      cases enc with
      | true => exact enc_last htop hob hval n len
      | false => exact plain_last htop hval n len
  · rintro s rp' ⟨hnelts, hdone⟩
    obtain ⟨hpop, hnelts'⟩ := pop_same rp' hnelts
    exact ⟨hnelts', hdone.trans hpop⟩

end Strings

end KjRedis.Rdb
