import KjRedis.Rdb.Frames

/-! Wherever a builder of the RDB parser runs out of input, it resumes there. -/
namespace KjRedis.Rdb

open Resumption

section Strings

variable {ob : Nat} (val : StrRef)

@[simp] theorem slots_calcCrc (rp : RdbParser) (n : Nat) : (rp.calcCrc n).slots = rp.slots := rfl

@[simp] theorem str_calcCrc (rp : RdbParser) (n : Nat) : (rp.calcCrc n).str val = rp.str val := by
  cases val <;> rfl

theorem calcCrc_calcCrc (rp : RdbParser) (m n : Nat) :
    (rp.calcCrc m).calcCrc n = rp.calcCrc (m + n) := by
  simp only [RdbParser.calcCrc, Nat.add_assoc]

theorem setStr_calcCrc (rp : RdbParser) (s : NxStr) (n : Nat) :
    (rp.calcCrc n).setStr s val = (rp.setStr s val).calcCrc n := by
  cases val <;> rfl

theorem setStr_setStr (rp : RdbParser) (s t : NxStr) :
    (rp.setStr s val).setStr t val = rp.setStr t val := by
  cases val with
  | auxKey | auxVal | objectKey | objectVal => rfl
  | tmpKey | tmpVal => simp only [RdbParser.setStr, RdbParser.write, Function.update_self, Function.update_idem]

theorem str_setStr (rp : RdbParser) (s : NxStr) : (rp.setStr s val).str val = s := by
  cases val with
  | auxKey | auxVal | objectKey | objectVal => rfl
  | tmpKey | tmpVal => simp only [RdbParser.setStr, RdbParser.str, RdbParser.write, Function.update_self]

theorem storeLen_setStr (rp : RdbParser) (s : NxStr) :
    ((rp.setStr s val).slots ob).storeLen = (rp.slots ob).storeLen := by
  have hkept : Kept (ob + 1) rp (rp.setStr s val) := kept_setStr s val
  have hcontrol := hkept.control ob (Nat.lt_succ_self ob)
  exact congrArg (fun c => c.2.2.1) hcontrol

theorem setStr_str (rp : RdbParser) : rp.setStr (rp.str val) val = rp := by
  cases val with
  | auxKey | auxVal | objectKey | objectVal => rfl
  | tmpKey | tmpVal => simp only [RdbParser.setStr, RdbParser.str, RdbParser.write, Function.update_eq_self]

theorem NxStr.len_append (s : NxStr) (x : List UInt8) : (s.append x).len = s.len + x.length := by
  by_cases hx : x = []
  · simp only [NxStr.append, hx, if_true, List.length_nil, Nat.add_zero]
  · simp only [NxStr.append, hx, if_false, NxStr.len, Option.getD_some, List.length_append,
      List.length_map]

theorem NxStr.append_append (s : NxStr) (x y : List UInt8) :
    (s.append x).append y = s.append (x ++ y) := by
  by_cases hx : x = []
  · simp only [NxStr.append, hx, if_true, List.nil_append]
  · by_cases hy : y = []
    · simp only [NxStr.append, hx, hy, if_true, List.append_nil]
    · simp [NxStr.append, hx, hy]

/-- A step that takes off what there is, up to what is wanted, and `done` when it has it all. -/
structure Fills (k : Nat) (f : Step) (want : RdbParser → Nat) (full : RdbParser → Prop)
    [DecidablePred full] (put : RdbParser → List UInt8 → RdbParser)
    (done : RdbParser → Rc × RdbParser) : Prop where
  want_put : ∀ rp x, want (put rp x) = want rp - x.length
  put_nil : ∀ rp, put rp [] = rp
  put_put : ∀ rp x y, put (put rp x) y = put rp (x ++ y)
  full_put : ∀ rp x, full (put rp x) ↔ full rp
  kept_put : ∀ rp x, Kept k rp (put rp x)
  code : ∀ rp, (done rp).1 ≠ .premature
  kept_done : ∀ rp, Kept (k - 1) rp (done rp).2
  step : ∀ rp bb n, n = min bb.length (want rp) → (bb.take n).length = n → f rp bb =
    if full rp ∧ 0 < n then (.stray, rp, bb)
    else if want rp = n then
      ((done (put rp (bb.take n))).1, (done (put rp (bb.take n))).2, bb.drop n)
    else (.premature, put rp (bb.take n), bb.drop n)

section Fill

variable {k : Nat} {f : Step} {want : RdbParser → Nat} {full : RdbParser → Prop} [DecidablePred full]
  {put : RdbParser → List UInt8 → RdbParser} {done : RdbParser → Rc × RdbParser}

theorem Fills.eq (h : Fills k f want full put done) (rp : RdbParser) (bb : List UInt8) : f rp bb =
    if full rp ∧ 0 < min bb.length (want rp) then (.stray, rp, bb)
    else if want rp = min bb.length (want rp) then
      ((done (put rp (bb.take (want rp)))).1, (done (put rp (bb.take (want rp)))).2, bb.drop (want rp))
    else (.premature, put rp bb, []) := by
  rw [h.step rp bb _ rfl (by rw [List.length_take]; omega)]
  by_cases hall : want rp = min bb.length (want rp)
  · rw [if_pos hall, if_pos hall, ← hall]
  · have hmin : min bb.length (want rp) = bb.length := by omega
    rw [if_neg hall, if_neg hall, hmin, List.take_length, List.drop_length]

/-- Where it waits, it has taken everything. -/
theorem Fills.short (h : Fills k f want full put done) {rp : RdbParser} {bb : List UInt8}
    (hwait : (f rp bb).1 = .premature) :
    f rp bb = (.premature, put rp bb, []) ∧ bb.length < want rp ∧ (full rp → bb = []) := by
  rw [h.eq] at hwait ⊢
  split at hwait
  · cases hwait
  · next hfull =>
    split at hwait
    · exact absurd hwait (h.code _)
    · next hless =>
      have hlt : bb.length < want rp := by omega
      rw [if_neg hfull, if_neg hless]
      refine ⟨rfl, hlt, fun hrp => ?_⟩
      rw [← List.length_eq_zero_iff]
      by_contra hne
      exact hfull ⟨hrp, by omega⟩

theorem Fills.kept (h : Fills k f want full put done) (rp : RdbParser) (bb : List UInt8) :
    Kept (k - 1) rp (f rp bb).2.1 := by
  have hle : ∀ x, Kept (k - 1) rp (put rp x) := fun x => (h.kept_put rp x).le (Nat.sub_le k 1)
  rw [h.eq]
  split
  · exact Kept.refl _ _
  · split
    · exact (hle _).trans (h.kept_done _)
    · exact hle bb

theorem Fills.extend (h : Fills k f want full put done) {rp : RdbParser} {bb : List UInt8}
    (hcode : (f rp bb).1 ≠ .premature) (more : List UInt8) :
    f rp (bb ++ more) = ((f rp bb).1, (f rp bb).2.1, (f rp bb).2.2 ++ more) := by
  rw [h.eq rp (bb ++ more)]
  rw [h.eq] at hcode ⊢
  rw [List.length_append]
  split at hcode
  · next hfull =>
    rw [if_pos hfull, if_pos ⟨hfull.1, by omega⟩]
  · next hfull =>
    split at hcode
    · next hdone =>
      have hle : want rp ≤ bb.length := by omega
      rw [if_neg hfull, if_pos hdone, if_neg (fun hstray => hfull ⟨hstray.1, by omega⟩),
        if_pos (by omega), List.take_append_of_le_length hle, List.drop_append_of_le_length hle]
    · exact absurd rfl hcode

theorem Fills.resume (h : Fills k f want full put done) {rp : RdbParser} {bb : List UInt8}
    (hwait : (f rp bb).1 = .premature) (more : List UInt8) :
    f rp (bb ++ more) = f (f rp bb).2.1 ((f rp bb).2.2 ++ more) := by
  obtain ⟨heq, hlt, hempty⟩ := h.short hwait
  rw [heq, List.nil_append]
  by_cases hrp : full rp
  · rw [hempty hrp, List.nil_append, h.put_nil]
  · have hrp' : ¬full (put rp bb) := fun h' => hrp ((h.full_put rp bb).1 h')
    have htake : (bb ++ more).take (want rp) = bb ++ more.take (want rp - bb.length) := by
      rw [List.take_append, List.take_of_length_le (Nat.le_of_lt hlt)]
    have hdrop : (bb ++ more).drop (want rp) = more.drop (want rp - bb.length) := by
      rw [List.drop_append, List.drop_of_length_le (Nat.le_of_lt hlt), List.nil_append]
    have hwhole := h.eq rp (bb ++ more)
    have hrest := h.eq (put rp bb) more
    rw [if_neg (fun h' => hrp h'.1), htake, hdrop, List.length_append] at hwhole
    rw [if_neg (fun h' => hrp' h'.1), h.want_put, h.put_put, h.put_put] at hrest
    rw [hwhole, hrest]
    by_cases hall : want rp - bb.length = min more.length (want rp - bb.length)
    · rw [if_pos (by omega), if_pos hall]
    · rw [if_neg (by omega), if_neg hall]

theorem Fills.lawful (h : Fills k f want full put done) : LawfulAt k (ofStep f) := by
  apply Lawful.step
  · intro rp bb hrp
    exact hrp.kept (h.kept rp bb)
  · intro rp bb _
    exact (h.kept rp bb).toFrame
  · intro rp bb _ hwait
    rw [(h.short hwait).1]
    exact (h.kept_put rp bb).toFrame
  · exact fun rp bb more _ hcode => h.extend hcode more
  · exact fun rp bb more _ hwait => h.resume hwait more

end Fill

theorem lawful_buildCompressLen (ob : Nat) : LawfulAt (ob + 1) (ofStep (buildCompressLen ob)) := by
  apply lawful_read (fun _ => rdbObjectReadStoreLen) (fun n v rp => (.again,
    (rp.write ob { rp.slots ob with
      cLen := v.2, state := buildLzfStringRawLen
      tmpVal := some (List.replicate (rp.slots ob).tmpVal.len none), len := 0 }).calcCrc n))
  · exact fun _ => prefixed_readStoreLen
  · exact fun _ _ _ => Rc.noConfusion
  · intro n v rp
    apply kept_write_calcCrc (Nat.le_refl ob)
    rfl
  · intro rp bb
    simp only [buildCompressLen]
    cases rdbObjectReadStoreLen bb <;> rfl

theorem lawful_buildRawLen (ob : Nat) : LawfulAt (ob + 1) (ofStep (buildRawLen ob)) := by
  apply lawful_read (fun _ => rdbObjectReadStoreLen) (fun n v rp => (.again,
    (rp.write ob { rp.slots ob with len := v.2, state := buildLzfStringLzf }).calcCrc n))
  · exact fun _ => prefixed_readStoreLen
  · exact fun _ _ _ => Rc.noConfusion
  · intro n v rp
    apply kept_write_calcCrc (Nat.le_refl ob)
    rfl
  · intro rp bb
    simp only [buildRawLen]
    cases rdbObjectReadStoreLen bb <;> rfl

theorem decompressed_error {tmpVal : NxStr} {len : Nat} {rc : Rc}
    (h : decompressed tmpVal len = .error rc) : rc = .stray ∨ rc = .lzfDecompress := by
  rw [decompressed] at h
  split at h
  · cases h
    exact Or.inl rfl
  · split at h
    · cases h
      exact Or.inl rfl
    · split at h
      · cases h
        exact Or.inr rfl
      · cases h

theorem fills_buildLzf (val : StrRef) (ob : Nat) : Fills (ob + 1) (buildLzf val ob)
    (fun rp => (rp.slots ob).cLen - (rp.slots ob).tmpVal.len)
    (fun rp => noBuffer (rp.slots ob).cLen)
    (fun rp x => (rp.write ob { rp.slots ob with
      tmpVal := (rp.slots ob).tmpVal.append x }).calcCrc x.length)
    (fun rp => match decompressed (rp.slots ob).tmpVal (rp.slots ob).len with
      | .error rc => (rc, rp)
      | .ok s => (.over, rp.setStr s val)) where
  want_put rp x := by
    simp only [RdbParser.calcCrc, RdbParser.write, Function.update_self, NxStr.len_append,
      Nat.sub_add_eq]
  put_nil rp := by simp [RdbParser.calcCrc, RdbParser.write, NxStr.append]
  put_put rp x y := by simp [RdbParser.calcCrc, RdbParser.write, NxStr.append_append, Nat.add_assoc]
  full_put rp x := by simp [RdbParser.calcCrc, RdbParser.write]
  kept_put rp x := by
    apply Kept.trans (kept_strings _) (kept_calcCrc _)
    rfl
  code rp := by
    split
    · next heq => rcases decompressed_error heq with rfl | rfl <;> exact Rc.noConfusion
    · exact Rc.noConfusion
  kept_done rp := by
    split
    · exact Kept.refl _ _
    · exact kept_setStr _ _
  step rp bb n hn hlen := by
    simp only [buildLzf, ← hn, hlen, slots_calcCrc, RdbParser.write, Function.update_self]
    split
    · rfl
    · split
      · cases decompressed ((rp.slots ob).tmpVal.append (bb.take n)) (rp.slots ob).len <;> rfl
      · rfl

theorem fills_stringPlain (val : StrRef) (ob : Nat) : Fills (ob + 1) (stringPlain val ob)
    (fun rp => (rp.slots ob).storeLen - (rp.str val).len)
    (fun rp => noBuffer (rp.slots ob).storeLen)
    (fun rp x => (rp.setStr ((rp.str val).append x) val).calcCrc x.length) (fun rp => (.over, rp)) where
  want_put rp x := by
    simp only [slots_calcCrc, storeLen_setStr, str_calcCrc, str_setStr, NxStr.len_append,
      Nat.sub_add_eq]
  put_nil rp := by simp [NxStr.append, setStr_str, RdbParser.calcCrc]
  put_put rp x y := by
    simp only [str_calcCrc, str_setStr, NxStr.append_append, setStr_calcCrc, setStr_setStr,
      calcCrc_calcCrc, List.length_append]
  full_put rp x := by simp only [slots_calcCrc, storeLen_setStr]
  kept_put _ _ := (kept_setStr _ _).trans (kept_calcCrc _)
  code _ := Rc.noConfusion
  kept_done _ := Kept.refl _ _
  step rp bb n hn hlen := by
    simp only [stringPlain, ← hn, hlen]
    split
    · rfl
    · split <;> rfl

theorem lawful_buildLzfStringValue (hob : ob + 1 < 2 ^ 8) :
    LawfulAt (ob + 1) (buildLzfStringValue val ob) := by
  apply lawful_popOver hob
  apply lawful_dispatch
  · intro rp
    dsimp only
    split
    · exact lawful_buildCompressLen (ob + 1)
    · split
      · exact lawful_buildRawLen (ob + 1)
      · split
        · exact (fills_buildLzf val (ob + 1)).lawful
        · exact lawful_fail Rc.noConfusion
  · intro rp rp' h
    dsimp only
    rw [h.chosen.1]

theorem lawful_stringStoreLen (ob : Nat) : LawfulAt (ob + 1) (ofStep (stringStoreLen val ob)) := by
  apply lawful_read (fun _ => rdbObjectReadStoreLen) (fun n v rp => (.again,
    if v.1 then (rp.write ob { rp.slots ob with
      storeLen := v.2, cLen := 0, len := 0, state := buildStringEnc }).calcCrc n
    else ((rp.write ob { rp.slots ob with
      storeLen := v.2, cLen := 0, len := 0, state := buildStringPlain }).setStr (some []) val).calcCrc n))
  · exact fun _ => prefixed_readStoreLen
  · exact fun _ _ _ => Rc.noConfusion
  · intro n v rp
    dsimp only
    split
    · apply kept_write_calcCrc (Nat.le_refl ob)
      rfl
    · apply Kept.trans (Kept.trans (kept_write (Nat.le_refl ob) _) (kept_setStr _ _)) (kept_calcCrc n)
      rfl
  · intro rp bb
    simp only [stringStoreLen]
    cases rdbObjectReadStoreLen bb with
    | none => rfl
    | some v =>
      dsimp only
      split <;> rfl

theorem lawful_stringInt (ob : Nat) : LawfulAt (ob + 1) (ofStep (stringInt val ob)) := by
  apply lawful_read
    (fun rp bb => (rdbObjectReadInt bb (rp.slots ob).storeLen).map fun v =>
      if (printed 32 v.2).isSome then (v.1, printed 32 v.2) else (0, none))
    (fun n v rp => v.elim (.stray, rp) fun s32 =>
      (.over, (rp.setStr (some (s32.map some)) val).calcCrc n))
  · intro rp bb n v h
    obtain ⟨w, hw, heq⟩ := Option.map_eq_some_iff.1 h
    obtain ⟨hle, hmore⟩ := prefixed_readInt _ bb w.1 w.2 hw
    refine ⟨?_, fun more => ?_⟩
    · split at heq
      · cases heq
        exact hle
      · cases heq
        exact Nat.zero_le _
    · exact Option.map_eq_some_iff.2 ⟨w, hmore more, heq⟩
  · intro n v rp
    cases v <;> exact Rc.noConfusion
  · intro n v rp
    cases v with
    | none => exact Kept.refl _ _
    | some s32 => exact (kept_setStr _ _).trans (kept_calcCrc n)
  · intro rp bb
    simp only [stringInt]
    cases rdbObjectReadInt bb (rp.slots ob).storeLen with
    | none => rfl
    | some v =>
      dsimp only [Option.map_some]
      cases printed 32 v.2 <;> rfl

theorem lawful_buildStringValue (hob : ob + 2 < 2 ^ 8) :
    LawfulAt (ob + 1) (buildStringValue val ob) := by
  apply lawful_popOver (Nat.lt_of_succ_lt hob)
  apply lawful_dispatch
  · intro rp
    dsimp only
    split
    · exact lawful_stringStoreLen val (ob + 1)
    · split
      · apply lawful_dispatch
        · intro rp
          dsimp only
          split
          · exact lawful_stringInt val (ob + 1)
          · split
            · exact lawful_buildLzfStringValue val hob
            · exact lawful_fail Rc.noConfusion
        · intro rp rp' h
          dsimp only
          rw [h.chosen.2.1]
      · split
        · exact (fills_stringPlain val (ob + 1)).lawful
        · exact lawful_fail Rc.noConfusion
  · intro rp rp' h
    dsimp only
    rw [h.chosen.1]

end Strings

section Values

variable {ob : Nat}

theorem lawful_containerStoreLen (next ob : Nat) :
    LawfulAt (ob + 1) (ofStep (containerStoreLen next ob)) := by
  apply lawful_read (fun _ => rdbObjectReadStoreLen) (fun n v rp => (.again,
    (rp.write ob { rp.slots ob with storeLen := v.2, len := 0, state := next }).calcCrc n))
  · exact fun _ => prefixed_readStoreLen
  · exact fun _ _ _ => Rc.noConfusion
  · intro n v rp
    apply kept_write_calcCrc (Nat.le_refl ob)
    rfl
  · intro rp bb
    simp only [containerStoreLen]
    cases rdbObjectReadStoreLen bb <;> rfl

/-- What is done only when a builder is over. -/
theorem lawful_whenOver {k : Nat} {p : Builder} (h : LawfulAt k p)
    {g : Rc → RdbParser → Rc × RdbParser} (hother : ∀ rc rp, rc ≠ .over → g rc rp = (rc, rp))
    (hover : ∀ rp, (g .over rp).1 ≠ .premature ∧ Kept (k - 1) rp (g .over rp).2) :
    LawfulAt k (andThen p g) := by
  apply lawful_andThen h
  · exact fun rp => hother .premature rp Rc.noConfusion
  · intro rc rp hrc
    by_cases hov : rc = .over
    · rw [hov]
      exact (hover rp).1
    · rw [hother rc rp hov]
      exact hrc
  · intro rc rp
    by_cases hov : rc = .over
    · rw [hov]
      exact (hover rp).2
    · rw [hother rc rp hov]
      exact Kept.refl _ _

theorem lawful_thenState {p : Builder} (h : LawfulAt (ob + 1) p) (next : Nat) :
    LawfulAt (ob + 1) (andThen p (thenState next ob)) := by
  apply lawful_whenOver h
  · exact fun _ _ hrc => if_neg hrc
  · exact fun _ => ⟨Rc.noConfusion, kept_setState (Nat.le_refl ob) next⟩

theorem lawful_linkElement {p : Builder} (h : LawfulAt (ob + 1) p) (again : Nat) :
    LawfulAt (ob + 1) (andThen p (linkElement again ob)) := by
  apply lawful_whenOver h
  · exact fun _ _ hrc => if_neg hrc
  · intro rp
    simp only [linkElement, if_true]
    split
    · refine ⟨Rc.noConfusion, Kept.trans (kept_object ?_) (kept_write (Nat.le_refl ob) ?_)⟩
      · exact fun _ => rfl
      · rfl
    · refine ⟨Rc.noConfusion, Kept.trans (kept_object ?_)
        (Kept.trans (kept_write (Nat.le_refl ob) ?_) (kept_object ?_))⟩
      · exact fun _ => rfl
      · rfl
      · exact fun _ => rfl

theorem lawful_nextElement {element : Builder} (h : LawfulAt (ob + 1) element) (state : Nat) :
    LawfulAt (ob + 1) (nextElement state element ob) := by
  apply lawful_dispatch
  · intro rp
    split
    · exact h
    · apply Lawful.step
      · exact fun rp _ hrp => hrp.kept (kept_setState (Nat.le_refl ob) state)
      · exact fun rp _ _ => (kept_setState (Nat.le_refl ob) state).toFrame
      · exact fun _ _ _ hcode => Rc.noConfusion hcode
      · exact fun _ _ _ _ _ => rfl
      · exact fun _ _ _ _ hcode => Rc.noConfusion hcode
  · intro rp rp' h
    rw [h.chosen.2.1, h.chosen.2.2.1]

theorem lawful_buildListOrSetValue (hob : ob + 3 < 2 ^ 8) :
    LawfulAt (ob + 1) (buildListOrSetValue ob) := by
  apply lawful_popOver (by omega)
  apply lawful_dispatch
  · intro rp
    dsimp only
    split
    · exact lawful_containerStoreLen _ (ob + 1)
    · split
      · exact lawful_nextElement (lawful_linkElement (lawful_buildStringValue _ hob) _) _
      · exact lawful_fail Rc.noConfusion
  · intro rp rp' h
    dsimp only
    rw [h.chosen.1]

theorem lawful_buildHashOrZsetValue (hob : ob + 3 < 2 ^ 8) :
    LawfulAt (ob + 1) (buildHashOrZsetValue ob) := by
  apply lawful_popOver (by omega)
  apply lawful_dispatch
  · intro rp
    dsimp only
    split
    · exact lawful_containerStoreLen _ (ob + 1)
    · split
      · exact lawful_nextElement (lawful_thenState (lawful_buildStringValue _ hob) _) _
      · split
        · exact lawful_nextElement (lawful_linkElement (lawful_buildStringValue _ hob) _) _
        · exact lawful_fail Rc.noConfusion
  · intro rp rp' h
    dsimp only
    rw [h.chosen.1]

theorem lawful_buildCompactValue (load : NxStr → Option (List RdbKv)) (hob : ob + 2 < 2 ^ 8) :
    LawfulAt (ob + 1) (buildCompactValue load ob) := by
  apply lawful_whenOver (lawful_buildStringValue _ hob)
  · exact fun _ _ hrc => if_neg hrc
  · intro rp
    simp only [loadElements, if_true]
    split
    · exact ⟨Rc.noConfusion, Kept.refl _ _⟩
    · refine ⟨Rc.noConfusion, Kept.trans (kept_object ?_) (kept_strings ?_)⟩
      · exact fun _ => rfl
      · rfl

theorem lawful_kvValOf (hob : ob + 3 < 2 ^ 8) (type : UInt8) : LawfulAt (ob + 1) (kvValOf type ob) := by
  have hstring : ob + 2 < 2 ^ 8 := by omega
  rw [kvValOf]
  split
  · exact lawful_buildStringValue _ hstring
  · split
    · exact lawful_buildListOrSetValue hob
    · split
      · exact lawful_buildHashOrZsetValue hob
      · split
        · exact lawful_buildCompactValue loadZipmap hstring
        · split
          · exact lawful_buildCompactValue loadZiplistListOrSet hstring
          · split
            · exact lawful_buildCompactValue loadIntset hstring
            · split
              · exact lawful_buildCompactValue loadZiplistHashOrZset hstring
              · exact lawful_fail Rc.noConfusion

theorem lawful_buildObjectDetailKvVal (hob : ob + 3 < 2 ^ 8) :
    LawfulAt (ob + 1) (buildObjectDetailKvVal ob) := by
  apply lawful_dispatch
  · exact fun rp => lawful_kvValOf hob rp.o.type
  · intro rp rp' h
    rw [h.chosen.2.2.2]

theorem lawful_buildObjectDetailKv (hob : ob + 4 < 2 ^ 8) :
    LawfulAt (ob + 1) (buildObjectDetailKv ob) := by
  apply lawful_popOver (by omega)
  apply lawful_dispatch
  · intro rp
    dsimp only
    split
    · exact lawful_thenState (lawful_buildStringValue _ (by omega)) _
    · split
      · exact lawful_buildObjectDetailKvVal hob
      · exact lawful_fail Rc.noConfusion
  · intro rp rp' h
    dsimp only
    rw [h.chosen.1]

end Values

section Records

variable {ob : Nat} (cb : List RdbObject → Bool)

theorem lawful_buildObjectType (ob : Nat) : LawfulAt 1 (ofStep (buildObjectType ob)) := by
  apply lawful_read (fun _ => rdbObjectReadType) (fun n type rp => (.again,
    ({ rp with o := { rp.o with type } }.calcCrc n).setState ob buildBodyObjectDetail))
  · exact fun _ => prefixed_readType
  · exact fun _ _ _ => Rc.noConfusion
  · intro n type rp
    refine Kept.trans (Kept.trans (kept_object ?_) (kept_calcCrc n)) (kept_setState (Nat.zero_le ob) _)
    exact fun h => absurd h (Nat.lt_irrefl 0)
  · intro rp bb
    simp only [buildObjectType]
    cases rdbObjectReadType bb <;> rfl

theorem lawful_readDbSelector : LawfulAt 1 (ofStep readDbSelector) := by
  apply lawful_read (fun _ => rdbObjectReadStoreLen) (fun n v rp => (.over,
    { rp with o := { rp.o with dbSelector := v.2 } }.calcCrc n))
  · exact fun _ => prefixed_readStoreLen
  · exact fun _ _ _ => Rc.noConfusion
  · intro n v rp
    refine Kept.trans (kept_object ?_) (kept_calcCrc n)
    exact fun _ => rfl
  · intro rp bb
    simp only [readDbSelector]
    cases rdbObjectReadStoreLen bb <;> rfl

theorem prefixed_take (n : Nat) :
    Prefixed fun bb => if bb.length < n then none else some (n, bb.take n) := by
  intro bb m v h
  dsimp only at h ⊢
  split at h
  · cases h
  · next hlen =>
    cases h
    refine ⟨by omega, fun more => ?_⟩
    rw [if_neg (by rw [List.length_append]; omega), List.take_append_of_le_length (by omega)]

theorem lawful_readExpireTime : LawfulAt 1 (ofStep readExpireTime) := by
  apply lawful_read
    (fun rp bb => if bb.length < (if rp.o.type = rdbOpcodeExpiretimeMs then 8 else 4) then none
      else some ((if rp.o.type = rdbOpcodeExpiretimeMs then 8 else 4),
        bb.take (if rp.o.type = rdbOpcodeExpiretimeMs then 8 else 4)))
    (fun n bytes rp =>
      let t := beNat bytes
      let expire := signed 32 ((if rp.o.type = rdbOpcodeExpiretimeMs then t / 1000 else t) % 2 ^ 32)
      (.over, { rp with o := { rp.o with expire } }.calcCrc n))
  · exact fun rp => prefixed_take _
  · exact fun _ _ _ => Rc.noConfusion
  · intro n bytes rp
    refine Kept.trans (kept_object ?_) (kept_calcCrc n)
    exact fun _ => rfl
  · intro rp bb
    simp only [readExpireTime]
    split <;> split <;> rfl

theorem lawful_processed {p : Builder} (h : LawfulAt 1 p) (ob : Nat) :
    LawfulAt 1 (andThen p (processed cb ob)) := by
  apply lawful_whenOver h
  · exact fun _ _ hrc => if_neg hrc
  · intro rp
    simp only [processed, if_true, RdbParser.walk]
    cases cb (rp.walked ++ [rp.o]) with
    | true =>
      refine ⟨Rc.noConfusion, Kept.trans ?_ (kept_setState (Nat.zero_le ob) _)⟩
      exact ⟨frame_zero rfl, rfl, fun _ => rfl⟩
    | false => exact ⟨Rc.noConfusion, frame_zero rfl, rfl, fun _ => rfl⟩

theorem lawful_buildOpcodeAux (hob : ob + 3 < 2 ^ 8) : LawfulAt (ob + 1) (buildOpcodeAux ob) := by
  apply lawful_obLoop (by omega)
  · intro rp hrp
    simp only [subDepth, hrp.depths ob hrp.room]
  · apply lawful_dispatch
    · intro rp
      dsimp only
      split
      · exact lawful_buildStringValue _ hob
      · split
        · exact lawful_buildStringValue _ hob
        · exact lawful_fail Rc.noConfusion
    · intro rp rp' h
      dsimp only
      rw [h.chosen.1]
  · intro rp
    simp only [auxEnd, popOver, reduceCtorEq, false_and, if_false]
  · intro rc rp hrc
    simp only [auxEnd]
    split
    · exact Rc.noConfusion
    · simp only [popOver]
      split <;> exact hrc
  · intro rc rp hrp
    simp only [auxEnd]
    split
    · exact (hrp.kept (kept_setState (Nat.le_refl ob) _)).le (Nat.le_succ _)
    · exact (stacked_popOver rc hrp).1
  · intro rc rp hrp
    simp only [auxEnd]
    split
    · exact (kept_setState (Nat.le_refl ob) _).toFrame
    · exact (stacked_popOver rc hrp).2

theorem lawful_detailOf (type : UInt8) : LawfulAt 1 (detailOf cb type 0) := by
  rw [detailOf]
  split
  · exact lawful_processed cb (lawful_buildOpcodeAux (by omega)) 0
  · split
    · exact lawful_processed cb lawful_readDbSelector 0
    · split
      · exact lawful_processed cb lawful_readExpireTime 0
      · split
        · exact lawful_processed cb (lawful_buildObjectDetailKv (by omega)) 0
        · split <;> exact lawful_fail Rc.noConfusion

/-- A loop on the lowest slot. -/
theorem lawful_lowest {body : Nat → Builder} (h : LawfulAt 1 (body 0)) :
    LawfulAt 0 (obLoop (fun _ => 0) body popOver) := by
  apply lawful_obLoop (by omega) (fun _ _ => rfl) h
  · exact fun _ => rfl
  · intro rc rp hrc
    simp only [popOver]
    split <;> exact hrc
  · exact fun rc rp hrp => (stacked_popOver rc hrp).1
  · exact fun rc rp hrp => (stacked_popOver rc hrp).2

theorem lawful_buildBody : LawfulAt 0 (buildBody cb) := by
  apply lawful_lowest
  apply lawful_dispatch
  · intro rp
    dsimp only
    split
    · exact lawful_buildObjectType 0
    · split
      · apply lawful_dispatch
        · exact fun rp => lawful_detailOf cb rp.o.type
        · intro rp rp' h
          rw [h.chosen.2.2.2]
      · exact lawful_fail Rc.noConfusion
  · intro rp rp' h
    dsimp only
    rw [h.chosen.1]

theorem lawful_dumped {p : Builder} (h : LawfulAt 1 p) : LawfulAt 1 (andThen p (dumped cb)) := by
  apply lawful_whenOver h
  · exact fun _ _ hrc => if_neg hrc
  · intro rp
    simp only [dumped, if_true, RdbParser.walk]
    cases cb (rp.walked ++ [rp.o]) with
    | true => exact ⟨Rc.noConfusion, frame_zero rfl, rfl, fun _ => rfl⟩
    | false => exact ⟨Rc.noConfusion, frame_zero rfl, rfl, fun _ => rfl⟩

theorem lawful_buildDumpedData : LawfulAt 0 (buildDumpedData cb) := by
  apply lawful_lowest
  apply lawful_dispatch
  · intro rp
    dsimp only
    split
    · exact lawful_buildObjectType 0
    · split
      · exact lawful_dumped cb (lawful_buildObjectDetailKvVal (by omega))
      · exact lawful_fail Rc.noConfusion
  · intro rp rp' h
    dsimp only
    rw [h.chosen.1]

end Records

end KjRedis.Rdb
