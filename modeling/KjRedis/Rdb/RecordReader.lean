import KjRedis.Rdb.ValueReader

/-! The builders of records follow the readers of records. -/
namespace KjRedis.Rdb

open Resumption

section Keys

variable {ob : Nat} {rp : RdbParser} {bb : List UInt8} {out : Rc × RdbParser × List UInt8}

theorem kvBody_key (h : (rp.slots ob).state = buildObjectDetailKvIdle) :
    Runs (kvBody ob) rp bb out ↔
      Runs (andThen (buildStringValue .objectKey ob) (thenState buildObjectDetailKvValState ob)) rp bb
        out := by
  rw [kvBody, runs_dispatch]
  simp only [h, true_or, if_true]

theorem kvBody_val (h : (rp.slots ob).state = buildObjectDetailKvValState) :
    Runs (kvBody ob) rp bb out ↔ Runs (buildObjectDetailKvVal ob) rp bb out := by
  rw [kvBody, runs_dispatch]
  simp only [h]
  exact Iff.rfl

/-- What the builder of a record leaves. -/
structure Detailed (ob : Nat) (rp : RdbParser) (f : RdbObject → RdbObject) (rp' : RdbParser) : Prop where
  nelts : rp'.nelts = ob + 1
  same : Same (ob + 1) { rp with o := f rp.o } rp'

/-- The last round on a key and a value. -/
theorem kvVal_follows (htop : AtTop ob rp) (hob : ob + 3 < 2 ^ 8)
    (hstate : (rp.slots ob).state = buildObjectDetailKvValState) :
    Follows (ob + 1) ob (builderLoop kvBody ob) rp bb (ValueDone ob rp) (readKvVal rp.o.type bb) := by
  rw [← (readKvVal rp.o.type bb).bind_done]
  apply (value_follows htop hob).bind htop.stacked (Nat.le_succ ob)
  · intro rp' _ hframe
    exact begins_loop.trans (begins_congr fun _ _ => kvBody_val (hframe.chosen.1.trans hstate))
  · intro f rest rp' _ hrun hparsed hdone
    exact ⟨rp', ((kvBody_val hstate).2 hrun).last rfl, hparsed, hdone⟩

theorem kv_follows (htop : AtTop ob rp) (hob : ob + 4 < 2 ^ 8) :
    Follows (ob + 1) (ob + 1) (buildObjectDetailKv ob) rp bb (Detailed ob rp) (readKv rp.o.type bb) := by
  have hslot := pushed_slot (ob + 1) rp
  apply Follows.popOver (fun f rp' => rp'.nelts = ob + 2 ∧ Same (ob + 1) { rp with o := f rp.o } rp') htop
    (by omega)
  · apply (string_follows htop.pushed (Nat.lt_of_succ_lt hob) (show StrRef.objectKey.Under (ob + 1) from
      trivial)).bind htop.pushed.stacked (Nat.le_succ _)
    · intro rp' _ hframe
      have hidle : (rp'.slots (ob + 1)).state = buildObjectDetailKvIdle := by
        rw [hframe.chosen.1, hslot]
        rfl
      apply begins_loop.trans
      apply (begins_congr fun _ _ => kvBody_key hidle).trans
      exact begins_andThen fun _ _ hrc => if_neg hrc
    · rintro key rest rp₁ - hrun hparsed ⟨hnelts, hsame⟩
      set rp₂ := rp₁.setState (ob + 1) buildObjectDetailKvValState with hrp₂
      have hround : Runs (kvBody (ob + 1)) (pushed (ob + 1) rp) bb (.again, rp₂, rest) := by
        rw [kvBody_key (by rw [hslot]; rfl), runs_andThen]
        exact ⟨.over, rp₁, hrun, rfl⟩
      have hsame₂ : Same (ob + 1) { rp with o := { rp.o with key } } rp₂ := by
        have hpushed : Same (ob + 1) { rp with o := { rp.o with key } }
            ((pushed (ob + 1) rp).setStr key .objectKey) := { same_pushed (ob + 1) rp with o := rfl }
        exact (hpushed.trans (hsame.le (Nat.le_succ _))).trans (same_write (Nat.le_refl _) _)
      have hslot₂ : rp₂.slots (ob + 1) = { RdbObjectBuilder.zero with
          depth := ob + 1, state := buildObjectDetailKvValState } := by
        have hslot₁ := (hsame.slots (ob + 1) (Nat.lt_succ_self _)).trans hslot
        simp only [hrp₂, RdbParser.setState, RdbParser.write, Function.update_self, hslot₁]
      have htop₂ : AtTop (ob + 1) rp₂ := by
        refine ⟨hnelts, fun i hi => ?_⟩
        rcases Nat.lt_or_eq_of_le hi with hlt | rfl
        · rw [hsame₂.slots i hlt]
          exact htop.depths i (Nat.le_of_lt_succ hlt)
        · rw [hslot₂]
      have ho₂ : rp₂.o = { rp.o with key } := hsame₂.o
      have htype : rp₂.o.type = rp.o.type := by rw [ho₂]
      have hvalue := @kvVal_follows (ob + 1) rp₂ rest htop₂ hob (by rw [hslot₂])
      have hframe : Frame (ob + 1) (pushed (ob + 1) rp) rp₂ := by
        have hkept : Same (ob + 1) (pushed (ob + 1) rp) { rp₂ with o := rp.o } :=
          { (hsame.le (Nat.le_succ _)).trans (same_write (Nat.le_refl _) _) with o := rfl }
        exact { hkept.frame with type := fun _ => htype }
      apply FollowsBy.round hround hparsed hframe
      rw [htype] at hvalue
      refine hvalue.map fun f rp' hdone => ⟨hdone.nelts, ?_⟩
      have hwith : Same (ob + 1) { rp with o := f { rp.o with key } } { rp₂ with o := f rp₂.o } := by
        refine { hsame₂ with o := ?_ }
        simp only [ho₂]
      exact hwith.trans hdone.same
  · rintro f rp' ⟨hnelts, hdone⟩
    obtain ⟨hpop, hnelts'⟩ := pop_same rp' hnelts
    exact ⟨hnelts', hdone.trans hpop⟩

end Keys

section Details

variable {rp : RdbParser} {bb : List UInt8} {out : Rc × RdbParser × List UInt8}

theorem selector_follows (htop : AtTop 0 rp) :
    Follows 1 1 (ofStep readDbSelector) rp bb (Detailed 0 rp) (readSelector bb) := by
  rw [readSelector, readLen]
  cases hread : rdbObjectReadStoreLen bb with
  | none =>
    refine ⟨rp, runs_ofStep.2 ?_, readStoreLen_none hread⟩
    rw [readDbSelector, hread]
  | some v =>
    obtain ⟨n, len⟩ := v
    have hle := (readStoreLen_length_le hread).2
    refine ⟨{ rp with o := { rp.o with dbSelector := len.2 } }.calcCrc n, runs_ofStep.2 ?_, ?_,
      htop.nelts, ⟨fun _ _ => rfl, rfl, rfl, rfl, rfl⟩⟩
    · rw [readDbSelector, hread]
    · show rp.parsed + n + _ = _
      rw [List.length_drop]
      omega

theorem expire_follows (htop : AtTop 0 rp) :
    Follows 1 1 (ofStep readExpireTime) rp bb (Detailed 0 rp) (readExpire rp.o.type bb) := by
  have hstep : readExpireTime rp bb =
      if bb.length < expireBytes rp.o.type then (.premature, rp, bb)
      else (.over, { rp with o := { rp.o with
        expire := expireOf rp.o.type (bb.take (expireBytes rp.o.type)) } }.calcCrc (expireBytes rp.o.type),
        bb.drop (expireBytes rp.o.type)) := rfl
  rw [readExpire]
  by_cases hshort : bb.length < expireBytes rp.o.type
  · rw [if_pos hshort]
    refine ⟨rp, runs_ofStep.2 ?_, ?_⟩
    · rw [hstep, if_pos hshort]
    · rw [expireBytes] at hshort
      split at hshort <;> omega
  · rw [if_neg hshort]
    refine ⟨_, runs_ofStep.2 (hstep.trans (if_neg hshort)), ?_, htop.nelts,
      ⟨fun _ _ => rfl, rfl, rfl, rfl, rfl⟩⟩
    show rp.parsed + expireBytes rp.o.type + _ = _
    rw [List.length_drop]
    omega

/-- What builds the detail of a record that is no auxiliary one. -/
def detailBuilder (type : UInt8) : Builder :=
  if type = rdbOpcodeSelectdb then ofStep readDbSelector
  else if type = rdbOpcodeExpiretime ∨ type = rdbOpcodeExpiretimeMs then ofStep readExpireTime
  else if isKvType type then buildObjectDetailKv 0
  else ofStep (fail .invalidNbType)

theorem detail_follows (htop : AtTop 0 rp) (haux : rp.o.type ≠ rdbOpcodeAux) :
    Follows 1 1 (detailBuilder rp.o.type) rp bb (Detailed 0 rp) (readDetail rp.o.type bb) := by
  rw [readDetail, if_neg haux, detailBuilder]
  by_cases hselect : rp.o.type = rdbOpcodeSelectdb
  · rw [if_pos hselect, if_pos hselect]
    exact selector_follows htop
  rw [if_neg hselect, if_neg hselect]
  by_cases hexpire : rp.o.type = rdbOpcodeExpiretime ∨ rp.o.type = rdbOpcodeExpiretimeMs
  · rw [if_pos hexpire, if_pos hexpire]
    exact expire_follows htop
  rw [if_neg hexpire, if_neg hexpire]
  by_cases hkv : isKvType rp.o.type = true
  · rw [if_pos hkv, if_pos hkv]
    exact kv_follows htop (by decide)
  · rw [if_neg hkv, if_neg hkv]
    have hrun : ∀ bb, Runs (ofStep (fail .invalidNbType)) rp bb (.invalidNbType, rp, bb) :=
      fun bb => runs_ofStep.2 rfl
    exact ⟨rp, hrun bb, rfl, htop.stacked, Frame.refl _ _, fun _ => hrun _⟩

/-- A type at which a record ends in the callback, or in an error. -/
theorem detailOf_plain (cb : List RdbObject → Bool) {type : UInt8} (haux : type ≠ rdbOpcodeAux)
    (heof : type ≠ rdbOpcodeEof) (rp : RdbParser) (bb : List UInt8) (out : Rc × RdbParser × List UInt8) :
    Runs (detailOf cb type 0) rp bb out ↔ Runs (andThen (detailBuilder type) (processed cb 0)) rp bb out := by
  rw [detailOf, if_neg haux, detailBuilder]
  by_cases hselect : type = rdbOpcodeSelectdb
  · rw [if_pos hselect, if_pos hselect]
  rw [if_neg hselect, if_neg hselect]
  by_cases hexpire : type = rdbOpcodeExpiretime ∨ type = rdbOpcodeExpiretimeMs
  · rw [if_pos hexpire, if_pos hexpire]
  rw [if_neg hexpire, if_neg hexpire]
  by_cases hkv : isKvType type = true
  · rw [if_pos hkv, if_pos hkv]
  · rw [if_neg hkv, if_neg hkv, if_neg heof]
    obtain ⟨rc, rp', rest⟩ := out
    rw [runs_andThen, runs_ofStep]
    constructor
    · intro hfail
      cases hfail
      exact ⟨.invalidNbType, rp, runs_ofStep.2 rfl, rfl⟩
    · rintro ⟨rc', t, hrun, hend⟩
      cases runs_ofStep.1 hrun
      cases hend
      rfl

end Details

end KjRedis.Rdb
