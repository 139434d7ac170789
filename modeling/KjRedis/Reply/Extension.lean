import KjRedis.Reply.Parser

/-! Bytes after those a call looks at. A builder that does not run out of its block does the
same on every longer one, so a call delivers first what it delivers of a block's beginning. -/
namespace KjRedis.Reply

/-- `step'` does on a longer block what `step` does where it succeeds. -/
def Extends (step step' : Step) : Prop :=
  ∀ rrp bb r o more, step rrp bb r = some o → o.rc = .over ∨ o.rc = .again →
    step' rrp (bb ++ more) r = some { o with bb := o.bb ++ more }

variable {step step' : Step} {fuel fuel' : Nat} {rrp : RedisReplyParser} {bb : Committed}

/-- A code that ends a call with an error or for want of bytes. -/
theorem not_succeeded {rc : Rc} {p : Prop} (h : rc = .over ∨ rc = .again) (hover : rc ≠ .over)
    (hagain : rc ≠ .again) : p := h.elim (absurd · hover) (absurd · hagain)

theorem decommit_append {n : Nat} (more : List UInt8) (h : n ≤ bb.length) :
    Committed.decommit (bb ++ more) n = bb.decommit n ++ more := by
  rw [Committed.decommit_eq_drop, Committed.decommit_eq_drop]
  exact List.drop_append_of_le_length h

theorem findStr_append {p : Nat} (more : List UInt8) (h : bb.findStr crlf = some p) :
    Committed.findStr (bb ++ more) crlf = some p := fastStrstr_append h more

theorem findStr_le {p : Nat} (h : bb.findStr crlf = some p) : p + 2 ≤ bb.length :=
  (fastStrstr_take h).1

theorem rrbLoop_extends (h : Extends step step') (hle : fuel ≤ fuel') :
    Extends (rrbLoop step fuel) (rrbLoop step' fuel') := by
  induction fuel generalizing fuel' with
  | zero =>
    intro rrp bb r o more hrun
    cases hrun
  | succ fuel ih =>
    obtain ⟨fuel', rfl⟩ := Nat.exists_eq_add_of_le' hle
    intro rrp bb r o more hrun hrc
    rw [rrbLoop] at hrun
    split at hrun
    · cases hrun
    · next o₁ hstep =>
      rw [show fuel' + (fuel + 1) = fuel' + fuel + 1 from rfl, rrbLoop]
      split at hrun
      · next hagain =>
        rw [h rrp bb r o₁ more hstep (.inr hagain)]
        simp only [hagain, if_true]
        exact ih (Nat.le_add_left fuel fuel') _ _ _ _ more hrun hrc
      · next hstop =>
        obtain rfl := Option.some.inj hrun
        rw [h rrp bb r o₁ more hstep hrc]
        exact if_neg hstop

theorem withBuilder_extends {depth : Nat} {step step' : Nat → Step}
    (h : ∀ rrb, Extends (step rrb) (step' rrb)) (hle : fuel ≤ fuel') :
    Extends (withBuilder fuel depth step) (withBuilder fuel' depth step') := by
  intro rrp bb r o more hrun hrc
  unfold withBuilder at hrun ⊢
  simp only at hrun ⊢
  split at hrun
  · cases hrun
  · next o₁ hloop =>
    split at hrun
    · next hover =>
      rw [rrbLoop_extends (h _) hle _ _ _ _ more hloop (.inl hover)]
      simp only [hover, if_true]
      split at hrun
      · next hpop =>
        obtain rfl := Option.some.inj hrun
        simp only [hover]
      · obtain rfl := Option.some.inj hrun
        rcases hrc with h | h <;> cases h
    · next hover =>
      obtain rfl := Option.some.inj hrun
      rw [rrbLoop_extends (h _) hle _ _ _ _ more hloop hrc]
      exact if_neg hover

/-- A number whose line has an end is read alike, whatever follows. -/
theorem rBuildInteger_append {rrp' : RedisReplyParser} {bb' : Committed} {v : Int}
    (more : List UInt8) (h : rBuildInteger rrp bb = (some v, rrp', bb')) :
    rBuildInteger rrp (bb ++ more) = (some v, rrp', bb' ++ more) := by
  unfold rBuildInteger redisReplyReadInteger at h ⊢
  split at h
  · cases h
  · next v' n hread =>
    split at hread
    · cases hread
    · split at hread
      · cases hread
      · next p hfind =>
        cases hread
        cases h
        have hle := findStr_le hfind
        rw [if_neg (by rw [List.length_append]; omega), findStr_append more hfind]
        simp only [decommit_append more hle, List.take_append_of_le_length (show p ≤ bb.length by omega)]

theorem rBuildIntval_extends : Extends rBuildIntval rBuildIntval := by
  intro rrp bb r o more h hrc
  unfold rBuildIntval at h ⊢
  split at h
  · cases h
    exact not_succeeded hrc (by simp) (by simp)
  · next hint =>
    cases h
    rw [rBuildInteger_append more hint]

/-- The rounds of the append loop copy no more than what remains. -/
theorem simpleStringAppend_append {text : List UInt8} (more : List UInt8) {remainSize : Nat}
    {vall : List NxBuf} {b : RedisReplyBuilder} (h : remainSize ≤ text.length) :
    simpleStringAppend (text ++ more) fuel remainSize vall b =
      simpleStringAppend text fuel remainSize vall b := by
  induction fuel generalizing remainSize vall b with
  | zero => cases remainSize <;> rfl
  | succ fuel ih =>
    cases remainSize with
    | zero => rfl
    | succ remainSize =>
      have htake : ∀ n, (text ++ more).take (min n (remainSize + 1)) =
          text.take (min n (remainSize + 1)) := fun n =>
        List.take_append_of_le_length ((Nat.min_le_right n _).trans h)
      simp only [simpleStringAppend, htake]
      split
      · rfl
      · split
        · exact ih (by omega)
        · exact ih (by omega)

theorem buildSimpleStringPlain_extends (rrb : Nat) :
    Extends (buildSimpleStringPlain rrb) (buildSimpleStringPlain rrb) := by
  intro rrp bb r o more h hrc
  unfold buildSimpleStringPlain at h ⊢
  split at h
  · cases h
    exact not_succeeded hrc (by simp) (by simp)
  · next hlong =>
    rw [if_neg (by rw [List.length_append]; omega)]
    cases hfind : bb.findStr crlf with
    | none =>
      simp only [hfind] at h
      split at h
      · cases h
        exact not_succeeded hrc (by simp) (by simp)
      · cases h
        exact not_succeeded hrc (by simp) (by simp)
    | some p =>
      have hle := findStr_le hfind
      rw [findStr_append more hfind]
      simp only [hfind] at h
      simp only [decommit_append more hle,
        simpleStringAppend_append more (show p ≤ bb.length by omega)]
      split at h
      · cases h
        exact not_succeeded hrc (by simp) (by simp)
      · next happend =>
        cases h
        rfl

theorem rBuildSimpleString_extends (hle : fuel ≤ fuel') (rrb : Nat) :
    Extends (rBuildSimpleString fuel rrb) (rBuildSimpleString fuel' rrb) := by
  intro rrp bb r o more h hrc
  refine withBuilder_extends (fun subRrb => ?_) hle rrp bb r o more h hrc
  intro rrp bb r o more h hrc
  simp only at h ⊢
  split at h
  · cases h
    rfl
  · cases h
    rfl
  · exact buildSimpleStringPlain_extends subRrb rrp bb r o more h hrc
  · cases h
    exact not_succeeded hrc (by simp) (by simp)

theorem buildBulkStringStoreLen_extends (rrb : Nat) :
    Extends (buildBulkStringStoreLen rrb) (buildBulkStringStoreLen rrb) := by
  intro rrp bb r o more h hrc
  unfold buildBulkStringStoreLen at h ⊢
  split at h
  · cases h
    exact not_succeeded hrc (by simp) (by simp)
  · next hint =>
    rw [rBuildInteger_append more hint]
    split at h
    · next hlen =>
      cases h
      exact if_pos hlen
    · next hlen =>
      cases h
      exact if_neg hlen

theorem buildBulkStringPlain_extends (rrb : Nat) :
    Extends (buildBulkStringPlain rrb) (buildBulkStringPlain rrb) := by
  intro rrp bb r o more h hrc
  unfold buildBulkStringPlain at h ⊢
  split at h
  · cases h
    exact not_succeeded hrc (by simp) (by simp)
  · next b _ =>
    simp only at h ⊢
    generalize (((rrp.builders rrb).storeLen + 2) % 2 ^ 32 + (2 ^ 64 - b.data.length)) % 2 ^ 64 =
      wantSize at h ⊢
    by_cases hwant : wantSize ≤ bb.length
    · have hmin : min bb.length wantSize = wantSize := Nat.min_eq_right hwant
      have hmin' : min (bb ++ more).length wantSize = wantSize :=
        Nat.min_eq_right (hwant.trans (by simp))
      simp only [hmin] at h
      simp only [hmin', List.take_append_of_le_length hwant, decommit_append more hwant]
      split at h
      · cases h
        exact not_succeeded hrc (by simp) (by simp)
      · next hsize =>
        simp only [if_true] at h
        split at h
        · cases h
          exact not_succeeded hrc (by simp) (by simp)
        · next hlong =>
          split at h
          · cases h
            exact not_succeeded hrc (by simp) (by simp)
          · next hterm =>
            cases h
            rw [if_neg hsize, if_pos trivial, if_neg hlong, if_neg hterm]
    · have hmin : min bb.length wantSize ≠ wantSize := by omega
      split at h
      · cases h
        exact not_succeeded hrc (by simp) (by simp)
      · cases h
        exact not_succeeded hrc (by simp) (by simp)

theorem rBuildBulkString_extends (hle : fuel ≤ fuel') (rrb : Nat) :
    Extends (rBuildBulkString fuel rrb) (rBuildBulkString fuel' rrb) := by
  intro rrp bb r o more h hrc
  refine withBuilder_extends (fun subRrb => ?_) hle rrp bb r o more h hrc
  intro rrp bb r o more h hrc
  simp only at h ⊢
  split at h
  · exact buildBulkStringStoreLen_extends subRrb rrp bb r o more h hrc
  · exact buildBulkStringStoreLen_extends subRrb rrp bb r o more h hrc
  · exact buildBulkStringPlain_extends subRrb rrp bb r o more h hrc
  · cases h
    exact not_succeeded hrc (by simp) (by simp)

theorem buildArrayLen_extends (rrb : Nat) : Extends (buildArrayLen rrb) (buildArrayLen rrb) := by
  intro rrp bb r o more h hrc
  unfold buildArrayLen at h ⊢
  split at h
  · cases h
    exact not_succeeded hrc (by simp) (by simp)
  · next hint =>
    rw [rBuildInteger_append more hint]
    split at h
    · next hlen =>
      cases h
      exact if_pos hlen
    · next hlen =>
      cases h
      exact if_neg hlen

theorem readLeading_append {leading : UInt8} (more : List UInt8)
    (h : redisReplyReadLeading bb = some leading) :
    redisReplyReadLeading (bb ++ more) = some leading ∧ 1 ≤ bb.length := by
  obtain ⟨rest, rfl⟩ := List.head?_eq_some_iff.1 h
  exact ⟨rfl, Nat.succ_pos _⟩

theorem buildArrayElementType_extends (rrb : Nat) :
    Extends (buildArrayElementType rrb) (buildArrayElementType rrb) := by
  intro rrp bb r o more h hrc
  unfold buildArrayElementType at h ⊢
  split at h
  · cases h
    exact not_succeeded hrc (by simp) (by simp)
  · next hlead =>
    obtain ⟨hmore, hlen⟩ := readLeading_append more hlead
    rw [hmore]
    split at h
    · cases h
      exact not_succeeded hrc (by simp) (by simp)
    · next htype =>
      cases h
      simp only [htype, decommit_append more hlen]

theorem buildByType_extends {rBuildArray rBuildArray' : Nat → Step}
    (harray : ∀ rrb, Extends (rBuildArray rrb) (rBuildArray' rrb)) (hle : fuel ≤ fuel') (rrb : Nat) :
    Extends (buildByType rBuildArray fuel rrb) (buildByType rBuildArray' fuel' rrb) := by
  intro rrp bb r o more h hrc
  unfold buildByType at h ⊢
  split at h
  · exact rBuildSimpleString_extends hle rrb rrp bb r o more h hrc
  · exact rBuildSimpleString_extends hle rrb rrp bb r o more h hrc
  · exact rBuildIntval_extends rrp bb r o more h hrc
  · exact rBuildBulkString_extends hle rrb rrp bb r o more h hrc
  · exact harray rrb rrp bb r o more h hrc
  · cases h
    exact not_succeeded hrc (by simp) (by simp)

/-- Only a finished element lets the array go on or end. -/
theorem buildArrayElementEnd_succeeded {rrb : Nat} {r : RedisReply} {o : Out}
    (h : (buildArrayElementEnd rrb r o).rc = .over ∨ (buildArrayElementEnd rrb r o).rc = .again) :
    o.rc = .over ∨ o.rc = .again := by
  unfold buildArrayElementEnd at h
  split at h
  · next hover => exact .inl hover
  · exact h

theorem buildArrayElementEnd_append {rrb : Nat} {r : RedisReply} {o : Out} (more : List UInt8) :
    buildArrayElementEnd rrb r { o with bb := o.bb ++ more } =
      { buildArrayElementEnd rrb r o with bb := (buildArrayElementEnd rrb r o).bb ++ more } := by
  unfold buildArrayElementEnd
  split
  · simp only
    split
    · rfl
    · split
      · rfl
      · rfl
  · rfl

theorem buildArrayElement_extends {rBuildArray rBuildArray' : Nat → Step}
    (harray : ∀ rrb, Extends (rBuildArray rrb) (rBuildArray' rrb)) (hle : fuel ≤ fuel') (rrb : Nat) :
    Extends (buildArrayElement rBuildArray fuel rrb) (buildArrayElement rBuildArray' fuel' rrb) := by
  intro rrp bb r o more h hrc
  unfold buildArrayElement at h ⊢
  split at h
  · cases h
    exact not_succeeded hrc (by simp) (by simp)
  · simp only at h ⊢
    split at h
    · cases h
      exact not_succeeded hrc (by simp) (by simp)
    · next hroom =>
      rw [if_neg hroom]
      split at h
      · cases h
        exact not_succeeded hrc (by simp) (by simp)
      · split at h
        · cases h
        · next hbuild =>
          cases h
          have hinner := buildArrayElementEnd_succeeded hrc
          rw [buildByType_extends harray hle rrb _ _ _ _ more hbuild hinner]
          exact congrArg some (buildArrayElementEnd_append more)

theorem rBuildArray_extends (hle : fuel ≤ fuel') (rrb : Nat) :
    Extends (rBuildArray fuel rrb) (rBuildArray fuel' rrb) := by
  induction fuel generalizing fuel' rrb with
  | zero =>
    intro rrp bb r o more h
    cases h
  | succ fuel ih =>
    obtain ⟨fuel', rfl⟩ := Nat.exists_eq_add_of_le' hle
    have hle : fuel ≤ fuel' + fuel := Nat.le_add_left fuel fuel'
    intro rrp bb r o more h hrc
    rw [show fuel' + (fuel + 1) = fuel' + fuel + 1 from rfl, rBuildArray]
    rw [rBuildArray] at h
    refine withBuilder_extends (fun subRrb => ?_) hle rrp bb r o more h hrc
    intro rrp bb r o more h hrc
    simp only at h ⊢
    split at h
    · exact buildArrayLen_extends subRrb rrp bb r o more h hrc
    · exact buildArrayLen_extends subRrb rrp bb r o more h hrc
    · exact buildArrayElementType_extends subRrb rrp bb r o more h hrc
    · exact buildArrayElement_extends (ih hle) hle subRrb rrp bb r o more h hrc
    · cases h
      exact not_succeeded hrc (by simp) (by simp)

theorem buildReplyType_extends (rrb : Nat) : Extends (buildReplyType rrb) (buildReplyType rrb) := by
  intro rrp bb r o more h hrc
  unfold buildReplyType at h ⊢
  split at h
  · cases h
    exact not_succeeded hrc (by simp) (by simp)
  · next hlead =>
    obtain ⟨hmore, hlen⟩ := readLeading_append more hlead
    rw [hmore]
    split at h
    · cases h
      exact not_succeeded hrc (by simp) (by simp)
    · next htype =>
      cases h
      simp only [htype, decommit_append more hlen]

theorem rBuildReply_append {o : Out} (hle : fuel ≤ fuel') (more : List UInt8)
    (h : rBuildReply fuel rrp bb = some o) (hrc : o.rc = .over ∨ o.rc = .again) :
    rBuildReply fuel' rrp (bb ++ more) = some { o with bb := o.bb ++ more } := by
  unfold rBuildReply at h ⊢
  split at h
  · cases h
  · next o₁ hbuild =>
    have hcode : o₁.rc = o.rc := by
      split at h
      · cases h
        rfl
      · cases h
        rfl
    rw [withBuilder_extends ?_ hle _ _ _ _ more hbuild (hcode ▸ hrc)]
    · split at h
      · next hzeroed =>
        cases h
        exact if_pos hzeroed
      · next hzeroed =>
        cases h
        exact if_neg hzeroed
    · intro rrb rrp bb r o more h hrc
      simp only at h ⊢
      split at h
      · exact buildReplyType_extends rrb rrp bb r o more h hrc
      · exact buildReplyType_extends rrb rrp bb r o more h hrc
      · exact buildByType_extends (rBuildArray_extends hle) hle rrb rrp bb r o more h hrc
      · cases h
        exact not_succeeded hrc (by simp) (by simp)

theorem parseLoop_prefix {rounds rounds' : Nat} {rc : Rc} {more : List UInt8} {out out' : ParseOut}
    (hle : fuel ≤ fuel') (h : parseLoop (fun _ => 0) fuel rounds rc rrp bb = some out)
    (h' : parseLoop (fun _ => 0) fuel' rounds' rc rrp (bb ++ more) = some out') :
    out.delivered <+: out'.delivered := by
  induction rounds generalizing rounds' rc rrp bb out out' with
  | zero => cases h
  | succ rounds ih =>
    cases rounds' with
    | zero => cases h'
    | succ rounds' =>
      rw [parseLoop] at h h'
      split at h
      · next hgo =>
        rw [if_pos hgo] at h'
        split at h
        · cases h
        · next o hbuild =>
          by_cases hover : o.rc = .over
          · rw [rBuildReply_append hle more hbuild (.inl hover)] at h'
            simp only [hover, if_true] at h h'
            split at h
            · cases h
            · next res hrest =>
              split at h'
              · cases h'
              · next res' hrest' =>
                cases h
                cases h'
                exact List.cons_prefix_cons.2 ⟨rfl, ih hrest hrest'⟩
          · simp only [if_neg hover] at h
            by_cases hagain : o.rc = .again
            · rw [rBuildReply_append hle more hbuild (.inr hagain)] at h'
              simp only [if_neg hover] at h'
              exact ih h h'
            · cases rounds with
              | zero => cases h
              | succ rounds =>
                rw [parseLoop, if_neg (fun hgo => hgo.2.elim hagain hover)] at h
                cases h
                exact List.nil_prefix
      · cases h
        exact List.nil_prefix

/-- A call on a longer block delivers first what it delivers on the shorter one. -/
theorem redisReplyParseOnce_prefix {more : List UInt8} {out out' : ParseOut}
    (h : redisReplyParseOnce (fun _ => 0) rrp bb = some out)
    (h' : redisReplyParseOnce (fun _ => 0) rrp (bb ++ more) = some out') :
    out.delivered <+: out'.delivered := by
  refine parseLoop_prefix ?_ h h'
  unfold parseFuel
  rw [List.length_append]
  omega

end KjRedis.Reply
