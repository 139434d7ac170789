import KjRedis.Reply.Parser

/-! What a call of the parser takes of its block: a piece off the front, and nothing only
where a line has no end yet or a byte is refused. -/
namespace KjRedis.Reply

/-- What is left of the block is its end. A call that asks for more and took nothing has
less than two bytes or found no CRLF in them. -/
structure Took (bb : Committed) (rc : Rc) (bb' : Committed) : Prop where
  suffix : bb' <:+ bb
  waits : rc = .premature → bb' = bb → bb.length < 2 ∨ bb.findStr crlf = none

def Takes (step : Step) : Prop :=
  ∀ rrp bb r o, step rrp bb r = some o → Took bb o.rc o.bb

variable {bb bb' bb'' : Committed} {rc rc' : Rc} {step : Step} {fuel : Nat} {rrp : RedisReplyParser}

theorem Took.of_rc (hrc : rc ≠ .premature) (h : bb' <:+ bb) : Took bb rc bb' :=
  ⟨h, fun hpre => absurd hpre hrc⟩

theorem took_self (hrc : rc ≠ .premature) : Took bb rc bb := .of_rc hrc List.suffix_rfl

theorem took_decommit (hrc : rc ≠ .premature) (n : Nat) : Took bb rc (bb.decommit n) := by
  apply Took.of_rc hrc
  rw [Committed.decommit_eq_drop]
  exact List.drop_suffix n bb

/-- A block that came back shorter and was asked to be longer did not stay as it was. -/
theorem Took.trans (h : bb' <:+ bb) (h' : Took bb' rc bb'') : Took bb rc bb'' := by
  refine ⟨h'.suffix.trans h, fun hrc heq => ?_⟩
  subst heq
  obtain rfl : bb' = bb'' := h.eq_of_length_le h'.suffix.length_le
  exact h'.waits hrc rfl

theorem rrbLoop_takes (h : Takes step) : Takes (rrbLoop step fuel) := by
  induction fuel with
  | zero =>
    intro rrp bb r o hrun
    cases hrun
  | succ fuel ih =>
    intro rrp bb r o hrun
    rw [rrbLoop] at hrun
    split at hrun
    · cases hrun
    · next o₁ hstep =>
      have htook := h rrp bb r o₁ hstep
      split at hrun
      · exact Took.trans htook.suffix (ih _ _ _ _ hrun)
      · obtain rfl := Option.some.inj hrun
        exact htook

theorem withBuilder_takes {depth : Nat} {step : Nat → Step} (h : ∀ rrb, Takes (step rrb)) :
    Takes (withBuilder fuel depth step) := by
  intro rrp bb r o hrun
  unfold withBuilder at hrun
  simp only at hrun
  split at hrun
  · cases hrun
  · next o₁ hloop =>
    have htook := rrbLoop_takes (h _) _ _ _ _ hloop
    split at hrun
    · next hover =>
      split at hrun
      · obtain rfl := Option.some.inj hrun
        exact .of_rc (by simp [hover]) htook.suffix
      · obtain rfl := Option.some.inj hrun
        exact .of_rc (by simp) htook.suffix
    · obtain rfl := Option.some.inj hrun
      exact htook

/-- Reading a number takes its line, or nothing where the line has no end. -/
theorem rBuildInteger_waits {rrp' : RedisReplyParser} (h : rBuildInteger rrp bb = (none, rrp', bb')) :
    Took bb .premature bb' := by
  unfold rBuildInteger at h
  split at h
  · next hread =>
    cases h
    refine ⟨List.suffix_rfl, fun _ _ => ?_⟩
    unfold redisReplyReadInteger at hread
    split at hread
    · next hshort => exact .inl hshort
    · split at hread
      · next hfind => exact .inr hfind
      · cases hread
  · cases h

theorem rBuildInteger_suffix {rrp' : RedisReplyParser} {v : Int}
    (h : rBuildInteger rrp bb = (some v, rrp', bb')) : bb' <:+ bb := by
  unfold rBuildInteger at h
  split at h
  · cases h
  · cases h
    rw [Committed.decommit_eq_drop]
    exact List.drop_suffix _ bb

theorem rBuildIntval_takes : Takes rBuildIntval := by
  intro rrp bb r o h
  unfold rBuildIntval at h
  split at h
  · next hint =>
    cases h
    exact rBuildInteger_waits hint
  · next hint =>
    cases h
    exact .of_rc (by simp) (rBuildInteger_suffix hint)

theorem buildSimpleStringPlain_takes (rrb : Nat) : Takes (buildSimpleStringPlain rrb) := by
  intro rrp bb r o h
  unfold buildSimpleStringPlain at h
  split at h
  · next hshort =>
    cases h
    exact ⟨List.suffix_rfl, fun _ _ => .inl hshort⟩
  · next hlong =>
    simp only at h
    split at h
    · cases h
      exact took_self (by simp)
    · split at h
      · cases h
        exact took_decommit (by simp) _
      · next hnone =>
        cases h
        refine ⟨?_, fun _ _ => .inr ?_⟩
        · rw [Committed.decommit_eq_drop]
          exact List.drop_suffix _ bb
        · simpa using hnone

theorem rBuildSimpleString_takes (rrb : Nat) : Takes (rBuildSimpleString fuel rrb) := by
  intro rrp bb r o h
  refine withBuilder_takes (fun subRrb => ?_) rrp bb r o h
  intro rrp bb r o h
  simp only at h
  split at h
  · cases h
    exact took_self (by simp)
  · cases h
    exact took_self (by simp)
  · exact buildSimpleStringPlain_takes subRrb rrp bb r o h
  · cases h
    exact took_self (by simp)

theorem buildBulkStringStoreLen_takes (rrb : Nat) : Takes (buildBulkStringStoreLen rrb) := by
  intro rrp bb r o h
  unfold buildBulkStringStoreLen at h
  split at h
  · next hint =>
    cases h
    exact rBuildInteger_waits hint
  · next hint =>
    split at h
    · cases h
      exact .of_rc (by simp) (rBuildInteger_suffix hint)
    · cases h
      exact .of_rc (by simp) (rBuildInteger_suffix hint)

theorem buildBulkStringPlain_takes (rrb : Nat) : Takes (buildBulkStringPlain rrb) := by
  intro rrp bb r o h
  unfold buildBulkStringPlain at h
  split at h
  · cases h
    exact took_self (by simp)
  · simp only at h
    split at h
    · cases h
      exact took_self (by simp)
    · split at h
      · split at h
        · cases h
          exact took_self (by simp)
        · split at h
          · cases h
            exact took_self (by simp)
          · cases h
            exact took_decommit (by simp) _
      · next hshort =>
        cases h
        rw [Committed.decommit_eq_drop]
        refine ⟨List.drop_suffix _ bb, fun _ hsame => .inl ?_⟩
        -- a payload that is short of bytes takes all there are
        have hlen := congrArg List.length hsame
        rw [List.length_drop] at hlen
        omega

theorem rBuildBulkString_takes (rrb : Nat) : Takes (rBuildBulkString fuel rrb) := by
  intro rrp bb r o h
  refine withBuilder_takes (fun subRrb => ?_) rrp bb r o h
  intro rrp bb r o h
  simp only at h
  split at h
  · exact buildBulkStringStoreLen_takes subRrb rrp bb r o h
  · exact buildBulkStringStoreLen_takes subRrb rrp bb r o h
  · exact buildBulkStringPlain_takes subRrb rrp bb r o h
  · cases h
    exact took_self (by simp)

theorem buildArrayLen_takes (rrb : Nat) : Takes (buildArrayLen rrb) := by
  intro rrp bb r o h
  unfold buildArrayLen at h
  split at h
  · next hint =>
    cases h
    exact rBuildInteger_waits hint
  · next hint =>
    split at h
    · cases h
      exact .of_rc (by simp) (rBuildInteger_suffix hint)
    · cases h
      exact .of_rc (by simp) (rBuildInteger_suffix hint)

theorem leading_none (h : redisReplyReadLeading bb = none) : Took bb .premature bb := by
  refine ⟨List.suffix_rfl, fun _ _ => .inl ?_⟩
  rw [List.head?_eq_none_iff.1 h]
  decide

theorem buildArrayElementType_takes (rrb : Nat) : Takes (buildArrayElementType rrb) := by
  intro rrp bb r o h
  unfold buildArrayElementType at h
  split at h
  · next hnone =>
    cases h
    exact leading_none hnone
  · split at h
    · cases h
      exact took_self (by simp)
    · cases h
      exact took_decommit (by simp) 1

theorem buildByType_takes {rBuildArray : Nat → Step} (harray : ∀ rrb, Takes (rBuildArray rrb))
    (rrb : Nat) : Takes (buildByType rBuildArray fuel rrb) := by
  intro rrp bb r o h
  unfold buildByType at h
  split at h
  · exact rBuildSimpleString_takes rrb rrp bb r o h
  · exact rBuildSimpleString_takes rrb rrp bb r o h
  · exact rBuildIntval_takes rrp bb r o h
  · exact rBuildBulkString_takes rrb rrp bb r o h
  · exact harray rrb rrp bb r o h
  · cases h
    exact took_self (by simp)

theorem buildArrayElementEnd_took {rrb : Nat} {r : RedisReply} {o : Out} (h : Took bb o.rc o.bb) :
    Took bb (buildArrayElementEnd rrb r o).rc (buildArrayElementEnd rrb r o).bb := by
  unfold buildArrayElementEnd
  split
  · next hover =>
    simp only
    split
    · exact .of_rc (by simp) h.suffix
    · split
      · exact .of_rc (by simp) h.suffix
      · exact .of_rc (by simp [hover]) h.suffix
  · exact h

theorem buildArrayElement_takes {rBuildArray : Nat → Step} (harray : ∀ rrb, Takes (rBuildArray rrb))
    (rrb : Nat) : Takes (buildArrayElement rBuildArray fuel rrb) := by
  intro rrp bb r o h
  unfold buildArrayElement at h
  split at h
  · cases h
    exact took_self (by simp)
  · simp only at h
    split at h
    · cases h
      exact took_self (by simp)
    · split at h
      · cases h
        exact took_self (by simp)
      · split at h
        · cases h
        · next hbuild =>
          cases h
          exact buildArrayElementEnd_took (buildByType_takes harray rrb _ _ _ _ hbuild)

theorem rBuildArray_takes (rrb : Nat) : Takes (rBuildArray fuel rrb) := by
  induction fuel generalizing rrb with
  | zero =>
    intro rrp bb r o h
    cases h
  | succ fuel ih =>
    intro rrp bb r o h
    rw [rBuildArray] at h
    refine withBuilder_takes (fun subRrb => ?_) rrp bb r o h
    intro rrp bb r o h
    simp only at h
    split at h
    · exact buildArrayLen_takes subRrb rrp bb r o h
    · exact buildArrayLen_takes subRrb rrp bb r o h
    · exact buildArrayElementType_takes subRrb rrp bb r o h
    · exact buildArrayElement_takes ih subRrb rrp bb r o h
    · cases h
      exact took_self (by simp)

theorem buildReplyType_takes (rrb : Nat) : Takes (buildReplyType rrb) := by
  intro rrp bb r o h
  unfold buildReplyType at h
  split at h
  · next hnone =>
    cases h
    exact leading_none hnone
  · split at h
    · cases h
      exact took_self (by simp)
    · cases h
      exact took_decommit (by simp) 1

theorem rBuildReply_took {o : Out} (h : rBuildReply fuel rrp bb = some o) : Took bb o.rc o.bb := by
  unfold rBuildReply at h
  split at h
  · cases h
  · next o₁ hbuild =>
    have htook : Took bb o₁.rc o₁.bb := by
      refine withBuilder_takes (fun rrb => ?_) _ _ _ _ hbuild
      intro rrp bb r o h
      simp only at h
      split at h
      · exact buildReplyType_takes rrb rrp bb r o h
      · exact buildReplyType_takes rrb rrp bb r o h
      · exact buildByType_takes rBuildArray_takes rrb rrp bb r o h
      · cases h
        exact took_self (by simp)
    split at h
    · cases h
      exact htook
    · cases h
      exact htook

theorem parseLoop_stop {rCb : RedisReply → Int} {rounds : Nat} {out : ParseOut}
    (hrc : rc ≠ .again ∧ rc ≠ .over) (h : parseLoop rCb fuel rounds rc rrp bb = some out) :
    out.rc = rc ∧ out.bb = bb := by
  cases rounds with
  | zero => cases h
  | succ rounds =>
    rw [parseLoop, if_neg (fun hgo => hgo.2.elim hrc.1 hrc.2)] at h
    cases h
    exact ⟨rfl, rfl⟩

theorem parseLoop_took {rCb : RedisReply → Int} {rounds : Nat} {out : ParseOut}
    (hrc : rc = .again ∨ rc = .over) (h : parseLoop rCb fuel rounds rc rrp bb = some out) :
    Took bb out.rc out.bb := by
  induction rounds generalizing rc rrp bb out with
  | zero => cases h
  | succ rounds ih =>
    rw [parseLoop] at h
    split at h
    · split at h
      · cases h
      · next o hbuild =>
        have htook := rBuildReply_took hbuild
        split at h
        · next hover =>
          split at h
          · split at h
            · cases h
            · next hrest =>
              have hleft := ih (.inr rfl) hrest
              cases h
              exact Took.trans htook.suffix hleft
          · cases h
            exact .of_rc (by simp) htook.suffix
        · next hover =>
          by_cases hagain : o.rc = .again
          · exact Took.trans htook.suffix (ih (.inl hagain) h)
          · obtain ⟨hcode, hleft⟩ := parseLoop_stop ⟨hagain, hover⟩ h
            rw [hcode, hleft]
            exact htook
    · cases h
      rcases hrc with rfl | rfl
      · exact took_self (by simp)
      · exact took_self (by simp)

/-- A call leaves the end of its block. Where it asks for more and has taken nothing, the
block has no CRLF. -/
theorem redisReplyParseOnce_took {rCb : RedisReply → Int} {out : ParseOut}
    (h : redisReplyParseOnce rCb rrp bb = some out) : Took bb out.rc out.bb :=
  parseLoop_took (.inl rfl) h

end KjRedis.Reply
