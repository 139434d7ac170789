import KjRedis.Conn.InFlight

/-! `_committing_num` against the states of the pipelines: it counts those in flight, which
stand at the front of the deque, until `CommitLoop` runs over a stream that is gone. -/
namespace KjRedis.Conn

open KjRedis.Reply KjRedisConn

def PipelineState.isInFlight : PipelineState → Bool
  | .committing | .processing => true
  | _ => false

/-- `_committing_num` is the number of pipelines in flight, these come first, and only the
first of them has been answered in part. -/
structure KjRedisConn.Accounted {τ : Type*} (c : KjRedisConn τ) : Prop where
  num : c.committingNum = (c.dqCommon.countP fun cp => cp.state.isInFlight : Nat)
  leading : ∃ flying rest, c.dqCommon = flying ++ rest ∧
    (∀ cp ∈ flying, cp.state.isInFlight) ∧ ∀ cp ∈ rest, ¬ cp.state.isInFlight
  first : ∀ cp ∈ c.dqCommon.tail, cp.state ≠ .processing

/-- `CommitLoop` finds no pipeline to write while others wait for the reconnect. -/
def KjRedisConn.Committable {τ : Type*} (c : KjRedisConn τ) : Prop :=
  c.bConnected → (∃ cp ∈ c.dqCommon, cp.state = .queueing) → ∀ cp ∈ c.dqCommon, cp.state ≠ .sending

/-- Nothing is committed to a stream that is gone, as far as a reconnect meets it. -/
def KjRedisConn.Unflushed {ι τ : Type*} (c : KjRedisConn τ) : Event ι → Prop
  | .commit _ | .tick _ => c.Committable
  | .connectOk _ => c.committingNum = 0
  | _ => True

/-- The pipelines in flight, then those that wait to be written. -/
structure Flowing {τ : Type*} (flying waiting : List CmdPipeline) (c : KjRedisConn τ) : Prop where
  dqCommon : c.dqCommon = flying ++ waiting
  inFlight : ∀ cp ∈ flying, cp.state.isInFlight
  first : ∀ cp ∈ flying.tail, cp.state ≠ .processing
  sending : ∀ cp ∈ waiting, cp.state = .sending
  num : c.committingNum = flying.length

/-- The stream is gone: the pipelines put back, then those sent since. -/
structure Flushed {τ : Type*} (kept waiting : List CmdPipeline) (c : KjRedisConn τ) : Prop where
  dqCommon : c.dqCommon = kept ++ waiting
  queueing : ∀ cp ∈ kept, cp.state = .queueing
  sending : ∀ cp ∈ waiting, cp.state = .sending
  num : c.committingNum = 0
  stream : c.stream = none

def Staged {τ : Type*} (c : KjRedisConn τ) : Prop :=
  (∃ flying waiting, Flowing flying waiting c) ∨ ∃ kept waiting, Flushed kept waiting c

section
variable {ι τ : Type*} {P : ReplyParser ι τ} {intake : CRedisReply → Option CRedisReply}
  {flying kept waiting : List CmdPipeline} {c c' : KjRedisConn τ}

theorem not_isInFlight_of_sending {cp : CmdPipeline} (h : cp.state = .sending) :
    ¬ cp.state.isInFlight := by
  rw [h]
  exact Bool.false_ne_true

theorem countP_flying (hflying : ∀ cp ∈ flying, cp.state.isInFlight)
    (hwaiting : ∀ cp ∈ waiting, ¬ cp.state.isInFlight) :
    (flying ++ waiting).countP (fun cp => cp.state.isInFlight) = flying.length := by
  rw [List.countP_append, List.countP_eq_length.2 hflying,
    List.countP_eq_zero.2 hwaiting, Nat.add_zero]

theorem Flowing.accounted (h : Flowing flying waiting c) : Accounted c := by
  have hwaiting : ∀ cp ∈ waiting, ¬ cp.state.isInFlight := fun cp hcp =>
    not_isInFlight_of_sending (h.sending cp hcp)
  refine ⟨?_, ⟨flying, waiting, h.dqCommon, h.inFlight, hwaiting⟩, fun cp hcp => ?_⟩
  · rw [h.dqCommon, countP_flying h.inFlight hwaiting, h.num]
  · rw [h.dqCommon] at hcp
    have hmem : cp ∈ flying.tail ∨ cp ∈ waiting := by
      cases flying with
      | nil => exact .inr (List.mem_of_mem_tail hcp)
      | cons first flying => exact List.mem_append.1 hcp
    rcases hmem with hmem | hmem
    · exact h.first cp hmem
    · rw [h.sending cp hmem]
      exact PipelineState.noConfusion

theorem Flushed.accounted (h : Flushed kept waiting c) : Accounted c := by
  have hnone : ∀ cp ∈ c.dqCommon, cp.state = .queueing ∨ cp.state = .sending := by
    intro cp hcp
    rw [h.dqCommon] at hcp
    exact (List.mem_append.1 hcp).imp (h.queueing cp) (h.sending cp)
  have hrest : ∀ cp ∈ c.dqCommon, ¬ cp.state.isInFlight := fun cp hcp => by
    rcases hnone cp hcp with hs | hs <;> simp [hs, PipelineState.isInFlight]
  refine ⟨?_, ⟨[], c.dqCommon, rfl, fun _ hcp => absurd hcp List.not_mem_nil, hrest⟩, fun cp hcp => ?_⟩
  · rw [List.countP_eq_zero.2 hrest, h.num, Nat.cast_zero]
  · rcases hnone cp (List.mem_of_mem_tail hcp) with hs | hs <;> simp [hs]

theorem Staged.accounted (h : Staged c) : Accounted c := by
  rcases h with ⟨flying, waiting, h⟩ | ⟨kept, waiting, h⟩
  · exact h.accounted
  · exact h.accounted

theorem Flushed.flowing (h : Flushed [] waiting c) : Flowing [] waiting c :=
  ⟨h.dqCommon, fun _ hcp => absurd hcp List.not_mem_nil, fun _ hcp => absurd hcp List.not_mem_nil,
    h.sending, h.num⟩

theorem Staged.copy (h : Staged c) (hdq : c'.dqCommon = c.dqCommon)
    (hnum : c'.committingNum = c.committingNum) (hstream : c'.stream = c.stream) : Staged c' := by
  rcases h with ⟨flying, waiting, h⟩ | ⟨kept, waiting, h⟩
  · exact .inl ⟨flying, waiting, hdq.trans h.dqCommon, h.inFlight, h.first, h.sending,
      hnum.trans h.num⟩
  · exact .inr ⟨kept, waiting, hdq.trans h.dqCommon, h.queueing, h.sending, hnum.trans h.num,
      hstream.trans h.stream⟩

theorem Staged.send (h : Staged c) (work : CmdWork) : Staged (c.send work) := by
  have hsent : ∀ {waiting : List CmdPipeline}, (∀ cp ∈ waiting, cp.state = .sending) →
      ∀ cp ∈ waiting ++ [(createCmdPipeline work).setState .sending], cp.state = .sending := by
    intro waiting hwaiting cp hcp
    rcases List.mem_append.1 hcp with hcp | hcp
    · exact hwaiting cp hcp
    · rw [List.mem_singleton.1 hcp]
      rfl
  rcases h with ⟨flying, waiting, h⟩ | ⟨kept, waiting, h⟩
  · refine .inl ⟨flying, _, ?_, h.inFlight, h.first, hsent h.sending, h.num⟩
    rw [KjRedisConn.send, h.dqCommon, List.append_assoc]
  · refine .inr ⟨kept, _, ?_, h.queueing, hsent h.sending, h.num, h.stream⟩
    rw [KjRedisConn.send, h.dqCommon, List.append_assoc]

/-- What `CommitLoop` writes of pipelines that wait behind others. -/
theorem commitLoop_waiting {front : List CmdPipeline} (hdq : c.dqCommon = front ++ waiting)
    (hfront : ∀ cp ∈ front, cp.state ≠ .sending) (hwaiting : ∀ cp ∈ waiting, cp.state = .sending)
    (hconn : c.bConnected) (ok : Option Nat) :
    ∃ n, (c.commitLoop ok).1.dqCommon =
        (front ++ (waiting.take n).map (·.setState .committing)) ++ waiting.drop n ∧
      (c.commitLoop ok).1.committingNum =
        c.committingNum + ((waiting.take n).map (·.setState .committing)).length ∧
      (c.stream = none → waiting.length ≤ n) := by
  rw [KjRedisConn.commitLoop, if_pos hconn]
  simp only
  generalize hn : (if c.stream.isSome then ok.getD c.dqCommon.length else c.dqCommon.length) = n
  have hwrite := writeSending_unsent n hwaiting
  rw [hdq, writeSending_skips hfront, hwrite]
  refine ⟨n, (List.append_assoc _ _ _).symm, ?_, fun hnone => ?_⟩
  · simp only [List.length_map]
  · rw [hnone, if_neg (by simp), hdq, List.length_append] at hn
    omega

theorem Flowing.commitLoop (h : Flowing flying waiting c) (ok : Option Nat) :
    Staged (c.commitLoop ok).1 := by
  by_cases hconn : c.bConnected
  · have hskip : ∀ cp ∈ flying, cp.state ≠ .sending := fun cp hcp hs =>
      not_isInFlight_of_sending hs (h.inFlight cp hcp)
    obtain ⟨n, hdq, hnum, -⟩ := commitLoop_waiting h.dqCommon hskip h.sending hconn ok
    have hwritten : ∀ cp ∈ (waiting.take n).map (·.setState .committing), cp.state = .committing := by
      intro cp hcp
      obtain ⟨cp', -, rfl⟩ := List.mem_map.1 hcp
      rfl
    refine .inl ⟨_, _, hdq, fun cp hcp => ?_, fun cp hcp => ?_, fun cp hcp =>
      h.sending cp (List.mem_of_mem_drop hcp), ?_⟩
    · rcases List.mem_append.1 hcp with hcp | hcp
      · exact h.inFlight cp hcp
      · rw [hwritten cp hcp]
        rfl
    · have hmem : cp ∈ flying.tail ∨ cp ∈ (waiting.take n).map (·.setState .committing) := by
        cases flying with
        | nil => exact .inr (List.mem_of_mem_tail hcp)
        | cons first flying => exact List.mem_append.1 hcp
      rcases hmem with hmem | hmem
      · exact h.first cp hmem
      · rw [hwritten cp hmem]
        exact PipelineState.noConfusion
    · rw [hnum, h.num, List.length_append, Nat.cast_add]
  · rw [KjRedisConn.commitLoop, if_neg hconn]
    exact .inl ⟨flying, waiting, h.dqCommon, h.inFlight, h.first, h.sending, h.num⟩

theorem Flushed.not_sending (h : Flushed kept waiting c) : ∀ cp ∈ kept, cp.state ≠ .sending := by
  intro cp hcp hs
  rw [h.queueing cp hcp] at hs
  cases hs

theorem Flushed.commitLoop_staged (h : Flushed kept waiting c) (hstep : c.Committable)
    (ok : Option Nat) : Staged (c.commitLoop ok).1 := by
  cases hkept : kept with
  | nil =>
    subst hkept
    exact h.flowing.commitLoop ok
  | cons cp kept' =>
    by_cases hconn : c.bConnected
    · have hcp : cp ∈ kept := hkept ▸ List.mem_cons_self
      have hnil : waiting = [] := by
        refine List.eq_nil_iff_forall_not_mem.2 fun cp' hcp' => ?_
        refine hstep hconn ⟨cp, ?_, h.queueing cp hcp⟩ cp' ?_ (h.sending cp' hcp')
        · exact h.dqCommon ▸ List.mem_append_left _ hcp
        · exact h.dqCommon ▸ List.mem_append_right _ hcp'
      subst hnil
      obtain ⟨n, hdq, hnum, -⟩ := commitLoop_waiting h.dqCommon h.not_sending h.sending hconn ok
      rw [List.take_nil, List.drop_nil, List.map_nil, List.append_nil] at hdq
      rw [List.take_nil, List.map_nil, List.length_nil, Nat.cast_zero, add_zero] at hnum
      refine .inr ⟨kept, [], hdq, h.queueing, h.sending, hnum.trans h.num, ?_⟩
      rw [KjRedisConn.commitLoop, if_pos hconn]
      simp only [h.stream, Option.map_none]
    · rw [KjRedisConn.commitLoop, if_neg hconn]
      exact .inr ⟨kept, waiting, h.dqCommon, h.queueing, h.sending, h.num, h.stream⟩

theorem Flushed.commitLoop_unaccounted (h : Flushed kept waiting c) (hstep : ¬ c.Committable)
    (ok : Option Nat) : ¬ Accounted (c.commitLoop ok).1 := by
  intro haccounted
  rw [Committable, Classical.not_imp, Classical.not_imp, not_forall] at hstep
  obtain ⟨hconn, ⟨cp, hcp, hqueueing⟩, ⟨cp', hsending⟩⟩ := hstep
  rw [Classical.not_imp, not_not] at hsending
  obtain ⟨hcp', hsending⟩ := hsending
  rw [h.dqCommon] at hcp hcp'
  have hcp : cp ∈ kept := (List.mem_append.1 hcp).resolve_right fun hmem => by
    rw [h.sending cp hmem] at hqueueing
    cases hqueueing
  have hcp' : cp' ∈ waiting := (List.mem_append.1 hcp').resolve_left fun hmem =>
    h.not_sending cp' hmem hsending
  obtain ⟨n, hdq, -, hall⟩ := commitLoop_waiting h.dqCommon h.not_sending h.sending hconn ok
  rw [List.take_of_length_le (hall h.stream), List.drop_of_length_le (hall h.stream),
    List.append_nil] at hdq
  obtain ⟨flying, rest, hsplit, hflying, hrest⟩ := haccounted.leading
  rw [hdq] at hsplit
  -- The front of the deque was put back, so nothing can be in flight.
  cases flying with
  | nil =>
    refine hrest (cp'.setState .committing) ?_ rfl
    rw [List.nil_append] at hsplit
    rw [← hsplit]
    exact List.mem_append_right _ (List.mem_map_of_mem hcp')
  | cons first flying =>
    cases kept with
    | nil => cases hcp
    | cons first' kept' =>
      obtain ⟨rfl, -⟩ := List.cons.inj hsplit
      have hfirst := hflying first' List.mem_cons_self
      rw [h.queueing first' List.mem_cons_self] at hfirst
      cases hfirst

/-- Over a stream that is gone `CommitLoop` must not write: every pipeline would count as
written, behind those put back. -/
theorem Flushed.commitLoop (h : Flushed kept waiting c) (ok : Option Nat) :
    (c.Committable → Staged (c.commitLoop ok).1) ∧
      (¬ c.Committable → ¬ Accounted (c.commitLoop ok).1) :=
  ⟨fun hstep => h.commitLoop_staged hstep ok, fun hstep => h.commitLoop_unaccounted hstep ok⟩

theorem Staged.onReply (h : Staged c) (r : CRedisReply) : Staged (c.onReply r).1 := by
  have hspec := onReply_spec c r
  generalize c.onReply r = o at hspec ⊢
  rcases h with ⟨flying, waiting, h⟩ | ⟨kept, waiting, h⟩
  · have hfront : ∀ {cp dq}, c.dqCommon = cp :: dq → 0 < c.committingNum →
        ∃ flying', flying = cp :: flying' ∧ dq = flying' ++ waiting := by
      intro cp dq hdq hnum
      cases flying with
      | nil =>
        rw [h.num] at hnum
        exact absurd hnum (by simp)
      | cons first flying' =>
        obtain ⟨rfl, rfl⟩ := List.cons.inj (hdq.symm.trans h.dqCommon)
        exact ⟨flying', rfl, rfl⟩
    have hcounted : ∀ {cp dq} {calls : List Call}, c.dqCommon = cp :: dq → 0 < c.committingNum →
        Staged { c with dqCommon := cp.counted :: dq, calls } := by
      intro cp dq calls hdq hnum
      obtain ⟨flying', rfl, rfl⟩ := hfront hdq hnum
      refine .inl ⟨cp.counted :: flying', waiting, rfl, fun cp' hcp' => ?_, h.first, h.sending, h.num⟩
      rcases List.mem_cons.1 hcp' with rfl | hcp'
      · rfl
      · exact h.inFlight cp' (List.mem_cons_of_mem cp hcp')
    cases hspec with
    | refused => exact .inl ⟨flying, waiting, h⟩
    | counted cp dq hdq hnum => exact hcounted hdq hnum
    | threw cp dq hdq hnum => exact hcounted hdq hnum
    | finished cp dq hdq hnum =>
      obtain ⟨flying', rfl, rfl⟩ := hfront hdq hnum
      refine .inl ⟨flying', waiting, rfl, fun cp' hcp' => h.inFlight cp' (List.mem_cons_of_mem cp hcp'),
        fun cp' hcp' => h.first cp' (List.mem_of_mem_tail hcp'), h.sending, ?_⟩
      show c.committingNum - 1 = _
      rw [h.num, List.length_cons, Nat.cast_add, Nat.cast_one, add_sub_cancel_right]
  · have hnone : ¬ 0 < c.committingNum := by
      rw [h.num]
      exact lt_irrefl 0
    cases hspec with
    | refused => exact .inr ⟨kept, waiting, h⟩
    | counted cp dq hdq hnum => exact absurd hnum hnone
    | threw cp dq hdq hnum => exact absurd hnum hnone
    | finished cp dq hdq hnum => exact absurd hnum hnone

theorem Staged.commitLoop (h : Staged c) (ok : Option Nat)
    (hstep : c.Committable) : Staged (c.commitLoop ok).1 := by
  rcases h with ⟨flying, waiting, h⟩ | ⟨kept, waiting, h⟩
  · exact h.commitLoop ok
  · exact (h.commitLoop ok).1 hstep

theorem Staged.not_commitLoop (h : Staged c) (ok : Option Nat)
    (hstep : ¬ c.Committable) : ¬ Accounted (c.commitLoop ok).1 := by
  rcases h with ⟨flying, waiting, h⟩ | ⟨kept, waiting, h⟩
  · refine absurd (fun _ hqueueing => ?_) hstep
    obtain ⟨cp, hcp, hs⟩ := hqueueing
    rw [h.dqCommon] at hcp
    rcases List.mem_append.1 hcp with hcp | hcp
    · have hfly := h.inFlight cp hcp
      rw [hs] at hfly
      cases hfly
    · rw [h.sending cp hcp] at hs
      cases hs
  · exact (h.commitLoop ok).2 hstep

/-- `Commit` and what its failure schedules change the same of the deque as its loop. -/
theorem commit_eq_commitLoop (ok : Option Nat) (hdq : c.dqCommon ≠ []) :
    (c.commit ok).dqCommon = (c.commitLoop ok).1.dqCommon ∧
      (c.commit ok).committingNum = (c.commitLoop ok).1.committingNum ∧
      (c.commit ok).stream = (c.commitLoop ok).1.stream := by
  rw [KjRedisConn.commit, if_neg hdq]
  split
  next c' threw heq =>
    rw [heq]
    split <;> exact ⟨rfl, rfl, rfl⟩

theorem KjRedisConn.Accounted.copy (h : Accounted c) (hdq : c'.dqCommon = c.dqCommon)
    (hnum : c'.committingNum = c.committingNum) : Accounted c' := by
  refine ⟨?_, ?_, ?_⟩
  · rw [hnum, hdq]
    exact h.num
  · rw [hdq]
    exact h.leading
  · rw [hdq]
    exact h.first

theorem Staged.commit (h : Staged c) (ok : Option Nat)
    (hstep : c.Committable) : Staged (c.commit ok) := by
  by_cases hdq : c.dqCommon = []
  · rw [KjRedisConn.commit, if_pos hdq]
    exact h
  · obtain ⟨hdq', hnum, hstream⟩ := commit_eq_commitLoop ok hdq
    exact (h.commitLoop ok hstep).copy hdq' hnum hstream

theorem Staged.not_commit (h : Staged c) (ok : Option Nat)
    (hstep : ¬ c.Committable) : ¬ Accounted (c.commit ok) := by
  have hdq : c.dqCommon ≠ [] := by
    intro hnil
    refine hstep fun _ hqueueing => ?_
    rw [hnil]
    exact fun _ hcp => absurd hcp List.not_mem_nil
  obtain ⟨hdq', hnum, -⟩ := commit_eq_commitLoop ok hdq
  exact fun hacc => h.not_commitLoop ok hstep (hacc.copy hdq'.symm hnum.symm)

/-- After a connect all pipelines wait; the count goes on from what it was. -/
theorem connected_flowing (ok : Option Nat) :
    ∃ flying waiting, (c.connected ok).dqCommon = flying ++ waiting ∧
      (∀ cp ∈ flying, cp.state = .committing) ∧ (∀ cp ∈ waiting, cp.state = .sending) ∧
      (c.connected ok).committingNum = c.committingNum + flying.length := by
  have hwaiting : ∀ cp ∈ (KjRedisConn.resending c).dqCommon, cp.state = .sending :=
    fun cp hcp => (resending_cases hcp).1
  rw [connected_eq]
  by_cases hdq : (KjRedisConn.resending c).dqCommon = []
  · rw [KjRedisConn.commit, if_pos hdq, hdq]
    refine ⟨[], [], rfl, fun _ h => absurd h List.not_mem_nil, fun _ h => absurd h List.not_mem_nil, ?_⟩
    rw [List.length_nil, Nat.cast_zero, add_zero]
    rfl
  · obtain ⟨hdq', hnum, -⟩ := commit_eq_commitLoop ok hdq
    obtain ⟨n, hloop, hloopNum, -⟩ := @commitLoop_waiting τ _ (KjRedisConn.resending c) [] rfl
      (fun _ h => absurd h List.not_mem_nil) hwaiting rfl ok
    refine ⟨_, _, hdq'.trans hloop, fun cp hcp => ?_, fun cp hcp =>
      hwaiting cp (List.mem_of_mem_drop hcp), hnum.trans hloopNum⟩
    rw [List.nil_append] at hcp
    obtain ⟨cp', -, rfl⟩ := List.mem_map.1 hcp
    rfl

theorem Staged.next {e : Event ι} (h : Staged c) (hstep : c.Unflushed e)
    (hnext : Next P intake c e c') : Staged c' := by
  have hloop : ∀ {parser replies c₁ threw}, KjRedisConn.replyLoop intake
      (c.availableReplies ++ replies) (c.parsed parser replies) = (c₁, threw) → Staged c₁ := by
    intro parser replies c₁ threw heq
    have hread := replyLoop_keeps Staged (fun _ _ h => h.copy rfl rfl rfl) (fun _ r h => h.onReply r)
      intake (c.availableReplies ++ replies) (h.copy rfl rfl rfl : Staged (c.parsed parser replies))
    rw [heq] at hread
    exact hread
  cases hnext with
  | send work => exact h.send work
  | commit ok => exact h.commit ok hstep
  | tick ok c₁ threw _ hcommit =>
    have hticked : Staged { c with commitTicks := c.commitTicks - 1 } := h.copy rfl rfl rfl
    have hcommitted := hticked.commitLoop ok hstep
    rw [hcommit] at hcommitted
    split
    · exact hcommitted.copy rfl rfl rfl
    · exact hcommitted
  | unparsed chunk parser replies => exact h.copy rfl rfl rfl
  | read chunk parser replies c₁ _ _ heq => exact hloop heq
  | refused chunk parser replies c₁ _ _ heq => exact (hloop heq).copy rfl rfl rfl
  | readFail => exact h.copy rfl rfl rfl
  | reset =>
    refine .inr ⟨(c.reset P).dqCommon, [], (List.append_nil _).symm, fun cp hcp => ?_,
      fun _ hcp => absurd hcp List.not_mem_nil, rfl, rfl⟩
    obtain ⟨cp', -, rfl⟩ := List.mem_map.1 hcp
    rfl
  | timer => exact h.copy rfl rfl rfl
  | connectOk ok =>
    obtain ⟨flying, waiting, hdq, hflying, hwaiting, hnum⟩ := @connected_flowing τ c ok
    have hzero : c.committingNum = 0 := hstep
    refine .inl ⟨flying, waiting, hdq, fun cp hcp => ?_, fun cp hcp => ?_, hwaiting, ?_⟩
    · rw [hflying cp hcp]
      rfl
    · rw [hflying cp (List.mem_of_mem_tail hcp)]
      exact PipelineState.noConfusion
    · rw [hnum, hzero, zero_add]
  | connectFail => exact h.copy rfl rfl rfl

theorem Staged.not_next {e : Event ι} (h : Staged c) (hstep : ¬ c.Unflushed e)
    (hnext : Next P intake c e c') : ¬ Accounted c' := by
  cases hnext with
  | commit ok => exact h.not_commit ok hstep
  | tick ok c₁ threw _ hcommit =>
    have hticked : Staged { c with commitTicks := c.commitTicks - 1 } := h.copy rfl rfl rfl
    have hbad := hticked.not_commitLoop ok hstep
    rw [hcommit] at hbad
    split
    · exact fun hacc => hbad (hacc.copy rfl rfl)
    · exact hbad
  | connectOk ok =>
    obtain ⟨flying, waiting, hdq, hflying, hwaiting, hnum⟩ := @connected_flowing τ c ok
    intro hacc
    have hcount := hacc.num
    rw [hdq, hnum, countP_flying (fun cp hcp => by rw [hflying cp hcp]; rfl)
      fun cp hcp => not_isInFlight_of_sending (hwaiting cp hcp)] at hcount
    exact hstep (add_eq_right.1 hcount)
  | _ => exact absurd trivial hstep

end

/-- Through a run of a client connection the pipelines in flight are accounted for if and
only if nothing is committed to a stream that is gone. -/
theorem accounted_iff_unflushed {ι τ : Type*} (P : ReplyParser ι τ) (param : RedisStubParam)
    {es : List (Event ι)} {c : KjRedisConn τ}
    (hrun : (clientConn P).run (opened P (clientInit param)) es = some c) :
    (clientConn P).Always Accounted (opened P (clientInit param)) es ↔
      (clientConn P).Meets Unflushed (opened P (clientInit param)) es := by
  refine Transition.System.always_iff_meets (fun _ h => Staged.accounted h)
    (fun _ _ _ h hp hnext => h.next hp (clientConn_spec hnext))
    (fun _ _ _ h hp hnext => h.not_next hp (clientConn_spec hnext)) ?_ hrun
  exact .inl ⟨[], [], rfl, fun _ h => absurd h List.not_mem_nil,
    fun _ h => absurd h List.not_mem_nil, fun _ h => absurd h List.not_mem_nil, rfl⟩

/-- A pipeline committed, the connection lost and made again. -/
theorem accounted_iff_unflushed_reconnect :
    let work : CmdWork :=
      { sn := 1, commands := [[[80]]], builtNum := 1, replyCb := some .user, disposes := false }
    let es : List (Event (List CRedisReply)) :=
      [.connectOk none, .send work, .commit none, .readFail, .reset, .timer, .connectOk none]
    (clientConn wholeReplies).Always Accounted (opened wholeReplies (clientInit ⟨[], []⟩)) es := by
  intro work es
  have hsome : ((clientConn wholeReplies).run (opened wholeReplies (clientInit ⟨[], []⟩)) es).isSome := by
    decide
  obtain ⟨c, hc⟩ := Option.isSome_iff_exists.1 hsome
  refine (accounted_iff_unflushed wholeReplies ⟨[], []⟩ hc).2 ?_
  refine Transition.System.meets_cons (P := Unflushed) rfl rfl ?_
  apply Transition.System.meets_cons rfl trivial
  refine Transition.System.meets_cons rfl (fun _ hqueueing => absurd hqueueing ?_) ?_
  · decide
  apply Transition.System.meets_cons rfl trivial
  apply Transition.System.meets_cons rfl trivial
  apply Transition.System.meets_cons rfl trivial
  exact Transition.System.meets_cons (P := Unflushed) rfl rfl trivial

/-- After the reset the pipeline of `Init` is put back; another is sent and committed to the
stream that is gone. -/
theorem not_accounted_flushed :
    let work : CmdWork :=
      { sn := 1, commands := [[[80]]], builtNum := 1, replyCb := some .user, disposes := false }
    let es : List (Event (List CRedisReply)) :=
      [.connectOk none, .readFail, .reset, .send work, .commit none]
    ∃ c, (clientConn wholeReplies).run (opened wholeReplies (clientInit ⟨[], []⟩)) es = some c ∧
      c.dqCommon.map (·.state) = [.queueing, .committing] ∧ ¬ Accounted c := by
  intro work es
  have hsome : ((clientConn wholeReplies).run (opened wholeReplies (clientInit ⟨[], []⟩)) es).isSome := by
    decide
  obtain ⟨c, hc⟩ := Option.isSome_iff_exists.1 hsome
  have hstates : c.dqCommon.map (·.state) = [.queueing, .committing] := by
    have hall : ((clientConn wholeReplies).run (opened wholeReplies (clientInit ⟨[], []⟩)) es).map
        (fun c => c.dqCommon.map (·.state)) = some [.queueing, .committing] := by
      decide
    rw [hc] at hall
    exact Option.some.inj hall
  refine ⟨c, hc, hstates, fun hacc => ?_⟩
  obtain ⟨flying, rest, hsplit, hflying, hrest⟩ := hacc.leading
  rw [hsplit, List.map_append] at hstates
  cases flying with
  | nil =>
    rw [List.map_nil, List.nil_append] at hstates
    obtain ⟨cp, hcp, hs⟩ : ∃ cp ∈ rest, cp.state = .committing := by
      have hmem : PipelineState.committing ∈ rest.map (·.state) := by simp [hstates]
      exact List.mem_map.1 hmem
    exact hrest cp hcp (by rw [hs]; rfl)
  | cons first flying =>
    have hfirst := hflying first List.mem_cons_self
    have hqueueing : first.state = .queueing := (List.cons.inj hstates).1
    rw [hqueueing] at hfirst
    cases hfirst

end KjRedis.Conn
