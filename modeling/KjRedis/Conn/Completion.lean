import KjRedis.Conn.Connection

/-! Completions of a client connection: whatever fails and however often it reconnects,
the callers' pipelines complete in the order they were sent, none twice and none lost. -/
namespace KjRedis.Conn

open KjRedisConn

variable {ι τ : Type*} {P : ReplyParser ι τ} {intake : CRedisReply → Option CRedisReply}
  {c c' : KjRedisConn τ}

/-- A pipeline of `CRedisClient`: it has a number, and a callback that does not throw. -/
structure CmdWork.IsUser (work : CmdWork) : Prop where
  sn : 0 < work.sn
  replyCb : work.replyCb = some .user

/-- The caller's pipeline whose `_reply_cb` this call is. -/
def Call.fired : Call → Option CmdWork
  | .reply work _ => if 0 < work.sn then some work else none
  | .dispose _ => none

def fired (calls : List Call) : List CmdWork := calls.filterMap Call.fired

/-- The callers' pipelines in a deque. -/
def waiting (dq : List CmdPipeline) : List CmdWork :=
  (dq.map (·.toCmdWork)).filter fun work => 0 < work.sn

def Event.sent : Event ι → Option CmdWork
  | .send work => some work
  | _ => none

/-- The pipelines passed to `Send`. -/
def sent (es : List (Event ι)) : List CmdWork := es.filterMap Event.sent

/-- Callers send only pipelines of their own. -/
def Event.Proper : Event ι → Prop
  | .send work => work.IsUser
  | _ => True

/-- The invariant. `PROCESS_OVER` is set only on a pipeline that leaves the deque at
once, so no pipeline in it is left out when the deque is rebuilt. -/
structure InOrder (past : List (Event ι)) (c : KjRedisConn τ) : Prop where
  order : fired c.calls ++ waiting c.dqCommon = sent past
  user : ∀ work ∈ c.queued, 0 < work.sn → work.IsUser
  notOver : ∀ cp ∈ c.dqCommon, cp.state ≠ .processOver
  init : ∀ cp ∈ c.dqInit, cp.sn = 0

theorem InOrder.same {past : List (Event ι)} (h : InOrder past c) (hsame : SameQueue c c') :
    InOrder past c' := by
  have hqueued : c'.dqCommon.map (·.toCmdWork) = c.dqCommon.map (·.toCmdWork) := hsame.queued
  refine ⟨?_, ?_, fun cp hcp hover => ?_, ?_⟩
  · rw [hsame.calls, waiting, hqueued]
    exact h.order
  · rw [hsame.queued]
    exact h.user
  · exact h.notOver cp (hsame.notOver cp hcp hover) hover
  · rw [hsame.dqInit]
    exact h.init

theorem InOrder.send {past : List (Event ι)} (h : InOrder past c) {work : CmdWork}
    (hwork : work.IsUser) : InOrder (past ++ [.send work]) (c.send work) := by
  have hqueued : (c.send work).queued = c.queued ++ [work] := by
    rw [queued, KjRedisConn.send, List.map_append]
    rfl
  refine ⟨?_, ?_, ?_, h.init⟩
  · have hwaiting : waiting (c.send work).dqCommon = waiting c.dqCommon ++ [work] := by
      have := congrArg (List.filter fun work : CmdWork => decide (0 < work.sn)) hqueued
      rw [List.filter_append, List.filter_singleton, decide_eq_true hwork.sn] at this
      exact this
    have hsent : sent (past ++ [.send work]) = sent past ++ [work] := by
      rw [sent, List.filterMap_append]
      rfl
    rw [hsent, ← h.order, hwaiting, ← List.append_assoc]
    rfl
  · rw [hqueued]
    intro w hw hsn
    rcases List.mem_append.1 hw with hw | hw
    · exact h.user w hw hsn
    · obtain rfl := List.mem_singleton.1 hw
      exact hwork
  · intro cp hcp
    rcases List.mem_append.1 hcp with hcp | hcp
    · exact h.notOver cp hcp
    · obtain rfl := List.mem_singleton.1 hcp
      simp

theorem fired_append (calls calls' : List Call) :
    fired (calls ++ calls') = fired calls ++ fired calls' := List.filterMap_append

theorem fired_disposed (work : CmdWork) : fired work.disposed = [] := by
  rw [CmdWork.disposed]
  split <;> rfl

/-- A caller's pipeline shows in the list of those fired; an init one does not. -/
theorem fired_replied {cp : CmdPipeline} (reply : CRedisReply)
    (huser : 0 < cp.sn → cp.toCmdWork.IsUser) :
    fired (cp.replied reply) = waiting [cp] := by
  rw [CmdWork.replied, waiting, List.map_singleton, List.filter_singleton]
  by_cases hsn : 0 < cp.sn
  · rw [(huser hsn).replyCb]
    simp [fired, Call.fired, hsn]
  · split <;> simp [fired, Call.fired, hsn]

theorem waiting_cons (cp : CmdPipeline) (dq : List CmdPipeline) :
    waiting (cp :: dq) = waiting [cp] ++ waiting dq := by
  rw [waiting, List.map_cons, ← List.singleton_append, List.filter_append]
  rfl

/-- A pipeline's callback fires just as the pipeline leaves the deque; that of an init
pipeline may throw and leave it there. -/
theorem InOrder.onReply {past : List (Event ι)} (h : InOrder past c) (reply : CRedisReply) :
    InOrder past (c.onReply reply).1 := by
  have hfront : ∀ {cp dq}, c.dqCommon = cp :: dq → (0 < cp.sn → cp.toCmdWork.IsUser) ∧
      InOrder past { c with dqCommon := cp.counted :: dq } := by
    intro cp dq hdq
    refine ⟨h.user cp.toCmdWork ?_, h.same ⟨?_, rfl, rfl, fun cp' hcp' hover => ?_⟩⟩
    · rw [queued, hdq]
      exact List.mem_cons_self
    · rw [queued, queued, hdq]
      rfl
    · rcases List.mem_cons.1 hcp' with rfl | hcp'
      · cases hover
      · rw [hdq]
        exact List.mem_cons_of_mem cp hcp'
  have hspec := onReply_spec c reply
  generalize c.onReply reply = o at hspec ⊢
  cases hspec with
  | refused => exact h
  | counted cp dq hdq => exact (hfront hdq).2
  | threw cp dq hdq _ _ _ hcb =>
    obtain ⟨huser, hcounted⟩ := hfront hdq
    have hsn : ¬ 0 < cp.sn := by
      intro hsn
      rw [CmdWork.throwsOn, (huser hsn).replyCb] at hcb
      cases hcb
    refine ⟨?_, hcounted.user, hcounted.notOver, hcounted.init⟩
    have hnone : fired (cp.replied reply) = [] := by
      rw [fired_replied reply huser, waiting, List.map_singleton, List.filter_singleton,
        decide_eq_false hsn]
      rfl
    rw [fired_append, hnone, List.append_nil]
    exact hcounted.order
  | finished cp dq hdq =>
    obtain ⟨huser, -⟩ := hfront hdq
    refine ⟨?_, fun w hw => h.user w ?_, fun cp' hcp' => h.notOver cp' ?_, h.init⟩
    · have horder := h.order
      rw [hdq, waiting_cons, ← List.append_assoc] at horder
      rw [fired_append, fired_append, fired_disposed, List.append_nil, fired_replied reply huser]
      exact horder
    · rw [queued, hdq, List.map_cons]
      exact List.mem_cons_of_mem _ hw
    · rw [hdq]
      exact List.mem_cons_of_mem cp hcp'

theorem InOrder.replyLoop {past : List (Event ι)} (intake : CRedisReply → Option CRedisReply)
    (replies : List CRedisReply) (h : InOrder past c) :
    InOrder past (KjRedisConn.replyLoop intake replies c).1 := by
  apply replyLoop_keeps (InOrder past)
  · exact fun c _ h => h.same ⟨rfl, rfl, rfl, fun _ hcp _ => hcp⟩
  · exact fun c reply h => h.onReply reply
  · exact h

theorem waiting_eq (dq : List CmdPipeline) :
    waiting dq = (dq.filter fun cp => decide (0 < cp.sn)).map (·.toCmdWork) := by
  rw [waiting, List.filter_map]
  rfl

/-- What a connect keeps of the deque are the callers' pipelines. -/
theorem kept_eq_waiting {dq : List CmdPipeline} (h : ∀ cp ∈ dq, cp.state ≠ .processOver) :
    (dq.filter fun cp =>
      decide (0 < cp.sn ∧ cp.state.toNat < PipelineState.processOver.toNat)).map (·.toCmdWork) =
        waiting dq := by
  rw [waiting_eq]
  congr 1
  apply List.filter_congr
  intro cp hcp
  have hover := h cp hcp
  have hlt : cp.state.toNat < PipelineState.processOver.toNat := by
    cases hs : cp.state with
    | processOver => exact absurd hs hover
    | _ => decide
  simp [hlt]

/-- A connect keeps every pipeline of a caller and puts only init ones before them. -/
theorem InOrder.connected {past : List (Event ι)} (h : InOrder past c) (ok : Option Nat) :
    InOrder past (c.connected ok) := by
  rw [KjRedisConn.connected, onClientConnect]
  refine InOrder.same ?_ (sameQueue_commit _ ok)
  have hinit : waiting c.dqInit = [] := by
    rw [waiting_eq, List.map_eq_nil_iff, List.filter_eq_nil_iff]
    intro cp hcp
    simp [h.init cp hcp]
  have hkept : waiting (c.dqCommon.filter fun cp =>
      decide (0 < cp.sn ∧ cp.state.toNat < PipelineState.processOver.toNat)) =
        waiting c.dqCommon := by
    rw [waiting, kept_eq_waiting h.notOver, waiting, List.filter_filter]
    simp only [Bool.and_self]
  have hsending : ∀ dq : List CmdPipeline, (dq.map (·.setState .sending)).map (·.toCmdWork) =
      dq.map (·.toCmdWork) := by
    intro dq
    rw [List.map_map]
    rfl
  refine ⟨?_, ?_, ?_, h.init⟩
  · rw [← h.order]
    refine congrArg (fired c.calls ++ ·) ?_
    rw [waiting, hsending, List.map_append, List.filter_append, ← waiting, ← waiting, hinit, hkept,
      List.nil_append]
  · intro work hwork hsn
    rw [queued, hsending] at hwork
    obtain ⟨cp, hcp, rfl⟩ := List.mem_map.1 hwork
    rcases List.mem_append.1 hcp with hcp | hcp
    · rw [h.init cp hcp] at hsn
      exact absurd hsn (Int.lt_irrefl 0)
    · exact h.user _ (List.mem_map_of_mem (List.mem_of_mem_filter hcp)) hsn
  · intro cp hcp
    obtain ⟨cp', -, rfl⟩ := List.mem_map.1 hcp
    simp

/-- What neither sends nor reads leaves the history as it is. -/
theorem InOrder.past {past : List (Event ι)} (h : InOrder past c) {e : Event ι}
    (he : e.sent = none) : InOrder (past ++ [e]) c := by
  have hsent : sent (past ++ [e]) = sent past := by
    rw [sent, List.filterMap_append, List.filterMap_cons_none he, List.filterMap_nil,
      List.append_nil]
    rfl
  exact ⟨hsent ▸ h.order, h.user, h.notOver, h.init⟩

theorem InOrder.next {past : List (Event ι)} {e : Event ι} (h : InOrder past c)
    (he : e.Proper) (hnext : Next P intake c e c') : InOrder (past ++ [e]) c' := by
  have hcopy : ∀ c₁ : KjRedisConn τ, c₁.dqCommon = c.dqCommon → c₁.calls = c.calls →
      c₁.dqInit = c.dqInit → InOrder past c₁ := fun _ hdq hcalls hinit =>
    h.same ⟨by rw [queued, hdq, queued], hcalls, hinit, fun cp hcp _ => hdq ▸ hcp⟩
  have hloop : ∀ {parser replies c₁ threw}, KjRedisConn.replyLoop intake
      (c.availableReplies ++ replies) (c.parsed parser replies) = (c₁, threw) → InOrder past c₁ := by
    intro parser replies c₁ threw heq
    have hread := (hcopy (c.parsed parser replies) rfl rfl rfl).replyLoop intake
      (c.availableReplies ++ replies)
    rw [heq] at hread
    exact hread
  cases hnext with
  | send work => exact h.send he
  | commit ok => exact (h.same (sameQueue_commit c ok)).past rfl
  | tick ok c₁ threw _ hcommit =>
    have hsame := sameQueue_commitLoop { c with commitTicks := c.commitTicks - 1 } ok
    rw [hcommit] at hsame
    have hcommitted := (hcopy { c with commitTicks := c.commitTicks - 1 } rfl rfl rfl).same hsame
    apply InOrder.past _ rfl
    split
    · exact hcommitted.same (sameQueue_taskFailed c₁)
    · exact hcommitted
  | unparsed chunk parser replies => exact (hcopy (c.parsed parser replies) rfl rfl rfl).past rfl
  | read chunk parser replies c₁ _ _ heq => exact (hloop heq).past rfl
  | refused chunk parser replies c₁ _ _ heq =>
    have hfailed : InOrder past c₁.readFailed :=
      (hloop heq).same ⟨rfl, rfl, rfl, fun _ hcp _ => hcp⟩
    exact hfailed.past rfl
  | readFail => exact (hcopy c.readFailed rfl rfl rfl).past rfl
  | reset => exact (h.same (sameQueue_reset P c)).past rfl
  | timer =>
    apply InOrder.past _ rfl
    exact hcopy { c with bDelayReconnecting := false, connecting := true } rfl rfl rfl
  | connectOk ok => exact (h.connected ok).past rfl
  | connectFail =>
    apply InOrder.past _ rfl
    exact hcopy { c with connecting := false }.taskFailed rfl rfl rfl

/-- In every run of a client connection, over any reply parser, the callers' pipelines
whose callbacks have fired followed by those still in the deque are those sent. -/
theorem fired_append_waiting (P : ReplyParser ι τ) (param : RedisStubParam) {es : List (Event ι)}
    {c : KjRedisConn τ} (hproper : ∀ work, .send work ∈ es → work.IsUser)
    (hrun : (clientConn P).run (opened P (clientInit param)) es = some c) :
    fired c.calls ++ waiting c.dqCommon = sent es := by
  have hopened : InOrder ([] : List (Event ι)) (opened P (clientInit param)) :=
    ⟨rfl, fun _ h => absurd h List.not_mem_nil, fun _ h => absurd h List.not_mem_nil,
      fun cp hcp => (isInit_client param cp hcp).sn⟩
  have hmeets : (clientConn P).Meets (fun _ e => e.Proper) (opened P (clientInit param)) es := by
    apply Transition.System.meets_of_forall
    intro _ e he
    cases e with
    | send work => exact hproper work he
    | _ => trivial
  exact (Transition.System.run_history (fun _ _ _ _ h he hnext => h.next he (next_spec hnext)) hopened hmeets
    hrun).order

/-- Two pipelines sent, the first answered, the connection lost and made again. -/
theorem fired_append_waiting_reconnect :
    let work : Int → CmdWork := fun sn =>
      { sn, commands := [[[80]]], builtNum := 1, replyCb := some .user, disposes := false }
    let digest := CRedisReply.ofString (sTestcmsgpack.map some) .bulkString
    let es : List (Event (List CRedisReply)) :=
      [.connectOk none, .send (work 1), .send (work 2), .commit none,
        .receive [digest, .ofInt 7], .readFail, .reset, .timer, .connectOk none]
    ∃ c, (clientConn wholeReplies).run (opened wholeReplies (clientInit ⟨[], []⟩)) es = some c ∧
      fired c.calls ++ waiting c.dqCommon = sent es := by
  intro work digest es
  have hsome : ((clientConn wholeReplies).run (opened wholeReplies (clientInit ⟨[], []⟩)) es).isSome := by
    decide
  obtain ⟨c, hc⟩ := Option.isSome_iff_exists.1 hsome
  refine ⟨c, hc, fired_append_waiting wholeReplies ⟨[], []⟩ (fun w hw => ?_) hc⟩
  simp only [es, List.mem_cons, Event.send.injEq, reduceCtorEq, List.not_mem_nil, or_false,
    false_or] at hw
  rcases hw with rfl | rfl <;> exact ⟨by decide, rfl⟩

end KjRedis.Conn
