import KjRedis.Conn.Completion
import KjRedis.Conn.InFlight

/-! How often a pipeline is written. Each time after the first is paid for by a failure of
the transport, as long as no reply makes the connection fail. -/
namespace KjRedis.Conn

open KjRedis.Reply KjRedisConn

/-- A connection, the numbers of the pipelines passed to `Send`, how often each pipeline's
commands have been written, and the failures of the transport while it was queued. -/
structure Audit (τ : Type*) where
  conn : KjRedisConn τ
  sns : List Int
  writes : Int → Nat
  failures : Int → Nat

variable {ι τ : Type*} {P : ReplyParser ι τ} {c c' : KjRedisConn τ}

/-- A stream only grows until it is dropped, and a connect starts with an empty one. -/
def newlyWritten (c c' : KjRedisConn τ) : List CmdWork :=
  (c'.stream.getD []).drop (c.stream.getD []).length

/-- A read, a write or a connect has failed; an exception of `OnClientReceive` is none of
these. -/
def failed (c c' : KjRedisConn τ) : Event ι → Bool
  | .receive _ => false
  | _ => c.pendingResets < c'.pendingResets

def audited (P : ReplyParser ι τ) : Transition.System (Audit τ) (Event ι) where
  next s e := ((clientConn P).next s.conn e).map fun conn =>
    { conn
      sns := s.sns ++ e.sent.toList.map (·.sn)
      writes := fun sn => s.writes sn + (newlyWritten s.conn conn).countP (·.sn = sn)
      failures := fun sn =>
        s.failures sn + if failed s.conn conn e && s.conn.dqCommon.any (·.sn = sn) then 1 else 0 }

def auditedFrom (c : KjRedisConn τ) : Audit τ :=
  { conn := c, sns := [], writes := fun _ => 0, failures := fun _ => 0 }

/-- A client counts its pipelines up from 1. -/
def Caller (s : Audit τ) : Event ι → Prop
  | .send work => 0 < work.sn ∧ work.sn ∉ s.sns
  | _ => True

/-- A reply that is the last one of the front pipeline goes to its callback, and the
pipeline leaves the deque. -/
def Delivers (c : KjRedisConn τ) (reply : CRedisReply) : Prop :=
  ∀ cp dq, c.dqCommon = cp :: dq → cp.builtNum ≤ cp.processedNum + 1 →
    (replyLoop some [reply] c).1.calls = c.calls ++ cp.replied reply ++ cp.disposed ∧
      (replyLoop some [reply] c).1.dqCommon = dq

/-- Every error reply the loop comes to is delivered. -/
def ErrorsDelivered (P : ReplyParser ι τ) (s : Audit τ) : Event ι → Prop
  | .receive chunk => ∀ parser replies, P.parse s.conn.parser chunk = some (parser, replies, false) →
      ∀ before reply after c, s.conn.availableReplies ++ replies = before ++ reply :: after →
        replyLoop some before (s.conn.parsed parser replies) = (c, false) → reply.isError →
          Delivers c reply
  | _ => True

/-- No reply is an error, and each finds a written pipeline whose callback does not throw
on it. -/
def Accepted : List CRedisReply → KjRedisConn τ → Prop
  | [], _ => True
  | reply :: replies, c =>
    reply.ok ∧ c.HasCommitted ∧
      (∀ cp dq, c.dqCommon = cp :: dq → cp.builtNum ≤ cp.processedNum + 1 → ¬ cp.throwsOn reply) ∧
      Accepted replies (KjRedisConn.onReply { c with availableReplies := replies } reply).1

/-- Replies are accepted; and what has been sent after a failure is not written before
the reset that follows it. -/
def Orderly (P : ReplyParser ι τ) (s : Audit τ) : Event ι → Prop
  | .receive chunk => ∀ parser replies, P.parse s.conn.parser chunk = some (parser, replies, false) →
      Accepted (s.conn.availableReplies ++ replies) (s.conn.parsed parser replies)
  | .commit _ | .tick _ => s.conn.stream.isSome → ∀ cp ∈ s.conn.dqCommon, 0 < cp.sn →
      cp.state = .sending → s.conn.pendingResets ≤ s.failures cp.sn
  | .connectOk _ => ∀ cp ∈ s.conn.dqCommon, 0 < cp.sn → s.conn.pendingResets ≤ s.failures cp.sn
  | _ => True

theorem replyLoop_error {reply : CRedisReply} (h : reply.isError) (replies : List CRedisReply)
    (c : KjRedisConn τ) : replyLoop some (reply :: replies) c =
      ({ c with availableReplies := replies }, true) := by
  rw [replyLoop]
  exact if_pos h

/-- Whatever the state of the connection, a pipeline that waits for an error reply does not
get it. -/
theorem not_delivers_error {reply : CRedisReply} (h : reply.isError) {cp : CmdPipeline}
    {dq : List CmdPipeline} (hdq : c.dqCommon = cp :: dq) (hlast : cp.builtNum ≤ cp.processedNum + 1) :
    ¬ Delivers c reply := by
  intro hdelivers
  have hleft := (hdelivers cp dq hdq hlast).2
  rw [replyLoop_error h] at hleft
  exact List.cons_ne_self _ _ (hdq.symm.trans hleft)

theorem Accepted.ok {replies : List CRedisReply} (h : Accepted replies c) :
    ∀ reply ∈ replies, reply.ok := by
  induction replies generalizing c with
  | nil => exact fun _ hmem => absurd hmem List.not_mem_nil
  | cons reply replies ih => exact List.forall_mem_cons.2 ⟨h.1, ih h.2.2.2⟩

theorem Orderly.errorsDelivered {s : Audit τ} {e : Event ι} (h : Orderly P s e) :
    ErrorsDelivered P s e := by
  cases e with
  | receive chunk =>
    intro parser replies hparse before reply after c heq _ herror
    have hok := (h parser replies hparse).ok reply (heq ▸ by simp)
    exact absurd herror (CRedisReply.ok_iff.1 hok)
  | _ => trivial

/-- `w` writings and `f` failures, while `p` resets are still to come. A pipeline that is
on the stream has one writing more to its credit. -/
def Paid (onStream : Prop) (w f p : Nat) : Prop :=
  (onStream → p ≤ f ∧ w + p ≤ f + 1) ∧ (¬ onStream → w = 0 ∨ w + p ≤ f)

variable {onStream onStream' : Prop} {w f f' p : Nat}

theorem Paid.bound (h : Paid onStream w f p) : w ≤ f + 1 := by
  by_cases hon : onStream
  · have := (h.1 hon).2
    omega
  · have := h.2 hon
    omega

theorem Paid.mono (h : Paid onStream w f p) (hle : f ≤ f') : Paid onStream w f' p := by
  constructor
  · intro hon
    have := h.1 hon
    omega
  · intro hoff
    have := h.2 hoff
    omega

theorem Paid.fail (h : Paid onStream w f p) (hle : f + 1 ≤ f') : Paid onStream w f' (p + 1) := by
  constructor
  · intro hon
    have := h.1 hon
    omega
  · intro hoff
    have := h.2 hoff
    omega

theorem Paid.reset (h : Paid onStream w f (p + 1)) (hoff : ¬ onStream') : Paid onStream' w f p := by
  refine ⟨fun hon => absurd hon hoff, fun _ => ?_⟩
  by_cases hon : onStream
  · have := (h.1 hon).2
    omega
  · have := h.2 hon
    omega

theorem Paid.write (h : Paid onStream w f p) (hoff : ¬ onStream) (hon : onStream') (hle : p ≤ f) :
    Paid onStream' (w + 1) f p := by
  refine ⟨fun _ => ?_, fun hoff' => absurd hon hoff'⟩
  have := h.2 hoff
  omega

theorem Paid.congr (h : Paid onStream w f p) (hiff : onStream' ↔ onStream) : Paid onStream' w f p :=
  ⟨fun hon => h.1 (hiff.1 hon), fun hoff => h.2 fun hon => hoff (hiff.2 hon)⟩

theorem Paid.off (h : Paid onStream w f p) (hoff : ¬ onStream) (hoff' : ¬ onStream') :
    Paid onStream' w f p := ⟨fun hon => absurd hon hoff', fun _ => h.2 hoff⟩

theorem paid_zero (hoff : ¬ onStream) : Paid onStream 0 f p := ⟨fun hon => absurd hon hoff, fun _ => .inl rfl⟩

/-- Its commands stand on the stream there is. -/
def OnStream (c : KjRedisConn τ) (cp : CmdPipeline) : Prop :=
  c.stream.isSome ∧ PipelineState.committing.toNat ≤ cp.state.toNat

/-- No two pipelines of a caller have one number. -/
def Distinct (dq : List CmdPipeline) : Prop := dq.Pairwise fun a b => 0 < a.sn → a.sn ≠ b.sn

/-- The invariant. A pipeline that has left the deque keeps its bound, as its number does
not come again. -/
structure Solvent (sns : List Int) (w f : Int → Nat) (c : KjRedisConn τ) : Prop where
  init : ∀ cp ∈ c.dqInit, cp.sn = 0
  idle : c.connecting ∨ c.bDelayReconnecting → c.stream = none
  once : ¬ (c.connecting ∧ c.bDelayReconnecting)
  distinct : Distinct c.dqCommon
  known : ∀ cp ∈ c.dqCommon, 0 < cp.sn → cp.sn ∈ sns
  unsent : ∀ sn, 0 < sn → sn ∉ sns → w sn = 0
  paid : ∀ cp ∈ c.dqCommon, 0 < cp.sn → Paid (OnStream c cp) (w cp.sn) (f cp.sn) c.pendingResets
  bound : ∀ sn, 0 < sn → w sn ≤ f sn + 1

variable {sns : List Int} {w f f' : Int → Nat}

theorem solvent_opened (P : ReplyParser ι τ) {dqInit : List CmdPipeline}
    (hinit : ∀ cp ∈ dqInit, cp.sn = 0) :
    Solvent [] (fun _ => 0) (fun _ => 0) (opened P dqInit) where
  init := hinit
  idle _ := rfl
  once h := by cases h.2
  distinct := .nil
  known _ hcp := absurd hcp List.not_mem_nil
  unsent _ _ _ := rfl
  paid _ hcp := absurd hcp List.not_mem_nil
  bound _ _ := Nat.zero_le _

theorem Solvent.mono (h : Solvent sns w f c) (hle : ∀ sn, 0 < sn → f sn ≤ f' sn) :
    Solvent sns w f' c :=
  { h with
    paid := fun cp hcp hsn => (h.paid cp hcp hsn).mono (hle cp.sn hsn)
    bound := fun sn hsn => (h.bound sn hsn).trans (Nat.succ_le_succ (hle sn hsn)) }

/-- A failure is charged to whatever is queued, and a reset is to come. -/
theorem Solvent.fail (h : Solvent sns w f c) (hle : ∀ sn, 0 < sn → f sn ≤ f' sn)
    (hqueued : ∀ cp ∈ c.dqCommon, 0 < cp.sn → f cp.sn + 1 ≤ f' cp.sn) :
    Solvent sns w f' c.taskFailed :=
  { h with
    paid := fun cp hcp hsn => (h.paid cp hcp hsn).fail (hqueued cp hcp hsn)
    bound := (h.mono hle).bound }

/-- What the accounts do not see. -/
theorem Solvent.copy (h : Solvent sns w f c) (hinit : c'.dqInit = c.dqInit)
    (hdq : c'.dqCommon = c.dqCommon) (hstream : c'.stream = c.stream)
    (hresets : c'.pendingResets = c.pendingResets)
    (hidle : c'.connecting ∨ c'.bDelayReconnecting → c.connecting ∨ c.bDelayReconnecting)
    (honce : ¬ (c'.connecting ∧ c'.bDelayReconnecting)) : Solvent sns w f c' where
  init := hinit ▸ h.init
  idle hwaits := hstream ▸ h.idle (hidle hwaits)
  once := honce
  distinct := hdq ▸ h.distinct
  known := hdq ▸ h.known
  unsent := h.unsent
  paid := by
    intro cp hcp hsn
    rw [hdq] at hcp
    have hpaid := h.paid cp hcp hsn
    rw [OnStream] at hpaid ⊢
    rwa [hstream, hresets]
  bound := h.bound

theorem Solvent.send (h : Solvent sns w f c) {work : CmdWork} (hsn : 0 < work.sn)
    (hnew : work.sn ∉ sns) : Solvent (sns ++ [work.sn]) w f (c.send work) where
  init := h.init
  idle := h.idle
  once := h.once
  distinct := by
    apply List.pairwise_append.2
    refine ⟨h.distinct, List.pairwise_singleton _ _, fun cp hcp cp' hcp' hpos heq => ?_⟩
    obtain rfl := List.mem_singleton.1 hcp'
    exact hnew (heq ▸ h.known cp hcp hpos)
  known cp hcp hpos := by
    rcases List.mem_append.1 hcp with hcp | hcp
    · exact List.mem_append_left _ (h.known cp hcp hpos)
    · obtain rfl := List.mem_singleton.1 hcp
      exact List.mem_append_right _ List.mem_cons_self
  unsent sn hpos hsn := h.unsent sn hpos fun hmem => hsn (List.mem_append_left _ hmem)
  paid cp hcp hpos := by
    rcases List.mem_append.1 hcp with hcp | hcp
    · exact h.paid cp hcp hpos
    · obtain rfl := List.mem_singleton.1 hcp
      have hzero : w work.sn = 0 := h.unsent work.sn hsn hnew
      have hoff : ¬ OnStream (c.send work) ((createCmdPipeline work).setState .sending) :=
        fun hon => absurd hon.2 (show ¬ PipelineState.committing.toNat ≤ PipelineState.sending.toNat by decide)
      show Paid _ (w work.sn) _ _
      rw [hzero]
      exact paid_zero hoff
  bound := h.bound

theorem Solvent.reset (h : Solvent sns w f c) (hresets : c.pendingResets ≠ 0) :
    Solvent sns w f (c.reset P) where
  init := h.init
  idle _ := rfl
  once hboth := absurd hboth.1 (by simp [KjRedisConn.reset])
  distinct := List.pairwise_map.2 h.distinct
  known cp hcp hpos := by
    obtain ⟨cp', hcp', rfl⟩ := List.mem_map.1 hcp
    exact h.known cp' hcp' hpos
  unsent := h.unsent
  paid cp hcp hpos := by
    obtain ⟨cp', hcp', rfl⟩ := List.mem_map.1 hcp
    obtain ⟨p, hp⟩ := Nat.exists_eq_succ_of_ne_zero hresets
    have hpaid := h.paid cp' hcp' hpos
    rw [hp] at hpaid
    have hleft : (c.reset P).pendingResets = p := by
      rw [KjRedisConn.reset, hp]
      rfl
    rw [hleft]
    exact hpaid.reset fun hon => absurd hon.1 (by simp [KjRedisConn.reset])
  bound := h.bound

theorem distinct_cons {cp : CmdPipeline} {dq : List CmdPipeline} :
    Distinct (cp :: dq) ↔ (∀ b ∈ dq, 0 < cp.sn → cp.sn ≠ b.sn) ∧ Distinct dq := List.pairwise_cons

theorem writeSending_unqueued {ok : Nat} {dq : List CmdPipeline} {sn : Int}
    (h : ∀ cp ∈ dq, cp.sn ≠ sn) : (writeSending ok dq).2.1.countP (·.sn = sn) = 0 := by
  apply List.countP_eq_zero.2
  intro work hwork
  obtain ⟨cp, hcp, rfl⟩ := List.mem_map.1 (writeSending_mem hwork)
  simpa using h cp hcp

/-- A pass of `CommitLoop` writes a pipeline once if it is waiting to be sent, and else not
at all. -/
theorem writeSending_accounts {ok : Nat} {dq : List CmdPipeline} (hdistinct : Distinct dq)
    {cp : CmdPipeline} (hcp : cp ∈ (writeSending ok dq).1) (hsn : 0 < cp.sn) :
    (cp ∈ dq ∧ (writeSending ok dq).2.1.countP (·.sn = cp.sn) = 0) ∨
      ∃ cp' ∈ dq, cp'.state = .sending ∧ cp = cp'.setState .committing ∧
        (writeSending ok dq).2.1.countP (·.sn = cp.sn) = 1 := by
  induction dq generalizing ok with
  | nil => cases hcp
  | cons first dq ih =>
    obtain ⟨hfirst, hrest⟩ := distinct_cons.1 hdistinct
    have hother : ∀ b ∈ dq, 0 < b.sn → first.sn ≠ b.sn := fun b hb hpos heq =>
      hfirst b hb (heq ▸ hpos) heq
    have hnone : ∀ ok, 0 < first.sn → (writeSending ok dq).2.1.countP (·.sn = first.sn) = 0 :=
      fun ok hpos => writeSending_unqueued fun b hb => (hfirst b hb hpos).symm
    have hcons : ∀ {sn : Int} (works : List CmdWork), first.sn ≠ sn →
        (first.toCmdWork :: works).countP (·.sn = sn) = works.countP (·.sn = sn) :=
      fun works hne => List.countP_cons_of_neg (by simpa using hne)
    by_cases hs : first.state = .sending
    · cases ok with
      | zero =>
        rw [writeSending_throw dq hs] at hcp ⊢
        exact .inl ⟨hcp, rfl⟩
      | succ ok =>
        rw [writeSending_write dq hs] at hcp ⊢
        rcases List.mem_cons.1 hcp with rfl | hcp
        · refine .inr ⟨first, List.mem_cons_self, hs, rfl, ?_⟩
          rw [List.countP_cons_of_pos (by simp)]
          exact congrArg (· + 1) (hnone ok hsn)
        · rcases ih hrest hcp with ⟨hmem, hcount⟩ | ⟨cp', hmem, hs', rfl, hcount⟩
          · refine .inl ⟨List.mem_cons_of_mem first hmem, ?_⟩
            exact (hcons _ (hother cp hmem hsn)).trans hcount
          · refine .inr ⟨cp', List.mem_cons_of_mem first hmem, hs', rfl, ?_⟩
            exact (hcons _ (hother cp' hmem hsn)).trans hcount
    · rw [writeSending_skip dq hs] at hcp ⊢
      rcases List.mem_cons.1 hcp with rfl | hcp
      · exact .inl ⟨List.mem_cons_self, hnone ok hsn⟩
      · rcases ih hrest hcp with ⟨hmem, hcount⟩ | ⟨cp', hmem, hs', rfl, hcount⟩
        · exact .inl ⟨List.mem_cons_of_mem first hmem, hcount⟩
        · exact .inr ⟨cp', List.mem_cons_of_mem first hmem, hs', rfl, hcount⟩

theorem newlyWritten_same (h : c'.stream = c.stream) : newlyWritten c c' = [] := by
  rw [newlyWritten, h, List.drop_length]

theorem newlyWritten_dropped (h : c'.stream = none) : newlyWritten c c' = [] := by
  rw [newlyWritten, h]
  exact List.drop_nil

theorem newlyWritten_some {works written : List CmdWork} (h : c.stream = some works)
    (h' : c'.stream = some (works ++ written)) : newlyWritten c c' = written := by
  rw [newlyWritten, h, h']
  exact List.drop_left

/-- The writings after a step. -/
def written (w : Int → Nat) (c c' : KjRedisConn τ) (sn : Int) : Nat :=
  w sn + (newlyWritten c c').countP (·.sn = sn)

theorem written_nothing {w : Int → Nat} (h : newlyWritten c c' = []) : written w c c' = w := by
  funext sn
  rw [written, h, List.countP_nil, Nat.add_zero]

theorem not_onStream_none (h : c.stream = none) (cp : CmdPipeline) : ¬ OnStream c cp := by
  rintro ⟨hsome, -⟩
  rw [h] at hsome
  cases hsome

theorem not_onStream_sending {cp : CmdPipeline} (h : cp.state = .sending) : ¬ OnStream c cp := by
  rintro ⟨-, hstate⟩
  rw [h] at hstate
  exact absurd hstate (by decide)

theorem Distinct.same {dq dq' : List CmdPipeline} (h : Distinct dq)
    (hworks : dq'.map (·.toCmdWork) = dq.map (·.toCmdWork)) : Distinct dq' := by
  have hsns : (dq.map (·.toCmdWork)).Pairwise fun a b => 0 < a.sn → a.sn ≠ b.sn :=
    List.pairwise_map.2 h
  exact List.pairwise_map.1 (hworks ▸ hsns)

theorem exists_of_works {dq dq' : List CmdPipeline}
    (hworks : dq'.map (·.toCmdWork) = dq.map (·.toCmdWork)) {cp : CmdPipeline} (hcp : cp ∈ dq') :
    ∃ cp' ∈ dq, cp'.toCmdWork = cp.toCmdWork :=
  List.mem_map.1 (hworks ▸ List.mem_map_of_mem hcp)

/-- What a pass of `CommitLoop` writes is entered. -/
theorem Solvent.enter (h : Solvent sns w f c) (hqueue : SameQueue c c') (htasks : SameTasks c c')
    (hstream : c.stream = none → c'.stream = none)
    (hpaid : ∀ cp ∈ c'.dqCommon, 0 < cp.sn →
      Paid (OnStream c' cp) (written w c c' cp.sn) (f cp.sn) c'.pendingResets)
    (hunqueued : ∀ sn, (∀ cp ∈ c.dqCommon, cp.sn ≠ sn) →
      (newlyWritten c c').countP (·.sn = sn) = 0) :
    Solvent sns (written w c c') f c' where
  init := hqueue.dqInit ▸ h.init
  idle := by
    rw [htasks.connecting, htasks.bDelayReconnecting]
    exact fun hwaits => hstream (h.idle hwaits)
  once := by
    rw [htasks.connecting, htasks.bDelayReconnecting]
    exact h.once
  distinct := h.distinct.same hqueue.queued
  known cp hcp hsn := by
    obtain ⟨cp', hcp', hwork⟩ := exists_of_works hqueue.queued hcp
    have hsame : cp'.sn = cp.sn := congrArg CmdWork.sn hwork
    exact hsame ▸ h.known cp' hcp' (hsame ▸ hsn)
  unsent sn hpos hsn := by
    have hnot : ∀ cp ∈ c.dqCommon, cp.sn ≠ sn := by
      rintro cp hcp rfl
      exact hsn (h.known cp hcp hpos)
    rw [written, h.unsent sn hpos hsn, hunqueued sn hnot]
  paid := hpaid
  bound sn hpos := by
    by_cases hqueued : ∃ cp ∈ c'.dqCommon, cp.sn = sn
    · obtain ⟨cp, hcp, rfl⟩ := hqueued
      exact (hpaid cp hcp hpos).bound
    · have hnot : ∀ cp ∈ c.dqCommon, cp.sn ≠ sn := by
        intro cp hcp hsn
        obtain ⟨cp', hcp', hwork⟩ := exists_of_works hqueue.queued.symm hcp
        exact hqueued ⟨cp', hcp', (congrArg CmdWork.sn hwork).trans hsn⟩
      rw [written, hunqueued sn hnot]
      exact h.bound sn hpos

theorem Solvent.commitLoop (h : Solvent sns w f c) (ok : Option Nat)
    (htimely : c.stream.isSome → ∀ cp ∈ c.dqCommon, 0 < cp.sn → cp.state = .sending →
      c.pendingResets ≤ f cp.sn) :
    Solvent sns (written w c (c.commitLoop ok).1) f (c.commitLoop ok).1 := by
  have hqueue := sameQueue_commitLoop c ok
  have htasks := (sameTasks_commitLoop c ok).1
  unfold KjRedisConn.commitLoop at hqueue htasks ⊢
  by_cases hconnected : c.bConnected
  · rw [if_pos hconnected] at hqueue htasks ⊢
    cases hstream : c.stream with
    | none =>
      have hnew : ∀ {c' : KjRedisConn τ}, c'.stream = none → newlyWritten c c' = [] :=
        newlyWritten_dropped
      rw [hstream] at hqueue htasks
      apply h.enter hqueue htasks fun _ => rfl
      · intro cp hcp hsn
        rw [written_nothing (hnew rfl)]
        rcases writeSending_accounts h.distinct hcp hsn with ⟨hmem, -⟩ | ⟨cp', hmem, -, rfl, -⟩
        · exact (h.paid cp hmem hsn).off (not_onStream_none hstream cp) (not_onStream_none rfl cp)
        · exact (h.paid cp' hmem hsn).off (not_onStream_none hstream cp') (not_onStream_none rfl _)
      · intro sn _
        rw [hnew rfl]
        rfl
    | some works =>
      rw [hstream] at hqueue htasks
      have hopen : c.stream.isSome := by rw [hstream]; rfl
      apply h.enter hqueue htasks fun hnone => by rw [hnone] at hstream; cases hstream
      · intro cp hcp hsn
        rw [written, newlyWritten_some hstream rfl]
        rcases writeSending_accounts h.distinct hcp hsn with ⟨hmem, hcount⟩ | ⟨cp', hmem, hs, rfl, hcount⟩
        · rw [hcount]
          have hpaid := h.paid cp hmem hsn
          rw [OnStream, hstream] at hpaid
          exact hpaid
        · rw [hcount]
          exact (h.paid cp' hmem hsn).write (not_onStream_sending hs) ⟨rfl, Nat.le_refl _⟩
            (htimely hopen cp' hmem hsn hs)
      · intro sn hnone
        rw [newlyWritten_some hstream rfl]
        exact writeSending_unqueued hnone
  · rw [if_neg hconnected]
    have hnew : newlyWritten c { c with commitTicks := c.commitTicks + 1 } = [] := newlyWritten_same rfl
    show Solvent sns (written w c { c with commitTicks := c.commitTicks + 1 }) f _
    rw [written_nothing hnew]
    exact h.copy rfl rfl rfl rfl id h.once

theorem commitLoop_resets (c : KjRedisConn τ) (ok : Option Nat) :
    (c.commitLoop ok).1.pendingResets = c.pendingResets := by
  rw [KjRedisConn.commitLoop]
  split <;> rfl

/-- The failures after a step of this connection. -/
def charged (f : Int → Nat) (c : KjRedisConn τ) (threw : Bool) (sn : Int) : Nat :=
  f sn + if threw && c.dqCommon.any (·.sn = sn) then 1 else 0

theorem le_charged (f : Int → Nat) (c : KjRedisConn τ) (threw : Bool) (sn : Int) (_ : 0 < sn) :
    f sn ≤ charged f c threw sn := Nat.le_add_right _ _

theorem charged_queued {cp : CmdPipeline} (f : Int → Nat) (hcp : cp ∈ c.dqCommon) :
    charged f c true cp.sn = f cp.sn + 1 := by
  have hany : c.dqCommon.any (·.sn = cp.sn) := List.any_eq_true.2 ⟨cp, hcp, by simp⟩
  rw [charged, hany]
  rfl

/-- A task that has taken the connection to `c'` fails or goes on. -/
theorem Solvent.settle (h : Solvent sns w f c') (threw : Bool)
    (hqueued : ∀ cp ∈ c'.dqCommon, 0 < cp.sn → ∃ cp' ∈ c.dqCommon, cp'.sn = cp.sn) :
    Solvent sns w (charged f c threw) (if threw then c'.taskFailed else c') := by
  cases threw with
  | true =>
    apply h.fail (le_charged f c true)
    intro cp hcp hsn
    obtain ⟨cp', hcp', heq⟩ := hqueued cp hcp hsn
    rw [← heq, charged_queued f hcp']
  | false => exact h.mono (le_charged f c false)

theorem Solvent.tick (h : Solvent sns w f c) (ok : Option Nat)
    (htimely : c.stream.isSome → ∀ cp ∈ c.dqCommon, 0 < cp.sn → cp.state = .sending →
      c.pendingResets ≤ f cp.sn) {threw : Bool} (hloop : c.commitLoop ok = (c', threw)) :
    Solvent sns (written w c c') (charged f c threw) (if threw then c'.taskFailed else c') := by
  have hcommitted := h.commitLoop ok htimely
  have hqueue := sameQueue_commitLoop c ok
  rw [hloop] at hcommitted hqueue
  apply hcommitted.settle
  intro cp hcp _
  obtain ⟨cp', hcp', hwork⟩ := exists_of_works hqueue.queued hcp
  exact ⟨cp', hcp', congrArg CmdWork.sn hwork⟩

theorem Solvent.commit (h : Solvent sns w f c) (ok : Option Nat)
    (htimely : c.stream.isSome → ∀ cp ∈ c.dqCommon, 0 < cp.sn → cp.state = .sending →
      c.pendingResets ≤ f cp.sn) :
    Solvent sns (written w c (c.commit ok))
      (charged f c (c.pendingResets < (c.commit ok).pendingResets)) (c.commit ok) := by
  unfold KjRedisConn.commit
  split
  · rw [written_nothing (newlyWritten_same rfl)]
    exact h.mono (le_charged f c _)
  · have hresets := commitLoop_resets c ok
    cases hloop : c.commitLoop ok with
    | mk c₁ threw =>
      have hsettled := h.tick ok htimely hloop
      rw [hloop] at hresets
      cases threw with
      | true =>
        have hmore : c.pendingResets < c₁.taskFailed.pendingResets := by
          rw [← hresets]
          exact Nat.lt_succ_self _
        simp only [if_true, decide_eq_true hmore]
        exact hsettled
      | false =>
        exact hsettled.mono (le_charged f c _)

/-- A caller's pipeline that is sent again was queued. -/
theorem queued_of_resending (hinit : ∀ cp ∈ c.dqInit, cp.sn = 0) {cp : CmdPipeline}
    (hcp : cp ∈ (KjRedisConn.resending c).dqCommon) (hsn : 0 < cp.sn) :
    cp.state = .sending ∧ ∃ cp' ∈ c.dqCommon, cp'.sn = cp.sn := by
  obtain ⟨hsending, cp', hwork, -, hcp' | ⟨hcp', -⟩⟩ := resending_cases hcp
  · have hsame : cp'.sn = cp.sn := congrArg CmdWork.sn hwork
    rw [← hsame, hinit cp' hcp'] at hsn
    exact absurd hsn (Int.lt_irrefl 0)
  · exact ⟨hsending, cp', hcp', congrArg CmdWork.sn hwork⟩

/-- Before a connect nothing is on a stream, and after it nothing is yet. -/
theorem Solvent.resending (h : Solvent sns w f c) (hconnecting : c.connecting) :
    Solvent sns w f (KjRedisConn.resending c) where
  init := h.init
  idle hwaits := by
    rcases hwaits with hwaits | hwaits
    · cases hwaits
    · exact absurd ⟨hconnecting, hwaits⟩ h.once
  once hboth := absurd hboth.1 (by simp [KjRedisConn.resending])
  distinct := by
    have hzero : ∀ cp ∈ c.dqInit, ¬ 0 < cp.sn := fun cp hcp hsn => by
      rw [h.init cp hcp] at hsn
      exact Int.lt_irrefl 0 hsn
    apply List.pairwise_map.2
    apply List.pairwise_append.2
    refine ⟨?_, h.distinct.sublist List.filter_sublist, fun cp hcp _ _ hsn => absurd hsn (hzero cp hcp)⟩
    exact List.pairwise_of_forall_mem_list fun cp hcp _ _ hsn => absurd hsn (hzero cp hcp)
  known cp hcp hsn := by
    obtain ⟨-, cp', hcp', hsame⟩ := queued_of_resending h.init hcp hsn
    exact hsame ▸ h.known cp' hcp' (hsame ▸ hsn)
  unsent := h.unsent
  paid cp hcp hsn := by
    obtain ⟨hsending, cp', hcp', hsame⟩ := queued_of_resending h.init hcp hsn
    have hpaid := h.paid cp' hcp' (hsame ▸ hsn)
    rw [hsame] at hpaid
    exact hpaid.off (not_onStream_none (h.idle (.inl hconnecting)) cp') (not_onStream_sending hsending)
  bound := h.bound

theorem Solvent.connected (h : Solvent sns w f c) (hconnecting : c.connecting) (ok : Option Nat)
    (htimely : ∀ cp ∈ c.dqCommon, 0 < cp.sn → c.pendingResets ≤ f cp.sn) :
    Solvent sns (written w c (c.connected ok))
      (charged f c (c.pendingResets < (c.connected ok).pendingResets)) (c.connected ok) := by
  have hcommit := (h.resending hconnecting).commit ok fun _ cp hcp hsn _ => by
    obtain ⟨-, cp', hcp', hsame⟩ := queued_of_resending h.init hcp hsn
    exact hsame ▸ htimely cp' hcp' (hsame ▸ hsn)
  have hnew : newlyWritten (KjRedisConn.resending c) (c.connected ok) =
      newlyWritten c (c.connected ok) := by
    rw [newlyWritten, newlyWritten, h.idle (.inl hconnecting)]
    rfl
  have hwritten : written w (KjRedisConn.resending c) (c.connected ok) =
      written w c (c.connected ok) := by
    funext sn
    rw [written, written, hnew]
  rw [← connected_eq, hwritten] at hcommit
  refine hcommit.mono fun sn hsn => Nat.add_le_add_left ?_ (f sn)
  have hresets : (KjRedisConn.resending c).pendingResets = c.pendingResets := rfl
  rw [hresets]
  by_cases hqueued : (KjRedisConn.resending c).dqCommon.any (·.sn = sn)
  · obtain ⟨cp, hcp, heq⟩ := List.any_eq_true.1 hqueued
    obtain rfl := of_decide_eq_true heq
    obtain ⟨-, cp', hcp', hsame⟩ := queued_of_resending h.init hcp hsn
    have hany : c.dqCommon.any (·.sn = cp.sn) := List.any_eq_true.2 ⟨cp', hcp', decide_eq_true hsame⟩
    rw [hqueued, hany]
  · rw [Bool.eq_false_of_not_eq_true hqueued, Bool.and_false]
    exact Nat.zero_le _

theorem Solvent.onReply (h : Solvent sns w f c) {reply : CRedisReply} (hcommitted : c.HasCommitted)
    (hfine : ∀ cp dq, c.dqCommon = cp :: dq → cp.builtNum ≤ cp.processedNum + 1 → ¬ cp.throwsOn reply) :
    Solvent sns w f (c.onReply reply).1 ∧ (c.onReply reply).2 = false := by
  have hspec := onReply_spec c reply
  generalize c.onReply reply = o at hspec ⊢
  cases hspec with
  | refused hrefused => exact absurd hrefused hcommitted.not_refused
  | counted cp dq hdq _ hstate _ =>
    refine ⟨?_, rfl⟩
    have hdistinct := h.distinct
    have hknown := h.known
    have hpaid := h.paid
    rw [hdq] at hdistinct hknown hpaid
    exact
      { h with
        distinct := hdistinct.same rfl
        known := List.forall_mem_cons.2 (List.forall_mem_cons.1 hknown)
        paid := by
          obtain ⟨hfirst, hrest⟩ := List.forall_mem_cons.1 hpaid
          refine List.forall_mem_cons.2 ⟨fun hsn => (hfirst hsn).congr ?_, hrest⟩
          have hprocessing : PipelineState.committing.toNat ≤ cp.counted.state.toNat :=
            show PipelineState.committing.toNat ≤ PipelineState.processing.toNat by decide
          exact ⟨fun hon => ⟨hon.1, hstate⟩, fun hon => ⟨hon.1, hprocessing⟩⟩ }
  | threw cp dq hdq _ _ hlast hcb => exact absurd hcb (hfine cp dq hdq hlast)
  | finished cp dq hdq =>
    refine ⟨?_, rfl⟩
    have hdistinct := h.distinct
    have hknown := h.known
    have hpaid := h.paid
    rw [hdq] at hdistinct hknown hpaid
    exact
      { h with
        distinct := (distinct_cons.1 hdistinct).2
        known := (List.forall_mem_cons.1 hknown).2
        paid := (List.forall_mem_cons.1 hpaid).2 }

/-- Replies that are accepted cost nothing. -/
theorem Solvent.replyLoop {replies : List CRedisReply} (h : Solvent sns w f c)
    (hreplies : Accepted replies c) :
    Solvent sns w f (KjRedisConn.replyLoop some replies c).1 ∧
      (KjRedisConn.replyLoop some replies c).2 = false := by
  induction replies generalizing c with
  | nil => exact ⟨h.copy rfl rfl rfl rfl id h.once, rfl⟩
  | cons reply replies ih =>
    obtain ⟨hok, hcommitted, hfine, hrest⟩ := hreplies
    have hpop : Solvent sns w f { c with availableReplies := replies } :=
      h.copy rfl rfl rfl rfl id h.once
    obtain ⟨hreply, hthrew⟩ := hpop.onReply hcommitted hfine
    rw [KjRedisConn.replyLoop, if_neg (CRedisReply.ok_iff.1 hok)]
    simp only
    generalize KjRedisConn.onReply { c with availableReplies := replies } reply = o at *
    obtain ⟨c₁, threw⟩ := o
    obtain rfl : threw = false := hthrew
    exact ih hreply hrest

/-- A step that writes nothing. -/
theorem Solvent.still (h : Solvent sns w f c') (hnew : newlyWritten c c' = []) (threw : Bool) :
    Solvent sns (written w c c') (charged f c threw) c' := by
  rw [written_nothing hnew]
  exact h.mono (le_charged f c threw)

/-- A step that fails and writes nothing. -/
theorem Solvent.stops (h : Solvent sns w f c') (hdq : c'.dqCommon = c.dqCommon)
    (hstream : c'.stream = c.stream) :
    Solvent sns (written w c c'.taskFailed) (charged f c true) c'.taskFailed := by
  have hnew : newlyWritten c c'.taskFailed = [] := newlyWritten_same hstream
  rw [written_nothing hnew]
  exact h.settle true fun cp hcp _ => ⟨cp, hdq ▸ hcp, rfl⟩

theorem Solvent.next {s s' : Audit τ} {e : Event ι} (h : Solvent s.sns s.writes s.failures s.conn)
    (hcaller : Caller s e) (horderly : Orderly P s e) (hnext : (audited P).next s e = some s') :
    Solvent s'.sns s'.writes s'.failures s'.conn := by
  obtain ⟨conn, hconn, rfl⟩ := Option.map_eq_some_iff.1 hnext
  have hspec := clientConn_spec hconn
  -- only `send` adds to the numbers
  have hsame : ∀ {conn}, e.sent = none →
      Solvent s.sns (written s.writes s.conn conn) (charged s.failures s.conn (failed s.conn conn e)) conn →
      Solvent (s.sns ++ e.sent.toList.map (·.sn)) (written s.writes s.conn conn)
        (charged s.failures s.conn (failed s.conn conn e)) conn := by
    intro conn hsent hsolvent
    rw [hsent, Option.toList_none, List.map_nil, List.append_nil]
    exact hsolvent
  cases hspec with
  | send work =>
    have hnew : newlyWritten s.conn (s.conn.send work) = [] := newlyWritten_same rfl
    exact (h.send hcaller.1 hcaller.2).still hnew _
  | commit ok => exact hsame rfl (h.commit ok horderly)
  | tick ok c₁ threw hticks hloop =>
    apply hsame rfl
    have hticked : Solvent s.sns s.writes s.failures { s.conn with commitTicks := s.conn.commitTicks - 1 } :=
      h.copy rfl rfl rfl rfl id h.once
    have hsettled := hticked.tick ok horderly hloop
    have hresets := commitLoop_resets { s.conn with commitTicks := s.conn.commitTicks - 1 } ok
    rw [hloop] at hresets
    cases threw with
    | true =>
      have hfailed : failed s.conn c₁.taskFailed (.tick ok : Event ι) = true :=
        decide_eq_true (Nat.lt_succ_of_le hresets.ge)
      rw [if_pos rfl, hfailed]
      exact hsettled
    | false => exact hsettled.mono (le_charged s.failures s.conn _)
  | unparsed chunk parser replies =>
    apply hsame rfl
    have hparsed : Solvent s.sns s.writes s.failures (s.conn.parsed parser replies) :=
      h.copy rfl rfl rfl rfl id h.once
    exact hparsed.still (newlyWritten_same rfl) _
  | read chunk parser replies c₁ _ hparse hloop =>
    apply hsame rfl
    have hparsed : Solvent s.sns s.writes s.failures (s.conn.parsed parser replies) :=
      h.copy rfl rfl rfl rfl id h.once
    have hread := (hparsed.replyLoop (horderly parser replies hparse)).1
    rw [hloop] at hread
    exact hread.still (newlyWritten_same (stream_receive (next_spec hconn))) _
  | refused chunk parser replies c₁ _ hparse hloop =>
    have hparsed : Solvent s.sns s.writes s.failures (s.conn.parsed parser replies) :=
      h.copy rfl rfl rfl rfl id h.once
    have hread := (hparsed.replyLoop (horderly parser replies hparse)).2
    rw [hloop] at hread
    cases hread
  | readFail =>
    apply hsame rfl
    have hended : Solvent s.sns s.writes s.failures { s.conn with reading := false } :=
      h.copy rfl rfl rfl rfl id h.once
    have hfailed : failed s.conn s.conn.readFailed (.readFail : Event ι) = true :=
      decide_eq_true (Nat.lt_succ_self _)
    rw [hfailed]
    exact hended.stops rfl rfl
  | reset hresets => exact hsame rfl ((h.reset hresets).still (newlyWritten_dropped rfl) _)
  | timer hdelay =>
    apply hsame rfl
    have hwaited : Solvent s.sns s.writes s.failures
        { s.conn with bDelayReconnecting := false, connecting := true } :=
      h.copy rfl rfl rfl rfl (fun _ => .inr hdelay) fun hboth => by cases hboth.2
    exact hwaited.still (newlyWritten_same rfl) _
  | connectOk ok hconnecting => exact hsame rfl (h.connected hconnecting ok horderly)
  | connectFail hconnecting =>
    apply hsame rfl
    have hended : Solvent s.sns s.writes s.failures { s.conn with connecting := false } :=
      h.copy rfl rfl rfl rfl (fun hwaits => .inr (hwaits.resolve_left (by simp)))
        fun hboth => by cases hboth.1
    have hfailed : failed s.conn { s.conn with connecting := false }.taskFailed
        (.connectFail : Event ι) = true := decide_eq_true (Nat.lt_succ_self _)
    rw [hfailed]
    exact hended.stops rfl rfl

/-- Every run in which no reply makes the connection fail delivers its error replies, of
which there are none, and writes a pipeline at most once more than the transport has failed
while it was queued. -/
theorem writes_le_failures (P : ReplyParser ι τ) (param : RedisStubParam) {es : List (Event ι)}
    {s : Audit τ} (hcaller : (audited P).Meets Caller (auditedFrom (opened P (clientInit param))) es)
    (horderly : (audited P).Meets (Orderly P) (auditedFrom (opened P (clientInit param))) es)
    (hrun : (audited P).run (auditedFrom (opened P (clientInit param))) es = some s) :
    (audited P).Meets (ErrorsDelivered P) (auditedFrom (opened P (clientInit param))) es ∧
      ∀ sn, 0 < sn → s.writes sn ≤ 1 + s.failures sn := by
  refine ⟨horderly.mono fun _ _ h => h.errorsDelivered, fun sn hsn => ?_⟩
  have hopened : Solvent [] (fun _ => 0) (fun _ => 0) (opened P (clientInit param)) :=
    solvent_opened P fun cp hcp => (isInit_client param cp hcp).sn
  have hstep : ∀ (s : Audit τ) e s', Solvent s.sns s.writes s.failures s.conn →
      Caller s e ∧ Orderly P s e → (audited P).next s e = some s' →
        Solvent s'.sns s'.writes s'.failures s'.conn :=
    fun s e s' h hmeets hnext => h.next hmeets.1 hmeets.2 hnext
  have hsolvent := Transition.System.run_invariant hstep hopened (hcaller.and horderly) hrun
  rw [Nat.add_comm]
  exact hsolvent.bound sn hsn

def onePipeline : CmdWork :=
  { sn := 1, commands := [[ascii "PING"]], builtNum := 1, replyCb := some .user, disposes := false }

def digest : CRedisReply := .ofString (sTestcmsgpack.map some) .bulkString

/-- A client that has just been opened, with no password and no scripts of its own. -/
def auditedStart : Audit Unit := auditedFrom (opened wholeReplies (clientInit ⟨[], []⟩))

theorem caller_onePipeline {es : List (Event (List CRedisReply))} (hes : ∀ work, .send work ∉ es) :
    (audited wholeReplies).Meets Caller auditedStart (.connectOk none :: .send onePipeline :: es) := by
  apply Transition.System.meets_cons rfl trivial
  apply Transition.System.meets_cons rfl ⟨Int.one_pos, List.not_mem_nil⟩
  apply Transition.System.meets_of_forall
  intro s e he
  cases e with
  | send work => exact absurd he (hes work)
  | _ => trivial

/-- A pipeline is written, the connection lost and made again, and the pipeline answered. -/
def lostOnce : List (Event (List CRedisReply)) :=
  [.connectOk none, .send onePipeline, .commit none, .receive [digest], .readFail, .reset, .timer,
    .connectOk none, .receive [digest, .ofInt 7]]

theorem orderly_lostOnce : (audited wholeReplies).Meets (Orderly wholeReplies) auditedStart lostOnce := by
  apply Transition.System.meets_cons rfl fun cp hcp => absurd hcp List.not_mem_nil
  apply Transition.System.meets_cons rfl trivial
  apply Transition.System.meets_cons rfl fun _ _ _ _ _ => Nat.zero_le _
  refine Transition.System.meets_cons rfl (fun parser replies hparse => ?_) ?_
  · cases hparse
    refine ⟨rfl, ⟨by decide, _, _, rfl, by decide⟩, fun cp dq hdq _ => ?_, trivial⟩
    cases hdq
    decide
  apply Transition.System.meets_cons rfl trivial
  apply Transition.System.meets_cons rfl trivial
  apply Transition.System.meets_cons rfl trivial
  apply Transition.System.meets_cons rfl fun _ _ _ => Nat.zero_le _
  refine Transition.System.meets_cons rfl (fun parser replies hparse => ?_) trivial
  cases hparse
  refine ⟨rfl, ⟨by decide, _, _, rfl, by decide⟩, fun cp dq hdq _ => ?_, rfl,
    ⟨by decide, _, _, rfl, by decide⟩, fun cp dq hdq _ => ?_, trivial⟩
  · cases hdq
    decide
  · cases hdq
    decide

theorem writes_le_failures_lost : ∃ s, (audited wholeReplies).run auditedStart lostOnce = some s ∧
    s.writes 1 ≤ 1 + s.failures 1 := by
  have hdefined : ((audited wholeReplies).run auditedStart lostOnce).isSome := by decide +kernel
  obtain ⟨s, hrun⟩ := Option.isSome_iff_exists.1 hdefined
  have hcaller := @caller_onePipeline (lostOnce.drop 2) (by simp [lostOnce])
  exact ⟨s, hrun,
    (writes_le_failures wholeReplies ⟨[], []⟩ hcaller orderly_lostOnce hrun).2 1 Int.one_pos⟩

/-- The reply to the pipeline's command is an error: the pipeline is sent again, though
nothing has failed. -/
theorem not_writes_le_failures : ¬ ∀ (es : List (Event (List CRedisReply))) (s : Audit Unit),
    (audited wholeReplies).Meets Caller auditedStart es →
      (audited wholeReplies).run auditedStart es = some s →
        (audited wholeReplies).Meets (ErrorsDelivered wholeReplies) auditedStart es ∧
          ∀ sn, 0 < sn → s.writes sn ≤ 1 + s.failures sn := by
  intro h
  have hcounts : ((audited wholeReplies).run auditedStart
      [.connectOk none, .send onePipeline, .commit none, .receive [digest],
        .receive [.ofString [] .error], .reset, .timer, .connectOk none]).map
          (fun s => (s.writes 1, s.failures 1)) = some (2, 0) := by decide +kernel
  obtain ⟨s, hrun, hcounts⟩ := Option.map_eq_some_iff.1 hcounts
  have hbound := (h _ s (caller_onePipeline (by simp)) hrun).2 1 Int.one_pos
  rw [(Prod.mk.inj hcounts).1, (Prod.mk.inj hcounts).2] at hbound
  exact absurd hbound (by decide)

end KjRedis.Conn
