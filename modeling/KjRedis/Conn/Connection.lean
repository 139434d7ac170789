import KjRedis.Conn.Pipeline
import KjRedis.Lib.Transition

/-! A connection: the deque of pipelines, its stream, and the tasks that read, write
and reconnect. `KjRedisClientConn` and `KjRedisSubscriberConn` differ in what they take
for a published message and in what they send first. -/
namespace KjRedis.Conn

open KjRedis.Reply

/-- `stream` holds the pipelines written to it, `reading` whether its read loop goes on.
`pendingResets` counts the functions `taskFailed` has scheduled, `commitTicks` the
delayed runs of `CommitLoop`; `calls` are the callbacks called so far. `committingNum` is an
`int` in the code, which counts as here while fewer than `2 ^ 31` pipelines have been written. -/
structure KjRedisConn (τ : Type*) where
  dqInit : List CmdPipeline
  dqCommon : List CmdPipeline
  committingNum : Int
  parser : τ
  availableReplies : List CRedisReply
  bConnected : Bool
  stream : Option (List CmdWork)
  reading : Bool
  bDelayReconnecting : Bool
  connecting : Bool
  pendingResets : Nat
  commitTicks : Nat
  calls : List Call

variable {ι τ : Type*}

/-- A connection whose `Open` has just been called. -/
def opened (P : ReplyParser ι τ) (dqInit : List CmdPipeline) : KjRedisConn τ :=
  { dqInit, dqCommon := [], committingNum := 0, parser := P.fresh, availableReplies := []
    bConnected := false, stream := none, reading := false, bDelayReconnecting := false
    connecting := true, pendingResets := 0, commitTicks := 0, calls := [] }

namespace KjRedisConn

/-- `Send`. -/
def send (c : KjRedisConn τ) (work : CmdWork) : KjRedisConn τ :=
  { c with dqCommon := c.dqCommon ++ [(createCmdPipeline work).setState .sending] }

/-- `taskFailed` only schedules: `reset` is the function that runs later. -/
def taskFailed (c : KjRedisConn τ) : KjRedisConn τ := { c with pendingResets := c.pendingResets + 1 }

/-- The loop of `CommitLoop` over a stream that takes `ok` more writes before one
throws: the deque, what was written, and whether it threw. -/
def writeSending : Nat → List CmdPipeline → List CmdPipeline × List CmdWork × Bool
  | _, [] => ([], [], false)
  | ok, cp :: dq =>
    if cp.state = .sending then
      match ok with
      | 0 => (cp :: dq, [], true)
      | ok + 1 =>
        let (dq, written, threw) := writeSending ok dq
        (cp.setState .committing :: dq, cp.toCmdWork :: written, threw)
    else
      let (dq, written, threw) := writeSending ok dq
      (cp :: dq, written, threw)

/-- `CommitLoop`. Without a stream a write does nothing; `ok = none` stands for one
that takes every write. -/
def commitLoop (c : KjRedisConn τ) (ok : Option Nat) : KjRedisConn τ × Bool :=
  if c.bConnected then
    let ok := if c.stream.isSome then ok.getD c.dqCommon.length else c.dqCommon.length
    let (dqCommon, written, threw) := writeSending ok c.dqCommon
    ({ c with
        dqCommon, committingNum := c.committingNum + written.length
        stream := c.stream.map (· ++ written) }, threw)
  else ({ c with commitTicks := c.commitTicks + 1 }, false)

def commit (c : KjRedisConn τ) (ok : Option Nat) : KjRedisConn τ :=
  if c.dqCommon = [] then c
  else
    match c.commitLoop ok with
    | (c, threw) => if threw then c.taskFailed else c

/-- `read_pipe_loop`: the pipelines of the work queue are sent, and committed if there are
any. -/
def readPipe (c : KjRedisConn τ) (works : List CmdWork) (ok : Option Nat) : KjRedisConn τ :=
  if works = [] then c else (works.foldl send c).commit ok

/-- `OnClientConnect`: whatever has not been answered is sent again, after the
pipelines of `Init`. -/
def onClientConnect (c : KjRedisConn τ) (ok : Option Nat) : KjRedisConn τ :=
  let dqTmp := c.dqInit ++
    c.dqCommon.filter fun cp => 0 < cp.sn ∧ cp.state.toNat < PipelineState.processOver.toNat
  commit { c with reading := true, dqCommon := dqTmp.map (·.setState .sending) } ok

/-- A reply that is not a message, and whether it makes the loop of `OnClientReceive`
throw. -/
def onReply (c : KjRedisConn τ) (reply : CRedisReply) : KjRedisConn τ × Bool :=
  match c.dqCommon with
  | [] => (c, true)
  | cp :: dq =>
    if c.committingNum ≤ 0 then (c, true)
    else if cp.state.toNat < PipelineState.committing.toNat then (c, true)
    else if cp.counted.processedNum ≥ cp.counted.builtNum then
      if cp.throwsOn reply then
        ({ c with dqCommon := cp.counted :: dq, calls := c.calls ++ cp.replied reply }, true)
      else
        ({ c with
            dqCommon := dq, committingNum := c.committingNum - 1
            calls := c.calls ++ cp.replied reply ++ cp.disposed }, false)
    else ({ c with dqCommon := cp.counted :: dq }, false)

/-- The loop of `OnClientReceive` over the replies available. `intake` is `none` for a
published message, else the reply as it goes on. -/
def replyLoop (intake : CRedisReply → Option CRedisReply) :
    List CRedisReply → KjRedisConn τ → KjRedisConn τ × Bool
  | [], c => ({ c with availableReplies := [] }, false)
  | reply :: replies, c =>
    let c := { c with availableReplies := replies }
    if reply.isError then (c, true)
    else
      match intake reply with
      | none => replyLoop intake replies c
      | some reply =>
        match c.onReply reply with
        | (c, true) => (c, true)
        | (c, false) => replyLoop intake replies c

/-- `OnClientReceive`. A chunk that does not parse leaves the replies before it for
the next call. -/
def onClientReceive (P : ReplyParser ι τ) (intake : CRedisReply → Option CRedisReply)
    (c : KjRedisConn τ) (chunk : ι) : Option (KjRedisConn τ × Bool) :=
  match P.parse c.parser chunk with
  | none => none
  | some (parser, replies, threw) =>
    let c := { c with parser, availableReplies := c.availableReplies ++ replies }
    if threw then some (c, false) else some (replyLoop intake c.availableReplies c)

/-- The function `taskFailed` schedules: `FlushStream`, which ends the read loop and a
connect in flight, `Reset`, and `DelayReconnect`. -/
def reset (P : ReplyParser ι τ) (c : KjRedisConn τ) : KjRedisConn τ :=
  { c with
    pendingResets := c.pendingResets - 1
    stream := none, reading := false, connecting := false
    parser := P.fresh, availableReplies := []
    dqCommon := c.dqCommon.map (·.setState .queueing), committingNum := 0
    bDelayReconnecting := true }

/-- `StartConnect` has its stream. -/
def connected (c : KjRedisConn τ) (ok : Option Nat) : KjRedisConn τ :=
  onClientConnect { c with connecting := false, stream := some [], bConnected := true } ok

end KjRedisConn

/-- What can happen to a connection. `ok` tells how many writes the stream takes. -/
inductive Event (ι : Type*)
  | send (work : CmdWork)
  | commit (ok : Option Nat)
  | tick (ok : Option Nat)
  | receive (chunk : ι)
  | readFail
  | reset
  | timer
  | connectOk (ok : Option Nat)
  | connectFail

/-- One step; `none` where nothing is there for the event to happen to. -/
def KjRedisConn.next (P : ReplyParser ι τ) (intake : CRedisReply → Option CRedisReply)
    (c : KjRedisConn τ) : Event ι → Option (KjRedisConn τ)
  | .send work => some (c.send work)
  | .commit ok => some (c.commit ok)
  | .tick ok =>
    if c.commitTicks = 0 then none
    else
      match { c with commitTicks := c.commitTicks - 1 }.commitLoop ok with
      | (c, threw) => some (if threw then c.taskFailed else c)
  | .receive chunk =>
    if c.reading then
      (c.onClientReceive P intake chunk).map fun
        | (c, true) => { c with reading := false }.taskFailed
        | (c, false) => c
    else none
  | .readFail => if c.reading then some { c with reading := false }.taskFailed else none
  | .reset => if c.pendingResets = 0 then none else some (c.reset P)
  | .timer =>
    if c.bDelayReconnecting then
      some { c with bDelayReconnecting := false, connecting := true }
    else none
  | .connectOk ok => if c.connecting then some (c.connected ok) else none
  | .connectFail => if c.connecting then some { c with connecting := false }.taskFailed else none

/-- `KjRedisClientConn` knows no messages. -/
def clientConn (P : ReplyParser ι τ) : Transition.System (KjRedisConn τ) (Event ι) where
  next := KjRedisConn.next P some

/-- What `KjRedisSubscriberConn::OnClientReceive` hands to its work callbacks. -/
def isMessage (reply : CRedisReply) : Bool :=
  reply.ok && reply.isArray &&
    match reply.rows with
    | v₀ :: v₁ :: v₂ :: v₃ :: _ =>
      if v₀.isString && v₁.isString && v₂.isString && v₃.isString then
        v₀.strval = (ascii "pmessage").map some
      else v₀.isString && v₁.isString && v₂.isString && v₀.strval = (ascii "message").map some
    | [v₀, v₁, v₂] =>
      v₀.isString && v₁.isString && v₂.isString && v₀.strval = (ascii "message").map some
    | _ => false

/-- The rows have been moved out of an array by the time it is found not to be a
message. -/
def subscriberIntake (reply : CRedisReply) : Option CRedisReply :=
  if isMessage reply then none
  else if reply.ok && reply.isArray then some { reply with rows := [] }
  else some reply

def subscriberConn (P : ReplyParser ι τ) : Transition.System (KjRedisConn τ) (Event ι) where
  next := KjRedisConn.next P subscriberIntake

namespace KjRedisConn

/-- The pipelines queued, whatever has become of them. -/
def queued (c : KjRedisConn τ) : List CmdWork := c.dqCommon.map (·.toCmdWork)

theorem writeSending_skip {ok : Nat} {cp : CmdPipeline} (dq : List CmdPipeline)
    (h : cp.state ≠ .sending) :
    writeSending ok (cp :: dq) =
      (cp :: (writeSending ok dq).1, (writeSending ok dq).2) := by
  rw [writeSending.eq_def]
  simp only [if_neg h]

theorem writeSending_throw {cp : CmdPipeline} (dq : List CmdPipeline) (h : cp.state = .sending) :
    writeSending 0 (cp :: dq) = (cp :: dq, [], true) := by
  rw [writeSending.eq_def]
  simp only [if_pos h]

theorem writeSending_write {ok : Nat} {cp : CmdPipeline} (dq : List CmdPipeline)
    (h : cp.state = .sending) :
    writeSending (ok + 1) (cp :: dq) =
      (cp.setState .committing :: (writeSending ok dq).1,
        cp.toCmdWork :: (writeSending ok dq).2.1, (writeSending ok dq).2.2) := by
  rw [writeSending.eq_def]
  simp only [if_pos h]

theorem writeSending_works (ok : Nat) (dq : List CmdPipeline) :
    (writeSending ok dq).1.map (·.toCmdWork) = dq.map (·.toCmdWork) := by
  induction dq generalizing ok with
  | nil => rfl
  | cons cp dq ih =>
    by_cases h : cp.state = .sending
    · cases ok with
      | zero => rw [writeSending_throw dq h]
      | succ ok => rw [writeSending_write dq h, List.map_cons, ih ok, toCmdWork_setState, List.map_cons]
    · rw [writeSending_skip dq h, List.map_cons, ih ok, List.map_cons]

/-- A write only ever makes a pipeline's state `COMMITTING`. -/
theorem writeSending_state {ok : Nat} {dq : List CmdPipeline} {cp : CmdPipeline}
    (h : cp ∈ (writeSending ok dq).1) : cp ∈ dq ∨ cp.state = .committing := by
  induction dq generalizing ok with
  | nil => exact .inl h
  | cons cp' dq ih =>
    by_cases hs : cp'.state = .sending
    · cases ok with
      | zero =>
        rw [writeSending_throw dq hs] at h
        exact .inl h
      | succ ok =>
        rw [writeSending_write dq hs] at h
        rcases List.mem_cons.1 h with rfl | h
        · exact .inr rfl
        · exact (ih h).imp_left (List.mem_cons_of_mem cp')
    · rw [writeSending_skip dq hs] at h
      rcases List.mem_cons.1 h with rfl | h
      · exact .inl List.mem_cons_self
      · exact (ih h).imp_left (List.mem_cons_of_mem cp')

/-- What a reply does: nothing, as it throws; or it is counted; or it is the last one,
and the front pipeline's callback throws or does not. -/
inductive OnReply (c : KjRedisConn τ) (reply : CRedisReply) : KjRedisConn τ × Bool → Prop
  | refused
      (h : ∀ cp dq, c.dqCommon = cp :: dq → c.committingNum ≤ 0 ∨
        cp.state.toNat < PipelineState.committing.toNat) :
      OnReply c reply (c, true)
  | counted (cp : CmdPipeline) (dq : List CmdPipeline) (hdq : c.dqCommon = cp :: dq)
      (hnum : 0 < c.committingNum) (hstate : PipelineState.committing.toNat ≤ cp.state.toNat)
      (h : cp.processedNum + 1 < cp.builtNum) :
      OnReply c reply ({ c with dqCommon := cp.counted :: dq }, false)
  | threw (cp : CmdPipeline) (dq : List CmdPipeline) (hdq : c.dqCommon = cp :: dq)
      (hnum : 0 < c.committingNum) (hstate : PipelineState.committing.toNat ≤ cp.state.toNat)
      (h : cp.builtNum ≤ cp.processedNum + 1) (hcb : cp.throwsOn reply) :
      OnReply c reply
        ({ c with dqCommon := cp.counted :: dq, calls := c.calls ++ cp.replied reply }, true)
  | finished (cp : CmdPipeline) (dq : List CmdPipeline) (hdq : c.dqCommon = cp :: dq)
      (hnum : 0 < c.committingNum) (hstate : PipelineState.committing.toNat ≤ cp.state.toNat)
      (h : cp.builtNum ≤ cp.processedNum + 1) (hcb : ¬ cp.throwsOn reply) :
      OnReply c reply
        ({ c with
            dqCommon := dq, committingNum := c.committingNum - 1
            calls := c.calls ++ cp.replied reply ++ cp.disposed }, false)

theorem onReply_spec (c : KjRedisConn τ) (reply : CRedisReply) :
    OnReply c reply (c.onReply reply) := by
  rw [onReply]
  split
  next hdq =>
    refine .refused fun cp dq h => ?_
    rw [hdq] at h
    cases h
  next cp dq hdq =>
    have hrefused : ∀ {p : Prop}, p → (p → c.committingNum ≤ 0 ∨
        cp.state.toNat < PipelineState.committing.toNat) → OnReply c reply (c, true) :=
      fun hp himp => .refused fun cp' dq' h => by
        rw [hdq] at h
        obtain ⟨rfl, -⟩ := List.cons.inj h
        exact himp hp
    split
    next hnum => exact hrefused hnum .inl
    next hnum =>
      split
      next hstate => exact hrefused hstate .inr
      next hstate =>
        have hnum : 0 < c.committingNum := Int.lt_of_not_ge hnum
        have hstate := Nat.le_of_not_lt hstate
        split
        next h =>
          split
          next hcb => exact .threw cp dq hdq hnum hstate h hcb
          next hcb => exact .finished cp dq hdq hnum hstate h hcb
        next h => exact .counted cp dq hdq hnum hstate (Nat.lt_of_not_ge h)

/-- The front pipeline has been written. -/
def HasCommitted (c : KjRedisConn τ) : Prop :=
  0 < c.committingNum ∧ ∃ cp dq, c.dqCommon = cp :: dq ∧
    PipelineState.committing.toNat ≤ cp.state.toNat

theorem HasCommitted.not_refused {c : KjRedisConn τ} (h : c.HasCommitted) :
    ¬ ∀ cp dq, c.dqCommon = cp :: dq → c.committingNum ≤ 0 ∨
      cp.state.toNat < PipelineState.committing.toNat := by
  obtain ⟨hnum, cp, dq, hdq, hstate⟩ := h
  intro hrefused
  rcases hrefused cp dq hdq with hnone | hearly
  · exact absurd hnum (Int.not_lt.2 hnone)
  · exact absurd hearly (Nat.not_lt.2 hstate)

/-- What neither replies nor writes change. -/
structure SameTasks (c c' : KjRedisConn τ) : Prop where
  dqInit : c'.dqInit = c.dqInit
  parser : c'.parser = c.parser
  bConnected : c'.bConnected = c.bConnected
  reading : c'.reading = c.reading
  bDelayReconnecting : c'.bDelayReconnecting = c.bDelayReconnecting
  connecting : c'.connecting = c.connecting

theorem SameTasks.refl (c : KjRedisConn τ) : SameTasks c c := ⟨rfl, rfl, rfl, rfl, rfl, rfl⟩

theorem SameTasks.trans {c c' c'' : KjRedisConn τ} (h : SameTasks c c') (h' : SameTasks c' c'') :
    SameTasks c c'' :=
  ⟨h'.dqInit.trans h.dqInit, h'.parser.trans h.parser, h'.bConnected.trans h.bConnected,
    h'.reading.trans h.reading, h'.bDelayReconnecting.trans h.bDelayReconnecting,
    h'.connecting.trans h.connecting⟩

theorem sameTasks_commitLoop (c : KjRedisConn τ) (ok : Option Nat) :
    SameTasks c (c.commitLoop ok).1 ∧
      (c.commitLoop ok).1.availableReplies = c.availableReplies := by
  rw [commitLoop]
  split <;> exact ⟨⟨rfl, rfl, rfl, rfl, rfl, rfl⟩, rfl⟩

theorem sameTasks_commit (c : KjRedisConn τ) (ok : Option Nat) :
    SameTasks c (c.commit ok) ∧ (c.commit ok).availableReplies = c.availableReplies := by
  rw [commit]
  split
  · exact ⟨.refl c, rfl⟩
  · have h := sameTasks_commitLoop c ok
    split
    next c' threw heq =>
      rw [heq] at h
      split
      · exact ⟨h.1.trans ⟨rfl, rfl, rfl, rfl, rfl, rfl⟩, h.2⟩
      · exact h

theorem sameTasks_onReply (c : KjRedisConn τ) (reply : CRedisReply) :
    SameTasks c (c.onReply reply).1 := by
  have hspec := onReply_spec c reply
  generalize c.onReply reply = o at hspec ⊢
  cases hspec with
  | refused => exact .refl c
  | _ => exact ⟨rfl, rfl, rfl, rfl, rfl, rfl⟩

theorem sameTasks_replyLoop (intake : CRedisReply → Option CRedisReply) (replies : List CRedisReply)
    (c : KjRedisConn τ) : SameTasks c (replyLoop intake replies c).1 ∧
      ((replyLoop intake replies c).2 = false →
        (replyLoop intake replies c).1.availableReplies = []) := by
  induction replies generalizing c with
  | nil => exact ⟨⟨rfl, rfl, rfl, rfl, rfl, rfl⟩, fun _ => rfl⟩
  | cons reply replies ih =>
    have hpop : SameTasks c { c with availableReplies := replies } :=
      ⟨rfl, rfl, rfl, rfl, rfl, rfl⟩
    rw [replyLoop]
    split
    · exact ⟨hpop, fun h => absurd h (by simp)⟩
    · split
      · exact ⟨hpop.trans (ih _).1, (ih _).2⟩
      next reply' _ =>
        have hreply := hpop.trans (sameTasks_onReply _ reply')
        split
        next heq =>
          rw [heq] at hreply
          exact ⟨hreply, fun h => absurd h (by simp)⟩
        next c' heq =>
          rw [heq] at hreply
          exact ⟨hreply.trans (ih c').1, (ih c').2⟩

/-- What every reply keeps, the loop over the replies keeps. -/
theorem replyLoop_keeps (Inv : KjRedisConn τ → Prop)
    (hpop : ∀ c availableReplies, Inv c → Inv { c with availableReplies })
    (hreply : ∀ c reply, Inv c → Inv (c.onReply reply).1) {c : KjRedisConn τ}
    (intake : CRedisReply → Option CRedisReply) (replies : List CRedisReply) (h : Inv c) :
    Inv (replyLoop intake replies c).1 := by
  induction replies generalizing c with
  | nil => exact hpop c [] h
  | cons reply replies ih =>
    rw [replyLoop]
    have h' := hpop c replies h
    split
    · exact h'
    · split
      · exact ih h'
      next reply' _ =>
        have hnext := hreply _ reply' h'
        split
        next heq =>
          rw [heq] at hnext
          exact hnext
        next heq =>
          rw [heq] at hnext
          exact ih hnext

/-- The two connections hold the same pipelines in the same order, have called the same
callbacks, and no pipeline of the second is newly over. -/
structure SameQueue (c c' : KjRedisConn τ) : Prop where
  queued : c'.queued = c.queued
  calls : c'.calls = c.calls
  dqInit : c'.dqInit = c.dqInit
  notOver : ∀ cp ∈ c'.dqCommon, cp.state = .processOver → cp ∈ c.dqCommon

theorem SameQueue.refl (c : KjRedisConn τ) : SameQueue c c := ⟨rfl, rfl, rfl, fun _ h _ => h⟩

theorem SameQueue.trans {c c' c'' : KjRedisConn τ} (h : SameQueue c c') (h' : SameQueue c' c'') :
    SameQueue c c'' :=
  ⟨h'.queued.trans h.queued, h'.calls.trans h.calls, h'.dqInit.trans h.dqInit,
    fun cp hcp hover => h.notOver cp (h'.notOver cp hcp hover) hover⟩

theorem sameQueue_taskFailed (c : KjRedisConn τ) : SameQueue c c.taskFailed :=
  ⟨rfl, rfl, rfl, fun _ h _ => h⟩

theorem sameQueue_commitLoop (c : KjRedisConn τ) (ok : Option Nat) :
    SameQueue c (c.commitLoop ok).1 := by
  rw [commitLoop]
  split
  · refine ⟨writeSending_works _ _, rfl, rfl, fun cp hcp hover => ?_⟩
    rcases writeSending_state hcp with h | h
    · exact h
    · rw [h] at hover
      cases hover
  · exact ⟨rfl, rfl, rfl, fun _ h _ => h⟩

theorem sameQueue_commit (c : KjRedisConn τ) (ok : Option Nat) : SameQueue c (c.commit ok) := by
  rw [commit]
  split
  · exact .refl c
  · have h := sameQueue_commitLoop c ok
    split
    next c' threw heq =>
      rw [heq] at h
      split
      · exact h.trans (sameQueue_taskFailed c')
      · exact h

theorem sameQueue_reset (P : ReplyParser ι τ) (c : KjRedisConn τ) : SameQueue c (c.reset P) := by
  refine ⟨?_, rfl, rfl, fun cp hcp hover => ?_⟩
  · rw [queued, queued, reset, List.map_map]
    exact List.map_congr_left fun cp _ => rfl
  · obtain ⟨cp', -, rfl⟩ := List.mem_map.1 hcp
    cases hover

variable {P : ReplyParser ι τ} {intake : CRedisReply → Option CRedisReply}

/-- The connection after a chunk has been parsed, before its replies are looked at. -/
def parsed (c : KjRedisConn τ) (parser : τ) (replies : List CRedisReply) : KjRedisConn τ :=
  { c with parser, availableReplies := c.availableReplies ++ replies }

/-- A read loop that has ended in an exception. -/
def readFailed (c : KjRedisConn τ) : KjRedisConn τ := { c with reading := false }.taskFailed

/-- What each event does, with what has to be there for it. -/
inductive Next (P : ReplyParser ι τ) (intake : CRedisReply → Option CRedisReply)
    (c : KjRedisConn τ) : Event ι → KjRedisConn τ → Prop
  | send (work : CmdWork) : Next P intake c (.send work) (c.send work)
  | commit (ok : Option Nat) : Next P intake c (.commit ok) (c.commit ok)
  | tick (ok : Option Nat) (c' : KjRedisConn τ) (threw : Bool) (hticks : c.commitTicks ≠ 0)
      (hloop : { c with commitTicks := c.commitTicks - 1 }.commitLoop ok = (c', threw)) :
      Next P intake c (.tick ok) (if threw then c'.taskFailed else c')
  | unparsed (chunk : ι) (parser : τ) (replies : List CRedisReply) (hreading : c.reading)
      (hparse : P.parse c.parser chunk = some (parser, replies, true)) :
      Next P intake c (.receive chunk) (c.parsed parser replies)
  | read (chunk : ι) (parser : τ) (replies : List CRedisReply) (c' : KjRedisConn τ)
      (hreading : c.reading) (hparse : P.parse c.parser chunk = some (parser, replies, false))
      (hloop : replyLoop intake (c.availableReplies ++ replies) (c.parsed parser replies) =
        (c', false)) :
      Next P intake c (.receive chunk) c'
  | refused (chunk : ι) (parser : τ) (replies : List CRedisReply) (c' : KjRedisConn τ)
      (hreading : c.reading) (hparse : P.parse c.parser chunk = some (parser, replies, false))
      (hloop : replyLoop intake (c.availableReplies ++ replies) (c.parsed parser replies) =
        (c', true)) :
      Next P intake c (.receive chunk) c'.readFailed
  | readFail (hreading : c.reading) : Next P intake c .readFail c.readFailed
  | reset (hresets : c.pendingResets ≠ 0) : Next P intake c .reset (c.reset P)
  | timer (hdelay : c.bDelayReconnecting) :
      Next P intake c .timer { c with bDelayReconnecting := false, connecting := true }
  | connectOk (ok : Option Nat) (hconnecting : c.connecting) :
      Next P intake c (.connectOk ok) (c.connected ok)
  | connectFail (hconnecting : c.connecting) :
      Next P intake c .connectFail { c with connecting := false }.taskFailed

theorem next_spec {c c' : KjRedisConn τ} {e : Event ι} (h : c.next P intake e = some c') :
    Next P intake c e c' := by
  cases e with
  | send work =>
    obtain rfl := Option.some.inj h
    exact .send work
  | commit ok =>
    obtain rfl := Option.some.inj h
    exact .commit ok
  | tick ok =>
    simp only [KjRedisConn.next] at h
    split at h
    · cases h
    next hticks =>
      obtain rfl := Option.some.inj h
      exact .tick ok _ _ hticks rfl
  | receive chunk =>
    simp only [KjRedisConn.next, onClientReceive] at h
    split at h
    next hreading =>
      split at h
      · cases h
      next parser replies threw hparse =>
        cases threw with
        | true =>
          obtain rfl := Option.some.inj h
          exact .unparsed chunk parser replies hreading hparse
        | false =>
          obtain ⟨⟨c', threw⟩, hloop, rfl⟩ := Option.map_eq_some_iff.1 h
          cases threw with
          | true => exact .refused chunk parser replies c' hreading hparse (Option.some.inj hloop)
          | false => exact .read chunk parser replies c' hreading hparse (Option.some.inj hloop)
    · cases h
  | readFail =>
    simp only [KjRedisConn.next] at h
    split at h
    next hreading =>
      obtain rfl := Option.some.inj h
      exact .readFail hreading
    · cases h
  | reset =>
    simp only [KjRedisConn.next] at h
    split at h
    · cases h
    next hresets =>
      obtain rfl := Option.some.inj h
      exact .reset hresets
  | timer =>
    simp only [KjRedisConn.next] at h
    split at h
    next hdelay =>
      obtain rfl := Option.some.inj h
      exact .timer hdelay
    · cases h
  | connectOk ok =>
    simp only [KjRedisConn.next] at h
    split at h
    next hconnecting =>
      obtain rfl := Option.some.inj h
      exact .connectOk ok hconnecting
    · cases h
  | connectFail =>
    simp only [KjRedisConn.next] at h
    split at h
    next hconnecting =>
      obtain rfl := Option.some.inj h
      exact .connectFail hconnecting
    · cases h

theorem clientConn_spec {c c' : KjRedisConn τ} {e : Event ι} (h : (clientConn P).next c e = some c') :
    Next P some c e c' := next_spec h

theorem subscriberConn_spec {c c' : KjRedisConn τ} {e : Event ι}
    (h : (subscriberConn P).next c e = some c') : Next P subscriberIntake c e c' := next_spec h

theorem Next.of_connectOk {c c' : KjRedisConn τ} {ok : Option Nat}
    (h : Next P intake c (.connectOk ok) c') : c.connecting ∧ c' = c.connected ok := by
  cases h with
  | connectOk _ hconnecting => exact ⟨hconnecting, rfl⟩

/-- Only a connect starts a read loop. -/
theorem Next.was_reading {c c' : KjRedisConn τ} {e : Event ι} (h : Next P intake c e c')
    (hconnect : ∀ ok, e ≠ .connectOk ok) (hafter : c'.reading) : c.reading := by
  cases h with
  | commit ok => exact (sameTasks_commit c ok).1.reading ▸ hafter
  | tick ok c₁ threw _ hloop =>
    have htasks := (sameTasks_commitLoop { c with commitTicks := c.commitTicks - 1 } ok).1
    rw [hloop] at htasks
    split at hafter <;> exact htasks.reading ▸ hafter
  | read chunk parser replies c₁ hreading => exact hreading
  | refused chunk parser replies c₁ hreading => exact hreading
  | readFail hreading => exact hreading
  | reset => cases hafter
  | connectOk ok => exact absurd rfl (hconnect ok)
  | _ => exact hafter

end KjRedisConn

end KjRedis.Conn
