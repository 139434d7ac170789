import KjRedis.Lib.Doorbell
import KjRedis.Queue.Guarantees

/-! `CKjRedisClientWorkQueue`: the caller's thread puts pipelines into a queue and writes to
a pipe, and the connection's thread waits at the pipe and sends what it finds in the queue.
`CKjRedisSubscriberWorkQueue` is the same code. -/
namespace KjRedis.Work

open AtomicQueue (Label)

variable {T : Type} {pipeNotify : Nat → Bool}

/-- Where the caller's thread is in `Add` or `Finish`. -/
inductive Caller (T : Type)
  | idle
  /-- `_done` was not set. -/
  | adding
  | enqueuing (cmd : T)
  | notifying
  /-- `while (!_finished)`. -/
  | finishing
  deriving DecidableEq

/-- Where the connection's thread is in `Run`. -/
inductive Worker
  | starting
  /-- At the start of `read_pipe_loop`. -/
  | looping
  /-- `stream.tryRead`. -/
  | reading
  | draining (nCount : Nat)
  | dequeuing (nCount : Nat)
  /-- `read_pipe_loop` has returned for good. -/
  | ended
  | stopped
  deriving DecidableEq

/-- `pipe` is the number of bytes in the pipe. `accepted` has been put into the queue and
`sent` has been given to `conn->Send`, of which the first `committed` before the last
`conn->Commit`. -/
structure WorkQueue (T : Type) where
  caller : Caller T
  worker : Worker
  pipe : Nat
  done : Bool
  finished : Bool
  accepted : List T
  sent : List T
  committed : Nat

def newWorkQueue (T : Type) : WorkQueue T :=
  { caller := .idle, worker := .starting, pipe := 0, done := false, finished := false, accepted := []
    sent := [], committed := 0 }

/-- `add` is the start of `Add`; the command comes with the call of `enqueue`. `notify` is
`PipeNotify`, with the bytes it writes; `quit` is the end of `check_quit_loop` with all that
`Run` does after it. -/
inductive WorkAct
  | add
  | notify (bytes : Nat)
  | finish
  | finishReturns
  | run
  | loop
  | read (amount : Nat)
  | quit

namespace WorkQueue

def note (w : WorkQueue T) : Label T → Option (WorkQueue T)
  | .enqueue cmd =>
    match w.caller with
    | .adding => some { w with caller := .enqueuing cmd }
    | _ => none
  | .enqueued ok =>
    match w.caller with
    | .enqueuing cmd =>
      if ok then some { w with caller := .notifying, accepted := w.accepted ++ [cmd] }
      else some { w with caller := .idle }
    | _ => none
  | .dequeue =>
    match w.worker with
    | .draining nCount => some { w with worker := .dequeuing nCount }
    | _ => none
  | .dequeued r =>
    match w.worker with
    | .dequeuing nCount =>
      match r with
      | some cmd => some { w with worker := .draining (nCount + 1), sent := w.sent ++ [cmd] }
      | none =>
        some { w with
          worker := .looping, committed := if nCount > 0 then w.sent.length else w.committed }
    | _ => none

/-- `pipeNotify` tells how many bytes `PipeNotify`, which is not part of this code, may write. -/
def act (pipeNotify : Nat → Bool) (w : WorkQueue T) : WorkAct → Option (WorkQueue T)
  | .add =>
    match w.caller with
    | .idle => if w.done then some w else some { w with caller := .adding }
    | _ => none
  | .notify bytes =>
    match w.caller with
    | .notifying =>
      if pipeNotify bytes then some { w with caller := .idle, pipe := w.pipe + bytes } else none
    | _ => none
  | .finish =>
    match w.caller with
    | .idle => some { w with caller := .finishing, done := true }
    | _ => none
  | .finishReturns =>
    match w.caller with
    | .finishing => if w.finished then some { w with caller := .idle } else none
    | _ => none
  | .run =>
    match w.worker with
    | .starting => some { w with worker := .looping }
    | _ => none
  | .loop =>
    match w.worker with
    | .looping => some { w with worker := if w.done then .ended else .reading }
    | _ => none
  | .read amount =>
    match w.worker with
    | .reading =>
      if 1 ≤ amount ∧ amount ≤ w.pipe ∧ amount ≤ 1024 then
        some { w with worker := .draining 0, pipe := w.pipe - amount }
      else none
    | _ => none
  | .quit =>
    match w.worker with
    | .reading => if w.done then some { w with worker := .stopped, finished := true } else none
    | .ended => if w.done then some { w with worker := .stopped, finished := true } else none
    | _ => none

end WorkQueue

/-- Both threads, with each access of theirs to `_callbacks(256)` a step of its own. -/
def workQueue (T : Type) (pipeNotify : Nat → Bool) :=
  (Queue.threads T 512).guided WorkQueue.note (WorkQueue.act pipeNotify)

/-- A `PipeNotify` that writes at least one byte. -/
def Notifies (pipeNotify : Nat → Bool) : Prop := ∀ bytes, pipeNotify bytes = true → 0 < bytes

def startedWork (T : Type) : Queue.Threads T × WorkQueue T := (Queue.started T 512 256, newWorkQueue T)

variable {w w' : WorkQueue T} {l : Label T} {d : WorkAct}

namespace WorkQueue

/-- The effect of a call of the queue. -/
inductive Noted (w : WorkQueue T) : Label T → WorkQueue T → Prop
  | enqueue (h : w.caller = .adding) (cmd : T) :
    Noted w (.enqueue cmd) { w with caller := .enqueuing cmd }
  | enqueued {cmd : T} (h : w.caller = .enqueuing cmd) :
    Noted w (.enqueued true) { w with caller := .notifying, accepted := w.accepted ++ [cmd] }
  | refused {cmd : T} (h : w.caller = .enqueuing cmd) : Noted w (.enqueued false) { w with caller := .idle }
  | dequeue {nCount : Nat} (h : w.worker = .draining nCount) :
    Noted w .dequeue { w with worker := .dequeuing nCount }
  | dequeued {nCount : Nat} (h : w.worker = .dequeuing nCount) (cmd : T) :
    Noted w (.dequeued (some cmd)) { w with worker := .draining (nCount + 1), sent := w.sent ++ [cmd] }
  | missed {nCount : Nat} (h : w.worker = .dequeuing nCount) :
    Noted w (.dequeued none)
      { w with worker := .looping, committed := if nCount > 0 then w.sent.length else w.committed }

/-- The effect of any other step. -/
inductive Acted (pipeNotify : Nat → Bool) (w : WorkQueue T) : WorkQueue T → Prop
  | turnedAway (h : w.caller = .idle) (hdone : w.done = true) : Acted pipeNotify w w
  | add (h : w.caller = .idle) (hdone : w.done = false) : Acted pipeNotify w { w with caller := .adding }
  | notify (h : w.caller = .notifying) {bytes : Nat} (hwritten : pipeNotify bytes = true) :
    Acted pipeNotify w { w with caller := .idle, pipe := w.pipe + bytes }
  | finish (h : w.caller = .idle) : Acted pipeNotify w { w with caller := .finishing, done := true }
  | finishReturns (h : w.caller = .finishing) (hfinished : w.finished = true) :
    Acted pipeNotify w { w with caller := .idle }
  | run (h : w.worker = .starting) : Acted pipeNotify w { w with worker := .looping }
  | loopEnds (h : w.worker = .looping) (hdone : w.done = true) : Acted pipeNotify w { w with worker := .ended }
  | loop (h : w.worker = .looping) (hdone : w.done = false) : Acted pipeNotify w { w with worker := .reading }
  | read (h : w.worker = .reading) {amount : Nat} (hle : amount ≤ w.pipe) :
    Acted pipeNotify w { w with worker := .draining 0, pipe := w.pipe - amount }
  | quit (h : w.worker = .reading ∨ w.worker = .ended) (hdone : w.done = true) :
    Acted pipeNotify w { w with worker := .stopped, finished := true }

theorem noted (hnote : w.note l = some w') : w.Noted l w' := by
  cases l with
  | enqueue cmd =>
    simp only [note] at hnote
    split at hnote <;> cases hnote
    next hcaller => exact .enqueue hcaller cmd
  | enqueued ok =>
    simp only [note] at hnote
    split at hnote
    · next cmd hcaller =>
      cases ok with
      | true =>
        cases hnote
        exact .enqueued hcaller
      | false =>
        cases hnote
        exact .refused hcaller
    · cases hnote
  | dequeue =>
    simp only [note] at hnote
    split at hnote <;> cases hnote
    next hworker => exact .dequeue hworker
  | dequeued r =>
    simp only [note] at hnote
    split at hnote
    · next nCount hworker =>
      cases r with
      | some cmd =>
        cases hnote
        exact .dequeued hworker cmd
      | none =>
        cases hnote
        exact .missed hworker
    · cases hnote

theorem acted (hact : w.act pipeNotify d = some w') : w.Acted pipeNotify w' := by
  cases d with
  | add =>
    simp only [act] at hact
    split at hact
    · next hcaller =>
      split at hact <;> cases hact
      · next hdone => exact .turnedAway hcaller hdone
      · next hdone => exact .add hcaller (Bool.not_eq_true _ ▸ hdone)
    · cases hact
  | notify bytes =>
    simp only [act] at hact
    split at hact
    · next hcaller =>
      split at hact <;> cases hact
      next hwritten => exact .notify hcaller hwritten
    · cases hact
  | finish =>
    simp only [act] at hact
    split at hact <;> cases hact
    next hcaller => exact .finish hcaller
  | finishReturns =>
    simp only [act] at hact
    split at hact
    · next hcaller =>
      split at hact <;> cases hact
      next hfinished => exact .finishReturns hcaller hfinished
    · cases hact
  | run =>
    simp only [act] at hact
    split at hact <;> cases hact
    next hworker => exact .run hworker
  | loop =>
    simp only [act] at hact
    split at hact <;> cases hact
    next hworker =>
      split
      · next hdone => exact .loopEnds hworker hdone
      · next hdone => exact .loop hworker (Bool.not_eq_true _ ▸ hdone)
  | read amount =>
    simp only [act] at hact
    split at hact
    · next hworker =>
      split at hact <;> cases hact
      next hamount => exact .read hworker hamount.2.1
    · cases hact
  | quit =>
    simp only [act] at hact
    split at hact
    · next hworker =>
      split at hact <;> cases hact
      next hdone => exact .quit (.inl hworker) hdone
    · next hworker =>
      split at hact <;> cases hact
      next hdone => exact .quit (.inr hworker) hdone
    · cases hact

end WorkQueue

def Caller.bell : Caller T → Doorbell.Producer T
  | .enqueuing cmd => .putting cmd
  | .notifying => .ringing
  | _ => .idle

def Worker.bell : Worker → Doorbell.Consumer
  | .draining _ => .looking
  | .dequeuing _ => .taking
  | .ended => .stopped
  | .stopped => .stopped
  | _ => .waiting

def WorkQueue.bell (w : WorkQueue T) : Doorbell.Control T :=
  { producer := w.caller.bell, consumer := w.worker.bell, accepted := w.accepted, taken := w.sent
    rings := w.pipe }

theorem bell_producer {caller : Caller T} (h : w.caller = caller) : w.bell.producer = caller.bell :=
  congrArg Caller.bell h

theorem bell_consumer {worker : Worker} (h : w.worker = worker) : w.bell.consumer = worker.bell :=
  congrArg Worker.bell h

/-- A step the bell has nothing to do with. -/
theorem bell_still (h : w'.bell = w.bell) : w.bell.Acts w'.bell := h ▸ .still w.bell

/-- How many pipelines the worker has sent since its last commit. -/
def Worker.nCount : Worker → Nat
  | .draining nCount => nCount
  | .dequeuing nCount => nCount
  | _ => 0

structure WorkQueue.Sound (w : WorkQueue T) : Prop where
  count : w.committed + w.worker.nCount = w.sent.length
  closed : w.done = true → w.caller = .idle ∨ w.caller = .finishing
  stopped : w.finished = true → w.worker = .stopped

theorem sound_newWorkQueue : (newWorkQueue T).Sound where
  count := rfl
  closed h := absurd h Bool.false_ne_true
  stopped h := absurd h Bool.false_ne_true

namespace WorkQueue.Sound

theorem not_done (h : w.Sound) {caller : Caller T} (hcaller : w.caller = caller)
    (hidle : caller ≠ .idle) (hfinishing : caller ≠ .finishing) : w.done = false := by
  by_contra hdone
  rcases h.closed (Bool.not_eq_false _ ▸ hdone) with heq | heq
  · exact hidle (hcaller.symm.trans heq)
  · exact hfinishing (hcaller.symm.trans heq)

theorem not_finished (h : w.Sound) {worker : Worker} (hworker : w.worker = worker)
    (hne : worker ≠ .stopped) : w.finished = false := by
  by_contra hfinished
  exact hne (hworker.symm.trans (h.stopped (Bool.not_eq_false _ ▸ hfinished)))

theorem count_eq (h : w.Sound) {worker : Worker} (hworker : w.worker = worker) :
    w.committed + worker.nCount = w.sent.length := hworker ▸ h.count

/-- The worker goes on, and neither sends nor commits anything. -/
theorem goesOn (h : w.Sound) {worker : Worker} (hworker : w.worker = worker) (hne : worker ≠ .stopped)
    (worker' : Worker) (hcount : worker'.nCount = worker.nCount) (pipe : Nat) :
    ({ w with worker := worker', pipe } : WorkQueue T).Sound := by
  have hrunning := h.not_finished hworker hne
  refine ⟨?_, h.closed, fun hf => absurd (hrunning.symm.trans hf) Bool.false_ne_true⟩
  show w.committed + worker'.nCount = w.sent.length
  rw [hcount]
  exact h.count_eq hworker

theorem note (h : w.Sound) (hnote : w.note l = some w') : w'.Sound := by
  cases noted hnote with
  | enqueue hcaller cmd =>
    have hdone := h.not_done hcaller (by simp) (by simp)
    exact { h with closed := fun hd => absurd (hdone.symm.trans hd) Bool.false_ne_true }
  | enqueued hcaller =>
    have hdone := h.not_done hcaller (by simp) (by simp)
    exact { h with closed := fun hd => absurd (hdone.symm.trans hd) Bool.false_ne_true }
  | refused hcaller => exact { h with closed := fun _ => .inl rfl }
  | @dequeue nCount hworker => exact h.goesOn hworker (by simp) (.dequeuing nCount) rfl w.pipe
  | @dequeued nCount hworker cmd =>
    have hrunning := h.not_finished hworker (by simp)
    refine ⟨?_, h.closed, fun hf => absurd (hrunning.symm.trans hf) Bool.false_ne_true⟩
    show w.committed + (nCount + 1) = (w.sent ++ [cmd]).length
    rw [List.length_append, ← h.count_eq hworker]
    rfl
  | @missed nCount hworker =>
    have hrunning := h.not_finished hworker (by simp)
    refine ⟨?_, h.closed, fun hf => absurd (hrunning.symm.trans hf) Bool.false_ne_true⟩
    show (if nCount > 0 then w.sent.length else w.committed) + 0 = w.sent.length
    split
    · rfl
    · next hzero =>
      obtain rfl : nCount = 0 := Nat.eq_zero_of_not_pos hzero
      exact h.count_eq hworker

theorem act (h : w.Sound) (hact : w.act pipeNotify d = some w') : w'.Sound := by
  cases acted hact with
  | turnedAway _ _ => exact h
  | add _ hdone => exact { h with closed := fun hd => absurd (hdone.symm.trans hd) Bool.false_ne_true }
  | notify _ _ => exact { h with closed := fun _ => .inl rfl }
  | finish _ => exact { h with closed := fun _ => .inr rfl }
  | finishReturns _ _ => exact { h with closed := fun _ => .inl rfl }
  | run hworker => exact h.goesOn hworker (by simp) .looping rfl w.pipe
  | loopEnds hworker _ => exact h.goesOn hworker (by simp) .ended rfl w.pipe
  | loop hworker _ => exact h.goesOn hworker (by simp) .reading rfl w.pipe
  | read hworker _ => exact h.goesOn hworker (by simp) (.draining 0) rfl _
  | quit hworker _ =>
    have hcount : w.committed + 0 = w.sent.length := by
      rcases hworker with hworker | hworker
      · exact h.count_eq hworker
      · exact h.count_eq hworker
    exact ⟨hcount, h.closed, fun _ => rfl⟩

end WorkQueue.Sound

theorem workQueue_follows (hnotify : Notifies pipeNotify) :
    Doorbell.Follows (@WorkQueue.note T) (WorkQueue.act pipeNotify) WorkQueue.bell WorkQueue.Sound where
  okNote _ _ _ hsound hnote := hsound.note hnote
  okAct _ _ _ hsound hact := hsound.act hact
  notes w l w' _ hnote := by
    cases WorkQueue.noted hnote with
    | enqueue h cmd => exact .enqueue (bell_producer h) cmd
    | enqueued h => exact .accepted (bell_producer h)
    | refused h => exact .refused (bell_producer h) (by simp [Caller.bell])
    | dequeue h => exact .dequeue (bell_consumer h)
    | dequeued h cmd => exact .taken (bell_consumer h) cmd
    | missed h => exact .missed (bell_consumer h)
  acts w d w' _ hact := by
    cases WorkQueue.acted hact with
    | turnedAway h hdone => exact bell_still rfl
    | add h hdone => exact bell_still (by simp [WorkQueue.bell, h, Caller.bell])
    | @notify h bytes hwritten =>
      refine .ring (fun x hput => ?_) (hnotify bytes hwritten)
      rw [bell_producer h] at hput
      cases hput
    | finish h => exact bell_still (by simp [WorkQueue.bell, h, Caller.bell])
    | finishReturns h hfinished => exact bell_still (by simp [WorkQueue.bell, h, Caller.bell])
    | run h => exact bell_still (by simp [WorkQueue.bell, h, Worker.bell])
    | loopEnds h hdone =>
      refine .stop fun htaking => ?_
      rw [bell_consumer h] at htaking
      cases htaking
    | loop h hdone => exact bell_still (by simp [WorkQueue.bell, h, Worker.bell])
    | read h hle => exact .hear (bell_consumer h) hle
    | quit h hdone =>
      refine .stop fun htaking => ?_
      rcases h with h | h
      · rw [bell_consumer h] at htaking
        cases htaking
      · rw [bell_consumer h] at htaking
        cases htaking

theorem sizes_callbacks : Queue.Sizes 512 256 := ⟨by decide, by decide, 9, by decide, rfl⟩

variable {q q' : Queue.Threads T} {h h' : List (Label T ⊕ WorkAct)}

/-- What the program keeps whatever `PipeNotify` does. -/
theorem sound_of_runs (hrun : (workQueue T pipeNotify).Runs (startedWork T) h (q, w)) : w.Sound :=
  hrun.program (P := WorkQueue.Sound) (fun _ _ _ hk hnote => hk.note hnote)
    (fun _ _ _ hk hact => hk.act hact) sound_newWorkQueue

/-- What holds in every state the two threads come to. -/
theorem reached (hnotify : Notifies pipeNotify)
    (hrun : (workQueue T pipeNotify).Runs (startedWork T) h (q, w)) :
    w.Sound ∧ ∃ a, Queue.Related 512 256 a q ∧ Doorbell.Inv a w.bell :=
  Doorbell.inv_of_runs (workQueue_follows hnotify) (Queue.simulates (by decide)) (Queue.related_started sizes_callbacks)
    sound_newWorkQueue rfl hrun

theorem notifies_oneByte : Notifies (· == 1) := by
  intro bytes hwritten
  rw [eq_of_beq hwritten]
  exact Nat.one_pos

/-- Two pipelines put into the queue, of which the worker has seen nothing yet. -/
theorem runs_unsent : ∃ h q w, (workQueue Nat (· == 1)).Runs (startedWork Nat) h (q, w) ∧
    w.worker = .reading ∧ w.pipe = 2 ∧ w.caller = .idle ∧ w.done = false ∧ w.accepted = [7, 8] ∧
    w.sent = [] :=
  ⟨_, _, _, History.System.runs_of_run [.inr .run, .inr .loop, .inr .add, .inl (.enqueue .canAlloc 7),
    .inl (.producer true), .inl (.producer true), .inr (.notify 1), .inr .add,
    .inl (.enqueue .canAlloc 8), .inl (.producer true), .inl (.producer true), .inr (.notify 1)] rfl,
    rfl, rfl, rfl, rfl, rfl, rfl⟩

/-- One pipeline on its way, after which the worker waits again. -/
theorem runs_one : ∃ h q w, (workQueue Nat (· == 1)).Runs (startedWork Nat) h (q, w) ∧
    w.worker = .reading ∧ w.pipe = 0 ∧ w.caller = .idle ∧ w.done = false ∧ w.accepted = [7] :=
  ⟨_, _, _, History.System.runs_of_run [.inr .add, .inl (.enqueue .canAlloc 7), .inr .run, .inr .loop,
    .inl (.producer true), .inl (.producer true), .inr (.notify 1), .inr (.read 1), .inl .tryDequeue,
    .inl .consumer, .inl .consumer, .inl .consumer, .inl .tryDequeue, .inl .consumer, .inl .consumer,
    .inr .loop] rfl, rfl, rfl, rfl, rfl, rfl⟩

/-- The connection is given what the caller commits, in that order, nothing of it twice. -/
theorem sent_prefix_accepted (hnotify : Notifies pipeNotify)
    (hrun : (workQueue T pipeNotify).Runs (startedWork T) h (q, w)) :
    w.sent <+: w.accepted ++ w.caller.bell.pending := by
  obtain ⟨-, a, -, hinv⟩ := reached hnotify hrun
  exact hinv.taken_prefix

/-- Two pipelines are added and a third one is on its way in, when the first has been sent. -/
theorem sent_prefix_two : ∃ w : WorkQueue Nat, w.accepted = [7, 8] ∧ w.caller = .enqueuing 9 ∧
    w.sent = [7] ∧ w.sent <+: w.accepted ++ w.caller.bell.pending := by
  obtain ⟨h, q, w, hrun, hcaller, haccepted, hsent⟩ : ∃ h q w,
      (workQueue Nat (· == 1)).Runs (startedWork Nat) h (q, w) ∧ w.caller = .enqueuing 9 ∧
        w.accepted = [7, 8] ∧ w.sent = [7] :=
    ⟨_, _, _, History.System.runs_of_run [.inr .run, .inr .loop, .inr .add, .inl (.enqueue .canAlloc 7),
      .inl (.producer true), .inl (.producer true), .inr (.notify 1), .inr .add,
      .inl (.enqueue .canAlloc 8), .inl (.producer true), .inr (.read 1), .inl .tryDequeue,
      .inl (.producer true), .inr (.notify 1), .inr .add, .inl .consumer, .inl .consumer, .inl .consumer,
      .inl (.enqueue .canAlloc 9)] rfl, rfl, rfl, rfl⟩
  exact ⟨w, haccepted, hcaller, hsent, sent_prefix_accepted notifies_oneByte hrun⟩

/-- No wake-up is lost: where the worker waits for the pipe and nothing is in it, all that was
added is sent and committed, unless an `Add` is under way. -/
theorem all_sent_of_waiting (hnotify : Notifies pipeNotify)
    (hrun : (workQueue T pipeNotify).Runs (startedWork T) h (q, w)) (hworker : w.worker = .reading)
    (hpipe : w.pipe = 0) (hcaller : w.caller = .idle) :
    w.sent = w.accepted ∧ w.committed = w.sent.length := by
  obtain ⟨hsound, a, -, hinv⟩ := reached hnotify hrun
  exact ⟨hinv.drained (bell_consumer hworker) hpipe (bell_producer hcaller), hsound.count_eq hworker⟩

theorem all_sent_one : ∃ w : WorkQueue Nat, w.accepted = [7] ∧ w.sent = w.accepted ∧
    w.committed = w.sent.length := by
  obtain ⟨h, q, w, hrun, hworker, hpipe, hcaller, -, haccepted⟩ := runs_one
  exact ⟨w, haccepted, all_sent_of_waiting notifies_oneByte hrun hworker hpipe hcaller⟩

/-- What no step changes any more after `Finish`, or after the worker's end. -/
structure WorkQueue.Closed (accepted sent : List T) (finished : Bool) (w : WorkQueue T) : Prop where
  sound : w.Sound
  done : w.done = true
  accepted : w.accepted = accepted
  sent : finished = true → w.finished = true ∧ w.sent = sent

namespace WorkQueue.Closed

variable {accepted sent : List T} {finished : Bool}

theorem note (h : w.Closed accepted sent finished) (hnote : w.note l = some w') :
    w'.Closed accepted sent finished := by
  have hsound := h.sound.note hnote
  cases noted hnote with
  | enqueue hcaller cmd => exact ⟨hsound, h.done, h.accepted, h.sent⟩
  | enqueued hcaller =>
    have hdone := h.sound.not_done hcaller (by simp) (by simp)
    exact absurd (hdone.symm.trans h.done) Bool.false_ne_true
  | refused hcaller => exact ⟨hsound, h.done, h.accepted, h.sent⟩
  | dequeue hworker => exact ⟨hsound, h.done, h.accepted, h.sent⟩
  | dequeued hworker cmd =>
    have hrunning := h.sound.not_finished hworker (by simp)
    exact ⟨hsound, h.done, h.accepted, fun hf =>
      absurd (hrunning.symm.trans (h.sent hf).1) Bool.false_ne_true⟩
  | missed hworker => exact ⟨hsound, h.done, h.accepted, h.sent⟩

theorem act (h : w.Closed accepted sent finished) (hact : w.act pipeNotify d = some w') :
    w'.Closed accepted sent finished := by
  have hsound := h.sound.act hact
  cases acted hact with
  | finish _ => exact ⟨hsound, rfl, h.accepted, h.sent⟩
  | quit _ _ => exact ⟨hsound, h.done, h.accepted, fun hf => ⟨rfl, (h.sent hf).2⟩⟩
  | _ => exact ⟨hsound, h.done, h.accepted, h.sent⟩

end WorkQueue.Closed

/-- Once `Finish` is called nothing more is added, and once the worker has finished nothing
more is sent: what is left in the queue then stays there. -/
theorem nothing_after_finish (hrun : (workQueue T pipeNotify).Runs (startedWork T) h (q, w))
    (hdone : w.done = true) (hmore : (workQueue T pipeNotify).Runs (q, w) h' (q', w')) :
    w'.accepted = w.accepted ∧ (w.finished = true → w'.sent = w.sent) := by
  have hclosed : w'.Closed w.accepted w.sent w.finished :=
    hmore.program (fun _ _ _ hk hnote => hk.note hnote) (fun _ _ _ hk hact => hk.act hact)
      ⟨sound_of_runs hrun, hdone, rfl, fun hf => ⟨hf, rfl⟩⟩
  exact ⟨hclosed.accepted, fun hf => (hclosed.sent hf).2⟩

/-- Two pipelines left in the queue, and an `Add` turned away after `Finish`. -/
theorem nothing_after_finish_unsent : ∃ w w' : WorkQueue Nat, w.accepted = [7, 8] ∧
    w.finished = true ∧ w'.caller = .idle ∧ w'.sent = [] ∧ w'.accepted = w.accepted ∧
    (w.finished = true → w'.sent = w.sent) := by
  obtain ⟨h, q, w, hrun, hworker, -, hcaller, -, haccepted, hsent⟩ := runs_unsent
  have hfinish : (workQueue Nat (· == 1)).Runs (q, w) [.inr .finish]
      (q, { w with caller := .finishing, done := true }) :=
    .one (History.System.guided_inr (by simp [WorkQueue.act, hcaller]))
  have hquit : (workQueue Nat (· == 1)).Runs (q, { w with caller := .finishing, done := true })
      [.inr .quit]
      (q, { w with caller := .finishing, done := true, worker := .stopped, finished := true }) :=
    .one (History.System.guided_inr (by simp [WorkQueue.act, hworker]))
  have hreturn : (workQueue Nat (· == 1)).Runs
      (q, { w with caller := .finishing, done := true, worker := .stopped, finished := true })
      [.inr .finishReturns]
      (q, { w with caller := .idle, done := true, worker := .stopped, finished := true }) :=
    .one (History.System.guided_inr (by simp [WorkQueue.act]))
  have hadd : (workQueue Nat (· == 1)).Runs
      (q, { w with caller := .idle, done := true, worker := .stopped, finished := true }) [.inr .add]
      (q, { w with caller := .idle, done := true, worker := .stopped, finished := true }) :=
    .one (History.System.guided_inr (by simp [WorkQueue.act]))
  exact ⟨{ w with caller := .finishing, done := true, worker := .stopped, finished := true },
    { w with caller := .idle, done := true, worker := .stopped, finished := true }, haccepted, rfl, rfl,
    hsent, nothing_after_finish ((hrun.trans hfinish).trans hquit) rfl (hreturn.trans hadd)⟩

end KjRedis.Work
