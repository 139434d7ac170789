import KjRedis.Work.WorkQueue

/-! `CRedisClientTrunkQueue`: the connection's thread puts callbacks with their replies into a
`CCamelReaderWriterQueue` and writes to the pipe, and the caller's thread runs them.
`CRedisSubscriberTrunkQueue` is the same code. -/
namespace KjRedis.Work

open AtomicQueue (Label)

variable {T : Type} {pipeNotify : Nat → Bool}

/-- Where the connection's thread is in `Add`. -/
inductive Adder (T : Type)
  | idle
  /-- `_close` was not set. -/
  | adding
  | enqueuing (workCb : T)
  | notifying

/-- Where the caller's thread is in `RunOnce`. -/
inductive Runner
  | waiting
  /-- `_close` is not set. -/
  | looking
  | dequeuing
  | running
  deriving DecidableEq

/-- `added` has been put into the queue, `ran` has been taken from it and called. -/
structure TrunkQueue (T : Type) where
  adder : Adder T
  runner : Runner
  pipe : Nat
  close : Bool
  added : List T
  ran : List T

def newTrunkQueue (T : Type) : TrunkQueue T :=
  { adder := .idle, runner := .waiting, pipe := 0, close := false, added := [], ran := [] }

/-- `notify` is the end of `Add`, with the bytes it writes to the pipe. `runOnce` comes after
`amount` bytes were read from the pipe, none of them where `RunOnce` is called without a wake-up.
Only the caller's thread sets `_close`, between two calls of `RunOnce` or in a callback, so its
check of `_close` belongs to the step before. A callback does not call `RunOnce` itself. -/
inductive TrunkAct
  | add
  | notify (bytes : Nat)
  | runOnce (amount : Nat)
  | returned
  | close

namespace TrunkQueue

def note (t : TrunkQueue T) : Label T → Option (TrunkQueue T)
  | .enqueue workCb =>
    match t.adder with
    | .adding => some { t with adder := .enqueuing workCb }
    | _ => none
  | .enqueued ok =>
    match t.adder with
    | .enqueuing workCb =>
      some { t with adder := .notifying, added := if ok then t.added ++ [workCb] else t.added }
    | _ => none
  | .dequeue =>
    match t.runner with
    | .looking => some { t with runner := .dequeuing }
    | _ => none
  | .dequeued r =>
    match t.runner with
    | .dequeuing =>
      match r with
      | some workCb => some { t with runner := .running, ran := t.ran ++ [workCb] }
      | none => some { t with runner := .waiting }
    | _ => none

/-- Nothing asks whether `_callbacks->Add` has taken the callback: the pipe is written to in
either case. -/
def act (pipeNotify : Nat → Bool) (t : TrunkQueue T) : TrunkAct → Option (TrunkQueue T)
  | .add =>
    match t.adder with
    | .idle => some { t with adder := if t.close then .notifying else .adding }
    | _ => none
  | .notify bytes =>
    match t.adder with
    | .notifying =>
      if pipeNotify bytes then some { t with adder := .idle, pipe := t.pipe + bytes } else none
    | _ => none
  | .runOnce amount =>
    match t.runner with
    | .waiting =>
      if amount ≤ t.pipe then
        some { t with runner := if t.close then .waiting else .looking, pipe := t.pipe - amount }
      else none
    | _ => none
  | .returned =>
    match t.runner with
    | .running => some { t with runner := if t.close then .waiting else .looking }
    | _ => none
  | .close =>
    match t.runner with
    | .waiting => some { t with close := true }
    | .running => some { t with close := true }
    | _ => none

end TrunkQueue

/-- Both threads, with each access of theirs to `_callbacks(256)` a step of its own. -/
def trunkQueue (T : Type) (pipeNotify : Nat → Bool) :=
  (Queue.threads T 512).guided TrunkQueue.note (TrunkQueue.act pipeNotify)

def startedTrunk (T : Type) : Queue.Threads T × TrunkQueue T := (Queue.started T 512 256, newTrunkQueue T)

variable {t t' : TrunkQueue T} {l : Label T} {d : TrunkAct}

namespace TrunkQueue

inductive Noted (t : TrunkQueue T) : Label T → TrunkQueue T → Prop
  | enqueue (h : t.adder = .adding) (workCb : T) :
    Noted t (.enqueue workCb) { t with adder := .enqueuing workCb }
  | enqueued {workCb : T} (h : t.adder = .enqueuing workCb) :
    Noted t (.enqueued true) { t with adder := .notifying, added := t.added ++ [workCb] }
  | refused {workCb : T} (h : t.adder = .enqueuing workCb) :
    Noted t (.enqueued false) { t with adder := .notifying }
  | dequeue (h : t.runner = .looking) : Noted t .dequeue { t with runner := .dequeuing }
  | dequeued (h : t.runner = .dequeuing) (workCb : T) :
    Noted t (.dequeued (some workCb)) { t with runner := .running, ran := t.ran ++ [workCb] }
  | missed (h : t.runner = .dequeuing) : Noted t (.dequeued none) { t with runner := .waiting }

inductive Acted (pipeNotify : Nat → Bool) (t : TrunkQueue T) : TrunkQueue T → Prop
  | add (h : t.adder = .idle) (hclose : t.close = false) : Acted pipeNotify t { t with adder := .adding }
  | drop (h : t.adder = .idle) (hclose : t.close = true) : Acted pipeNotify t { t with adder := .notifying }
  | notify (h : t.adder = .notifying) {bytes : Nat} (hwritten : pipeNotify bytes = true) :
    Acted pipeNotify t { t with adder := .idle, pipe := t.pipe + bytes }
  | runOnce (h : t.runner = .waiting) (hclose : t.close = false) {amount : Nat} (hle : amount ≤ t.pipe) :
    Acted pipeNotify t { t with runner := .looking, pipe := t.pipe - amount }
  | ignore (h : t.runner = .waiting) (hclose : t.close = true) (pipe : Nat) : Acted pipeNotify t { t with pipe }
  | returned (h : t.runner = .running) (hclose : t.close = false) : Acted pipeNotify t { t with runner := .looking }
  | returnedLast (h : t.runner = .running) (hclose : t.close = true) : Acted pipeNotify t { t with runner := .waiting }
  | close (h : t.runner = .waiting ∨ t.runner = .running) : Acted pipeNotify t { t with close := true }

theorem noted (hnote : t.note l = some t') : t.Noted l t' := by
  cases l with
  | enqueue workCb =>
    simp only [note] at hnote
    split at hnote <;> cases hnote
    next hadder => exact .enqueue hadder workCb
  | enqueued ok =>
    simp only [note] at hnote
    split at hnote <;> cases hnote
    next workCb hadder =>
      cases ok with
      | true => exact .enqueued hadder
      | false => exact .refused hadder
  | dequeue =>
    simp only [note] at hnote
    split at hnote <;> cases hnote
    next hrunner => exact .dequeue hrunner
  | dequeued r =>
    simp only [note] at hnote
    split at hnote
    · next hrunner =>
      cases r with
      | some workCb =>
        cases hnote
        exact .dequeued hrunner workCb
      | none =>
        cases hnote
        exact .missed hrunner
    · cases hnote

theorem acted (hact : t.act pipeNotify d = some t') : t.Acted pipeNotify t' := by
  cases d with
  | add =>
    simp only [act] at hact
    split at hact <;> cases hact
    next hadder =>
      split
      · next hclose => exact .drop hadder hclose
      · next hclose => exact .add hadder (Bool.not_eq_true _ ▸ hclose)
  | notify bytes =>
    simp only [act] at hact
    split at hact
    · next hadder =>
      split at hact <;> cases hact
      next hwritten => exact .notify hadder hwritten
    · cases hact
  | runOnce amount =>
    simp only [act] at hact
    split at hact
    · next hrunner =>
      split at hact <;> cases hact
      next hle =>
        split
        · next hclose =>
          rw [← hrunner]
          exact .ignore hrunner hclose _
        · next hclose => exact .runOnce hrunner (Bool.not_eq_true _ ▸ hclose) hle
    · cases hact
  | returned =>
    simp only [act] at hact
    split at hact <;> cases hact
    next hrunner =>
      split
      · next hclose => exact .returnedLast hrunner hclose
      · next hclose => exact .returned hrunner (Bool.not_eq_true _ ▸ hclose)
  | close =>
    simp only [act] at hact
    split at hact
    · next hrunner =>
      cases hact
      exact .close (.inl hrunner)
    · next hrunner =>
      cases hact
      exact .close (.inr hrunner)
    · cases hact

/-- After `Close` the queue is not looked at any more. -/
def Sound (t : TrunkQueue T) : Prop := t.close = true → t.runner = .waiting ∨ t.runner = .running

theorem Sound.not_close (h : t.Sound) {runner : Runner} (hrunner : t.runner = runner)
    (hwaiting : runner ≠ .waiting) (hrunning : runner ≠ .running) : t.close = false := by
  by_contra hclose
  rcases h (Bool.not_eq_false _ ▸ hclose) with heq | heq
  · exact hwaiting (hrunner.symm.trans heq)
  · exact hrunning (hrunner.symm.trans heq)

theorem Sound.note (h : t.Sound) (hnote : t.note l = some t') : t'.Sound := by
  cases noted hnote with
  | enqueue _ _ => exact h
  | enqueued _ => exact h
  | refused _ => exact h
  | dequeue hrunner =>
    have hclose := h.not_close hrunner (by simp) (by simp)
    exact fun hc => absurd (hclose.symm.trans hc) Bool.false_ne_true
  | dequeued _ _ => exact fun _ => .inr rfl
  | missed _ => exact fun _ => .inl rfl

theorem Sound.act (h : t.Sound) (hact : t.act pipeNotify d = some t') : t'.Sound := by
  cases acted hact with
  | add _ _ => exact h
  | drop _ _ => exact h
  | notify _ _ => exact h
  | runOnce _ hclose => exact fun hc => absurd (hclose.symm.trans hc) Bool.false_ne_true
  | ignore hrunner _ _ => exact fun _ => .inl hrunner
  | returned _ hclose => exact fun hc => absurd (hclose.symm.trans hc) Bool.false_ne_true
  | returnedLast _ _ => exact fun _ => .inl rfl
  | close hrunner => exact fun _ => hrunner

end TrunkQueue

def Adder.bell : Adder T → Doorbell.Producer T
  | .enqueuing workCb => .putting workCb
  | .notifying => .ringing
  | _ => .idle

/-- A runner that waits with `_close` set will not look again. -/
def Runner.bell (close : Bool) : Runner → Doorbell.Consumer
  | .waiting => if close then .stopped else .waiting
  | .dequeuing => .taking
  | _ => .looking

def TrunkQueue.bell (t : TrunkQueue T) : Doorbell.Control T :=
  { producer := t.adder.bell, consumer := t.runner.bell t.close, accepted := t.added, taken := t.ran
    rings := t.pipe }

theorem bell_adder {adder : Adder T} (h : t.adder = adder) : t.bell.producer = adder.bell :=
  congrArg Adder.bell h

theorem bell_runner {runner : Runner} (h : t.runner = runner) : t.bell.consumer = runner.bell t.close :=
  congrArg (Runner.bell t.close) h

theorem trunk_still (h : t'.bell = t.bell) : t.bell.Acts t'.bell := h ▸ .still t.bell

theorem trunkQueue_follows (hnotify : Notifies pipeNotify) :
    Doorbell.Follows (@TrunkQueue.note T) (TrunkQueue.act pipeNotify) TrunkQueue.bell TrunkQueue.Sound where
  okNote _ _ _ hsound hnote := hsound.note hnote
  okAct _ _ _ hsound hact := hsound.act hact
  notes t l t' hsound hnote := by
    cases TrunkQueue.noted hnote with
    | enqueue h workCb => exact .enqueue (bell_adder h) workCb
    | enqueued h => exact .accepted (bell_adder h)
    | refused h => exact .refused (bell_adder h) (by simp [Adder.bell])
    | dequeue h => exact .dequeue (bell_runner h)
    | dequeued h workCb => exact .taken (bell_runner h) workCb
    | missed h =>
      have hclose := hsound.not_close h (by simp) (by simp)
      have hmissed : t.bell.Notes (.dequeued none) { t.bell with consumer := .waiting } :=
        .missed (bell_runner h)
      simpa [TrunkQueue.bell, Runner.bell, hclose] using hmissed
  acts t d t' _ hact := by
    cases TrunkQueue.acted hact with
    | add h hclose => exact trunk_still (by simp [TrunkQueue.bell, h, Adder.bell])
    | drop h hclose => exact .reach (bell_adder h)
    | @notify h bytes hwritten =>
      refine .ring (fun x hput => ?_) (hnotify bytes hwritten)
      rw [bell_adder h] at hput
      cases hput
    | runOnce h hclose hle =>
      refine .hear ?_ hle
      rw [bell_runner h, hclose]
      rfl
    | ignore h hclose pipe =>
      refine .ignore ?_ pipe
      rw [bell_runner h, hclose]
      rfl
    | returned h hclose => exact trunk_still (by simp [TrunkQueue.bell, h, Runner.bell])
    | returnedLast h hclose =>
      have hstop : t.bell.Acts { t.bell with consumer := .stopped } := by
        refine .stop fun htaking => ?_
        rw [bell_runner h] at htaking
        cases htaking
      simpa [TrunkQueue.bell, Runner.bell, hclose] using hstop
    | close h =>
      rcases h with h | h
      · have hstop : t.bell.Acts { t.bell with consumer := .stopped } := by
          refine .stop fun htaking => ?_
          rw [bell_runner h] at htaking
          cases hclose : t.close with
          | true =>
            rw [hclose] at htaking
            cases htaking
          | false =>
            rw [hclose] at htaking
            cases htaking
        simpa [TrunkQueue.bell, Runner.bell, h] using hstop
      · exact trunk_still (by simp [TrunkQueue.bell, h, Runner.bell])

variable {q q' : Queue.Threads T} {h h' : List (Label T ⊕ TrunkAct)}

theorem trunk_sound (hrun : (trunkQueue T pipeNotify).Runs (startedTrunk T) h (q, t)) : t.Sound :=
  hrun.program (P := TrunkQueue.Sound) (fun _ _ _ hk hnote => hk.note hnote)
    (fun _ _ _ hk hact => hk.act hact) (by simp [startedTrunk, newTrunkQueue, TrunkQueue.Sound])

theorem trunk_reached (hnotify : Notifies pipeNotify)
    (hrun : (trunkQueue T pipeNotify).Runs (startedTrunk T) h (q, t)) :
    t.Sound ∧ ∃ a, Queue.Related 512 256 a q ∧ Doorbell.Inv a t.bell :=
  Doorbell.inv_of_runs (trunkQueue_follows hnotify) (Queue.simulates (by decide))
    (Queue.related_started sizes_callbacks) (by simp [newTrunkQueue, TrunkQueue.Sound]) rfl hrun

/-- Two callbacks in the queue, of which a `RunOnce` without a wake-up has run the first and is
about to look for the other. -/
theorem trunk_runs_two : ∃ h q t, (trunkQueue Nat (· == 1)).Runs (startedTrunk Nat) h (q, t) ∧
    t.runner = .running ∧ t.pipe = 2 ∧ t.adder = .idle ∧ t.close = false ∧ t.added = [7, 8] ∧
    t.ran = [7] :=
  ⟨_, _, _, History.System.runs_of_run [.inr .add, .inl (.enqueue .canAlloc 7), .inl (.producer true),
    .inl (.producer true), .inr (.runOnce 0), .inl .tryDequeue, .inl .consumer, .inl .consumer,
    .inl .consumer, .inr (.notify 1), .inr .add, .inl (.enqueue .canAlloc 8), .inl (.producer true),
    .inl (.producer true), .inr (.notify 1)] rfl, rfl, rfl, rfl, rfl, rfl, rfl⟩

/-- The callbacks run in the order of their replies, none of them twice; and where the caller's
thread has read all that was written to the pipe, all of them have run, unless the queue is closed
or an `Add` is under way. -/
theorem callbacks_run (hnotify : Notifies pipeNotify)
    (hrun : (trunkQueue T pipeNotify).Runs (startedTrunk T) h (q, t)) :
    t.ran <+: t.added ++ t.adder.bell.pending ∧
      (t.runner = .waiting → t.pipe = 0 → t.adder = .idle → t.close = false → t.ran = t.added) := by
  obtain ⟨-, a, -, hinv⟩ := trunk_reached hnotify hrun
  refine ⟨hinv.taken_prefix, fun hrunner hpipe hadder hclose => hinv.drained ?_ hpipe (bell_adder hadder)⟩
  rw [bell_runner hrunner, hclose]
  rfl

theorem callbacks_run_two : ∃ t : TrunkQueue Nat, t.added = [7, 8] ∧ t.ran = [7] ∧
    t.ran <+: t.added ++ t.adder.bell.pending ∧
      (t.runner = .waiting → t.pipe = 0 → t.adder = .idle → t.close = false → t.ran = t.added) := by
  obtain ⟨h, q, t, hrun, -, -, -, -, hadded, hran⟩ := trunk_runs_two
  exact ⟨t, hadded, hran, callbacks_run notifies_oneByte hrun⟩

/-- What stays as it is once the queue is closed. -/
structure TrunkQueue.Closed (ran : List T) (t : TrunkQueue T) : Prop where
  sound : t.Sound
  close : t.close = true
  ran : t.ran = ran

namespace TrunkQueue.Closed

variable {ran : List T}

theorem note (h : t.Closed ran) (hnote : t.note l = some t') : t'.Closed ran := by
  have hsound := h.sound.note hnote
  cases noted hnote with
  | dequeued hrunner _ =>
    have hclose := h.sound.not_close hrunner (by simp) (by simp)
    exact absurd (hclose.symm.trans h.close) Bool.false_ne_true
  | _ => exact ⟨hsound, h.close, h.ran⟩

theorem act (h : t.Closed ran) (hact : t.act pipeNotify d = some t') : t'.Closed ran := by
  have hsound := h.sound.act hact
  cases acted hact with
  | close _ => exact ⟨hsound, rfl, h.ran⟩
  | _ => exact ⟨hsound, h.close, h.ran⟩

end TrunkQueue.Closed

/-- Once the queue is closed no further callback is run, whatever the connection's thread
still adds. -/
theorem none_run_after_close (hrun : (trunkQueue T pipeNotify).Runs (startedTrunk T) h (q, t))
    (hclose : t.close = true) (hmore : (trunkQueue T pipeNotify).Runs (q, t) h' (q', t')) :
    t'.ran = t.ran :=
  (hmore.program (P := TrunkQueue.Closed t.ran) (fun _ _ _ hk hnote => hk.note hnote)
    (fun _ _ _ hk hact => hk.act hact) ⟨trunk_sound hrun, hclose, rfl⟩).ran

/-- The first callback closes the queue, and the other is left in it. -/
theorem none_run_after_close_two : ∃ t t' : TrunkQueue Nat, t.close = true ∧ t.added = [7, 8] ∧
    t.ran = [7] ∧ t'.runner = .waiting ∧ t'.pipe = 0 ∧ t'.adder = .notifying ∧ t'.ran = t.ran := by
  obtain ⟨h, q, t, hrun, hrunner, hpipe, hadder, -, hadded, hran⟩ := trunk_runs_two
  have hclose : (trunkQueue Nat (· == 1)).Runs (q, t) [.inr .close] (q, { t with close := true }) :=
    .one (History.System.guided_inr (by simp [TrunkQueue.act, hrunner]))
  have hreturn : (trunkQueue Nat (· == 1)).Runs (q, { t with close := true }) [.inr .returned]
      (q, { t with close := true, runner := .waiting }) :=
    .one (History.System.guided_inr (by simp [TrunkQueue.act, hrunner]))
  have hrunOnce : (trunkQueue Nat (· == 1)).Runs (q, { t with close := true, runner := .waiting })
      [.inr (.runOnce 2)] (q, { t with close := true, runner := .waiting, pipe := 0 }) :=
    .one (History.System.guided_inr (by simp [TrunkQueue.act, hpipe]))
  have hadd : (trunkQueue Nat (· == 1)).Runs (q, { t with close := true, runner := .waiting, pipe := 0 })
      [.inr .add] (q, { t with close := true, runner := .waiting, pipe := 0, adder := .notifying }) :=
    .one (History.System.guided_inr (by simp [TrunkQueue.act, hadder]))
  exact ⟨{ t with close := true },
    { t with close := true, runner := .waiting, pipe := 0, adder := .notifying }, rfl, hadded, hran, rfl,
    rfl, rfl, none_run_after_close (hrun.trans hclose) rfl ((hreturn.trans hrunOnce).trans hadd)⟩

end KjRedis.Work
