import KjRedis.Work.WorkQueue
import KjRedis.Queue.Progress

/-! The connection's thread by itself sends all that was added, and ends once it is told to. -/
namespace KjRedis.Work

open AtomicQueue (Label)

variable {T : Type} {w w' : WorkQueue T} {q q' : Queue.Threads T} {h : List (Label T ⊕ WorkAct)}
  {nCount : Nat} {l : Label T} {d : WorkAct} {pipeNotify : Nat → Bool}

/-- What belongs to the end of the worker. -/
structure WorkQueue.Ends (w : WorkQueue T) : Prop where
  ended : w.worker = .ended → w.done = true
  stopped : w.worker = .stopped → w.finished = true ∧ w.done = true
  finishing : w.caller = .finishing → w.done = true

namespace WorkQueue.Ends

theorem start : (newWorkQueue T).Ends := ⟨by simp [newWorkQueue], by simp [newWorkQueue], by simp [newWorkQueue]⟩

theorem note (h : w.Ends) (hnote : w.note l = some w') : w'.Ends := by
  cases noted hnote with
  | enqueue _ cmd => exact ⟨h.ended, h.stopped, by simp⟩
  | enqueued _ => exact ⟨h.ended, h.stopped, by simp⟩
  | refused _ => exact ⟨h.ended, h.stopped, by simp⟩
  | dequeue _ => exact ⟨by simp, by simp, h.finishing⟩
  | dequeued _ cmd => exact ⟨by simp, by simp, h.finishing⟩
  | missed _ => exact ⟨by simp, by simp, h.finishing⟩

theorem act (h : w.Ends) (hact : w.act pipeNotify d = some w') : w'.Ends := by
  cases acted hact with
  | turnedAway _ _ => exact h
  | add _ _ => exact ⟨h.ended, h.stopped, by simp⟩
  | notify _ _ => exact ⟨h.ended, h.stopped, by simp⟩
  | finish _ => exact ⟨fun _ => rfl, fun hs => ⟨(h.stopped hs).1, rfl⟩, fun _ => rfl⟩
  | finishReturns _ _ => exact ⟨h.ended, h.stopped, by simp⟩
  | run _ => exact ⟨by simp, by simp, h.finishing⟩
  | loopEnds _ hdone => exact ⟨fun _ => hdone, by simp, h.finishing⟩
  | loop _ _ => exact ⟨by simp, by simp, h.finishing⟩
  | read _ _ => exact ⟨by simp, by simp, h.finishing⟩
  | quit _ hdone => exact ⟨by simp, fun _ => ⟨rfl, hdone⟩, h.finishing⟩

end WorkQueue.Ends

theorem ends_of_runs (hrun : (workQueue T pipeNotify).Runs (startedWork T) h (q, w)) : w.Ends :=
  hrun.program (P := WorkQueue.Ends) (fun _ _ _ hk hnote => hk.note hnote) (fun _ _ _ hk hact => hk.act hact)
    .start

/-- The worker's calls of the queue. -/
def Worker.calls : Queue.Event T → Bool
  | .tryDequeue => true
  | .consumer => true
  | _ => false

/-- What the worker does between its calls. -/
def Worker.acts : WorkAct → Bool
  | .run => true
  | .loop => true
  | .read _ => true
  | .quit => true
  | _ => false

/-- The worker by itself, while the caller's thread stands still. -/
def workerAlone (T : Type) (pipeNotify : Nat → Bool) :=
  (workQueue T pipeNotify).restrict (Sum.elim Worker.calls Worker.acts)

/-- What a step of the worker leaves to the caller as it is. -/
structure WorkQueue.Same (w w' : WorkQueue T) : Prop where
  caller : w'.caller = w.caller
  done : w'.done = w.done
  accepted : w'.accepted = w.accepted
  pipe : w'.pipe ≤ w.pipe

theorem WorkQueue.Same.trans {w'' : WorkQueue T} (h : w.Same w') (h' : w'.Same w'') : w.Same w'' :=
  ⟨h'.caller.trans h.caller, h'.done.trans h.done, h'.accepted.trans h.accepted, h'.pipe.trans h.pipe⟩

/-- A call of `try_dequeue` that is under way comes to its end. -/
theorem runs_noted (hnotify : Notifies pipeNotify)
    (hrun : (workQueue T pipeNotify).Runs (startedWork T) h (q, w)) (hworker : w.worker = .dequeuing nCount) :
    ∃ r h' q' w', w.note (.dequeued r) = some w' ∧ (workerAlone T pipeNotify).Runs (q, w) h' (q', w') := by
  obtain ⟨-, a, ⟨ℓ, hh⟩, hinv⟩ := reached hnotify hrun
  obtain ⟨qq, p, c⟩ := q
  cases c with
  | idle =>
    have hidle : a.consumer = .idle := hh.consumer
    have hc := hinv.consumer
    rw [bell_consumer hworker] at hc
    rcases hc with ⟨_, hcall, _⟩ | ⟨_, hret, _⟩
    · rw [hidle] at hcall
      cases hcall
    · rw [hidle] at hret
      cases hret
  | inside pc =>
    obtain ⟨r, qq', hcall⟩ := @Queue.runs_dequeued T 512 Worker.calls rfl qq p pc
    obtain ⟨w', hnote⟩ : ∃ w', w.note (.dequeued r) = some w' := by
      simp only [WorkQueue.note, hworker]
      cases r with
      | some cmd => exact ⟨_, rfl⟩
      | none => exact ⟨_, rfl⟩
    have hfold : [.dequeued r].foldlM WorkQueue.note w = some w' := by simp [hnote]
    have hguided : (((Queue.threads T 512).restrict Worker.calls).guided WorkQueue.note
        fun w d => if Worker.acts d then w.act pipeNotify d else none).Runs
          (⟨qq, p, .inside pc⟩, w) [.inl (.dequeued r)] (⟨qq', p, .idle⟩, w') := hcall.guided hfold
    rw [History.System.guided_restrict] at hguided
    exact ⟨r, _, _, w', hnote, hguided⟩

/-- How many elements the worker can still find. -/
def WorkQueue.left (w : WorkQueue T) : Nat :=
  (w.accepted ++ w.caller.bell.pending).length - w.sent.length

/-- The worker calls `try_dequeue`. -/
theorem runs_called (qq : Queue.ReaderWriterQueue T) (p : Queue.Producer T)
    (hworker : w.worker = .draining nCount) :
    (workerAlone T pipeNotify).Runs ((⟨qq, p, .idle⟩ : Queue.Threads T), w) [.inl .dequeue]
      (⟨qq, p, .inside qq.startDequeue⟩, { w with worker := .dequeuing nCount }) := by
  have hnext : (Queue.threads T 512).next ⟨qq, p, .idle⟩ .tryDequeue =
      some ([.dequeue], ⟨qq, p, .inside qq.startDequeue⟩) := rfl
  have hnote : [Label.dequeue].foldlM WorkQueue.note w = some { w with worker := .dequeuing nCount } := by
    simp [WorkQueue.note, hworker]
  have hcalled : (workQueue T pipeNotify).next (⟨qq, p, .idle⟩, w) (.inl .tryDequeue) = some
      ([.inl .dequeue], (⟨qq, p, .inside qq.startDequeue⟩, { w with worker := .dequeuing nCount })) :=
    History.System.guided_inl hnext hnote
  exact .one (History.System.restrict_next rfl hcalled)

/-- The worker drains the queue to its end and goes back to the pipe. -/
theorem runs_drained (hnotify : Notifies pipeNotify)
    (hrun : (workQueue T pipeNotify).Runs (startedWork T) h (q, w)) (hworker : w.worker = .dequeuing nCount) :
    ∃ h' q' w', (workerAlone T pipeNotify).Runs (q, w) h' (q', w') ∧ w'.worker = .looping ∧ w.Same w' := by
  induction hleft : w.left using Nat.strong_induction_on generalizing h q w nCount with
  | _ n ih =>
    obtain ⟨r, h₁, q₁, w₁, hnote, hrun₁⟩ := runs_noted hnotify hrun hworker
    cases WorkQueue.noted hnote with
    | missed _ => exact ⟨h₁, q₁, _, hrun₁, rfl, rfl, rfl, rfl, Nat.le_refl _⟩
    | @dequeued nCount' hworker' cmd =>
      -- one more element is sent, and the worker asks for the next one
      have hreached := hrun.trans hrun₁.unrestrict
      have hle := (sent_prefix_accepted hnotify hreached).length_le
      obtain ⟨-, a, ⟨ℓ, hh⟩, hinv⟩ := reached hnotify hreached
      obtain ⟨qq, p, c⟩ := q₁
      cases c with
      | inside pc =>
        obtain ⟨seen, hcall, -⟩ := hh.consumerAt
        have hidle := hinv.consumer.1
        rw [hcall] at hidle
        cases hidle
      | idle =>
        have hagain := @runs_called _ { w with worker := .draining (nCount' + 1), sent := w.sent ++ [cmd] }
          (nCount' + 1) pipeNotify qq p rfl
        have hlt : ({ w with worker := .dequeuing (nCount' + 1), sent := w.sent ++ [cmd] } :
            WorkQueue T).left < n := by
          rw [← hleft]
          simp only [WorkQueue.left, List.length_append, List.length_singleton] at hle ⊢
          omega
        obtain ⟨h₂, q₂, w₂, hrun₂, hlooping, hsame⟩ :=
          ih _ hlt (hreached.trans hagain.unrestrict) rfl rfl
        exact ⟨_, q₂, w₂, (hrun₁.trans hagain).trans hrun₂, hlooping, hsame.caller, hsame.done,
          hsame.accepted, hsame.pipe⟩

/-- Once the worker is woken, it comes back to the pipe. -/
theorem runs_served (hnotify : Notifies pipeNotify)
    (hrun : (workQueue T pipeNotify).Runs (startedWork T) h (q, w)) (hworker : w.worker = .draining nCount) :
    ∃ h' q' w', (workerAlone T pipeNotify).Runs (q, w) h' (q', w') ∧ w'.worker = .looping ∧ w.Same w' := by
  obtain ⟨-, a, ⟨ℓ, hh⟩, hinv⟩ := reached hnotify hrun
  obtain ⟨qq, p, c⟩ := q
  cases c with
  | inside pc =>
    obtain ⟨seen, hcall, -⟩ := hh.consumerAt
    have hidle := hinv.consumer
    rw [bell_consumer hworker] at hidle
    rw [hidle.1] at hcall
    cases hcall
  | idle =>
    have hcall := @runs_called _ w nCount pipeNotify qq p hworker
    obtain ⟨h', q', w', hrest, hlooping, hsame⟩ :=
      runs_drained hnotify (hrun.trans hcall.unrestrict) rfl
    exact ⟨_, q', w', hcall.trans hrest, hlooping, hsame.caller, hsame.done, hsame.accepted, hsame.pipe⟩

/-- One step of the worker between its calls. -/
theorem runs_act (hact : w.act pipeNotify d = some w') (hacts : Worker.acts d = true) :
    (workerAlone T pipeNotify).Runs (q, w) [.inr d] (q, w') := by
  have hnext : (workQueue T pipeNotify).next (q, w) (.inr d) = some ([.inr d], (q, w')) :=
    History.System.guided_inr hact
  have hallowed : Sum.elim (@Worker.calls T) Worker.acts (.inr d) = true := hacts
  exact .one (History.System.restrict_next hallowed hnext)

/-- The worker reads from the pipe what is in it, up to 1024 bytes. -/
theorem runs_read (hworker : w.worker = .reading) (hpipe : w.pipe ≠ 0) :
    (workerAlone T pipeNotify).Runs (q, w) [.inr (.read (min w.pipe 1024))]
      (q, { w with worker := .draining 0, pipe := w.pipe - min w.pipe 1024 }) := by
  refine runs_act ?_ rfl
  simp only [WorkQueue.act, hworker]
  rw [if_pos (by omega)]

/-- From the start of `read_pipe_loop` the worker comes to wait for a pipe with nothing in it. -/
theorem runs_rest (hnotify : Notifies pipeNotify)
    (hrun : (workQueue T pipeNotify).Runs (startedWork T) h (q, w)) (hworker : w.worker = .looping)
    (hdone : w.done = false) : ∃ h' q' w', (workerAlone T pipeNotify).Runs (q, w) h' (q', w') ∧
      w'.worker = .reading ∧ w'.pipe = 0 ∧ w.Same w' := by
  induction hpipe : w.pipe using Nat.strong_induction_on generalizing h q w with
  | _ n ih =>
    have hloop : (workerAlone T pipeNotify).Runs (q, w) [.inr .loop] (q, { w with worker := .reading }) :=
      runs_act (by simp [WorkQueue.act, hworker, hdone]) rfl
    by_cases hzero : w.pipe = 0
    · exact ⟨_, q, _, hloop, rfl, hzero, rfl, rfl, rfl, Nat.le_refl _⟩
    · have hread := @runs_read _ { w with worker := .reading } q pipeNotify rfl hzero
      have hwoken := hloop.trans hread
      obtain ⟨h₁, q₁, w₁, hrun₁, hlooping, hsame⟩ :=
        runs_served hnotify (hrun.trans hwoken.unrestrict) rfl
      have hpipe₁ : w₁.pipe ≤ w.pipe - min w.pipe 1024 := hsame.pipe
      have hround := hwoken.trans hrun₁
      obtain ⟨h₂, q₂, w₂, hrun₂, hreading, hrest, hsame₂⟩ := ih w₁.pipe (by omega)
        (hrun.trans hround.unrestrict) hlooping (hsame.done.trans hdone) rfl
      refine ⟨_, q₂, w₂, hround.trans hrun₂, hreading, hrest, ?_⟩
      exact ⟨hsame₂.caller.trans hsame.caller, hsame₂.done.trans hsame.done,
        hsame₂.accepted.trans hsame.accepted, by have := hsame₂.pipe; omega⟩

/-- From wherever it is, a worker that has started comes back to the start of `read_pipe_loop`,
unless it has already ended. -/
theorem runs_looping (hnotify : Notifies pipeNotify)
    (hrun : (workQueue T pipeNotify).Runs (startedWork T) h (q, w)) (hstarted : w.worker ≠ .starting) :
    (w.worker = .reading ∨ w.worker = .ended ∨ w.worker = .stopped) ∨
      ∃ h' q' w', (workerAlone T pipeNotify).Runs (q, w) h' (q', w') ∧ w'.worker = .looping ∧
        w.Same w' := by
  cases hworker : w.worker with
  | starting => exact absurd hworker hstarted
  | looping => exact .inr ⟨[], q, w, .refl _, hworker, rfl, rfl, rfl, Nat.le_refl _⟩
  | reading => exact .inl (.inl rfl)
  | draining nCount => exact .inr (runs_served hnotify hrun hworker)
  | dequeuing nCount => exact .inr (runs_drained hnotify hrun hworker)
  | ended => exact .inl (.inr (.inl rfl))
  | stopped => exact .inl (.inr (.inr rfl))

/-- Whatever has happened before, a worker that has started and is not told to end can by its own
steps send and commit all that was added, while the caller is outside `Add`. -/
theorem worker_catches_up (hnotify : Notifies pipeNotify)
    (hrun : (workQueue T pipeNotify).Runs (startedWork T) h (q, w)) (hstarted : w.worker ≠ .starting)
    (hdone : w.done = false) (hcaller : w.caller = .idle) :
    ∃ h' q' w', (workerAlone T pipeNotify).Runs (q, w) h' (q', w') ∧ w'.accepted = w.accepted ∧
      w'.sent = w.accepted ∧ w'.committed = w.accepted.length := by
  have hends := ends_of_runs hrun
  have hfrom : ∀ {h₁ q₁ w₁}, (workerAlone T pipeNotify).Runs (q, w) h₁ (q₁, w₁) →
      w₁.worker = .looping → w.Same w₁ →
      ∃ h' q' w', (workerAlone T pipeNotify).Runs (q, w) h' (q', w') ∧ w'.accepted = w.accepted ∧
        w'.sent = w.accepted ∧ w'.committed = w.accepted.length := by
    intro h₁ q₁ w₁ hrun₁ hlooping hsame
    obtain ⟨h₂, q₂, w₂, hrun₂, hreading, hpipe, hsame₂⟩ :=
      runs_rest hnotify (hrun.trans hrun₁.unrestrict) hlooping (hsame.done.trans hdone)
    have hrun' := hrun₁.trans hrun₂
    have hsame' := hsame.trans hsame₂
    obtain ⟨hsent, hcommitted⟩ := all_sent_of_waiting hnotify (hrun.trans hrun'.unrestrict) hreading
      hpipe (hsame'.caller.trans hcaller)
    exact ⟨_, q₂, w₂, hrun', hsame'.accepted, hsent.trans hsame'.accepted,
      hcommitted.trans (congrArg List.length (hsent.trans hsame'.accepted))⟩
  rcases runs_looping hnotify hrun hstarted with
    (hreading | hended | hstopped) | ⟨h₁, q₁, w₁, hrun₁, hlooping, hsame⟩
  · by_cases hpipe : w.pipe = 0
    · obtain ⟨hsent, hcommitted⟩ := all_sent_of_waiting hnotify hrun hreading hpipe hcaller
      exact ⟨[], q, w, .refl _, rfl, hsent, hcommitted.trans (congrArg List.length hsent)⟩
    · have hread := @runs_read _ w q pipeNotify hreading hpipe
      obtain ⟨h₁, q₁, w₁, hrun₁, hlooping, hsame⟩ :=
        runs_served hnotify (hrun.trans hread.unrestrict) rfl
      refine hfrom (hread.trans hrun₁) hlooping ⟨hsame.caller, hsame.done, hsame.accepted, ?_⟩
      have hle : w₁.pipe ≤ w.pipe - min w.pipe 1024 := hsame.pipe
      omega
  · exact absurd ((hends.ended hended).symm.trans hdone) (by decide)
  · exact absurd ((hends.stopped hstopped).2.symm.trans hdone) (by decide)
  · exact hfrom hrun₁ hlooping hsame

/-- Two pipelines in the queue and nothing sent yet. -/
theorem worker_catches_up_unsent : ∃ (t : Queue.Threads Nat × WorkQueue Nat)
    (h' : List (Label Nat ⊕ WorkAct)) (q' : Queue.Threads Nat) (w' : WorkQueue Nat),
    t.2.accepted = [7, 8] ∧ t.2.sent = [] ∧ (workerAlone Nat (· == 1)).Runs t h' (q', w') ∧
      w'.accepted = t.2.accepted ∧ w'.sent = t.2.accepted ∧ w'.committed = t.2.accepted.length := by
  obtain ⟨h, q, w, hrun, hworker, -, hcaller, hdone, haccepted, hsent⟩ := runs_unsent
  obtain ⟨h', q', w', hcaught⟩ :=
    worker_catches_up notifies_oneByte hrun (by simp [hworker]) hdone hcaller
  exact ⟨(q, w), h', q', w', haccepted, hsent, hcaught⟩

/-- `Finish` does not wait for ever: the worker, once it has started, can end by itself wherever
it is. -/
theorem finish_returns (hnotify : Notifies pipeNotify)
    (hrun : (workQueue T pipeNotify).Runs (startedWork T) h (q, w)) (hstarted : w.worker ≠ .starting)
    (hcaller : w.caller = .finishing) : ∃ h' q' w', (workQueue T pipeNotify).Runs (q, w) h' (q', w') ∧
      w'.worker = .stopped ∧ w'.caller = .idle ∧ w'.accepted = w.accepted := by
  have hends := ends_of_runs hrun
  have hdone := hends.finishing hcaller
  have hreturn : ∀ q₁ w₁, w₁.finished = true → w₁.caller = .finishing →
      (workQueue T pipeNotify).Runs (q₁, w₁) [.inr .finishReturns] (q₁, { w₁ with caller := .idle }) := by
    intro q₁ w₁ hfinished hfinishing
    exact .one (History.System.guided_inr (by simp [WorkQueue.act, hfinishing, hfinished]))
  have hquit : ∀ {h₁ q₁ w₁}, (workerAlone T pipeNotify).Runs (q, w) h₁ (q₁, w₁) →
      w₁.worker = .reading ∨ w₁.worker = .ended → w.Same w₁ →
      ∃ h' q' w', (workQueue T pipeNotify).Runs (q, w) h' (q', w') ∧ w'.worker = .stopped ∧
        w'.caller = .idle ∧ w'.accepted = w.accepted := by
    intro h₁ q₁ w₁ hrun₁ hworker hsame
    have hstop : (workerAlone T pipeNotify).Runs (q₁, w₁) [.inr .quit]
        (q₁, { w₁ with worker := .stopped, finished := true }) := by
      refine runs_act ?_ rfl
      rcases hworker with hworker | hworker
      · simp [WorkQueue.act, hworker, hsame.done, hdone]
      · simp [WorkQueue.act, hworker, hsame.done, hdone]
    have hend := hreturn q₁ { w₁ with worker := .stopped, finished := true } rfl
      (hsame.caller.trans hcaller)
    exact ⟨_, q₁, _, (hrun₁.trans hstop).unrestrict.trans hend, rfl, rfl, hsame.accepted⟩
  rcases runs_looping hnotify hrun hstarted with
    (hreading | hended | hstopped) | ⟨h₁, q₁, w₁, hrun₁, hlooping, hsame⟩
  · exact hquit (.refl _) (.inl hreading) ⟨rfl, rfl, rfl, Nat.le_refl _⟩
  · exact hquit (.refl _) (.inr hended) ⟨rfl, rfl, rfl, Nat.le_refl _⟩
  · exact ⟨_, q, _, hreturn q w (hends.stopped hstopped).1 hcaller, hstopped, rfl, rfl⟩
  · have hloop : (workerAlone T pipeNotify).Runs (q₁, w₁) [.inr .loop] (q₁, { w₁ with worker := .ended }) :=
      runs_act (by simp [WorkQueue.act, hlooping, hsame.done, hdone]) rfl
    exact hquit (hrun₁.trans hloop) (.inr rfl) ⟨hsame.caller, hsame.done, hsame.accepted, hsame.pipe⟩

theorem finish_returns_unsent : ∃ (t : Queue.Threads Nat × WorkQueue Nat)
    (h' : List (Label Nat ⊕ WorkAct)) (q' : Queue.Threads Nat) (w' : WorkQueue Nat),
    t.2.accepted = [7, 8] ∧ (workQueue Nat (· == 1)).Runs t h' (q', w') ∧ w'.worker = .stopped ∧
      w'.caller = .idle ∧ w'.accepted = t.2.accepted := by
  obtain ⟨h, q, w, hrun, hworker, -, hcaller, -, haccepted, -⟩ := runs_unsent
  have hfinish : (workQueue Nat (· == 1)).Runs (q, w) [.inr .finish]
      (q, { w with caller := .finishing, done := true }) :=
    .one (History.System.guided_inr (by simp [WorkQueue.act, hcaller]))
  obtain ⟨h', q', w', hfinished⟩ :=
    finish_returns notifies_oneByte (hrun.trans hfinish) (by simp [hworker]) rfl
  exact ⟨(q, { w with caller := .finishing, done := true }), h', q', w', haccepted, hfinished⟩

end KjRedis.Work
