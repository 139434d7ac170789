import KjRedis.Queue.Teardown

/-! What the two threads, and whoever deletes the queue after them, may rely on. -/
namespace KjRedis.Queue

open AtomicQueue (Label Ledger ledger)

variable {T : Type} {M m : Nat} {s s' : Threads T} {h : List (Label T)}

/-- A queue for one element, in blocks of two slots. -/
theorem sizes_two_one : Sizes 2 1 := ⟨by decide, by decide, 1, by decide, rfl⟩

/-- Two calls that overlap, and one that comes too late. -/
theorem runs_overlapping : ∃ s, (threads Nat 2).Runs (started Nat 2 1)
    [.enqueue 5, .dequeue, .enqueued true, .dequeued (some 5), .dequeue, .dequeued none] s ∧
      s.producer = .idle ∧ s.consumer = .idle :=
  ⟨_, History.System.runs_of_run [.enqueue .canAlloc 5, .producer true, .tryDequeue, .producer true,
    .consumer, .consumer, .consumer, .tryDequeue, .consumer, .consumer] rfl, rfl, rfl⟩

/-- Two elements in two blocks, of which the consumer is about to take the second while the
producer is about to put a third into the first block. -/
theorem runs_busy : ∃ s, (threads Nat 2).Runs (started Nat 2 1)
    [.enqueue 5, .enqueued true, .enqueue 6, .enqueued true, .dequeue, .dequeued (some 5), .dequeue,
      .enqueue 7] s ∧
      s.producer = .inside .canAlloc 7 (.putNextElement 0 1 1) ∧
      s.consumer = .inside (.takeElement 1 0) :=
  ⟨_, History.System.runs_of_run [.enqueue .canAlloc 5, .producer true, .producer true,
    .enqueue .canAlloc 6, .producer true, .producer true, .producer true, .producer true,
    .producer true, .tryDequeue, .consumer, .consumer, .consumer, .tryDequeue, .consumer, .consumer,
    .consumer, .consumer, .consumer, .consumer, .enqueue .canAlloc 7, .producer true, .producer true,
    .producer true] rfl, rfl, rfl⟩

/-- Three elements in three blocks, and the first taken. -/
theorem runs_filled : ∃ s, (threads Nat 2).Runs (started Nat 2 1)
    [.enqueue 5, .enqueued true, .enqueue 6, .enqueued true, .enqueue 7, .enqueued true, .dequeue,
      .dequeued (some 5)] s ∧ s.producer = .idle ∧ s.consumer = .idle :=
  ⟨_, History.System.runs_of_run [.enqueue .canAlloc 5, .producer true, .producer true,
    .enqueue .canAlloc 6, .producer true, .producer true, .producer true, .producer true,
    .producer true, .enqueue .canAlloc 7, .producer true, .producer true, .producer true,
    .producer true, .producer true, .tryDequeue, .consumer, .consumer, .consumer] rfl, rfl, rfl⟩

/-- The calls of the two threads show what they would show if each took effect at one moment
between its start and its return. -/
theorem linearizable (hs : Sizes M m) (hrun : (threads T M).Runs (started T M m) h s) :
    ∃ a, (AtomicQueue.system T).Runs (AtomicQueue.empty T) h a := by
  obtain ⟨a, habs, -⟩ := related_of_runs hs hrun
  exact ⟨a, habs⟩

theorem linearizable_overlapping : ∃ a, (AtomicQueue.system Nat).Runs (AtomicQueue.empty Nat)
    [.enqueue 5, .dequeue, .enqueued true, .dequeued (some 5), .dequeue, .dequeued none] a := by
  obtain ⟨s, hrun, -, -⟩ := runs_overlapping
  exact linearizable sizes_two_one hrun

/-- The elements come out in the order in which they went in, none of them twice, and none
is left out. -/
theorem taken_prefix_accepted (hs : Sizes M m) (hrun : (threads T M).Runs (started T M m) h s) :
    (ledger h).taken <+: (ledger h).accepted ++ (ledger h).pending.toList := by
  obtain ⟨a, habs, -⟩ := related_of_runs hs hrun
  exact AtomicQueue.taken_prefix habs

theorem taken_prefix_accepted_busy : [5] <+: [5, 6] ++ (some 7).toList := by
  obtain ⟨s, hrun, -, -⟩ := runs_busy
  exact taken_prefix_accepted sizes_two_one hrun

/-- `try_dequeue` fails only where all that was in the queue when it was called is taken. -/
theorem all_taken_of_missed (hs : Sizes M m) (hrun : (threads T M).Runs (started T M m) h s)
    (hmissed : (ledger h).missed = true) : (ledger h).acceptedBefore <+: (ledger h).taken := by
  obtain ⟨a, habs, -⟩ := related_of_runs hs hrun
  exact AtomicQueue.accepted_taken_of_missed habs hmissed

theorem all_taken_of_missed_overlapping : ([5] : List Nat) <+: [5] := by
  obtain ⟨s, hrun, -, -⟩ := runs_overlapping
  exact all_taken_of_missed sizes_two_one hrun rfl

/-- The producer knows of `n` elements that have been in the queue during its call: each of
them was accepted, and not taken when the call started. -/
theorem Holding.since_le {ℓ : Layout T} {a : AtomicQueue.State T} {mode : AllocationMode} {x : T}
    {pc : EnqueueAt} {n : Nat} (hh : Holding M m ℓ a s) (hk : AtomicQueue.Known (ledger h) a)
    (hp : s.producer = .inside mode x pc) (hat : ∀ k, ProducerAt m ℓ s.queue x k pc → n ≤ k) :
    n ≤ (ledger h).accepted.length - (ledger h).takenBefore := by
  have hprod := hh.producer
  rw [hp] at hprod
  obtain ⟨since, hcall, -, hpc⟩ := hprod
  have hknown := hk.producer
  rw [hcall] at hknown
  obtain ⟨-, hentered, hbefore⟩ := hknown
  have hle := hat _ hpc
  rw [hentered] at hle
  omega

/-- A call allocates, or returns false, only where as many elements as the queue was made for
had been accepted and not taken when it started. -/
theorem full_of_allocation_or_refusal (hs : Sizes M m) (hrun : (threads T M).Runs (started T M m) h s)
    (malloc : Bool) {out : List (Label T)} (hnext : s.next M (.producer malloc) = some (out, s'))
    (hout : s'.queue.made ≠ s.queue.made ∨ out = [.enqueued false]) :
    m ≤ (ledger h).accepted.length - (ledger h).takenBefore := by
  obtain ⟨a, habs, ℓ, hh⟩ := related_of_runs hs hrun
  have hk := AtomicQueue.known_of_runs habs
  obtain ⟨q, p, c⟩ := s
  cases p with
  | idle => cases hnext
  | inside mode x pc =>
    simp only [Threads.next] at hnext
    refine hh.since_le hk rfl fun k hat => ?_
    cases pc with
    | makeBlock tb => exact hat.2.2
    | loadFrontBlock tb =>
      simp only [ReaderWriterQueue.enqueueStep] at hnext
      split at hnext
      · next heq =>
        split at heq
        · cases heq
          cases hnext
          exact absurd hout (by simp)
        · cases mode with
          | canAlloc =>
            cases heq
            cases hnext
            exact absurd hout (by simp)
          | cannotAlloc => cases heq
      · next heq =>
        split at heq
        · cases heq
        · next hnot => exact hat.2.2 (not_not.1 hnot)
    | loadFront tb bt nbt =>
      simp only [ReaderWriterQueue.enqueueStep] at hnext
      split at hnext
      · next heq =>
        split at heq
        · cases heq
          cases hnext
          exact absurd hout (by simp [ReaderWriterQueue.modify])
        · cases heq
          cases hnext
          exact absurd hout (by simp [ReaderWriterQueue.modify])
      · next heq => split at heq <;> cases heq
    | _ =>
      cases hnext
      exact absurd hout (by simp [ReaderWriterQueue.modify])

theorem full_of_refusal_two :
    1 ≤ (ledger ([.enqueue 5, .enqueued true, .enqueue 6] : List (Label Nat))).accepted.length -
      (ledger ([.enqueue 5, .enqueued true, .enqueue 6] : List (Label Nat))).takenBefore :=
  full_of_allocation_or_refusal sizes_two_one
    (History.System.runs_of_run [.enqueue .canAlloc 5, .producer true, .producer true,
      .enqueue .cannotAlloc 6, .producer true] rfl) true rfl (.inr rfl)

/-- An element is built on raw memory, in a block that is empty where the code asserts it. -/
def EnqueueAt.Sound (q : ReaderWriterQueue T) : EnqueueAt → Prop
  | .putElement tailBlock blockTail _ => (q.blocks tailBlock).data blockTail = none
  | .putNextElement block blockFront blockTail =>
    blockFront = blockTail ∧ (q.blocks block).data blockTail = none
  | _ => True

/-- An element is moved out of a slot that holds one, in a block that is not empty where the
code asserts it. -/
def DequeueAt.Sound (q : ReaderWriterQueue T) : DequeueAt T → Prop
  | .storeFrontBlock block blockFront blockTail =>
    blockFront ≠ blockTail ∧ ((q.blocks block).data blockFront).isSome
  | .takeElement frontBlock blockFront => ((q.blocks frontBlock).data blockFront).isSome
  | .storeFront _ _ result => result.isSome
  | _ => True

theorem Holding.enqueueAt_sound {ℓ : Layout T} {a : AtomicQueue.State T} {mode : AllocationMode} {x : T}
    {pc : EnqueueAt} (hh : Holding M m ℓ a s) (hp : s.producer = .inside mode x pc) :
    pc.Sound s.queue := by
  obtain ⟨q, p, c⟩ := s
  obtain rfl : p = .inside mode x pc := hp
  obtain ⟨since, -, -, hat⟩ := hh.producerAt
  cases pc with
  | putElement tb bt nbt =>
    obtain ⟨rfl, rfl, -, -⟩ := hat
    exact (hh.shape.holds _ hh.shape.tailBlock_mem).data_tail
  | putNextElement block bf bt =>
    obtain ⟨hhead, -, rfl, rfl⟩ := hat
    have hholds := hh.shape.holds _ (hh.shape.head_mem hhead)
    refine ⟨hholds.front_eq_tail_iff.2 ?_, hholds.data_tail⟩
    exact hh.ahead block (List.mem_of_mem_head? hhead)
  | _ => trivial

theorem Holding.dequeueAt_sound {ℓ : Layout T} {a : AtomicQueue.State T} {pc : DequeueAt T}
    (hh : Holding M m ℓ a s) (hc : s.consumer = .inside pc) : pc.Sound s.queue := by
  obtain ⟨q, p, c⟩ := s
  obtain rfl : c = .inside pc := hc
  obtain ⟨seen, -, hat⟩ := hh.consumerAt
  have hsome : ∀ {b : Nat}, b ∈ ℓ.live → (Consumer.inside pc).takenAt b = false →
      (q.blocks b).Knows (ℓ.contents b) 1 → ((q.blocks b).data (q.blocks b).front).isSome := by
    intro b hb htaken hknows
    have hholds : (q.blocks b).Holds (ℓ.contents b) ((Consumer.inside pc).takenAt b) (p.builtAt b) :=
      hh.shape.holds b (List.mem_append_left _ hb)
    obtain ⟨x, xs, hx⟩ := List.exists_cons_of_ne_nil hknows.ne_nil
    rw [htaken, hx] at hholds
    rw [hholds.data_front]
    rfl
  cases pc with
  | storeFrontBlock block bf bt =>
    obtain ⟨htail, -, rfl, rfl, hassert, hknows⟩ := hat
    obtain ⟨rest, hlive⟩ := hh.shape.ring.live_cons htail
    refine ⟨hassert, hsome ?_ rfl hknows⟩
    rw [hlive]
    exact List.mem_cons_of_mem _ List.mem_cons_self
  | takeElement fb bf =>
    obtain ⟨rfl, rfl, hknows⟩ := hat
    exact hsome hh.shape.ring.front_mem rfl hknows
  | storeFront fb bf r =>
    obtain ⟨rfl, -, hknows, rfl⟩ := hat
    obtain ⟨x, xs, hx⟩ := List.exists_cons_of_ne_nil hknows.ne_nil
    show (ℓ.contents q.frontBlock).head?.isSome
    rw [hx]
    rfl
  | _ => trivial

/-- No thread touches a slot that is not as the code takes it to be, wherever the other
thread is. -/
theorem sound (hs : Sizes M m) (hrun : (threads T M).Runs (started T M m) h s) :
    (∀ mode x pc, s.producer = .inside mode x pc → pc.Sound s.queue) ∧
      ∀ pc, s.consumer = .inside pc → pc.Sound s.queue := by
  obtain ⟨a, -, ℓ, hh⟩ := related_of_runs hs hrun
  exact ⟨fun _ _ _ hp => hh.enqueueAt_sound hp, fun _ hc => hh.dequeueAt_sound hc⟩

theorem sound_busy : ∃ s : Threads Nat, (EnqueueAt.putNextElement 0 1 1).Sound s.queue ∧
    (DequeueAt.takeElement 1 0).Sound s.queue := by
  obtain ⟨s, hrun, hp, hc⟩ := runs_busy
  obtain ⟨henqueue, hdequeue⟩ := sound sizes_two_one hrun
  exact ⟨s, henqueue _ _ _ hp, hdequeue _ hc⟩

/-- Deleted while no call is under way, the queue destroys the elements that were accepted
and not taken, and frees every block it has made, each once. -/
theorem destroy_of_runs (hs : Sizes M m) (hrun : (threads T M).Runs (started T M m) h s)
    (hp : s.producer = .idle) (hc : s.consumer = .idle) :
    ∃ freed, s.queue.destroy = some
        (((ledger h).accepted.drop (ledger h).taken.length).map some, freed) ∧
      freed.Perm (List.range s.queue.made) := by
  obtain ⟨a, habs, ℓ, hh⟩ := related_of_runs hs hrun
  have hk := AtomicQueue.known_of_runs habs
  have haccepted : a.entered = (ledger h).accepted := by
    have hprod := hh.producer
    have hknown := hk.producer
    rw [hp] at hprod
    rw [show a.producer = .idle from hprod] at hknown
    exact hknown.2
  have hleft : (ledger h).taken.length = a.left := by
    have hcons := hh.consumer
    have hknown := hk.consumer
    rw [hc] at hcons
    rw [show a.consumer = .idle from hcons] at hknown
    rw [hknown.1, List.length_take, Nat.min_eq_left hk.left_le]
  refine ⟨ℓ.ring, ?_, hh.ring_perm hp⟩
  rw [hh.destroy hp hc, hleft, ← haccepted]
  rfl

theorem destroy_filled : ∃ (s : Threads Nat) (freed : List Nat),
    s.queue.destroy = some ([some 6, some 7], freed) ∧ freed.Perm (List.range s.queue.made) := by
  obtain ⟨s, hrun, hp, hc⟩ := runs_filled
  exact ⟨s, destroy_of_runs sizes_two_one hrun hp hc⟩

end KjRedis.Queue
