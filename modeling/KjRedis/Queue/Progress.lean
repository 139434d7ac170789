import KjRedis.Queue.ReaderWriterQueue

/-! The calls end: none waits for the other thread. -/
namespace KjRedis.Queue

open AtomicQueue (Label)

variable {T : Type} {M : Nat} {s s' : Threads T} {q q' : ReaderWriterQueue T} {h : List (Label T)}
  {es : List (Event T)}

/-- How many steps `inner_enqueue` takes at most from there on. -/
def EnqueueAt.rank : EnqueueAt → Nat
  | .loadFront _ _ _ => 6
  | .loadFrontBlock _ => 5
  | .loadNextFront _ => 4
  | .putNextElement _ _ _ => 3
  | .makeBlock _ => 3
  | .storeNextTail _ _ => 2
  | .storeNext _ _ => 2
  | .putElement _ _ _ => 2
  | .storeTailBlock _ => 1
  | .storeTail _ _ => 1

def DequeueAt.rank : DequeueAt T → Nat
  | .loadTail _ _ => 8
  | .loadTailBlock _ => 7
  | .reloadTail => 6
  | .loadNext _ => 5
  | .loadNextTail _ _ => 4
  | .storeFrontBlock _ _ _ => 3
  | .takeElement _ _ => 2
  | .storeFront _ _ _ => 1

theorem EnqueueAt.rank_le (pc : EnqueueAt) : pc.rank ≤ 6 := by
  cases pc <;> simp [rank]

theorem DequeueAt.rank_le (pc : DequeueAt T) : pc.rank ≤ 8 := by
  cases pc <;> simp [rank]

theorem EnqueueAt.rank_pos (pc : EnqueueAt) : 0 < pc.rank := by
  cases pc <;> simp [rank]

theorem DequeueAt.rank_pos (pc : DequeueAt T) : 0 < pc.rank := by
  cases pc <;> simp [rank]

theorem enqueueStep_rank {mode : AllocationMode} {x : T} {malloc : Bool} {pc pc' : EnqueueAt}
    (hstep : q.enqueueStep M mode x malloc pc = (q', .inl pc')) : pc'.rank < pc.rank := by
  cases pc with
  | loadFront tb bt nbt =>
    simp only [ReaderWriterQueue.enqueueStep] at hstep
    split at hstep <;> cases hstep
    · exact (by decide : 2 < 6)
    · exact (by decide : 5 < 6)
  | loadFrontBlock tb =>
    simp only [ReaderWriterQueue.enqueueStep] at hstep
    split at hstep
    · cases hstep
      exact (by decide : 4 < 5)
    · cases mode with
      | canAlloc =>
        cases hstep
        exact (by decide : 3 < 5)
      | cannotAlloc => cases hstep
  | makeBlock tb =>
    simp only [ReaderWriterQueue.enqueueStep] at hstep
    split at hstep <;> cases hstep
    exact (by decide : 2 < 3)
  | putElement tb bt nbt =>
    cases hstep
    exact (by decide : 1 < 2)
  | loadNextFront nb =>
    cases hstep
    exact (by decide : 3 < 4)
  | putNextElement nb nbf nbt =>
    cases hstep
    exact (by decide : 2 < 3)
  | storeNextTail nb nbt =>
    cases hstep
    exact (by decide : 1 < 2)
  | storeNext tb nb =>
    cases hstep
    exact (by decide : 1 < 2)
  | storeTail tb nbt => cases hstep
  | storeTailBlock b => cases hstep

theorem dequeueStep_rank {pc pc' : DequeueAt T} (hstep : q.dequeueStep pc = (q', .inl pc')) :
    pc'.rank < pc.rank := by
  cases pc with
  | loadTail fb bf =>
    simp only [ReaderWriterQueue.dequeueStep] at hstep
    split at hstep <;> cases hstep
    · exact (by decide : 2 < 8)
    · exact (by decide : 7 < 8)
  | loadTailBlock fb =>
    simp only [ReaderWriterQueue.dequeueStep] at hstep
    split at hstep <;> cases hstep
    exact (by decide : 6 < 7)
  | reloadTail =>
    simp only [ReaderWriterQueue.dequeueStep] at hstep
    split at hstep <;> cases hstep
    · exact (by decide : 2 < 6)
    · exact (by decide : 5 < 6)
  | loadNext fb =>
    cases hstep
    exact (by decide : 4 < 5)
  | loadNextTail nb nbf =>
    cases hstep
    exact (by decide : 3 < 4)
  | storeFrontBlock nb nbf nbt =>
    cases hstep
    exact (by decide : 2 < 3)
  | takeElement fb bf =>
    cases hstep
    exact (by decide : 1 < 2)
  | storeFront fb bf r => cases hstep

def Event.ofProducer : Event T → Bool
  | .producer _ => true
  | _ => false

def Event.ofConsumer : Event T → Bool
  | .consumer => true
  | _ => false

/-- What one step does to a call of the producer: it goes on as it was, it comes nearer to its
end, or it returns. -/
theorem next_producer {e : Event T} {out : List (Label T)} {mode : AllocationMode} {x : T} {pc : EnqueueAt}
    (hnext : s.next M e = some (out, s')) (hpc : s.producer = .inside mode x pc) :
    (∃ ok, .enqueued ok ∈ out) ∨
      ∃ pc', s'.producer = .inside mode x pc' ∧ pc'.rank + (if e.ofProducer then 1 else 0) ≤ pc.rank := by
  obtain ⟨q, p, c⟩ := s
  obtain rfl : p = .inside mode x pc := hpc
  cases e with
  | enqueue mode' y => cases hnext
  | producer malloc =>
    simp only [Threads.next] at hnext
    rcases hstep : q.enqueueStep M mode x malloc pc with ⟨q', pc' | ok⟩
    · rw [hstep] at hnext
      cases hnext
      exact .inr ⟨pc', rfl, enqueueStep_rank hstep⟩
    · rw [hstep] at hnext
      cases hnext
      exact .inl ⟨ok, List.mem_cons_self⟩
  | tryDequeue =>
    cases c with
    | idle =>
      cases hnext
      exact .inr ⟨pc, rfl, Nat.le_refl _⟩
    | inside pc' => cases hnext
  | consumer =>
    cases c with
    | idle => cases hnext
    | inside pc' =>
      simp only [Threads.next] at hnext
      rcases hstep : q.dequeueStep pc' with ⟨q', pc'' | r⟩
      · rw [hstep] at hnext
        cases hnext
        exact .inr ⟨pc, rfl, Nat.le_refl _⟩
      · rw [hstep] at hnext
        cases hnext
        exact .inr ⟨pc, rfl, Nat.le_refl _⟩

theorem next_consumer {e : Event T} {out : List (Label T)} {pc : DequeueAt T}
    (hnext : s.next M e = some (out, s')) (hpc : s.consumer = .inside pc) :
    (∃ r, .dequeued r ∈ out) ∨
      ∃ pc', s'.consumer = .inside pc' ∧ pc'.rank + (if e.ofConsumer then 1 else 0) ≤ pc.rank := by
  obtain ⟨q, p, c⟩ := s
  obtain rfl : c = .inside pc := hpc
  cases e with
  | enqueue mode x =>
    cases p with
    | idle =>
      cases hnext
      exact .inr ⟨pc, rfl, Nat.le_refl _⟩
    | inside mode' x' pc' => cases hnext
  | producer malloc =>
    cases p with
    | idle => cases hnext
    | inside mode x pc' =>
      simp only [Threads.next] at hnext
      rcases hstep : q.enqueueStep M mode x malloc pc' with ⟨q', pc'' | ok⟩
      · rw [hstep] at hnext
        cases hnext
        exact .inr ⟨pc, rfl, Nat.le_refl _⟩
      · rw [hstep] at hnext
        cases hnext
        exact .inr ⟨pc, rfl, Nat.le_refl _⟩
  | tryDequeue => cases hnext
  | consumer =>
    simp only [Threads.next] at hnext
    rcases hstep : q.dequeueStep pc with ⟨q', pc' | r⟩
    · rw [hstep] at hnext
      cases hnext
      exact .inr ⟨pc', rfl, dequeueStep_rank hstep⟩
    · rw [hstep] at hnext
      cases hnext
      exact .inl ⟨r, List.mem_cons_self⟩

theorem enqueued_of_rank {mode : AllocationMode} {x : T} {pc : EnqueueAt}
    (hrun : (threads T M).run s es = some (h, s')) (hpc : s.producer = .inside mode x pc)
    (hcount : pc.rank ≤ es.countP Event.ofProducer) : ∃ ok, .enqueued ok ∈ h := by
  induction es generalizing s h pc with
  | nil => exact absurd hcount (Nat.not_le_of_lt pc.rank_pos)
  | cons e es ih =>
    obtain ⟨⟨out, t⟩, hnext, hrest⟩ := Option.bind_eq_some_iff.1 hrun
    obtain ⟨⟨more, t'⟩, hmore, heq⟩ := Option.bind_eq_some_iff.1 hrest
    obtain ⟨rfl, rfl⟩ := Prod.mk.inj (Option.some.inj heq)
    rcases next_producer hnext hpc with ⟨ok, hmem⟩ | ⟨pc', hpc', hrank⟩
    · exact ⟨ok, List.mem_append_left more hmem⟩
    · rw [List.countP_cons] at hcount
      obtain ⟨ok, hmem⟩ := ih hmore hpc' (by omega)
      exact ⟨ok, List.mem_append_right out hmem⟩

theorem dequeued_of_rank {pc : DequeueAt T} (hrun : (threads T M).run s es = some (h, s'))
    (hpc : s.consumer = .inside pc) (hcount : pc.rank ≤ es.countP Event.ofConsumer) :
    ∃ r, .dequeued r ∈ h := by
  induction es generalizing s h pc with
  | nil => exact absurd hcount (Nat.not_le_of_lt pc.rank_pos)
  | cons e es ih =>
    obtain ⟨⟨out, t⟩, hnext, hrest⟩ := Option.bind_eq_some_iff.1 hrun
    obtain ⟨⟨more, t'⟩, hmore, heq⟩ := Option.bind_eq_some_iff.1 hrest
    obtain ⟨rfl, rfl⟩ := Prod.mk.inj (Option.some.inj heq)
    rcases next_consumer hnext hpc with ⟨r, hmem⟩ | ⟨pc', hpc', hrank⟩
    · exact ⟨r, List.mem_append_left more hmem⟩
    · rw [List.countP_cons] at hcount
      obtain ⟨r, hmem⟩ := ih hmore hpc' (by omega)
      exact ⟨r, List.mem_append_right out hmem⟩

/-- Neither thread waits for the other: whatever the other does meanwhile, a call of `enqueue`
has returned after six steps of its own, and one of `try_dequeue` after eight. -/
theorem wait_free (es : List (Event T)) (hrun : (threads T M).run s es = some (h, s')) :
    (∀ mode x pc, s.producer = .inside mode x pc → 6 ≤ es.countP Event.ofProducer →
        ∃ ok, .enqueued ok ∈ h) ∧
      ∀ pc, s.consumer = .inside pc → 8 ≤ es.countP Event.ofConsumer → ∃ r, .dequeued r ∈ h :=
  ⟨fun _ _ pc hpc hcount => enqueued_of_rank hrun hpc (pc.rank_le.trans hcount),
    fun pc hpc hcount => dequeued_of_rank hrun hpc (pc.rank_le.trans hcount)⟩

/-- The producer finds its block full and makes another, while the consumer calls twice. -/
theorem wait_free_both : ∃ h : List (Label Nat), (∃ ok, .enqueued ok ∈ h) ∧ ∃ r, .dequeued r ∈ h := by
  have hfree := @wait_free Nat 2
    ⟨construct 2 1, .inside .canAlloc 9 (.loadFrontBlock 0), .inside (.loadTail 0 0)⟩ _ _
    [.producer true, .consumer, .producer true, .consumer, .producer true, .tryDequeue, .consumer,
      .producer true, .consumer, .enqueue .canAlloc 10, .producer true, .consumer, .producer true,
      .consumer, .consumer, .consumer, .consumer] rfl
  exact ⟨_, hfree.1 _ _ _ rfl (by decide), hfree.2 _ rfl (by decide)⟩

/-- The consumer by itself comes to the end of its call. -/
theorem runs_dequeued {allowed : Event T → Bool} (hallowed : allowed .consumer = true)
    (q : ReaderWriterQueue T) (p : Producer T) (pc : DequeueAt T) :
    ∃ r q', ((threads T M).restrict allowed).Runs ⟨q, p, .inside pc⟩ [.dequeued r] ⟨q', p, .idle⟩ := by
  induction hrank : pc.rank using Nat.strong_induction_on generalizing q pc with
  | _ n ih =>
    rcases hstep : q.dequeueStep pc with ⟨q₁, pc₁ | r⟩
    · have hone : (threads T M).next ⟨q, p, .inside pc⟩ .consumer = some ([], ⟨q₁, p, .inside pc₁⟩) := by
        simp [threads, Threads.next, hstep]
      obtain ⟨r, q', hrest⟩ := ih _ (hrank ▸ dequeueStep_rank hstep) q₁ pc₁ rfl
      exact ⟨r, q', (History.System.Runs.one (History.System.restrict_next hallowed hone)).trans hrest⟩
    · have hone : (threads T M).next ⟨q, p, .inside pc⟩ .consumer = some ([.dequeued r], ⟨q₁, p, .idle⟩) := by
        simp [threads, Threads.next, hstep]
      exact ⟨r, q₁, .one (History.System.restrict_next hallowed hone)⟩

end KjRedis.Queue
