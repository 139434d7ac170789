import KjRedis.Queue.Producer

/-! The steps of `try_dequeue`: each keeps the relation, and the one that gives the slot
free takes the element out of the queue. -/
namespace KjRedis.Queue

open AtomicQueue (Label)

variable {T : Type} {M m : Nat} {ℓ : Layout T} {q : ReaderWriterQueue T} {a : AtomicQueue.State T}
  {p : Producer T} {taken : Nat → Bool} {built : Nat → Option T} {b fb bf nb nbf nbt : Nat}
  {xs : List T}

/-- The consumer changes what is its own in one block in use. -/
theorem ConsumerKeeps.modify (f : Block T → Block T) (hb : b ∈ ℓ.live)
    (htail : (f (q.blocks b)).tail = (q.blocks b).tail)
    (hmask : (f (q.blocks b)).sizeMask = (q.blocks b).sizeMask)
    (hnext : (f (q.blocks b)).next = (q.blocks b).next)
    (hxs : b = q.frontBlock ∨ xs = ℓ.contents b)
    (hroom : ∀ n, (q.blocks b).Room (ℓ.contents b) n → (f (q.blocks b)).Room xs n) :
    ConsumerKeeps ℓ (ℓ.set b xs) q (q.modify b f) where
  made := rfl
  largestBlockSize := rfl
  tailBlock := rfl
  frontBlock := id
  tail := modify_field Block.tail f htail
  sizeMask := modify_field Block.sizeMask f hmask
  next := modify_field Block.next f hnext
  room := by
    intro n hn
    by_cases heq : q.tailBlock = b
    · rw [heq, blocks_modify_self, Layout.contents_set_self]
      exact hroom n (heq ▸ hn)
    · rw [blocks_modify_of_ne f heq, Layout.contents_set_of_ne heq]
      exact hn
  filled := by
    intro hne
    refine ⟨hne, ?_⟩
    by_cases heq : q.tailBlock = b
    · rcases hxs with hfront | hxs
      · exact absurd (heq.trans hfront) hne
      · rw [heq, hxs, Layout.set_contents]
    · exact Layout.contents_set_of_ne heq
  block := fun c hc => blocks_modify_of_ne f fun heq => hc (heq ▸ hb)
  contents := fun c hc => Layout.contents_set_of_ne fun heq => hc (heq ▸ hb)
  spare := fun _ => id
  ring := fun _ => Iff.rfl

theorem ConsumerKeeps.refl (ℓ : Layout T) (q : ReaderWriterQueue T) : ConsumerKeeps ℓ ℓ q q :=
  ⟨rfl, rfl, rfl, id, fun _ => rfl, fun _ => rfl, fun _ => rfl, fun _ => id, fun h => ⟨h, rfl⟩,
    fun _ _ => rfl, fun _ _ => rfl, fun _ => id, fun _ => Iff.rfl⟩

/-- What a step of the consumer has to come to. -/
def DequeueFollows (M m : Nat) (a : AtomicQueue.State T) (p : Producer T) :
    ReaderWriterQueue T × (DequeueAt T ⊕ Option T) → Prop
  | (q, .inl pc) => ∃ a', (AtomicQueue.system T).Runs a [] a' ∧ Related M m a' ⟨q, p, .inside pc⟩
  | (q, .inr r) => ∃ a', (AtomicQueue.system T).Runs a [.dequeued r] a' ∧ Related M m a' ⟨q, p, .idle⟩

theorem Holding.consumerAt {pc : DequeueAt T} (h : Holding M m ℓ a ⟨q, p, .inside pc⟩) :
    ∃ seenEmpty, a.consumer = .calling seenEmpty ∧ ConsumerAt ℓ q seenEmpty pc := h.consumer

/-- A call that goes on, and may have seen the queue empty. -/
theorem Holding.dequeueGoesOn {pc pc' : DequeueAt T} {q' : ReaderWriterQueue T} {ℓ' : Layout T}
    {seen : Bool} (h : Holding M m ℓ a ⟨q, p, .inside pc⟩)
    (hshape : Shape ℓ' q' (Consumer.inside pc').takenAt p.builtAt)
    (hahead : ∀ b ∈ ℓ'.spare, ℓ'.contents b = p.aheadIn b) (hcapacity : Capacity M m ℓ' q')
    (hlen : ℓ'.ring.length = ℓ.ring.length) (hitems : ℓ'.items = ℓ.items)
    (hkeep : ConsumerKeeps ℓ ℓ' q q') (hpc : ConsumerAt ℓ' q' seen pc') :
    Holding M m ℓ' { a with consumer := .calling seen } ⟨q', p, .inside pc'⟩ where
  shape := hshape
  ahead := hahead
  capacity := hcapacity
  all := by
    show q'.made = _
    rw [hkeep.made, hlen]
    exact h.all
  left_le := h.left_le
  items := h.items.trans hitems.symm
  producer := h.producer.mono rfl rfl (Nat.le_refl _) h.shape hkeep
  consumer := ⟨seen, rfl, hpc⟩

/-- The same, where nothing was seen. -/
theorem Holding.dequeueFollows {pc pc' : DequeueAt T} {q' : ReaderWriterQueue T} {ℓ' : Layout T}
    {seen : Bool} (h : Holding M m ℓ a ⟨q, p, .inside pc⟩) (hcall : a.consumer = .calling seen)
    (hshape : Shape ℓ' q' (Consumer.inside pc').takenAt p.builtAt)
    (hahead : ∀ b ∈ ℓ'.spare, ℓ'.contents b = p.aheadIn b) (hcapacity : Capacity M m ℓ' q')
    (hlen : ℓ'.ring.length = ℓ.ring.length) (hitems : ℓ'.items = ℓ.items)
    (hkeep : ConsumerKeeps ℓ ℓ' q q') (hpc : ConsumerAt ℓ' q' seen pc') : DequeueFollows M m a p (q', .inl pc') := by
  have hholding := h.dequeueGoesOn hshape hahead hcapacity hlen hitems hkeep hpc
  rw [← hcall] at hholding
  exact ⟨a, .refl a, ℓ', hholding⟩

/-- The block the producer fills ahead of the consumer is none of those in use. -/
theorem Holding.aheadIn_live {s : Threads T} (h : Holding M m ℓ a s) (hb : b ∈ ℓ.live) :
    s.producer.aheadIn b = [] := by
  have hprod := h.producer
  cases hp : s.producer with
  | idle => rfl
  | inside mode x pc =>
    rw [hp] at hprod
    obtain ⟨since, -, -, hat⟩ := hprod
    cases pc with
    | storeTailBlock block =>
      refine if_neg ?_
      rintro rfl
      exact h.shape.head_ne hat.1 hb rfl
    | _ => rfl

/-- The consumer takes down a block's tail. -/
theorem Holding.reload {pc : DequeueAt T} (h : Holding M m ℓ a ⟨q, p, .inside pc⟩)
    (hb : b ∈ ℓ.live) (htaken : (Consumer.inside pc).takenAt = fun _ => false) :
    Shape ℓ (q.modify b fun c => c.setLocalTail (q.blocks b).tail) (fun _ => false) p.builtAt ∧
      Capacity M m ℓ (q.modify b fun c => c.setLocalTail (q.blocks b).tail) ∧
      ConsumerKeeps ℓ ℓ q (q.modify b fun c => c.setLocalTail (q.blocks b).tail) ∧
      ((q.modify b fun c => c.setLocalTail (q.blocks b).tail).blocks b).Knows (ℓ.contents b)
        (ℓ.contents b).length ∧
      ((q.blocks b).front = (q.blocks b).tail ↔ ℓ.contents b = []) := by
  have hholds := h.shape.holds b (List.mem_append_left _ hb)
  have hold := h.shape
  rw [show (Threads.mk q p (.inside pc)).consumer.takenAt = fun _ => false from htaken] at hold
  have hshape : Shape (ℓ.set b (ℓ.contents b))
      (q.modify b fun c => c.setLocalTail (q.blocks b).tail) (fun _ => false) p.builtAt :=
    hold.modify _ rfl rfl ((hold.holds b (List.mem_append_left _ hb)).setLocalTail _) (fun _ _ => rfl)
      (fun _ _ => rfl) (fun _ => List.prefix_rfl) (fun _ => (Block.knows_load hholds).mono (Nat.zero_le _))
      fun heq => heq ▸ hold.room
  have hcapacity := h.capacity.modify b (ℓ.contents b)
    (fun c => c.setLocalTail (q.blocks b).tail) rfl
  have hkeep : ConsumerKeeps ℓ (ℓ.set b (ℓ.contents b)) q
      (q.modify b fun c => c.setLocalTail (q.blocks b).tail) :=
    .modify _ hb rfl rfl rfl (.inr rfl) fun _ hn => hn
  rw [Layout.set_contents] at hshape hcapacity hkeep
  refine ⟨hshape, hcapacity, hkeep, ?_, hholds.front_eq_tail_iff⟩
  rw [blocks_modify_self]
  exact Block.knows_load hholds

theorem Holding.loadTail (h : Holding M m ℓ a ⟨q, p, .inside (.loadTail fb bf)⟩) :
    DequeueFollows M m a p (q.dequeueStep (.loadTail fb bf)) := by
  obtain ⟨seen, hcall, rfl, rfl⟩ := h.consumerAt
  obtain ⟨hshape, hcapacity, hkeep, hknows, hempty⟩ := h.reload h.shape.ring.front_mem rfl
  simp only [ReaderWriterQueue.dequeueStep]
  split
  · next hne =>
    refine h.dequeueFollows hcall hshape h.ahead hcapacity rfl rfl hkeep ⟨rfl, ?_, hknows.mono ?_⟩
    · rw [blocks_modify_self]
      rfl
    · exact List.length_pos_iff.2 fun hnil => hne (hempty.2 hnil)
  · next heq =>
    have hnil := hempty.1 (not_not.1 heq)
    by_cases htail : q.tailBlock = q.frontBlock
    · -- the queue is empty now, whatever the consumer makes of it later
      have hring := h.shape.ring
      rw [show (Threads.mk q p (.inside (.loadTail q.frontBlock (q.blocks q.frontBlock).front))).queue.tailBlock
        = q.frontBlock from htail] at hring
      have hitems : a.items = [] := by
        rw [h.items, Layout.items, hring.live_eq_singleton, List.flatMap_singleton, hnil]
      exact ⟨_, AtomicQueue.runs_look hcall hitems, ℓ,
        h.dequeueGoesOn hshape h.ahead hcapacity rfl rfl hkeep ⟨rfl, fun _ => rfl⟩⟩
    · exact h.dequeueFollows hcall hshape h.ahead hcapacity rfl rfl hkeep
        ⟨rfl, fun heq => absurd heq htail⟩

theorem Holding.loadTailBlock (h : Holding M m ℓ a ⟨q, p, .inside (.loadTailBlock fb)⟩) :
    DequeueFollows M m a p (q.dequeueStep (.loadTailBlock fb)) := by
  obtain ⟨seen, hcall, rfl, hseen⟩ := h.consumerAt
  simp only [ReaderWriterQueue.dequeueStep]
  split
  · next hne =>
    exact h.dequeueFollows hcall h.shape h.ahead h.capacity rfl rfl (.refl ℓ q) fun heq => hne heq.symm
  · next heq =>
    obtain rfl := hseen (not_not.1 heq).symm
    refine ⟨_, AtomicQueue.runs_missed hcall, ℓ, ?_⟩
    exact
      { shape := h.shape
        ahead := h.ahead
        capacity := h.capacity
        all := h.all
        left_le := h.left_le
        items := h.items
        producer := h.producer.mono rfl rfl (Nat.le_refl _) h.shape (.refl ℓ q)
        consumer := rfl }

theorem Holding.reloadTail (h : Holding M m ℓ a ⟨q, p, .inside .reloadTail⟩) :
    DequeueFollows M m a p (q.dequeueStep .reloadTail) := by
  obtain ⟨seen, hcall, htail⟩ := h.consumerAt
  obtain ⟨hshape, hcapacity, hkeep, hknows, hempty⟩ := h.reload h.shape.ring.front_mem rfl
  have hfront : ((q.modify q.frontBlock fun c => c.setLocalTail (q.blocks q.frontBlock).tail).blocks
      q.frontBlock).front = (q.blocks q.frontBlock).front := by
    rw [blocks_modify_self]
    rfl
  simp only [ReaderWriterQueue.dequeueStep]
  split
  · next hne =>
    refine h.dequeueFollows hcall hshape h.ahead hcapacity rfl rfl hkeep ⟨rfl, rfl, hknows.mono ?_⟩
    exact List.length_pos_iff.2 fun hnil => hne (hfront.trans (hempty.2 hnil))
  · next heq =>
    have hnil := hempty.1 (hfront.symm.trans (not_not.1 heq))
    exact h.dequeueFollows hcall hshape h.ahead hcapacity rfl rfl hkeep ⟨rfl, htail, hnil⟩

theorem Holding.loadNext (h : Holding M m ℓ a ⟨q, p, .inside (.loadNext fb)⟩) :
    DequeueFollows M m a p (q.dequeueStep (.loadNext fb)) := by
  obtain ⟨seen, hcall, rfl, htail, hnil⟩ := h.consumerAt
  exact h.dequeueFollows hcall h.shape h.ahead h.capacity rfl rfl (.refl ℓ q) ⟨htail, hnil, rfl, rfl⟩

/-- The block the consumer goes on to holds an element. -/
theorem Holding.loadNextTail (h : Holding M m ℓ a ⟨q, p, .inside (.loadNextTail nb nbf)⟩) :
    DequeueFollows M m a p (q.dequeueStep (.loadNextTail nb nbf)) := by
  obtain ⟨seen, hcall, htail, hnil, rfl, rfl⟩ := h.consumerAt
  obtain ⟨rest, hlive⟩ := h.shape.ring.live_cons htail
  have hmem : (q.blocks q.frontBlock).next ∈ ℓ.live := by
    rw [hlive]
    exact List.mem_cons_of_mem _ List.mem_cons_self
  have hne : ℓ.contents (q.blocks q.frontBlock).next ≠ [] := by
    refine h.shape.behind _ ?_
    rw [hlive]
    exact List.mem_cons_self
  obtain ⟨hshape, hcapacity, hkeep, hknows, hempty⟩ := h.reload hmem rfl
  refine h.dequeueFollows hcall hshape h.ahead hcapacity rfl rfl hkeep ⟨htail, hnil, ?_, ?_, ?_, ?_⟩
  · exact (hkeep.next q.frontBlock).symm
  · rw [blocks_modify_self]
    rfl
  · exact fun heq => hne (hempty.1 heq)
  · exact hknows.mono (List.length_pos_iff.2 hne)

theorem Holding.storeFrontBlock (h : Holding M m ℓ a ⟨q, p, .inside (.storeFrontBlock nb nbf nbt)⟩) :
    DequeueFollows M m a p (q.dequeueStep (.storeFrontBlock nb nbf nbt)) := by
  obtain ⟨seen, hcall, htail, hnil, rfl, rfl, -, hknows⟩ := h.consumerAt
  obtain ⟨rest, hlive⟩ := h.shape.ring.live_cons htail
  have hring := h.shape.ring
  rw [hlive] at hring
  have hmem : ∀ {b}, b ∈ (Layout.mk ℓ.contents ((q.blocks q.frontBlock).next :: rest)
      (ℓ.spare ++ [q.frontBlock])).ring ↔ b ∈ ℓ.ring := by
    intro b
    simp only [Layout.ring, hlive, List.mem_append, List.mem_cons, List.not_mem_nil, or_false]
    tauto
  have hlen : (Layout.mk ℓ.contents ((q.blocks q.frontBlock).next :: rest)
      (ℓ.spare ++ [q.frontBlock])).ring.length = ℓ.ring.length := by
    simp only [Layout.ring, hlive, List.length_append, List.length_cons, List.length_nil]
    omega
  refine h.dequeueFollows hcall ?_ ?_ ?_ hlen ?_ ?_ ⟨rfl, rfl, hknows⟩
  · refine ⟨hring.advance_front, fun b hb => h.shape.made b (hmem.1 hb),
      fun b hb => h.shape.holds b (hmem.1 hb), fun b hb => ?_, fun b hb => ?_,
      hknows.mono (Nat.zero_le _), h.shape.room⟩
    · refine h.shape.behind b ?_
      rw [hlive]
      exact List.mem_cons_of_mem _ hb
    · refine h.shape.full b ?_
      rw [hlive]
      cases rest with
      | nil => exact absurd hb List.not_mem_nil
      | cons c rest => exact List.mem_cons_of_mem _ hb
  · intro b hb
    rcases List.mem_append.1 hb with hb | hb
    · exact h.ahead b hb
    · obtain rfl := List.mem_singleton.1 hb
      exact hnil.trans (h.aheadIn_live h.shape.ring.front_mem).symm
  · refine ⟨h.capacity.sizes, ?_⟩
    rw [hlen]
    exact h.capacity.enough
  · show ((q.blocks q.frontBlock).next :: rest).flatMap ℓ.contents = ℓ.live.flatMap ℓ.contents
    rw [hlive, List.flatMap_cons (x := q.frontBlock), hnil, List.nil_append]
  · refine ⟨rfl, rfl, rfl, fun heq => ?_, fun _ => rfl, fun _ => rfl, fun _ => rfl, fun _ => id,
      fun _ => ⟨htail, rfl⟩, fun _ _ => rfl, fun _ _ => rfl, fun b hb => ?_, fun _ => hmem⟩
    · -- the block behind the tail block is spare, or the front block as it was
      have hnext := h.shape.ring.next_last
      by_contra hne
      have hspare : (q.blocks q.tailBlock).next ∈ ℓ.spare := by
        cases hs : ℓ.spare with
        | nil =>
          rw [hs] at hnext
          exact absurd (Option.some.inj hnext).symm hne
        | cons b more =>
          rw [hs] at hnext
          rw [← show b = (q.blocks q.tailBlock).next from Option.some.inj hnext]
          exact List.mem_cons_self
      refine h.shape.ring.not_mem_spare ?_ hspare
      show (q.blocks q.tailBlock).next ∈ ℓ.live
      rw [heq, hlive]
      exact List.mem_cons_of_mem _ List.mem_cons_self
    · rw [List.head?_append, hb]
      rfl

theorem Holding.takeElement (h : Holding M m ℓ a ⟨q, p, .inside (.takeElement fb bf)⟩) :
    DequeueFollows M m a p (q.dequeueStep (.takeElement fb bf)) := by
  obtain ⟨seen, hcall, rfl, rfl, hknows⟩ := h.consumerAt
  have hmem := h.shape.frontBlock_mem
  have hlive := h.shape.ring.front_mem
  have hholds : (q.blocks q.frontBlock).Holds (ℓ.contents q.frontBlock) false (p.builtAt q.frontBlock) :=
    h.shape.holds _ hmem
  have hshape : Shape (ℓ.set q.frontBlock (ℓ.contents q.frontBlock))
      (q.modify q.frontBlock fun b => b.put (q.blocks q.frontBlock).front none)
      (fun b => b = q.frontBlock) p.builtAt := by
    refine h.shape.modify _ rfl rfl ?_ (fun b hne => decide_eq_false hne) (fun _ _ => rfl)
      (fun _ => List.prefix_rfl) (fun _ => h.shape.knows) fun heq => ?_
    · rw [show decide (q.frontBlock = q.frontBlock) = true from decide_eq_true rfl]
      exact hholds.take hknows.ne_nil
    · have hroom := h.shape.room
      rw [← heq] at hroom
      exact hroom
  have hcapacity := h.capacity.modify q.frontBlock (ℓ.contents q.frontBlock)
    (fun b => b.put (q.blocks q.frontBlock).front none) rfl
  have hkeep : ConsumerKeeps ℓ (ℓ.set q.frontBlock (ℓ.contents q.frontBlock)) q
      (q.modify q.frontBlock fun b => b.put (q.blocks q.frontBlock).front none) :=
    .modify _ hlive rfl rfl rfl (.inr rfl) fun _ hn => hn
  rw [Layout.set_contents] at hshape hcapacity hkeep
  refine h.dequeueFollows hcall hshape h.ahead hcapacity rfl rfl hkeep ⟨rfl, ?_, ?_, ?_⟩
  · rw [blocks_modify_self]
    rfl
  · rw [blocks_modify_self]
    exact hknows
  · obtain ⟨x, xs, hx⟩ := List.exists_cons_of_ne_nil hknows.ne_nil
    rw [hx] at hholds ⊢
    exact hholds.data_front

theorem Holding.storeFront {r : Option T}
    (h : Holding M m ℓ a ⟨q, p, .inside (.storeFront fb bf r)⟩) :
    DequeueFollows M m a p (q.dequeueStep (.storeFront fb bf r)) := by
  obtain ⟨seen, hcall, rfl, rfl, hknows, rfl⟩ := h.consumerAt
  have hmem := h.shape.frontBlock_mem
  have hlive := h.shape.ring.front_mem
  obtain ⟨x, xs, hx⟩ := List.exists_cons_of_ne_nil hknows.ne_nil
  have hholds : (q.blocks q.frontBlock).Holds (x :: xs) true (p.builtAt q.frontBlock) := by
    rw [← hx, ← show decide (q.frontBlock = q.frontBlock) = true from decide_eq_true rfl]
    exact h.shape.holds _ hmem
  obtain ⟨rest, hcons⟩ : ∃ rest, ℓ.live = q.frontBlock :: rest := by
    obtain ⟨b, rest, hcons⟩ := List.exists_cons_of_ne_nil (List.ne_nil_of_mem hlive)
    have hhead := h.shape.ring.head
    rw [hcons] at hhead
    exact ⟨rest, by rw [hcons, Option.some.inj hhead]⟩
  have hnot : q.frontBlock ∉ rest := by
    have hnodup := h.shape.ring.nodup.of_append_left
    rw [hcons] at hnodup
    exact (List.nodup_cons.1 hnodup).1
  have hshape : Shape (ℓ.set q.frontBlock xs) (q.modify q.frontBlock fun b => b.setFront
      ((q.blocks q.frontBlock).wrap ((q.blocks q.frontBlock).front + 1))) (fun _ => false) p.builtAt := by
    refine h.shape.modify _ rfl rfl hholds.pop (fun b hne => (decide_eq_false hne).symm)
      (fun _ _ => rfl) (fun htail => ?_) (fun _ => ?_) fun heq => ?_
    · rw [hcons] at htail
      exact absurd htail hnot
    · exact (hx ▸ hknows).pop hholds
    · have hroom := h.shape.room
      rw [← heq] at hroom
      exact (hx ▸ hroom).pop hholds
  have hkeep : ConsumerKeeps ℓ (ℓ.set q.frontBlock xs) q (q.modify q.frontBlock fun b => b.setFront
      ((q.blocks q.frontBlock).wrap ((q.blocks q.frontBlock).front + 1))) :=
    .modify _ hlive rfl rfl rfl (.inl rfl) fun n hn => (hx ▸ hn).pop hholds
  have hitems : ℓ.items = x :: (ℓ.set q.frontBlock xs).items := by
    have hrest : rest.flatMap (ℓ.set q.frontBlock xs).contents = rest.flatMap ℓ.contents :=
      List.flatMap_congr fun c hc => Layout.contents_set_of_ne fun heq => hnot (heq ▸ hc)
    show ℓ.live.flatMap ℓ.contents = x :: ℓ.live.flatMap (ℓ.set q.frontBlock xs).contents
    rw [hcons, List.flatMap_cons, List.flatMap_cons, hrest, hx, Layout.contents_set_self]
    rfl
  have hcapacity := h.capacity.modify q.frontBlock xs
    (fun b => b.setFront ((q.blocks q.frontBlock).wrap ((q.blocks q.frontBlock).front + 1))) rfl
  have haitems : a.items = x :: (ℓ.set q.frontBlock xs).items := h.items.trans hitems
  have hlt : a.left < a.entered.length := by
    by_contra hge
    rw [AtomicQueue.State.items, List.drop_eq_nil_of_le (not_lt.1 hge)] at haitems
    cases haitems
  simp only [ReaderWriterQueue.dequeueStep]
  rw [hx]
  refine ⟨_, AtomicQueue.runs_served hcall haitems, ℓ.set q.frontBlock xs, ?_⟩
  exact
    { shape := hshape
      ahead := fun b hb => by
        have hne : b ≠ q.frontBlock := fun heq => h.shape.ring.not_mem_spare hlive (heq ▸ hb)
        rw [Layout.contents_set_of_ne hne]
        exact h.ahead b hb
      capacity := hcapacity
      all := h.all
      left_le := hlt
      items := AtomicQueue.items_served haitems
      producer := ProducerRelated.mono (a := a) rfl rfl (Nat.le_succ _) h.shape hkeep h.producer
      consumer := rfl }

theorem Holding.dequeueStep {pc : DequeueAt T} (h : Holding M m ℓ a ⟨q, p, .inside pc⟩) :
    DequeueFollows M m a p (q.dequeueStep pc) := by
  cases pc with
  | loadTail => exact h.loadTail
  | loadTailBlock => exact h.loadTailBlock
  | reloadTail => exact h.reloadTail
  | loadNext => exact h.loadNext
  | loadNextTail => exact h.loadNextTail
  | storeFrontBlock => exact h.storeFrontBlock
  | takeElement => exact h.takeElement
  | storeFront => exact h.storeFront

/-- A call starts with what the consumer knows of the front block by itself. -/
theorem Holding.startDequeue (h : Holding M m ℓ a ⟨q, p, .idle⟩) :
    Holding M m ℓ { a with consumer := .calling false } ⟨q, p, .inside q.startDequeue⟩ := by
  have hholds := h.shape.holds _ h.shape.frontBlock_mem
  have hpc : ConsumerAt ℓ q false q.startDequeue ∧
      (Consumer.inside q.startDequeue).takenAt = fun _ => false := by
    unfold ReaderWriterQueue.startDequeue
    simp only
    split
    · next hne => exact ⟨⟨rfl, rfl, h.shape.knows.of_ne hholds hne⟩, rfl⟩
    · exact ⟨⟨rfl, rfl⟩, rfl⟩
  obtain ⟨hat, htaken⟩ := hpc
  exact
    { shape := by
        show Shape ℓ q (Consumer.inside q.startDequeue).takenAt p.builtAt
        rw [htaken]
        exact h.shape
      ahead := h.ahead
      capacity := h.capacity
      all := h.all
      left_le := h.left_le
      items := h.items
      producer := h.producer.mono rfl rfl (Nat.le_refl _) h.shape (.refl ℓ q)
      consumer := ⟨false, rfl, hat⟩ }

end KjRedis.Queue
