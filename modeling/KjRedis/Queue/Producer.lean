import KjRedis.Queue.Invariant
import Mathlib.Algebra.Order.BigOperators.Group.List
import Mathlib.Algebra.Order.Ring.Nat

/-! The steps of `inner_enqueue`: each keeps the relation, and the one that publishes the
element puts it into the queue. -/
namespace KjRedis.Queue

variable {T : Type} {M m : Nat} {ℓ : Layout T} {q : ReaderWriterQueue T} {a : AtomicQueue.State T}
  {mode : AllocationMode} {x : T} {c : Consumer T} {taken : Nat → Bool} {built : Nat → Option T}
  {b tb bt nbt nb nbf : Nat} {xs : List T}

namespace Block

variable {b : Block T} {taken : Bool} {built : Option T} {n : Nat}

theorem Holds.setLocalFront (h : b.Holds xs taken built) (v : Nat) :
    (b.setLocalFront v).Holds xs taken built :=
  ⟨h.size, h.front_le, h.length_le, h.tail_eq, h.slots⟩

theorem Holds.setLocalTail (h : b.Holds xs taken built) (v : Nat) :
    (b.setLocalTail v).Holds xs taken built :=
  ⟨h.size, h.front_le, h.length_le, h.tail_eq, h.slots⟩

theorem Holds.setNext (h : b.Holds xs taken built) (v : Nat) : (b.setNext v).Holds xs taken built :=
  ⟨h.size, h.front_le, h.length_le, h.tail_eq, h.slots⟩

theorem not_full_iff (h : b.Holds xs taken built) :
    b.wrap (b.tail + 1) ≠ b.front ↔ xs.length + 1 ≤ b.sizeMask := by
  have hle := h.length_le
  rw [ne_eq, h.full_iff]
  omega

end Block

theorem Capacity.modify (h : Capacity M m ℓ q) (b : Nat) (xs : List T) (f : Block T → Block T)
    (hmask : (f (q.blocks b)).sizeMask = (q.blocks b).sizeMask) :
    Capacity M m (ℓ.set b xs) (q.modify b f) := by
  refine ⟨h.sizes, ?_⟩
  have heq := modify_field Block.sizeMask f hmask
  rcases h.enough with ⟨hmax, hall⟩ | ⟨hmax, hall, hsum⟩
  · refine .inl ⟨hmax, fun d hd => ?_⟩
    rw [heq]
    exact hall d hd
  · refine .inr ⟨hmax, fun d hd => ?_, hsum⟩
    rw [heq]
    exact hall d hd

theorem Capacity.sizeMask_pos (h : Capacity M m ℓ q) (hm : 0 < m) (hb : b < q.made) :
    0 < (q.blocks b).sizeMask := by
  rcases h.enough with ⟨-, hall⟩ | ⟨-, hall, -⟩
  · exact hm.trans_le (hall b hb)
  · obtain ⟨k, hk, hsize⟩ := h.sizes
    have := Nat.pow_le_pow_right (n := 2) (by decide) hk
    rw [hall b hb, hsize]
    omega

/-- A new block is no smaller than those before it. -/
theorem Capacity.newBlockSize (h : Capacity M m ℓ q) :
    (∃ k, 1 ≤ k ∧ q.newBlockSize M = 2 ^ k) ∧ q.largestBlockSize ≤ q.newBlockSize M := by
  obtain ⟨k, hk, hsize⟩ := h.sizes
  unfold ReaderWriterQueue.newBlockSize
  split
  · exact ⟨⟨k, hk, hsize⟩, Nat.le_refl _⟩
  · exact ⟨⟨k + 1, Nat.le_succ_of_le hk, by rw [hsize, Nat.pow_succ]⟩, Nat.le_mul_of_pos_right _ (by decide)⟩

/-- The producer changes what is its own in one block. -/
theorem ProducerKeeps.modify (f : Block T → Block T)
    (hfront : (f (q.blocks b)).front = (q.blocks b).front)
    (hmask : (f (q.blocks b)).sizeMask = (q.blocks b).sizeMask)
    (hlocal : (f (q.blocks b)).localTail = (q.blocks b).localTail)
    (hnext : (f (q.blocks b)).next = (q.blocks b).next)
    (hxs : b ∈ ℓ.live → b = q.tailBlock ∧ ℓ.contents b <+: xs) :
    ProducerKeeps ℓ (ℓ.set b xs) q (q.modify b f) where
  frontBlock := rfl
  tailBlock := id
  front c _ := modify_field Block.front f hfront c
  sizeMask c _ := modify_field Block.sizeMask f hmask c
  localTail c _ := modify_field Block.localTail f hlocal c
  next c _ _ := modify_field Block.next f hnext c
  contents := by
    intro c hc
    by_cases heq : c = b
    · subst heq
      rw [Layout.contents_set_self]
      exact (hxs hc).2
    · rw [Layout.contents_set_of_ne heq]
  contents_eq := by
    intro c hc hne
    refine Layout.contents_set_of_ne ?_
    rintro rfl
    exact hne (hxs hc).1

theorem Layout.items_set_of_not_mem (h : b ∉ ℓ.live) : (ℓ.set b xs).items = ℓ.items := by
  unfold Layout.items
  refine List.flatMap_congr fun c hc => Layout.contents_set_of_ne ?_
  rintro rfl
  exact h hc

theorem Shape.items_push (h : Shape ℓ q taken built) (x : T) :
    (ℓ.set q.tailBlock (ℓ.contents q.tailBlock ++ [x])).items = ℓ.items ++ [x] := by
  obtain ⟨before, hlive⟩ := h.ring.live_eq
  have hnot : q.tailBlock ∉ before := by
    have hnodup := h.ring.nodup.of_append_left
    rw [hlive] at hnodup
    exact fun hmem => List.disjoint_of_nodup_append hnodup hmem (List.mem_singleton_self _)
  have hbefore : before.flatMap (ℓ.set q.tailBlock (ℓ.contents q.tailBlock ++ [x])).contents =
      before.flatMap ℓ.contents :=
    List.flatMap_congr fun c hc => Layout.contents_set_of_ne fun heq => hnot (heq ▸ hc)
  show (ℓ.live).flatMap (ℓ.set q.tailBlock (ℓ.contents q.tailBlock ++ [x])).contents =
    ℓ.live.flatMap ℓ.contents ++ [x]
  rw [hlive, List.flatMap_append, List.flatMap_append, hbefore, List.append_assoc]
  simp [Layout.set]

theorem Layout.length_items (ℓ : Layout T) :
    ℓ.items.length = (ℓ.live.map fun b => (ℓ.contents b).length).sum := by
  rw [Layout.items, List.length_flatMap]

/-- Where the tail block is full and all blocks are in use, `maxSize` elements are there. -/
theorem Holding.le_items {s : Threads T} (h : Holding M m ℓ a s) (hspare : ℓ.spare = [])
    (hfull : (ℓ.contents s.queue.tailBlock).length = (s.queue.blocks s.queue.tailBlock).sizeMask) :
    m ≤ ℓ.items.length := by
  have hmade : ∀ b ∈ ℓ.live, b < s.queue.made := fun b hb =>
    h.shape.made b (List.mem_append_left _ hb)
  have hlast := h.shape.ring.last_mem
  rw [ℓ.length_items]
  rcases h.capacity.enough with ⟨-, hall⟩ | ⟨-, hall, hsum⟩
  · refine (hall _ (hmade _ hlast)).trans ?_
    rw [← hfull]
    exact List.single_le_sum (fun _ _ => Nat.zero_le _) _ (List.mem_map_of_mem hlast)
  · refine hsum.trans ?_
    have hring : ℓ.ring = ℓ.live := by rw [Layout.ring, hspare, List.append_nil]
    obtain ⟨fb, rest, hlive⟩ := List.exists_cons_of_ne_nil (List.ne_nil_of_mem hlast)
    have hfb : fb = s.queue.frontBlock := by
      have := h.shape.ring.head
      rw [hlive] at this
      exact Option.some.inj this
    have hlen : ∀ b ∈ rest, (ℓ.contents b).length = s.queue.largestBlockSize - 1 := by
      intro b hb
      have hb' : b ∈ ℓ.live := hlive ▸ List.mem_cons_of_mem fb hb
      rw [← hall b (hmade b hb')]
      rcases List.eq_nil_or_concat rest with rfl | ⟨mids, last, rfl⟩
      · exact absurd hb List.not_mem_nil
      · have htail : last = s.queue.tailBlock := by
          have := h.shape.ring.getLast
          rw [hlive, List.concat_eq_append, ← List.cons_append, List.getLast?_concat] at this
          exact Option.some.inj this
        rw [List.concat_eq_append] at hb hlive
        rcases List.mem_append.1 hb with hb | hb
        · refine h.shape.full b ?_
          rw [hlive, List.tail_cons, List.dropLast_concat]
          exact hb
        · obtain rfl := List.mem_singleton.1 hb
          rw [htail]
          exact hfull
    have hmap : rest.map (fun b => (ℓ.contents b).length) =
        List.replicate rest.length (s.queue.largestBlockSize - 1) := by
      rw [List.eq_replicate_iff]
      refine ⟨List.length_map _, fun n hn => ?_⟩
      obtain ⟨b, hb, rfl⟩ := List.mem_map.1 hn
      exact hlen b hb
    rw [hring, hlive, List.length_cons, Nat.add_sub_cancel, List.map_cons, List.sum_cons, hmap,
      List.sum_replicate_nat]
    exact Nat.le_add_left _ _

/-- What a step of the producer has to come to. -/
def EnqueueFollows (M m : Nat) (a : AtomicQueue.State T) (mode : AllocationMode) (x : T)
    (c : Consumer T) : ReaderWriterQueue T × (EnqueueAt ⊕ Bool) → Prop
  | (q, .inl pc) => Related M m a ⟨q, .inside mode x pc, c⟩
  | (q, .inr ok) => Related M m (a.returned x ok) ⟨q, .idle, c⟩

section Steps

variable (malloc : Bool)

/-- The consumer has taken an element only where there is one. -/
theorem Holding.ne_nil_of_taken {s : Threads T} (h : Holding M m ℓ a s)
    (htaken : s.consumer.takenAt b = true) : ℓ.contents b ≠ [] := by
  have hcons := h.consumer
  cases hc : s.consumer with
  | idle =>
    rw [hc] at htaken
    exact absurd htaken Bool.false_ne_true
  | inside pc =>
    rw [hc] at htaken hcons
    obtain ⟨seen, -, hpc⟩ := hcons
    cases pc with
    | storeFront fb bf r =>
      obtain rfl : b = fb := of_decide_eq_true htaken
      exact hpc.2.2.1.ne_nil
    | _ => exact absurd htaken Bool.false_ne_true

theorem Holding.producerAt {pc : EnqueueAt} (h : Holding M m ℓ a ⟨q, .inside mode x pc, c⟩) :
    ∃ since, a.producer = .calling x since ∧ since ≤ a.left ∧
      ProducerAt m ℓ q x (a.entered.length - since) pc := h.producer

/-- A call that goes on leaves the queue between the two as it is. -/
theorem Holding.goesOn {pc pc' : EnqueueAt} {q' : ReaderWriterQueue T} {ℓ' : Layout T}
    (h : Holding M m ℓ a ⟨q, .inside mode x pc, c⟩)
    (hshape : Shape ℓ' q' c.takenAt (Producer.inside mode x pc').builtAt)
    (hahead : ∀ b ∈ ℓ'.spare, ℓ'.contents b = (Producer.inside mode x pc').aheadIn b)
    (hcapacity : Capacity M m ℓ' q')
    (hall : q.made = ℓ.ring.length + (Producer.inside mode x pc).unlinked →
      q'.made = ℓ'.ring.length + (Producer.inside mode x pc').unlinked)
    (hitems : ℓ'.items = ℓ.items) (hkeep : ProducerKeeps ℓ ℓ' q q')
    (hpc : ∀ since, a.producer = .calling x since → since ≤ a.left →
      ProducerAt m ℓ q x (a.entered.length - since) pc →
      ProducerAt m ℓ' q' x (a.entered.length - since) pc') :
    Holding M m ℓ' a ⟨q', .inside mode x pc', c⟩ where
  shape := hshape
  ahead := hahead
  capacity := hcapacity
  all := hall h.all
  left_le := h.left_le
  items := h.items.trans hitems.symm
  producer := by
    obtain ⟨since, hcall, hsince, hat⟩ := h.producerAt
    exact ⟨since, hcall, hsince, hpc since hcall hsince hat⟩
  consumer := h.consumer.mono rfl h.shape.ring hkeep

/-- A call that has published its element returns true. -/
theorem Holding.returns {pc : EnqueueAt} {q' : ReaderWriterQueue T} {ℓ' : Layout T}
    (h : Holding M m ℓ a ⟨q, .inside mode x pc, c⟩) (hshape : Shape ℓ' q' c.takenAt fun _ => none)
    (hahead : ∀ b ∈ ℓ'.spare, ℓ'.contents b = []) (hcapacity : Capacity M m ℓ' q')
    (hall : q.made = ℓ.ring.length + (Producer.inside mode x pc).unlinked → q'.made = ℓ'.ring.length)
    (hitems : ℓ'.items = ℓ.items ++ [x]) (hkeep : ProducerKeeps ℓ ℓ' q q') :
    Holding M m ℓ' (a.returned x true) ⟨q', .idle, c⟩ where
  shape := hshape
  ahead := hahead
  capacity := hcapacity
  all := hall h.all
  left_le := by
    show a.left ≤ (a.entered ++ [x]).length
    rw [List.length_append]
    exact Nat.le_add_right_of_le h.left_le
  items := by
    show (a.entered ++ [x]).drop a.left = _
    rw [hitems, ← h.items, List.drop_append_of_le_length h.left_le]
    rfl
  producer := rfl
  consumer := h.consumer.mono rfl h.shape.ring hkeep

/-- A call that gives up has changed nothing. -/
theorem Holding.givesUp {pc : EnqueueAt} (h : Holding M m ℓ a ⟨q, .inside mode x pc, c⟩)
    (hbuilt : (Producer.inside mode x pc).builtAt = fun _ => none)
    (hahead : (Producer.inside mode x pc).aheadIn = fun _ => [])
    (hunlinked : (Producer.inside mode x pc).unlinked = 0) :
    Holding M m ℓ (a.returned x false) ⟨q, .idle, c⟩ where
  shape := by
    have hshape := h.shape
    rwa [show (Threads.mk q (.inside mode x pc) c).producer.builtAt = fun _ => none from hbuilt]
      at hshape
  ahead := by
    have hahead' := h.ahead
    rwa [show (Threads.mk q (.inside mode x pc) c).producer.aheadIn = fun _ => [] from hahead]
      at hahead'
  capacity := h.capacity
  all := h.all.trans (congrArg (ℓ.ring.length + ·) hunlinked)
  left_le := h.left_le
  items := h.items
  producer := rfl
  consumer := by
    have hcons := h.consumer
    cases hc : c with
    | idle =>
      rw [hc] at hcons
      exact hcons
    | inside pc =>
      rw [hc] at hcons
      exact hcons

theorem ProducerKeeps.refl (ℓ : Layout T) (q : ReaderWriterQueue T) : ProducerKeeps ℓ ℓ q q :=
  ⟨rfl, id, fun _ _ => rfl, fun _ _ => rfl, fun _ _ => rfl, fun _ _ _ => rfl,
    fun _ _ => List.prefix_rfl, fun _ _ _ => rfl⟩

theorem Holding.loadFront (h : Holding M m ℓ a ⟨q, .inside mode x (.loadFront tb bt nbt), c⟩) :
    EnqueueFollows M m a mode x c (q.enqueueStep M mode x malloc (.loadFront tb bt nbt)) := by
  obtain ⟨since₀, -, -, hat₀⟩ := h.producerAt
  obtain ⟨rfl, rfl, rfl⟩ := hat₀
  have hmem := h.shape.tailBlock_mem
  have hholds := h.shape.holds _ hmem
  have hshape : Shape (ℓ.set q.tailBlock (ℓ.contents q.tailBlock))
      (q.modify q.tailBlock fun b => b.setLocalFront (q.blocks q.tailBlock).front)
      c.takenAt fun _ => none := by
    refine h.shape.modify _ rfl rfl (hholds.setLocalFront _) (fun _ _ => rfl) (fun _ _ => rfl)
      (fun _ => List.prefix_rfl) (fun heq => ?_) fun _ => Block.room_load hholds hholds.length_le
    rw [heq]
    exact h.shape.knows
  have hkeep : ProducerKeeps ℓ (ℓ.set q.tailBlock (ℓ.contents q.tailBlock)) q
      (q.modify q.tailBlock fun b => b.setLocalFront (q.blocks q.tailBlock).front) :=
    .modify _ rfl rfl rfl rfl fun _ => ⟨rfl, List.prefix_rfl⟩
  have hcapacity := h.capacity.modify q.tailBlock (ℓ.contents q.tailBlock)
    (fun b => b.setLocalFront (q.blocks q.tailBlock).front) rfl
  rw [Layout.set_contents] at hshape hkeep hcapacity
  simp only [ReaderWriterQueue.enqueueStep]
  split
  · next hne =>
    refine ⟨ℓ, h.goesOn hshape h.ahead hcapacity id rfl hkeep fun since _ _ _ => ?_⟩
    show _ ∧ _ ∧ _ ∧ _
    simp only [blocks_modify_self]
    exact ⟨rfl, rfl, rfl, Block.room_load hholds ((Block.not_full_iff hholds).1 hne)⟩
  · next hfull =>
    have hlen := hholds.full_iff.1 (not_not.1 hfull)
    refine ⟨ℓ, h.goesOn hshape h.ahead hcapacity id rfl hkeep fun since _ hsince _ => ?_⟩
    show _ ∧ _ ∧ _
    simp only [blocks_modify_self]
    refine ⟨rfl, fun _ => ?_, fun hnext => ?_⟩
    · show (ℓ.contents q.tailBlock).length = ((q.modify q.tailBlock _).blocks q.tailBlock).sizeMask
      rw [blocks_modify_self]
      exact hlen
    · have hle := h.le_items (h.shape.ring.spare_eq_nil_iff.2 hnext) hlen
      have hitems : a.items.length = ℓ.items.length := congrArg List.length h.items
      rw [AtomicQueue.State.items, List.length_drop] at hitems
      omega

theorem Holding.putElement (h : Holding M m ℓ a ⟨q, .inside mode x (.putElement tb bt nbt), c⟩) :
    EnqueueFollows M m a mode x c (q.enqueueStep M mode x malloc (.putElement tb bt nbt)) := by
  obtain ⟨since₀, -, -, hat₀⟩ := h.producerAt
  obtain ⟨rfl, rfl, rfl, hroom⟩ := hat₀
  have hmem := h.shape.tailBlock_mem
  have hholds := h.shape.holds _ hmem
  have hshape : Shape (ℓ.set q.tailBlock (ℓ.contents q.tailBlock))
      (q.modify q.tailBlock fun b => b.put (q.blocks q.tailBlock).tail (some x))
      c.takenAt fun b => if b = q.tailBlock then some x else none := by
    refine h.shape.modify _ rfl rfl ?_ (fun _ _ => rfl) (fun _ hne => if_neg hne)
      (fun _ => List.prefix_rfl) (fun heq => ?_) fun _ => h.shape.room
    · rw [if_pos rfl]
      exact hholds.build x
    · rw [heq]
      exact h.shape.knows
  have hkeep : ProducerKeeps ℓ (ℓ.set q.tailBlock (ℓ.contents q.tailBlock)) q
      (q.modify q.tailBlock fun b => b.put (q.blocks q.tailBlock).tail (some x)) :=
    .modify _ rfl rfl rfl rfl fun _ => ⟨rfl, List.prefix_rfl⟩
  have hcapacity := h.capacity.modify q.tailBlock (ℓ.contents q.tailBlock)
    (fun b => b.put (q.blocks q.tailBlock).tail (some x)) rfl
  rw [Layout.set_contents] at hshape hkeep hcapacity
  refine ⟨ℓ, h.goesOn hshape h.ahead hcapacity id rfl hkeep fun since _ _ _ => ?_⟩
  show _ ∧ _ ∧ _
  simp only [blocks_modify_self]
  exact ⟨rfl, rfl, hroom⟩

theorem Holding.storeTail (h : Holding M m ℓ a ⟨q, .inside mode x (.storeTail tb nbt), c⟩) :
    EnqueueFollows M m a mode x c (q.enqueueStep M mode x malloc (.storeTail tb nbt)) := by
  obtain ⟨since₀, -, -, hat₀⟩ := h.producerAt
  obtain ⟨rfl, rfl, hroom⟩ := hat₀
  have hmem := h.shape.tailBlock_mem
  have hholds : (q.blocks q.tailBlock).Holds (ℓ.contents q.tailBlock) (c.takenAt q.tailBlock) (some x) := by
    have := h.shape.holds _ hmem
    rwa [show (Producer.inside mode x (.storeTail q.tailBlock _)).builtAt q.tailBlock = some x from
      if_pos rfl] at this
  have hshape : Shape (ℓ.set q.tailBlock (ℓ.contents q.tailBlock ++ [x]))
      (q.modify q.tailBlock fun b => b.setTail ((q.blocks q.tailBlock).wrap
        ((q.blocks q.tailBlock).tail + 1))) c.takenAt fun _ => none := by
    refine h.shape.modify _ rfl rfl (hholds.push hroom.lt fun htaken => h.ne_nil_of_taken htaken)
      (fun _ _ => rfl) (fun _ hne => (if_neg hne).symm) (fun _ => List.prefix_append _ _)
      (fun heq => ?_) fun _ => hroom.push x _
    have hknows := h.shape.knows
    rw [← heq] at hknows
    exact hknows.push x _
  have hkeep : ProducerKeeps ℓ (ℓ.set q.tailBlock (ℓ.contents q.tailBlock ++ [x])) q
      (q.modify q.tailBlock fun b => b.setTail ((q.blocks q.tailBlock).wrap
        ((q.blocks q.tailBlock).tail + 1))) :=
    .modify _ rfl rfl rfl rfl fun _ => ⟨rfl, List.prefix_append _ _⟩
  have hcapacity := h.capacity.modify q.tailBlock (ℓ.contents q.tailBlock ++ [x])
    (fun b => b.setTail ((q.blocks q.tailBlock).wrap ((q.blocks q.tailBlock).tail + 1))) rfl
  refine ⟨_, h.returns hshape (fun b hb => ?_) hcapacity id (h.shape.items_push x) hkeep⟩
  have hne : b ≠ q.tailBlock := by
    rintro rfl
    exact h.shape.ring.not_mem_spare h.shape.ring.last_mem hb
  rw [Layout.contents_set_of_ne hne]
  exact h.ahead b hb

theorem Holding.loadFrontBlock (h : Holding M m ℓ a ⟨q, .inside mode x (.loadFrontBlock tb), c⟩) :
    EnqueueFollows M m a mode x c (q.enqueueStep M mode x malloc (.loadFrontBlock tb)) := by
  obtain ⟨since₀, -, -, hat₀⟩ := h.producerAt
  obtain ⟨rfl, hfilled, hmax⟩ := hat₀
  simp only [ReaderWriterQueue.enqueueStep]
  split
  · next hne =>
    refine ⟨ℓ, h.goesOn h.shape h.ahead h.capacity id rfl (.refl ℓ q) fun _ _ _ _ => ?_⟩
    exact ⟨h.shape.ring.head_spare_iff.2 hne, hfilled⟩
  · next heq =>
    cases mode with
    | canAlloc =>
      refine ⟨ℓ, h.goesOn h.shape h.ahead h.capacity id rfl (.refl ℓ q) fun since _ _ hat => ?_⟩
      exact ⟨rfl, hfilled, hat.2.2 (not_not.1 heq)⟩
    | cannotAlloc => exact ⟨ℓ, h.givesUp rfl rfl rfl⟩

/-- The producer changes the next block, which the consumer does not come to yet. -/
theorem Holding.modifyNext {pc pc' : EnqueueAt} (h : Holding M m ℓ a ⟨q, .inside mode x pc, c⟩)
    (hhead : ℓ.spare.head? = some nb) (f : Block T → Block T)
    (hfront : (f (q.blocks nb)).front = (q.blocks nb).front)
    (hmask : (f (q.blocks nb)).sizeMask = (q.blocks nb).sizeMask)
    (hlocal : (f (q.blocks nb)).localTail = (q.blocks nb).localTail)
    (hnext : (f (q.blocks nb)).next = (q.blocks nb).next)
    (hholds : (f (q.blocks nb)).Holds xs (c.takenAt nb) ((Producer.inside mode x pc').builtAt nb))
    (hbuilt : ∀ b, b ≠ nb →
      (Producer.inside mode x pc').builtAt b = (Producer.inside mode x pc).builtAt b)
    (hxs : xs = (Producer.inside mode x pc').aheadIn nb)
    (hahead : ∀ b, b ≠ nb →
      (Producer.inside mode x pc').aheadIn b = (Producer.inside mode x pc).aheadIn b)
    (hunlinked : (Producer.inside mode x pc').unlinked = (Producer.inside mode x pc).unlinked)
    (hpc : ∀ since, ProducerAt m ℓ q x (a.entered.length - since) pc →
      ProducerAt m (ℓ.set nb xs) (q.modify nb f) x (a.entered.length - since) pc') :
    Holding M m (ℓ.set nb xs) a ⟨q.modify nb f, .inside mode x pc', c⟩ := by
  have hnot : nb ∉ ℓ.live := fun hmem => h.shape.head_ne hhead hmem rfl
  refine h.goesOn ?_ (fun b hb => ?_) (h.capacity.modify nb xs f hmask)
    (fun hall => hall.trans (congrArg (ℓ.ring.length + ·) hunlinked.symm)) (Layout.items_set_of_not_mem hnot)
    (.modify f hfront hmask hlocal hnext fun hmem => absurd hmem hnot) fun since _ _ => hpc since
  · exact h.shape.modify f hnext hmask hholds (fun _ _ => rfl) hbuilt
      (fun hmem => absurd (List.mem_of_mem_tail hmem) hnot)
      (fun heq => absurd heq (h.shape.head_ne hhead h.shape.ring.front_mem))
      fun heq => absurd heq (h.shape.head_ne hhead h.shape.ring.last_mem)
  · by_cases heq : b = nb
    · rw [heq, Layout.contents_set_self, hxs]
    · rw [Layout.contents_set_of_ne heq, hahead b heq]
      exact h.ahead b hb

/-- Of two blocks that differ the one does not change with the other. -/
theorem filled_modify (f : Block T → Block T) (hne : nb ≠ q.tailBlock) (h : Filled ℓ q) :
    Filled (ℓ.set nb xs) (q.modify nb f) := by
  intro hfront
  show ((ℓ.set nb xs).contents q.tailBlock).length = ((q.modify nb f).blocks q.tailBlock).sizeMask
  rw [Layout.contents_set_of_ne hne.symm, blocks_modify_of_ne f hne.symm]
  exact h hfront

theorem Holding.loadNextFront (h : Holding M m ℓ a ⟨q, .inside mode x (.loadNextFront nb), c⟩) :
    EnqueueFollows M m a mode x c (q.enqueueStep M mode x malloc (.loadNextFront nb)) := by
  obtain ⟨since₀, -, -, hhead, hfilled⟩ := h.producerAt
  have hmem := h.shape.head_mem hhead
  have hholds := h.shape.holds _ hmem
  have hnil : ℓ.contents nb = [] := h.ahead nb (List.mem_of_mem_head? hhead)
  rw [hnil] at hholds
  refine ⟨_, h.modifyNext hhead (fun b => b.setLocalFront (q.blocks nb).front) rfl rfl rfl rfl
    (hholds.setLocalFront _) (fun _ _ => rfl) rfl (fun _ _ => rfl) rfl fun since _ => ?_⟩
  refine ⟨hhead, filled_modify _ (h.shape.head_ne hhead h.shape.ring.last_mem) hfilled, ?_, rfl⟩
  rw [blocks_modify_self]
  rfl

theorem Holding.putNextElement
    (h : Holding M m ℓ a ⟨q, .inside mode x (.putNextElement nb nbf nbt), c⟩) :
    EnqueueFollows M m a mode x c (q.enqueueStep M mode x malloc (.putNextElement nb nbf nbt)) := by
  obtain ⟨since₀, -, -, hat₀⟩ := h.producerAt
  obtain ⟨hhead, hfilled, rfl, rfl⟩ := hat₀
  have hmem := h.shape.head_mem hhead
  have hholds := h.shape.holds _ hmem
  have hnil : ℓ.contents nb = [] := h.ahead nb (List.mem_of_mem_head? hhead)
  rw [hnil] at hholds
  refine ⟨_, h.modifyNext hhead (fun b => (b.setLocalFront (q.blocks nb).front).put
      (q.blocks nb).tail (some x)) rfl rfl rfl rfl ?_ (fun b hne => if_neg hne) rfl (fun _ _ => rfl)
      rfl fun since _ => ?_⟩
  · rw [show (Producer.inside mode x (.storeNextTail nb (q.blocks nb).tail)).builtAt nb = some x from
      if_pos rfl]
    exact (hholds.setLocalFront _).build x
  · refine ⟨hhead, filled_modify _ (h.shape.head_ne hhead h.shape.ring.last_mem) hfilled, ?_, ?_⟩
    · rw [blocks_modify_self]
      rfl
    · rw [blocks_modify_self]
      rfl

/-- The next block gets its element before it becomes the tail block. -/
theorem Holding.storeNextTail (h : Holding M m ℓ a ⟨q, .inside mode x (.storeNextTail nb nbt), c⟩)
    (hm : 0 < m) :
    EnqueueFollows M m a mode x c (q.enqueueStep M mode x malloc (.storeNextTail nb nbt)) := by
  obtain ⟨since₀, -, -, hat₀⟩ := h.producerAt
  obtain ⟨hhead, hfilled, rfl, hlocal⟩ := hat₀
  have hmem := h.shape.head_mem hhead
  have hholds : (q.blocks nb).Holds [] (c.takenAt nb) (some x) := by
    have hholds := h.shape.holds _ hmem
    rw [h.ahead nb (List.mem_of_mem_head? hhead)] at hholds
    rwa [show (Producer.inside mode x (.storeNextTail nb (q.blocks nb).tail)).builtAt nb = some x from
      if_pos rfl] at hholds
  have hmask : 0 < (q.blocks nb).sizeMask := h.capacity.sizeMask_pos hm (h.shape.made nb hmem)
  have htaken : c.takenAt nb = true → ([] : List T) ≠ [] := fun htaken => by
    have hne := h.ne_nil_of_taken htaken
    rwa [h.ahead nb (List.mem_of_mem_head? hhead)] at hne
  have hpush : ((q.blocks nb).setTail ((q.blocks nb).wrap ((q.blocks nb).tail + 1))).Holds [x]
      (c.takenAt nb) none := hholds.push hmask htaken
  refine ⟨_, h.modifyNext hhead (fun b => b.setTail (b.wrap ((q.blocks nb).tail + 1))) rfl rfl rfl rfl
    hpush (fun b hne => (if_neg hne).symm) (if_pos rfl).symm
    (fun b hne => if_neg hne) rfl fun since _ => ?_⟩
  refine ⟨hhead, filled_modify _ (h.shape.head_ne hhead h.shape.ring.last_mem) hfilled, ?_⟩
  rw [blocks_modify_self, Layout.contents_set_self]
  refine ⟨hlocal ▸ hholds.front_le, 0, hmask, ?_⟩
  show (q.blocks nb).front = (q.blocks nb).wrap ((q.blocks nb).localFront + 0)
  rw [hlocal, hholds.front_eq]

/-- The block a call makes has its element, and nobody else has come to it. -/
def madeBlock (q : ReaderWriterQueue T) (M : Nat) (x : T) (tb : Nat) : Block T :=
  ((((newBlock (q.newBlockSize M)).put 0 (some x)).setTail 1).setLocalTail 1).setNext
    (q.blocks tb).next

def withMadeBlock (q : ReaderWriterQueue T) (M : Nat) (x : T) (tb : Nat) : ReaderWriterQueue T :=
  ({ q with largestBlockSize := q.newBlockSize M } : ReaderWriterQueue T).addBlock (madeBlock q M x tb)

theorem blocks_withMadeBlock_self : (withMadeBlock q M x tb).blocks q.made = madeBlock q M x tb :=
  Function.update_self _ _ _

theorem blocks_withMadeBlock_of_ne (h : b ≠ q.made) :
    (withMadeBlock q M x tb).blocks b = q.blocks b := Function.update_of_ne h _ _

theorem madeBlock_holds (h : Capacity M m ℓ q) : (madeBlock q M x tb).Holds [x] false none := by
  obtain ⟨⟨k, hk, hsize⟩, -⟩ := h.newBlockSize
  have hpow : 2 ≤ 2 ^ k := Nat.pow_le_pow_right (n := 2) (by decide) hk
  have hmask : (madeBlock q M x tb).sizeMask = 2 ^ k - 1 := by
    rw [← hsize]
    rfl
  have hsz : ∃ k, (madeBlock q M x tb).sizeMask + 1 = 2 ^ k := ⟨k, by omega⟩
  refine ⟨hsz, Nat.zero_le _, ?_, ?_, fun i hi => ?_⟩
  · rw [List.length_singleton, hmask]
    omega
  · show 1 = (madeBlock q M x tb).wrap (0 + 1)
    rw [Block.wrap_of_le hsz (by omega)]
  · show Function.update (fun _ => none) 0 (some x) ((madeBlock q M x tb).wrap (0 + i)) = _
    rw [Nat.zero_add, Block.wrap_of_le hsz hi]
    cases i with
    | zero => rfl
    | succ i =>
      rw [Function.update_of_ne (Nat.succ_ne_zero i)]
      simp [slotAt]

theorem madeBlock_room (h : Capacity M m ℓ q) : (madeBlock q M x tb).Room [x] 0 :=
  have hholds : (madeBlock q M x tb).Holds [x] false none := madeBlock_holds h
  ⟨Nat.zero_le _, 0, hholds.length_le, hholds.front_eq.symm⟩

theorem Capacity.withMadeBlock (h : Capacity M m ℓ q) :
    Capacity M m (ℓ.set q.made [x]) (withMadeBlock q M x tb) := by
  obtain ⟨hsizes, hle⟩ := h.newBlockSize
  have hnew : (madeBlock q M x tb).sizeMask = q.newBlockSize M - 1 := rfl
  have hmask : ∀ {b n}, b < q.made + 1 → (b < q.made → (q.blocks b).sizeMask = n) →
      q.newBlockSize M - 1 = n → ((Queue.withMadeBlock q M x tb).blocks b).sizeMask = n := by
    intro b n hb hold heq
    rcases Nat.lt_or_eq_of_le (Nat.le_of_lt_succ hb) with hlt | rfl
    · rw [blocks_withMadeBlock_of_ne (Nat.ne_of_lt hlt), hold hlt]
    · rw [blocks_withMadeBlock_self, hnew, heq]
  refine ⟨hsizes, ?_⟩
  rcases h.enough with ⟨hmax, hall⟩ | ⟨hmax, hall, hsum⟩
  · refine .inl ⟨hmax.trans_le hle, fun b hb => ?_⟩
    rcases Nat.lt_or_eq_of_le (Nat.le_of_lt_succ hb) with hlt | rfl
    · rw [blocks_withMadeBlock_of_ne (q := q) (Nat.ne_of_lt hlt)]
      exact hall b hlt
    · rw [blocks_withMadeBlock_self, hnew]
      exact Nat.le_sub_one_of_lt (hmax.trans_le hle)
  · have heq : q.newBlockSize M = q.largestBlockSize := if_pos hmax
    refine .inr ⟨hmax.trans hle, fun b hb => hmask hb (fun hlt => ?_) rfl, ?_⟩
    · show (q.blocks b).sizeMask = q.newBlockSize M - 1
      rw [hall b hlt, heq]
    · show m ≤ (ℓ.ring.length - 1) * (q.newBlockSize M - 1)
      rw [heq]
      exact hsum

theorem Holding.makeBlock (h : Holding M m ℓ a ⟨q, .inside mode x (.makeBlock tb), c⟩) :
    EnqueueFollows M m a mode x c (q.enqueueStep M mode x malloc (.makeBlock tb)) := by
  obtain ⟨since₀, -, -, rfl, hfilled, hmax⟩ := h.producerAt
  cases malloc with
  | false => exact ⟨ℓ, h.givesUp rfl rfl rfl⟩
  | true =>
    have hmade : ∀ {b}, b ∈ ℓ.ring → b ≠ q.made := fun hb => Nat.ne_of_lt (h.shape.made _ hb)
    have hlive : ∀ {b}, b ∈ ℓ.live → b ≠ q.made := fun hb => hmade (List.mem_append_left _ hb)
    have hshape : Shape (ℓ.set q.made [x]) (withMadeBlock q M x q.tailBlock) c.takenAt fun _ => none :=
      { ring := h.shape.ring.congr fun b hb => by rw [blocks_withMadeBlock_of_ne (hmade hb)]
        made := fun b hb => Nat.lt_succ_of_lt (h.shape.made b hb)
        holds := fun b hb => by
          rw [blocks_withMadeBlock_of_ne (hmade hb), Layout.contents_set_of_ne (hmade hb)]
          exact h.shape.holds b hb
        behind := fun b hb => by
          rw [Layout.contents_set_of_ne (hlive (List.mem_of_mem_tail hb))]
          exact h.shape.behind b hb
        full := fun b hb => by
          have hne := hlive (List.mem_of_mem_tail (List.mem_of_mem_dropLast hb))
          rw [Layout.contents_set_of_ne hne, blocks_withMadeBlock_of_ne hne]
          exact h.shape.full b hb
        knows := by
          have hne := hmade h.shape.frontBlock_mem
          show ((withMadeBlock q M x q.tailBlock).blocks q.frontBlock).Knows
            ((ℓ.set q.made [x]).contents q.frontBlock) 0
          rw [Layout.contents_set_of_ne hne, blocks_withMadeBlock_of_ne hne]
          exact h.shape.knows
        room := by
          have hne := hmade h.shape.tailBlock_mem
          show ((withMadeBlock q M x q.tailBlock).blocks q.tailBlock).Room
            ((ℓ.set q.made [x]).contents q.tailBlock) 0
          rw [Layout.contents_set_of_ne hne, blocks_withMadeBlock_of_ne hne]
          exact h.shape.room }
    have hkeep : ProducerKeeps ℓ (ℓ.set q.made [x]) q (withMadeBlock q M x q.tailBlock) := by
      refine ⟨rfl, id, fun b hb => ?_, fun b hb => ?_, fun b hb => ?_, fun b hb _ => ?_, fun b hb => ?_,
        fun b hb _ => Layout.contents_set_of_ne (hlive hb)⟩
      all_goals first
        | rw [blocks_withMadeBlock_of_ne (hlive hb)]
        | rw [Layout.contents_set_of_ne (hlive hb)]
    have hnot : q.made ∉ ℓ.ring := fun hmem => hmade hmem rfl
    refine ⟨_, h.goesOn hshape (fun b hb => ?_) h.capacity.withMadeBlock
      (congrArg (· + 1)) (Layout.items_set_of_not_mem fun hmem => hnot (List.mem_append_left _ hmem)) hkeep
      fun since _ _ _ => ?_⟩
    · rw [Layout.contents_set_of_ne (hmade (List.mem_append_right _ hb))]
      exact h.ahead b hb
    · have hne := hmade h.shape.tailBlock_mem
      refine ⟨rfl, fun hfront => ?_, Nat.lt_succ_self _, hnot, Layout.contents_set_self, ?_, ?_, ?_⟩
      · show ((ℓ.set q.made [x]).contents q.tailBlock).length =
          ((withMadeBlock q M x q.tailBlock).blocks q.tailBlock).sizeMask
        rw [Layout.contents_set_of_ne hne, blocks_withMadeBlock_of_ne hne]
        exact hfilled hfront
      · exact (@blocks_withMadeBlock_self _ M q x q.tailBlock) ▸ madeBlock_holds h.capacity
      · exact (@blocks_withMadeBlock_self _ M q x q.tailBlock) ▸ madeBlock_room h.capacity
      · show ((withMadeBlock q M x q.tailBlock).blocks q.made).next =
          ((withMadeBlock q M x q.tailBlock).blocks q.tailBlock).next
        rw [blocks_withMadeBlock_self, blocks_withMadeBlock_of_ne hne]
        rfl

/-- The ring is closed again with the new block behind the tail block. -/
theorem Holding.storeNext (h : Holding M m ℓ a ⟨q, .inside mode x (.storeNext tb nb), c⟩) :
    EnqueueFollows M m a mode x c (q.enqueueStep M mode x malloc (.storeNext tb nb)) := by
  obtain ⟨since₀, -, -, rfl, hfilled, hlt, hnot, hcontents, hholds, hroom, hnext⟩ := h.producerAt
  have hne : nb ≠ q.tailBlock := by
    rintro rfl
    exact hnot h.shape.tailBlock_mem
  have hblock : ∀ {α : Type} (field : Block T → α) (b : Nat),
      field ((q.blocks q.tailBlock).setNext nb) = field (q.blocks q.tailBlock) →
      field ((q.modify q.tailBlock fun b => b.setNext nb).blocks b) = field (q.blocks b) :=
    fun field b heq => modify_field field _ heq b
  have hring : LinkedRing (fun b => ((q.modify q.tailBlock fun b => b.setNext nb).blocks b).next)
      q.frontBlock q.tailBlock ℓ.live (nb :: ℓ.spare) := by
    have hinsert := h.shape.ring.insert hnot hnext
    refine hinsert.congr fun b _ => ?_
    by_cases heq : b = q.tailBlock
    · rw [heq, blocks_modify_self, Function.update_self]
      rfl
    · rw [blocks_modify_of_ne _ heq, Function.update_of_ne heq]
  have hmem : ∀ {b}, b ∈ ({ ℓ with spare := nb :: ℓ.spare } : Layout T).ring → b = nb ∨ b ∈ ℓ.ring := by
    intro b hb
    exact List.mem_cons.1 ((List.perm_middle).mem_iff.1 hb)
  have htaken : c.takenAt nb = false := by
    by_contra htaken
    have hcons := h.consumer
    cases hc : c with
    | idle =>
      rw [hc] at htaken
      exact htaken rfl
    | inside pc =>
      rw [hc] at htaken hcons
      obtain ⟨seen, -, hpc⟩ := hcons
      cases pc with
      | storeFront fb bf r =>
        obtain rfl : nb = fb := of_decide_eq_true (Bool.not_eq_false _ ▸ htaken)
        exact hnot (hpc.1 ▸ h.shape.frontBlock_mem)
      | _ => exact htaken rfl
  have hlen : ({ ℓ with spare := nb :: ℓ.spare } : Layout T).ring.length = ℓ.ring.length + 1 := by
    simp [Layout.ring, Nat.add_assoc]
  refine ⟨{ ℓ with spare := nb :: ℓ.spare }, h.goesOn ?_ ?_ ?_ (fun hall => ?_) rfl ?_ fun since _ _ _ => ?_⟩
  · refine ⟨hring, fun b hb => ?_, fun b hb => ?_, h.shape.behind, fun b hb => ?_, ?_, ?_⟩
    · rcases hmem hb with rfl | hb
      · exact hlt
      · exact h.shape.made b hb
    · rcases hmem hb with rfl | hb
      · rw [blocks_modify_of_ne _ hne, htaken]
        show (q.blocks b).Holds (ℓ.contents b) false none
        rw [hcontents]
        exact hholds
      · have hold := h.shape.holds b hb
        by_cases heq : b = q.tailBlock
        · subst heq
          rw [blocks_modify_self]
          exact hold.setNext _
        · rw [blocks_modify_of_ne _ heq]
          exact hold
    · show (ℓ.contents b).length = _
      rw [hblock Block.sizeMask b rfl]
      exact h.shape.full b hb
    · have hknows := h.shape.knows
      show ((q.modify q.tailBlock fun b => b.setNext nb).blocks q.frontBlock).Knows
        (ℓ.contents q.frontBlock) 0
      by_cases heq : q.frontBlock = q.tailBlock
      · rw [heq, blocks_modify_self, ← heq]
        exact hknows
      · rw [blocks_modify_of_ne _ heq]
        exact hknows
    · show ((q.modify q.tailBlock fun b => b.setNext nb).blocks q.tailBlock).Room
        (ℓ.contents q.tailBlock) 0
      rw [blocks_modify_self]
      exact h.shape.room
  · intro b hb
    rcases List.mem_cons.1 hb with rfl | hold
    · exact hcontents.trans (if_pos rfl).symm
    · have hbn : b ≠ nb := fun heq => hnot (List.mem_append_right _ (heq ▸ hold))
      exact (h.ahead b hold).trans (if_neg hbn).symm
  · refine ⟨h.capacity.sizes, ?_⟩
    rcases h.capacity.enough with ⟨hmax, hall⟩ | ⟨hmax, hall, hsum⟩
    · exact .inl ⟨hmax, fun b hb => (hblock Block.sizeMask b rfl).symm ▸ hall b hb⟩
    · refine .inr ⟨hmax, fun b hb => (hblock Block.sizeMask b rfl).trans (hall b hb), hsum.trans ?_⟩
      rw [hlen]
      exact Nat.mul_le_mul_right _ (Nat.sub_le_sub_right (Nat.le_succ _) 1)
  · exact hall.trans hlen.symm
  · refine ⟨rfl, id, fun b _ => hblock Block.front b rfl, fun b _ => hblock Block.sizeMask b rfl,
      fun b _ => hblock Block.localTail b rfl, fun b _ hb => ?_, fun _ _ => List.prefix_rfl,
      fun _ _ _ => rfl⟩
    rw [blocks_modify_of_ne _ hb]
  · refine ⟨rfl, fun hfront => (hfilled hfront).trans (hblock Block.sizeMask _ rfl).symm, ?_⟩
    rw [blocks_modify_of_ne _ hne]
    show (q.blocks nb).Room (ℓ.contents nb) 0
    rw [hcontents]
    exact hroom

/-- The next block becomes the tail block, and its element the queue's last. -/
theorem Holding.storeTailBlock (h : Holding M m ℓ a ⟨q, .inside mode x (.storeTailBlock nb), c⟩) :
    EnqueueFollows M m a mode x c (q.enqueueStep M mode x malloc (.storeTailBlock nb)) := by
  obtain ⟨since₀, -, -, hhead, hfilled, hroom⟩ := h.producerAt
  obtain ⟨rest, hspare⟩ : ∃ rest, ℓ.spare = nb :: rest := by
    cases hs : ℓ.spare with
    | nil =>
      rw [hs] at hhead
      cases hhead
    | cons b rest =>
      rw [hs] at hhead
      exact ⟨rest, by rw [Option.some.inj hhead]⟩
  have hcontents : ℓ.contents nb = [x] :=
    (h.ahead nb (List.mem_of_mem_head? hhead)).trans (if_pos rfl)
  have hring : LinkedRing (fun b => (q.blocks b).next) q.frontBlock nb (ℓ.live ++ [nb]) rest := by
    have hring := h.shape.ring
    rw [show (Threads.mk q (.inside mode x (.storeTailBlock nb)) c).queue = q from rfl, hspare] at hring
    exact hring.advance_last
  obtain ⟨fb, more, hlive⟩ := List.exists_cons_of_ne_nil (List.ne_nil_of_mem h.shape.ring.last_mem)
  have hfb : fb = q.frontBlock := by
    have hhd := h.shape.ring.head
    rw [hlive] at hhd
    exact Option.some.inj hhd
  have hmem : ∀ {b}, b ∈ ({ ℓ with live := ℓ.live ++ [nb], spare := rest } : Layout T).ring ↔
      b ∈ ℓ.ring := by
    intro b
    simp [Layout.ring, hspare]
  have hlen : ({ ℓ with live := ℓ.live ++ [nb], spare := rest } : Layout T).ring.length =
      ℓ.ring.length := by
    simp [Layout.ring, hspare]
  have htail : (ℓ.live ++ [nb]).tail = ℓ.live.tail ++ [nb] := by rw [hlive]; rfl
  refine ⟨{ ℓ with live := ℓ.live ++ [nb], spare := rest }, h.returns ?_ ?_ ?_ (·.trans hlen.symm) ?_ ?_⟩
  · refine ⟨hring, fun b hb => h.shape.made b (hmem.1 hb), fun b hb => h.shape.holds b (hmem.1 hb),
      fun b hb => ?_, fun b hb => ?_, h.shape.knows, hroom⟩
    · rw [htail] at hb
      rcases List.mem_append.1 hb with hb | hb
      · exact h.shape.behind b hb
      · obtain rfl := List.mem_singleton.1 hb
        show ℓ.contents b ≠ []
        rw [hcontents]
        exact List.cons_ne_nil _ _
    · rw [htail, List.dropLast_concat] at hb
      rcases List.eq_nil_or_concat more with rfl | ⟨mids, last, rfl⟩
      · rw [hlive] at hb
        exact absurd hb List.not_mem_nil
      · rw [List.concat_eq_append] at hlive
        have hlast : last = q.tailBlock := by
          have hl := h.shape.ring.getLast
          rw [hlive, ← List.cons_append, List.getLast?_concat] at hl
          exact Option.some.inj hl
        rw [hlive, List.tail_cons] at hb
        rcases List.mem_append.1 hb with hb | hb
        · refine h.shape.full b ?_
          rw [hlive, List.tail_cons, List.dropLast_concat]
          exact hb
        · obtain rfl := List.mem_singleton.1 hb
          have hne : q.tailBlock ≠ q.frontBlock := by
            have hnodup := h.shape.ring.nodup.of_append_left
            rw [hlive, List.nodup_cons, hfb, hlast] at hnodup
            exact fun heq => hnodup.1 (by simp [heq])
          show (ℓ.contents b).length = (q.blocks b).sizeMask
          rw [hlast]
          exact hfilled hne
  · intro b hb
    have hbn : b ≠ nb := by
      rintro rfl
      have hnodup := h.shape.ring.nodup.of_append_right
      rw [hspare] at hnodup
      exact (List.nodup_cons.1 hnodup).1 hb
    exact (h.ahead b (hspare ▸ List.mem_cons_of_mem nb hb)).trans (if_neg hbn)
  · refine ⟨h.capacity.sizes, ?_⟩
    rw [hlen]
    exact h.capacity.enough
  · show (ℓ.live ++ [nb]).flatMap ℓ.contents = ℓ.live.flatMap ℓ.contents ++ [x]
    rw [List.flatMap_append, List.flatMap_singleton, hcontents]
  · refine ⟨rfl, fun _ => h.shape.head_ne hhead h.shape.ring.front_mem, fun _ _ => rfl, fun _ _ => rfl,
      fun _ _ => rfl, fun _ _ _ => rfl, fun _ _ => List.prefix_rfl, fun _ _ _ => rfl⟩

theorem Holding.enqueueStep {pc : EnqueueAt} (h : Holding M m ℓ a ⟨q, .inside mode x pc, c⟩)
    (hm : 0 < m) : EnqueueFollows M m a mode x c (q.enqueueStep M mode x malloc pc) := by
  cases pc with
  | loadFront => exact h.loadFront malloc
  | putElement => exact h.putElement malloc
  | storeTail => exact h.storeTail malloc
  | loadFrontBlock => exact h.loadFrontBlock malloc
  | loadNextFront => exact h.loadNextFront malloc
  | putNextElement => exact h.putNextElement malloc
  | storeNextTail => exact h.storeNextTail malloc hm
  | makeBlock => exact h.makeBlock malloc
  | storeNext => exact h.storeNext malloc
  | storeTailBlock => exact h.storeTailBlock malloc

end Steps

/-- A call starts with what the producer knows of the tail block by itself. -/
theorem Holding.startEnqueue (h : Holding M m ℓ a ⟨q, .idle, c⟩) (mode : AllocationMode) (x : T) :
    Holding M m ℓ { a with producer := .calling x a.left } ⟨q, .inside mode x q.startEnqueue, c⟩ := by
  have hholds := h.shape.holds _ h.shape.tailBlock_mem
  have hpc : ProducerAt m ℓ q x (a.entered.length - a.left) q.startEnqueue ∧
      (Producer.inside mode x q.startEnqueue).builtAt = (fun _ => none) ∧
      (Producer.inside mode x q.startEnqueue).aheadIn = (fun _ => []) ∧
      (Producer.inside mode x q.startEnqueue).unlinked = 0 := by
    unfold ReaderWriterQueue.startEnqueue
    simp only
    split
    · next hne => exact ⟨⟨rfl, rfl, rfl, h.shape.room.of_ne hholds hne⟩, rfl, rfl, rfl⟩
    · exact ⟨⟨rfl, rfl, rfl⟩, rfl, rfl, rfl⟩
  obtain ⟨hat, hbuilt, hahead, hunlinked⟩ := hpc
  exact
    { shape := by
        show Shape ℓ q c.takenAt (Producer.inside mode x q.startEnqueue).builtAt
        rw [hbuilt]
        exact h.shape
      ahead := by
        show ∀ b ∈ ℓ.spare, ℓ.contents b = (Producer.inside mode x q.startEnqueue).aheadIn b
        rw [hahead]
        exact h.ahead
      capacity := h.capacity
      all := by
        show q.made = ℓ.ring.length + (Producer.inside mode x q.startEnqueue).unlinked
        rw [hunlinked]
        exact h.all
      left_le := h.left_le
      items := h.items
      producer := ⟨a.left, rfl, Nat.le_refl _, hat⟩
      consumer := h.consumer.mono rfl h.shape.ring (.refl ℓ q) }

end KjRedis.Queue
