import KjRedis.Lib.LinkedRing
import KjRedis.Queue.Block

/-! What holds between any two steps of the two threads: where the elements are, and what
each thread may rely on while the other one goes on. -/
namespace KjRedis.Queue

variable {T : Type}

/-- The elements of each block; the blocks from the front block to the tail block, and those
behind them. -/
structure Layout (T : Type) where
  contents : Nat → List T
  live : List Nat
  spare : List Nat

def Layout.ring (ℓ : Layout T) : List Nat := ℓ.live ++ ℓ.spare

def Layout.items (ℓ : Layout T) : List T := ℓ.live.flatMap ℓ.contents

def Layout.set (ℓ : Layout T) (b : Nat) (xs : List T) : Layout T :=
  { ℓ with contents := Function.update ℓ.contents b xs }

/-- The block whose first element is taken but still before its `front`. -/
def Consumer.takenAt : Consumer T → Nat → Bool
  | .inside (.storeFront frontBlock _ _) => fun b => b = frontBlock
  | _ => fun _ => false

/-- The block with an element behind its `tail`. -/
def Producer.builtAt : Producer T → Nat → Option T
  | .inside _ x (.storeTail tailBlock _) => fun b => if b = tailBlock then some x else none
  | .inside _ x (.storeNextTail block _) => fun b => if b = block then some x else none
  | _ => fun _ => none

/-- What is in a block that no consumer gets to yet. -/
def Producer.aheadIn : Producer T → Nat → List T
  | .inside _ x (.storeTailBlock block) => fun b => if b = block then [x] else []
  | _ => fun _ => []

/-- How many blocks are made but not in the ring yet. -/
def Producer.unlinked : Producer T → Nat
  | .inside _ _ (.storeNext _ _) => 1
  | _ => 0

/-- The ring of blocks and what is in them. -/
structure Shape (ℓ : Layout T) (q : ReaderWriterQueue T) (taken : Nat → Bool)
    (built : Nat → Option T) : Prop where
  ring : LinkedRing (fun b => (q.blocks b).next) q.frontBlock q.tailBlock ℓ.live ℓ.spare
  made : ∀ b ∈ ℓ.ring, b < q.made
  holds : ∀ b ∈ ℓ.ring, (q.blocks b).Holds (ℓ.contents b) (taken b) (built b)
  behind : ∀ b ∈ ℓ.live.tail, ℓ.contents b ≠ []
  full : ∀ b ∈ ℓ.live.tail.dropLast, (ℓ.contents b).length = (q.blocks b).sizeMask
  knows : (q.blocks q.frontBlock).Knows (ℓ.contents q.frontBlock) 0
  room : (q.blocks q.tailBlock).Room (ℓ.contents q.tailBlock) 0

/-- Blocks of one size are made: each of them takes `maxSize` elements, or else all together
without one of them. -/
structure Capacity (maxBlockSize maxSize : Nat) (ℓ : Layout T) (q : ReaderWriterQueue T) : Prop where
  sizes : ∃ k, 1 ≤ k ∧ q.largestBlockSize = 2 ^ k
  enough : (maxSize < q.largestBlockSize ∧ ∀ b < q.made, maxSize ≤ (q.blocks b).sizeMask) ∨
    (maxBlockSize ≤ q.largestBlockSize ∧
      (∀ b < q.made, (q.blocks b).sizeMask = q.largestBlockSize - 1) ∧
      maxSize ≤ (ℓ.ring.length - 1) * (q.largestBlockSize - 1))

/-- The producer leaves the tail block only when it is full, but the consumer may have gone
on in it since. -/
def Filled (ℓ : Layout T) (q : ReaderWriterQueue T) : Prop :=
  q.tailBlock ≠ q.frontBlock → (ℓ.contents q.tailBlock).length = (q.blocks q.tailBlock).sizeMask

/-- What holds of the producer's locals. `n` is the number of elements that were in the queue
when its call started, or have come since. -/
def ProducerAt (maxSize : Nat) (ℓ : Layout T) (q : ReaderWriterQueue T) (x : T) (n : Nat) :
    EnqueueAt → Prop
  | .loadFront tailBlock blockTail nextBlockTail =>
    tailBlock = q.tailBlock ∧ blockTail = (q.blocks tailBlock).tail ∧
      nextBlockTail = (q.blocks tailBlock).wrap (blockTail + 1)
  | .putElement tailBlock blockTail nextBlockTail =>
    tailBlock = q.tailBlock ∧ blockTail = (q.blocks tailBlock).tail ∧
      nextBlockTail = (q.blocks tailBlock).wrap (blockTail + 1) ∧
      (q.blocks tailBlock).Room (ℓ.contents tailBlock) 1
  | .storeTail tailBlock nextBlockTail =>
    tailBlock = q.tailBlock ∧
      nextBlockTail = (q.blocks tailBlock).wrap ((q.blocks tailBlock).tail + 1) ∧
      (q.blocks tailBlock).Room (ℓ.contents tailBlock) 1
  | .loadFrontBlock tailBlock =>
    tailBlock = q.tailBlock ∧ Filled ℓ q ∧
      ((q.blocks tailBlock).next = q.frontBlock → maxSize ≤ n)
  | .loadNextFront block => ℓ.spare.head? = some block ∧ Filled ℓ q
  | .putNextElement block blockFront blockTail =>
    ℓ.spare.head? = some block ∧ Filled ℓ q ∧ blockFront = (q.blocks block).front ∧
      blockTail = (q.blocks block).tail
  | .storeNextTail block blockTail =>
    ℓ.spare.head? = some block ∧ Filled ℓ q ∧ blockTail = (q.blocks block).tail ∧
      (q.blocks block).localFront = (q.blocks block).front
  | .makeBlock tailBlock => tailBlock = q.tailBlock ∧ Filled ℓ q ∧ maxSize ≤ n
  | .storeNext tailBlock block =>
    tailBlock = q.tailBlock ∧ Filled ℓ q ∧ block < q.made ∧ block ∉ ℓ.ring ∧
      ℓ.contents block = [x] ∧ (q.blocks block).Holds [x] false none ∧
      (q.blocks block).Room [x] 0 ∧ (q.blocks block).next = (q.blocks tailBlock).next
  | .storeTailBlock block =>
    ℓ.spare.head? = some block ∧ Filled ℓ q ∧ (q.blocks block).Room (ℓ.contents block) 0

/-- What holds of the consumer's locals. `seenEmpty` says that the queue was empty at some
moment of its call. -/
def ConsumerAt (ℓ : Layout T) (q : ReaderWriterQueue T) (seenEmpty : Bool) : DequeueAt T → Prop
  | .loadTail frontBlock blockFront =>
    frontBlock = q.frontBlock ∧ blockFront = (q.blocks frontBlock).front
  | .loadTailBlock frontBlock =>
    frontBlock = q.frontBlock ∧ (q.tailBlock = frontBlock → seenEmpty = true)
  | .reloadTail => q.tailBlock ≠ q.frontBlock
  | .loadNext frontBlock =>
    frontBlock = q.frontBlock ∧ q.tailBlock ≠ q.frontBlock ∧ ℓ.contents q.frontBlock = []
  | .loadNextTail block blockFront =>
    q.tailBlock ≠ q.frontBlock ∧ ℓ.contents q.frontBlock = [] ∧
      block = (q.blocks q.frontBlock).next ∧ blockFront = (q.blocks block).front
  | .storeFrontBlock block blockFront blockTail =>
    q.tailBlock ≠ q.frontBlock ∧ ℓ.contents q.frontBlock = [] ∧
      block = (q.blocks q.frontBlock).next ∧ blockFront = (q.blocks block).front ∧
      blockFront ≠ blockTail ∧ (q.blocks block).Knows (ℓ.contents block) 1
  | .takeElement frontBlock blockFront =>
    frontBlock = q.frontBlock ∧ blockFront = (q.blocks frontBlock).front ∧
      (q.blocks frontBlock).Knows (ℓ.contents frontBlock) 1
  | .storeFront frontBlock blockFront result =>
    frontBlock = q.frontBlock ∧
      blockFront = (q.blocks frontBlock).wrap ((q.blocks frontBlock).front + 1) ∧
      (q.blocks frontBlock).Knows (ℓ.contents frontBlock) 1 ∧
      result = (ℓ.contents frontBlock).head?

variable {ℓ : Layout T} {q : ReaderWriterQueue T} {taken taken' : Nat → Bool}
  {built built' : Nat → Option T} {b c : Nat} {xs : List T} {x : T}

@[simp] theorem blocks_modify_self (f : Block T → Block T) :
    (q.modify b f).blocks b = f (q.blocks b) := Function.update_self _ _ _

theorem blocks_modify_of_ne (f : Block T → Block T) (h : c ≠ b) :
    (q.modify b f).blocks c = q.blocks c := Function.update_of_ne h _ _

/-- What a change to one block leaves as it was in all blocks. -/
theorem modify_field {α : Type} (field : Block T → α) (f : Block T → Block T)
    (h : field (f (q.blocks b)) = field (q.blocks b)) (c : Nat) :
    field ((q.modify b f).blocks c) = field (q.blocks c) := by
  by_cases hc : c = b
  · rw [hc, blocks_modify_self, h]
  · rw [blocks_modify_of_ne f hc]

@[simp] theorem Layout.set_contents (ℓ : Layout T) (b : Nat) : ℓ.set b (ℓ.contents b) = ℓ := by
  rw [Layout.set, Function.update_eq_self]

@[simp] theorem Layout.contents_set_self : (ℓ.set b xs).contents b = xs := Function.update_self _ _ _

theorem Layout.contents_set_of_ne (h : c ≠ b) : (ℓ.set b xs).contents c = ℓ.contents c :=
  Function.update_of_ne h _ _

namespace Shape

theorem frontBlock_mem (h : Shape ℓ q taken built) : q.frontBlock ∈ ℓ.ring :=
  List.mem_append_left _ h.ring.front_mem

theorem tailBlock_mem (h : Shape ℓ q taken built) : q.tailBlock ∈ ℓ.ring :=
  List.mem_append_left _ h.ring.last_mem

theorem head_mem (_h : Shape ℓ q taken built) (hb : ℓ.spare.head? = some b) : b ∈ ℓ.ring :=
  List.mem_append_right _ (List.mem_of_mem_head? hb)

/-- A spare block is neither the front block nor the tail block. -/
theorem head_ne (h : Shape ℓ q taken built) (hb : ℓ.spare.head? = some b) (hc : c ∈ ℓ.live) :
    b ≠ c := by
  rintro rfl
  exact h.ring.not_mem_spare hc (List.mem_of_mem_head? hb)

/-- One block is changed, but not its place in the ring. -/
theorem modify (h : Shape ℓ q taken built) (f : Block T → Block T)
    (hnext : (f (q.blocks b)).next = (q.blocks b).next)
    (hmask : (f (q.blocks b)).sizeMask = (q.blocks b).sizeMask)
    (hholds : (f (q.blocks b)).Holds xs (taken' b) (built' b))
    (htaken : ∀ c, c ≠ b → taken' c = taken c) (hbuilt : ∀ c, c ≠ b → built' c = built c)
    (hbehind : b ∈ ℓ.live.tail → ℓ.contents b <+: xs)
    (hknows : b = q.frontBlock → (f (q.blocks b)).Knows xs 0)
    (hroom : b = q.tailBlock → (f (q.blocks b)).Room xs 0) :
    Shape (ℓ.set b xs) (q.modify b f) taken' built' where
  ring := h.ring.congr fun c _ => modify_field Block.next f hnext c
  made := h.made
  holds := by
    intro c hc
    by_cases heq : c = b
    · subst heq
      rw [blocks_modify_self, Layout.contents_set_self]
      exact hholds
    · rw [blocks_modify_of_ne f heq, Layout.contents_set_of_ne heq, htaken c heq, hbuilt c heq]
      exact h.holds c hc
  behind := by
    intro c hc
    by_cases heq : c = b
    · subst heq
      rw [Layout.contents_set_self]
      rintro rfl
      exact h.behind c hc (List.prefix_nil.1 (hbehind hc))
    · rw [Layout.contents_set_of_ne heq]
      exact h.behind c hc
  full := by
    intro c hc
    have hfull := h.full c hc
    rw [modify_field Block.sizeMask f hmask]
    by_cases heq : c = b
    · subst heq
      have hle : xs.length ≤ (f (q.blocks c)).sizeMask := hholds.length_le
      have hge := (hbehind (List.mem_of_mem_dropLast hc)).length_le
      rw [Layout.contents_set_self]
      omega
    · rw [Layout.contents_set_of_ne heq]
      exact hfull
  knows := by
    show ((q.modify b f).blocks q.frontBlock).Knows ((ℓ.set b xs).contents q.frontBlock) 0
    by_cases heq : q.frontBlock = b
    · rw [heq, blocks_modify_self, Layout.contents_set_self]
      exact hknows heq.symm
    · rw [blocks_modify_of_ne f heq, Layout.contents_set_of_ne heq]
      exact h.knows
  room := by
    show ((q.modify b f).blocks q.tailBlock).Room ((ℓ.set b xs).contents q.tailBlock) 0
    by_cases heq : q.tailBlock = b
    · rw [heq, blocks_modify_self, Layout.contents_set_self]
      exact hroom heq.symm
    · rw [blocks_modify_of_ne f heq, Layout.contents_set_of_ne heq]
      exact h.room

end Shape

/-- What the producer leaves as it is. -/
structure ProducerKeeps (ℓ ℓ' : Layout T) (q q' : ReaderWriterQueue T) : Prop where
  frontBlock : q'.frontBlock = q.frontBlock
  tailBlock : q.tailBlock ≠ q.frontBlock → q'.tailBlock ≠ q.frontBlock
  front : ∀ b ∈ ℓ.live, (q'.blocks b).front = (q.blocks b).front
  sizeMask : ∀ b ∈ ℓ.live, (q'.blocks b).sizeMask = (q.blocks b).sizeMask
  localTail : ∀ b ∈ ℓ.live, (q'.blocks b).localTail = (q.blocks b).localTail
  next : ∀ b ∈ ℓ.live, b ≠ q.tailBlock → (q'.blocks b).next = (q.blocks b).next
  contents : ∀ b ∈ ℓ.live, ℓ.contents b <+: ℓ'.contents b
  contents_eq : ∀ b ∈ ℓ.live, b ≠ q.tailBlock → ℓ'.contents b = ℓ.contents b

theorem ProducerKeeps.knows {ℓ' : Layout T} {q' : ReaderWriterQueue T} {n : Nat}
    (h : ProducerKeeps ℓ ℓ' q q') (hb : b ∈ ℓ.live) (hk : (q.blocks b).Knows (ℓ.contents b) n) :
    (q'.blocks b).Knows (ℓ'.contents b) n := by
  obtain ⟨k, hn, hlen, heq⟩ := hk
  refine ⟨k, hn, hlen.trans (h.contents b hb).length_le, ?_⟩
  rw [h.localTail b hb, h.front b hb, heq, Block.wrap, Block.wrap, h.sizeMask b hb]

/-- The consumer's locals stay right while the producer goes on. -/
theorem ConsumerAt.mono {ℓ' : Layout T} {q' : ReaderWriterQueue T} {seenEmpty : Bool} {pc : DequeueAt T}
    (hring : LinkedRing (fun b => (q.blocks b).next) q.frontBlock q.tailBlock ℓ.live ℓ.spare)
    (hkeep : ProducerKeeps ℓ ℓ' q q') (hpc : ConsumerAt ℓ q seenEmpty pc) :
    ConsumerAt ℓ' q' seenEmpty pc := by
  have hfront := hring.front_mem
  have hnext : q.tailBlock ≠ q.frontBlock → (q.blocks q.frontBlock).next ∈ ℓ.live := by
    intro hne
    obtain ⟨rest, hlive⟩ := hring.live_cons hne
    rw [hlive]
    simp
  cases pc with
  | loadTail fb bf =>
    obtain ⟨rfl, rfl⟩ := hpc
    exact ⟨hkeep.frontBlock.symm, (hkeep.front _ hfront).symm⟩
  | loadTailBlock fb =>
    obtain ⟨rfl, hseen⟩ := hpc
    refine ⟨hkeep.frontBlock.symm, fun heq => hseen ?_⟩
    by_contra hne
    exact hkeep.tailBlock hne heq
  | reloadTail =>
    show q'.tailBlock ≠ q'.frontBlock
    rw [hkeep.frontBlock]
    exact hkeep.tailBlock hpc
  | loadNext fb =>
    obtain ⟨rfl, hne, hnil⟩ := hpc
    refine ⟨hkeep.frontBlock.symm, ?_, ?_⟩
    · rw [hkeep.frontBlock]
      exact hkeep.tailBlock hne
    · rw [hkeep.frontBlock, hkeep.contents_eq _ hfront hne.symm, hnil]
  | loadNextTail nb nbf =>
    obtain ⟨hne, hnil, rfl, rfl⟩ := hpc
    refine ⟨?_, ?_, ?_, ?_⟩
    · rw [hkeep.frontBlock]
      exact hkeep.tailBlock hne
    · rw [hkeep.frontBlock, hkeep.contents_eq _ hfront hne.symm, hnil]
    · rw [hkeep.frontBlock, hkeep.next _ hfront hne.symm]
    · exact (hkeep.front _ (hnext hne)).symm
  | storeFrontBlock nb nbf nbt =>
    obtain ⟨hne, hnil, rfl, rfl, hassert, hknows⟩ := hpc
    refine ⟨?_, ?_, ?_, ?_, hassert, hkeep.knows (hnext hne) hknows⟩
    · rw [hkeep.frontBlock]
      exact hkeep.tailBlock hne
    · rw [hkeep.frontBlock, hkeep.contents_eq _ hfront hne.symm, hnil]
    · rw [hkeep.frontBlock, hkeep.next _ hfront hne.symm]
    · exact (hkeep.front _ (hnext hne)).symm
  | takeElement fb bf =>
    obtain ⟨rfl, rfl, hknows⟩ := hpc
    exact ⟨hkeep.frontBlock.symm, (hkeep.front _ hfront).symm, hkeep.knows hfront hknows⟩
  | storeFront fb bf r =>
    obtain ⟨rfl, rfl, hknows, rfl⟩ := hpc
    refine ⟨hkeep.frontBlock.symm, ?_, hkeep.knows hfront hknows, ?_⟩
    · rw [Block.wrap, Block.wrap, hkeep.front _ hfront, hkeep.sizeMask _ hfront]
    · obtain ⟨more, hmore⟩ := hkeep.contents _ hfront
      rw [← hmore, List.head?_append_of_ne_nil _ hknows.ne_nil]

/-- What the consumer leaves as it is. -/
structure ConsumerKeeps (ℓ ℓ' : Layout T) (q q' : ReaderWriterQueue T) : Prop where
  made : q'.made = q.made
  largestBlockSize : q'.largestBlockSize = q.largestBlockSize
  tailBlock : q'.tailBlock = q.tailBlock
  frontBlock : (q.blocks q.tailBlock).next = q'.frontBlock → (q.blocks q.tailBlock).next = q.frontBlock
  tail : ∀ b, (q'.blocks b).tail = (q.blocks b).tail
  sizeMask : ∀ b, (q'.blocks b).sizeMask = (q.blocks b).sizeMask
  next : ∀ b, (q'.blocks b).next = (q.blocks b).next
  room : ∀ n, (q.blocks q.tailBlock).Room (ℓ.contents q.tailBlock) n →
    (q'.blocks q.tailBlock).Room (ℓ'.contents q.tailBlock) n
  filled : q.tailBlock ≠ q'.frontBlock →
    q.tailBlock ≠ q.frontBlock ∧ ℓ'.contents q.tailBlock = ℓ.contents q.tailBlock
  block : ∀ b, b ∉ ℓ.live → q'.blocks b = q.blocks b
  contents : ∀ b, b ∉ ℓ.live → ℓ'.contents b = ℓ.contents b
  spare : ∀ b, ℓ.spare.head? = some b → ℓ'.spare.head? = some b
  ring : ∀ b, b ∈ ℓ'.ring ↔ b ∈ ℓ.ring

/-- The producer's locals stay right while the consumer goes on. -/
theorem ProducerAt.mono {ℓ' : Layout T} {q' : ReaderWriterQueue T} {maxSize n : Nat} {pc : EnqueueAt}
    (hshape : Shape ℓ q taken built) (hkeep : ConsumerKeeps ℓ ℓ' q q')
    (hpc : ProducerAt maxSize ℓ q x n pc) : ProducerAt maxSize ℓ' q' x n pc := by
  have hfilled : Filled ℓ q → Filled ℓ' q' := by
    intro hfull hne
    rw [hkeep.tailBlock] at hne ⊢
    obtain ⟨hne', heq⟩ := hkeep.filled hne
    rw [heq, hkeep.sizeMask]
    exact hfull hne'
  have hspare : ∀ {b}, ℓ.spare.head? = some b →
      q'.blocks b = q.blocks b ∧ ℓ'.contents b = ℓ.contents b := by
    intro b hb
    have hnot : b ∉ ℓ.live := fun hmem => hshape.ring.not_mem_spare hmem (List.mem_of_mem_head? hb)
    exact ⟨hkeep.block b hnot, hkeep.contents b hnot⟩
  cases pc with
  | loadFront tb bt nbt =>
    obtain ⟨rfl, rfl, rfl⟩ := hpc
    refine ⟨hkeep.tailBlock.symm, (hkeep.tail _).symm, ?_⟩
    rw [Block.wrap, Block.wrap, hkeep.sizeMask]
  | putElement tb bt nbt =>
    obtain ⟨rfl, rfl, rfl, hroom⟩ := hpc
    refine ⟨hkeep.tailBlock.symm, (hkeep.tail _).symm, ?_, hkeep.room 1 hroom⟩
    rw [Block.wrap, Block.wrap, hkeep.sizeMask]
  | storeTail tb nbt =>
    obtain ⟨rfl, rfl, hroom⟩ := hpc
    refine ⟨hkeep.tailBlock.symm, ?_, hkeep.room 1 hroom⟩
    rw [Block.wrap, Block.wrap, hkeep.sizeMask, hkeep.tail]
  | loadFrontBlock tb =>
    obtain ⟨rfl, hfull, hmax⟩ := hpc
    refine ⟨hkeep.tailBlock.symm, hfilled hfull, fun heq => hmax (hkeep.frontBlock ?_)⟩
    rw [← hkeep.next, heq]
  | loadNextFront nb => exact ⟨hkeep.spare _ hpc.1, hfilled hpc.2⟩
  | putNextElement nb nbf nbt =>
    obtain ⟨hhead, hfull, rfl, rfl⟩ := hpc
    refine ⟨hkeep.spare _ hhead, hfilled hfull, ?_, (hkeep.tail _).symm⟩
    rw [(hspare hhead).1]
  | storeNextTail nb nbt =>
    obtain ⟨hhead, hfull, rfl, hlocal⟩ := hpc
    refine ⟨hkeep.spare _ hhead, hfilled hfull, (hkeep.tail _).symm, ?_⟩
    rw [(hspare hhead).1, hlocal]
  | makeBlock tb => exact ⟨hpc.1.trans hkeep.tailBlock.symm, hfilled hpc.2.1, hpc.2.2⟩
  | storeNext tb nb =>
    obtain ⟨rfl, hfull, hlt, hnot, hcontents, hholds, hroom, hnext⟩ := hpc
    have hlive : nb ∉ ℓ.live := fun hmem => hnot (List.mem_append_left _ hmem)
    refine ⟨hkeep.tailBlock.symm, hfilled hfull, hkeep.made ▸ hlt, fun hmem => hnot ((hkeep.ring nb).1 hmem),
      (hkeep.contents nb hlive).trans hcontents, ?_, ?_, ?_⟩
    · rw [hkeep.block nb hlive]
      exact hholds
    · rw [hkeep.block nb hlive]
      exact hroom
    · rw [hkeep.next, hkeep.next, hnext]
  | storeTailBlock nb =>
    obtain ⟨hhead, hfull, hroom⟩ := hpc
    refine ⟨hkeep.spare _ hhead, hfilled hfull, ?_⟩
    rw [(hspare hhead).1, (hspare hhead).2]
    exact hroom

def ProducerRelated (maxSize : Nat) (a : AtomicQueue.State T) (ℓ : Layout T) (q : ReaderWriterQueue T) :
    Producer T → Prop
  | .idle => a.producer = .idle
  | .inside _ x pc => ∃ since, a.producer = .calling x since ∧ since ≤ a.left ∧
      ProducerAt maxSize ℓ q x (a.entered.length - since) pc

def ConsumerRelated (a : AtomicQueue.State T) (ℓ : Layout T) (q : ReaderWriterQueue T) :
    Consumer T → Prop
  | .idle => a.consumer = .idle
  | .inside pc => ∃ seenEmpty, a.consumer = .calling seenEmpty ∧ ConsumerAt ℓ q seenEmpty pc

/-- The elements of the queue are those of its blocks, from the front block to the tail
block. -/
structure Holding (maxBlockSize maxSize : Nat) (ℓ : Layout T) (a : AtomicQueue.State T)
    (s : Threads T) : Prop where
  shape : Shape ℓ s.queue s.consumer.takenAt s.producer.builtAt
  ahead : ∀ b ∈ ℓ.spare, ℓ.contents b = s.producer.aheadIn b
  capacity : Capacity maxBlockSize maxSize ℓ s.queue
  all : s.queue.made = ℓ.ring.length + s.producer.unlinked
  left_le : a.left ≤ a.entered.length
  items : a.items = ℓ.items
  producer : ProducerRelated maxSize a ℓ s.queue s.producer
  consumer : ConsumerRelated a ℓ s.queue s.consumer

def Related (maxBlockSize maxSize : Nat) (a : AtomicQueue.State T) (s : Threads T) : Prop :=
  ∃ ℓ, Holding maxBlockSize maxSize ℓ a s

theorem ConsumerRelated.mono {ℓ' : Layout T} {q' : ReaderWriterQueue T} {c : Consumer T}
    {a a' : AtomicQueue.State T} (ha : a'.consumer = a.consumer)
    (hring : LinkedRing (fun b => (q.blocks b).next) q.frontBlock q.tailBlock ℓ.live ℓ.spare)
    (hkeep : ProducerKeeps ℓ ℓ' q q') (h : ConsumerRelated a ℓ q c) : ConsumerRelated a' ℓ' q' c := by
  cases c with
  | idle => exact ha.trans h
  | inside pc =>
    obtain ⟨seen, hcall, hpc⟩ := h
    exact ⟨seen, ha.trans hcall, hpc.mono hring hkeep⟩

theorem ProducerRelated.mono {ℓ' : Layout T} {q' : ReaderWriterQueue T} {maxSize : Nat} {p : Producer T}
    {a a' : AtomicQueue.State T} (ha : a'.producer = a.producer) (hentered : a'.entered = a.entered)
    (hleft : a.left ≤ a'.left)
    (hshape : Shape ℓ q taken built) (hkeep : ConsumerKeeps ℓ ℓ' q q')
    (h : ProducerRelated maxSize a ℓ q p) : ProducerRelated maxSize a' ℓ' q' p := by
  cases p with
  | idle => exact ha.trans h
  | inside mode x pc =>
    obtain ⟨since, hcall, hsince, hpc⟩ := h
    refine ⟨since, ha.trans hcall, hsince.trans hleft, ?_⟩
    rw [hentered]
    exact hpc.mono hshape hkeep

end KjRedis.Queue
