import KjRedis.Lib.AtomicQueue
import Mathlib.Data.UInt
import Mathlib.Logic.Function.Basic

/-! `moodycamel::ReaderWriterQueue`: a ring of blocks, each a circular buffer, that one
thread puts elements into and one other takes them from. Each access to what the other
thread writes is a step, and the steps of the two threads come in any order. -/
namespace KjRedis.Queue

open AtomicQueue (Label)

variable {T : Type}

/-- The objects are in `data`; raw memory is `none`. -/
structure Block (T : Type) where
  front : Nat
  localTail : Nat
  tail : Nat
  localFront : Nat
  next : Nat
  data : Nat → Option T
  sizeMask : Nat

namespace Block

def wrap (b : Block T) (i : Nat) : Nat := i &&& b.sizeMask

def setFront (b : Block T) (front : Nat) : Block T := { b with front }
def setLocalTail (b : Block T) (localTail : Nat) : Block T := { b with localTail }
def setTail (b : Block T) (tail : Nat) : Block T := { b with tail }
def setLocalFront (b : Block T) (localFront : Nat) : Block T := { b with localFront }
def setNext (b : Block T) (next : Nat) : Block T := { b with next }

/-- `new (location) T(..)` for `some`, `element->~T()` for `none`. -/
def put (b : Block T) (i : Nat) (x : Option T) : Block T :=
  { b with data := Function.update b.data i x }

end Block

/-- `make_block`; whoever makes the block sets its `next` before he shows it to others. -/
def newBlock (capacity : Nat) : Block T :=
  { front := 0, localTail := 0, tail := 0, localFront := 0, next := 0, data := fun _ => none
    sizeMask := capacity - 1 }

/-- Blocks go by the order in which they were made, of which there are `made`. -/
structure ReaderWriterQueue (T : Type) where
  blocks : Nat → Block T
  made : Nat
  frontBlock : Nat
  tailBlock : Nat
  largestBlockSize : Nat

namespace ReaderWriterQueue

def modify (q : ReaderWriterQueue T) (b : Nat) (f : Block T → Block T) : ReaderWriterQueue T :=
  { q with blocks := Function.update q.blocks b (f (q.blocks b)) }

/-- A block made by `make_block`, under the next number. -/
def addBlock (q : ReaderWriterQueue T) (b : Block T) : ReaderWriterQueue T :=
  { q with blocks := Function.update q.blocks q.made b, made := q.made + 1 }

end ReaderWriterQueue

/-- The shifts are those of the loop over `i = 1, 2, 4`, with `i << 3`. -/
def ceilToPow2 (x : Nat) : Nat :=
  let x : UInt64 := UInt64.ofNat x - 1
  let x := x ||| x >>> 1
  let x := x ||| x >>> 2
  let x := x ||| x >>> 4
  let x := x ||| x >>> 8
  let x := x ||| x >>> 16
  let x := x ||| x >>> 32
  (x + 1).toNat

/-- The loop of the constructor: each block's `next` is the first block until another
follows it. -/
def ringOfBlocks (size : Nat) : Nat → ReaderWriterQueue T
  | 0 => { blocks := fun _ => newBlock size, made := 0, frontBlock := 0, tailBlock := 0
           largestBlockSize := size }
  | n + 1 =>
    let q := (ringOfBlocks size n).addBlock ((newBlock size).setNext 0)
    if n = 0 then q else q.modify (n - 1) fun b => b.setNext n

/-- The constructor, where no allocation fails. -/
def construct (maxBlockSize maxSize : Nat) : ReaderWriterQueue T :=
  let largestBlockSize := ceilToPow2 (maxSize + 1)
  if largestBlockSize > maxBlockSize * 2 then
    let initialBlockCount := (maxSize + maxBlockSize * 2 - 3) / (maxBlockSize - 1)
    ringOfBlocks maxBlockSize initialBlockCount
  else ringOfBlocks largestBlockSize 1

inductive AllocationMode
  | canAlloc
  | cannotAlloc
  deriving DecidableEq

/-- Where the producer is in `inner_enqueue`: what it does next, and with which locals. -/
inductive EnqueueAt
  /-- `tailBlock_->localFront = tailBlock_->front.load()`. -/
  | loadFront (tailBlock blockTail nextBlockTail : Nat)
  | putElement (tailBlock blockTail nextBlockTail : Nat)
  | storeTail (tailBlock nextBlockTail : Nat)
  /-- `tailBlock_->next.load() != frontBlock`. -/
  | loadFrontBlock (tailBlock : Nat)
  | loadNextFront (tailBlockNext : Nat)
  | putNextElement (tailBlockNext nextBlockFront nextBlockTail : Nat)
  | storeNextTail (tailBlockNext nextBlockTail : Nat)
  | makeBlock (tailBlock : Nat)
  | storeNext (tailBlock newBlock : Nat)
  | storeTailBlock (block : Nat)
  deriving DecidableEq

inductive Producer (T : Type)
  | idle
  | inside (mode : AllocationMode) (element : T) (pc : EnqueueAt)

/-- Where the consumer is in `try_dequeue`. -/
inductive DequeueAt (T : Type)
  /-- `frontBlock_->localTail = frontBlock_->tail.load()`. -/
  | loadTail (frontBlock blockFront : Nat)
  | loadTailBlock (frontBlock : Nat)
  | reloadTail
  | loadNext (frontBlock : Nat)
  | loadNextTail (nextBlock nextBlockFront : Nat)
  | storeFrontBlock (nextBlock nextBlockFront nextBlockTail : Nat)
  /-- `result = std::move(*element)`, and the element is destroyed. -/
  | takeElement (frontBlock blockFront : Nat)
  | storeFront (frontBlock blockFront : Nat) (result : Option T)

inductive Consumer (T : Type)
  | idle
  | inside (pc : DequeueAt T)

structure Threads (T : Type) where
  queue : ReaderWriterQueue T
  producer : Producer T
  consumer : Consumer T

/-- `malloc` says whether an allocation in the producer's step succeeds. -/
inductive Event (T : Type)
  | enqueue (mode : AllocationMode) (element : T)
  | tryDequeue
  | producer (malloc : Bool)
  | consumer

namespace ReaderWriterQueue

/-- `inner_enqueue` up to the first access to what the consumer writes. -/
def startEnqueue (q : ReaderWriterQueue T) : EnqueueAt :=
  let tailBlock := q.tailBlock
  let blockFront := (q.blocks tailBlock).localFront
  let blockTail := (q.blocks tailBlock).tail
  let nextBlockTail := (q.blocks tailBlock).wrap (blockTail + 1)
  if nextBlockTail ≠ blockFront then .putElement tailBlock blockTail nextBlockTail
  else .loadFront tailBlock blockTail nextBlockTail

/-- The size of one more block. -/
def newBlockSize (q : ReaderWriterQueue T) (maxBlockSize : Nat) : Nat :=
  if q.largestBlockSize ≥ maxBlockSize then q.largestBlockSize else q.largestBlockSize * 2

/-- A step of `inner_enqueue`: where the producer is after it, or else what the call has
returned. -/
def enqueueStep (maxBlockSize : Nat) (mode : AllocationMode) (element : T) (malloc : Bool)
    (q : ReaderWriterQueue T) : EnqueueAt → ReaderWriterQueue T × (EnqueueAt ⊕ Bool)
  | .loadFront tailBlock blockTail nextBlockTail =>
    let front := (q.blocks tailBlock).front
    let q := q.modify tailBlock fun b => b.setLocalFront front
    if nextBlockTail ≠ front then (q, .inl (.putElement tailBlock blockTail nextBlockTail))
    else (q, .inl (.loadFrontBlock tailBlock))
  | .putElement tailBlock blockTail nextBlockTail =>
    (q.modify tailBlock fun b => b.put blockTail (some element),
      .inl (.storeTail tailBlock nextBlockTail))
  | .storeTail tailBlock nextBlockTail =>
    (q.modify tailBlock fun b => b.setTail nextBlockTail, .inr true)
  | .loadFrontBlock tailBlock =>
    let next := (q.blocks tailBlock).next
    if next ≠ q.frontBlock then (q, .inl (.loadNextFront next))
    else
      match mode with
      | .canAlloc => (q, .inl (.makeBlock tailBlock))
      | .cannotAlloc => (q, .inr false)
  | .loadNextFront tailBlockNext =>
    let nextBlockFront := (q.blocks tailBlockNext).front
    let q := q.modify tailBlockNext fun b => b.setLocalFront nextBlockFront
    let nextBlockTail := (q.blocks tailBlockNext).tail
    (q, .inl (.putNextElement tailBlockNext nextBlockFront nextBlockTail))
  | .putNextElement tailBlockNext nextBlockFront nextBlockTail =>
    (q.modify tailBlockNext fun b =>
      (b.setLocalFront nextBlockFront).put nextBlockTail (some element),
      .inl (.storeNextTail tailBlockNext nextBlockTail))
  | .storeNextTail tailBlockNext nextBlockTail =>
    (q.modify tailBlockNext fun b => b.setTail (b.wrap (nextBlockTail + 1)),
      .inl (.storeTailBlock tailBlockNext))
  | .makeBlock tailBlock =>
    if malloc then
      let size := q.newBlockSize maxBlockSize
      let block := (((newBlock size).put 0 (some element)).setTail 1).setLocalTail 1
      (({ q with largestBlockSize := size } : ReaderWriterQueue T).addBlock
        (block.setNext (q.blocks tailBlock).next), .inl (.storeNext tailBlock q.made))
    else (q, .inr false)
  | .storeNext tailBlock newBlock =>
    (q.modify tailBlock fun b => b.setNext newBlock, .inl (.storeTailBlock newBlock))
  | .storeTailBlock block => ({ q with tailBlock := block }, .inr true)

/-- `try_dequeue` up to the first access to what the producer writes. -/
def startDequeue (q : ReaderWriterQueue T) : DequeueAt T :=
  let frontBlock := q.frontBlock
  let blockTail := (q.blocks frontBlock).localTail
  let blockFront := (q.blocks frontBlock).front
  if blockFront ≠ blockTail then .takeElement frontBlock blockFront
  else .loadTail frontBlock blockFront

def dequeueStep (q : ReaderWriterQueue T) :
    DequeueAt T → ReaderWriterQueue T × (DequeueAt T ⊕ Option T)
  | .loadTail frontBlock blockFront =>
    let tail := (q.blocks frontBlock).tail
    let q := q.modify frontBlock fun b => b.setLocalTail tail
    if blockFront ≠ tail then (q, .inl (.takeElement frontBlock blockFront))
    else (q, .inl (.loadTailBlock frontBlock))
  | .loadTailBlock frontBlock =>
    if frontBlock ≠ q.tailBlock then (q, .inl .reloadTail) else (q, .inr none)
  | .reloadTail =>
    let frontBlock := q.frontBlock
    let blockTail := (q.blocks frontBlock).tail
    let q := q.modify frontBlock fun b => b.setLocalTail blockTail
    let blockFront := (q.blocks frontBlock).front
    if blockFront ≠ blockTail then (q, .inl (.takeElement frontBlock blockFront))
    else (q, .inl (.loadNext frontBlock))
  | .loadNext frontBlock =>
    let nextBlock := (q.blocks frontBlock).next
    (q, .inl (.loadNextTail nextBlock (q.blocks nextBlock).front))
  | .loadNextTail nextBlock nextBlockFront =>
    let nextBlockTail := (q.blocks nextBlock).tail
    (q.modify nextBlock fun b => b.setLocalTail nextBlockTail,
      .inl (.storeFrontBlock nextBlock nextBlockFront nextBlockTail))
  | .storeFrontBlock nextBlock nextBlockFront _ =>
    ({ q with frontBlock := nextBlock }, .inl (.takeElement nextBlock nextBlockFront))
  | .takeElement frontBlock blockFront =>
    let block := q.blocks frontBlock
    (q.modify frontBlock fun b => b.put blockFront none,
      .inl (.storeFront frontBlock (block.wrap (blockFront + 1)) (block.data blockFront)))
  | .storeFront frontBlock blockFront result =>
    (q.modify frontBlock fun b => b.setFront blockFront, .inr result)

end ReaderWriterQueue

open ReaderWriterQueue

/-- A thread starts a call only where it is in none. -/
def Threads.next (maxBlockSize : Nat) (s : Threads T) : Event T → Option (List (Label T) × Threads T)
  | .enqueue mode element =>
    match s.producer with
    | .idle =>
      some ([.enqueue element], { s with producer := .inside mode element s.queue.startEnqueue })
    | .inside _ _ _ => none
  | .producer malloc =>
    match s.producer with
    | .idle => none
    | .inside mode element pc =>
      match s.queue.enqueueStep maxBlockSize mode element malloc pc with
      | (queue, .inl pc) => some ([], { s with queue, producer := .inside mode element pc })
      | (queue, .inr ok) => some ([.enqueued ok], { s with queue, producer := .idle })
  | .tryDequeue =>
    match s.consumer with
    | .idle => some ([.dequeue], { s with consumer := .inside s.queue.startDequeue })
    | .inside _ => none
  | .consumer =>
    match s.consumer with
    | .idle => none
    | .inside pc =>
      match s.queue.dequeueStep pc with
      | (queue, .inl pc) => some ([], { s with queue, consumer := .inside pc })
      | (queue, .inr result) => some ([.dequeued result], { s with queue, consumer := .idle })

def threads (T : Type) (maxBlockSize : Nat) : History.System (Threads T) (Event T) (Label T) where
  next := Threads.next maxBlockSize

/-- The queue made for `maxSize` elements, before any call. -/
def started (T : Type) (maxBlockSize maxSize : Nat) : Threads T :=
  { queue := construct maxBlockSize maxSize, producer := .idle, consumer := .idle }

end KjRedis.Queue
