import Mathlib.Data.Nat.Basic
import Mathlib.Tactic.Ring

/-! `nx_pool` and `nx_array` down to the addresses they hand out: a pop clears the
slot one past the top, and what lies there depends on where the elements are. -/
namespace KjRedis

/-- `nx_pool_t` at address 0: the free part `[last, endAddr)` of its block, the
largest request served from the block, and where other memory comes from. -/
structure NxPool where
  last : Nat
  endAddr : Nat
  max : Nat
  heap : Nat
  deriving DecidableEq, Repr

def nxAlign (d : Nat) : Nat := (d + 7) / 8 * 8

namespace NxPool

def sizeofPool : Nat := 72
def sizeofPoolLarge : Nat := 16
def maxAllocFromPool : Nat := 4095

def create (size : Nat) : NxPool :=
  { last := sizeofPool, endAddr := size, max := min (size - sizeofPool) maxAllocFromPool
    heap := size }

/-- `nx_palloc_small`; a request the block has no room for starts a new block. -/
def pallocSmall (p : NxPool) (size : Nat) : Nat × NxPool :=
  if nxAlign p.last + size ≤ p.endAddr then
    (nxAlign p.last, { p with last := nxAlign p.last + size })
  else (p.heap, { p with heap := p.heap + size })

def pallocLarge (p : NxPool) (size : Nat) : Nat × NxPool :=
  let q := (p.pallocSmall sizeofPoolLarge).2
  (q.heap, { q with heap := q.heap + size })

def palloc (p : NxPool) (size : Nat) : Nat × NxPool :=
  if size ≤ p.max then p.pallocSmall size else p.pallocLarge size

end NxPool

structure NxArray where
  elts : Nat
  nelts : Nat
  size : Nat
  nalloc : Nat
  deriving DecidableEq, Repr

namespace NxArray

def sizeofArray : Nat := 40

def create (p : NxPool) (n size : Nat) : NxArray × NxPool :=
  let p := (p.palloc sizeofArray).2
  let (elts, p) := p.palloc (n * size)
  ({ elts, nelts := 0, size, nalloc := n }, p)

def slot (a : NxArray) (index : Nat) : Nat := a.elts + a.size * index

/-- `memcpy` of `n` bytes on a memory that holds one value at each element's address. -/
def memcpy {α : Type*} (mem : Nat → α) (dst src n : Nat) : Nat → α :=
  fun addr => if dst ≤ addr ∧ addr < dst + n then mem (src + (addr - dst)) else mem addr

/-- `nx_array_push`: the new element's address, with the array, the pool and the
memory after it. -/
def push {α : Type*} (a : NxArray) (p : NxPool) (mem : Nat → α) :
    Nat × NxArray × NxPool × (Nat → α) :=
  if a.nelts = a.nalloc then
    let size := a.size * a.nalloc
    if a.elts + size = p.last ∧ p.last + a.size ≤ p.endAddr then
      (a.slot a.nelts, { a with nalloc := a.nalloc + 1, nelts := a.nelts + 1 },
        { p with last := p.last + a.size }, mem)
    else
      let (new, p) := p.palloc (2 * size)
      (new + a.size * a.nelts,
        { a with elts := new, nalloc := a.nalloc * 2, nelts := a.nelts + 1 },
        p, memcpy mem new a.elts size)
  else (a.slot a.nelts, { a with nelts := a.nelts + 1 }, p, mem)

/-- `nx_array_pop`, whose element is the one past the top. -/
def pop (a : NxArray) : Option Nat × NxArray :=
  if 0 < a.nelts then (some (a.slot a.nelts), { a with nelts := a.nelts - 1 })
  else (none, a)

def at? (a : NxArray) (index : Nat) : Option Nat :=
  if index < a.nelts then some (a.slot index) else none

theorem push_of_lt {α : Type*} {a : NxArray} (p : NxPool) (mem : Nat → α)
    (h : a.nelts < a.nalloc) :
    a.push p mem = (a.slot a.nelts, { a with nelts := a.nelts + 1 }, p, mem) := by
  unfold push
  rw [if_neg (by omega)]

/-- A full array with the pool's free bytes right behind it. -/
theorem push_in_place {α : Type*} {a : NxArray} {p : NxPool} (mem : Nat → α)
    (hfull : a.nelts = a.nalloc)
    (hin : a.elts + a.size * a.nalloc = p.last ∧ p.last + a.size ≤ p.endAddr) :
    a.push p mem = (a.slot a.nelts, { a with nalloc := a.nalloc + 1, nelts := a.nelts + 1 },
      { p with last := p.last + a.size }, mem) := by
  rw [push, if_pos hfull]
  simp only [if_pos hin]

/-- A full array that moves. -/
theorem push_moved {α : Type*} {a : NxArray} {p : NxPool} (mem : Nat → α)
    (hfull : a.nelts = a.nalloc)
    (hin : ¬ (a.elts + a.size * a.nalloc = p.last ∧ p.last + a.size ≤ p.endAddr)) :
    a.push p mem = ((p.palloc (2 * (a.size * a.nalloc))).1 + a.size * a.nelts,
      { a with elts := (p.palloc (2 * (a.size * a.nalloc))).1, nalloc := a.nalloc * 2
               nelts := a.nelts + 1 },
      (p.palloc (2 * (a.size * a.nalloc))).2,
      memcpy mem (p.palloc (2 * (a.size * a.nalloc))).1 a.elts (a.size * a.nalloc)) := by
  rw [push, if_pos hfull]
  simp only [if_neg hin]

theorem pop_of_pos {a : NxArray} (h : 0 < a.nelts) :
    a.pop = (some (a.slot a.nelts), { a with nelts := a.nelts - 1 }) := by
  unfold pop
  rw [if_pos h]

theorem at?_of_lt {a : NxArray} {index : Nat} (h : index < a.nelts) :
    a.at? index = some (a.slot index) := by
  unfold at?
  rw [if_pos h]

theorem at?_of_le {a : NxArray} {index : Nat} (h : a.nelts ≤ index) : a.at? index = none := by
  unfold at?
  rw [if_neg (by omega)]

end NxArray

end KjRedis
