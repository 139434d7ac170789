import KjRedis.Base.BipBuf
import KjRedis.Lib.Slice
import KjRedis.Lib.PowerOfTwo

/-! `bip_buf` with its storage and its four indices. A `size_t` is a `Nat`: with a capacity
under `2 ^ 63` none of the sums wraps. -/
namespace KjRedis
open Slice PowerOfTwo

/-- Round up to the next power of two. -/
def nextPowerOfTwo (x : UInt32) : UInt32 :=
  let x := x - 1
  let x := x ||| x >>> 1
  let x := x ||| x >>> 2
  let x := x ||| x >>> 4
  let x := x ||| x >>> 8
  let x := x ||| x >>> 16
  x + 1

theorem nextPowerOfTwo_toNat {x : UInt32} (hpos : 0 < x.toNat) (hx : x.toNat ≤ 2 ^ 31) :
    (nextPowerOfTwo x).toNat = 2 ^ (x.toNat - 1).size := by
  have hsub : (x - 1).toNat = x.toNat - 1 := by
    apply UInt32.toNat_sub_of_le
    exact UInt32.le_iff_toNat_le.2 hpos
  have hsize : (x.toNat - 1).size ≤ 31 := by
    apply Nat.size_le.2
    omega
  have hpow : 2 ^ (x.toNat - 1).size ≤ 2 ^ 31 := Nat.pow_le_pow_right (by decide) hsize
  have hone : 1 ≤ 2 ^ (x.toNat - 1).size := Nat.one_le_two_pow
  have hsmear := (smeared_self (x.toNat - 1)).double.double.double.double.double.eq (by omega)
  unfold nextPowerOfTwo
  simp only [UInt32.toNat_add, UInt32.toNat_or, UInt32.toNat_shiftRight, hsub]
  have hbits := congrArg (fun y => (y + 1) % 2 ^ 32) hsmear
  refine Eq.trans hbits ?_
  omega

theorem le_nextPowerOfTwo {x : UInt32} (hpos : 0 < x.toNat) (hx : x.toNat ≤ 2 ^ 31) :
    x.toNat ≤ (nextPowerOfTwo x).toNat := by
  rw [nextPowerOfTwo_toNat hpos hx]
  have := Nat.lt_size_self (x.toNat - 1)
  omega

structure BipBuf where
  buffer : List UInt8
  availableCapacity : Nat
  aStart : Nat
  aEnd : Nat
  rStart : Nat
  rEnd : Nat

/-- A fresh allocation, whose bytes are whatever was there. -/
def malloc (junk : Nat → UInt8) (size : Nat) : List UInt8 := (List.range size).map junk

/-- Overwriting `bytes.length` bytes at `dst`, undefined outside the allocation. -/
def memcpy (buffer : List UInt8) (dst : Nat) (bytes : List UInt8) : Option (List UInt8) :=
  if dst + bytes.length ≤ buffer.length then some (splice dst bytes buffer) else none

namespace BipBuf

def reset (bb : BipBuf) : BipBuf := { bb with aStart := 0, aEnd := 0, rStart := 0, rEnd := 0 }

def create (junk : Nat → UInt8) (capacity : Nat) : BipBuf :=
  reset ⟨malloc junk (capacity * 2), capacity, 0, 0, 0, 0⟩

def committedSize (bb : BipBuf) : Nat := bb.aEnd - bb.aStart

def reservationSize (bb : BipBuf) : Nat := bb.rEnd - bb.rStart

/-- What `bip_buf_get_contiguous_block` points at. -/
def block (bb : BipBuf) : Committed := slice bb.aStart bb.aEnd bb.buffer

/-- What the outstanding reservation holds. -/
def region (bb : BipBuf) : List UInt8 := slice bb.rStart bb.rEnd bb.buffer

/-- Moves region A to the front of the storage. `memcpy` is undefined when the ranges overlap. -/
def wrapA (bb : BipBuf) : Option BipBuf :=
  if bb.committedSize ≤ bb.aStart then
    (memcpy bb.buffer 0 bb.block).map fun buffer =>
      { bb with buffer, aStart := 0, aEnd := bb.committedSize }
  else none

/-- "check Region A", in `bip_buf_reserve` and in `bip_buf_force_reserve`. -/
def checkRegionA (bb : BipBuf) (size : Nat) : Option BipBuf :=
  if bb.committedSize = 0 then some { bb with aStart := 0, aEnd := 0 }
  else if bb.availableCapacity + bb.availableCapacity - bb.aEnd < size then bb.wrapA
  else some bb

/-- The growing branch of `bip_buf_force_reserve`. -/
def expand (bb : BipBuf) (junk : Nat → UInt8) (size : Nat) : Option BipBuf :=
  let capacity := (nextPowerOfTwo (UInt32.ofNat (bb.availableCapacity + size))).toNat
  let buffer := malloc junk (capacity + capacity)
  if bb.committedSize = 0 then
    some { bb with buffer, availableCapacity := capacity, aStart := 0, aEnd := 0 }
  else
    (memcpy buffer 0 bb.block).map fun buffer =>
      { bb with buffer, availableCapacity := capacity, aStart := 0, aEnd := bb.committedSize }

def openRegion (bb : BipBuf) (size : Nat) : BipBuf :=
  { bb with rStart := bb.aEnd, rEnd := bb.aEnd + size }

/-- The pointer returned, as an offset into the storage, the size granted, and the buffer. -/
def reserve (bb : BipBuf) : Option (Option Nat × Nat × BipBuf) :=
  if 0 < bb.reservationSize then some (none, 0, bb)
  else
    let freespace := bb.availableCapacity - bb.committedSize
    if freespace = 0 then some (none, 0, bb)
    else (bb.checkRegionA freespace).map fun bb => (some bb.aEnd, freespace, bb.openRegion freespace)

def forceReserve (bb : BipBuf) (junk : Nat → UInt8) (size : Nat) : Option (Option Nat × BipBuf) :=
  if 0 < bb.reservationSize ∨ size = 0 then some (none, bb)
  else
    let freespace := bb.availableCapacity - bb.committedSize
    if freespace = 0 then some (none, bb)
    else
      (if freespace < size then bb.expand junk size else bb.checkRegionA size).map fun bb =>
        (some bb.aEnd, bb.openRegion size)

def commit (bb : BipBuf) (size : Nat) : BipBuf :=
  if 0 < bb.reservationSize then
    let size := if bb.reservationSize < size then bb.reservationSize else size
    { bb with aEnd := bb.rStart + size, rStart := 0, rEnd := 0 }
  else { bb with rStart := 0, rEnd := 0 }

def decommit (bb : BipBuf) (size : Nat) : Nat × BipBuf :=
  let bytes := if bb.committedSize ≤ size then bb.committedSize else size
  (bytes, { bb with aStart := bb.aStart + bytes })

/-- The holder of a region writing through a pointer into it. -/
def write (bb : BipBuf) (p : Nat) (bytes : List UInt8) : BipBuf :=
  { bb with buffer := splice p bytes bb.buffer }

/-- Room for `size` more bytes behind region A. -/
structure Ready (bb : BipBuf) (size : Nat) : Prop where
  length : bb.buffer.length = 2 * bb.availableCapacity
  ordered : bb.aStart ≤ bb.aEnd
  inside : bb.aEnd + size ≤ 2 * bb.availableCapacity
  bounded : bb.committedSize + size ≤ bb.availableCapacity

/-- What holds of the indices between two calls: a reservation starts where region A ends. -/
structure Sane (bb : BipBuf) : Prop extends Ready bb bb.reservationSize where
  positive : 0 < bb.availableCapacity
  reserved : bb.rStart = 0 ∧ bb.rEnd = 0 ∨ bb.rStart = bb.aEnd ∧ bb.rStart < bb.rEnd

section
variable {bb bb' : BipBuf} {junk : Nat → UInt8} {size n : Nat}

@[simp] theorem length_malloc : (malloc junk n).length = n := by
  simp [malloc]

theorem memcpy_eq_some {buffer bytes : List UInt8} {dst : Nat}
    (h : dst + bytes.length ≤ buffer.length) :
    memcpy buffer dst bytes = some (splice dst bytes buffer) := if_pos h

theorem Ready.length_block (h : Ready bb size) : bb.block.length = bb.committedSize := by
  apply length_slice
  have := h.length
  have := h.inside
  omega

theorem Ready.of_le (h : Ready bb n) (hle : size ≤ n) : Ready bb size := by
  have := h.inside
  have := h.bounded
  exact ⟨h.length, h.ordered, by omega, by omega⟩

theorem sane_create {capacity : Nat} (hpos : 0 < capacity) : Sane (create junk capacity) := by
  refine ⟨⟨?_, le_refl 0, Nat.zero_le _, Nat.zero_le _⟩, hpos, .inl ⟨rfl, rfl⟩⟩
  exact length_malloc.trans (Nat.mul_comm _ _)

/-- Copying the committed block to the front of enough storage. -/
theorem memcpy_block (hr : Ready bb n) {buffer : List UInt8} {capacity : Nat}
    (hlen : buffer.length = 2 * capacity) (hle : bb.committedSize + size ≤ capacity) :
    ∃ moved, memcpy buffer 0 bb.block = some moved ∧
      let bb' : BipBuf := ⟨moved, capacity, 0, bb.committedSize, bb.rStart, bb.rEnd⟩
      Ready bb' size ∧ bb'.block = bb.block := by
  have hblock := hr.length_block
  have hfits : 0 + bb.block.length ≤ buffer.length := by omega
  refine ⟨_, memcpy_eq_some hfits, ⟨(length_splice hfits).trans hlen, Nat.zero_le _, ?_, hle⟩, ?_⟩
  · show bb.committedSize + size ≤ 2 * capacity
    omega
  · have hself := slice_splice_self hfits
    rwa [Nat.zero_add, hblock] at hself

theorem block_eq_nil (h : bb.committedSize = 0) : bb.block = [] := by
  apply slice_eq_nil
  unfold committedSize at h
  omega

/-- Wrapping happens only when region A ends past the capacity by its own size, so it also
starts past its own size and the two ranges are apart. -/
theorem checkRegionA_spec (hr : Ready bb 0) (hle : bb.committedSize + size ≤ bb.availableCapacity) :
    ∃ bb', bb.checkRegionA size = some bb' ∧ Ready bb' size ∧ bb'.block = bb.block ∧
      bb'.availableCapacity = bb.availableCapacity := by
  have hordered := hr.ordered
  have hinside := hr.inside
  have hsize : bb.committedSize = bb.aEnd - bb.aStart := rfl
  unfold checkRegionA
  split
  · next hempty =>
    refine ⟨_, rfl, ⟨hr.length, le_refl 0, ?_, ?_⟩, ?_, rfl⟩
    · show 0 + size ≤ 2 * bb.availableCapacity
      omega
    · show 0 - 0 + size ≤ bb.availableCapacity
      omega
    · rw [block_eq_nil hempty]
      exact slice_self
  · split
    · next hlate =>
      obtain ⟨moved, hcopy, hready, hblock⟩ := memcpy_block hr hr.length hle
      unfold wrapA
      rw [if_pos (by omega), hcopy]
      exact ⟨_, rfl, hready, hblock, rfl⟩
    · next hroom => exact ⟨bb, rfl, ⟨hr.length, hordered, by omega, hle⟩, rfl, rfl⟩

theorem expand_spec (hr : Ready bb 0) (hpos : 0 < bb.availableCapacity)
    (hmax : bb.availableCapacity + size ≤ 2 ^ 31) :
    ∃ bb', bb.expand junk size = some bb' ∧ Ready bb' size ∧ bb'.block = bb.block ∧
      bb'.availableCapacity = 2 ^ (bb.availableCapacity + size - 1).size := by
  have hsum : (UInt32.ofNat (bb.availableCapacity + size)).toNat = bb.availableCapacity + size := by
    apply UInt32.toNat_ofNat_of_lt'
    exact lt_of_le_of_lt hmax (by decide)
  have hgrown := nextPowerOfTwo_toNat (by omega) (hsum.trans_le hmax)
  have hle := le_nextPowerOfTwo (by omega) (hsum.trans_le hmax)
  have hbounded := hr.bounded
  rw [hsum] at hgrown hle
  unfold expand
  simp only
  rw [hgrown] at hle ⊢
  generalize 2 ^ (bb.availableCapacity + size - 1).size = capacity at hle ⊢
  have hlen : (malloc junk (capacity + capacity)).length = 2 * capacity :=
    length_malloc.trans (Nat.two_mul _).symm
  split
  · next hempty =>
    refine ⟨_, rfl, ⟨hlen, le_refl 0, ?_, ?_⟩, ?_, rfl⟩
    · show 0 + size ≤ 2 * capacity
      omega
    · show 0 - 0 + size ≤ capacity
      omega
    · rw [block_eq_nil hempty]
      exact slice_self
  · have hfits : bb.committedSize + size ≤ capacity := by omega
    obtain ⟨moved, hcopy, hready, hblock⟩ := memcpy_block hr hlen hfits
    rw [hcopy]
    exact ⟨_, rfl, hready, hblock, rfl⟩

theorem Ready.openRegion (hr : Ready bb size) (hpos : 0 < bb.availableCapacity) (hsize : 0 < size) :
    Sane (bb.openRegion size) ∧ (bb.openRegion size).block = bb.block ∧
      (bb.openRegion size).reservationSize = size := by
  have hres : (bb.openRegion size).reservationSize = size := Nat.add_sub_cancel_left _ _
  have hready : Ready (bb.openRegion size) size := ⟨hr.length, hr.ordered, hr.inside, hr.bounded⟩
  refine ⟨⟨hres.symm ▸ hready, hpos, .inr ⟨rfl, ?_⟩⟩, rfl, hres⟩
  exact Nat.lt_add_of_pos_right hsize

/-- What the two reserving calls can do: refuse and change nothing, or hand out a region, by
its start and its size, and keep what is committed. -/
inductive Reserved (bb : BipBuf) : Option (Nat × Nat) → BipBuf → Prop
  | refused : Reserved bb none bb
  | granted {bb' : BipBuf} : bb.reservationSize = 0 → Sane bb' → bb'.block = bb.block →
      0 < bb'.reservationSize → Reserved bb (some (bb'.rStart, bb'.reservationSize)) bb'

theorem reserve_spec (hs : Sane bb) :
    ∃ p n bb', bb.reserve = some (p, n, bb') ∧ Reserved bb (p.map (·, n)) bb' := by
  unfold reserve
  split
  · exact ⟨_, _, _, rfl, .refused⟩
  · next hnone =>
    have hres : bb.reservationSize = 0 := Nat.eq_zero_of_not_pos hnone
    have hr : Ready bb 0 := hs.toReady.of_le (Nat.zero_le _)
    simp only
    split
    · exact ⟨_, _, _, rfl, .refused⟩
    · next hfree =>
      have hbounded := hr.bounded
      obtain ⟨bb', hcheck, hready, hblock, hcap⟩ :=
        @checkRegionA_spec bb (bb.availableCapacity - bb.committedSize) hr (by omega)
      rw [hcheck]
      obtain ⟨hsane, hkept, hsize⟩ := hready.openRegion (hcap ▸ hs.positive) (Nat.pos_of_ne_zero hfree)
      have hgranted := Reserved.granted hres hsane (hkept.trans hblock)
        (hsize.symm ▸ Nat.pos_of_ne_zero hfree)
      rw [hsize] at hgranted
      exact ⟨_, _, _, rfl, hgranted⟩

/-- With a free byte the room asked for is granted, in the same storage or in a larger one. -/
theorem forceReserve_granted (hs : Sane bb) (hres : bb.reservationSize = 0) (hsize : 0 < size)
    (hfree : bb.committedSize < bb.availableCapacity)
    (hmax : bb.committedSize + size ≤ bb.availableCapacity ∨ bb.availableCapacity + size ≤ 2 ^ 31) :
    ∃ bb', bb.forceReserve junk size = some (some bb'.rStart, bb') ∧ Sane bb' ∧
      bb'.block = bb.block ∧ bb'.reservationSize = size ∧
      bb'.availableCapacity = if bb.committedSize + size ≤ bb.availableCapacity then
        bb.availableCapacity else 2 ^ (bb.availableCapacity + size - 1).size := by
  have hr : Ready bb 0 := hs.toReady.of_le (Nat.zero_le _)
  have hroom : ∃ bb', (if bb.availableCapacity - bb.committedSize < size then bb.expand junk size
        else bb.checkRegionA size) = some bb' ∧ Ready bb' size ∧ bb'.block = bb.block ∧
      bb'.availableCapacity = if bb.committedSize + size ≤ bb.availableCapacity then
        bb.availableCapacity else 2 ^ (bb.availableCapacity + size - 1).size := by
    by_cases hfits : bb.committedSize + size ≤ bb.availableCapacity
    · rw [if_neg (by omega), if_pos hfits]
      exact checkRegionA_spec hr hfits
    · rw [if_pos (by omega), if_neg hfits]
      exact expand_spec hr hs.positive (hmax.resolve_left hfits)
  obtain ⟨bb', hmade, hready, hblock, hcap⟩ := hroom
  have hpos : 0 < bb'.availableCapacity := by
    have := hready.bounded
    omega
  obtain ⟨hsane, hkept, hgot⟩ := hready.openRegion hpos hsize
  refine ⟨bb'.openRegion size, ?_, hsane, hkept.trans hblock, hgot, hcap⟩
  unfold forceReserve
  rw [if_neg (by omega)]
  simp only
  rw [if_neg (by omega), hmade]
  rfl

theorem forceReserve_full (hsize : 0 < size) (hres : bb.reservationSize = 0)
    (hfull : bb.committedSize = bb.availableCapacity) :
    bb.forceReserve junk size = some (none, bb) := by
  unfold forceReserve
  rw [if_neg (by omega)]
  simp only
  rw [if_pos (by omega)]

theorem forceReserve_spec (hs : Sane bb) (hmax : bb.availableCapacity + size ≤ 2 ^ 31) :
    ∃ p bb', bb.forceReserve junk size = some (p, bb') ∧ Reserved bb (p.map (·, size)) bb' := by
  by_cases hnone : 0 < bb.reservationSize ∨ size = 0
  · exact ⟨none, bb, if_pos hnone, .refused⟩
  · obtain ⟨hres, hsize⟩ := not_or.1 hnone
    have hres := Nat.eq_zero_of_not_pos hres
    have hsize := Nat.pos_of_ne_zero hsize
    have hbounded := hs.bounded
    rcases Nat.lt_or_ge bb.committedSize bb.availableCapacity with hfree | hfull
    · obtain ⟨bb', hcall, hsane, hblock, hgot, -⟩ :=
        @forceReserve_granted bb junk size hs hres hsize hfree (.inr hmax)
      have hgranted := Reserved.granted hres hsane hblock (hgot.symm ▸ hsize)
      rw [hgot] at hgranted
      exact ⟨_, bb', hcall, hgranted⟩
    · exact ⟨none, bb, forceReserve_full hsize hres (by omega), .refused⟩

theorem region_eq_nil (h : ¬ 0 < bb.reservationSize) : bb.region = [] := by
  apply slice_eq_nil
  unfold reservationSize at h
  omega

theorem commit_spec (hs : Sane bb) : Sane (bb.commit size) ∧
    (bb.commit size).block = bb.block.commit (bb.region.take size) ∧ (bb.commit size).region = [] := by
  have hordered := hs.ordered
  have hinside := hs.inside
  have hbounded := hs.bounded
  have ha : bb.committedSize = bb.aEnd - bb.aStart := rfl
  have hr : bb.reservationSize = bb.rEnd - bb.rStart := rfl
  unfold commit Committed.commit
  split
  · next hpos =>
    obtain ⟨hstart, hlt⟩ : bb.rStart = bb.aEnd ∧ bb.rStart < bb.rEnd :=
      hs.reserved.resolve_left (by omega)
    have htake : bb.region.take size =
        slice bb.aEnd (bb.aEnd + (if bb.reservationSize < size then bb.reservationSize else size))
          bb.buffer := by
      unfold region
      rw [hstart]
      split
      · rw [List.take_of_length_le (by rw [length_slice (by rw [hs.length]; omega)]; omega)]
        congr 1
        omega
      · rw [take_slice (by omega)]
    have hle : (if bb.reservationSize < size then bb.reservationSize else size) ≤ bb.reservationSize := by
      split <;> omega
    rw [htake]
    generalize (if bb.reservationSize < size then bb.reservationSize else size) = got at hle ⊢
    refine ⟨⟨⟨hs.length, ?_, ?_, ?_⟩, hs.positive, .inl ⟨rfl, rfl⟩⟩, ?_, slice_self⟩
    · show bb.aStart ≤ bb.rStart + got
      omega
    · show bb.rStart + got + (0 - 0) ≤ 2 * bb.availableCapacity
      omega
    · show bb.rStart + got - bb.aStart + (0 - 0) ≤ bb.availableCapacity
      omega
    · show slice bb.aStart (bb.rStart + got) bb.buffer = _
      rw [hstart]
      exact (slice_append hordered (Nat.le_add_right _ _)).symm
  · next hnone =>
    rw [region_eq_nil hnone, List.take_nil, List.append_nil]
    have hready : Ready bb 0 := hs.toReady.of_le (Nat.zero_le _)
    exact ⟨⟨⟨hready.length, hready.ordered, hready.inside, hready.bounded⟩, hs.positive,
      .inl ⟨rfl, rfl⟩⟩, rfl, slice_self⟩

theorem decommit_spec (hs : Sane bb) : Sane (bb.decommit size).2 ∧
    (bb.decommit size).2.block = bb.block.decommit size ∧ (bb.decommit size).2.region = bb.region := by
  have hordered := hs.ordered
  have hbounded := hs.bounded
  have ha : bb.committedSize = bb.aEnd - bb.aStart := rfl
  have hle : (if bb.committedSize ≤ size then bb.committedSize else size) ≤ bb.committedSize := by
    split <;> omega
  have hblock : (bb.decommit size).2.block = bb.block.decommit size := by
    unfold Committed.decommit decommit
    rw [hs.length_block]
    exact drop_slice.symm
  refine ⟨⟨⟨hs.length, ?_, hs.inside, ?_⟩, hs.positive, hs.reserved⟩, hblock, rfl⟩
  · show bb.aStart + (if bb.committedSize ≤ size then bb.committedSize else size) ≤ bb.aEnd
    omega
  · show bb.aEnd - (bb.aStart + _) + bb.reservationSize ≤ bb.availableCapacity
    omega

theorem write_spec (hs : Sane bb) {offset : Nat} {bytes : List UInt8} (hpos : 0 < bb.reservationSize)
    (hin : offset + bytes.length ≤ bb.reservationSize) :
    Sane (bb.write (bb.rStart + offset) bytes) ∧
    (bb.write (bb.rStart + offset) bytes).block = bb.block ∧
    (bb.write (bb.rStart + offset) bytes).region = splice offset bytes bb.region := by
  have hinside := hs.inside
  have hlen := hs.length
  have hr : bb.reservationSize = bb.rEnd - bb.rStart := rfl
  obtain ⟨hstart, hlt⟩ : bb.rStart = bb.aEnd ∧ bb.rStart < bb.rEnd :=
    hs.reserved.resolve_left (by omega)
  have hfits : bb.rStart + offset + bytes.length ≤ bb.buffer.length := by omega
  refine ⟨⟨⟨?_, hs.ordered, hs.inside, hs.bounded⟩, hs.positive, hs.reserved⟩, ?_, ?_⟩
  · exact (length_splice hfits).trans hlen
  · have hbefore : bb.aEnd ≤ bb.rStart + offset := by omega
    exact slice_splice_before hbefore hfits
  · have hsub : bb.rStart + offset - bb.rStart = offset := Nat.add_sub_cancel_left _ _
    have := @slice_splice_inside _ bb.rStart bb.rEnd (bb.rStart + offset) bb.buffer bytes
      (Nat.le_add_right _ _) (by omega) (by omega)
    rwa [hsub] at this

@[simp] theorem availableCapacity_commit :
    (bb.commit size).availableCapacity = bb.availableCapacity := by
  unfold commit
  split <;> rfl

theorem reservationSize_commit : (bb.commit size).reservationSize = 0 := by
  unfold commit
  split <;> rfl

theorem reset_spec (hs : Sane bb) : Sane bb.reset ∧ bb.reset.block = [] ∧ bb.reset.region = [] := by
  refine ⟨⟨⟨hs.length, le_refl 0, Nat.zero_le _, Nat.zero_le _⟩, hs.positive, .inl ⟨rfl, rfl⟩⟩, ?_, ?_⟩
  · exact slice_self
  · exact slice_self

end

end BipBuf

end KjRedis
