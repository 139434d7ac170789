import KjRedis.Base.NxBuf
import KjRedis.Lib.Transition

/-! `nx_array` as a list used as a stack, over any pool and any `malloc`, with other
allocations from the pool in between: when it is one. -/
namespace KjRedis.NxBuf

open Memory Transition

def int32 (n : Int) : Int := Int.bmod n (2 ^ 32)

/-- What an expression of type `u_int` holds. -/
def uInt (n : Int) : Nat := (n % 2 ^ 32).toNat

/-- `nx_array_t`, its `pool` left to the state. -/
structure NxArrayT where
  elts : Nat
  nelts : Int
  size : Nat
  nalloc : Nat
  deriving DecidableEq, Repr

namespace NxArrayT

/-- The address a pointer to the element at `index` has. -/
def slot (a : NxArrayT) (index : Int) : Int := a.elts + a.size * index

/-- The `nalloc` slots. -/
def storage (a : NxArrayT) : Region := ⟨a.elts, a.size * a.nalloc⟩

/-- The storage is the last in the pool's first block and has `bytes` more behind it. -/
def InPlace (a : NxArrayT) (p : Pool) (bytes : Nat) : Prop :=
  a.elts + sizeT (a.size * a.nalloc) = p.d.last ∧ p.d.last + bytes ≤ p.d.endAddr

instance (a : NxArrayT) (p : Pool) (bytes : Nat) : Decidable (a.InPlace p bytes) :=
  inferInstanceAs (Decidable (_ ∧ _))

/-- How both pushes grow a full array: by `more` slots of `bytes` bytes in place, or to
`nalloc` slots elsewhere, where `copied` bytes go with it. -/
def grow (malloc : Malloc) (a : NxArrayT) (p : Pool) (mem : Nat → UInt8)
    (more bytes nalloc request copied : Nat) : Option (NxArrayT × Pool × (Nat → UInt8)) :=
  if a.InPlace p bytes then
    some ({ a with nalloc := uInt (a.nalloc + more) },
      { p with d := { p.d with last := p.d.last + bytes } }, mem)
  else
    (palloc malloc p request).map fun (new, p) =>
      ({ a with elts := new, nalloc }, p, write mem new (read mem a.elts copied))

/-- A push of `n` elements, which grows the array where it is `full`: the address they
go to, with the array, the pool and the memory after it. -/
def pushWith (malloc : Malloc) (a : NxArrayT) (p : Pool) (mem : Nat → UInt8)
    (full : Prop) [Decidable full] (n bytes nalloc request copied : Nat) :
    Option (Int × NxArrayT × Pool × (Nat → UInt8)) :=
  (if full then a.grow malloc p mem n bytes nalloc request copied else some (a, p, mem)).map
    fun (a, p, mem) => (a.slot a.nelts, { a with nelts := int32 (a.nelts + n) }, p, mem)

/-- `nx_array_push`. -/
def push (malloc : Malloc) (a : NxArrayT) (p : Pool) (mem : Nat → UInt8) :
    Option (Int × NxArrayT × Pool × (Nat → UInt8)) :=
  let size := sizeT (a.size * a.nalloc)
  a.pushWith malloc p mem (uInt a.nelts = a.nalloc) 1 a.size (uInt (a.nalloc * 2))
    (sizeT (2 * size)) size

/-- `nx_array_push_n`. -/
def pushN (malloc : Malloc) (a : NxArrayT) (p : Pool) (mem : Nat → UInt8) (n : Nat) :
    Option (Int × NxArrayT × Pool × (Nat → UInt8)) :=
  let nalloc := uInt (2 * max n a.nalloc)
  a.pushWith malloc p mem (a.nalloc < uInt (a.nelts + n)) n (sizeT (n * a.size)) nalloc
    (sizeT (nalloc * a.size)) (sizeT (a.nelts * a.size))

/-- `nx_array_pop`, whose element is the one past the top. -/
def pop (a : NxArrayT) : Option Int × NxArrayT :=
  if 0 < a.nelts then (some (a.slot a.nelts), { a with nelts := a.nelts - 1 })
  else (none, a)

def popAll (a : NxArrayT) : Int × NxArrayT := (a.elts, { a with nelts := 0 })

def top (a : NxArrayT) : Option Int :=
  if 0 < a.nelts then some (a.slot (a.nelts - 1)) else none

def at? (a : NxArrayT) (index : Int) : Option Int :=
  if index < a.nelts then some (a.slot index) else none

/-- `nx_array_create`: the address of the `nx_array_t` and what is in it. -/
def create (malloc : Malloc) (p : Pool) (n size : Nat) : Option (Nat × NxArrayT × Pool) :=
  match palloc malloc p NxArray.sizeofArray with
  | none => none
  | some (a, p) =>
    (palloc malloc p (sizeT (n * size))).map fun (elts, p) =>
      (a, { elts, nelts := 0, size, nalloc := n }, p)

end NxArrayT

/-- The functions a pool's other users get memory from. -/
inductive Alloc
  | palloc
  | pnalloc
  | pmemalign
  deriving DecidableEq, Repr

def Alloc.serve (malloc : Malloc) (p : Pool) (size : Nat) : Alloc → Option (Nat × Pool)
  | palloc => NxBuf.palloc malloc p size
  | pnalloc => NxBuf.pnalloc malloc p size
  | pmemalign => NxBuf.pmemalign malloc p size

/-- A pool, of whole words, with the regions it has handed out to others so far. -/
inductive Made (malloc : Malloc) : Pool → List Region → Prop
  | create {size : Nat} {p : Pool} (hwords : 8 ∣ size) (hsize : NxPool.sizeofPool ≤ size)
      (h : createPool malloc size = some p) : Made malloc p []
  | alloc {p p' : Pool} {given : List Region} {size addr : Nat} (alloc : Alloc)
      (hmade : Made malloc p given) (h : alloc.serve malloc p size = some (addr, p')) :
      Made malloc p' (⟨addr, size⟩ :: given)

/-- The array in its pool, at `record`, with what the pool has handed out to others and
the list the calls on the array make. -/
structure State where
  pool : Pool
  record : Nat
  array : NxArrayT
  given : List Region
  mem : Nat → UInt8
  pushed : List (List UInt8)

/-- The calls on the array, each push with the elements written where it points, and
what others do: get memory from the pool and write to what they got. -/
inductive Call
  | push (elt : List UInt8)
  | pushN (elts : List (List UInt8))
  | pop
  | popAll
  | top
  | elementAt (index : Int)
  | alloc (alloc : Alloc) (size : Nat)
  | store (addr : Nat) (bytes : List UInt8)
  deriving DecidableEq, Repr

namespace State

def create (malloc : Malloc) (p : Pool) (given : List Region) (mem : Nat → UInt8)
    (n size : Nat) : Option State :=
  (NxArrayT.create malloc p n size).map fun (record, array, pool) =>
    { pool, record, array, given, mem, pushed := [] }

/-- The elements written where a push points. -/
def written (s : State) (elts : List (List UInt8)) :
    Int × NxArrayT × Pool × (Nat → UInt8) → Option Int × State
  | (ptr, array, pool, mem) =>
    (some ptr, { s with array, pool, mem := writeAll mem ptr.toNat elts
                        pushed := s.pushed ++ elts })

/-- The pointer a call on the array returns, with the state after it. -/
def call (malloc : Malloc) (s : State) : Call → Option (Option Int × State)
  | .push elt =>
    if elt.length = s.array.size then
      (s.array.push malloc s.pool s.mem).map (s.written [elt])
    else none
  | .pushN elts =>
    if (∀ elt ∈ elts, elt.length = s.array.size) ∧ elts.length < 2 ^ 32 then
      (s.array.pushN malloc s.pool s.mem elts.length).map (s.written elts)
    else none
  | .pop => some (s.array.pop.1, { s with array := s.array.pop.2, pushed := s.pushed.dropLast })
  | .popAll => some (some s.array.popAll.1, { s with array := s.array.popAll.2, pushed := [] })
  | .top => some (s.array.top, s)
  | .elementAt index => some (s.array.at? index, s)
  | .alloc alloc size =>
    (alloc.serve malloc s.pool size).map fun (addr, pool) =>
      (none, { s with pool, given := ⟨addr, size⟩ :: s.given })
  | .store addr bytes =>
    if ∃ r ∈ s.given, r.addr ≤ addr ∧ addr + bytes.length ≤ r.limit then
      some (none, { s with mem := write s.mem addr bytes })
    else none

/-- The elements at `0 .. nelts - 1` are the pushed ones. -/
def Contents (s : State) : Prop :=
  s.array.nelts = s.pushed.length ∧ Holds s.mem s.array.elts s.array.size s.pushed

/-- The pool has handed out the `nalloc` slots. -/
def Allocated (s : State) : Prop := s.pool.Used s.array.storage

/-- What the call returns is none or points to a slot, and from a pop it is what the
call of `nx_array_top` would have returned. -/
def PointsToSlot (malloc : Malloc) (s : State) (c : Call) : Prop :=
  ∀ ptr s', s.call malloc c = some (ptr, s') →
    (∀ addr, ptr = some addr → ∃ i : Nat, i < s'.array.nalloc ∧ addr = s'.array.slot i) ∧
    (c = .pop → ptr = s.array.top)

/-- What keeps the call right: no element is popped, no negative index asked for, nothing
pushed by a `nx_array_push_n` of none where the slots are all taken, and neither the
count of elements nor the bytes of the slots outgrow their types. -/
def Proper (s : State) : Call → Prop
  | .push _ =>
    s.array.nelts + 1 < 2 ^ 31 ∧
      (s.array.nelts = s.array.nalloc → s.array.size *
        (if s.array.InPlace s.pool s.array.size then s.array.nalloc + 1
          else 2 * s.array.nalloc) < 2 ^ 64)
  | .pushN elts =>
    (elts = [] → s.array.nelts < s.array.nalloc) ∧ s.array.nelts + elts.length < 2 ^ 31 ∧
      (s.array.nalloc < s.array.nelts + elts.length → s.array.size *
        (if s.array.InPlace s.pool (sizeT (elts.length * s.array.size)) then
          s.array.nalloc + elts.length else 2 * max elts.length s.array.nalloc) < 2 ^ 64)
  | .pop => s.array.nelts = 0
  | .elementAt index => 0 ≤ index
  | _ => True

end State

def arraySystem (malloc : Malloc) : System State Call where
  next s c := (s.call malloc c).map Prod.snd

/-- The slots are the array's own, others' regions apart from them, and hold `pushed`. -/
structure Laid (p : Pool) (a : NxArrayT) (mem : Nat → UInt8) (others : List Region)
    (pushed : List (List UInt8)) : Prop where
  valid : p.Valid
  storage : p.Used a.storage
  others : ∀ r ∈ others, p.Used r ∧ r.Apart a.storage
  size : 0 < a.size
  slots : 0 < a.nalloc
  room : pushed.length ≤ a.nalloc
  holds : Holds mem a.elts a.size pushed

section
variable {malloc : Malloc} {p p' : Pool} {a a' : NxArrayT} {mem mem' : Nat → UInt8}
  {others : List Region} {pushed elts : List (List UInt8)} {r : Region}
  {more bytes nalloc request copied n : Nat}

theorem uInt_of_lt (h : n < 2 ^ 32) : uInt n = n := by
  unfold uInt
  omega

theorem int32_of_lt (h : n < 2 ^ 31) : int32 n = n := by
  simp only [int32, Int.bmod, Nat.cast_pow]
  split <;> omega

theorem int32_lt (z : Int) : int32 z < 2 ^ 31 := by
  simp only [int32, Int.bmod, Nat.cast_pow]
  split <;> omega

theorem Laid.bounded (h : Laid p a mem others pushed) : a.size * a.nalloc < 2 ^ 64 := by
  obtain ⟨hstart, hlimit⟩ := h.valid.used_bounded h.storage
  simp only [NxArrayT.storage, Region.limit] at hstart hlimit
  omega

/-- Moving the first block's `last` on is one way of handing out memory. -/
theorem served_in_place (hin : p.d.last + bytes ≤ p.d.endAddr) :
    Served bytes p.d.last p.blocks ({ p.d with last := p.d.last + bytes } :: p.nexts) :=
  ⟨[], p.d, p.nexts, rfl, rfl, Nat.le_refl _, hin⟩

theorem grow_cases (hp : p.Valid)
    (h : a.grow malloc p mem more bytes nalloc request copied = some (a', p', mem')) :
    p'.Valid ∧ a'.nelts = a.nelts ∧ a'.size = a.size ∧
      a'.nalloc = if a.InPlace p bytes then uInt (a.nalloc + more) else nalloc := by
  unfold NxArrayT.grow at h
  split at h
  · next hin =>
    obtain ⟨rfl, rfl, rfl⟩ := by simpa using Option.some.inj h
    exact ⟨(grants_room hp (served_in_place hin.2)).valid, rfl, rfl, (if_pos hin).symm⟩
  · next hin =>
    obtain ⟨⟨new, p''⟩, halloc, heq⟩ := Option.map_eq_some_iff.1 h
    obtain ⟨rfl, rfl, rfl⟩ := by simpa using heq
    exact ⟨(palloc_grants hp halloc).valid, rfl, rfl, (if_neg hin).symm⟩

/-- A storage that ends where the first block's free bytes begin lies in that block. -/
theorem within_first {x : Region} (hp : p.Valid) (hx : p.Used x) (hlen : 0 < x.len)
    (hlast : x.limit = p.d.last) : x.Within p.d.used := by
  rcases hp.used_cases (l := []) rfl hx with hin | hapart
  · exact hin
  · obtain ⟨hstart, hheader, hroom, -, -⟩ := hp.fine p.d List.mem_cons_self
    simp only [Region.Apart, Region.limit, Block.region] at hapart hlast
    omega

theorem Laid.grow (h : Laid p a mem others pushed)
    (hgrow : a.grow malloc p mem more bytes nalloc request copied = some (a', p', mem'))
    (hmore : a.InPlace p bytes → bytes = a.size * more ∧ a.nalloc + more < 2 ^ 32)
    (hnalloc : ¬ a.InPlace p bytes → request = a.size * nalloc ∧ a.nalloc ≤ nalloc)
    (hcopied : a.size * pushed.length ≤ copied) : Laid p' a' mem' others pushed := by
  have hsize := h.size
  unfold NxArrayT.grow at hgrow
  split at hgrow
  · next hin =>
    obtain ⟨rfl, rfl, rfl⟩ := by simpa using Option.some.inj hgrow
    obtain ⟨rfl, hsmall⟩ := hmore hin
    have hgrants := grants_room h.valid (served_in_place hin.2)
    have hpos : 0 < a.size * a.nalloc := Nat.mul_pos hsize h.slots
    have hlast : a.elts + a.size * a.nalloc = p.d.last := by
      rw [← hin.1, ← Nat.cast_mul, sizeT_of_lt h.bounded]
    have hfirst := within_first h.valid h.storage hpos hlast
    have hd := h.valid.fine p.d List.mem_cons_self
    have hheader := hd.header
    have hend := hin.2
    have hslots : uInt (a.nalloc + more) = a.nalloc + more := uInt_of_lt (by omega)
    refine ⟨hgrants.valid, .inr ⟨_, List.mem_cons_self, ?_⟩, fun r hr => ⟨?_, ?_⟩, hsize, ?_, ?_,
      h.holds⟩
    · simp only [NxArrayT.storage, Region.Within, Region.limit, Block.used] at hfirst ⊢
      rw [hslots, Nat.mul_add]
      omega
    · exact hgrants.keeps r (h.others r hr).1
    · have hr' := (h.others r hr).2
      rcases h.valid.used_cases (l := []) rfl (h.others r hr).1 with hused | hapart
      · simp only [NxArrayT.storage, Region.Within, Region.Apart, Region.limit, Block.used]
          at hused hr' hfirst ⊢
        omega
      · refine (hapart.symm.within ?_).symm
        simp only [NxArrayT.storage, Region.Within, Region.limit, Block.used, Block.region]
          at hfirst ⊢
        rw [hslots, Nat.mul_add]
        omega
    · change 0 < uInt (a.nalloc + more)
      rw [hslots]
      exact Nat.add_pos_left h.slots _
    · change pushed.length ≤ uInt (a.nalloc + more)
      rw [hslots]
      exact Nat.le_trans h.room (Nat.le_add_right _ _)
  · next hin =>
    obtain ⟨⟨new, p''⟩, halloc, heq⟩ := Option.map_eq_some_iff.1 hgrow
    obtain ⟨rfl, rfl, rfl⟩ := by simpa using heq
    obtain ⟨rfl, hle⟩ := hnalloc hin
    have hgrants := palloc_grants h.valid halloc
    exact ⟨hgrants.valid, hgrants.used,
      fun r hr => ⟨hgrants.keeps r (h.others r hr).1, hgrants.apart r (h.others r hr).1⟩, hsize,
      Nat.lt_of_lt_of_le h.slots hle, Nat.le_trans h.room hle, h.holds.copy hcopied⟩

theorem pushWith_cases {full : Prop} [Decidable full] {ptr : Int} (hp : p.Valid)
    (h : a.pushWith malloc p mem full n bytes nalloc request copied = some (ptr, a', p', mem')) :
    p'.Valid ∧ a'.nelts = int32 (a.nelts + n) ∧ a'.size = a.size ∧ ptr = a'.slot a.nelts ∧
      a'.nalloc = if full then if a.InPlace p bytes then uInt (a.nalloc + n) else nalloc
        else a.nalloc := by
  obtain ⟨⟨a'', p'', mem''⟩, hgrown, heq⟩ := Option.map_eq_some_iff.1 h
  obtain ⟨rfl, rfl, rfl, rfl⟩ := by simpa using heq
  split at hgrown
  · next hfull =>
    obtain ⟨hp', hnelts, hsize, hslots⟩ := grow_cases hp hgrown
    exact ⟨hp', by rw [hnelts], hsize, by rw [hnelts]; rfl, by rw [if_pos hfull]; exact hslots⟩
  · next hfull =>
    obtain ⟨rfl, rfl, rfl⟩ := by simpa using Option.some.inj hgrown
    exact ⟨hp, rfl, rfl, rfl, (if_neg hfull).symm⟩

/-- Elements written behind the pushed ones, on slots there are. -/
theorem Laid.put (h : Laid p a mem others pushed) (hsizes : ∀ elt ∈ elts, elt.length = a.size)
    (hroom : pushed.length + elts.length ≤ a.nalloc) :
    Laid p a (writeAll mem (a.elts + a.size * pushed.length) elts) others (pushed ++ elts) :=
  { h with
    room := by rwa [List.length_append]
    holds := h.holds.append hsizes }

theorem Laid.counted (h : Laid p a mem others pushed) (nelts : Int) :
    Laid p { a with nelts } mem others pushed :=
  ⟨h.valid, h.storage, h.others, h.size, h.slots, h.room, h.holds⟩

theorem Laid.pushWith {full : Prop} [Decidable full] {ptr : Int}
    (h : Laid p a mem others pushed) (hcount : a.nelts = pushed.length)
    (hsizes : ∀ elt ∈ elts, elt.length = a.size)
    (hfull : full ↔ a.nalloc < pushed.length + elts.length)
    (hmore : full → a.InPlace p bytes →
      bytes = a.size * elts.length ∧ a.nalloc + elts.length < 2 ^ 32)
    (hnalloc : full → ¬ a.InPlace p bytes →
      request = a.size * nalloc ∧ pushed.length + elts.length ≤ nalloc ∧ a.nalloc ≤ nalloc)
    (hcopied : full → a.size * pushed.length ≤ copied)
    (hpush : a.pushWith malloc p mem full elts.length bytes nalloc request copied =
      some (ptr, a', p', mem')) :
    Laid p' a' (writeAll mem' ptr.toNat elts) others (pushed ++ elts) := by
  obtain ⟨⟨a'', p'', mem''⟩, hgrown, heq⟩ := Option.map_eq_some_iff.1 hpush
  obtain ⟨rfl, rfl, rfl, rfl⟩ := by simpa using heq
  have hput : a''.nelts = a.nelts ∧ a''.size = a.size ∧ Laid p'' a'' mem'' others pushed ∧
      pushed.length + elts.length ≤ a''.nalloc := by
    have hroom := h.room
    split at hgrown
    · next hf =>
      obtain ⟨-, hnelts, hsize, hslots⟩ := grow_cases h.valid hgrown
      refine ⟨hnelts, hsize, h.grow hgrown (hmore hf)
        (fun hin => ⟨(hnalloc hf hin).1, (hnalloc hf hin).2.2⟩) (hcopied hf), ?_⟩
      rw [hslots]
      split
      · next hin =>
        rw [← Nat.cast_add, uInt_of_lt (hmore hf hin).2]
        omega
      · next hin => exact (hnalloc hf hin).2.1
    · next hf =>
      obtain ⟨rfl, rfl, rfl⟩ := by simpa using Option.some.inj hgrown
      exact ⟨rfl, rfl, h, Nat.le_of_not_lt fun hlt => hf (hfull.2 hlt)⟩
  obtain ⟨hnelts, hsize, hlaid, hroom⟩ := hput
  have hptr : (a''.slot a''.nelts).toNat = a''.elts + a''.size * pushed.length := by
    unfold NxArrayT.slot
    rw [hnelts, hcount, ← Nat.cast_mul, ← Nat.cast_add, Int.toNat_natCast]
  rw [hptr]
  exact (hlaid.put (by rwa [hsize]) hroom).counted _

theorem Laid.keep (h : Laid p a mem others pushed) (hgrants : p.Grants r p') :
    Laid p' a mem (r :: others) pushed :=
  { h with
    valid := hgrants.valid
    storage := hgrants.keeps _ h.storage
    others := by
      intro x hx
      rcases List.mem_cons.1 hx with rfl | hx
      · exact ⟨hgrants.used, (hgrants.apart _ h.storage).symm⟩
      · exact ⟨hgrants.keeps x (h.others x hx).1, (h.others x hx).2⟩ }

/-- What others write leaves the elements alone. -/
theorem Laid.store {addr : Nat} {written : List UInt8} (h : Laid p a mem others pushed)
    (hr : r ∈ others) (hin : r.addr ≤ addr ∧ addr + written.length ≤ r.limit) :
    Laid p a (write mem addr written) others pushed := by
  have hpushed : a.size * pushed.length ≤ a.size * a.nalloc := Nat.mul_le_mul_left _ h.room
  have hapart := (h.others r hr).2
  refine { h with holds := h.holds.write_apart ?_ }
  simp only [NxArrayT.storage, Region.Apart, Region.limit] at hapart hin ⊢
  omega

theorem serve_grants {alloc : Alloc} {size addr : Nat} (hp : p.Valid)
    (h : alloc.serve malloc p size = some (addr, p')) : p.Grants ⟨addr, size⟩ p' := by
  cases alloc with
  | palloc => exact palloc_grants hp h
  | pnalloc => exact pnalloc_grants hp h
  | pmemalign => exact pmemalign_grants hp h

theorem Made.valid {given : List Region} (h : Made malloc p given) : p.Valid := by
  induction h with
  | create hwords hsize h => exact createPool_valid hwords hsize h
  | alloc alloc hmade h ih => exact (serve_grants ih h).valid

theorem Made.used {given : List Region} (h : Made malloc p given) : ∀ r ∈ given, p.Used r := by
  induction h with
  | create => exact fun r hr => absurd hr List.not_mem_nil
  | alloc alloc hmade h ih =>
    have hgrants := serve_grants hmade.valid h
    intro r hr
    rcases List.mem_cons.1 hr with rfl | hr
    · exact hgrants.used
    · exact hgrants.keeps r (ih r hr)

end

namespace State

structure Kept (s : State) : Prop where
  laid : Laid s.pool s.array s.mem (⟨s.record, NxArray.sizeofArray⟩ :: s.given) s.pushed
  count : s.array.nelts = s.pushed.length
  small : s.pushed.length < 2 ^ 31
  slots : s.array.nalloc < 2 ^ 32

variable {malloc : Malloc} {s s' : State} {c : Call} {ptr : Option Int}
  {elts : List (List UInt8)} {bytes nalloc request copied : Nat}

theorem Kept.contents (h : Kept s) : s.Contents ∧ s.Allocated :=
  ⟨⟨h.count, h.laid.holds⟩, h.laid.storage⟩

theorem uInt_lt (z : Int) : uInt z < 2 ^ 32 := by
  unfold uInt
  omega

theorem Kept.pushWith {full : Prop} [Decidable full] (h : Kept s)
    (hsizes : ∀ elt ∈ elts, elt.length = s.array.size)
    (hsmall : s.pushed.length + elts.length < 2 ^ 31)
    (hroom : elts = [] → s.array.nelts < s.array.nalloc)
    (hfull : full ↔ s.array.nalloc < s.pushed.length + elts.length)
    (hmore : full → s.array.InPlace s.pool bytes → bytes = s.array.size * elts.length)
    (hnalloc : full → ¬ s.array.InPlace s.pool bytes → request = s.array.size * nalloc ∧
      s.pushed.length + elts.length ≤ nalloc ∧ s.array.nalloc ≤ nalloc)
    (hcopied : full → s.array.size * s.pushed.length ≤ copied) (hbound : nalloc < 2 ^ 32)
    (hcall : (s.array.pushWith malloc s.pool s.mem full elts.length bytes nalloc request
      copied).map (s.written elts) = some (ptr, s')) :
    Kept s' ∧ ∃ i : Nat, i < s'.array.nalloc ∧ ptr = some (s'.array.slot i) := by
  obtain ⟨⟨at', a', p', mem'⟩, hpush, heq⟩ := Option.map_eq_some_iff.1 hcall
  obtain ⟨rfl, rfl⟩ := Prod.mk.inj heq
  have hlaid := h.laid.pushWith h.count hsizes hfull
    (fun hf hin => ⟨hmore hf hin, by have := hfull.1 hf; omega⟩) hnalloc hcopied hpush
  obtain ⟨-, hnelts, -, hptr, hslots⟩ := pushWith_cases h.laid.valid hpush
  have hcount := h.count
  have hlength := hlaid.room
  rw [List.length_append] at hlength
  refine ⟨⟨hlaid, ?_, ?_, ?_⟩, s.pushed.length, ?_, ?_⟩
  · rw [hnelts, List.length_append, hcount, ← Nat.cast_add, int32_of_lt hsmall]
  · rw [List.length_append]
    exact hsmall
  · rw [hslots]
    split
    · split
      · exact uInt_lt _
      · exact hbound
    · exact h.slots
  · change s.pushed.length < a'.nalloc
    cases elts with
    | nil =>
      have := hroom rfl
      rw [hslots, if_neg (by rw [hfull, List.length_nil]; omega)]
      omega
    | cons elt elts =>
      rw [List.length_cons] at hlength
      omega
  · exact congrArg some (by rw [hptr, hcount])

theorem Kept.push {elt : List UInt8} (h : Kept s) (hp : s.Proper (.push elt))
    (hcall : s.call malloc (.push elt) = some (ptr, s')) :
    Kept s' ∧ ∃ i : Nat, i < s'.array.nalloc ∧ ptr = some (s'.array.slot i) := by
  obtain ⟨hlt, hfits⟩ := hp
  have hcount := h.count
  have hroom := h.laid.room
  have hbounded := h.laid.bounded
  have hstorage : sizeT (s.array.size * s.array.nalloc) = s.array.size * s.array.nalloc := by
    rw [← Nat.cast_mul, sizeT_of_lt hbounded]
  have hfull : uInt s.array.nelts = s.array.nalloc ↔
      s.array.nalloc < s.pushed.length + [elt].length := by
    rw [hcount, uInt_of_lt (by omega), List.length_singleton]
    omega
  simp only [State.call] at hcall
  split at hcall
  · next hsize =>
    have hsizes : ∀ e ∈ [elt], e.length = s.array.size := by simpa using hsize
    refine h.pushWith hsizes ?_ nofun hfull (fun _ _ => (Nat.mul_one _).symm) ?_ (fun _ => ?_)
      (uInt_lt _) hcall
    · simp only [List.length_singleton]
      omega
    · intro hf hin
      have hlength := hfull.1 hf
      rw [List.length_singleton] at hlength ⊢
      have hdouble := hfits (by omega)
      rw [if_neg hin, Nat.mul_left_comm] at hdouble
      have hslots : uInt (s.array.nalloc * 2) = 2 * s.array.nalloc := by
        unfold uInt
        omega
      rw [hstorage, hslots, Nat.mul_left_comm]
      have hpos := h.laid.slots
      refine ⟨?_, by omega, by omega⟩
      unfold sizeT
      omega
    · rw [hstorage]
      exact Nat.mul_le_mul_left _ hroom
  · cases hcall

theorem Kept.pushN (h : Kept s) (hp : s.Proper (.pushN elts))
    (hcall : s.call malloc (.pushN elts) = some (ptr, s')) :
    Kept s' ∧ ∃ i : Nat, i < s'.array.nalloc ∧ ptr = some (s'.array.slot i) := by
  obtain ⟨hnil, hlt, hfits⟩ := hp
  have hcount := h.count
  have hroom := h.laid.room
  have hfull : s.array.nalloc < uInt (s.array.nelts + elts.length) ↔
      s.array.nalloc < s.pushed.length + elts.length := by
    rw [hcount, ← Nat.cast_add, uInt_of_lt (by omega)]
  have hgrown : s.array.nalloc < s.pushed.length + elts.length → s.array.size *
      (if s.array.InPlace s.pool (sizeT (elts.length * s.array.size)) then
        s.array.nalloc + elts.length else 2 * max elts.length s.array.nalloc) < 2 ^ 64 :=
    fun hf => hfits (by omega)
  simp only [State.call] at hcall
  split at hcall
  · next hsizes =>
    refine h.pushWith hsizes.1 (by omega) hnil hfull (fun hf hin => ?_) (fun hf hin => ?_)
      (fun _ => ?_) (uInt_lt _) hcall
    · have hmore := hgrown (hfull.1 hf)
      rw [if_pos hin, Nat.mul_add] at hmore
      rw [← Nat.cast_mul, Nat.mul_comm elts.length, sizeT_of_lt (by omega)]
    · have hmore := hgrown (hfull.1 hf)
      have hf' := hfull.1 hf
      rw [if_neg hin] at hmore
      have hslots : uInt (2 * max elts.length s.array.nalloc) =
          2 * max elts.length s.array.nalloc := by
        unfold uInt
        omega
      rw [hslots]
      refine ⟨?_, by omega, by omega⟩
      rw [← Nat.cast_mul, Nat.mul_comm _ s.array.size, sizeT_of_lt hmore]
    · have hpushed := Nat.mul_le_mul_left s.array.size hroom
      have hbounded := h.laid.bounded
      rw [hcount, ← Nat.cast_mul, Nat.mul_comm s.pushed.length, sizeT_of_lt (by omega)]
  · cases hcall

theorem Kept.slot_of_lt (h : Kept s) {index : Int} (hpos : 0 ≤ index) (hlt : index < s.array.nelts) :
    ∃ i : Nat, i < s.array.nalloc ∧ s.array.slot index = s.array.slot i := by
  have hcount := h.count
  have hroom := h.laid.room
  refine ⟨index.toNat, by omega, ?_⟩
  rw [Int.toNat_of_nonneg hpos]

theorem Kept.slot_inj (h : Kept s) {x y : Int} (heq : s.array.slot x = s.array.slot y) : x = y := by
  have hsize := h.laid.size
  exact Int.eq_of_mul_eq_mul_left (by omega) (Int.add_left_cancel heq)

/-- Proper calls keep the array a stack, and point to slots. -/
theorem Kept.call (h : Kept s) (hp : s.Proper c) (hcall : s.call malloc c = some (ptr, s')) :
    Kept s' ∧ (∀ addr, ptr = some addr → ∃ i : Nat, i < s'.array.nalloc ∧
      addr = s'.array.slot i) ∧ (c = .pop → ptr = s.array.top) := by
  have hcount := h.count
  have hsmall := h.small
  have of_push : Kept s' ∧ (∃ i : Nat, i < s'.array.nalloc ∧ ptr = some (s'.array.slot i)) →
      c ≠ .pop → Kept s' ∧ (∀ addr, ptr = some addr → ∃ i : Nat, i < s'.array.nalloc ∧
        addr = s'.array.slot i) ∧ (c = .pop → ptr = s.array.top) := by
    rintro ⟨hkept, i, hi, rfl⟩ hne
    exact ⟨hkept, fun addr heq => ⟨i, hi, (Option.some.inj heq).symm⟩, fun heq => absurd heq hne⟩
  cases c with
  | push elt => exact of_push (h.push hp hcall) nofun
  | pushN elts => exact of_push (h.pushN hp hcall) nofun
  | pop =>
    have hempty : s.array.nelts = 0 := hp
    have hnil : s.pushed = [] := List.eq_nil_of_length_eq_zero (by omega)
    obtain ⟨rfl, rfl⟩ := Prod.mk.inj (Option.some.inj hcall)
    simp only [NxArrayT.pop, NxArrayT.top, hempty, lt_irrefl, if_false, hnil, List.dropLast_nil]
    refine ⟨⟨?_, ?_, ?_, h.slots⟩, nofun, fun _ => trivial⟩
    · exact hnil ▸ h.laid
    · exact hnil ▸ hcount
    · exact hnil ▸ hsmall
  | popAll =>
    obtain ⟨rfl, rfl⟩ := Prod.mk.inj (Option.some.inj hcall)
    refine ⟨⟨?_, rfl, by simp, h.slots⟩, fun addr heq => ⟨0, h.laid.slots, ?_⟩, nofun⟩
    · exact { h.laid.counted 0 with
        room := Nat.zero_le _
        holds := holds_nil }
    · obtain rfl := Option.some.inj heq
      simp [NxArrayT.popAll, NxArrayT.slot]
  | top =>
    obtain ⟨rfl, rfl⟩ := Prod.mk.inj (Option.some.inj hcall)
    refine ⟨h, fun addr heq => ?_, nofun⟩
    unfold NxArrayT.top at heq
    split at heq
    · obtain rfl := Option.some.inj heq
      exact h.slot_of_lt (by omega) (by omega)
    · cases heq
  | elementAt index =>
    have hindex : 0 ≤ index := hp
    obtain ⟨rfl, rfl⟩ := Prod.mk.inj (Option.some.inj hcall)
    refine ⟨h, fun addr heq => ?_, nofun⟩
    unfold NxArrayT.at? at heq
    split at heq
    · obtain rfl := Option.some.inj heq
      exact h.slot_of_lt hindex (by omega)
    · cases heq
  | alloc alloc size =>
    obtain ⟨⟨addr, p'⟩, hserve, heq⟩ := Option.map_eq_some_iff.1 hcall
    obtain ⟨rfl, rfl⟩ := Prod.mk.inj heq
    have hlaid := h.laid.keep (serve_grants h.laid.valid hserve)
    refine ⟨⟨{ hlaid with others := fun r hr => hlaid.others r ?_ }, hcount, hsmall, h.slots⟩,
      nofun, nofun⟩
    simp only [List.mem_cons] at hr ⊢
    tauto
  | store addr bytes =>
    simp only [State.call] at hcall
    split at hcall
    · next hin =>
      obtain ⟨rfl, rfl⟩ := Prod.mk.inj (Option.some.inj hcall)
      obtain ⟨r, hr, hin⟩ := hin
      exact ⟨⟨h.laid.store (List.mem_cons_of_mem _ hr) hin, hcount, hsmall, h.slots⟩,
        nofun, nofun⟩
    · cases hcall

/-- A push that leaves the array in order has room in both its types. -/
theorem Kept.pushWith_sound {full : Prop} [Decidable full] (h : Kept s)
    (hcall : (s.array.pushWith malloc s.pool s.mem full elts.length bytes nalloc request
      copied).map (s.written elts) = some (ptr, s'))
    (hsound : s'.Contents ∧ s'.Allocated) :
    s.pushed.length + elts.length < 2 ^ 31 ∧
      s.array.size * (if full then
        if s.array.InPlace s.pool bytes then uInt (s.array.nalloc + elts.length) else nalloc
        else s.array.nalloc) < 2 ^ 64 := by
  obtain ⟨⟨at', a', p', mem'⟩, hpush, heq⟩ := Option.map_eq_some_iff.1 hcall
  obtain ⟨rfl, rfl⟩ := Prod.mk.inj heq
  obtain ⟨hp', hnelts, hsize, -, hslots⟩ := pushWith_cases h.laid.valid hpush
  obtain ⟨⟨hcount, -⟩, halloc⟩ := hsound
  constructor
  · change a'.nelts = ((s.pushed ++ elts).length : Int) at hcount
    have hlt := int32_lt (s.array.nelts + elts.length)
    rw [← hnelts, hcount, List.length_append] at hlt
    omega
  · obtain ⟨hstart, hlimit⟩ := hp'.used_bounded halloc
    simp only [NxArrayT.storage, Region.limit] at hstart hlimit
    rw [← hslots, ← hsize]
    omega

theorem Kept.push_proper {elt : List UInt8} (h : Kept s)
    (hcall : s.call malloc (.push elt) = some (ptr, s')) (hsound : s'.Contents ∧ s'.Allocated) :
    s.Proper (.push elt) := by
  have hcount := h.count
  have hslots := h.slots
  simp only [State.call] at hcall
  split at hcall
  · obtain ⟨hsmall, hfits⟩ := h.pushWith_sound hcall hsound
    rw [List.length_singleton] at hsmall
    refine ⟨by omega, fun hfull => ?_⟩
    rw [if_pos (by rw [hfull, uInt_of_lt hslots])] at hfits
    split
    · next hin =>
      rw [if_pos hin, ← Nat.cast_add, List.length_singleton, uInt_of_lt (by omega)] at hfits
      exact hfits
    · next hin =>
      have hdouble : uInt (s.array.nalloc * 2) = 2 * s.array.nalloc := by
        unfold uInt
        omega
      rwa [if_neg hin, hdouble] at hfits
  · cases hcall

/-- A `nx_array_push_n` of none points past the slots where they are all taken. -/
theorem Kept.not_points_past (h : Kept s) (hcall : s.call malloc (.pushN []) = some (ptr, s'))
    (hslot : ∀ addr, ptr = some addr → ∃ i : Nat, i < s'.array.nalloc ∧ addr = s'.array.slot i) :
    s.array.nelts < s.array.nalloc := by
  have hcount := h.count
  have hroom := h.laid.room
  have hpos := h.laid.size
  have hslots := h.slots
  simp only [State.call] at hcall
  split at hcall
  · obtain ⟨⟨at', a', p', mem'⟩, hpush, heq⟩ := Option.map_eq_some_iff.1 hcall
    obtain ⟨rfl, rfl⟩ := Prod.mk.inj heq
    obtain ⟨-, -, hsize, hptr, hsame⟩ := pushWith_cases h.laid.valid hpush
    rw [List.length_nil, Nat.cast_zero, add_zero, hcount, uInt_of_lt (by omega), if_neg (by omega)] at hsame
    obtain ⟨i, hi, hat⟩ := hslot at' rfl
    rw [hptr] at hat
    have hi : i < a'.nalloc := hi
    have := Int.eq_of_mul_eq_mul_left (by omega) (Int.add_left_cancel hat)
    omega
  · cases hcall

theorem Kept.pushN_proper (h : Kept s) (hcall : s.call malloc (.pushN elts) = some (ptr, s'))
    (hslot : ∀ addr, ptr = some addr → ∃ i : Nat, i < s'.array.nalloc ∧ addr = s'.array.slot i)
    (hsound : s'.Contents ∧ s'.Allocated) : s.Proper (.pushN elts) := by
  have hcount := h.count
  have hroom := h.laid.room
  have hslots := h.slots
  refine ⟨fun hnil => h.not_points_past (hnil ▸ hcall) hslot, ?_⟩
  simp only [State.call] at hcall
  split at hcall
  · obtain ⟨hsmall, hfits⟩ := h.pushWith_sound hcall hsound
    have hcounted : uInt (s.array.nelts + elts.length) = s.pushed.length + elts.length := by
      rw [hcount, ← Nat.cast_add, uInt_of_lt (by omega)]
    refine ⟨by omega, fun hfull => ?_⟩
    rw [hcounted, if_pos (by omega)] at hfits
    split
    · next hin =>
      rw [if_pos hin, ← Nat.cast_add, uInt_of_lt (by omega)] at hfits
      exact hfits
    · next hin =>
      have hdouble : uInt (2 * max elts.length s.array.nalloc) =
          2 * max elts.length s.array.nalloc := by
        unfold uInt
        omega
      rwa [if_neg hin, hdouble] at hfits
  · cases hcall

/-- What other calls do: they return a wrong address, or overflow. -/
theorem Kept.improper (h : Kept s) (hp : ¬ s.Proper c)
    (hcall : s.call malloc c = some (ptr, s')) :
    ¬ (s.PointsToSlot malloc c ∧ s'.Contents ∧ s'.Allocated) := by
  have hcount := h.count
  rintro ⟨hpoints, hsound⟩
  obtain ⟨hslot, hpop⟩ := hpoints ptr s' hcall
  refine hp ?_
  cases c with
  | push elt => exact h.push_proper hcall hsound
  | pushN elts => exact h.pushN_proper hcall hslot hsound
  | pop =>
    by_contra hne
    have hpos : 0 < s.array.nelts := by
      have : s.array.nelts ≠ 0 := hne
      omega
    have heq := hpop rfl
    obtain ⟨rfl, -⟩ := Prod.mk.inj (Option.some.inj hcall)
    simp only [NxArrayT.pop, NxArrayT.top, if_pos hpos] at heq
    have := h.slot_inj (Option.some.inj heq)
    omega
  | elementAt index =>
    by_contra hneg
    have hlt : index < 0 := Int.not_le.1 hneg
    obtain ⟨rfl, rfl⟩ := Prod.mk.inj (Option.some.inj hcall)
    obtain ⟨i, -, heq⟩ := hslot (s.array.slot index) (if_pos (by omega))
    have := h.slot_inj heq
    omega
  | _ => trivial

/-- The array as `nx_array_create` leaves it, where the slots it asked for are bytes that
a `size_t` can count. -/
theorem kept_create {p : Pool} {given : List Region} {mem : Nat → UInt8} {n size : Nat}
    (hmade : Made malloc p given) (hn : 1 ≤ n ∧ n < 2 ^ 32) (hsize : 0 < size)
    (hcreate : create malloc p given mem n size = some s) :
    (s.Allocated → size * n < 2 ^ 64) ∧ (size * n < 2 ^ 64 → s.Kept) := by
  obtain ⟨⟨record, array, pool⟩, harray, rfl⟩ := Option.map_eq_some_iff.1 hcreate
  unfold NxArrayT.create at harray
  split at harray
  · cases harray
  · next addr p' hrecord =>
    obtain ⟨⟨elts, p''⟩, helts, heq⟩ := Option.map_eq_some_iff.1 harray
    obtain ⟨rfl, rfl, rfl⟩ := by simpa using heq
    have hgrants := palloc_grants hmade.valid hrecord
    have hgrants' := palloc_grants hgrants.valid helts
    constructor
    · intro halloc
      obtain ⟨hstart, hlimit⟩ := hgrants'.valid.used_bounded halloc
      simp only [NxArrayT.storage, Region.limit] at hstart hlimit
      omega
    · intro hfits
      rw [← Nat.cast_mul, Nat.mul_comm, sizeT_of_lt hfits] at hgrants'
      refine ⟨⟨hgrants'.valid, hgrants'.used, fun r hr => ?_, hsize, hn.1, Nat.zero_le _, holds_nil⟩,
        rfl, by simp, hn.2⟩
      have hused : p'.Used r := by
        rcases List.mem_cons.1 hr with rfl | hr
        · exact hgrants.used
        · exact hgrants.keeps r (hmade.used r hr)
      exact ⟨hgrants'.keeps r hused, hgrants'.apart r hused⟩

end State

/-- `nx_array` is a list used as a stack: throughout the calls its elements are the
pushed ones, and every pointer returned is to the slot it should be. -/
def RefinesStack (malloc : Malloc) (s : State) (calls : List Call) : Prop :=
  (arraySystem malloc).Always (fun s => s.Contents ∧ s.Allocated) s calls ∧
    (arraySystem malloc).Meets (State.PointsToSlot malloc) s calls

/-- It is one as long as all calls are proper ones. -/
theorem refinesStack_iff {malloc : Malloc} {p : Pool} {given : List Region} {mem : Nat → UInt8}
    {n size : Nat} {s s' : State} {calls : List Call} (hmade : Made malloc p given)
    (hn : 1 ≤ n ∧ n < 2 ^ 32) (hsize : 0 < size)
    (hcreate : State.create malloc p given mem n size = some s)
    (hrun : (arraySystem malloc).run s calls = some s') :
    RefinesStack malloc s calls ↔
      size * n < 2 ^ 64 ∧ (arraySystem malloc).Meets State.Proper s calls := by
  obtain ⟨hroom, hkept⟩ := State.kept_create hmade hn hsize hcreate
  have hiff : size * n < 2 ^ 64 →
      (RefinesStack malloc s calls ↔ (arraySystem malloc).Meets State.Proper s calls) := by
    intro hfits
    refine System.always_and_meets_iff (fun s h => State.Kept.contents h) ?_ ?_ (hkept hfits) hrun
    · intro s c s' h hp hnext
      obtain ⟨⟨ptr, s''⟩, hcall, rfl⟩ := Option.map_eq_some_iff.1 hnext
      refine ⟨(h.call hp hcall).1, fun ptr' t hcall' => ?_⟩
      exact (h.call hp hcall').2
    · intro s c s' h hp hnext
      obtain ⟨⟨ptr, s''⟩, hcall, rfl⟩ := Option.map_eq_some_iff.1 hnext
      exact h.improper hp hcall
  constructor
  · intro h
    have hfits : size * n < 2 ^ 64 := hroom (by
      cases calls with
      | nil => exact h.1.2
      | cons => exact h.1.1.2)
    exact ⟨hfits, (hiff hfits).1 h⟩
  · rintro ⟨hfits, hmeets⟩
    exact (hiff hfits).2 hmeets

/-- The first aligned address behind the regions there are. -/
def behind (live : List Region) : Nat :=
  (live.foldr (fun r limit => max r.limit limit) 1 + 15) / 16 * 16

theorem limit_le_behind {live : List Region} {r : Region} (hr : r ∈ live) :
    r.limit ≤ behind live := by
  have hle : r.limit ≤ live.foldr (fun r limit => max r.limit limit) 1 := by
    induction live with
    | nil => cases hr
    | cons x live ih =>
      rcases List.mem_cons.1 hr with rfl | hr
      · exact Nat.le_max_left _ _
      · exact Nat.le_trans (ih hr) (Nat.le_max_right _ _)
  unfold behind
  omega

theorem behind_pos (live : List Region) : 0 < behind live := by
  have hone : 1 ≤ live.foldr (fun r limit => max r.limit limit) 1 := by
    induction live with
    | nil => exact Nat.le_refl _
    | cons x live ih => exact Nat.le_trans ih (Nat.le_max_right _ _)
  unfold behind
  omega

/-- A `malloc` that puts every request there. -/
def nextFree : Malloc where
  alloc live size := if behind live + size ≤ 2 ^ 64 then some (behind live) else none
  fresh h r hr := by
    obtain ⟨-, heq⟩ := Option.ite_none_right_eq_some.1 h
    obtain rfl := Option.some.inj heq
    exact .inr (.inr (.inl (limit_le_behind hr)))
  aligned h := by
    obtain ⟨-, heq⟩ := Option.ite_none_right_eq_some.1 h
    obtain rfl := Option.some.inj heq
    exact Nat.dvd_mul_left _ _
  bounded h := by
    obtain ⟨hle, heq⟩ := Option.ite_none_right_eq_some.1 h
    obtain rfl := Option.some.inj heq
    exact ⟨behind_pos _, hle⟩

/-- A pool of 1024 bytes, and an array of one slot of two bytes in it. -/
def firstPool : Pool :=
  { d := { addr := 16, last := 88, endAddr := 1040, failed := 0 }
    nexts := [], max := 952, current := 0, large := [] }

def firstArray : State :=
  { pool := { firstPool with d := { firstPool.d with last := 130 } }
    record := 88
    array := { elts := 128, nelts := 0, size := 2, nalloc := 1 }
    given := [], mem := fun _ => 0, pushed := [] }

/-- An element that grows the array in place, and one that moves it. -/
def growing : List Call :=
  [.push [1, 2], .push [3, 4], .alloc .palloc 8, .store 136 [9, 9], .push [5, 6], .top]

theorem refinesStack_iff_growing : RefinesStack nextFree firstArray growing := by
  have hmade : Made nextFree firstPool [] := @Made.create nextFree 1024 firstPool (by decide) (by decide) rfl
  have hcreate : State.create nextFree firstPool [] (fun _ => 0) 1 2 = some firstArray := rfl
  obtain ⟨s', hrun⟩ := Option.isSome_iff_exists.1
    (show ((arraySystem nextFree).run firstArray growing).isSome from rfl)
  refine (refinesStack_iff hmade (by decide) (by decide) hcreate hrun).2 ⟨by decide, ?_⟩
  refine System.meets_cons rfl ⟨by decide, fun _ => by decide⟩ ?_
  refine System.meets_cons rfl ⟨by decide, fun _ => by decide⟩ ?_
  refine System.meets_cons rfl trivial ?_
  refine System.meets_cons rfl trivial ?_
  refine System.meets_cons rfl ⟨by decide, fun _ => by decide⟩ ?_
  exact System.meets_cons rfl trivial trivial

/-- What `nx_array_pop` returns is not what `nx_array_top` would have. -/
theorem not_refinesStack_pop : ¬ RefinesStack nextFree firstArray [.push [1, 2], .pop] := by
  rintro ⟨-, -, hmeets⟩
  have hpop := ((hmeets _ rfl).1 _ _ rfl).2 rfl
  exact absurd hpop (by decide)

end KjRedis.NxBuf
