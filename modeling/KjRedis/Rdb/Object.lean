import KjRedis.Reply.Lines
import Mathlib.Logic.Function.Basic

/-! The RDB parser's data: objects, builders and the stack the builders live on. -/
namespace KjRedis.Rdb

/-- The codes of `rdb_object_builder.h`. `stray` is no code of the library: the step
touches memory outside the objects it works on, or fails an assertion. -/
inductive Rc
  | over | again | abort | premature | invalidPath | invalidMagicString | invalidNbType
  | invalidStingEnc | invalidNbState | lzfDecompress | stray
  deriving DecidableEq, Repr

/-- `nx_str_t`: `none` is a null pointer, and a byte that was never written is `none`. -/
abbrev NxStr := Option (List (Option UInt8))

def NxStr.len (s : NxStr) : Nat := (s.getD []).length

/-- `nx_memcpy` to the end of the string; where there is nothing to copy, a null pointer
stays one. -/
def NxStr.append (s : NxStr) (bytes : List UInt8) : NxStr :=
  if bytes = [] then s else some (s.getD [] ++ bytes.map some)

/-- `rdb_kv_t`. -/
structure RdbKv where
  key : NxStr
  val : NxStr
  deriving DecidableEq, Repr

/-- `rdb_object_t`. `vall` is the chain, whose last link is `vall_tail`. -/
structure RdbObject where
  type : UInt8
  dbSelector : Nat
  auxKey : NxStr
  auxVal : NxStr
  expire : Int
  key : NxStr
  val : NxStr
  vall : List RdbKv
  size : Nat
  deriving DecidableEq, Repr

/-- `rdb_object_init`. -/
def RdbObject.init : RdbObject :=
  { type := 0, dbSelector := 0, auxKey := none, auxVal := none, expire := 0, key := none
    val := none, vall := [], size := 0 }

/-- `rdb_object_builder_t`. The `state` stays a number: the builders of one slot give it
different meanings. -/
structure RdbObjectBuilder where
  depth : Nat
  state : Nat
  storeLen : Nat
  cLen : Nat
  len : Nat
  tmpKey : NxStr
  tmpVal : NxStr
  deriving DecidableEq, Repr

def RdbObjectBuilder.zero : RdbObjectBuilder :=
  { depth := 0, state := 0, storeLen := 0, cLen := 0, len := 0, tmpKey := none, tmpVal := none }

inductive ParseRdb
  | idle | header | body | footer | over
  deriving DecidableEq, Repr

/-- `rdb_parser_t`. `slots` are those of the builder stack, `nelts` of them in use; it has
room for sixteen and never holds more than five. `walked` is what `o_cb` has been given. -/
structure RdbParser where
  version : Int
  parsed : Nat
  state : ParseRdb
  slots : Nat → RdbObjectBuilder
  nelts : Nat
  o : RdbObject
  walked : List RdbObject

/-- `create_rdb_parser`. -/
def createRdbParser : RdbParser :=
  { version := 5, parsed := 0, state := .idle, slots := fun _ => .zero, nelts := 0, o := .init
    walked := [] }

/-- `RDB_PARSER_INPUT_BIPBUF_SIZE`. -/
def rdbParserInputBipbufSize : Nat := 4096

/-- `reset_rdb_parser`. The slots of the new stack are cleared when they are pushed. -/
def resetRdbParser (rp : RdbParser) : RdbParser :=
  { rp with parsed := 0, state := .idle, nelts := 0, o := .init }

namespace RdbParser

def write (rp : RdbParser) (ob : Nat) (b : RdbObjectBuilder) : RdbParser :=
  { rp with slots := Function.update rp.slots ob b }

def stackPushObjectBuilder (rp : RdbParser) : Nat × RdbParser :=
  (rp.nelts, { rp.write rp.nelts .zero with nelts := rp.nelts + 1 })

/-- `nx_array_pop` returns the slot one past the top, and that one is cleared. -/
def stackPopObjectBuilder (rp : RdbParser) : RdbParser :=
  { rp.write rp.nelts .zero with nelts := rp.nelts - 1 }

/-- `stack_alloc_object_builder`, which takes its depth as a `uint8_t`. -/
def stackAllocObjectBuilder (rp : RdbParser) (depth : Nat) : Nat × RdbParser :=
  let depth := depth % 2 ^ 8
  if depth < rp.nelts then (depth, rp)
  else
    let (ob, rp) := rp.stackPushObjectBuilder
    (ob, rp.write ob { rp.slots ob with depth })

/-- `o_cb` is called, and the result is whether it returns 0. -/
def walk (rp : RdbParser) (cb : List RdbObject → Bool) : Bool × RdbParser :=
  let walked := rp.walked ++ [rp.o]
  (cb walked, { rp with walked })

/-- `rdb_object_clear`. -/
def rdbObjectClear (rp : RdbParser) : RdbParser := { rp with o := .init }

/-- `rdb_object_calc_crc`: it decommits, and the checksum is not compiled in. -/
def calcCrc (rp : RdbParser) (bytes : Nat) : RdbParser := { rp with parsed := rp.parsed + bytes }

end RdbParser

/-- The `nx_str_t` a string builder is to fill. -/
inductive StrRef
  | auxKey | auxVal | objectKey | objectVal
  | tmpKey (ob : Nat)
  | tmpVal (ob : Nat)
  deriving DecidableEq

namespace RdbParser

def str (rp : RdbParser) : StrRef → NxStr
  | .auxKey => rp.o.auxKey
  | .auxVal => rp.o.auxVal
  | .objectKey => rp.o.key
  | .objectVal => rp.o.val
  | .tmpKey ob => (rp.slots ob).tmpKey
  | .tmpVal ob => (rp.slots ob).tmpVal

def setStr (rp : RdbParser) (s : NxStr) : StrRef → RdbParser
  | .auxKey => { rp with o := { rp.o with auxKey := s } }
  | .auxVal => { rp with o := { rp.o with auxVal := s } }
  | .objectKey => { rp with o := { rp.o with key := s } }
  | .objectVal => { rp with o := { rp.o with val := s } }
  | .tmpKey ob => rp.write ob { rp.slots ob with tmpKey := s }
  | .tmpVal ob => rp.write ob { rp.slots ob with tmpVal := s }

end RdbParser

/-- A number as `"%ld"` prints a `long int` of 32 bits and `"%lld"` one of 64. A zero is printed
without a move over the rest of its directive. The least of them has no negation, and its text is
read from in front of the table of digits, where nothing is known. -/
def printed (bits : Nat) (v : Int) : Option (List UInt8) :=
  if v = 0 then some (if bits = 32 then [48, 100] else [48, 108, 100])
  else if v = -2 ^ (bits - 1) then none
  else if v < 0 then some (Reply.minus :: Reply.decimal v.natAbs)
  else some (Reply.decimal v.natAbs)

/-- `memrev32` on what was read as little endian: the bytes as a big-endian number. -/
def beNat (bytes : List UInt8) : Nat := bytes.foldl (fun n b => n * 256 + b.toNat) 0

def leNat (bytes : List UInt8) : Nat := beNat bytes.reverse

/-- An `n`-bit number read as two's complement. -/
def signed (n v : Nat) : Int := if v < 2 ^ (n - 1) then v else v - 2 ^ n

/-- `rdb_object_read_store_len`: the bytes it takes, `is_encoded` and the length. -/
def rdbObjectReadStoreLen (bb : List UInt8) : Option (Nat × Bool × Nat) :=
  match bb with
  | [] => none
  | p :: rest =>
    match (p &&& 0xc0) >>> 6 with
    | 0 => some (1, false, (p &&& 0x3f).toNat)
    | 1 =>
      match rest with
      | q :: _ => some (2, false, (p &&& 0x3f).toNat * 256 + q.toNat)
      | [] => none
    | 2 => if rest.length < 4 then none else some (5, false, beNat (rest.take 4))
    | _ => some (1, true, (p &&& 0x3f).toNat)

def encInt8 : Nat := 0
def encInt16 : Nat := 1
def encInt32 : Nat := 2
def encLzf : Nat := 3

/-- `rdb_object_read_int`. The byte of the first encoding is not sign-extended. -/
def rdbObjectReadInt (bb : List UInt8) (enc : Nat) : Option (Nat × Int) :=
  if bb.length < 1 then none
  else if enc = encInt8 then some (1, leNat (bb.take 1))
  else if enc = encInt16 then
    if bb.length < 2 then none else some (2, signed 16 (leNat (bb.take 2)))
  else if bb.length < 4 then none else some (4, signed 32 (leNat (bb.take 4)))

/-- `rdb_object_read_type`. -/
def rdbObjectReadType (bb : List UInt8) : Option (Nat × UInt8) := bb.head?.map fun p => (1, p)

end KjRedis.Rdb
