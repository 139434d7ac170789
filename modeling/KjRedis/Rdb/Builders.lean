import KjRedis.Lib.Resumption
import KjRedis.Rdb.Compact

/-! The builders of the RDB parser, `rdb_parse_object_once` and `rdb_parse_dumped_data_once`.
Their loops take fuel; running out is `none`. -/
namespace KjRedis.Rdb

open Resumption

abbrev Builder := Proc Rc RdbParser UInt8

abbrev Step := RdbParser → List UInt8 → Rc × RdbParser × List UInt8

/-- `OB_LOOP_BEGIN` and `OB_LOOP_END`. -/
def obLoop (depth : RdbParser → Nat) (body : Nat → Builder)
    (finish : Nat → Rc → RdbParser → Rc × RdbParser) : Builder :=
  after (fun rp => rp.stackAllocObjectBuilder (depth rp)) fun ob =>
    andThen (loop (fun rc _ => rc = .again) (body ob)) (finish ob)

def popOver (_ : Nat) (rc : Rc) (rp : RdbParser) : Rc × RdbParser :=
  if rc = .over then (rc, rp.stackPopObjectBuilder) else (rc, rp)

def subDepth (ob : Nat) (rp : RdbParser) : Nat := (rp.slots ob).depth + 1

def fail (rc : Rc) : Step := fun rp bb => (rc, rp, bb)

namespace RdbParser

def setState (rp : RdbParser) (ob state : Nat) : RdbParser :=
  rp.write ob { rp.slots ob with state }

end RdbParser

def buildLzfStringIdle : Nat := 0
def buildLzfStringCompressLen : Nat := 1
def buildLzfStringRawLen : Nat := 2
def buildLzfStringLzf : Nat := 3

/-- The buffer for `tmp_val` is new, its length stays. -/
def buildCompressLen (ob : Nat) : Step := fun rp bb =>
  match rdbObjectReadStoreLen bb with
  | none => (.premature, rp, bb)
  | some (n, _, cLen) =>
    let b := rp.slots ob
    let tmpVal := some (List.replicate b.tmpVal.len none)
    (.again, (rp.write ob { b with cLen, state := buildLzfStringRawLen, tmpVal, len := 0 }).calcCrc n,
      bb.drop n)

def buildRawLen (ob : Nat) : Step := fun rp bb =>
  match rdbObjectReadStoreLen bb with
  | none => (.premature, rp, bb)
  | some (n, _, len) =>
    (.again, (rp.write ob { rp.slots ob with len, state := buildLzfStringLzf }).calcCrc n, bb.drop n)

/-- A buffer of `n + 1` bytes has none if the sum wraps. -/
def noBuffer (n : Nat) : Prop := n + 1 = 2 ^ 32

instance (n : Nat) : Decidable (noBuffer n) := inferInstanceAs (Decidable (n + 1 = 2 ^ 32))

/-- What is made of a whole compressed string. Of an empty one the byte behind it is read, and
every value of that byte is refused. Bytes that decompressing leaves out were never written. -/
def decompressed (tmpVal : NxStr) (len : Nat) : Except Rc NxStr :=
  match (tmpVal.getD []).mapM id with
  | none => .error .stray
  | some inData =>
    if noBuffer len ∧ lzfWrites inData then .error .stray
    else
      match lzfDecompress inData len with
      | none => .error .lzfDecompress
      | some raw => .ok (some (raw.map some ++ List.replicate (len - raw.length) none))

def buildLzf (val : StrRef) (ob : Nat) : Step := fun rp bb =>
  let b := rp.slots ob
  let wantSize := b.cLen - b.tmpVal.len
  let consumeSize := min bb.length wantSize
  if noBuffer b.cLen ∧ 0 < consumeSize then (.stray, rp, bb)
  else
    let tmpVal := b.tmpVal.append (bb.take consumeSize)
    let rp := (rp.write ob { b with tmpVal }).calcCrc consumeSize
    if wantSize = consumeSize then
      match decompressed tmpVal b.len with
      | .error rc => (rc, rp, bb.drop consumeSize)
      | .ok s => (.over, rp.setStr s val, bb.drop consumeSize)
    else (.premature, rp, bb.drop consumeSize)

def lzfBody (val : StrRef) (ob : Nat) : Builder := dispatch fun rp =>
  let state := (rp.slots ob).state
  if state = buildLzfStringIdle ∨ state = buildLzfStringCompressLen then ofStep (buildCompressLen ob)
  else if state = buildLzfStringRawLen then ofStep (buildRawLen ob)
  else if state = buildLzfStringLzf then ofStep (buildLzf val ob)
  else ofStep (fail .invalidNbState)

def buildLzfStringValue (val : StrRef) (ob : Nat) : Builder :=
  obLoop (subDepth ob) (lzfBody val) popOver

def buildStringIdle : Nat := 0
def buildStringStoreLen : Nat := 1
def buildStringEnc : Nat := 2
def buildStringPlain : Nat := 3

def stringStoreLen (val : StrRef) (ob : Nat) : Step := fun rp bb =>
  match rdbObjectReadStoreLen bb with
  | none => (.premature, rp, bb)
  | some (n, isEncoded, storeLen) =>
    let b := { rp.slots ob with storeLen, cLen := 0, len := 0 }
    if isEncoded then (.again, (rp.write ob { b with state := buildStringEnc }).calcCrc n, bb.drop n)
    else (.again, ((rp.write ob { b with state := buildStringPlain }).setStr (some []) val).calcCrc n,
      bb.drop n)

def stringInt (val : StrRef) (ob : Nat) : Step := fun rp bb =>
  match rdbObjectReadInt bb (rp.slots ob).storeLen with
  | none => (.premature, rp, bb)
  | some (n, encInt) =>
    match printed 32 encInt with
    | none => (.stray, rp, bb)
    | some s32 => (.over, (rp.setStr (some (s32.map some)) val).calcCrc n, bb.drop n)

def stringEnc (val : StrRef) (ob : Nat) : Builder := dispatch fun rp =>
  let storeLen := (rp.slots ob).storeLen
  if storeLen = encInt8 ∨ storeLen = encInt16 ∨ storeLen = encInt32 then ofStep (stringInt val ob)
  else if storeLen = encLzf then buildLzfStringValue val ob
  else ofStep (fail .invalidStingEnc)

def stringPlain (val : StrRef) (ob : Nat) : Step := fun rp bb =>
  let storeLen := (rp.slots ob).storeLen
  let wantSize := storeLen - (rp.str val).len
  let consumeSize := min bb.length wantSize
  if noBuffer storeLen ∧ 0 < consumeSize then (.stray, rp, bb)
  else
    let s := (rp.str val).append (bb.take consumeSize)
    let rp := (rp.setStr s val).calcCrc consumeSize
    (if wantSize = consumeSize then .over else .premature, rp, bb.drop consumeSize)

def stringBody (val : StrRef) (ob : Nat) : Builder := dispatch fun rp =>
  let state := (rp.slots ob).state
  if state = buildStringIdle ∨ state = buildStringStoreLen then ofStep (stringStoreLen val ob)
  else if state = buildStringEnc then stringEnc val ob
  else if state = buildStringPlain then ofStep (stringPlain val ob)
  else ofStep (fail .invalidNbState)

def buildStringValue (val : StrRef) (ob : Nat) : Builder :=
  obLoop (subDepth ob) (stringBody val) popOver

/-- The length of a container, and the state that follows. -/
def containerStoreLen (next : Nat) (ob : Nat) : Step := fun rp bb =>
  match rdbObjectReadStoreLen bb with
  | none => (.premature, rp, bb)
  | some (n, _, storeLen) =>
    (.again, (rp.write ob { rp.slots ob with storeLen, len := 0, state := next }).calcCrc n, bb.drop n)

/-- A further link of `vall`, from `tmp_key` and `tmp_val`. -/
def linkElement (again : Nat) (ob : Nat) (rc : Rc) (rp : RdbParser) : Rc × RdbParser :=
  if rc = .over then
    let b := rp.slots ob
    let kv : RdbKv := { key := b.tmpKey, val := b.tmpVal }
    let rp := { rp with o := { rp.o with vall := rp.o.vall ++ [kv] } }
    let b := { b with tmpKey := none, tmpVal := none, len := b.len + 1 }
    if b.len < b.storeLen then (.again, rp.write ob { b with state := again })
    else (.over, { rp.write ob b with o := { rp.o with size := b.len } })
  else (rc, rp)

/-- Where all the elements that are declared have been built, the loop spins. -/
def nextElement (state : Nat) (element : Builder) (ob : Nat) : Builder := dispatch fun rp =>
  if (rp.slots ob).len < (rp.slots ob).storeLen then element
  else ofStep fun rp bb => (.again, rp.setState ob state, bb)

def buildListOrSetIdle : Nat := 0
def buildListOrSetStoreLen : Nat := 1
def buildListOrSetLoopVal : Nat := 2

def listOrSetLoopVal (ob : Nat) : Builder :=
  nextElement buildListOrSetLoopVal
    (andThen (buildStringValue (.tmpVal ob) ob) (linkElement buildListOrSetLoopVal ob)) ob

def listOrSetBody (ob : Nat) : Builder := dispatch fun rp =>
  let state := (rp.slots ob).state
  if state = buildListOrSetIdle ∨ state = buildListOrSetStoreLen then
    ofStep (containerStoreLen buildListOrSetLoopVal ob)
  else if state = buildListOrSetLoopVal then listOrSetLoopVal ob
  else ofStep (fail .invalidNbState)

def buildListOrSetValue (ob : Nat) : Builder := obLoop (subDepth ob) listOrSetBody popOver

def buildHashOrZsetIdle : Nat := 0
def buildHashOrZsetStoreLen : Nat := 1
def buildHashOrZsetLoopKey : Nat := 2
def buildHashOrZsetLoopVal : Nat := 3

/-- A string is over, and another one is to follow it. -/
def thenState (next : Nat) (ob : Nat) (rc : Rc) (rp : RdbParser) : Rc × RdbParser :=
  if rc = .over then (.again, rp.setState ob next) else (rc, rp)

def hashOrZsetLoopKey (ob : Nat) : Builder :=
  nextElement buildHashOrZsetLoopVal
    (andThen (buildStringValue (.tmpKey ob) ob) (thenState buildHashOrZsetLoopVal ob)) ob

def hashOrZsetLoopVal (ob : Nat) : Builder :=
  nextElement buildHashOrZsetLoopVal
    (andThen (buildStringValue (.tmpVal ob) ob) (linkElement buildHashOrZsetLoopKey ob)) ob

def hashOrZsetBody (ob : Nat) : Builder := dispatch fun rp =>
  let state := (rp.slots ob).state
  if state = buildHashOrZsetIdle ∨ state = buildHashOrZsetStoreLen then
    ofStep (containerStoreLen buildHashOrZsetLoopKey ob)
  else if state = buildHashOrZsetLoopKey then hashOrZsetLoopKey ob
  else if state = buildHashOrZsetLoopVal then hashOrZsetLoopVal ob
  else ofStep (fail .invalidNbState)

def buildHashOrZsetValue (ob : Nat) : Builder := obLoop (subDepth ob) hashOrZsetBody popOver

/-- The string in `tmp_val` is taken apart. -/
def loadElements (load : NxStr → Option (List RdbKv)) (ob : Nat) (rc : Rc) (rp : RdbParser) :
    Rc × RdbParser :=
  if rc = .over then
    match load (rp.slots ob).tmpVal with
    | none => (.stray, rp)
    | some kvs =>
      let rp := { rp with o := { rp.o with vall := rp.o.vall ++ kvs, size := kvs.length } }
      (.over, rp.write ob { rp.slots ob with tmpVal := none })
  else (rc, rp)

def buildCompactValue (load : NxStr → Option (List RdbKv)) (ob : Nat) : Builder :=
  andThen (buildStringValue (.tmpVal ob) ob) (loadElements load ob)

def buildZipmapValue : Nat → Builder := buildCompactValue loadZipmap
def buildZlListValue : Nat → Builder := buildCompactValue loadZiplistListOrSet
def buildIntsetValue : Nat → Builder := buildCompactValue loadIntset
def buildZlHashValue : Nat → Builder := buildCompactValue loadZiplistHashOrZset

def rdbTypeString : UInt8 := 0
def rdbTypeList : UInt8 := 1
def rdbTypeSet : UInt8 := 2
def rdbTypeZset : UInt8 := 3
def rdbTypeHash : UInt8 := 4
def rdbTypeHashZipmap : UInt8 := 9
def rdbTypeListZiplist : UInt8 := 10
def rdbTypeSetIntset : UInt8 := 11
def rdbTypeZsetZiplist : UInt8 := 12
def rdbTypeHashZiplist : UInt8 := 13
def rdbOpcodeAux : UInt8 := 250
def rdbOpcodeExpiretimeMs : UInt8 := 252
def rdbOpcodeExpiretime : UInt8 := 253
def rdbOpcodeSelectdb : UInt8 := 254
def rdbOpcodeEof : UInt8 := 255

def kvValOf (type : UInt8) (ob : Nat) : Builder :=
  if type = rdbTypeString then buildStringValue .objectVal ob
  else if type = rdbTypeList ∨ type = rdbTypeSet then buildListOrSetValue ob
  else if type = rdbTypeZset ∨ type = rdbTypeHash then buildHashOrZsetValue ob
  else if type = rdbTypeHashZipmap then buildZipmapValue ob
  else if type = rdbTypeListZiplist then buildZlListValue ob
  else if type = rdbTypeSetIntset then buildIntsetValue ob
  else if type = rdbTypeZsetZiplist ∨ type = rdbTypeHashZiplist then buildZlHashValue ob
  else ofStep (fail .invalidNbType)

def buildObjectDetailKvVal (ob : Nat) : Builder := dispatch fun rp => kvValOf rp.o.type ob

def buildObjectDetailKvIdle : Nat := 0
def buildObjectDetailKvKey : Nat := 1
def buildObjectDetailKvValState : Nat := 2

def kvBody (ob : Nat) : Builder := dispatch fun rp =>
  let state := (rp.slots ob).state
  if state = buildObjectDetailKvIdle ∨ state = buildObjectDetailKvKey then
    andThen (buildStringValue .objectKey ob) (thenState buildObjectDetailKvValState ob)
  else if state = buildObjectDetailKvValState then buildObjectDetailKvVal ob
  else ofStep (fail .invalidNbState)

def buildObjectDetailKv (ob : Nat) : Builder := obLoop (subDepth ob) kvBody popOver

def buildOpcodeAuxIdle : Nat := 0
def buildOpcodeAuxKey : Nat := 1
def buildOpcodeAuxVal : Nat := 2

def isAuxKey (state : Nat) : Bool := state = buildOpcodeAuxIdle ∨ state = buildOpcodeAuxKey

def auxBody (sub : Nat) : Builder := dispatch fun rp =>
  let state := (rp.slots sub).state
  if isAuxKey state then buildStringValue .auxKey sub
  else if state = buildOpcodeAuxVal then buildStringValue .auxVal sub
  else ofStep (fail .invalidNbState)

/-- After a key the function returns from inside its loop, and the state it sets is that of
its caller's builder `ob`. -/
def auxEnd (ob sub : Nat) (rc : Rc) (rp : RdbParser) : Rc × RdbParser :=
  if rc = .over ∧ isAuxKey (rp.slots sub).state then (.again, rp.setState ob buildOpcodeAuxVal)
  else popOver sub rc rp

def buildOpcodeAux (ob : Nat) : Builder := obLoop (subDepth ob) auxBody (auxEnd ob)

def buildBodyIdle : Nat := 0
def buildBodyObjectType : Nat := 1
def buildBodyObjectDetail : Nat := 2

def buildObjectType (ob : Nat) : Step := fun rp bb =>
  match rdbObjectReadType bb with
  | none => (.premature, rp, bb)
  | some (n, type) =>
    (.again, ({ rp with o := { rp.o with type } }.calcCrc n).setState ob buildBodyObjectDetail,
      bb.drop n)

/-- A record is over: it is handed to the callback. -/
def processed (cb : List RdbObject → Bool) (ob : Nat) (rc : Rc) (rp : RdbParser) : Rc × RdbParser :=
  if rc = .over then
    match rp.walk cb with
    | (true, rp) => (.again, rp.rdbObjectClear.setState ob buildBodyObjectType)
    | (false, rp) => (.abort, rp)
  else (rc, rp)

def readDbSelector : Step := fun rp bb =>
  match rdbObjectReadStoreLen bb with
  | none => (.premature, rp, bb)
  | some (n, _, dbSelector) =>
    (.over, { rp with o := { rp.o with dbSelector } }.calcCrc n, bb.drop n)

/-- `__read_expire_time`: the bytes are reversed before they are used. -/
def readExpireTime : Step := fun rp bb =>
  let isMs := rp.o.type = rdbOpcodeExpiretimeMs
  let bytes := if isMs then 8 else 4
  if bb.length < bytes then (.premature, rp, bb)
  else
    let t := beNat (bb.take bytes)
    let expire := signed 32 ((if isMs then t / 1000 else t) % 2 ^ 32)
    (.over, { rp with o := { rp.o with expire } }.calcCrc bytes, bb.drop bytes)

def isKvType (type : UInt8) : Bool :=
  type ∈ [rdbTypeString, rdbTypeList, rdbTypeSet, rdbTypeZset, rdbTypeHash, rdbTypeHashZipmap,
    rdbTypeListZiplist, rdbTypeSetIntset, rdbTypeZsetZiplist, rdbTypeHashZiplist]

def detailOf (cb : List RdbObject → Bool) (type : UInt8) (ob : Nat) : Builder :=
  if type = rdbOpcodeAux then andThen (buildOpcodeAux ob) (processed cb ob)
  else if type = rdbOpcodeSelectdb then andThen (ofStep readDbSelector) (processed cb ob)
  else if type = rdbOpcodeExpiretime ∨ type = rdbOpcodeExpiretimeMs then
    andThen (ofStep readExpireTime) (processed cb ob)
  else if isKvType type then andThen (buildObjectDetailKv ob) (processed cb ob)
  else if type = rdbOpcodeEof then ofStep (fail .over)
  else ofStep (fail .invalidNbType)

def buildObjectDetail (cb : List RdbObject → Bool) (ob : Nat) : Builder :=
  dispatch fun rp => detailOf cb rp.o.type ob

def bodyBody (cb : List RdbObject → Bool) (ob : Nat) : Builder := dispatch fun rp =>
  let state := (rp.slots ob).state
  if state = buildBodyIdle ∨ state = buildBodyObjectType then ofStep (buildObjectType ob)
  else if state = buildBodyObjectDetail then buildObjectDetail cb ob
  else ofStep (fail .invalidNbState)

def buildBody (cb : List RdbObject → Bool) : Builder := obLoop (fun _ => 0) (bodyBody cb) popOver

/-- `atoi`. -/
def atoi (s : List UInt8) : Int :=
  let s := s.dropWhile fun c => c = 32 ∨ 9 ≤ c ∧ c ≤ 13
  let digits (s : List UInt8) : Int := Reply.natOf (s.takeWhile Reply.isDigit)
  match s with
  | 45 :: s => -digits s
  | 43 :: s => digits s
  | s => digits s

/-- `REDIS`. -/
def magicStr : List UInt8 := [82, 69, 68, 73, 83]

def buildHeader : Step := fun rp bb =>
  if bb.length < 9 then (.premature, rp, bb)
  else if bb.take 5 ≠ magicStr then (.invalidMagicString, rp, bb)
  else (.over, { rp with version := atoi ((bb.drop 5).take 4) }.calcCrc 9, bb.drop 9)

/-- The checksum is not compiled in. -/
def buildFooter : Step := fail .over

def thenParse (next : ParseRdb) (rc : Rc) (rp : RdbParser) : Rc × RdbParser :=
  if rc = .over then (rc, { rp with state := next }) else (rc, rp)

/-- A round of `rdb_parse_object_once`. -/
def objectRound (cb : List RdbObject → Bool) : Builder := dispatch fun rp =>
  match rp.state with
  | .idle | .header => andThen (ofStep buildHeader) (thenParse .body)
  | .body => andThen (buildBody cb) (thenParse .footer)
  | .footer => andThen (ofStep buildFooter) (thenParse .over)
  | .over => ofStep (fail .again)

/-- A parser that is over does nothing. -/
def rdbParseObjectOnce (cb : List RdbObject → Bool) : Builder := dispatch fun rp =>
  if rp.state = .over then ofStep (fail .again)
  else loop (fun rc rp => rp.state ≠ .over ∧ (rc = .again ∨ rc = .over)) (objectRound cb)

def buildDumpedDataIdle : Nat := 0
def buildDumpedDataObjectType : Nat := 1
def buildDumpedDataObjectDetailKvVal : Nat := 2

/-- The value is over: it is handed to the callback, and the builder ends. -/
def dumped (cb : List RdbObject → Bool) (rc : Rc) (rp : RdbParser) : Rc × RdbParser :=
  if rc = .over then
    match rp.walk cb with
    | (true, rp) => (.over, rp.rdbObjectClear)
    | (false, rp) => (.abort, rp)
  else (rc, rp)

/-- `__build_dumped_data_object_type` is `__build_object_type` under another name. -/
def dumpedDataBody (cb : List RdbObject → Bool) (ob : Nat) : Builder := dispatch fun rp =>
  let state := (rp.slots ob).state
  if state = buildDumpedDataIdle ∨ state = buildDumpedDataObjectType then ofStep (buildObjectType ob)
  else if state = buildDumpedDataObjectDetailKvVal then
    andThen (buildObjectDetailKvVal ob) (dumped cb)
  else ofStep (fail .invalidNbState)

def buildDumpedData (cb : List RdbObject → Bool) : Builder :=
  obLoop (fun _ => 0) (dumpedDataBody cb) popOver

/-- No error of the library's ends the loop. -/
def rdbParseDumpedDataOnce (cb : List RdbObject → Bool) : Builder := dispatch fun rp =>
  if rp.state = .over then ofStep (fail .again)
  else loop (fun rc rp => rc ≠ .premature ∧ rc ≠ .stray ∧ rp.state ≠ .over) (buildDumpedData cb)

end KjRedis.Rdb
