import KjRedis.Rdb.Frames

/-! The RDB format, read from bytes that are all there: no parser, no stack, nothing to resume. -/
namespace KjRedis.Rdb

/-- What reading comes to, and what is left of the bytes. `endless` is a container of no elements: its
builder spins. -/
inductive Read (α : Type)
  | done (x : α) (rest : List UInt8)
  | more (left : List UInt8)
  | fail (rc : Rc) (left : List UInt8)
  | stray
  | endless

namespace Read

variable {α β γ : Type}

def bind (r : Read α) (f : α → List UInt8 → Read β) : Read β :=
  match r with
  | done x rest => f x rest
  | more left => more left
  | fail rc left => fail rc left
  | stray => stray
  | endless => endless

def map (f : α → β) (r : Read α) : Read β := r.bind fun x rest => done (f x) rest

theorem bind_done (r : Read α) : r.bind done = r := by
  cases r <;> rfl

theorem bind_bind (r : Read α) (f : α → List UInt8 → Read β) (g : β → List UInt8 → Read γ) :
    (r.bind f).bind g = r.bind fun x rest => (f x rest).bind g := by
  cases r <;> rfl

theorem bind_eq_done {r : Read α} {f : α → List UInt8 → Read β} {y : β} {rest : List UInt8}
    (h : r.bind f = done y rest) : ∃ x mid, r = done x mid ∧ f x mid = done y rest := by
  cases r with
  | done x mid => exact ⟨x, mid, rfl, h⟩
  | more | fail | stray | endless => cases h

end Read

def readLen (bb : List UInt8) : Read (Bool × Nat) :=
  match rdbObjectReadStoreLen bb with
  | none => .more bb
  | some (n, len) => .done len (bb.drop n)

/-- Bytes that go into a buffer of their number and one. -/
def readBytes (n : Nat) (bb : List UInt8) : Read (List UInt8) :=
  if noBuffer n ∧ bb ≠ [] then .stray
  else if bb.length < n then .more []
  else .done (bb.take n) (bb.drop n)

def readInt (enc : Nat) (bb : List UInt8) : Read NxStr :=
  match rdbObjectReadInt bb enc with
  | none => .more bb
  | some (n, v) =>
    match printed 32 v with
    | none => .stray
    | some s32 => .done (some (s32.map some)) (bb.drop n)

def inflate (data : List UInt8) (len : Nat) (rest : List UInt8) : Read NxStr :=
  match decompressed (some (data.map some)) len with
  | .error .stray => .stray
  | .error rc => .fail rc rest
  | .ok s => .done s rest

def readLzf (bb : List UInt8) : Read NxStr :=
  (readLen bb).bind fun cLen bb => (readLen bb).bind fun len bb =>
    (readBytes cLen.2 bb).bind fun data rest => inflate data len.2 rest

def readEncoded (enc : Nat) (bb : List UInt8) : Read NxStr :=
  if enc = encInt8 ∨ enc = encInt16 ∨ enc = encInt32 then readInt enc bb
  else if enc = encLzf then readLzf bb
  else .fail .invalidStingEnc bb

def readString (bb : List UInt8) : Read NxStr :=
  (readLen bb).bind fun len bb =>
    if len.1 then readEncoded len.2 bb
    else (readBytes len.2 bb).map fun s => some (s.map some)

/-- The elements of a container, behind those that have been read. -/
def readElements (element : List UInt8 → Read RdbKv) :
    Nat → List RdbKv → List UInt8 → Read (List RdbKv)
  | 0, kvs, bb => .done kvs bb
  | n + 1, kvs, bb => (element bb).bind fun kv bb => readElements element n (kvs ++ [kv]) bb

def readContainer (element : List UInt8 → Read RdbKv) (bb : List UInt8) : Read (List RdbKv) :=
  (readLen bb).bind fun len bb => if len.2 = 0 then .endless else readElements element len.2 [] bb

def readMember (bb : List UInt8) : Read RdbKv := (readString bb).map fun val => ⟨none, val⟩

def readPair (bb : List UInt8) : Read RdbKv :=
  (readString bb).bind fun key bb => (readString bb).map fun val => ⟨key, val⟩

def RdbObject.linked (o : RdbObject) (kvs : List RdbKv) : RdbObject := { o with vall := o.vall ++ kvs }

/-- The object with the elements of a container. -/
def RdbObject.filled (kvs : List RdbKv) (o : RdbObject) : RdbObject :=
  { o.linked kvs with size := kvs.length }

/-- What takes a compact value apart. -/
def loaderOf (type : UInt8) : Option (NxStr → Option (List RdbKv)) :=
  if type = rdbTypeHashZipmap then some loadZipmap
  else if type = rdbTypeListZiplist then some loadZiplistListOrSet
  else if type = rdbTypeSetIntset then some loadIntset
  else if type = rdbTypeZsetZiplist ∨ type = rdbTypeHashZiplist then some loadZiplistHashOrZset
  else none

def readCompact (load : NxStr → Option (List RdbKv)) (bb : List UInt8) : Read (List RdbKv) :=
  (readString bb).bind fun s rest =>
    match load s with
    | none => .stray
    | some kvs => .done kvs rest

/-- A value, as what it does to the object. -/
def readKvVal (type : UInt8) (bb : List UInt8) : Read (RdbObject → RdbObject) :=
  if type = rdbTypeString then (readString bb).map fun s o => { o with val := s }
  else if type = rdbTypeList ∨ type = rdbTypeSet then (readContainer readMember bb).map RdbObject.filled
  else if type = rdbTypeZset ∨ type = rdbTypeHash then (readContainer readPair bb).map RdbObject.filled
  else
    match loaderOf type with
    | some load => (readCompact load bb).map RdbObject.filled
    | none => .fail .invalidNbType bb

section Shorter

variable {bb rest : List UInt8}

theorem readStoreLen_length_le {n : Nat} {len : Bool × Nat} (h : rdbObjectReadStoreLen bb = some (n, len)) :
    0 < n ∧ n ≤ bb.length := by
  refine ⟨?_, (prefixed_readStoreLen bb n len h).1⟩
  cases bb with
  | nil => cases h
  | cons p bb =>
    simp only [rdbObjectReadStoreLen] at h
    split at h
    · cases h
      exact Nat.one_pos
    · split at h
      · cases h
        exact Nat.two_pos
      · cases h
    · split at h
      · cases h
      · cases h
        exact Nat.succ_pos 4
    · cases h
      exact Nat.one_pos

theorem readStoreLen_none (h : rdbObjectReadStoreLen bb = none) : bb.length < 9 := by
  cases bb with
  | nil => exact Nat.succ_pos 8
  | cons p bb =>
    simp only [rdbObjectReadStoreLen] at h
    split at h
    · cases h
    · cases bb with
      | nil => exact Nat.lt_add_left 7 Nat.one_lt_two
      | cons q bb => cases h
    · split at h
      · rw [List.length_cons]
        omega
      · cases h
    · cases h

theorem readInt_none {enc : Nat} (h : rdbObjectReadInt bb enc = none) : bb.length < 9 := by
  rw [rdbObjectReadInt] at h
  split at h
  · omega
  · split at h
    · cases h
    · split at h
      · split at h
        · omega
        · cases h
      · split at h
        · omega
        · cases h

theorem readLen_shorter {len : Bool × Nat} (h : readLen bb = .done len rest) : rest.length < bb.length := by
  rw [readLen] at h
  split at h
  · cases h
  · next n _ hread =>
    cases h
    have := readStoreLen_length_le hread
    rw [List.length_drop]
    omega

theorem readBytes_shorter {n : Nat} {s : List UInt8} (h : readBytes n bb = .done s rest) :
    rest.length ≤ bb.length := by
  rw [readBytes] at h
  split at h
  · cases h
  · split at h
    · cases h
    · cases h
      rw [List.length_drop]
      exact Nat.sub_le _ _

theorem readInt_shorter {enc : Nat} {s : NxStr} (h : readInt enc bb = .done s rest) :
    rest.length ≤ bb.length := by
  rw [readInt] at h
  split at h
  · cases h
  · split at h
    · cases h
    · cases h
      rw [List.length_drop]
      exact Nat.sub_le _ _

theorem inflate_rest {data : List UInt8} {len : Nat} {s : NxStr} {left : List UInt8}
    (h : inflate data len left = .done s rest) : rest = left := by
  rw [inflate] at h
  split at h
  · cases h
  · cases h
  · cases h
    rfl

theorem readLzf_shorter {s : NxStr} (h : readLzf bb = .done s rest) : rest.length ≤ bb.length := by
  obtain ⟨cLen, bb₁, h₁, h⟩ := Read.bind_eq_done h
  obtain ⟨len, bb₂, h₂, h⟩ := Read.bind_eq_done h
  obtain ⟨data, bb₃, h₃, h⟩ := Read.bind_eq_done h
  obtain rfl := inflate_rest h
  have := readLen_shorter h₁
  have := readLen_shorter h₂
  have := readBytes_shorter h₃
  omega

theorem readString_shorter {s : NxStr} (h : readString bb = .done s rest) :
    rest.length < bb.length := by
  obtain ⟨len, mid, hlen, h⟩ := Read.bind_eq_done h
  apply Nat.lt_of_le_of_lt ?_ (readLen_shorter hlen)
  split at h
  · rw [readEncoded] at h
    split at h
    · exact readInt_shorter h
    · split at h
      · exact readLzf_shorter h
      · cases h
  · obtain ⟨bytes, left, hbytes, h⟩ := Read.bind_eq_done h
    cases h
    exact readBytes_shorter hbytes

theorem readElements_shorter {element : List UInt8 → Read RdbKv}
    (helement : ∀ {bb kv rest}, element bb = .done kv rest → rest.length < bb.length) {n : Nat}
    {kvs kvs' : List RdbKv} (h : readElements element n kvs bb = .done kvs' rest) :
    rest.length ≤ bb.length := by
  induction n generalizing kvs bb with
  | zero =>
    cases h
    exact Nat.le_refl _
  | succ n ih =>
    obtain ⟨kv, mid, hkv, h⟩ := Read.bind_eq_done h
    exact Nat.le_trans (ih h) (Nat.le_of_lt (helement hkv))

theorem readMember_shorter {kv : RdbKv} (h : readMember bb = .done kv rest) :
    rest.length < bb.length := by
  obtain ⟨val, mid, hval, h⟩ := Read.bind_eq_done h
  cases h
  exact readString_shorter hval

theorem readPair_shorter {kv : RdbKv} (h : readPair bb = .done kv rest) : rest.length < bb.length := by
  obtain ⟨key, mid, hkey, h⟩ := Read.bind_eq_done h
  obtain ⟨val, left, hval, h⟩ := Read.bind_eq_done h
  cases h
  exact Nat.lt_trans (readString_shorter hval) (readString_shorter hkey)

theorem readContainer_shorter {element : List UInt8 → Read RdbKv}
    (helement : ∀ {bb kv rest}, element bb = .done kv rest → rest.length < bb.length)
    {kvs : List RdbKv} (h : readContainer element bb = .done kvs rest) : rest.length < bb.length := by
  obtain ⟨len, mid, hlen, h⟩ := Read.bind_eq_done h
  split at h
  · cases h
  · exact Nat.lt_of_le_of_lt (readElements_shorter helement h) (readLen_shorter hlen)

/-- A value takes a byte at least. -/
theorem readKvVal_shorter {type : UInt8} {f : RdbObject → RdbObject}
    (h : readKvVal type bb = .done f rest) : rest.length < bb.length := by
  rw [readKvVal] at h
  split at h
  · obtain ⟨s, mid, hs, h⟩ := Read.bind_eq_done h
    cases h
    exact readString_shorter hs
  · split at h
    · obtain ⟨kvs, mid, hkvs, h⟩ := Read.bind_eq_done h
      cases h
      exact readContainer_shorter readMember_shorter hkvs
    · split at h
      · obtain ⟨kvs, mid, hkvs, h⟩ := Read.bind_eq_done h
        cases h
        exact readContainer_shorter readPair_shorter hkvs
      · split at h
        · obtain ⟨kvs, mid, hkvs, h⟩ := Read.bind_eq_done h
          cases h
          obtain ⟨s, left, hs, h⟩ := Read.bind_eq_done hkvs
          split at h
          · cases h
          · cases h
            exact readString_shorter hs
        · cases h

end Shorter

def readType (bb : List UInt8) : Read UInt8 :=
  match bb with
  | [] => .more []
  | type :: rest => .done type rest

def readKv (type : UInt8) (bb : List UInt8) : Read (RdbObject → RdbObject) :=
  (readString bb).bind fun key bb => (readKvVal type bb).map fun f o => f { o with key }

/-- The key of an auxiliary record is read again and again: the record is never done. -/
def readAux (bb : List UInt8) : Read (RdbObject → RdbObject) :=
  match _h : readString bb with
  | .done _ rest => readAux rest
  | .more left => .more left
  | .fail rc left => .fail rc left
  | .stray => .stray
  | .endless => .endless
termination_by bb.length
decreasing_by exact readString_shorter _h

def readSelector (bb : List UInt8) : Read (RdbObject → RdbObject) :=
  (readLen bb).map fun len o => { o with dbSelector := len.2 }

def expireBytes (type : UInt8) : Nat := if type = rdbOpcodeExpiretimeMs then 8 else 4

def expireOf (type : UInt8) (time : List UInt8) : Int :=
  signed 32 ((if type = rdbOpcodeExpiretimeMs then beNat time / 1000 else beNat time) % 2 ^ 32)

def readExpire (type : UInt8) (bb : List UInt8) : Read (RdbObject → RdbObject) :=
  if bb.length < expireBytes type then .more bb
  else .done (fun o => { o with expire := expireOf type (bb.take (expireBytes type)) })
    (bb.drop (expireBytes type))

/-- What follows the type of a record. -/
def readDetail (type : UInt8) (bb : List UInt8) : Read (RdbObject → RdbObject) :=
  if type = rdbOpcodeAux then readAux bb
  else if type = rdbOpcodeSelectdb then readSelector bb
  else if type = rdbOpcodeExpiretime ∨ type = rdbOpcodeExpiretimeMs then readExpire type bb
  else if isKvType type then readKv type bb
  else .fail .invalidNbType bb

theorem readAux_eq (bb : List UInt8) : readAux bb = (readString bb).bind fun _ rest => readAux rest := by
  rw [readAux]
  split <;> next h => rw [h]; rfl

section Shorter

variable {bb rest : List UInt8}

theorem readType_shorter {type : UInt8} (h : readType bb = .done type rest) : rest.length < bb.length := by
  cases bb with
  | nil => cases h
  | cons type bb =>
    cases h
    exact Nat.lt_succ_self _

theorem not_readAux_done {f : RdbObject → RdbObject} : readAux bb ≠ .done f rest := by
  induction hn : bb.length using Nat.strong_induction_on generalizing bb with
  | _ n ih =>
    intro h
    rw [readAux_eq] at h
    obtain ⟨s, mid, hs, h⟩ := Read.bind_eq_done h
    exact ih mid.length (hn ▸ readString_shorter hs) rfl h

theorem readDetail_shorter {type : UInt8} {f : RdbObject → RdbObject}
    (h : readDetail type bb = .done f rest) : rest.length < bb.length := by
  rw [readDetail] at h
  split at h
  · exact absurd h not_readAux_done
  · split at h
    · obtain ⟨len, mid, hlen, h⟩ := Read.bind_eq_done h
      cases h
      exact readLen_shorter hlen
    · split at h
      · rw [readExpire] at h
        split at h
        · cases h
        · have hpos : 0 < expireBytes type := by
            rw [expireBytes]
            split <;> decide
          cases h
          rw [List.length_drop]
          omega
      · split at h
        · obtain ⟨key, mid, hkey, h⟩ := Read.bind_eq_done h
          obtain ⟨g, left, hval, h⟩ := Read.bind_eq_done h
          cases h
          exact Nat.lt_trans (readKvVal_shorter hval) (readString_shorter hkey)
        · cases h

end Shorter

/-- Where reading a file stops, and what the callback has been given by then. A record that the callback
refuses stays in the object. -/
inductive Stop
  | finished (walked : List RdbObject)
  | abort (walked : List RdbObject) (o : RdbObject)

def Stop.code : Stop → Rc
  | finished _ => .over
  | abort _ _ => .abort

/-- Where reading starts: anew, or behind the type of a record that the callback has refused. -/
inductive Origin
  | start (walked : List RdbObject)
  | refused (walked : List RdbObject) (o : RdbObject)

def Stop.origin : Stop → Origin
  | finished walked => .start walked
  | abort walked o => .refused walked o

/-- Record after record, from behind the type of the one that is in the object. -/
def readRecords (cb : List RdbObject → Bool) (walked : List RdbObject) (o : RdbObject)
    (bb : List UInt8) : Read Stop :=
  if o.type = rdbOpcodeEof then .done (.finished walked) bb
  else
    match _h : readDetail o.type bb with
    | .done f rest =>
      if cb (walked ++ [f o]) then
        match _h' : readType rest with
        | .done type rest => readRecords cb (walked ++ [f o]) { RdbObject.init with type } rest
        | .more left => .more left
        | .fail rc left => .fail rc left
        | .stray => .stray
        | .endless => .endless
      else .done (.abort (walked ++ [f o]) (f o)) rest
    | .more left => .more left
    | .fail rc left => .fail rc left
    | .stray => .stray
    | .endless => .endless
termination_by bb.length
decreasing_by exact Nat.lt_trans (readType_shorter _h') (readDetail_shorter _h)

def readRecord (cb : List RdbObject → Bool) (walked : List RdbObject) (bb : List UInt8) : Read Stop :=
  (readType bb).bind fun type rest => readRecords cb walked { RdbObject.init with type } rest

/-- A record that the callback takes is followed by the next one. -/
theorem readRecords_eq (cb : List RdbObject → Bool) (walked : List RdbObject) {o : RdbObject}
    (heof : o.type ≠ rdbOpcodeEof) (bb : List UInt8) :
    readRecords cb walked o bb = (readDetail o.type bb).bind fun f rest =>
      if cb (walked ++ [f o]) then readRecord cb (walked ++ [f o]) rest
      else .done (.abort (walked ++ [f o]) (f o)) rest := by
  rw [readRecords, if_neg heof]
  split
  · next f rest h =>
    rw [h]
    show _ = if cb (walked ++ [f o]) then _ else _
    by_cases hcb : cb (walked ++ [f o])
    · rw [if_pos hcb, if_pos hcb, readRecord]
      split <;> next h => rw [h]; rfl
    · rw [if_neg hcb, if_neg hcb]
  all_goals next h => rw [h]; rfl

def readHeader (bb : List UInt8) : Read Int :=
  if bb.length < 9 then .more bb
  else if bb.take 5 ≠ magicStr then .fail .invalidMagicString bb
  else .done (atoi ((bb.drop 5).take 4)) (bb.drop 9)

def readFile (cb : List RdbObject → Bool) (walked : List RdbObject) (bb : List UInt8) : Read Stop :=
  (readHeader bb).bind fun _ rest => readRecord cb walked rest

def Origin.readFile (cb : List RdbObject → Bool) : Origin → List UInt8 → Read Stop
  | start walked, bb => Rdb.readFile cb walked bb
  | refused walked o, bb => readRecords cb walked o bb

def readDumpedVal (cb : List RdbObject → Bool) (walked : List RdbObject) (o : RdbObject)
    (bb : List UInt8) : Read Stop :=
  (readKvVal o.type bb).map fun f =>
    if cb (walked ++ [f o]) then .finished (walked ++ [f o]) else .abort (walked ++ [f o]) (f o)

def readDumpedData (cb : List RdbObject → Bool) (walked : List RdbObject) (bb : List UInt8) :
    Read Stop :=
  (readType bb).bind fun type rest => readDumpedVal cb walked { RdbObject.init with type } rest

def Origin.readDumped (cb : List RdbObject → Bool) : Origin → List UInt8 → Read Stop
  | start walked, bb => readDumpedData cb walked bb
  | refused walked o, bb => readDumpedVal cb walked o bb

theorem readDumped_shorter {cb : List RdbObject → Bool} {g : Origin} {stop : Stop} {bb rest : List UInt8}
    (h : g.readDumped cb bb = .done stop rest) : rest.length < bb.length := by
  have hval : ∀ {walked o bb}, readDumpedVal cb walked o bb = .done stop rest → rest.length < bb.length := by
    intro walked o bb h
    obtain ⟨f, mid, hf, h⟩ := Read.bind_eq_done h
    cases h
    exact readKvVal_shorter hf
  cases g with
  | start walked =>
    obtain ⟨type, mid, htype, h⟩ := Read.bind_eq_done h
    exact Nat.lt_trans (hval h) (readType_shorter htype)
  | refused walked o => exact hval h

/-- Value after value, with no end to it: what follows one that is taken is read as another dump, and
what follows one that is refused as the same value again. -/
def readDumps (cb : List RdbObject → Bool) (g : Origin) (bb : List UInt8) : Read Empty :=
  match _h : g.readDumped cb bb with
  | .done stop rest => readDumps cb stop.origin rest
  | .more left => .more left
  | .fail rc left => .fail rc left
  | .stray => .stray
  | .endless => .endless
termination_by bb.length
decreasing_by exact readDumped_shorter _h

theorem readDumps_eq (cb : List RdbObject → Bool) (g : Origin) (bb : List UInt8) :
    readDumps cb g bb = (g.readDumped cb bb).bind fun stop rest => readDumps cb stop.origin rest := by
  rw [readDumps]
  split <;> next h => rw [h]; rfl

end KjRedis.Rdb
