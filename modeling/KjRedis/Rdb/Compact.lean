import KjRedis.Rdb.Object

/-! The strings the parser takes apart itself: LZF strings, and the containers that are
stored as one string. -/
namespace KjRedis.Rdb

/-- `len` bytes from `ref` on, which may be bytes just written. -/
def lzfCopy : Nat → Nat → List UInt8 → Option (List UInt8)
  | 0, _, out => some out
  | len + 1, ref, out =>
    match out[ref]? with
    | none => none
    | some b => lzfCopy len (ref + 1) (out ++ [b])

/-- The loop of `lzf_decompress`; an error is `none`. -/
def lzfLoop (outLen : Nat) : Nat → List UInt8 → List UInt8 → Option (List UInt8)
  | 0, _, _ => none
  | _ + 1, [], _ => none
  | fuel + 1, ctrl :: ip, out =>
    let next (ip out : List UInt8) := if ip = [] then some out else lzfLoop outLen fuel ip out
    if ctrl < 32 then
      let ctrl := ctrl.toNat + 1
      if outLen < out.length + ctrl then none
      else if ip.length < ctrl then none
      else next (ip.drop ctrl) (out ++ ip.take ctrl)
    else
      let backref (len : Nat) (ip : List UInt8) :=
        match ip with
        | [] => none
        | b :: ip =>
          let back := (ctrl &&& 0x1f).toNat * 256 + 1 + b.toNat
          if outLen < out.length + len + 2 then none
          else if out.length < back then none
          else (lzfCopy (len + 2) (out.length - back) out).bind (next ip)
      match (ctrl >>> 5).toNat, ip with
      | _, [] => none
      | 7, b :: ip => backref (7 + b.toNat) ip
      | len, ip => backref len ip

/-- `lzf_decompress`: what it writes, or `none` where it returns 0. -/
def lzfDecompress (inData : List UInt8) (outLen : Nat) : Option (List UInt8) :=
  lzfLoop outLen (inData.length + 1) inData []

/-- The decompressor writes: its first token is a literal run that is wholly there. A first token
that is a back reference goes before the output and is refused. -/
def lzfWrites : List UInt8 → Bool
  | [] => false
  | ctrl :: ip => ctrl < 32 ∧ ctrl.toNat + 1 ≤ ip.length

abbrev Memory := List (Option UInt8)

/-- A string the parser has built ends with a zero byte. -/
def NxStr.memory (s : NxStr) : Memory := s.getD [] ++ [some 0]

/-- Why a loader stops: it reads outside the memory it is given, or it cannot go on after a byte
that was never written or an assertion that fails (asserts are active). -/
inductive Fault
  | outside | failed
  deriving DecidableEq, Repr

abbrev Loaded (α : Type) := Except Fault α

def byteAt (mem : Memory) (p : Nat) : Loaded UInt8 :=
  match mem[p]? with
  | none => .error .outside
  | some none => .error .failed
  | some (some b) => .ok b

def bytesAt (mem : Memory) (p : Nat) : Nat → Loaded (List UInt8)
  | 0 => .ok []
  | n + 1 => do return (← byteAt mem p) :: (← bytesAt mem (p + 1) n)

/-- `nx_memcpy` of a string. -/
def copyAt (mem : Memory) (p n : Nat) : Loaded Memory :=
  if p + n ≤ mem.length then .ok ((mem.drop p).take n) else .error .outside

/-- `"%lld"`; of the least integer the text is not known, and the loader goes on. -/
def printed64 (v : Int) : NxStr := (printed 64 v).map (·.map some)

/-- The chain a loader has built, if the texts in it are known. -/
def chainOf (known : RdbKv → Bool) (loaded : Loaded (List RdbKv)) : Option (List RdbKv) :=
  loaded.toOption.filter fun kvs => kvs.all known

def valKnown (kv : RdbKv) : Bool := kv.val.isSome

def bothKnown (kv : RdbKv) : Bool := kv.key.isSome && kv.val.isSome

/-- `zipIntSize`; the loader asserts that the encoding is one of these. -/
def zipIntSize (encoding : UInt8) : Option Nat :=
  if encoding = 0xfe then some 1
  else if encoding = 0xc0 then some 2
  else if encoding = 0xf0 then some 3
  else if encoding = 0xd0 then some 4
  else if encoding = 0xe0 then some 8
  else if 0xf1 ≤ encoding ∧ encoding ≤ 0xfd then some 0
  else none

/-- `zipLoadInteger` on the bytes of the entry. -/
def zipLoadInteger (encoding : UInt8) (bytes : List UInt8) : Int :=
  if bytes = [] then (encoding &&& 0x0f).toNat - 1 else signed (8 * bytes.length) (leNat bytes)

/-- `ZIP_DECODE_LENGTH`: `lensize` and `len` of the entry with this encoding at `q`. -/
def zipDecodeLength (mem : Memory) (q : Nat) (encoding : UInt8) : Loaded (Nat × Nat) :=
  if encoding < 0x40 then .ok (1, (encoding &&& 0x3f).toNat)
  else if encoding < 0x80 then
    (byteAt mem (q + 1)).map fun b => (2, (encoding &&& 0x3f).toNat * 256 + b.toNat)
  else if encoding < 0xc0 then (bytesAt mem (q + 1) 4).map fun bytes => (5, beNat bytes)
  else
    match zipIntSize encoding with
    | none => .error .failed
    | some len => .ok (1, len)

/-- `ziplistGet`: the entry's text and the bytes it takes. -/
def ziplistGet (mem : Memory) (p : Nat) : Loaded (NxStr × Nat) := do
  let prevlensize := if (← byteAt mem p) < 254 then 1 else 5
  let q := p + prevlensize
  let encoding ← byteAt mem q
  let (lensize, len) ← zipDecodeLength mem q encoding
  let text ←
    if encoding < 0xc0 then (copyAt mem (q + lensize) len).map some
    else (bytesAt mem (q + lensize) len).map fun bytes => printed64 (zipLoadInteger encoding bytes)
  return (text, prevlensize + lensize + len)

def ziplistHeaderSize : Nat := 10
def zipEnd : UInt8 := 255

/-- The loop of `load_ziplist_list_or_set`, on as much fuel as there are bytes. -/
def ziplistList (mem : Memory) : Nat → Nat → Loaded (List RdbKv)
  | 0, _ => .error .failed
  | fuel + 1, p => do
    if (← byteAt mem p) = zipEnd then return []
    let (sstr, n) ← ziplistGet mem p
    return ⟨none, sstr⟩ :: (← ziplistList mem fuel (p + n))

/-- The loop of `load_ziplist_hash_or_zset`. -/
def ziplistHash (mem : Memory) : Nat → Nat → Loaded (List RdbKv)
  | 0, _ => .error .failed
  | fuel + 1, p => do
    if (← byteAt mem p) = zipEnd then return []
    let (skey, n) ← ziplistGet mem p
    let (sval, m) ← ziplistGet mem (p + n)
    return ⟨skey, sval⟩ :: (← ziplistHash mem fuel (p + n + m))

def ziplistListOrSet (mem : Memory) : Loaded (List RdbKv) :=
  ziplistList mem (mem.length + 1) ziplistHeaderSize

def ziplistHashOrZset (mem : Memory) : Loaded (List RdbKv) :=
  ziplistHash mem (mem.length + 1) ziplistHeaderSize

def loadZiplistListOrSet (zl : NxStr) : Option (List RdbKv) :=
  chainOf valKnown (ziplistListOrSet zl.memory)

def loadZiplistHashOrZset (zl : NxStr) : Option (List RdbKv) :=
  chainOf bothKnown (ziplistHashOrZset zl.memory)

/-- `__zipmap_entry_len_size` and `__zipmap_entry_strlen`. -/
def zipmapEntry (mem : Memory) (p : Nat) : Loaded (Nat × Nat) := do
  let c ← byteAt mem p
  if c < 0xfd then return (1, c.toNat)
  else if c = 0xfd then return (5, leNat (← bytesAt mem (p + 1) 4))
  else return (0, 0)

/-- `nx_memcpy` of a string whose length is an `int`, to a buffer of a byte more. -/
def copyInt (mem : Memory) (p n : Nat) : Loaded Memory :=
  if 2 ^ 31 ≤ n then .error .outside
  else if n + 1 = 2 ^ 31 then .error .failed
  else copyAt mem p n

/-- The loop of `load_zipmap`: of a value it skips the count of its free bytes, not these. -/
def zipmapLoop (mem : Memory) : Nat → Nat → Loaded (List RdbKv)
  | 0, _ => .error .failed
  | fuel + 1, zm => do
    if (← byteAt mem zm) = 0xff then return []
    let (ksize, klen) ← zipmapEntry mem zm
    let key ← copyInt mem (zm + ksize) klen
    let zm := zm + ksize + klen
    let (vsize, vlen) ← zipmapEntry mem zm
    let val ← copyInt mem (zm + vsize + 1) vlen
    return ⟨some key, some val⟩ :: (← zipmapLoop mem fuel (zm + vsize + vlen + 1))

def zipmapPairs (mem : Memory) : Loaded (List RdbKv) := zipmapLoop mem (mem.length + 1) 1

def loadZipmap (zm : NxStr) : Option (List RdbKv) := (zipmapPairs zm.memory).toOption

/-- The loop of `build_intset_value` over `intset_get`. -/
def intsetLoop (mem : Memory) (size : Nat) : Nat → Nat → Loaded (List RdbKv)
  | 0, _ => .ok []
  | n + 1, p => do
    let v := signed (8 * size) (leNat (← bytesAt mem p size))
    return ⟨none, printed64 v⟩ :: (← intsetLoop mem size n (p + size))

def intsetElements (mem : Memory) : Loaded (List RdbKv) := do
  let length := leNat (← bytesAt mem 4 4)
  if length = 0 then return []
  let encoding := leNat (← bytesAt mem 0 4)
  let size := if encoding = 8 then 8 else if encoding = 4 then 4 else 2
  intsetLoop mem size length 8

def loadIntset (is : NxStr) : Option (List RdbKv) := chainOf valKnown (intsetElements is.memory)

end KjRedis.Rdb
