import KjRedis.Rdb.Strings
import KjRedis.Rdb.ValueReader

/-! Values of the supported types that are decoded, and the objects that are handed out for them. -/
namespace KjRedis.Rdb

/-- A string that `build_string_value` decodes, with what it decodes of it (`string_runs`), which need
not be the string that is encoded. -/
structure RdbElement where
  string : RdbString
  text : List UInt8
  read : string.read = some text

namespace RdbElement

def encode (e : RdbElement) : List UInt8 := e.string.encode

def value (e : RdbElement) : NxStr := some (e.text.map some)

end RdbElement

theorem isRdbLength_one : IsRdbLength [1] 1 := .six (by decide)

/-- The string `a`. -/
def letter : RdbElement :=
  { string := .plain [1] [97] isRdbLength_one (by decide), text := [97], read := rfl }

/-- A value that its builder decodes, with the bytes of its length where it has one. -/
inductive RdbValue
  | string (e : RdbElement)
  | listOrSet (type : UInt8) (htype : type = rdbTypeList ∨ type = rdbTypeSet) (len : List UInt8)
      (es : List RdbElement) (hlen : IsRdbLength len es.length) (hne : es ≠ [])
  | hashOrZset (type : UInt8) (htype : type = rdbTypeZset ∨ type = rdbTypeHash) (len : List UInt8)
      (ps : List (RdbElement × RdbElement)) (hlen : IsRdbLength len ps.length) (hne : ps ≠ [])
  | compact (type : UInt8) (load : NxStr → Option (List RdbKv)) (htype : loaderOf type = some load)
      (blob : RdbElement) (kvs : List RdbKv) (hload : load blob.value = some kvs)

namespace RdbValue

def type : RdbValue → UInt8
  | string _ => rdbTypeString
  | listOrSet type _ _ _ _ _ => type
  | hashOrZset type _ _ _ _ _ => type
  | compact type _ _ _ _ _ => type

def encode : RdbValue → List UInt8
  | string e => e.encode
  | listOrSet _ _ len es _ _ => len ++ es.flatMap RdbElement.encode
  | hashOrZset _ _ len ps _ _ => len ++ ps.flatMap fun p => p.1.encode ++ p.2.encode
  | compact _ _ _ blob _ _ => blob.encode

/-- The object with the value in it. -/
def object (o : RdbObject) : RdbValue → RdbObject
  | string e => { o with val := e.value }
  | listOrSet _ _ _ es _ _ => { o.linked (es.map fun e => ⟨none, e.value⟩) with size := es.length }
  | hashOrZset _ _ _ ps _ _ =>
    { o.linked (ps.map fun p => ⟨p.1.value, p.2.value⟩) with size := ps.length }
  | compact _ _ _ _ kvs _ => { o.linked kvs with size := kvs.length }

theorem object_type (v : RdbValue) (o : RdbObject) : (v.object o).type = o.type := by
  cases v <;> rfl

end RdbValue

section Encoded

variable {rest : List UInt8}

theorem RdbElement.readString (e : RdbElement) (rest : List UInt8) :
    Rdb.readString (e.encode ++ rest) = .done e.value rest :=
  readString_encode e.read rest

/-- Element after element, in the order of the stream, up to one that nothing is made of. -/
theorem readElements_made {α : Type} {element : List UInt8 → Read RdbKv} {bytes : α → List UInt8}
    {kv : α → Option RdbKv}
    (helement : ∀ x rest, element (bytes x ++ rest) = (kv x).elim .stray fun kv => .done kv rest)
    (xs : List α) (kvs : List RdbKv) :
    readElements element xs.length kvs (xs.flatMap bytes ++ rest) =
      (xs.mapM kv).elim .stray fun more => .done (kvs ++ more) rest := by
  induction xs generalizing kvs with
  | nil =>
    show Read.done kvs rest = .done (kvs ++ []) rest
    rw [List.append_nil]
  | cons x xs ih =>
    rw [List.flatMap_cons, List.append_assoc, List.length_cons, readElements, helement, List.mapM_cons]
    cases kv x with
    | none => rfl
    | some first =>
      show readElements element xs.length (kvs ++ [first]) (xs.flatMap bytes ++ rest) = _
      rw [ih]
      cases xs.mapM kv <;> simp

/-- A container of at least one member. -/
theorem readContainer_made {α : Type} {element : List UInt8 → Read RdbKv} {bytes : α → List UInt8}
    {kv : α → Option RdbKv}
    (helement : ∀ x rest, element (bytes x ++ rest) = (kv x).elim .stray fun kv => .done kv rest)
    {xs : List α} (hne : xs ≠ []) {len : List UInt8} (hlen : IsRdbLength len xs.length) :
    readContainer element (len ++ xs.flatMap bytes ++ rest) =
      (xs.mapM kv).elim .stray fun kvs => .done kvs rest := by
  have hpos : xs.length ≠ 0 := fun hzero => hne (List.length_eq_zero_iff.1 hzero)
  rw [List.append_assoc, readContainer, readLen_length hlen]
  simp only [Read.bind, if_neg hpos]
  exact readElements_made helement xs []

theorem readContainer_encode {α : Type} {element : List UInt8 → Read RdbKv} {bytes : α → List UInt8}
    {kv : α → RdbKv} (helement : ∀ x rest, element (bytes x ++ rest) = .done (kv x) rest) {xs : List α}
    (hne : xs ≠ []) {len : List UInt8} (hlen : IsRdbLength len xs.length) :
    readContainer element (len ++ xs.flatMap bytes ++ rest) = .done (xs.map kv) rest := by
  rw [@readContainer_made rest _ _ _ (fun x => some (kv x)) helement xs hne len hlen]
  have hall : xs.mapM (fun x => some (kv x)) = some (xs.map kv) := List.mapM_pure
  rw [hall]
  rfl

theorem readMember_encode (e : RdbElement) (rest : List UInt8) :
    readMember (e.encode ++ rest) = .done ⟨none, e.value⟩ rest := by
  rw [readMember, e.readString]
  rfl

theorem readPair_encode (p : RdbElement × RdbElement) (rest : List UInt8) :
    readPair (p.1.encode ++ p.2.encode ++ rest) = .done ⟨p.1.value, p.2.value⟩ rest := by
  rw [List.append_assoc, readPair, p.1.readString]
  simp only [Read.bind, p.2.readString]
  rfl

/-- Every value is read to its end. -/
theorem readKvVal_encode (v : RdbValue) (rest : List UInt8) :
    readKvVal v.type (v.encode ++ rest) = .done (fun o => v.object o) rest := by
  cases v with
  | string e =>
    show (readString _).map _ = _
    rw [RdbValue.encode, e.readString]
    rfl
  | listOrSet type htype len es hlen hne =>
    have hread := @readContainer_encode rest _ readMember _ _ readMember_encode es hne len hlen
    have htypes : readKvVal type (len ++ es.flatMap RdbElement.encode ++ rest) =
        (readContainer readMember (len ++ es.flatMap RdbElement.encode ++ rest)).map RdbObject.filled := by
      rcases htype with rfl | rfl <;> rfl
    rw [RdbValue.encode, RdbValue.type, htypes, hread]
    refine congrArg (fun f => Read.done f rest) (funext fun o => ?_)
    simp only [RdbObject.filled, RdbValue.object, List.length_map]
  | hashOrZset type htype len ps hlen hne =>
    have hread := @readContainer_encode rest _ readPair _ _ readPair_encode ps hne len hlen
    have htypes : readKvVal type (len ++ (ps.flatMap fun p => p.1.encode ++ p.2.encode) ++ rest) =
        (readContainer readPair (len ++ (ps.flatMap fun p => p.1.encode ++ p.2.encode) ++ rest)).map
          RdbObject.filled := by
      rcases htype with rfl | rfl <;> rfl
    rw [RdbValue.encode, RdbValue.type, htypes, hread]
    refine congrArg (fun f => Read.done f rest) (funext fun o => ?_)
    simp only [RdbObject.filled, RdbValue.object, List.length_map]
  | compact type load htype blob kvs hload =>
    rw [RdbValue.type, RdbValue.encode, readKvVal_compact htype, readCompact, blob.readString]
    simp only [Read.bind, hload]
    rfl

end Encoded

end KjRedis.Rdb
