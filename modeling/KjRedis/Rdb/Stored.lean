import KjRedis.Rdb.Contents
import KjRedis.Rdb.Records

/-! Records as the format has them, with what they hold, and what is read of them. -/
namespace KjRedis.Rdb

open Reply

namespace RdbString

/-- The string that is encoded. -/
def value (e : RdbString) : NxStr := some (e.text.map some)

/-- What the builder makes of it. -/
def made (e : RdbString) : Option NxStr := e.read.map fun text => some (text.map some)

theorem readString_made (e : RdbString) (rest : List UInt8) :
    readString (e.encode ++ rest) = e.made.elim .stray fun s => .done s rest := by
  rw [made]
  cases hread : e.read with
  | none => exact readString_unread hread rest
  | some text => exact readString_encode hread rest

theorem made_eq_value_iff {e : RdbString} : e.made = some e.value ↔ e.Exact := by
  rw [← read_eq_text_iff, made, value, Option.map_eq_some_iff]
  constructor
  · rintro ⟨text, hread, htext⟩
    rw [hread, List.map_injective_iff.2 (Option.some_injective _) (Option.some.inj htext)]
  · exact fun hread => ⟨_, hread, rfl⟩

/-- Only an integer can be made another string. -/
theorem exact_of_made {e : RdbString} {s : NxStr} (hmade : e.made = some s)
    (hint : ∀ v, e.text ≠ decimalInt v) : s = e.value ∧ e.Exact := by
  obtain ⟨text, hread, rfl⟩ := Option.map_eq_some_iff.1 hmade
  have htext : e.read = some e.text := by
    cases e with
    | plain => rfl
    | int size v => exact absurd rfl (hint v)
    | lzf =>
      rw [read] at hread ⊢
      split at hread
      · cases hread
      · next hno => rw [if_neg hno, RdbString.text]
  rw [hread] at htext
  exact ⟨congrArg (fun text => some (text.map some)) (Option.some.inj htext),
    read_eq_text_iff.1 (hread.trans htext)⟩

end RdbString

/-- A value, with the bytes of its length where it has one. -/
inductive StoredValue
  | string (e : RdbString)
  | listOrSet (type : UInt8) (htype : type = rdbTypeList ∨ type = rdbTypeSet) (len : List UInt8)
      (es : List RdbString) (hlen : IsRdbLength len es.length) (hne : es ≠ [])
  | hashOrZset (type : UInt8) (htype : type = rdbTypeZset ∨ type = rdbTypeHash) (len : List UInt8)
      (ps : List (RdbString × RdbString)) (hlen : IsRdbLength len ps.length) (hne : ps ≠ [])
  | compact (c : CompactValue) (blob : RdbString) (hblob : blob.text = c.bytes)

namespace StoredValue

def type : StoredValue → UInt8
  | string _ => rdbTypeString
  | listOrSet type _ _ _ _ _ => type
  | hashOrZset type _ _ _ _ _ => type
  | compact c _ _ => c.type

def encode : StoredValue → List UInt8
  | string e => e.encode
  | listOrSet _ _ len es _ _ => len ++ es.flatMap RdbString.encode
  | hashOrZset _ _ len ps _ _ => len ++ ps.flatMap fun p => p.1.encode ++ p.2.encode
  | compact _ blob _ => blob.encode

/-- The object with the value in it. -/
def object (o : RdbObject) : StoredValue → RdbObject
  | string e => { o with val := e.value }
  | listOrSet _ _ _ es _ _ => o.filled (es.map fun e => ⟨none, e.value⟩)
  | hashOrZset _ _ _ ps _ _ => o.filled (ps.map fun p => ⟨p.1.value, p.2.value⟩)
  | compact c _ _ => o.filled c.kvs

def memberMade (e : RdbString) : Option RdbKv := e.made.map fun val => ⟨none, val⟩

def pairMade (p : RdbString × RdbString) : Option RdbKv :=
  p.1.made.bind fun key => p.2.made.map fun val => ⟨key, val⟩

/-- What its builder does to the object, if it makes anything of it. -/
def made : StoredValue → Option (RdbObject → RdbObject)
  | string e => e.made.map fun s o => { o with val := s }
  | listOrSet _ _ _ es _ _ => (es.mapM memberMade).map RdbObject.filled
  | hashOrZset _ _ _ ps _ _ => (ps.mapM pairMade).map RdbObject.filled
  | compact c blob _ => (blob.made.bind c.load).map RdbObject.filled

/-- The value is handed out as it is. -/
def Exact : StoredValue → Prop
  | string e => e.Exact
  | listOrSet _ _ _ es _ _ => ∀ e ∈ es, e.Exact
  | hashOrZset _ _ _ ps _ _ => ∀ p ∈ ps, p.1.Exact ∧ p.2.Exact
  | compact c blob _ => blob.Exact ∧ c.Exact

theorem isKvType (v : StoredValue) : isKvType v.type = true := by
  cases v with
  | string e => rfl
  | listOrSet type htype | hashOrZset type htype => rcases htype with rfl | rfl <;> rfl
  | compact c =>
    cases c with
    | ziplistPairs type htype => rcases htype with rfl | rfl <;> rfl
    | zipmap | ziplist | intset => rfl

/-- Members after one another are made if and only if each of them is. -/
theorem mapM_eq_some_map_iff {α β : Type} {make : α → Option β} {own : α → β} {xs : List α} :
    xs.mapM make = some (xs.map own) ↔ ∀ x ∈ xs, make x = some (own x) := by
  induction xs with
  | nil => exact iff_of_true rfl fun x hx => absurd hx List.not_mem_nil
  | cons x xs ih =>
    rw [List.forall_mem_cons, ← ih, List.mapM_cons, List.map_cons]
    cases make x with
    | none => exact iff_of_false (Option.some_ne_none _).symm fun h => Option.some_ne_none _ h.1.symm
    | some first =>
      cases xs.mapM make with
      | none => exact iff_of_false (Option.some_ne_none _).symm fun h => Option.some_ne_none _ h.2.symm
      | some more => simp

theorem memberMade_eq_iff {e : RdbString} : memberMade e = some ⟨none, e.value⟩ ↔ e.Exact := by
  rw [← RdbString.made_eq_value_iff, memberMade]
  cases e.made <;> simp

theorem pairMade_eq_iff {p : RdbString × RdbString} :
    pairMade p = some ⟨p.1.value, p.2.value⟩ ↔ p.1.Exact ∧ p.2.Exact := by
  rw [← RdbString.made_eq_value_iff, ← RdbString.made_eq_value_iff, pairMade]
  cases p.1.made <;> cases p.2.made <;> simp

theorem filled_eq_iff {o : RdbObject} {made : Option (List RdbKv)} {kvs : List RdbKv} :
    (∃ f, made.map RdbObject.filled = some f ∧ f o = o.filled kvs) ↔ made = some kvs := by
  constructor
  · rintro ⟨f, hf, heq⟩
    obtain ⟨kvs', rfl, rfl⟩ := Option.map_eq_some_iff.1 hf
    exact congrArg some (List.append_cancel_left (congrArg RdbObject.vall heq))
  · rintro rfl
    exact ⟨_, rfl, rfl⟩

theorem object_key (v : StoredValue) (o : RdbObject) : (v.object o).key = o.key := by
  cases v <;> rfl

theorem made_key {v : StoredValue} {f : RdbObject → RdbObject} (hf : v.made = some f) (o : RdbObject) :
    (f o).key = o.key := by
  cases v with
  | string | listOrSet | hashOrZset | compact =>
    obtain ⟨_, -, rfl⟩ := Option.map_eq_some_iff.1 hf
    rfl

/-- What the builder makes of a value is the value if and only if all its parts are exact. -/
theorem made_iff {v : StoredValue} {o : RdbObject} :
    (∃ f, v.made = some f ∧ f o = v.object o) ↔ v.Exact := by
  cases v with
  | string e =>
    rw [made, object, Exact, ← RdbString.made_eq_value_iff]
    constructor
    · rintro ⟨f, hf, heq⟩
      obtain ⟨s, hs, rfl⟩ := Option.map_eq_some_iff.1 hf
      rw [hs]
      exact congrArg some (congrArg RdbObject.val heq)
    · intro hmade
      exact ⟨_, by rw [hmade]; rfl, rfl⟩
  | listOrSet type htype len es hlen hne =>
    rw [made, object, Exact, filled_eq_iff, mapM_eq_some_map_iff]
    exact forall₂_congr fun _ _ => memberMade_eq_iff
  | hashOrZset type htype len ps hlen hne =>
    rw [made, object, Exact, filled_eq_iff, mapM_eq_some_map_iff]
    exact forall₂_congr fun _ _ => pairMade_eq_iff
  | compact c blob hblob =>
    rw [made, object, Exact, filled_eq_iff, Option.bind_eq_some_iff, ← CompactValue.load_bytes_iff]
    have hvalue : blob.value = some (c.bytes.map some) := by rw [RdbString.value, hblob]
    constructor
    · rintro ⟨s, hmade, hload⟩
      -- Nothing else can stand for the value: a compact value is no decimal.
      obtain ⟨rfl, hexact⟩ := RdbString.exact_of_made hmade fun v => hblob ▸ c.bytes_ne_decimal v
      exact ⟨hexact, hvalue ▸ hload⟩
    · rintro ⟨hexact, hload⟩
      exact ⟨_, RdbString.made_eq_value_iff.2 hexact, hvalue ▸ hload⟩

theorem readMember_made (e : RdbString) (rest : List UInt8) :
    readMember (e.encode ++ rest) = (memberMade e).elim .stray fun kv => .done kv rest := by
  rw [readMember, e.readString_made, memberMade]
  cases e.made <;> rfl

theorem readPair_made (p : RdbString × RdbString) (rest : List UInt8) :
    readPair (p.1.encode ++ p.2.encode ++ rest) = (pairMade p).elim .stray fun kv => .done kv rest := by
  rw [List.append_assoc, readPair, p.1.readString_made, pairMade]
  cases p.1.made with
  | none => rfl
  | some key =>
    show (readString (p.2.encode ++ rest)).map _ = _
    rw [p.2.readString_made]
    cases p.2.made <;> rfl

/-- A value is read to its end unless nothing is made of it. -/
theorem readKvVal_made (v : StoredValue) (rest : List UInt8) :
    readKvVal v.type (v.encode ++ rest) = v.made.elim .stray fun f => .done f rest := by
  cases v with
  | string e =>
    show (readString (e.encode ++ rest)).map _ = _
    rw [e.readString_made, made]
    cases e.made <;> rfl
  | listOrSet type htype len es hlen hne =>
    have htypes : readKvVal type (len ++ es.flatMap RdbString.encode ++ rest) =
        (readContainer readMember (len ++ es.flatMap RdbString.encode ++ rest)).map RdbObject.filled := by
      rcases htype with rfl | rfl <;> rfl
    rw [encode, StoredValue.type, htypes, readContainer_made readMember_made hne hlen, made]
    cases es.mapM memberMade <;> rfl
  | hashOrZset type htype len ps hlen hne =>
    have htypes : readKvVal type (len ++ (ps.flatMap fun p => p.1.encode ++ p.2.encode) ++ rest) =
        (readContainer readPair (len ++ (ps.flatMap fun p => p.1.encode ++ p.2.encode) ++ rest)).map
          RdbObject.filled := by
      rcases htype with rfl | rfl <;> rfl
    rw [encode, StoredValue.type, htypes, readContainer_made readPair_made hne hlen, made]
    cases ps.mapM pairMade <;> rfl
  | compact c blob hblob =>
    rw [StoredValue.type, encode, readKvVal_compact c.loaderOf_type, readCompact, blob.readString_made, made]
    cases blob.made with
    | none => rfl
    | some s =>
      simp only [Option.elim_some, Read.bind, Option.bind_some]
      cases c.load s <;> rfl

end StoredValue

/-- A record of a file. -/
inductive StoredRecord
  | aux (key val : RdbString)
  | selectDb (len : List UInt8) (n : Nat) (hlen : IsRdbLength len n)
  | expire (time : List UInt8) (h : time.length = 4)
  | expireMs (time : List UInt8) (h : time.length = 8)
  | kv (key : RdbString) (v : StoredValue)

namespace StoredRecord

def type : StoredRecord → UInt8
  | aux _ _ => rdbOpcodeAux
  | selectDb _ _ _ => rdbOpcodeSelectdb
  | expire _ _ => rdbOpcodeExpiretime
  | expireMs _ _ => rdbOpcodeExpiretimeMs
  | kv _ v => v.type

def detail : StoredRecord → List UInt8
  | aux key val => key.encode ++ val.encode
  | selectDb len _ _ => len
  | expire time _ => time
  | expireMs time _ => time
  | kv key v => key.encode ++ v.encode

def encode (r : StoredRecord) : List UInt8 := r.type :: r.detail

def IsAux : StoredRecord → Prop
  | aux _ _ => True
  | _ => False

/-- The object that a record is read into. -/
def empty (r : StoredRecord) : RdbObject := { RdbObject.init with type := r.type }

/-- The object holds what the record does, and nothing else; which number stands for a time is left
open. -/
def Holds (r : StoredRecord) (o : RdbObject) : Prop :=
  match r with
  | aux key val => o = { r.empty with auxKey := key.value, auxVal := val.value }
  | selectDb _ n _ => o = { r.empty with dbSelector := n }
  | expire _ _ => ∃ t, o = { r.empty with expire := t }
  | expireMs _ _ => ∃ t, o = { r.empty with expire := t }
  | kv key v => o = v.object { r.empty with key := key.value }

/-- The record is handed out as it is. -/
def Exact : StoredRecord → Prop
  | kv key v => key.Exact ∧ v.Exact
  | _ => True

theorem type_ne_eof (r : StoredRecord) : r.type ≠ rdbOpcodeEof := by
  cases r with
  | aux key val =>
    show rdbOpcodeAux ≠ rdbOpcodeEof
    decide
  | selectDb len n hlen =>
    show rdbOpcodeSelectdb ≠ rdbOpcodeEof
    decide
  | expire time h =>
    show rdbOpcodeExpiretime ≠ rdbOpcodeEof
    decide
  | expireMs time h =>
    show rdbOpcodeExpiretimeMs ≠ rdbOpcodeEof
    decide
  | kv key v =>
    intro heof
    have hkv := v.isKvType
    rw [show v.type = rdbOpcodeEof from heof] at hkv
    cases hkv

/-- What reading the record does to its object, if it is ever done. -/
def made : StoredRecord → Option (RdbObject → RdbObject)
  | aux _ _ => none
  | selectDb _ n _ => some fun o => { o with dbSelector := n }
  | expire time _ => some fun o => { o with expire := expireOf rdbOpcodeExpiretime time }
  | expireMs time _ => some fun o => { o with expire := expireOf rdbOpcodeExpiretimeMs time }
  | kv key v => key.made.bind fun s => v.made.map fun f o => f { o with key := s }

theorem readDetail_made {r : StoredRecord} (hplain : ¬ r.IsAux) (rest : List UInt8) :
    readDetail r.type (r.detail ++ rest) = r.made.elim .stray fun f => .done f rest := by
  cases r with
  | aux key val => exact absurd trivial hplain
  | selectDb len n hlen => exact readDetail_selectDb hlen rest
  | expire time h => exact readDetail_time (Or.inl rfl) h rest
  | expireMs time h => exact readDetail_time (Or.inr rfl) h rest
  | kv key v =>
    show readDetail v.type (key.encode ++ v.encode ++ rest) = _
    rw [readDetail_kv v.isKvType, readKv, List.append_assoc, key.readString_made, made]
    cases key.made with
    | none => rfl
    | some s =>
      show (readKvVal v.type (v.encode ++ rest)).map _ = _
      rw [v.readKvVal_made]
      cases v.made <;> rfl

/-- What is made of a record is the record if and only if it is no auxiliary one and exact. -/
theorem made_iff {r : StoredRecord} :
    (∃ f, r.made = some f ∧ r.Holds (f r.empty)) ↔ ¬ r.IsAux ∧ r.Exact := by
  cases r with
  | aux key val => exact iff_of_false (fun ⟨_, hf, _⟩ => Option.some_ne_none _ hf.symm) fun h => h.1 trivial
  | selectDb len n hlen => exact iff_of_true ⟨_, rfl, rfl⟩ ⟨not_false, trivial⟩
  | expire time h | expireMs time h => exact iff_of_true ⟨_, rfl, _, rfl⟩ ⟨not_false, trivial⟩
  | kv key v =>
    have hexact : ¬ (kv key v).IsAux ∧ (kv key v).Exact ↔ key.made = some key.value ∧ v.Exact :=
      (and_iff_right not_false).trans (and_congr_left' RdbString.made_eq_value_iff.symm)
    rw [hexact]
    constructor
    · rintro ⟨f, hf, hholds⟩
      obtain ⟨s, hs, hf⟩ := Option.bind_eq_some_iff.1 hf
      obtain ⟨g, hg, rfl⟩ := Option.map_eq_some_iff.1 hf
      have hkey : s = key.value := by
        have hkeys := congrArg RdbObject.key hholds
        rwa [v.object_key, StoredValue.made_key hg] at hkeys
      rw [hkey] at hs hholds
      exact ⟨hs, StoredValue.made_iff.1 ⟨g, hg, hholds⟩⟩
    · rintro ⟨hs, hexact⟩
      obtain ⟨g, hg, hobject⟩ :=
        (@StoredValue.made_iff v { (kv key v).empty with key := key.value }).2 hexact
      refine ⟨fun o => g { o with key := key.value }, ?_, hobject⟩
      rw [made, hs, hg]
      rfl

end StoredRecord

end KjRedis.Rdb
