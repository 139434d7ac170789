import KjRedis.Rdb.Layout

/-! Ziplists: the layout that `ziplist.c` documents, and what the loaders make of it. -/
namespace KjRedis.Rdb

open Reply

variable {mem : Memory} {p fuel : Nat}

/-- The integers that have bytes of their own. -/
inductive ZlInt
  | int8 | int16 | int24 | int32 | int64
  deriving DecidableEq

def ZlInt.bytes : ZlInt → Nat
  | int8 => 1
  | int16 => 2
  | int24 => 3
  | int32 => 4
  | int64 => 8

def ZlInt.code : ZlInt → UInt8
  | int8 => 0xfe
  | int16 => 0xc0
  | int24 => 0xf0
  | int32 => 0xd0
  | int64 => 0xe0

/-- What an entry holds, in one of the forms the format has for it. -/
inductive ZlValue
  | str06 (s : List UInt8) (h : s.length < 2 ^ 6)
  | str14 (s : List UInt8) (h : s.length < 2 ^ 14)
  | str32 (unused : Nat) (s : List UInt8) (hunused : unused < 2 ^ 6) (h : s.length < 2 ^ 32)
  | imm (v : Nat) (h : v < 13)
  | int (size : ZlInt) (v : Int) (h : IsSigned (8 * size.bytes) v)

namespace ZlValue

def head : ZlValue → List UInt8
  | str06 s _ => [UInt8.ofNat s.length]
  | str14 s _ => [UInt8.ofNat (64 + s.length / 256), UInt8.ofNat s.length]
  | str32 unused s _ _ => UInt8.ofNat (128 + unused) :: beBytes 4 s.length
  | imm v _ => [UInt8.ofNat (0xf1 + v)]
  | int size _ _ => [size.code]

def data : ZlValue → List UInt8
  | str06 s _ => s
  | str14 s _ => s
  | str32 _ s _ _ => s
  | imm _ _ => []
  | int size v _ => leBytes size.bytes (unsigned (8 * size.bytes) v)

def text : ZlValue → List UInt8
  | str06 s _ => s
  | str14 s _ => s
  | str32 _ s _ _ => s
  | imm v _ => decimal v
  | int _ v _ => decimalInt v

/-- The integer is printed as its decimal. -/
def Prints : ZlValue → Prop
  | imm v _ => printed 64 v = some (decimal v)
  | int _ v _ => printed 64 v = some (decimalInt v)
  | _ => True

end ZlValue

/-- The bytes after the first of a `prevlen`. -/
def prevlenRest (first : UInt8) : Nat := if first < 254 then 0 else 4

/-- An entry, whose `prevlen` may be any. -/
structure ZlEntry where
  first : UInt8
  rest : List UInt8
  value : ZlValue
  begins : first ≠ zipEnd
  prevlen : rest.length = prevlenRest first

def ZlEntry.encode (e : ZlEntry) : List UInt8 := e.first :: e.rest ++ (e.value.head ++ e.value.data)

def ziplistEntries (entries : List ZlEntry) : List UInt8 := entries.flatMap ZlEntry.encode ++ [zipEnd]

theorem zipIntSize_code (size : ZlInt) : zipIntSize size.code = some size.bytes := by
  cases size <;> rfl

theorem zipIntSize_imm {v : Nat} (hv : v < 13) : zipIntSize (UInt8.ofNat (0xf1 + v)) = some 0 := by
  interval_cases v <;> rfl

/-- The length in the head of a value is that of its data. -/
theorem zipDecodeLength_head {q : Nat} {e : UInt8} {v : ZlValue} (hhead : Lies mem q v.head)
    (he : v.head.head? = some e) :
    zipDecodeLength mem q e = .ok (v.head.length, v.data.length) := by
  cases v with
  | str06 s h =>
    cases he
    have hs : (UInt8.ofNat s.length).toNat = s.length := by
      rw [UInt8.toNat_ofNat']
      omega
    rw [zipDecodeLength, if_pos (by rw [UInt8.lt_iff_toNat_lt, hs]; exact h), low_toNat, hs]
    show Except.ok (1, s.length % 2 ^ 6) = _
    rw [Nat.mod_eq_of_lt h]
    rfl
  | str14 s h =>
    cases he
    have hs : (UInt8.ofNat (64 + s.length / 256)).toNat = 64 + s.length / 256 := by
      rw [UInt8.toNat_ofNat']
      omega
    rw [zipDecodeLength, if_neg (by rw [UInt8.lt_iff_toNat_lt, hs]; show ¬ _ < 64; omega),
      if_pos (by rw [UInt8.lt_iff_toNat_lt, hs]; show _ < 128; omega),
      byteAt_eq_ok.2 (lies_cons.1 hhead).2, low_toNat, hs]
    show Except.ok (2, _) = Except.ok (2, s.length)
    rw [UInt8.toNat_ofNat']
    congr 2
    omega
  | str32 unused s hunused h =>
    cases he
    have hs : (UInt8.ofNat (128 + unused)).toNat = 128 + unused := by
      rw [UInt8.toNat_ofNat']
      omega
    rw [zipDecodeLength, if_neg (by rw [UInt8.lt_iff_toNat_lt, hs]; show ¬ _ < 64; omega),
      if_neg (by rw [UInt8.lt_iff_toNat_lt, hs]; show ¬ _ < 128; omega),
      if_pos (by rw [UInt8.lt_iff_toNat_lt, hs]; show _ < 192; omega),
      bytesAt_eq_ok.2 ⟨beBytes_length 4 _, (lies_cons.1 hhead).2⟩]
    show Except.ok (5, beNat (beBytes 4 s.length)) = Except.ok (5, s.length)
    rw [beNat_beBytes h]
  | imm v h =>
    cases he
    have hs : (UInt8.ofNat (0xf1 + v)).toNat = 0xf1 + v := by
      rw [UInt8.toNat_ofNat']
      omega
    rw [zipDecodeLength, if_neg (by rw [UInt8.lt_iff_toNat_lt, hs]; show ¬ _ < 64; omega),
      if_neg (by rw [UInt8.lt_iff_toNat_lt, hs]; show ¬ _ < 128; omega),
      if_neg (by rw [UInt8.lt_iff_toNat_lt, hs]; show ¬ _ < 192; omega), zipIntSize_imm h]
    rfl
  | int size v h =>
    cases he
    rw [zipDecodeLength, if_neg (by cases size <;> decide), if_neg (by cases size <;> decide),
      if_neg (by cases size <;> decide), zipIntSize_code]
    show Except.ok (1, size.bytes) = Except.ok (1, (leBytes _ _).length)
    rw [leBytes_length]

theorem zipLoadInteger_data {size : ZlInt} {v : Int} (h : IsSigned (8 * size.bytes) v) :
    zipLoadInteger size.code (leBytes size.bytes (unsigned (8 * size.bytes) v)) = v := by
  have hne : leBytes size.bytes (unsigned (8 * size.bytes) v) ≠ [] := by
    intro hnil
    have hlen := leBytes_length size.bytes (unsigned (8 * size.bytes) v)
    rw [hnil] at hlen
    cases size <;> cases hlen
  have hlt : unsigned (8 * size.bytes) v < 256 ^ size.bytes := by
    have := unsigned_lt (8 * size.bytes) v
    rwa [Nat.pow_mul] at this
  rw [zipLoadInteger, if_neg hne, leBytes_length, leNat_leBytes hlt, signed_unsigned _ h]
  cases size <;> decide

/-- What is made of a value: an integer is printed. -/
def ZlValue.loaded : ZlValue → NxStr
  | imm v _ => printed64 v
  | int _ v _ => printed64 v
  | v => some (v.text.map some)

theorem ZlValue.loaded_prints {v : ZlValue} (h : v.Prints) : v.loaded = some (v.text.map some) := by
  cases v with
  | imm v hv => rw [loaded, printed64, show printed 64 (v : Int) = some (decimal v) from h]; rfl
  | int size v hv => rw [loaded, printed64, show printed 64 v = some (decimalInt v) from h]; rfl
  | _ => rfl

/-- The text of a value after its head. -/
theorem valueText {q : Nat} {e : UInt8} {v : ZlValue} (hq : q ≤ mem.length)
    (hdata : Lies mem q v.data) (he : v.head.head? = some e) :
    (if e < 0xc0 then (copyAt mem q v.data.length).map some
      else (bytesAt mem q v.data.length).map fun bytes => printed64 (zipLoadInteger e bytes)) =
      .ok v.loaded := by
  cases v with
  | str06 s h =>
    cases he
    have hs : (UInt8.ofNat s.length).toNat = s.length := by
      rw [UInt8.toNat_ofNat']
      omega
    rw [if_pos (by rw [UInt8.lt_iff_toNat_lt, hs]; show _ < 192; omega)]
    exact congrArg (Except.map some) (copyAt_lies hq hdata)
  | str14 s h =>
    cases he
    have hs : (UInt8.ofNat (64 + s.length / 256)).toNat = 64 + s.length / 256 := by
      rw [UInt8.toNat_ofNat']
      omega
    rw [if_pos (by rw [UInt8.lt_iff_toNat_lt, hs]; show _ < 192; omega)]
    exact congrArg (Except.map some) (copyAt_lies hq hdata)
  | str32 unused s hunused h =>
    cases he
    have hs : (UInt8.ofNat (128 + unused)).toNat = 128 + unused := by
      rw [UInt8.toNat_ofNat']
      omega
    rw [if_pos (by rw [UInt8.lt_iff_toNat_lt, hs]; show _ < 192; omega)]
    exact congrArg (Except.map some) (copyAt_lies hq hdata)
  | imm v h =>
    cases he
    have hs : (UInt8.ofNat (0xf1 + v)).toNat = 0xf1 + v := by
      rw [UInt8.toNat_ofNat']
      omega
    have hv : zipLoadInteger (UInt8.ofNat (0xf1 + v)) [] = v := by
      rw [zipLoadInteger, if_pos rfl, nibble_toNat, hs]
      omega
    rw [if_neg (by rw [UInt8.lt_iff_toNat_lt, hs]; show ¬ _ < 192; omega)]
    show Except.ok (printed64 (zipLoadInteger _ [])) = _
    rw [hv]
    rfl
  | int size v h =>
    cases he
    rw [if_neg (by cases size <;> decide), bytesAt_eq_ok.2 ⟨rfl, hdata⟩]
    show Except.ok (printed64 (zipLoadInteger size.code (leBytes _ _))) = _
    rw [zipLoadInteger_data h]
    rfl

theorem ZlValue.head_ne_nil (v : ZlValue) : ∃ e, v.head.head? = some e := by
  cases v <;> exact ⟨_, rfl⟩

/-- A value after any bytes that are taken for a `prevlen`. -/
theorem ziplistGet_loaded {first : UInt8} {rest : List UInt8} {v : ZlValue}
    (hrest : rest.length = prevlenRest first)
    (h : Lies mem p (first :: rest ++ (v.head ++ v.data))) :
    ziplistGet mem p = .ok (v.loaded, (first :: rest ++ (v.head ++ v.data)).length) := by
  obtain ⟨hprev, hvalue⟩ := lies_append.1 h
  have hsize : (first :: rest).length = if first < 254 then 1 else 5 := by
    rw [List.length_cons, hrest, prevlenRest]
    split <;> rfl
  rw [hsize] at hvalue
  obtain ⟨hhead, hdata⟩ := lies_append.1 hvalue
  obtain ⟨e, he⟩ := v.head_ne_nil
  have hbyte : Lies mem (p + if first < 254 then 1 else 5) [e] := by
    obtain ⟨tail, htail⟩ : ∃ tail, v.head = e :: tail := ⟨_, (List.cons_head?_tail he).symm⟩
    rw [htail] at hhead
    exact (lies_cons.1 hhead).1
  have hend := hhead.length_le (Nat.le_of_lt hbyte.lt)
  rw [ziplistGet, byteAt_eq_ok.2 (lies_cons.1 hprev).1]
  have hlen : (first :: rest ++ (v.head ++ v.data)).length =
      (if first < 254 then 1 else 5) + v.head.length + v.data.length := by
    rw [List.length_append, hsize, List.length_append, Nat.add_assoc]
  have htext := valueText hend hdata he
  simp only [ok_bind, byteAt_eq_ok.2 hbyte, zipDecodeLength_head hhead he, hlen]
  split at htext
  · next hstr =>
    rw [if_pos hstr, htext]
    rfl
  · next hint =>
    rw [if_neg hint, htext]
    rfl

theorem ZlEntry.encode_two_le (e : ZlEntry) : 2 ≤ e.encode.length := by
  obtain ⟨c, hc⟩ := e.value.head_ne_nil
  have hpos := List.length_pos_of_ne_nil (List.ne_nil_of_mem (List.mem_of_mem_head? hc))
  rw [encode, List.length_append, List.length_append, List.length_cons]
  omega

theorem length_le_ziplistEntries (entries : List ZlEntry) :
    2 * entries.length + 1 ≤ (ziplistEntries entries).length := by
  induction entries with
  | nil => exact Nat.le_refl 1
  | cons e entries ih =>
    have he := e.encode_two_le
    rw [ziplistEntries, List.length_append, List.length_singleton] at ih ⊢
    rw [List.flatMap_cons, List.length_append, List.length_cons]
    omega

theorem ziplistGet_entry {e : ZlEntry} (h : Lies mem p e.encode) :
    ziplistGet mem p = .ok (e.value.loaded, e.encode.length) := ziplistGet_loaded e.prevlen h

/-- An entry is not taken for the end. -/
theorem byteAt_entry {e : ZlEntry} (h : Lies mem p e.encode) : byteAt mem p = .ok e.first :=
  byteAt_eq_ok.2 (lies_cons.1 h).1

theorem ziplistList_entries {entries : List ZlEntry} (hfuel : entries.length < fuel)
    (h : Lies mem p (ziplistEntries entries)) :
    ziplistList mem fuel p = .ok (entries.map fun e => ⟨none, e.value.loaded⟩) := by
  induction entries generalizing p fuel with
  | nil =>
    obtain ⟨fuel, rfl⟩ := Nat.exists_eq_succ_of_ne_zero (Nat.ne_zero_of_lt hfuel)
    rw [ziplistList, byteAt_eq_ok.2 h, ok_bind, if_pos rfl]
    rfl
  | cons e entries ih =>
    obtain ⟨fuel, rfl⟩ := Nat.exists_eq_succ_of_ne_zero (Nat.ne_zero_of_lt hfuel)
    rw [ziplistEntries, List.flatMap_cons, List.append_assoc] at h
    obtain ⟨hentry, hrest⟩ := lies_append.1 h
    rw [ziplistList, byteAt_entry hentry, ok_bind, if_neg e.begins, ziplistGet_entry hentry, ok_bind]
    simp only
    rw [ih (Nat.lt_of_succ_lt_succ hfuel) hrest]
    rfl

/-- Neighbours in pairs. -/
def consecutive {α : Type*} : List α → List (α × α)
  | a :: b :: l => (a, b) :: consecutive l
  | _ => []

theorem consecutive_length {α : Type*} (l : List α) : (consecutive l).length = l.length / 2 := by
  induction l using consecutive.induct with
  | case1 a b l ih =>
    rw [consecutive, List.length_cons, ih, List.length_cons, List.length_cons]
    omega
  | case2 l hl =>
    cases l with
    | nil => simp [consecutive]
    | cons a l =>
      cases l with
      | nil => simp [consecutive]
      | cons b l => exact absurd rfl (hl a b l)

theorem ziplistHash_entries {entries : List ZlEntry} (heven : Even entries.length)
    (hfuel : entries.length < fuel) (h : Lies mem p (ziplistEntries entries)) :
    ziplistHash mem fuel p =
      .ok ((consecutive entries).map fun p => ⟨p.1.value.loaded, p.2.value.loaded⟩) := by
  induction entries using consecutive.induct generalizing p fuel with
  | case1 k v entries ih =>
    obtain ⟨fuel, rfl⟩ := Nat.exists_eq_succ_of_ne_zero (Nat.ne_zero_of_lt hfuel)
    rw [ziplistEntries, List.flatMap_cons, List.append_assoc] at h
    obtain ⟨hkey, hrest⟩ := lies_append.1 h
    rw [List.flatMap_cons, List.append_assoc] at hrest
    obtain ⟨hval, hrest⟩ := lies_append.1 hrest
    have heven' : Even entries.length := by
      rwa [List.length_cons, List.length_cons, Nat.even_add_one, Nat.even_add_one, not_not] at heven
    rw [List.length_cons, List.length_cons] at hfuel
    rw [ziplistHash, byteAt_entry hkey, ok_bind, if_neg k.begins, ziplistGet_entry hkey, ok_bind]
    simp only
    rw [ziplistGet_entry hval, ok_bind]
    simp only
    rw [ih heven' (by omega) hrest]
    rfl
  | case2 entries hshort =>
    cases entries with
    | nil =>
      obtain ⟨fuel, rfl⟩ := Nat.exists_eq_succ_of_ne_zero (Nat.ne_zero_of_lt hfuel)
      rw [ziplistHash, byteAt_eq_ok.2 h, ok_bind, if_pos rfl]
      rfl
    | cons a entries =>
      cases entries with
      | nil =>
        rw [List.length_singleton] at heven
        exact absurd heven Nat.not_even_one
      | cons b entries => exact absurd rfl (hshort a b entries)

/-- A ziplist after its header, whatever that says. -/
def ziplist (header : List UInt8) (entries : List ZlEntry) : List UInt8 :=
  header ++ ziplistEntries entries

variable {header : List UInt8} {entries : List ZlEntry}

theorem lies_ziplist (hheader : header.length = ziplistHeaderSize) :
    Lies (NxStr.memory (some ((ziplist header entries).map some))) ziplistHeaderSize
      (ziplistEntries entries) := by
  refine ⟨[some 0], ?_⟩
  rw [NxStr.memory, Option.getD_some, ziplist, List.map_append, List.append_assoc, ← hheader,
    List.drop_left' (List.length_map ..)]

theorem entries_lt_memory : entries.length <
    (NxStr.memory (some ((ziplist header entries).map some))).length + 1 := by
  have hle := length_le_ziplistEntries entries
  rw [NxStr.memory, Option.getD_some, ziplist, List.length_append, List.length_map, List.length_append]
  omega

/-- The chain of a list, in the order of the entries. -/
theorem loadZiplistListOrSet_entries (hheader : header.length = ziplistHeaderSize) :
    loadZiplistListOrSet (some ((ziplist header entries).map some)) =
      chainOf valKnown (.ok (entries.map fun e => ⟨none, e.value.loaded⟩)) :=
  congrArg (chainOf valKnown) (ziplistList_entries entries_lt_memory (lies_ziplist hheader))

theorem loadZiplistHashOrZset_entries (hheader : header.length = ziplistHeaderSize)
    (heven : Even entries.length) :
    loadZiplistHashOrZset (some ((ziplist header entries).map some)) = chainOf bothKnown
      (.ok ((consecutive entries).map fun p => ⟨p.1.value.loaded, p.2.value.loaded⟩)) :=
  congrArg (chainOf bothKnown) (ziplistHash_entries heven entries_lt_memory (lies_ziplist hheader))

theorem mem_of_mem_consecutive {α : Type*} {l : List α} {p : α × α} (h : p ∈ consecutive l) :
    p.1 ∈ l ∧ p.2 ∈ l := by
  induction l using consecutive.induct with
  | case1 a b l ih =>
    rw [consecutive] at h
    rcases List.mem_cons.1 h with rfl | h
    · simp
    · simp [ih h]
  | case2 l hl =>
    rw [consecutive] at h
    · cases h
    · exact hl

/-- The loaders of ziplists recover the entries, one by one or in pairs. -/
theorem ziplist_loaded (hheader : header.length = ziplistHeaderSize)
    (hprints : ∀ e ∈ entries, e.value.Prints) :
    Recovers loadZiplistListOrSet (ziplist header entries)
        (entries.map fun e => ⟨none, some (e.value.text.map some)⟩) ∧
      (Even entries.length →
        Recovers loadZiplistHashOrZset (ziplist header entries)
            ((consecutive entries).map fun (k, v) =>
              ⟨some (k.value.text.map some), some (v.value.text.map some)⟩) ∧
          (consecutive entries).length = entries.length / 2) := by
  constructor
  · have hloaded : (entries.map fun e => (⟨none, e.value.loaded⟩ : RdbKv)) =
        entries.map fun e => ⟨none, some (e.value.text.map some)⟩ :=
      List.map_congr_left fun e he => by rw [ZlValue.loaded_prints (hprints e he)]
    rw [recovers_iff, loadZiplistListOrSet_entries hheader, hloaded]
    refine chainOf_ok ?_
    simp [valKnown]
  · intro heven
    have hloaded : ((consecutive entries).map fun p => (⟨p.1.value.loaded, p.2.value.loaded⟩ : RdbKv)) =
        (consecutive entries).map fun (k, v) =>
          ⟨some (k.value.text.map some), some (v.value.text.map some)⟩ := by
      refine List.map_congr_left fun p hp => ?_
      obtain ⟨hk, hv⟩ := mem_of_mem_consecutive hp
      rw [ZlValue.loaded_prints (hprints _ hk), ZlValue.loaded_prints (hprints _ hv)]
    refine ⟨?_, consecutive_length entries⟩
    rw [recovers_iff, loadZiplistHashOrZset_entries hheader heven, hloaded]
    refine chainOf_ok ?_
    simp [bothKnown]

/-- The numbers 2 and -300, the second of them in two bytes. -/
def twoNumbers : List ZlEntry :=
  [{ first := 0, rest := [], value := .imm 2 (by decide), begins := by decide, prevlen := rfl },
    { first := 2, rest := [], value := .int .int16 (-300) (by decide), begins := by decide
      prevlen := rfl }]

theorem ziplist_loaded_twoNumbers : let header : List UInt8 := [17, 0, 0, 0, 12, 0, 0, 0, 2, 0]
    Recovers loadZiplistListOrSet (ziplist header twoNumbers)
        [⟨none, some [some 50]⟩, ⟨none, some [some 45, some 51, some 48, some 48]⟩] ∧
      Recovers loadZiplistHashOrZset (ziplist header twoNumbers)
        [⟨some [some 50], some [some 45, some 51, some 48, some 48]⟩] := by
  intro header
  have hprints : ∀ e ∈ twoNumbers, e.value.Prints := by
    intro e he
    rcases List.mem_cons.1 he with rfl | he
    · exact (by decide +kernel : printed 64 2 = some (decimal 2))
    · rw [List.mem_singleton.1 he]
      exact (by decide +kernel : printed 64 (-300) = some (decimalInt (-300)))
  have h := @ziplist_loaded header twoNumbers rfl hprints
  exact ⟨h.1, (h.2 (by decide)).1⟩

end KjRedis.Rdb
