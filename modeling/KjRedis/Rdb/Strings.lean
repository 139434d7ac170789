import KjRedis.Rdb.LzfFormat
import KjRedis.Rdb.Numbers
import KjRedis.Rdb.StringReader

/-! RDB strings: their encodings, and the value that `build_string_value` makes of them. -/
namespace KjRedis.Rdb

open Resumption Reply

/-- A length in one of its three forms. -/
inductive IsRdbLength : List UInt8 → Nat → Prop
  | six {n : Nat} (h : n < 2 ^ 6) : IsRdbLength [UInt8.ofNat n] n
  | fourteen {n : Nat} (h : n < 2 ^ 14) :
      IsRdbLength [UInt8.ofNat (64 + n / 256), UInt8.ofNat n] n
  | thirtyTwo {n : Nat} (h : n < 2 ^ 32) : IsRdbLength (0x80 :: beBytes 4 n) n

inductive RdbInt
  | int8 | int16 | int32
  deriving DecidableEq

def RdbInt.bytes : RdbInt → Nat
  | int8 => 1
  | int16 => 2
  | int32 => 4

def RdbInt.code : RdbInt → UInt8
  | int8 => 0xc0
  | int16 => 0xc1
  | int32 => 0xc2

/-- The number that the integer reader makes of an encoding: one byte is read
without a sign. -/
def readValue (size : RdbInt) (v : Int) : Int :=
  match size with
  | .int8 => unsigned 8 v
  | _ => v

/-- An encoding of a string. -/
inductive RdbString
  | plain (len s : List UInt8) (hlen : IsRdbLength len s.length) (h : s.length < 2 ^ 31)
  | int (size : RdbInt) (v : Int) (h : IsSigned (8 * size.bytes) v)
  | lzf (cLen len compressed s : List UInt8) (hcLen : IsRdbLength cLen compressed.length)
      (hlen : IsRdbLength len s.length) (h : LzfExpands compressed s)

namespace RdbString

def encode : RdbString → List UInt8
  | plain len s _ _ => len ++ s
  | int size v _ => size.code :: leBytes size.bytes (unsigned (8 * size.bytes) v)
  | lzf cLen len compressed _ _ _ _ => 0xc3 :: (cLen ++ (len ++ compressed))

/-- The string that is encoded: of an integer, its decimal. -/
def text : RdbString → List UInt8
  | plain _ s _ _ => s
  | int _ v _ => decimalInt v
  | lzf _ _ _ s _ _ _ => s

/-- What the builder makes of it, if anything. -/
def read : RdbString → Option (List UInt8)
  | plain _ s _ _ => some s
  | int size v _ => printed 32 (readValue size v)
  | lzf _ _ compressed s _ _ _ =>
    if noBuffer compressed.length ∨ noBuffer s.length then none else some s

end RdbString

theorem kind_eq {p k : UInt8} (h : p.toNat / 64 = k.toNat) : (p &&& 0xc0) >>> 6 = k :=
  UInt8.toNat.inj ((kind_toNat p).trans h)

theorem readStoreLen_length {len : List UInt8} {n : Nat} (h : IsRdbLength len n) (rest : List UInt8) :
    rdbObjectReadStoreLen (len ++ rest) = some (len.length, false, n) := by
  cases h with
  | six h =>
    have hp : (UInt8.ofNat n).toNat = n := by
      rw [UInt8.toNat_ofNat']
      omega
    have hkind := @kind_eq (UInt8.ofNat n) 0 (by rw [hp]; exact Nat.div_eq_of_lt h)
    have hmod : n % 64 = n := Nat.mod_eq_of_lt h
    rw [List.singleton_append]
    simp only [rdbObjectReadStoreLen, hkind, low_toNat, hp, hmod, List.length_singleton]
  | fourteen h =>
    have hp : (UInt8.ofNat (64 + n / 256)).toNat = 64 + n / 256 := by
      rw [UInt8.toNat_ofNat']
      omega
    have hkind := @kind_eq (UInt8.ofNat (64 + n / 256)) 1
      (by rw [hp]; show _ = 1; omega)
    have hlen : (64 + n / 256) % 64 * 256 + (UInt8.ofNat n).toNat = n := by
      rw [UInt8.toNat_ofNat']
      omega
    rw [List.cons_append, List.singleton_append]
    simp only [rdbObjectReadStoreLen, hkind, low_toNat, hp, hlen]
    rfl
  | thirtyTwo h =>
    have htake : (beBytes 4 n ++ rest).take 4 = beBytes 4 n := List.take_left' (beBytes_length 4 n)
    have hlen : ¬ (beBytes 4 n ++ rest).length < 4 := by
      rw [List.length_append, beBytes_length]
      omega
    have hkind := @kind_eq 0x80 2 rfl
    have hnat : beNat (beBytes 4 n) = n := beNat_beBytes h
    rw [List.cons_append]
    simp only [rdbObjectReadStoreLen, hkind, if_neg hlen, htake, hnat, List.length_cons,
      beBytes_length]

theorem readStoreLen_encoded {p : UInt8} (h : 192 ≤ p.toNat) (rest : List UInt8) :
    rdbObjectReadStoreLen (p :: rest) = some (1, true, p.toNat - 192) := by
  have hlt := p.toNat_lt
  have hkind := @kind_eq p 3 (by show _ = 3; omega)
  have hlow : p.toNat % 64 = p.toNat - 192 := by omega
  simp only [rdbObjectReadStoreLen, hkind, low_toNat, hlow]
  rfl

theorem readInt_bytes {size : RdbInt} {v : Int} (h : IsSigned (8 * size.bytes) v) (rest : List UInt8) :
    rdbObjectReadInt (leBytes size.bytes (unsigned (8 * size.bytes) v) ++ rest)
      (size.code.toNat - 192) = some (size.bytes, readValue size v) := by
  have hlt : unsigned (8 * size.bytes) v < 256 ^ size.bytes := by
    have := unsigned_lt (8 * size.bytes) v
    rwa [Nat.pow_mul] at this
  have htake : (leBytes size.bytes (unsigned (8 * size.bytes) v) ++ rest).take size.bytes =
      leBytes size.bytes (unsigned (8 * size.bytes) v) := List.take_left' (leBytes_length _ _)
  have hlen : (leBytes size.bytes (unsigned (8 * size.bytes) v) ++ rest).length =
      size.bytes + rest.length := by
    rw [List.length_append, leBytes_length]
  have hnat := leNat_leBytes hlt
  rw [rdbObjectReadInt, hlen]
  cases size with
  | int8 =>
    rw [if_neg (by show ¬ 1 + _ < 1; omega), if_pos (by decide)]
    change List.take 1 _ = _ at htake
    rw [htake, hnat]
    rfl
  | int16 =>
    rw [if_neg (by show ¬ 2 + _ < 1; omega), if_neg (by decide), if_pos (by decide),
      if_neg (by show ¬ 2 + _ < 2; omega)]
    change List.take 2 _ = _ at htake
    rw [htake, hnat]
    exact congrArg (fun w => some (2, w)) (signed_unsigned (by decide) h)
  | int32 =>
    rw [if_neg (by show ¬ 4 + _ < 1; omega), if_neg (by decide), if_neg (by decide),
      if_neg (by show ¬ 4 + _ < 4; omega)]
    change List.take 4 _ = _ at htake
    rw [htake, hnat]
    exact congrArg (fun w => some (4, w)) (signed_unsigned (by decide) h)

theorem readLen_length {len : List UInt8} {n : Nat} (h : IsRdbLength len n) (rest : List UInt8) :
    readLen (len ++ rest) = .done (false, n) rest := by
  rw [readLen, readStoreLen_length h]
  simp only [List.drop_left]

theorem readLen_encoded {p : UInt8} (h : 192 ≤ p.toNat) (rest : List UInt8) :
    readLen (p :: rest) = .done (true, p.toNat - 192) rest := by
  rw [readLen, readStoreLen_encoded h]
  rfl

theorem readBytes_all {s : List UInt8} (h : ¬ noBuffer s.length) (rest : List UInt8) :
    readBytes s.length (s ++ rest) = .done s rest := by
  have hlen : ¬ (s ++ rest).length < s.length := by
    rw [List.length_append]
    omega
  rw [readBytes, if_neg fun hno => h hno.1, if_neg hlen, List.take_left, List.drop_left]

theorem readString_lzf (bb : List UInt8) : readString (0xc3 :: bb) = readLzf bb := by
  have hcode : (0xc3 : UInt8).toNat - 192 = encLzf := by decide
  have hint : ¬ (encLzf = encInt8 ∨ encLzf = encInt16 ∨ encLzf = encInt32) := by decide
  rw [readString, readLen_encoded (by decide), hcode]
  simp only [Read.bind, if_true, readEncoded, if_neg hint]

theorem mapM_id_some (xs : List UInt8) : (xs.map some).mapM id = some xs := by
  induction xs with
  | nil => rfl
  | cons x xs ih =>
    rw [List.map_cons, List.mapM_cons, ih]
    rfl

theorem inflate_all {compressed s : List UInt8} (h : LzfExpands compressed s) (rest : List UInt8) :
    inflate compressed s.length rest = if noBuffer s.length then .stray else .done (some (s.map some)) rest := by
  rw [inflate, decompressed]
  by_cases hs : noBuffer s.length
  · simp only [Option.getD_some, mapM_id_some, hs, h.writes, and_self, if_true]
  · simp only [Option.getD_some, mapM_id_some, hs, false_and, if_false, h.decompress, Nat.sub_self,
      List.replicate_zero, List.append_nil]

theorem RdbInt.code_encodes (size : RdbInt) : 192 ≤ size.code.toNat ∧
    (size.code.toNat - 192 = encInt8 ∨ size.code.toNat - 192 = encInt16 ∨
      size.code.toNat - 192 = encInt32) := by
  cases size <;> decide

/-- An integer is read to its end and printed. -/
theorem readString_int {size : RdbInt} {v : Int} (hv : IsSigned (8 * size.bytes) v) (rest : List UInt8) :
    readString ((RdbString.int size v hv).encode ++ rest) =
      (printed 32 (readValue size v)).elim .stray fun s32 => .done (some (s32.map some)) rest := by
  obtain ⟨hcode, hint⟩ := size.code_encodes
  rw [RdbString.encode, List.cons_append, readString, readLen_encoded hcode]
  simp only [Read.bind, if_true, readEncoded, if_pos hint, readInt, readInt_bytes hv]
  rw [List.drop_left' (leBytes_length _ _)]
  cases printed 32 (readValue size v) <;> rfl

/-- An encoding is read to its end, and the string is what is read. -/
theorem readString_encode {e : RdbString} {text : List UInt8} (hread : e.read = some text)
    (rest : List UInt8) : readString (e.encode ++ rest) = .done (some (text.map some)) rest := by
  cases e with
  | plain len s hlen h =>
    cases hread
    have hbuffer : ¬ noBuffer text.length := by
      rw [noBuffer]
      omega
    rw [RdbString.encode, List.append_assoc, readString, readLen_length hlen]
    simp only [Read.bind, Bool.false_eq_true, if_false, readBytes_all hbuffer, Read.map]
  | int size v hv =>
    rw [RdbString.read] at hread
    rw [readString_int hv, hread]
    rfl
  | lzf cLen len compressed s hcLen hlen h =>
    rw [RdbString.read] at hread
    split at hread
    · cases hread
    · next hbuffers =>
      cases hread
      obtain ⟨hc, hs⟩ := not_or.1 hbuffers
      rw [RdbString.encode, List.cons_append, List.append_assoc, List.append_assoc, readString_lzf,
        readLzf, readLen_length hcLen]
      simp only [Read.bind, readLen_length hlen, readBytes_all hc, inflate_all h, if_neg hs]

/-- What the builder makes nothing of is read from in front of the table of digits, or has a buffer
whose size wraps. -/
theorem readString_unread {e : RdbString} (hread : e.read = none) (rest : List UInt8) :
    readString (e.encode ++ rest) = .stray := by
  cases e with
  | plain => cases hread
  | int size v hv =>
    rw [RdbString.read] at hread
    rw [readString_int hv, hread]
    rfl
  | lzf cLen len compressed s hcLen hlen h =>
    have hno : noBuffer compressed.length ∨ noBuffer s.length := by
      by_contra hbuffers
      rw [RdbString.read, if_neg hbuffers] at hread
      cases hread
    rw [RdbString.encode, List.cons_append, List.append_assoc, List.append_assoc, readString_lzf,
      readLzf, readLen_length hcLen]
    simp only [Read.bind, readLen_length hlen]
    by_cases hc : noBuffer compressed.length
    · have hne : compressed ++ rest ≠ [] := List.append_ne_nil_of_left_ne_nil h.1 rest
      rw [readBytes, if_pos ⟨hc, hne⟩]
    · rw [readBytes_all hc]
      simp only [inflate_all h, if_pos (hno.resolve_left hc)]

section Whole

variable {val : StrRef} {ob : Nat} {rp : RdbParser}

theorem string_runs {e : RdbString} {text rest : List UInt8} (htop : AtTop ob rp)
    (hob : ob + 2 < 2 ^ 8) (hval : val.Under ob) (hread : e.read = some text) :
    ∃ rp', Runs (buildStringValue val ob) rp (e.encode ++ rest) (.over, rp', rest) ∧
      rp'.str val = some (text.map some) := by
  have hfollows := @string_follows val ob rp (e.encode ++ rest) htop hob hval
  rw [readString_encode hread] at hfollows
  obtain ⟨rp', hrun, -, -, hsame⟩ := hfollows
  exact ⟨rp', hrun, (same_str hval hsame).trans (str_setStr _ _ _)⟩

/-- The number of an encoding is printed as its decimal. -/
def RdbString.Prints : RdbString → Prop
  | int size v _ => printed 32 (readValue size v) = some (decimalInt (readValue size v))
  | _ => True

/-- No byte is negative, and no size of a buffer wraps. -/
def RdbString.Kept : RdbString → Prop
  | plain _ _ _ _ => True
  | int size v _ => size = .int8 → 0 ≤ v
  | lzf _ _ compressed s _ _ _ => ¬ noBuffer compressed.length ∧ ¬ noBuffer s.length

/-- However what starts with the encoding is cut, a first call that does not run out of input is over
behind the encoding, with the string as the value. -/
def Decodes (e : RdbString) (val : StrRef) (ob : Nat) (rp : RdbParser) : Prop :=
  ∀ (chunks : List (List UInt8)) (rest : List UInt8), chunks.flatten = e.encode ++ rest →
    ∃ n < chunks.length, ∃ rp' rest', rest' ++ (chunks.drop (n + 1)).flatten = rest ∧
      Feeds (buildStringValue val ob) rp [] (chunks.take (n + 1))
        (List.replicate n .premature ++ [.over]) rp' rest' ∧
      rp'.str val = some (e.text.map some)

theorem RdbString.encode_ne_nil (e : RdbString) : e.encode ≠ [] := by
  cases e with
  | plain len s hlen h =>
    cases hlen <;> exact List.cons_ne_nil _ _
  | int | lzf => exact List.cons_ne_nil _ _

theorem readValue_of_kept {size : RdbInt} {v : Int} (hv : IsSigned (8 * size.bytes) v)
    (h : size = .int8 → 0 ≤ v) : readValue size v = v := by
  cases size with
  | int8 =>
    obtain ⟨-, hlt⟩ : -2 ^ 7 ≤ v ∧ v < 2 ^ 7 := hv
    have hnonneg := h rfl
    show ((unsigned 8 v : Nat) : Int) = v
    rw [unsigned, Int.emod_eq_of_lt hnonneg (by omega), Int.toNat_of_nonneg hnonneg]
  | int16 | int32 => rfl

theorem read_of_kept {e : RdbString} (hprints : e.Prints) (hkept : e.Kept) : e.read = some e.text := by
  cases e with
  | plain => rfl
  | int size v hv =>
    have hvalue := readValue_of_kept hv hkept
    rw [RdbString.read, RdbString.text, hvalue]
    rwa [RdbString.Prints, hvalue] at hprints
  | lzf cLen len compressed s hcLen hlen h => exact if_neg (not_or.2 hkept)

theorem decimalInt_inj {v w : Int} (hv : -2 ^ 63 ≤ v ∧ v < 2 ^ 63) (hw : -2 ^ 63 ≤ w ∧ w < 2 ^ 63)
    (h : decimalInt v = decimalInt w) : v = w := by
  have hread := @rBuildInteger_line createReplyParser _ [] v (decimalInt_isInt64 hv.1 hv.2)
  rw [h, rBuildInteger_line (decimalInt_isInt64 hw.1 hw.2)] at hread
  exact (Option.some.inj (Prod.mk.inj hread).1).symm

/-- The one call on the whole encoding. -/
theorem Decodes.call {e : RdbString} (h : Decodes e val ob rp) :
    ∃ rp' rest', Runs (buildStringValue val ob) rp e.encode (.over, rp', rest') ∧
      rp'.str val = some (e.text.map some) := by
  obtain ⟨n, hn, rp', rest', -, hfeeds, hstr⟩ := h [e.encode] [] (by simp)
  obtain rfl : n = 0 := Nat.lt_one_iff.1 hn
  cases hfeeds with
  | cons hrun hnil =>
    cases hnil
    exact ⟨rp', rest', hrun, hstr⟩

/-- A string is decoded from its encoding, however this is cut, unless it is a negative number in one
byte: that one is read without its sign. -/
theorem decodes_iff {e : RdbString} (htop : AtTop ob rp) (hob : ob + 2 < 2 ^ 8) (hval : val.Under ob)
    (hprints : e.Prints) : Decodes e val ob rp ↔ e.Kept := by
  constructor
  · intro h
    obtain ⟨rp', rest', hcall, hstr⟩ := h.call
    cases e with
    | plain => trivial
    | int size v hv =>
      rintro rfl
      have hsigned : -2 ^ 7 ≤ v ∧ v < 2 ^ 7 := hv
      obtain ⟨rp₂, hrun, hstr₂⟩ := @string_runs val ob rp (.int .int8 v hv) _ [] htop hob hval hprints
      rw [List.append_nil] at hrun
      obtain ⟨-, heq⟩ := Prod.mk.inj (hcall.unique hrun)
      obtain ⟨rfl, -⟩ := Prod.mk.inj heq
      rw [hstr₂] at hstr
      have htext := List.map_injective_iff.2 (Option.some_injective _) (Option.some.inj hstr)
      have hlt := unsigned_lt 8 v
      have hvalue : ((unsigned 8 v : Nat) : Int) = v := decimalInt_inj (by omega) (by omega) htext
      omega
    | lzf cLen len compressed s hcLen hlen hs =>
      rw [RdbString.Kept, ← not_or]
      intro hno
      have hread := readString_unread (e := .lzf cLen len compressed s hcLen hlen hs) (if_pos hno) []
      rw [List.append_nil] at hread
      have hfollows := @string_follows val ob rp (0xc3 :: (cLen ++ (len ++ compressed))) htop hob hval
      rw [show readString (0xc3 :: (cLen ++ (len ++ compressed))) = .stray from hread] at hfollows
      obtain ⟨rp₂, bb', hstray⟩ := hfollows
      cases hcall.unique hstray
  · intro hkept chunks rest hcut
    obtain ⟨rp', hrun, hstr⟩ := @string_runs val ob rp e _ rest htop hob hval
      (read_of_kept hprints hkept)
    have hne : chunks ≠ [] := by
      rintro rfl
      exact e.encode_ne_nil (List.append_eq_nil_iff.1 hcut.symm).1
    rw [← hcut] at hrun
    change Runs _ rp ([] ++ chunks.flatten) _ at hrun
    obtain ⟨n, hn, rest', hrest, hfeeds⟩ := (lawful_buildStringValue val hob).feeds_until htop.stacked
      hne Rc.noConfusion hrun
    exact ⟨n, hn, rp', rest', hrest, hfeeds, hstr⟩

end Whole

/-- A parser with one builder, as the body has it. -/
def oneBuilder : RdbParser := (createRdbParser.stackAllocObjectBuilder 0).2

theorem atTop_oneBuilder : AtTop 0 oneBuilder where
  nelts := rfl
  depths i hi := by
    obtain rfl := Nat.le_zero.1 hi
    rfl

theorem decodes_iff_minus : let e : RdbString := .int .int16 (-300) (by decide)
    Decodes e .objectKey 0 oneBuilder := by
  intro e
  have hprints : e.Prints := (by decide +kernel : printed 32 (-300) = some (decimalInt (-300)))
  have hiff : Decodes e .objectKey 0 oneBuilder ↔ e.Kept :=
    decodes_iff atTop_oneBuilder (by decide) trivial hprints
  exact hiff.2 RdbInt.noConfusion

/-- The byte of -5 is read as 251. -/
theorem not_decodes : ¬ ∀ (e : RdbString) (val : StrRef) (ob : Nat) (rp : RdbParser), AtTop ob rp →
    ob + 2 < 2 ^ 8 → val.Under ob → e.Prints → Decodes e val ob rp := by
  intro h
  have hsigned : IsSigned (8 * RdbInt.int8.bytes) (-5) := by decide
  have hprints : (RdbString.int .int8 (-5) hsigned).Prints := by
    show printed 32 (readValue .int8 (-5)) = some (decimalInt (readValue .int8 (-5)))
    decide +kernel
  obtain ⟨rp', rest', ⟨fuel, hrun⟩, hstr⟩ := (h (.int .int8 (-5) hsigned) .objectKey 0 oneBuilder
    atTop_oneBuilder (by decide) trivial hprints).call
  have hkey : ((buildStringValue .objectKey 0).run 3 oneBuilder [0xc0, 251]).map
      (fun out => out.2.1.o.key) = some (some [some 50, some 53, some 49]) := by decide +kernel
  obtain ⟨out, hout, hkey⟩ := Option.map_eq_some_iff.1 hkey
  obtain rfl := Runs.unique ⟨3, hout⟩ ⟨fuel, hrun⟩
  rw [show rp'.str .objectKey = some [some 50, some 53, some 49] from hkey] at hstr
  have htext : some [some 50, some 53, some 49] ≠ some ((decimalInt (-5)).map some) := by decide +kernel
  exact htext hstr

end KjRedis.Rdb
