import KjRedis.Rdb.Bounds
import KjRedis.Rdb.Strings

/-! What a string or a compact container holds in the format, and when that is what is read of it. -/
namespace KjRedis.Rdb

open Reply

/-- All numbers but two are printed as their decimals. -/
theorem printed_eq_decimal_iff {bits : Nat} {v : Int} :
    printed bits v = some (decimalInt v) ↔ v ≠ 0 ∧ v ≠ -2 ^ (bits - 1) := by
  rw [printed]
  by_cases hzero : v = 0
  · rw [if_pos hzero, hzero, Option.some_inj]
    refine iff_of_false ?_ fun h => h.1 rfl
    split <;> decide
  · rw [if_neg hzero]
    by_cases hleast : v = -2 ^ (bits - 1)
    · rw [if_pos hleast]
      exact iff_of_false (Option.some_ne_none _).symm fun h => h.2 hleast
    · rw [if_neg hleast, decimalInt]
      refine iff_of_true ?_ ⟨hzero, hleast⟩
      split <;> rfl

/-- A string is handed out as it is: no number is printed as another text or read without its sign,
and no size of a buffer wraps. -/
def RdbString.Exact : RdbString → Prop
  | plain _ _ _ _ => True
  | int size v _ => v ≠ 0 ∧ v ≠ -2 ^ 31 ∧ (size = .int8 → 0 ≤ v)
  | lzf _ _ compressed s _ _ _ => ¬ noBuffer compressed.length ∧ ¬ noBuffer s.length

theorem readValue_int {size : RdbInt} {v : Int} (hv : IsSigned (8 * size.bytes) v) :
    readValue size v = v ∨ size = .int8 ∧ v < 0 ∧ readValue size v = v + 256 := by
  cases size with
  | int8 =>
    obtain ⟨hlow, hhigh⟩ : -2 ^ 7 ≤ v ∧ v < 2 ^ 7 := hv
    have hbyte : readValue .int8 v = v % 2 ^ 8 := by
      show ((unsigned 8 v : Nat) : Int) = _
      rw [unsigned]
      omega
    rcases lt_or_ge v 0 with hneg | hnonneg
    · exact Or.inr ⟨rfl, hneg, by omega⟩
    · exact Or.inl (by omega)
  | int16 | int32 => exact Or.inl rfl

theorem RdbString.read_eq_text_iff {e : RdbString} : e.read = some e.text ↔ e.Exact := by
  cases e with
  | plain => exact iff_of_true rfl trivial
  | int size v hv =>
    rw [read, text, Exact]
    rcases readValue_int hv with hvalue | ⟨rfl, hneg, hvalue⟩
    · have hsign : size = .int8 → 0 ≤ v := by
        rintro rfl
        rw [← hvalue]
        exact Int.natCast_nonneg _
      rw [hvalue, printed_eq_decimal_iff, and_iff_left hsign]
    · obtain ⟨hlow, -⟩ : -2 ^ 7 ≤ v ∧ v < 2 ^ 7 := hv
      rw [hvalue, printed_eq_decimal_iff.2 ⟨by omega, by omega⟩, Option.some_inj]
      refine iff_of_false (fun htext => ?_) fun h => absurd (h.2.2 rfl) (by omega)
      have heq := decimalInt_inj (by omega) (by omega) htext
      omega
  | lzf cLen len compressed s hcLen hlen h =>
    rw [read, text, Exact, ← not_or]
    by_cases hno : noBuffer compressed.length ∨ noBuffer s.length
    · rw [if_pos hno]
      exact iff_of_false (Option.some_ne_none _).symm (not_not.2 hno)
    · rw [if_neg hno]
      exact iff_of_true rfl hno

/-- The same for an entry of a ziplist. -/
def ZlValue.Exact : ZlValue → Prop
  | imm v _ => v ≠ 0
  | int _ v _ => v ≠ 0 ∧ v ≠ -2 ^ 63
  | _ => True

theorem printed64_eq_iff {v : Int} :
    printed64 v = some ((decimalInt v).map some) ↔ v ≠ 0 ∧ v ≠ -2 ^ 63 := by
  rw [← @printed_eq_decimal_iff 64, printed64, Option.map_eq_some_iff]
  constructor
  · rintro ⟨text, hprinted, htext⟩
    rw [hprinted, List.map_injective_iff.2 (Option.some_injective _) htext]
  · exact fun hprinted => ⟨_, hprinted, rfl⟩

theorem ZlValue.loaded_eq_text_iff {v : ZlValue} : v.loaded = some (v.text.map some) ↔ v.Exact := by
  cases v with
  | imm v hv =>
    have hdecimal : decimalInt v = decimal v := by
      rw [decimalInt, if_neg (by omega), Int.natAbs_natCast]
    rw [loaded, text, Exact, ← hdecimal, printed64_eq_iff]
    omega
  | int size v hv => exact printed64_eq_iff
  | str06 | str14 | str32 => exact iff_of_true rfl trivial

/-- The pairs that the loader takes bytes for. A byte follows the length of a value, and of bytes that
are not in use nothing is known: what stands there is the length of the next key. -/
inductive ZmReads : List UInt8 → List RdbKv → Prop
  | done (more : List UInt8) : ZmReads (0xff :: more) []
  | nothing {bs : List UInt8} {kvs : List RdbKv} (h : ZmReads bs kvs) :
      ZmReads (0xfe :: bs) (⟨some [], some []⟩ :: kvs)
  | keyOnly {keyLen key bs : List UInt8} {c : UInt8} {kvs : List RdbKv}
      (hkey : IsZmLength keyLen key.length) (hk : key.length + 1 < 2 ^ 31) (hc : 0xfd < c)
      (h : ZmReads bs kvs) :
      ZmReads (keyLen ++ (key ++ (c :: bs))) (⟨some (key.map some), some []⟩ :: kvs)
  | pair {keyLen key valLen val bs : List UInt8} {free : UInt8} {kvs : List RdbKv}
      (hkey : IsZmLength keyLen key.length) (hk : key.length + 1 < 2 ^ 31)
      (hval : IsZmLength valLen val.length) (hv : val.length + 1 < 2 ^ 31) (h : ZmReads bs kvs) :
      ZmReads (keyLen ++ (key ++ (valLen ++ (free :: val ++ bs))))
        (⟨some (key.map some), some (val.map some)⟩ :: kvs)

section Zipmaps

variable {b : List UInt8} {p fuel : Nat} {kvs : List RdbKv}

theorem copyInt_ok {n : Nat} {text : Memory} (h : copyInt (b.map some) p n = .ok text) :
    n + 1 < 2 ^ 31 ∧ p ≤ b.length ∧
      ∃ bs more, text = bs.map some ∧ bs.length = n ∧ b.drop p = bs ++ more := by
  rcases inside_copyInt (h ▸ inside_ok text) with rfl | ⟨hn, hp, bs, more, hcopy, hlen, hdrop⟩
  · rw [copyInt_last] at h
    cases h
  · rw [hcopy] at h
    exact ⟨hn, hp, bs, more, (Except.ok.inj h).symm, hlen, hdrop⟩

/-- What stands where the length of a key or a value is read, and how many bytes follow it. -/
theorem zipmapEntry_ok {size n : Nat} (h : zipmapEntry (b.map some) p = .ok (size, n)) :
    ∃ len more, len.length = size ∧ b.drop p = len ++ more ∧
      (IsZmLength len n ∨ len = [] ∧ n = 0 ∧ ∃ c rest, 0xfd < c ∧ more = c :: rest) := by
  obtain ⟨len, m, more, hentry, hdrop, hlen⟩ := inside_zipmapEntry (h ▸ inside_ok (size, n))
  rw [hentry] at h
  obtain ⟨rfl, rfl⟩ := Prod.mk.inj (Except.ok.inj h)
  exact ⟨len, more, rfl, hdrop, hlen⟩

theorem not_end_of_marked {c : UInt8} (hmark : 0xfd < c) (hend : c ≠ 0xff) : c = 0xfe := by
  have hlow : 253 < c.toNat := UInt8.lt_iff_toNat_lt.1 hmark
  have hhigh := c.toNat_lt
  have hne : c.toNat ≠ 255 := fun h => hend (UInt8.toNat.inj h)
  apply UInt8.toNat.inj
  show c.toNat = 254
  omega

theorem zipmapLoop_reads (h : zipmapLoop (b.map some) fuel p = .ok kvs) : ZmReads (b.drop p) kvs := by
  induction fuel generalizing p kvs with
  | zero => cases h
  | succ fuel ih =>
    rw [zipmapLoop] at h
    obtain ⟨c, hbyte, h⟩ := bind_eq_ok.1 h
    obtain ⟨more, hdrop⟩ := lies_map_iff.1 (byteAt_eq_ok.1 hbyte)
    rw [List.singleton_append] at hdrop
    by_cases hend : c = 0xff
    · rw [if_pos hend] at h
      cases h
      rw [hdrop, hend]
      exact .done more
    rw [if_neg hend] at h
    obtain ⟨⟨ksize, klen⟩, hkeyEntry, h⟩ := bind_eq_ok.1 h
    obtain ⟨key, hkeyCopy, h⟩ := bind_eq_ok.1 h
    obtain ⟨⟨vsize, vlen⟩, hvalEntry, h⟩ := bind_eq_ok.1 h
    obtain ⟨val, hvalCopy, h⟩ := bind_eq_ok.1 h
    obtain ⟨rest, hloop, h⟩ := bind_eq_ok.1 h
    cases h
    have hrest := ih hloop
    obtain ⟨hk, -, key, more₁, rfl, rfl, hkeyDrop⟩ := copyInt_ok hkeyCopy
    obtain ⟨hv, hin, val, more₂, rfl, rfl, hvalDrop⟩ := copyInt_ok hvalCopy
    obtain ⟨keyLen, more₃, rfl, hkeyLen, hkey⟩ := zipmapEntry_ok hkeyEntry
    obtain ⟨valLen, more₄, rfl, hvalLen, hval⟩ := zipmapEntry_ok hvalEntry
    rcases hkey with hkey | ⟨rfl, hnil, c', tail, hmark, rfl⟩
    · have hstart := drop_drop_of_append hkeyLen rfl (drop_drop_of_append hkeyDrop rfl hvalLen)
      have htail := drop_of_append hvalLen
      rcases hval with hval | ⟨rfl, hnil, c', tail, hmark, rfl⟩
      · cases more₄ with
        | nil =>
          rw [List.drop_eq_nil_iff] at htail
          omega
        | cons free more₄ =>
          have hafter := drop_of_append (s := [free]) htail
          rw [List.length_singleton, hvalDrop] at hafter
          have hnext := drop_of_append hvalDrop
          rw [show p + keyLen.length + key.length + valLen.length + 1 + val.length =
            p + keyLen.length + key.length + valLen.length + val.length + 1 by omega] at hnext
          rw [hnext] at hrest
          rw [hstart, ← hafter]
          exact .pair hkey hk hval hv hrest
      · obtain rfl := List.eq_nil_of_length_eq_zero hnil
        have hnext := drop_of_append (s := [c']) htail
        rw [List.length_singleton] at hnext
        rw [List.length_nil, Nat.add_zero, Nat.add_zero] at hrest hnext
        rw [hnext] at hrest
        rw [hstart]
        exact .keyOnly hkey hk hmark hrest
    · obtain rfl := List.eq_nil_of_length_eq_zero hnil
      obtain rfl := (List.cons.inj (hdrop.symm.trans hkeyLen)).1
      obtain rfl := not_end_of_marked hmark hend
      simp only [List.length_nil, Nat.add_zero] at hvalEntry hrest
      have hnone := zipmapEntry_none (byteAt_eq_ok.1 hbyte) hmark
      rw [hnone] at hvalEntry
      obtain ⟨hsize, hzero⟩ := Prod.mk.inj (Except.ok.inj hvalEntry)
      obtain rfl := List.eq_nil_of_length_eq_zero hzero.symm
      have hnext : b.drop (p + 1) = more := drop_of_append (s := [0xfe]) hdrop
      simp only [← hsize, List.length_nil, Nat.add_zero, hnext] at hrest
      rw [hdrop]
      exact .nothing hrest

theorem zipmapLoop_of_reads (h : ZmReads (b.drop p) kvs) (hfuel : b.length < fuel + p) :
    zipmapLoop (b.map some) fuel p = .ok kvs := by
  generalize hdrop : b.drop p = bs at h
  induction h generalizing p fuel with
  | done more =>
    have hlt := (lies_of_drop (s := [0xff]) hdrop).lt
    rw [List.length_map] at hlt
    obtain ⟨fuel, rfl⟩ := Nat.exists_eq_add_of_lt (show 0 < fuel by omega)
    exact zipmapLoop_end (lies_of_drop (s := [0xff]) hdrop)
  | nothing _ ih =>
    have hlies := lies_of_drop (s := [0xfe]) hdrop
    have hlt := hlies.lt
    have hnone := zipmapEntry_none hlies (by decide)
    rw [List.length_map] at hlt
    obtain ⟨fuel, rfl⟩ := Nat.exists_eq_add_of_lt (show 0 < fuel by omega)
    have hloop := @ih (p + 1) fuel (by omega) (drop_of_append (s := [0xfe]) hdrop)
    rw [Nat.zero_add, zipmapLoop_round hlies (by decide) hnone, copyInt_nil (by rw [List.length_map]; omega),
      ok_bind]
    simp only [Nat.add_zero]
    rw [hnone, ok_bind]
    simp only [Nat.add_zero]
    rw [copyInt_nil (by rw [List.length_map]; omega), ok_bind, hloop]
    rfl
  | @keyOnly keyLen key bs c kvs hkey hk hc _ ih =>
    rw [← List.append_assoc] at hdrop
    have hrest := drop_of_append hdrop
    rw [List.length_append, ← Nat.add_assoc] at hrest
    have hlies := lies_of_drop (s := [c]) hrest
    have hlt := hlies.lt
    rw [List.length_map] at hlt
    obtain ⟨fuel, rfl⟩ := Nat.exists_eq_add_of_lt (show 0 < fuel by omega)
    have hloop := @ih (p + keyLen.length + key.length + 1) fuel (by omega)
      (drop_of_append (s := [c]) hrest)
    rw [Nat.zero_add, zipmapLoop_key hkey hk (lies_of_drop hdrop), zipmapEntry_none hlies hc, ok_bind]
    simp only [Nat.add_zero]
    rw [copyInt_nil (by rw [List.length_map]; omega), ok_bind, hloop]
    rfl
  | @pair keyLen key valLen val bs free kvs hkey hk hval hv _ ih =>
    rw [← List.append_assoc] at hdrop
    have hrest := drop_of_append hdrop
    rw [List.length_append, ← Nat.add_assoc] at hrest
    have hfree := drop_of_append hrest
    have hbytes := drop_of_append (s := [free]) hfree
    rw [List.length_singleton] at hbytes
    have hlt := (lies_of_drop (s := [free]) hfree).lt
    rw [List.length_map] at hlt
    obtain ⟨fuel, rfl⟩ := Nat.exists_eq_add_of_lt (show 0 < fuel by omega)
    have hnext : p + keyLen.length + key.length + valLen.length + val.length + 1 =
        p + keyLen.length + key.length + valLen.length + 1 + val.length := by omega
    have hloop := @ih (p + keyLen.length + key.length + valLen.length + 1 + val.length) fuel (by omega)
      (drop_of_append hbytes)
    rw [Nat.zero_add, zipmapLoop_key hkey hk (lies_of_drop hdrop),
      zipmapEntry_length hval (lies_of_drop hrest), ok_bind]
    simp only
    rw [copyInt_lies (by rw [List.length_map]; omega) (lies_of_drop hbytes) hv, ok_bind, hnext, hloop]
    rfl

theorem loadZipmap_iff {text : List UInt8} : loadZipmap (some (text.map some)) = some kvs ↔
    ZmReads ((text ++ [0]).drop 1) kvs := by
  have hmemory : NxStr.memory (some (text.map some)) = (text ++ [0]).map some := by
    rw [NxStr.memory, Option.getD_some, List.map_append, List.map_singleton]
  rw [loadZipmap, zipmapPairs, hmemory]
  constructor
  · intro h
    cases hloop : zipmapLoop ((text ++ [0]).map some) (((text ++ [0]).map some).length + 1) 1 with
    | error e =>
      rw [hloop] at h
      cases h
    | ok kvs' =>
      rw [hloop] at h
      cases h
      exact zipmapLoop_reads hloop
  · intro h
    rw [zipmapLoop_of_reads h (by rw [List.length_map]; omega)]
    rfl

end Zipmaps

/-- An intset: the width of its integers, their number, and the integers. -/
def intset (size : Nat) (vs : List Int) : List UInt8 :=
  leBytes 4 size ++ (leBytes 4 vs.length ++ vs.flatMap fun v => leBytes size (unsigned (8 * size) v))

section Intsets

variable {mem : Memory} {size p : Nat} {vs : List Int}

theorem intsetLoop_elements (hpos : 0 < size) (hvs : ∀ v ∈ vs, IsSigned (8 * size) v)
    (h : Lies mem p (vs.flatMap fun v => leBytes size (unsigned (8 * size) v))) :
    intsetLoop mem size vs.length p = .ok (vs.map fun v => ⟨none, printed64 v⟩) := by
  induction vs generalizing p with
  | nil => rfl
  | cons v vs ih =>
    rw [List.forall_mem_cons] at hvs
    rw [List.flatMap_cons] at h
    obtain ⟨hfirst, hrest⟩ := lies_append.1 h
    rw [leBytes_length] at hrest
    have hlt : unsigned (8 * size) v < 256 ^ size := by
      have := unsigned_lt (8 * size) v
      rwa [Nat.pow_mul] at this
    rw [List.length_cons, intsetLoop, bytesAt_eq_ok.2 ⟨leBytes_length _ _, hfirst⟩, ok_bind]
    simp only [leNat_leBytes hlt, signed_unsigned (show 0 < 8 * size by omega) hvs.1]
    rw [ih hvs.2 hrest]
    rfl

theorem loadIntset_elements (hsize : size = 2 ∨ size = 4 ∨ size = 8)
    (hvs : ∀ v ∈ vs, IsSigned (8 * size) v) (hlen : vs.length < 2 ^ 32) :
    loadIntset (some ((intset size vs).map some)) =
      chainOf valKnown (.ok (vs.map fun v => ⟨none, printed64 v⟩)) := by
  refine congrArg (chainOf valKnown) ?_
  have hlies : Lies (NxStr.memory (some ((intset size vs).map some))) 0 (intset size vs) :=
    List.prefix_append _ _
  generalize NxStr.memory (some ((intset size vs).map some)) = mem at hlies
  obtain ⟨hwidth, hrest⟩ := lies_append.1 hlies
  obtain ⟨hcount, helements⟩ := lies_append.1 hrest
  rw [leBytes_length] at hcount helements
  rw [leBytes_length] at helements
  have hloop := intsetLoop_elements (show 0 < size by omega) hvs helements
  rw [intsetElements, bytesAt_eq_ok.2 ⟨leBytes_length _ _, hcount⟩, ok_bind]
  simp only [leNat_leBytes (show vs.length < 256 ^ 4 from hlen)]
  by_cases hnil : vs.length = 0
  · rw [if_pos hnil, List.length_eq_zero_iff.1 hnil]
    rfl
  · rw [if_neg hnil, bytesAt_eq_ok.2 ⟨leBytes_length _ _, hwidth⟩, ok_bind]
    simp only [leNat_leBytes (show size < 256 ^ 4 by omega)]
    have hsizes : (if size = 8 then 8 else if size = 4 then 4 else 2) = size := by
      rcases hsize with rfl | rfl | rfl <;> rfl
    rw [hsizes]
    exact hloop

end Intsets

/-- What a compact value holds, by the format. -/
inductive CompactValue
  | zipmap (count : UInt8) (fill : Nat → Nat → UInt8) (pairs : List ZmPair)
  | ziplist (header : List UInt8) (hheader : header.length = ziplistHeaderSize)
      (entries : List ZlEntry)
  | ziplistPairs (type : UInt8) (htype : type = rdbTypeZsetZiplist ∨ type = rdbTypeHashZiplist)
      (header : List UInt8) (hheader : header.length = ziplistHeaderSize) (entries : List ZlEntry)
      (heven : Even entries.length)
  | intset (size : Nat) (hsize : size = 2 ∨ size = 4 ∨ size = 8) (vs : List Int)
      (hvs : ∀ v ∈ vs, IsSigned (8 * size) v) (hlen : vs.length < 2 ^ 32)

namespace CompactValue

def type : CompactValue → UInt8
  | zipmap _ _ _ => rdbTypeHashZipmap
  | ziplist _ _ _ => rdbTypeListZiplist
  | ziplistPairs type _ _ _ _ _ => type
  | intset _ _ _ _ _ => rdbTypeSetIntset

/-- The string that the value is stored as. -/
def bytes : CompactValue → List UInt8
  | zipmap count fill pairs => Rdb.zipmap count fill pairs
  | ziplist header _ entries => Rdb.ziplist header entries
  | ziplistPairs _ _ header _ entries _ => Rdb.ziplist header entries
  | intset size _ vs _ _ => Rdb.intset size vs

/-- Its elements, an integer as its decimal. -/
def kvs : CompactValue → List RdbKv
  | zipmap _ _ pairs => pairs.map ZmPair.load
  | ziplist _ _ entries => entries.map fun e => ⟨none, some (e.value.text.map some)⟩
  | ziplistPairs _ _ _ _ entries _ => (consecutive entries).map fun p =>
      ⟨some (p.1.value.text.map some), some (p.2.value.text.map some)⟩
  | intset _ _ vs _ _ => vs.map fun v => ⟨none, some ((decimalInt v).map some)⟩

def load : CompactValue → NxStr → Option (List RdbKv)
  | zipmap _ _ _ => loadZipmap
  | ziplist _ _ _ => loadZiplistListOrSet
  | ziplistPairs _ _ _ _ _ _ => loadZiplistHashOrZset
  | intset _ _ _ _ _ => loadIntset

/-- The elements are handed out as they are: no integer is printed as another text, and what the
loader takes a zipmap for are its pairs. -/
def Exact : CompactValue → Prop
  | zipmap count fill pairs =>
    ZmReads ((Rdb.zipmap count fill pairs ++ [0]).drop 1) (pairs.map ZmPair.load)
  | ziplist _ _ entries => ∀ e ∈ entries, e.value.Exact
  | ziplistPairs _ _ _ _ entries _ => ∀ e ∈ entries, e.value.Exact
  | intset _ _ vs _ _ => ∀ v ∈ vs, v ≠ 0 ∧ v ≠ -2 ^ 63

theorem loaderOf_type (c : CompactValue) : loaderOf c.type = some c.load := by
  cases c with
  | ziplistPairs type htype => rcases htype with rfl | rfl <;> rfl
  | _ => rfl

theorem forall_consecutive {α : Type*} {l : List α} {P : α → Prop} (heven : Even l.length) :
    (∀ p ∈ consecutive l, P p.1 ∧ P p.2) ↔ ∀ a ∈ l, P a := by
  induction l using consecutive.induct with
  | case1 a b l ih =>
    rw [List.length_cons, List.length_cons, Nat.even_add_one, Nat.even_add_one, not_not] at heven
    rw [consecutive, List.forall_mem_cons, List.forall_mem_cons, List.forall_mem_cons, ih heven, and_assoc]
  | case2 l hl =>
    cases l with
    | nil => simp [consecutive]
    | cons a l =>
      cases l with
      | nil => exact absurd heven Nat.not_even_one
      | cons b l => exact absurd rfl (hl a b l)

/-- The chain of a loader is the elements if and only if each of them is. -/
theorem chain_iff {α : Type} {known : RdbKv → Bool} {loaded own : α → RdbKv} {xs : List α}
    (hknown : ∀ x, known (own x) = true) :
    chainOf known (.ok (xs.map loaded)) = some (xs.map own) ↔ ∀ x ∈ xs, loaded x = own x := by
  rw [chainOf_eq_some, List.map_inj_left]
  refine and_iff_left_of_imp fun h => ?_
  rw [List.map_congr_left h, List.all_map, List.all_eq_true]
  exact fun x _ => hknown x

theorem load_bytes_iff {c : CompactValue} : c.load (some (c.bytes.map some)) = some c.kvs ↔ c.Exact := by
  cases c with
  | zipmap count fill pairs => exact loadZipmap_iff
  | ziplist header hheader entries =>
    rw [load, bytes, kvs, Exact, loadZiplistListOrSet_entries hheader, chain_iff fun _ => rfl]
    refine forall₂_congr fun e _ => ?_
    rw [← ZlValue.loaded_eq_text_iff, RdbKv.mk.injEq, and_iff_right rfl]
  | ziplistPairs type htype header hheader entries heven =>
    rw [load, bytes, kvs, Exact, loadZiplistHashOrZset_entries hheader heven, chain_iff fun _ => rfl,
      ← @forall_consecutive _ entries (fun e => e.value.Exact) heven]
    refine forall₂_congr fun p _ => ?_
    rw [← ZlValue.loaded_eq_text_iff, ← ZlValue.loaded_eq_text_iff, RdbKv.mk.injEq]
  | intset size hsize vs hvs hlen =>
    rw [load, bytes, kvs, Exact, loadIntset_elements hsize hvs hlen, chain_iff fun _ => rfl]
    refine forall₂_congr fun v _ => ?_
    rw [← printed64_eq_iff, RdbKv.mk.injEq, and_iff_right rfl]

end CompactValue

theorem decimalInt_bytes {v : Int} : ∀ b ∈ decimalInt v, 45 ≤ b ∧ b ≠ 255 := by
  have hdecimal : ∀ n, ∀ b ∈ decimal n, 45 ≤ b ∧ b ≠ 255 := by
    intro n b hb
    obtain ⟨ds, heq, -, hall, -⟩ := decimalAux_spec (Nat.lt_succ_self n) []
    rw [decimal, heq, List.append_nil] at hb
    have hdigit := hall b hb
    rw [isDigit, Bool.and_eq_true, decide_eq_true_iff, decide_eq_true_iff, UInt8.le_iff_toNat_le,
      UInt8.le_iff_toNat_le] at hdigit
    obtain ⟨hlow, hhigh⟩ : 48 ≤ b.toNat ∧ b.toNat ≤ 57 := hdigit
    refine ⟨UInt8.le_iff_toNat_le.2 (show 45 ≤ b.toNat by omega), ?_⟩
    rintro rfl
    exact absurd hhigh (by decide)
  intro b hb
  rw [decimalInt] at hb
  split at hb
  · rcases List.mem_cons.1 hb with rfl | hb
    · decide
    · exact hdecimal _ b hb
  · exact hdecimal _ b hb

/-- A compact value is not stored as an integer. -/
theorem CompactValue.bytes_ne_decimal (c : CompactValue) (v : Int) : c.bytes ≠ decimalInt v := by
  have hzipmap : ∀ fill pairs, 0xff ∈ zipmapEntries fill pairs := by
    intro fill pairs
    induction pairs generalizing fill with
    | nil => exact List.mem_singleton_self _
    | cons kv pairs ih =>
      exact List.mem_append_right _ (List.mem_append_right _ (ih _))
  have hziplist : ∀ header entries, 0xff ∈ Rdb.ziplist header entries := fun header entries =>
    List.mem_append_right _ (List.mem_append_right _ (List.mem_singleton_self _))
  intro heq
  have hno := heq ▸ @decimalInt_bytes v
  cases c with
  | zipmap count fill pairs => exact (hno 255 (List.mem_cons_of_mem _ (hzipmap fill pairs))).2 rfl
  | ziplist header hheader entries => exact (hno 255 (hziplist header entries)).2 rfl
  | ziplistPairs type htype header hheader entries heven => exact (hno 255 (hziplist header entries)).2 rfl
  | intset size hsize vs hvs hlen =>
    have hfirst : UInt8.ofNat size ∈ Rdb.intset size vs :=
      List.mem_append_left _ (List.mem_cons_self ..)
    have hlow := (hno _ hfirst).1
    rcases hsize with rfl | rfl | rfl <;> exact absurd hlow (by decide)

end KjRedis.Rdb
