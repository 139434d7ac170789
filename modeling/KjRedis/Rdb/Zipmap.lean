import KjRedis.Rdb.Layout

/-! Zipmaps: the layout, and what `load_zipmap` makes of it. -/
namespace KjRedis.Rdb

variable {mem : Memory} {zm fuel n : Nat} {bs : List UInt8}

/-- A length: a byte, or the marker `ZM_BIGLEN` and four bytes. -/
inductive IsZmLength : List UInt8 → Nat → Prop
  | byte {n : Nat} (h : n < 0xfd) : IsZmLength [UInt8.ofNat n] n
  | marked {n : Nat} (h : n < 2 ^ 32) : IsZmLength (0xfd :: leBytes 4 n) n

/-- A pair, with the count of the bytes after its value that are not in use. -/
structure ZmPair where
  keyLen : List UInt8
  key : List UInt8
  valLen : List UInt8
  val : List UInt8
  free : Nat
  hkey : IsZmLength keyLen key.length
  hval : IsZmLength valLen val.length
  hfree : free < 2 ^ 8

def ZmPair.encode (kv : ZmPair) : List UInt8 :=
  kv.keyLen ++ (kv.key ++ (kv.valLen ++ (UInt8.ofNat kv.free :: kv.val)))

/-- The bytes that are not in use can be any: `fill i` are those of the `i`-th pair. -/
def zipmapEntries (fill : Nat → Nat → UInt8) : List ZmPair → List UInt8
  | [] => [0xff]
  | kv :: kvs =>
    kv.encode ++ ((List.range kv.free).map (fill 0) ++ zipmapEntries (fun i => fill (i + 1)) kvs)

def zipmap (count : UInt8) (fill : Nat → Nat → UInt8) (kvs : List ZmPair) : List UInt8 :=
  count :: zipmapEntries fill kvs

def ZmPair.load (kv : ZmPair) : RdbKv := ⟨some (kv.key.map some), some (kv.val.map some)⟩

/-- Whatever the bytes that are not in use, the pairs are recovered. -/
def RecoversPairs (count : UInt8) (kvs : List ZmPair) : Prop :=
  ∀ fill, Recovers loadZipmap (zipmap count fill kvs) (kvs.map ZmPair.load)

/-- Its lengths are an `int` and one more, and all bytes are in use. -/
structure ZmPair.Packed (kv : ZmPair) : Prop where
  key : kv.key.length + 1 < 2 ^ 31
  val : kv.val.length + 1 < 2 ^ 31
  free : kv.free = 0

theorem zipmapEntry_length (hlen : IsZmLength bs n) (h : Lies mem zm bs) :
    zipmapEntry mem zm = .ok (bs.length, n) := by
  cases hlen with
  | byte hn =>
    have htoNat : (UInt8.ofNat n).toNat = n := by
      rw [UInt8.toNat_ofNat']
      omega
    rw [zipmapEntry, byteAt_eq_ok.2 h, ok_bind,
      if_pos (by rw [UInt8.lt_iff_toNat_lt, htoNat]; exact hn), htoNat]
    rfl
  | marked hn =>
    obtain ⟨hmark, hbytes⟩ := lies_cons.1 h
    rw [zipmapEntry, byteAt_eq_ok.2 hmark, ok_bind, if_neg (by decide), if_pos rfl,
      bytesAt_eq_ok.2 ⟨leBytes_length 4 n, hbytes⟩, ok_bind, leNat_leBytes hn, List.length_cons,
      leBytes_length]
    rfl

theorem isZmLength_head (hlen : IsZmLength bs n) : ∃ c tail, bs = c :: tail ∧ c ≠ 0xff := by
  cases hlen with
  | byte hn =>
    refine ⟨_, _, rfl, ?_⟩
    intro heq
    have htoNat := congrArg UInt8.toNat heq
    rw [UInt8.toNat_ofNat', show UInt8.toNat 0xff = 255 from rfl] at htoNat
    omega
  | marked => exact ⟨_, _, rfl, by decide⟩

theorem copyInt_lies (hzm : zm ≤ mem.length) (h : Lies mem zm bs) (hlen : bs.length + 1 < 2 ^ 31) :
    copyInt mem zm bs.length = .ok (bs.map some) := by
  rw [copyInt, if_neg (by omega), if_neg (by omega), copyAt_lies hzm h]

theorem copyInt_long (hlen : ¬ n + 1 < 2 ^ 31) : ∃ e, copyInt mem zm n = .error e := by
  rw [copyInt]
  by_cases h : 2 ^ 31 ≤ n
  · exact ⟨_, if_pos h⟩
  · rw [if_neg h, if_pos (by omega)]
    exact ⟨_, rfl⟩

/-- A round on a pair: it is loaded, and the loop goes on behind its value. -/
theorem zipmapLoop_pair {kv : ZmPair} {loaded : List RdbKv} (h : Lies mem zm kv.encode) :
    zipmapLoop mem (fuel + 1) zm = .ok loaded ↔
      kv.key.length + 1 < 2 ^ 31 ∧ kv.val.length + 1 < 2 ^ 31 ∧
        ∃ rest, zipmapLoop mem fuel (zm + kv.encode.length) = .ok rest ∧ loaded = kv.load :: rest := by
  obtain ⟨hkeyLen, hrest⟩ := lies_append.1 h
  obtain ⟨hkey, hrest⟩ := lies_append.1 hrest
  obtain ⟨hvalLen, hrest⟩ := lies_append.1 hrest
  obtain ⟨hfree, hval⟩ := lies_cons.1 hrest
  obtain ⟨c, tail, hc, hnotEnd⟩ := isZmLength_head kv.hkey
  have hbyte : byteAt mem zm = .ok c := by
    rw [hc] at hkeyLen
    exact byteAt_eq_ok.2 (lies_cons.1 hkeyLen).1
  have hlt := hfree.lt
  have hend : zm + kv.keyLen.length + kv.key.length + kv.valLen.length + kv.val.length + 1 =
      zm + kv.encode.length := by
    rw [ZmPair.encode]
    simp only [List.length_append, List.length_cons]
    omega
  rw [zipmapLoop, hbyte, ok_bind, if_neg hnotEnd, zipmapEntry_length kv.hkey hkeyLen, ok_bind]
  simp only
  by_cases hk : kv.key.length + 1 < 2 ^ 31
  · rw [copyInt_lies (by omega) hkey hk, ok_bind, zipmapEntry_length kv.hval hvalLen, ok_bind]
    simp only
    by_cases hv : kv.val.length + 1 < 2 ^ 31
    · rw [copyInt_lies (by omega) hval hv, ok_bind, hend, bind_eq_ok]
      constructor
      · rintro ⟨rest, hloop, hloaded⟩
        cases hloaded
        exact ⟨hk, hv, rest, hloop, rfl⟩
      · rintro ⟨-, -, rest, hloop, rfl⟩
        exact ⟨rest, hloop, rfl⟩
    · obtain ⟨e, he⟩ := @copyInt_long mem (zm + kv.keyLen.length + kv.key.length + kv.valLen.length + 1)
        _ hv
      rw [he, error_bind]
      constructor
      · intro hloop
        cases hloop
      · intro hloop
        exact absurd hloop.2.1 hv
  · obtain ⟨e, he⟩ := @copyInt_long mem (zm + kv.keyLen.length) _ hk
    rw [he, error_bind]
    constructor
    · intro hloop
      cases hloop
    · intro hloop
      exact absurd hloop.1 hk

/-- At the end the loop stops. -/
theorem zipmapLoop_end (h : Lies mem zm [0xff]) : zipmapLoop mem (fuel + 1) zm = .ok [] := by
  rw [zipmapLoop, byteAt_eq_ok.2 h, ok_bind, if_pos rfl]
  rfl

/-- A byte `0xfe` is taken for the length of a key, which is empty. -/
theorem zipmapLoop_fe (h : Lies mem zm [0xfe]) : zipmapLoop mem fuel zm ≠ .ok [] := by
  intro hloop
  cases fuel with
  | zero => cases hloop
  | succ fuel =>
    rw [zipmapLoop, byteAt_eq_ok.2 h, ok_bind, if_neg (by decide)] at hloop
    obtain ⟨_, -, hloop⟩ := bind_eq_ok.1 hloop
    obtain ⟨_, -, hloop⟩ := bind_eq_ok.1 hloop
    obtain ⟨_, -, hloop⟩ := bind_eq_ok.1 hloop
    obtain ⟨_, -, hloop⟩ := bind_eq_ok.1 hloop
    obtain ⟨_, -, hloop⟩ := bind_eq_ok.1 hloop
    cases hloop

theorem zipmapLoop_packed {fill : Nat → Nat → UInt8} {kvs : List ZmPair}
    (hpacked : ∀ kv ∈ kvs, kv.Packed) (hfuel : kvs.length < fuel)
    (h : Lies mem zm (zipmapEntries fill kvs)) :
    zipmapLoop mem fuel zm = .ok (kvs.map ZmPair.load) := by
  obtain ⟨fuel, rfl⟩ := Nat.exists_eq_succ_of_ne_zero (Nat.ne_zero_of_lt hfuel)
  induction kvs generalizing fill zm fuel with
  | nil => exact zipmapLoop_end h
  | cons kv kvs ih =>
    obtain ⟨hpair, hrest⟩ := lies_append.1 h
    have hkv := hpacked kv List.mem_cons_self
    rw [hkv.free] at hrest
    obtain ⟨fuel, rfl⟩ := Nat.exists_eq_succ_of_ne_zero
      (Nat.ne_zero_of_lt (Nat.lt_of_succ_lt_succ hfuel))
    have hloop := ih (fun kv h => hpacked kv (List.mem_cons_of_mem _ h)) hrest fuel
      (Nat.lt_of_succ_lt_succ hfuel)
    exact (zipmapLoop_pair hpair).2 ⟨hkv.key, hkv.val, _, hloop, rfl⟩

/-- With `0xff` in the place of the bytes that are not in use the loop ends there, and with `0xfe`
it loads a pair more: only a list without such bytes is loaded either way. -/
theorem packed_of_zipmapLoop {mem' : Memory} {fuel' : Nat} {kvs : List ZmPair}
    (h : Lies mem zm (zipmapEntries (fun _ _ => 0xff) kvs))
    (h' : Lies mem' zm (zipmapEntries (fun _ _ => 0xfe) kvs))
    (hloop : zipmapLoop mem fuel zm = .ok (kvs.map ZmPair.load))
    (hloop' : zipmapLoop mem' fuel' zm = .ok (kvs.map ZmPair.load)) : ∀ kv ∈ kvs, kv.Packed := by
  induction kvs generalizing zm fuel fuel' with
  | nil =>
    intro kv hkv
    cases hkv
  | cons kv kvs ih =>
    cases fuel with
    | zero => cases hloop
    | succ fuel =>
      cases fuel' with
      | zero => cases hloop'
      | succ fuel' =>
        obtain ⟨hpair, hrest⟩ := lies_append.1 h
        obtain ⟨hpair', hrest'⟩ := lies_append.1 h'
        obtain ⟨hkey, hval, rest, hnext, hrest₁⟩ := (zipmapLoop_pair hpair).1 hloop
        obtain ⟨-, -, rest', hnext', hrest₂⟩ := (zipmapLoop_pair hpair').1 hloop'
        obtain rfl : kvs.map ZmPair.load = rest := (List.cons.inj hrest₁).2
        obtain rfl : kvs.map ZmPair.load = rest' := (List.cons.inj hrest₂).2
        cases hfree : kv.free with
        | zero =>
          rw [hfree] at hrest hrest'
          intro kv' hkv'
          rcases List.mem_cons.1 hkv' with rfl | hkv'
          · exact ⟨hkey, hval, hfree⟩
          · exact ih hrest hrest' hnext hnext' kv' hkv'
        | succ free =>
          rw [hfree, List.range_succ_eq_map] at hrest hrest'
          cases fuel with
          | zero => cases hnext
          | succ fuel =>
            have hnil := @zipmapLoop_end mem _ fuel (lies_cons.1 hrest).1
            rw [hnil] at hnext
            rw [← Except.ok.inj hnext] at hnext'
            exact absurd hnext' (zipmapLoop_fe (lies_cons.1 hrest').1)

variable {count : UInt8} {fill : Nat → Nat → UInt8} {kvs : List ZmPair}

theorem lies_zipmap : Lies (NxStr.memory (some ((zipmap count fill kvs).map some))) 1
    (zipmapEntries fill kvs) := ⟨[some 0], rfl⟩

theorem zipmap_length_lt : kvs.length < (NxStr.memory (some ((zipmap count fill kvs).map some))).length + 1 := by
  have hle : kvs.length ≤ (zipmapEntries fill kvs).length := by
    induction kvs generalizing fill with
    | nil => exact Nat.zero_le _
    | cons kv kvs ih =>
      have hrest := @ih fun i => fill (i + 1)
      rw [zipmapEntries, ZmPair.encode]
      simp only [List.length_append, List.length_cons]
      omega
  rw [NxStr.memory, Option.getD_some, List.length_append, List.length_map, zipmap, List.length_cons]
  omega

/-- The pairs are recovered whatever the bytes that are not in use if and only if there are none,
and no length exceeds an `int`: the loader skips their count, not these. -/
theorem recoversPairs_iff : RecoversPairs count kvs ↔ ∀ kv ∈ kvs, kv.Packed := by
  constructor
  · intro h
    have hloop : ∀ c : UInt8, zipmapPairs
        (NxStr.memory (some ((zipmap count (fun _ _ => c) kvs).map some))) =
          .ok (kvs.map ZmPair.load) := by
      intro c
      have hload := recovers_iff.1 (h fun _ _ => c)
      rw [loadZipmap] at hload
      cases hpairs : zipmapPairs
          (NxStr.memory (some ((zipmap count (fun _ _ => c) kvs).map some))) with
      | error e =>
        rw [hpairs] at hload
        cases hload
      | ok loaded =>
        rw [hpairs] at hload
        cases hload
        rfl
    exact packed_of_zipmapLoop lies_zipmap lies_zipmap (hloop 0xff) (hloop 0xfe)
  · intro hpacked fill
    rw [recovers_iff, loadZipmap, zipmapPairs, zipmapLoop_packed hpacked zipmap_length_lt lies_zipmap]
    rfl

/-- The pair `a` and `b`, and one byte that is not in use. -/
def roomy : ZmPair :=
  { keyLen := [1], key := [97], valLen := [1], val := [98], free := 1
    hkey := .byte (by decide), hval := .byte (by decide), hfree := by decide }

/-- The byte that is not in use is taken for the length of a key, and what follows the map is read. -/
theorem not_recoversPairs : ¬ ∀ count kvs, RecoversPairs count kvs := by
  intro h
  have hload := recovers_iff.1 (h 1 [roomy] fun _ _ => 0)
  have hnone : loadZipmap (some ((zipmap 1 (fun _ _ => 0) [roomy]).map some)) = none := by
    decide +kernel
  rw [hnone] at hload
  cases hload

end KjRedis.Rdb
