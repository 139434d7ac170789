import KjRedis.Rdb.BodyReader
import KjRedis.Rdb.Values

/-! Records of a file, and the objects that are handed out for them. -/
namespace KjRedis.Rdb

open Resumption

/-- A record of a file. -/
inductive RdbRecord
  | aux (key val : RdbElement)
  | selectDb (len : List UInt8) (n : Nat) (hlen : IsRdbLength len n)
  | expire (time : List UInt8) (h : time.length = 4)
  | expireMs (time : List UInt8) (h : time.length = 8)
  | kv (key : RdbElement) (v : RdbValue)

namespace RdbRecord

def type : RdbRecord → UInt8
  | aux _ _ => rdbOpcodeAux
  | selectDb _ _ _ => rdbOpcodeSelectdb
  | expire _ _ => rdbOpcodeExpiretime
  | expireMs _ _ => rdbOpcodeExpiretimeMs
  | kv _ v => v.type

def detail : RdbRecord → List UInt8
  | aux key val => key.encode ++ val.encode
  | selectDb len _ _ => len
  | expire time _ => time
  | expireMs time _ => time
  | kv key v => key.encode ++ v.encode

def encode (r : RdbRecord) : List UInt8 := r.type :: r.detail

/-- The object that holds the record. -/
def object (r : RdbRecord) : RdbObject :=
  let o := { RdbObject.init with type := r.type }
  match r with
  | aux key val => { o with auxKey := key.value, auxVal := val.value }
  | selectDb _ n _ => { o with dbSelector := n }
  | expire time _ => { o with expire := signed 32 (beNat time % 2 ^ 32) }
  | expireMs time _ => { o with expire := signed 32 (beNat time / 1000 % 2 ^ 32) }
  | kv key v => v.object { o with key := key.value }

def IsAux : RdbRecord → Prop
  | aux _ _ => True
  | _ => False

end RdbRecord

theorem RdbValue.isKvType (v : RdbValue) : isKvType v.type = true := by
  cases v with
  | string e => rfl
  | listOrSet type htype | hashOrZset type htype => rcases htype with rfl | rfl <;> rfl
  | compact type load hloader =>
    cases loads_of_loaderOf hloader with
    | zipmap | list | intset | zset | hash => rfl

/-- The types of records are told apart. -/
theorem RdbRecord.type_ne (r : RdbRecord) :
    r.type ≠ rdbOpcodeEof ∧ (¬ r.IsAux → r.type ≠ rdbOpcodeAux) := by
  cases r with
  | aux key val => exact ⟨by show rdbOpcodeAux ≠ rdbOpcodeEof; decide, fun h => absurd trivial h⟩
  | selectDb len n hlen => exact ⟨by show rdbOpcodeSelectdb ≠ rdbOpcodeEof; decide,
      fun _ => by show rdbOpcodeSelectdb ≠ rdbOpcodeAux; decide⟩
  | expire time h => exact ⟨by show rdbOpcodeExpiretime ≠ rdbOpcodeEof; decide,
      fun _ => by show rdbOpcodeExpiretime ≠ rdbOpcodeAux; decide⟩
  | expireMs time h => exact ⟨by show rdbOpcodeExpiretimeMs ≠ rdbOpcodeEof; decide,
      fun _ => by show rdbOpcodeExpiretimeMs ≠ rdbOpcodeAux; decide⟩
  | kv key v =>
    have hkv := v.isKvType
    refine ⟨fun heof => ?_, fun _ haux => ?_⟩
    · rw [show v.type = rdbOpcodeEof from heof] at hkv
      cases hkv
    · rw [show v.type = rdbOpcodeAux from haux] at hkv
      cases hkv

theorem readDetail_kv {type : UInt8} (hkv : isKvType type = true) (bb : List UInt8) :
    readDetail type bb = readKv type bb := by
  have hne : ∀ {opcode}, isKvType opcode = false → type ≠ opcode := by
    rintro opcode hopcode rfl
    rw [hkv] at hopcode
    cases hopcode
  rw [readDetail, if_neg (hne rfl), if_neg (hne rfl), if_neg (not_or.2 ⟨hne rfl, hne rfl⟩), if_pos hkv]

theorem readDetail_selectDb {len : List UInt8} {n : Nat} (hlen : IsRdbLength len n) (rest : List UInt8) :
    readDetail rdbOpcodeSelectdb (len ++ rest) = .done (fun o => { o with dbSelector := n }) rest := by
  show readSelector (len ++ rest) = _
  rw [readSelector, readLen_length hlen]
  rfl

theorem readDetail_time {type : UInt8} {time : List UInt8}
    (htype : type = rdbOpcodeExpiretime ∨ type = rdbOpcodeExpiretimeMs)
    (h : time.length = expireBytes type) (rest : List UInt8) :
    readDetail type (time ++ rest) = .done (fun o => { o with expire := expireOf type time }) rest := by
  have hread : readDetail type (time ++ rest) = readExpire type (time ++ rest) := by
    rcases htype with rfl | rfl <;> rfl
  have hlong : ¬ (time ++ rest).length < expireBytes type := by
    rw [List.length_append, h]
    omega
  rw [hread, readExpire, if_neg hlong, List.take_left' h, List.drop_left' h]

/-- The detail of a record that is no auxiliary one is read to its end. -/
theorem readDetail_record {r : RdbRecord} (hplain : ¬ r.IsAux) (rest : List UInt8) :
    ∃ f, readDetail r.type (r.detail ++ rest) = .done f rest ∧
      f { RdbObject.init with type := r.type } = r.object := by
  cases r with
  | aux key val => exact absurd trivial hplain
  | selectDb len n hlen => exact ⟨_, readDetail_selectDb hlen rest, rfl⟩
  | expire time h => exact ⟨_, readDetail_time (Or.inl rfl) h rest, rfl⟩
  | expireMs time h => exact ⟨_, readDetail_time (Or.inr rfl) h rest, rfl⟩
  | kv key v =>
    refine ⟨fun o => v.object { o with key := key.value }, ?_, rfl⟩
    show readDetail v.type (key.encode ++ v.encode ++ rest) = _
    rw [readDetail_kv v.isKvType, readKv, List.append_assoc, key.readString]
    simp only [Read.bind, readKvVal_encode, Read.map]

/-- What a parser shows when it has given `o` to the callback. -/
structure Gave (o : RdbObject) (taken : Nat) (rp rp' : RdbParser) : Prop where
  walked : rp'.walked = rp.walked ++ [o]
  state : rp'.state = rp.state
  version : rp'.version = rp.version
  parsed : rp'.parsed = rp.parsed + taken

section Records

variable (cb : List RdbObject → Bool) {rp : RdbParser}

/-- The two rounds on a record: what follows is up to the callback. -/
theorem record_rounds {r : RdbRecord} (hplain : ¬ r.IsAux) (h : Awaits rp) (rest : List UInt8) :
    ∃ rp₁ rp₂, Entered rp rp₁ ∧ AtTop 0 rp₂ ∧ Gave r.object r.encode.length rp (given rp₂) ∧
      ∀ out, Runs (builderLoop (bodyBody cb) 0) rp₁ (r.encode ++ rest) out ↔
        if cb (rp.walked ++ [r.object]) then Runs (builderLoop (bodyBody cb) 0) (taken rp₂) rest out
        else (.abort, given rp₂, rest) = out := by
  obtain ⟨rp₁, hentered⟩ := h.enter
  obtain ⟨f, hread, hf⟩ := readDetail_record hplain rest
  have hobject : (typed r.type rp₁).o = { RdbObject.init with type := r.type } := by
    rw [← h.object, ← hentered.same.o]
    rfl
  have htype : (typed r.type rp₁).o.type = r.type := rfl
  obtain ⟨rp₂, hdone, hparsed, hround⟩ := detail_over cb (hentered.top.typed r.type)
    (by rw [typed_slot]) (htype ▸ r.type_ne.2 hplain) (htype ▸ r.type_ne.1) (htype.symm ▸ hread)
  have hwalked : (typed r.type rp₁).walked = rp.walked := hentered.same.walked
  have ho₂ : rp₂.o = r.object := by
    rw [hdone.same.o]
    show f (typed r.type rp₁).o = _
    rw [hobject, hf]
  rw [hobject, hf, hwalked] at hround
  have hfirst : Runs (bodyBody cb 0) rp₁ (r.encode ++ rest) (.again, typed r.type rp₁, r.detail ++ rest) :=
    (bodyBody_idle cb hentered.builder).2 rfl
  refine ⟨rp₁, rp₂, hentered, hdone.atTop (hentered.top.typed r.type), ?_, fun out => ?_⟩
  · refine ⟨?_, hdone.same.state.trans hentered.same.state, hdone.same.version.trans hentered.same.version,
      ?_⟩
    · show rp₂.walked ++ [rp₂.o] = _
      rw [hdone.same.walked, ho₂]
      exact congrArg (· ++ [r.object]) hwalked
    · have hstart : (typed r.type rp₁).parsed = rp.parsed + 1 := congrArg (· + 1) hentered.parsed
      rw [hstart, List.length_append] at hparsed
      show rp₂.parsed = rp.parsed + (r.detail.length + 1)
      omega
  · rw [hfirst.more_iff rfl]
    by_cases hcb : cb (rp.walked ++ [r.object]) = true
    · rw [if_pos hcb] at hround ⊢
      exact hround.more_iff rfl
    · rw [if_neg hcb] at hround ⊢
      exact hround.loop_iff

/-- The callback takes the record, and the builder awaits the next one. -/
theorem record_accepted {r : RdbRecord} (hplain : ¬ r.IsAux) (h : Awaits rp)
    (haccept : cb (rp.walked ++ [r.object]) = true) (rest : List UInt8) :
    ∃ rp', Awaits rp' ∧ Gave r.object r.encode.length rp rp' ∧
      ∀ out, Runs (buildBody cb) rp (r.encode ++ rest) out ↔ Runs (buildBody cb) rp' rest out := by
  obtain ⟨rp₁, rp₂, hentered, htop, hgave, hrounds⟩ := record_rounds cb hplain h rest
  refine ⟨taken rp₂, ⟨rfl, Or.inr ⟨htop.taken, Or.inr (by rw [taken_slot])⟩⟩,
    ⟨hgave.walked, hgave.state, hgave.version, hgave.parsed⟩, ?_⟩
  rintro ⟨rc, t, left⟩
  rw [buildBody, runs_obLoop hentered.alloc, runs_obLoop htop.taken.enter, runs_andThen, runs_andThen]
  refine exists_congr fun _ => exists_congr fun _ => and_congr_left' ?_
  rw [hrounds, if_pos haccept]

/-- The callback refuses the record. -/
theorem record_refused {r : RdbRecord} (hplain : ¬ r.IsAux) (h : Awaits rp)
    (hrefuse : cb (rp.walked ++ [r.object]) = false) (rest : List UInt8) :
    ∃ rp', Gave r.object r.encode.length rp rp' ∧
      Runs (buildBody cb) rp (r.encode ++ rest) (.abort, rp', rest) := by
  obtain ⟨rp₁, rp₂, hentered, htop, hgave, hrounds⟩ := record_rounds cb hplain h rest
  refine ⟨given rp₂, hgave, ?_⟩
  rw [buildBody, runs_obLoop hentered.alloc, runs_andThen]
  refine ⟨.abort, given rp₂, (hrounds _).2 ?_, rfl⟩
  rw [if_neg (Bool.eq_false_iff.1 hrefuse)]

end Records

end KjRedis.Rdb
