import KjRedis.Rdb.FileReader
import KjRedis.Rdb.Stored

/-! A whole file is walked record after record, if none of them is an auxiliary one and each is handed
out as it is. -/
namespace KjRedis.Rdb

open Resumption

section Streams

variable {rs : List StoredRecord} {rest : List UInt8}

/-- Records up to the end of the file. -/
def encodeRecords (rs : List StoredRecord) : List UInt8 :=
  rs.flatMap StoredRecord.encode ++ [rdbOpcodeEof]

/-- A header, records and the end of the file, with anything behind it. -/
def encodeFile (version : List UInt8) (rs : List StoredRecord) (rest : List UInt8) : List UInt8 :=
  magicStr ++ version ++ (encodeRecords rs ++ rest)

theorem encodeRecords_cons (r : StoredRecord) (rs : List StoredRecord) (rest : List UInt8) :
    encodeRecords (r :: rs) ++ rest = r.type :: (r.detail ++ (encodeRecords rs ++ rest)) := by
  rw [encodeRecords, List.flatMap_cons, List.append_assoc, List.append_assoc]
  exact congrArg (r.encode ++ ·) (List.append_assoc _ _ _).symm

theorem readRecord_nil (cb : List RdbObject → Bool) (walked : List RdbObject) :
    readRecord cb walked (encodeRecords [] ++ rest) = .done (.finished walked) rest := by
  show readRecords cb walked { RdbObject.init with type := rdbOpcodeEof } rest = _
  rw [readRecords, if_pos rfl]

/-- A record that something is made of is followed by the others. -/
theorem readRecord_cons {r : StoredRecord} (hplain : ¬ r.IsAux) (walked : List RdbObject) :
    readRecord (fun _ => true) walked (encodeRecords (r :: rs) ++ rest) = r.made.elim .stray fun f =>
      readRecord (fun _ => true) (walked ++ [f r.empty]) (encodeRecords rs ++ rest) := by
  rw [encodeRecords_cons]
  show readRecords (fun _ => true) walked r.empty _ = _
  rw [readRecords_eq _ _ r.type_ne_eof]
  show (readDetail r.type _).bind _ = _
  rw [StoredRecord.readDetail_made hplain]
  cases r.made <;> rfl

/-- With an auxiliary record there is no end. -/
theorem readRecord_aux {r : StoredRecord} (haux : r.IsAux) (walked : List RdbObject) {stop : Stop}
    {left : List UInt8} :
    readRecord (fun _ => true) walked (encodeRecords (r :: rs) ++ rest) ≠ .done stop left := by
  intro h
  cases r with
  | aux key val =>
    rw [encodeRecords_cons] at h
    have hread : readRecords (fun _ => true) walked { RdbObject.init with type := rdbOpcodeAux }
        (key.encode ++ val.encode ++ (encodeRecords rs ++ rest)) = .done stop left := h
    rw [readRecords_eq _ _ (by decide)] at hread
    obtain ⟨f, mid, hdetail, -⟩ := Read.bind_eq_done hread
    exact not_readAux_done hdetail
  | selectDb | expire | expireMs | kv => exact haux.elim

/-- The object is what is made of the record. -/
def StoredRecord.Makes (r : StoredRecord) (o : RdbObject) : Prop := ∃ f, r.made = some f ∧ f r.empty = o

theorem readRecord_done_iff {walked : List RdbObject} {stop : Stop} {left : List UInt8} :
    readRecord (fun _ => true) walked (encodeRecords rs ++ rest) = .done stop left ↔
      left = rest ∧ ∃ os, stop = .finished (walked ++ os) ∧ List.Forall₂ StoredRecord.Makes rs os := by
  induction rs generalizing walked with
  | nil =>
    rw [readRecord_nil]
    constructor
    · rintro ⟨⟩
      exact ⟨rfl, [], by rw [List.append_nil], .nil⟩
    · rintro ⟨rfl, os, rfl, hmakes⟩
      cases hmakes
      rw [List.append_nil]
  | cons r rs ih =>
    by_cases haux : r.IsAux
    · refine iff_of_false (readRecord_aux haux walked) ?_
      rintro ⟨-, os, -, hmakes⟩
      cases hmakes with
      | cons hmakes =>
        obtain ⟨f, hf, -⟩ := hmakes
        cases r with
        | aux => cases hf
        | selectDb | expire | expireMs | kv => exact haux
    rw [readRecord_cons haux]
    constructor
    · intro h
      cases hmade : r.made with
      | none =>
        rw [hmade] at h
        cases h
      | some f =>
        rw [hmade] at h
        obtain ⟨rfl, os, rfl, hmakes⟩ := ih.1 h
        exact ⟨rfl, f r.empty :: os, by rw [List.append_assoc, List.singleton_append],
          .cons ⟨f, hmade, rfl⟩ hmakes⟩
    · rintro ⟨rfl, os, rfl, hmakes⟩
      cases hmakes with
      | @cons _ o _ os hfirst hmakes =>
        obtain ⟨f, hmade, rfl⟩ := hfirst
        rw [hmade]
        refine ih.2 ⟨rfl, os, ?_, hmakes⟩
        rw [List.append_assoc, List.singleton_append]

theorem readFile_encode {version : List UInt8} (hversion : version.length = 4) (walked : List RdbObject)
    (cb : List RdbObject → Bool) :
    readFile cb walked (encodeFile version rs rest) = readRecord cb walked (encodeRecords rs ++ rest) := by
  have hhead : (magicStr ++ version).length = 9 := by
    rw [List.length_append, hversion]
    rfl
  have hlong : ¬ (encodeFile version rs rest).length < 9 := by
    rw [encodeFile, List.length_append, hhead]
    omega
  have hmagic : (encodeFile version rs rest).take 5 = magicStr := by
    rw [encodeFile, List.append_assoc]
    exact List.take_left' rfl
  rw [readFile, readHeader, if_neg hlong, if_neg (not_not.2 hmagic), encodeFile, List.drop_left' hhead]
  rfl

end Streams

section Walks

variable {rp : RdbParser} {version : List UInt8}

/-- The callback, which returns 0, is given an object for each record, once and in order, each with the
record's own type and data, and the parser is over. -/
def WalksFile (rp : RdbParser) (version : List UInt8) (rs : List StoredRecord) (rest : List UInt8) : Prop :=
  ∃ rp' os, Runs (rdbParseObjectOnce fun _ => true) rp (encodeFile version rs rest) (.over, rp', rest) ∧
    rp'.state = .over ∧ rp'.walked = rp.walked ++ os ∧ List.Forall₂ StoredRecord.Holds rs os

theorem file_answers (h : Fresh rp) (hversion : version.length = 4) (rs : List StoredRecord)
    (rest : List UInt8) : Answers (fun _ => true) rp (encodeFile version rs rest) Left
      (readRecord (fun _ => true) rp.walked (encodeRecords rs ++ rest)) := by
  have hanswers := @origin_answers (fun _ => true) rp (encodeFile version rs rest) _ h.holds
  rw [Origin.readFile, readFile_encode hversion] at hanswers
  exact hanswers

/-- Objects that are made of records hold them if and only if such an object is to be had of each. -/
theorem exists_forall₂_iff {α β : Type} {R S : α → β → Prop} {xs : List α} :
    (∃ ys, List.Forall₂ R xs ys ∧ List.Forall₂ S xs ys) ↔ ∀ x ∈ xs, ∃ y, R x y ∧ S x y := by
  induction xs with
  | nil => exact iff_of_true ⟨[], .nil, .nil⟩ fun x hx => absurd hx List.not_mem_nil
  | cons x xs ih =>
    rw [List.forall_mem_cons, ← ih]
    constructor
    · rintro ⟨ys, hR, hS⟩
      cases hR with
      | cons hr hR =>
        cases hS with
        | cons hs hS => exact ⟨⟨_, hr, hs⟩, _, hR, hS⟩
    · rintro ⟨⟨y, hr, hs⟩, ys, hR, hS⟩
      exact ⟨y :: ys, .cons hr hR, .cons hs hS⟩

theorem walksFile_iff_makes (h : Fresh rp) (hversion : version.length = 4) {rs : List StoredRecord}
    {rest : List UInt8} : WalksFile rp version rs rest ↔
      ∃ os, List.Forall₂ StoredRecord.Makes rs os ∧ List.Forall₂ StoredRecord.Holds rs os := by
  have hanswers := file_answers h hversion rs rest
  constructor
  · rintro ⟨rp', os, hrun, -, hwalked, hholds⟩
    rcases hanswers.of_runs _ hrun with ⟨stop, hread, -, hleft⟩ | ⟨-, hcode⟩ | ⟨-, herror, -⟩ | ⟨-, hcode⟩
    · obtain ⟨-, os', rfl, hmakes⟩ := readRecord_done_iff.1 hread
      obtain ⟨-, hall⟩ : rp'.state = .over ∧ rp'.walked = rp.walked ++ os' := hleft
      rw [List.append_cancel_left (hwalked.symm.trans hall)] at hholds
      exact ⟨os', hmakes, hholds⟩
    · cases hcode
    · cases herror
    · cases hcode
  · rintro ⟨os, hmakes, hholds⟩
    rw [readRecord_done_iff.2 ⟨rfl, os, rfl, hmakes⟩] at hanswers
    obtain ⟨rp', hrun, hstate, hwalked⟩ := hanswers
    exact ⟨rp', os, hrun, hstate, hwalked, hholds⟩

/-- A file is walked if and only if it has no auxiliary record and its strings and values are handed
out as they are. -/
theorem walksFile_iff (h : Fresh rp) (hversion : version.length = 4) (rs : List StoredRecord)
    (rest : List UInt8) : WalksFile rp version rs rest ↔ ∀ r ∈ rs, ¬ r.IsAux ∧ r.Exact := by
  rw [walksFile_iff_makes h hversion, exists_forall₂_iff]
  refine forall₂_congr fun r _ => ?_
  rw [← StoredRecord.made_iff]
  constructor
  · rintro ⟨_, ⟨f, hmade, rfl⟩, hholds⟩
    exact ⟨f, hmade, hholds⟩
  · rintro ⟨f, hmade, hholds⟩
    exact ⟨_, ⟨f, hmade, rfl⟩, hholds⟩

theorem length_letter : ([97] : List UInt8).length < 2 ^ 31 := by decide

/-- The string `a`. -/
def storedLetter : RdbString := .plain [1] [97] isRdbLength_one length_letter

/-- The string `a` under its own name, in a database of its own. -/
theorem walksFile_iff_letter : WalksFile createRdbParser [48, 48, 48, 54]
    [.selectDb [3] 3 (.six (by decide)), .kv storedLetter (.string storedLetter)] [] := by
  rw [walksFile_iff fresh_createRdbParser rfl, List.forall_mem_cons, List.forall_mem_singleton]
  exact ⟨⟨not_false, trivial⟩, not_false, trivial, trivial⟩

theorem not_walksFile : ¬ ∀ (rp : RdbParser) (version : List UInt8) (rs : List StoredRecord)
    (rest : List UInt8), Fresh rp → version.length = 4 → WalksFile rp version rs rest := by
  intro h
  have hwalks := h createRdbParser [48, 48, 48, 54] [.aux storedLetter storedLetter] []
    fresh_createRdbParser rfl
  obtain ⟨os, hmakes, -⟩ := (walksFile_iff_makes fresh_createRdbParser rfl).1 hwalks
  cases hmakes with
  | cons hmakes =>
    obtain ⟨f, hmade, -⟩ := hmakes
    cases hmade

end Walks

end KjRedis.Rdb
