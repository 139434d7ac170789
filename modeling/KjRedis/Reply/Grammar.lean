import KjRedis.Reply.CommandBuilder
import Mathlib.Data.List.TakeWhile

/-! The grammar of RESP replies and the reader that keeps to it. What the strict
reader completes is a valid reply, what it still reads can be completed, and it
leaves no valid stream but by answering `wild`. -/
namespace KjRedis.Reply

def colon : UInt8 := 58

def textChar (isError : Bool) : UInt8 := if isError then 45 else 43

def NumKind.char : NumKind → UInt8
  | .int => colon
  | .bulkLen => dollar
  | .arrayLen => star

/-- A number as the grammar has it: in the range of `int64_t`. -/
def IsInt64 (x : List UInt8) (v : Int) : Prop := IsNumber x v ∧ -2 ^ 63 ≤ v ∧ v < 2 ^ 63

/-- A concatenation of valid replies and the values they stand for. -/
inductive Replies : List UInt8 → List Resp → Prop
  | nil : Replies [] []
  | text (isError : Bool) {bytes w : List UInt8} {vs : List Resp} (hcr : cr ∉ bytes)
      (hlf : lf ∉ bytes) (hw : Replies w vs) :
      Replies (textChar isError :: (bytes ++ cr :: lf :: w)) (.text isError bytes :: vs)
  | int {x w : List UInt8} {v : Int} {vs : List Resp} (hx : IsInt64 x v) (hw : Replies w vs) :
      Replies (colon :: (x ++ cr :: lf :: w)) (.int v :: vs)
  | nullBulk {x w : List UInt8} {vs : List Resp} (hx : IsInt64 x (-1)) (hw : Replies w vs) :
      Replies (dollar :: (x ++ cr :: lf :: w)) (.nullBulk :: vs)
  | bulk {x bytes w : List UInt8} {vs : List Resp} (hx : IsInt64 x bytes.length)
      (hw : Replies w vs) :
      Replies (dollar :: (x ++ cr :: lf :: (bytes ++ cr :: lf :: w))) (.bulk bytes :: vs)
  | nullArray {x w : List UInt8} {vs : List Resp} (hx : IsInt64 x (-1)) (hw : Replies w vs) :
      Replies (star :: (x ++ cr :: lf :: w)) (.nullArray :: vs)
  | array {x u w : List UInt8} {elems vs : List Resp} (hx : IsInt64 x elems.length)
      (hu : Replies u elems) (hw : Replies w vs) :
      Replies (star :: (x ++ cr :: lf :: (u ++ w))) (.array elems :: vs)

theorem Replies.append {u w : List UInt8} {us vs : List Resp} (hu : Replies u us)
    (hw : Replies w vs) : Replies (u ++ w) (us ++ vs) := by
  induction hu with
  | nil => exact hw
  | text isError hcr hlf _ ih =>
    rw [List.cons_append, List.append_assoc]
    exact .text isError hcr hlf ih
  | int hx _ ih =>
    rw [List.cons_append, List.append_assoc]
    exact .int hx ih
  | nullBulk hx _ ih =>
    rw [List.cons_append, List.append_assoc]
    exact .nullBulk hx ih
  | bulk hx _ ih =>
    rw [List.cons_append, List.append_assoc, List.cons_append, List.cons_append, List.append_assoc]
    exact .bulk hx ih
  | nullArray hx _ ih =>
    rw [List.cons_append, List.append_assoc]
    exact .nullArray hx ih
  | array hx hu _ _ ih =>
    rw [List.cons_append, List.append_assoc, List.cons_append, List.cons_append, List.append_assoc]
    exact .array hx hu ih

/-- The values the parser handles as the grammar has them: a bulk string's buffer and
an array's capacity are counted in 32 bits, and every negative length is null. -/
def NumKind.holds : NumKind → Int → Bool
  | .int, v => -2 ^ 63 ≤ v && v < 2 ^ 63
  | .bulkLen, v => -1 ≤ v && v < 2 ^ 32 - 3
  | .arrayLen, v => -1 ≤ v && v < 2 ^ 32

def splitSign : List UInt8 → Bool × List UInt8
  | [] => (false, [])
  | c :: cs => if c = minus then (true, cs) else (false, c :: cs)

def signed (neg : Bool) (ds : List UInt8) : List UInt8 := if neg then minus :: ds else ds

def signedVal (neg : Bool) (ds : List UInt8) : Int := if neg then -(natOf ds : Int) else natOf ds

/-- A sign, digits of a value the parser handles, and as much of the CRLF as has come. -/
def viable (kind : NumKind) (x : List UInt8) : Bool :=
  let (neg, body) := splitSign x
  let ds := body.takeWhile isDigit
  let tail := body.dropWhile isDigit
  kind.holds (signedVal neg ds) && (tail == [] || ds != [] && (tail == [cr] || tail == crlf))

/-- The grammar's own lines, of text no longer than one buffer, and builders whose depth
is a `uint8_t`. -/
def strict : Envelope where
  textMax := simpleStringTempBuffSize
  textOk b := b != lf
  numOk := viable
  opens depth _ := depth < 2 ^ 8

theorem viable_cases {kind : NumKind} {x : List UInt8} (h : viable kind x) :
    ∃ neg ds tail, x = signed neg ds ++ tail ∧ (∀ c ∈ ds, isDigit c) ∧
      kind.holds (signedVal neg ds) ∧ (tail = [] ∨ ds ≠ [] ∧ (tail = [cr] ∨ tail = crlf)) := by
  rw [viable] at h
  simp only [Bool.and_eq_true, Bool.or_eq_true, beq_iff_eq, bne_iff_ne] at h
  refine ⟨_, _, _, ?_, fun c hc => List.mem_takeWhile_imp hc, h.1, h.2⟩
  cases x with
  | nil => rfl
  | cons c cs =>
    rw [splitSign, signed]
    split
    · next hc =>
      rw [hc]
      simp [List.takeWhile_append_dropWhile]
    · simp [List.takeWhile_append_dropWhile]

theorem splitSign_signed {neg : Bool} {ds tail : List UInt8} (hds : ∀ c ∈ ds, isDigit c)
    (hne : ds ≠ []) : splitSign (signed neg ds ++ tail) = (neg, ds ++ tail) := by
  cases neg with
  | true => rfl
  | false =>
    cases ds with
    | nil => exact absurd rfl hne
    | cons d ds => exact if_neg (isDigit_ne (hds d (by simp))).1

/-- A whole line the strict reader admits has a value the parser handles. -/
theorem holds_of_viable_line {kind : NumKind} {x : List UInt8} {v : Int} (hx : IsNumber x v)
    (h : viable kind (x ++ crlf)) : kind.holds v := by
  obtain ⟨neg, ds, hne, hds, rfl, rfl⟩ := hx
  have hsplit := @splitSign_signed neg ds crlf hds hne
  rw [signed] at hsplit
  have htake : (ds ++ crlf).takeWhile isDigit = ds := by
    rw [List.takeWhile_append_of_pos hds]
    simp [crlf, cr, isDigit]
  rw [viable, hsplit] at h
  simp only [htake, Bool.and_eq_true] at h
  exact h.1

theorem NumKind.holds_int64 {kind : NumKind} {v : Int} (h : kind.holds v) :
    -2 ^ 63 ≤ v ∧ v < 2 ^ 63 := by
  cases kind <;> simp only [NumKind.holds, Bool.and_eq_true, decide_eq_true_eq] at h <;> omega

open KjRedis.Reply.Part

variable {depth : Nat}

/-- The strict reader over a whole number's line. -/
theorem run_line_or_wild {kind : NumKind} {x : List UInt8} {v : Int} (hx : IsInt64 x v)
    (rest : List UInt8) :
    run strict depth (.num kind []) (x ++ cr :: lf :: rest) = .wild ∨
      kind.holds v ∧ run strict depth (.num kind []) (x ++ cr :: lf :: rest) =
        match ofNum kind v with
        | .part p => run strict depth p rest
        | .value w => .done w rest
        | .wild => .wild := by
  obtain ⟨hnum, hlow, hhigh⟩ := hx
  have hread := redisReplyReadInteger_line hnum hlow hhigh []
  have hopen : redisReplyReadInteger (x ++ [cr]) = none := by
    rw [redisReplyReadInteger_eq, fastStrstr_cr_last hnum.no_cr]
    rfl
  have hbytes : x ++ cr :: lf :: rest = (x ++ [cr]) ++ lf :: rest := by simp
  have hline : x ++ [cr] ++ [lf] = x ++ crlf := by simp [crlf]
  rw [hbytes, run_append]
  rcases @run_num_open strict depth kind [] (x ++ [cr]) hopen with ⟨-, -, -, hrun⟩ | hrun
  · exact .inl (by rw [hrun])
  rw [hrun]
  simp only [List.nil_append]
  cases hok : viable kind (x ++ crlf) with
  | false =>
    have hok' : ¬ strict.numOk kind (x ++ crlf) = true := by
      intro h
      exact absurd (hok.symm.trans h) Bool.false_ne_true
    refine .inl (run_cons_wild ?_ rest)
    rw [step, stepNum, hline, if_neg hok']
  | true =>
    have hstep : step strict depth (.num kind (x ++ [cr])) lf = ofNum kind v := by
      have hok' : strict.numOk kind (x ++ crlf) = true := hok
      rw [step, stepNum, hline, if_pos hok', crlf, hread]
    refine .inr ⟨holds_of_viable_line hnum hok, ?_⟩
    cases h : ofNum kind v with
    | part p => exact run_cons_part (hstep.trans h) rest
    | value w => exact run_cons_value (hstep.trans h) rest
    | wild => exact run_cons_wild (hstep.trans h) rest

theorem run_opened {c : UInt8} {type : LeadingType} {p : Part} (hc : leadingType c = some type)
    (hp : opened strict depth type = .part p ∨ opened strict depth type = .wild) (bs : List UInt8) :
    run strict depth .type (c :: bs) = .wild ∨
      run strict depth .type (c :: bs) = run strict depth p bs := by
  have hstep : step strict depth .type c = opened strict depth type := by
    rw [step, hc]
    rfl
  rcases hp with hp | hp
  · exact .inr (run_cons_part (hstep.trans hp) bs)
  · exact .inl (run_cons_wild (hstep.trans hp) bs)

private theorem opened_or_wild {p : Next} {b : Bool} : (if b then p else .wild) = p ∨
    (if b then p else .wild) = .wild := by
  split
  · exact .inl rfl
  · exact .inr rfl

private theorem run_line_of_text (isError : Bool) {acc bytes : List UInt8} (hcr : cr ∉ bytes)
    (rest : List UInt8) :
    run strict depth (.text isError acc false) (bytes ++ cr :: lf :: rest) = .wild ∨
      run strict depth (.text isError acc false) (bytes ++ cr :: lf :: rest) =
        .done (.text isError (acc ++ bytes)) rest := by
  induction bytes generalizing acc with
  | nil =>
    have hcrStep : step strict depth (.text isError acc false) cr = .part (.text isError acc true) := by
      rw [step, stepText, if_neg (by simp), if_pos rfl]
    rw [List.nil_append, run_cons_part hcrStep, List.append_nil]
    exact .inr (run_cons_value (by rw [step, stepText, if_pos rfl, if_pos rfl]) rest)
  | cons b bytes ih =>
    rw [List.mem_cons, not_or] at hcr
    have hstep : step strict depth (.text isError acc false) b =
        if acc.length < strict.textMax ∧ strict.textOk b then .part (.text isError (acc ++ [b]) false)
        else .wild := by
      rw [step, stepText, if_neg (by simp), if_neg (Ne.symm hcr.1)]
    by_cases hok : acc.length < strict.textMax ∧ strict.textOk b
    · rw [if_pos hok] at hstep
      rw [List.cons_append, run_cons_part hstep]
      have hih := @ih (acc ++ [b]) hcr.2
      rw [List.append_assoc, List.singleton_append] at hih
      exact hih
    · rw [if_neg hok] at hstep
      exact .inl (run_cons_wild hstep _)

/-- The bytes of one reply lead the strict reader to its value, or to no promise. -/
def ReadsAs (u : List UInt8) (v : Resp) : Prop :=
  ∀ depth rest, run strict depth .type (u ++ rest) = .wild ∨
    run strict depth .type (u ++ rest) = .done v rest

theorem readsAs_text (isError : Bool) {bytes : List UInt8} (hcr : cr ∉ bytes) :
    ReadsAs (textChar isError :: (bytes ++ [cr, lf])) (.text isError bytes) := by
  intro depth rest
  have hopen : opened strict depth (textLeading isError) = .part (.text isError [] false) ∨
      opened strict depth (textLeading isError) = .wild := by
    cases isError <;> exact opened_or_wild
  have hc : leadingType (textChar isError) = some (textLeading isError) := by
    cases isError <;> rfl
  rw [List.cons_append, List.append_assoc]
  rcases run_opened hc hopen (bytes ++ cr :: lf :: rest) with h | h
  · exact .inl h
  · rw [List.cons_append, List.singleton_append, h]
    exact run_line_of_text isError hcr rest

/-- A reply that is a number's line, and what the line opens. -/
private theorem readsAs_line {kind : NumKind} {x u : List UInt8} {n : Int} {v : Resp}
    (hx : IsInt64 x n)
    (hthen : ∀ depth rest, kind.holds n →
      (match ofNum kind n with
        | .part p => run strict depth p (u ++ rest)
        | .value w => .done w (u ++ rest)
        | .wild => .wild) = .wild ∨
      (match ofNum kind n with
        | .part p => run strict depth p (u ++ rest)
        | .value w => .done w (u ++ rest)
        | .wild => .wild) = .done v rest) :
    ReadsAs (kind.char :: (x ++ cr :: lf :: u)) v := by
  intro depth rest
  have hopen : opened strict depth kind.leading = .part (.num kind []) ∨
      opened strict depth kind.leading = .wild := by
    cases kind with
    | int => exact .inl rfl
    | bulkLen => exact opened_or_wild
    | arrayLen => exact opened_or_wild
  have hc : leadingType kind.char = some kind.leading := by
    cases kind <;> rfl
  rw [List.cons_append, List.append_assoc, List.cons_append, List.cons_append]
  rcases run_opened hc hopen (x ++ cr :: lf :: (u ++ rest)) with h | h
  · exact .inl h
  rw [h]
  rcases @run_line_or_wild depth kind x n hx (u ++ rest) with h | ⟨hholds, h⟩
  · exact .inl h
  · rw [h]
    exact hthen depth rest hholds

theorem readsAs_int {x : List UInt8} {v : Int} (hx : IsInt64 x v) :
    ReadsAs (colon :: (x ++ [cr, lf])) (.int v) :=
  @readsAs_line .int _ _ _ _ hx fun _ _ _ => .inr rfl

theorem readsAs_nullBulk {x : List UInt8} (hx : IsInt64 x (-1)) :
    ReadsAs (dollar :: (x ++ [cr, lf])) .nullBulk :=
  @readsAs_line .bulkLen _ _ _ _ hx fun _ _ _ => .inr rfl

theorem readsAs_nullArray {x : List UInt8} (hx : IsInt64 x (-1)) :
    ReadsAs (star :: (x ++ [cr, lf])) .nullArray :=
  @readsAs_line .arrayLen _ _ _ _ hx fun _ _ _ => .inr rfl

theorem readsAs_bulk {x bytes : List UInt8} (hx : IsInt64 x bytes.length) :
    ReadsAs (dollar :: (x ++ cr :: lf :: (bytes ++ [cr, lf]))) (.bulk bytes) := by
  refine @readsAs_line .bulkLen _ _ _ _ hx fun depth rest hholds => .inr ?_
  simp only [NumKind.holds, Bool.and_eq_true, decide_eq_true_eq] at hholds
  have hof : ofNum .bulkLen (bytes.length : Int) = .part (.payload bytes.length []) := by
    rw [ofNum, bulkOfLen, if_neg (by omega), toUint32_natCast (by omega), if_pos (by omega)]
  rw [hof]
  simp only
  rw [run_payload_full (by simp) (by simp)]
  simp [crlf]

/-- What is left of an array whose next elements are `u`. -/
def ElementsReadAs (u : List UInt8) (vs : List Resp) : Prop :=
  ∀ depth len done rest, done.length + vs.length ≤ len → vs ≠ [] →
    run strict depth (.array len done .type) (u ++ rest) = .wild ∨
      run strict depth (.array len done .type) (u ++ rest) =
        if done.length + vs.length < len then
          run strict depth (.array len (done ++ vs) .type) rest
        else .done (.array (done ++ vs)) rest

theorem readsAs_array {x u : List UInt8} {elems : List Resp} (hx : IsInt64 x elems.length)
    (hu : u = [] ∧ elems = [] ∨ elems ≠ [] ∧ ElementsReadAs u elems) :
    ReadsAs (star :: (x ++ cr :: lf :: u)) (.array elems) := by
  refine @readsAs_line .arrayLen _ _ _ _ hx fun depth rest hholds => ?_
  simp only [NumKind.holds, Bool.and_eq_true, decide_eq_true_eq] at hholds
  rcases hu with ⟨rfl, rfl⟩ | ⟨hne, hu⟩
  · exact .inr rfl
  have hpos : 0 < elems.length := List.length_pos_iff.2 hne
  have hof : ofNum .arrayLen (elems.length : Int) = .part (.array elems.length [] .type) := by
    rw [ofNum, arrayOfLen, if_neg (by omega), if_neg (by omega), toUint32_natCast (by omega),
      if_neg (by omega)]
  rw [hof]
  simp only
  have h := hu depth elems.length [] rest (by simp) hne
  rw [if_neg (by simp)] at h
  exact h

/-- An element, then the elements after it. -/
theorem ReadsAs.cons {u w : List UInt8} {v : Resp} {vs : List Resp} (hu : ReadsAs u v)
    (hw : w = [] ∧ vs = [] ∨ vs ≠ [] ∧ ElementsReadAs w vs) : ElementsReadAs (u ++ w) (v :: vs) := by
  intro depth len done rest hlen _
  rw [List.length_cons] at hlen
  rw [List.append_assoc, run_array]
  rcases hu (depth + 1) (w ++ rest) with h | h
  · exact .inl (by rw [h])
  rw [h]
  simp only [arrayNext, List.length_append, List.length_singleton]
  by_cases hmany : 2 ^ 31 ≤ done.length + 1 + 1
  · rw [if_pos hmany]
    exact .inl rfl
  rw [if_neg hmany]
  rcases hw with ⟨rfl, rfl⟩ | ⟨hne, hw⟩
  · refine .inr ?_
    simp only [List.length_cons, List.length_nil, Nat.zero_add, List.nil_append]
    by_cases hlast : done.length + 1 + 1 ≤ len
    · rw [if_pos hlast, if_pos (by omega)]
    · rw [if_neg hlast, if_neg (by omega)]
  · have hpos : 0 < vs.length := List.length_pos_iff.2 hne
    rw [if_pos (by omega)]
    simp only
    have hih := hw depth len (done ++ [v]) rest (by simp; omega) hne
    have hcount : (done ++ [v]).length + vs.length = done.length + (v :: vs).length := by
      rw [List.length_append, List.length_singleton, List.length_cons]
      omega
    simp only [hcount, List.append_assoc, List.singleton_append] at hih
    exact hih

theorem Replies.elementsReadAs {u : List UInt8} {vs : List Resp} (h : Replies u vs) :
    u = [] ∧ vs = [] ∨ vs ≠ [] ∧ ElementsReadAs u vs := by
  induction h with
  | nil => exact .inl ⟨rfl, rfl⟩
  | text isError hcr _ _ ih =>
    have h := (readsAs_text isError hcr).cons ih
    rw [List.cons_append, List.append_assoc] at h
    exact .inr ⟨List.cons_ne_nil _ _, h⟩
  | int hx _ ih =>
    have h := (readsAs_int hx).cons ih
    rw [List.cons_append, List.append_assoc] at h
    exact .inr ⟨List.cons_ne_nil _ _, h⟩
  | nullBulk hx _ ih =>
    have h := (readsAs_nullBulk hx).cons ih
    rw [List.cons_append, List.append_assoc] at h
    exact .inr ⟨List.cons_ne_nil _ _, h⟩
  | bulk hx _ ih =>
    have h := (readsAs_bulk hx).cons ih
    rw [List.cons_append, List.append_assoc, List.cons_append, List.cons_append,
      List.append_assoc] at h
    exact .inr ⟨List.cons_ne_nil _ _, h⟩
  | nullArray hx _ ih =>
    have h := (readsAs_nullArray hx).cons ih
    rw [List.cons_append, List.append_assoc] at h
    exact .inr ⟨List.cons_ne_nil _ _, h⟩
  | array hx _ _ ihu ih =>
    have h := (readsAs_array hx ihu).cons ih
    rw [List.cons_append, List.append_assoc, List.cons_append, List.cons_append] at h
    exact .inr ⟨List.cons_ne_nil _ _, h⟩

theorem Replies.array_readsAs {x u : List UInt8} {elems : List Resp} (hx : IsInt64 x elems.length)
    (hu : Replies u elems) : ReadsAs (star :: (x ++ cr :: lf :: u)) (.array elems) :=
  readsAs_array hx hu.elementsReadAs

private theorem reader_head {u rest : List UInt8} {v : Resp} {q : Part} {out : List Resp}
    (hu : ReadsAs u v) (h : (reader strict).run .type (u ++ rest) = some (q, out)) :
    ∃ out', (reader strict).run .type rest = some (q, out') ∧ out = v :: out' := by
  rcases hu 1 rest with hrun | hrun
  · rcases reader_run_cases h with ⟨h', -⟩ | ⟨_, _, _, h', -⟩ <;> rw [hrun] at h' <;> cases h'
  · rcases reader_run_cases h with ⟨h', -⟩ | ⟨w, rest', out', h', hrest, rfl⟩
    · rw [hrun] at h'
      cases h'
    · rw [hrun] at h'
      obtain ⟨rfl, rfl⟩ := Run.done.inj h'
      exact ⟨out', hrest, rfl⟩

/-- Where the strict reader gets through a stream that begins with valid replies, it
reads these first. -/
theorem Replies.reader_run {u rest : List UInt8} {vs out : List Resp} {q : Part}
    (hu : Replies u vs) (h : (reader strict).run .type (u ++ rest) = some (q, out)) :
    ∃ out', (reader strict).run .type rest = some (q, out') ∧ out = vs ++ out' := by
  have hcons : ∀ {head w : List UInt8} {v : Resp} {vs out : List Resp}, ReadsAs head v →
      (∀ {out}, (reader strict).run .type (w ++ rest) = some (q, out) →
        ∃ out', (reader strict).run .type rest = some (q, out') ∧ out = vs ++ out') →
      (reader strict).run .type (head ++ (w ++ rest)) = some (q, out) →
      ∃ out', (reader strict).run .type rest = some (q, out') ∧ out = v :: vs ++ out' := by
    intro head w v vs out hhead ih hrun
    obtain ⟨out₁, h₁, rfl⟩ := reader_head hhead hrun
    obtain ⟨out₂, h₂, rfl⟩ := ih h₁
    exact ⟨out₂, h₂, rfl⟩
  induction hu generalizing out with
  | nil => exact ⟨out, h, rfl⟩
  | text isError hcr _ _ ih => exact hcons (readsAs_text isError hcr) ih (by simpa using h)
  | int hx _ ih => exact hcons (readsAs_int hx) ih (by simpa using h)
  | nullBulk hx _ ih => exact hcons (readsAs_nullBulk hx) ih (by simpa using h)
  | bulk hx _ ih => exact hcons (readsAs_bulk hx) ih (by simpa using h)
  | nullArray hx _ ih => exact hcons (readsAs_nullArray hx) ih (by simpa using h)
  | array hx hu _ _ ih => exact hcons (hu.array_readsAs hx) ih (by simpa using h)

/-- The bytes that lead the strict reader to a part. -/
def ReadAs : Part → List UInt8 → Prop
  | .type, u => u = []
  | .badType, _ => True
  | .text isError acc gotCr, u =>
    u = textChar isError :: (acc ++ if gotCr then [cr] else []) ∧ cr ∉ acc ∧ lf ∉ acc
  | .num kind acc, u => u = kind.char :: acc ∧ viable kind acc ∧ redisReplyReadInteger acc = none
  | .payload len acc, u =>
    ∃ x, IsInt64 x len ∧ u = dollar :: (x ++ cr :: lf :: acc) ∧ acc.length < len + 2
  | .badPayload _ _, _ => True
  | .array len done cur, u =>
    ∃ x u₁ u₂, IsInt64 x len ∧ u = star :: (x ++ cr :: lf :: (u₁ ++ u₂)) ∧ Replies u₁ done ∧
      done.length < len ∧ ReadAs cur u₂

/-- The bytes `u` lead the strict reader to a part or a reply. -/
def Next.ReadAs : Next → List UInt8 → Prop
  | .part p, u => KjRedis.Reply.ReadAs p u
  | .value v, u => Replies u [v]
  | .wild, _ => True

theorem opened_readAs {c : UInt8} {type : LeadingType} (hc : leadingType c = some type) :
    (opened strict depth type).ReadAs [c] := by
  rw [leadingType] at hc
  split_ifs at hc with h₁ h₂ h₃ h₄ h₅ <;> obtain rfl := Option.some.inj hc
  · rw [h₁, opened]
    split
    · exact ⟨rfl, by simp, by simp⟩
    · trivial
  · rw [h₂, opened]
    split
    · exact ⟨rfl, by simp, by simp⟩
    · trivial
  · rw [h₃, opened]
    exact ⟨rfl, rfl, rfl⟩
  · rw [h₄, opened]
    split
    · exact ⟨rfl, rfl, rfl⟩
    · trivial
  · rw [h₅, opened]
    split
    · exact ⟨rfl, rfl, rfl⟩
    · trivial

/-- A line that can still become a number but has no CRLF yet, and one that has. -/
theorem viable_line {kind : NumKind} {acc : List UInt8} (h : viable kind acc) :
    (redisReplyReadInteger acc = none ∧ ∃ rest x v, acc ++ rest = x ++ [cr, lf] ∧ IsInt64 x v ∧
        kind.holds v) ∨
      ∃ x v, acc = x ++ [cr, lf] ∧ redisReplyReadInteger acc = some (v, acc.length) ∧
        IsInt64 x v ∧ kind.holds v := by
  obtain ⟨neg, ds, tail, rfl, hds, hholds, htail⟩ := viable_cases h
  obtain ⟨hlow, hhigh⟩ := NumKind.holds_int64 hholds
  have hnocr : cr ∉ signed neg ds := by
    intro hmem
    have hin : cr ∈ ds := by
      cases neg with
      | false => exact hmem
      | true => simpa [signed, cr, minus] using hmem
    exact (isDigit_ne (hds cr hin)).2.1 rfl
  by_cases hne : ds = []
  · obtain rfl : tail = [] := by
      rcases htail with h | ⟨h, -⟩
      · exact h
      · exact absurd hne h
    subst hne
    refine .inl ⟨?_, zeroChar :: crlf, signed neg [zeroChar], 0, ?_, ⟨?_, by omega, by omega⟩, ?_⟩
    · rw [List.append_nil, redisReplyReadInteger_eq, fastStrstr_no_cr hnocr]
      rfl
    · cases neg <;> rfl
    · exact ⟨neg, [zeroChar], by simp, List.forall_mem_singleton.2 rfl, rfl, by cases neg <;> rfl⟩
    · cases kind <;> rfl
  have hnum : IsNumber (signed neg ds) (signedVal neg ds) := ⟨neg, ds, hne, hds, rfl, rfl⟩
  rcases htail with rfl | ⟨-, rfl | rfl⟩
  · refine .inl ⟨?_, crlf, signed neg ds, _, by rw [List.append_nil, crlf], ⟨hnum, hlow, hhigh⟩, hholds⟩
    rw [List.append_nil, redisReplyReadInteger_eq, fastStrstr_no_cr hnocr]
    rfl
  · refine .inl ⟨?_, [lf], signed neg ds, _, by simp, ⟨hnum, hlow, hhigh⟩, hholds⟩
    rw [redisReplyReadInteger_eq, fastStrstr_cr_last hnocr]
    rfl
  · refine .inr ⟨signed neg ds, _, rfl, ?_, ⟨hnum, hlow, hhigh⟩, hholds⟩
    rw [crlf, redisReplyReadInteger_line hnum hlow hhigh, List.length_append]
    rfl

/-- The byte that ends a number's line leads to what the number opens. -/
theorem ofNum_readAs {kind : NumKind} {x : List UInt8} {v : Int} (hx : IsInt64 x v)
    (hholds : kind.holds v) : (ofNum kind v).ReadAs (kind.char :: (x ++ [cr, lf])) := by
  cases kind with
  | int => exact Replies.int hx .nil
  | bulkLen =>
    simp only [NumKind.holds, Bool.and_eq_true, decide_eq_true_eq] at hholds
    rw [ofNum, bulkOfLen]
    by_cases hneg : v < 0
    · obtain rfl : v = -1 := by omega
      exact Replies.nullBulk hx .nil
    · have hlen : ((toUint32 v : Nat) : Int) = v := by
        rw [toUint32]
        omega
      rw [if_neg hneg, if_pos (by omega)]
      exact ⟨x, by rw [hlen]; exact hx, rfl, by simp⟩
  | arrayLen =>
    simp only [NumKind.holds, Bool.and_eq_true, decide_eq_true_eq] at hholds
    rw [ofNum, arrayOfLen]
    by_cases hneg : v < 0
    · obtain rfl : v = -1 := by omega
      exact Replies.nullArray hx .nil
    rw [if_neg hneg]
    by_cases hzero : v = 0
    · subst hzero
      exact Replies.array hx .nil .nil
    have hlen : ((toUint32 v : Nat) : Int) = v := by
      rw [toUint32]
      omega
    rw [if_neg hzero, if_neg (by omega)]
    refine ⟨x, [], [], ?_, rfl, .nil, ?_, rfl⟩
    · rw [hlen]
      exact hx
    · rw [List.length_nil]
      omega

theorem stepText_readAs {isError gotCr : Bool} {acc u : List UInt8} (b : UInt8)
    (h : ReadAs (.text isError acc gotCr) u) :
    (stepText strict isError acc gotCr b).ReadAs (u ++ [b]) := by
  obtain ⟨rfl, hcr, hlf⟩ := h
  rw [stepText]
  cases gotCr with
  | true =>
    rw [if_pos rfl]
    split
    · next hb =>
      subst hb
      have := Replies.text isError hcr hlf .nil
      simpa [Next.ReadAs] using this
    · trivial
  | false =>
    rw [if_neg Bool.false_ne_true]
    split
    · next hb =>
      subst hb
      exact ⟨by simp, hcr, hlf⟩
    · next hb =>
      split
      · next hok =>
        refine ⟨by simp, ?_, ?_⟩
        · simpa [hcr] using Ne.symm hb
        · have := hok.2
          rw [strict, bne_iff_ne] at this
          simpa [hlf] using this.symm
      · trivial

theorem stepPayload_readAs {len : Nat} {acc u : List UInt8} (b : UInt8)
    (h : ReadAs (.payload len acc) u) : (stepPayload len acc b).ReadAs (u ++ [b]) := by
  obtain ⟨x, hx, rfl, hacc⟩ := h
  rw [stepPayload]
  split
  · next hlt => exact ⟨x, hx, by simp, hlt⟩
  · next hge =>
    have hlen : (acc ++ [b]).length = len + 2 := by
      rw [List.length_append, List.length_singleton] at hge ⊢
      omega
    split
    · next hcrlf =>
      have htake : ((acc ++ [b]).take len).length = len := by
        rw [List.length_take]
        omega
      have hreply := @Replies.bulk x ((acc ++ [b]).take len) [] [] (by rw [htake]; exact hx) .nil
      have hpay : (acc ++ [b]).take len ++ [cr, lf] = acc ++ [b] := by
        rw [show [cr, lf] = (acc ++ [b]).drop len from hcrlf.symm, List.take_append_drop]
      rw [hpay] at hreply
      simpa [Next.ReadAs] using hreply
    · trivial

theorem step_readAs {p : Part} {u : List UInt8} (b : UInt8) (h : ReadAs p u) :
    (step strict depth p b).ReadAs (u ++ [b]) := by
  induction p generalizing depth u with
  | type =>
    obtain rfl := h
    rw [step]
    cases hc : leadingType b with
    | none => trivial
    | some type => exact opened_readAs hc
  | badType => trivial
  | text isError acc gotCr => exact stepText_readAs b h
  | num kind acc =>
    obtain ⟨rfl, -, -⟩ := h
    rw [step, stepNum]
    split
    · next hok =>
      have hok' : viable kind (acc ++ [b]) := hok
      rcases viable_line hok' with ⟨hnone, -⟩ | ⟨x, v, hline, hread, hx, hholds⟩
      · rw [hnone]
        exact ⟨rfl, hok', hnone⟩
      · rw [hread, List.cons_append, hline]
        exact ofNum_readAs hx hholds
    · trivial
  | payload len acc => exact stepPayload_readAs b h
  | badPayload len acc => trivial
  | array len done cur ih =>
    obtain ⟨x, u₁, u₂, hx, rfl, hdone, hlen, hcur⟩ := h
    have hbytes : star :: (x ++ cr :: lf :: (u₁ ++ u₂)) ++ [b] =
        star :: (x ++ cr :: lf :: (u₁ ++ (u₂ ++ [b]))) := by simp
    have hstep := @ih (depth + 1) u₂ hcur
    rw [step, hbytes]
    cases hs : step strict (depth + 1) cur b with
    | part cur' =>
      rw [hs] at hstep
      exact ⟨x, u₁, u₂ ++ [b], hx, rfl, hdone, hlen, hstep⟩
    | wild => trivial
    | value v =>
      rw [hs] at hstep
      have hdone' : Replies (u₁ ++ (u₂ ++ [b])) (done ++ [v]) := hdone.append hstep
      simp only [arrayNext, List.length_append, List.length_singleton]
      split
      · trivial
      · split
        · next hmore =>
          exact ⟨x, _, [], hx, by rw [List.append_nil], hdone', by simp; omega, rfl⟩
        · next hlast =>
          have hcount : (done ++ [v]).length = len := by
            rw [List.length_append, List.length_singleton]
            omega
          have hreply := Replies.array (hcount.symm ▸ hx) hdone' .nil
          rw [List.append_nil] at hreply
          exact hreply

end KjRedis.Reply
