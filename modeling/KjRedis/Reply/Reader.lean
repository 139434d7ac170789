import KjRedis.Reply.Parser
import KjRedis.Lib.Incremental

/-! Replies read one byte at a time, with what has been read of a reply as a tree.
Where the parser's own reading depends on how the bytes arrive, or leaves its
stack, the reader makes no promise and answers `wild`. -/
namespace KjRedis.Reply

/-- A reply as a value. -/
inductive Resp
  | text (isError : Bool) (bytes : List UInt8)
  | int (v : Int)
  | nullBulk
  | bulk (bytes : List UInt8)
  | nullArray
  | array (elems : List Resp)
  deriving Repr

inductive NumKind
  | int | bulkLen | arrayLen
  deriving DecidableEq, Repr

/-- A reply of which part has been read: `type` awaits its leading character. -/
inductive Part
  | type
  | badType
  | text (isError : Bool) (acc : List UInt8) (gotCr : Bool)
  | num (kind : NumKind) (acc : List UInt8)
  | payload (len : Nat) (acc : List UInt8)
  | badPayload (len : Nat) (acc : List UInt8)
  | array (len : Nat) (done : List Resp) (cur : Part)

/-- What the reader promises about: the length and the characters of a line of
text, the lines a number may be, and the builders that are opened at a depth. -/
structure Envelope where
  textMax : Nat
  textOk : UInt8 → Bool
  numOk : NumKind → List UInt8 → Bool
  opens : Nat → LeadingType → Bool

inductive Next
  | part (p : Part)
  | value (v : Resp)
  | wild

namespace Part

/-- The reply a leading character opens, its builder at `depth`. -/
def opened (env : Envelope) (depth : Nat) : LeadingType → Next
  | .unknown => .part .badType
  | .integer => .part (.num .int [])
  | .simpleString => if env.opens depth .simpleString then .part (.text false [] false) else .wild
  | .errorString => if env.opens depth .errorString then .part (.text true [] false) else .wild
  | .bulkString => if env.opens depth .bulkString then .part (.num .bulkLen []) else .wild
  | .array => if env.opens depth .array then .part (.num .arrayLen []) else .wild

/-- A bulk string's buffer has `len + 3` bytes, counted in 32 bits. -/
def bulkOfLen (len : Int) : Next :=
  if len < 0 then .value .nullBulk
  else if toUint32 len < 2 ^ 32 - 3 then .part (.payload (toUint32 len) [])
  else .wild

def arrayOfLen (len : Int) : Next :=
  if len < 0 then .value .nullArray
  else if len = 0 then .value (.array [])
  else if toUint32 len = 0 then .wild
  else .part (.array (toUint32 len) [] .type)

def ofNum : NumKind → Int → Next
  | .int, v => .value (.int v)
  | .bulkLen, len => bulkOfLen len
  | .arrayLen, len => arrayOfLen len

def stepText (env : Envelope) (isError : Bool) (acc : List UInt8) (gotCr : Bool) (b : UInt8) : Next :=
  if gotCr then if b = lf then .value (.text isError acc) else .wild
  else if b = cr then .part (.text isError acc true)
  else if acc.length < env.textMax ∧ env.textOk b then .part (.text isError (acc ++ [b]) false)
  else .wild

def stepNum (env : Envelope) (kind : NumKind) (acc : List UInt8) (b : UInt8) : Next :=
  if env.numOk kind (acc ++ [b]) then
    match redisReplyReadInteger (acc ++ [b]) with
    | none => .part (.num kind (acc ++ [b]))
    | some (v, _) => ofNum kind v
  else .wild

def stepPayload (len : Nat) (acc : List UInt8) (b : UInt8) : Next :=
  if (acc ++ [b]).length < len + 2 then .part (.payload len (acc ++ [b]))
  else if (acc ++ [b]).drop len = crlf then .value (.bulk ((acc ++ [b]).take len))
  else .part (.badPayload len (acc ++ [b]))

/-- The array's next state once its current element is complete. The index of the
element after it is an `int`. -/
def arrayNext (len : Nat) (done : List Resp) : Next :=
  if 2 ^ 31 ≤ done.length + 1 then .wild
  else if done.length + 1 ≤ len then .part (.array len done .type)
  else .value (.array done)

/-- Read one byte of a reply whose builder is at `depth`. -/
def step (env : Envelope) : Nat → Part → UInt8 → Next
  | depth, .type, b => opened env depth ((leadingType b).getD .unknown)
  | _, .badType, _ => .part .badType
  | _, .text isError acc gotCr, b => stepText env isError acc gotCr b
  | _, .num kind acc, b => stepNum env kind acc b
  | _, .payload len acc, b => stepPayload len acc b
  | _, .badPayload len acc, _ => .part (.badPayload len acc)
  | depth, .array len done cur, b =>
    match step env (depth + 1) cur b with
    | .part cur => .part (.array len done cur)
    | .value v => arrayNext len (done ++ [v])
    | .wild => .wild

/-- The code a call returns when its input ends here. -/
def code : Part → Rc
  | .badType => .invalidLeadingChar
  | .badPayload _ _ => .invalidBulkString
  | .array _ _ cur => cur.code
  | _ => .premature

end Part

/-- Reading a byte string: the reply is still open, is complete with bytes left, or
the promise ends. -/
inductive Run
  | more (p : Part)
  | done (v : Resp) (rest : List UInt8)
  | wild

namespace Part

def run (env : Envelope) (depth : Nat) : Part → List UInt8 → Run
  | p, [] => .more p
  | p, b :: bs =>
    match p.step env depth b with
    | .part p' => run env depth p' bs
    | .value v => .done v bs
    | .wild => .wild

variable {env : Envelope} {depth : Nat}

@[simp] theorem run_nil (p : Part) : run env depth p [] = .more p := rfl

theorem run_cons_part {p p' : Part} {b : UInt8} (h : p.step env depth b = .part p')
    (bs : List UInt8) : run env depth p (b :: bs) = run env depth p' bs := by
  simp only [run, h]

theorem run_cons_value {p : Part} {v : Resp} {b : UInt8} (h : p.step env depth b = .value v)
    (bs : List UInt8) : run env depth p (b :: bs) = .done v bs := by
  simp only [run, h]

theorem run_cons_wild {p : Part} {b : UInt8} (h : p.step env depth b = .wild)
    (bs : List UInt8) : run env depth p (b :: bs) = .wild := by
  simp only [run, h]

theorem run_append (p : Part) (bs cs : List UInt8) :
    run env depth p (bs ++ cs) =
      match run env depth p bs with
      | .more q => run env depth q cs
      | .done v rest => .done v (rest ++ cs)
      | .wild => .wild := by
  induction bs generalizing p with
  | nil => rfl
  | cons b bs ih =>
    rw [List.cons_append]
    cases h : p.step env depth b with
    | part p' => rw [run_cons_part h, run_cons_part h, ih]
    | value v => rw [run_cons_value h, run_cons_value h]
    | wild => rw [run_cons_wild h, run_cons_wild h]

/-- An array reads its current element, then its own next element or its end. -/
theorem run_array (len : Nat) (done : List Resp) (cur : Part) (bs : List UInt8) :
    run env depth (.array len done cur) bs =
      match run env (depth + 1) cur bs with
      | .more q => .more (.array len done q)
      | .done v rest =>
        match arrayNext len (done ++ [v]) with
        | .part p => run env depth p rest
        | .value v => .done v rest
        | .wild => .wild
      | .wild => .wild := by
  induction bs generalizing cur with
  | nil => rfl
  | cons b bs ih =>
    cases h : cur.step env (depth + 1) b with
    | part cur' =>
      rw [run_cons_part h, ← ih]
      exact run_cons_part (by simp only [step, h]) bs
    | value v =>
      have hs : step env depth (.array len done cur) b = arrayNext len (done ++ [v]) := by
        simp only [step, h]
      rw [run_cons_value h]
      simp only
      cases h' : arrayNext len (done ++ [v]) with
      | part p => exact run_cons_part (hs.trans h') bs
      | value w => exact run_cons_value (hs.trans h') bs
      | wild => exact run_cons_wild (hs.trans h') bs
    | wild =>
      rw [run_cons_wild h]
      exact run_cons_wild (by simp only [step, h]) bs

theorem run_badType (bs : List UInt8) : run env depth .badType bs = .more .badType := by
  induction bs with
  | nil => rfl
  | cons b bs ih => exact (run_cons_part rfl bs).trans ih

theorem run_badPayload (len : Nat) (acc bs : List UInt8) :
    run env depth (.badPayload len acc) bs = .more (.badPayload len acc) := by
  induction bs with
  | nil => rfl
  | cons b bs ih => exact (run_cons_part rfl bs).trans ih

/-- After an offending byte the reader stays where it is. -/
theorem run_of_bad {q : Part} (h : q.code ≠ .premature) (bs : List UInt8) :
    run env depth q bs = .more q := by
  have hstep : ∀ {depth : Nat} {q : Part} (b : UInt8), q.code ≠ .premature →
      step env depth q b = .part q := by
    intro depth q b h
    induction q generalizing depth with
    | badType => rfl
    | badPayload len acc => rfl
    | array len done cur ih => rw [step, ih h]
    | _ => exact absurd rfl h
  induction bs with
  | nil => rfl
  | cons b bs ih => rw [run_cons_part (hstep b h), ih]

theorem run_done_length {p : Part} {bs rest : List UInt8} {v : Resp}
    (h : run env depth p bs = .done v rest) : rest.length < bs.length := by
  induction bs generalizing p with
  | nil => cases h
  | cons b bs ih =>
    cases hs : p.step env depth b with
    | part p' =>
      rw [run_cons_part hs] at h
      have := ih h
      simp only [List.length_cons]
      omega
    | value w =>
      rw [run_cons_value hs] at h
      obtain ⟨rfl, rfl⟩ := Run.done.inj h
      simp
    | wild =>
      rw [run_cons_wild hs] at h
      cases h

end Part

/-- The reader of a stream of replies, as a machine over bytes. -/
def reader (env : Envelope) : Incremental.Machine Part UInt8 Resp where
  step p b :=
    match p.step env 1 b with
    | .part p' => some (p', [])
    | .value v => some (.type, [v])
    | .wild => none

theorem reader_run_more {env : Envelope} {p q : Part} {bs : List UInt8}
    (h : p.run env 1 bs = .more q) : (reader env).run p bs = some (q, []) := by
  induction bs generalizing p with
  | nil =>
    obtain rfl := Run.more.inj h
    rfl
  | cons b bs ih =>
    cases hs : p.step env 1 b with
    | part p' =>
      rw [Part.run_cons_part hs] at h
      exact Incremental.Machine.run_cons_some.2 ⟨p', [], [], by simp [reader, hs], ih h, rfl⟩
    | value v =>
      rw [Part.run_cons_value hs] at h
      cases h
    | wild =>
      rw [Part.run_cons_wild hs] at h
      cases h

theorem reader_run_done {env : Envelope} {p q : Part} {v : Resp} {bs rest : List UInt8}
    {out : List Resp} (h : p.run env 1 bs = .done v rest)
    (hrest : (reader env).run .type rest = some (q, out)) :
    (reader env).run p bs = some (q, v :: out) := by
  induction bs generalizing p with
  | nil => cases h
  | cons b bs ih =>
    cases hs : p.step env 1 b with
    | part p' =>
      rw [Part.run_cons_part hs] at h
      exact Incremental.Machine.run_cons_some.2
        ⟨p', [], v :: out, by simp [reader, hs], ih h, rfl⟩
    | value w =>
      rw [Part.run_cons_value hs] at h
      obtain ⟨rfl, rfl⟩ := Run.done.inj h
      exact Incremental.Machine.run_cons_some.2
        ⟨.type, [w], out, by simp [reader, hs], hrest, rfl⟩
    | wild =>
      rw [Part.run_cons_wild hs] at h
      cases h

/-- A run of the stream reader is a reply still open, or a complete one and the run
over the bytes after it. -/
theorem reader_run_cases {env : Envelope} {p q : Part} {bs : List UInt8} {out : List Resp}
    (h : (reader env).run p bs = some (q, out)) :
    (p.run env 1 bs = .more q ∧ out = []) ∨
      ∃ v rest out', p.run env 1 bs = .done v rest ∧
        (reader env).run .type rest = some (q, out') ∧ out = v :: out' := by
  induction bs generalizing p out with
  | nil =>
    obtain ⟨rfl, rfl⟩ := Prod.mk.inj (Option.some.inj h)
    exact .inl ⟨rfl, rfl⟩
  | cons b bs ih =>
    obtain ⟨p', out₁, out₂, hstep, hrun, rfl⟩ := Incremental.Machine.run_cons_some.1 h
    cases hs : p.step env 1 b with
    | part p'' =>
      simp only [reader, hs, Option.some.injEq, Prod.mk.injEq] at hstep
      obtain ⟨rfl, rfl⟩ := hstep
      rw [Part.run_cons_part hs]
      exact ih hrun
    | value v =>
      simp only [reader, hs, Option.some.injEq, Prod.mk.injEq] at hstep
      obtain ⟨rfl, rfl⟩ := hstep
      rw [Part.run_cons_value hs]
      exact .inr ⟨v, bs, out₂, rfl, hrun, rfl⟩
    | wild => simp [reader, hs] at hstep

end KjRedis.Reply
