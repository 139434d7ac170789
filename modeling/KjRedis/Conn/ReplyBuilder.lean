import KjRedis.Reply.CommandBuilder

/-! `CRedisReply` and `KjReplyBuilder`: what a connection makes of the bytes it reads. -/
namespace KjRedis.Conn

open KjRedis.Reply

/-- The characters of a string literal of the source. -/
def ascii (s : String) : List UInt8 := s.toList.map fun c => UInt8.ofNat c.toNat

inductive ReplyType
  | error | bulkString | simpleString | null | integer | array
  deriving DecidableEq, Repr

/-- A cell of `strval` is `none` where the parser left its buffer unset. -/
structure CRedisReply where
  type : ReplyType
  rows : List CRedisReply
  strval : List (Option UInt8)
  intval : Int

namespace CRedisReply

def null : CRedisReply := { type := .null, rows := [], strval := [], intval := 0 }

/-- `set(std::string&&, string_type)` on a new reply; so for the next two. -/
def ofString (value : List (Option UInt8)) (type : ReplyType) : CRedisReply :=
  { null with type, strval := value }

def ofInt (value : Int) : CRedisReply := { null with type := .integer, intval := value }

def ofRows (rows : List CRedisReply) : CRedisReply := { null with type := .array, rows }

def isError (r : CRedisReply) : Bool := r.type = .error

def isArray (r : CRedisReply) : Bool := r.type = .array

def isString (r : CRedisReply) : Bool :=
  r.type = .simpleString ∨ r.type = .bulkString ∨ r.type = .error

def ok (r : CRedisReply) : Bool := !r.isError

theorem ok_iff {r : CRedisReply} : r.ok ↔ ¬ r.isError := by
  rw [ok, Bool.not_eq_true', Bool.not_eq_true]

end CRedisReply

/-- The string resized to `bytes` and overwritten by `redis_reply_as_string`. -/
def replyString (r : RedisReply) : List (Option UInt8) :=
  redisReplyAsString r ++ (List.replicate r.bytes (some 0)).drop (redisReplyAsString r).length

mutual

/-- `none` where an element's type is not one of the five: the exception leaves the
parser through its C frames. -/
def setReply : RedisReply → Option CRedisReply
  | ⟨type, isNull, vall, bytes, intval, arrval, nalloc, elemtype⟩ =>
    if isNull then some .null
    else
      let text := replyString ⟨type, isNull, vall, bytes, intval, none, nalloc, elemtype⟩
      match type with
      | .simpleString => some (.ofString text .simpleString)
      | .errorString => some (.ofString text .error)
      | .integer => some (.ofInt intval)
      | .bulkString => some (.ofString text .bulkString)
      | .array => setArrayReply arrval
      | .unknown => none

def setArrayReply : Option (List RedisReply) → Option CRedisReply
  | none => some (.ofRows [])
  | some elems => (setReplies elems).map .ofRows

def setReplies : List RedisReply → Option (List CRedisReply)
  | [] => some []
  | r :: rs => (setReply r).bind fun reply2 => (setReplies rs).map (reply2 :: ·)

end

/-- A null array becomes an empty one, and an unknown type an error reply. -/
def pushReply (r : RedisReply) : Option CRedisReply :=
  match r.type with
  | .array => setArrayReply r.arrval
  | .unknown => some (.ofString ((ascii "Invalid leading type -- 0!!!").map some) .error)
  | _ => setReply r

def pushReplies : List RedisReply → Option (List CRedisReply)
  | [] => some []
  | r :: rs => (pushReply r).bind fun reply => (pushReplies rs).map (reply :: ·)

theorem setArrayReply_ne_null {arrval : Option (List RedisReply)} : setArrayReply arrval ≠ some .null := by
  cases arrval with
  | none =>
    intro h
    cases h
  | some elems =>
    intro h
    obtain ⟨rows, -, hrows⟩ := Option.map_eq_some_iff.1 h
    cases hrows

theorem setReply_null {r : RedisReply} (h : r.isNull) : setReply r = some .null := by
  obtain ⟨type, isNull, vall, bytes, intval, arrval, nalloc, elemtype⟩ := r
  rw [setReply]
  exact if_pos h

theorem setReply_array {r : RedisReply} (hnull : ¬ r.isNull) (htype : r.type = .array) :
    setReply r = setArrayReply r.arrval := by
  obtain ⟨type, isNull, vall, bytes, intval, arrval, nalloc, elemtype⟩ := r
  obtain rfl : type = .array := htype
  rw [setReply]
  exact if_neg hnull

theorem setReply_unknown {r : RedisReply} (hnull : ¬ r.isNull) (htype : r.type = .unknown) :
    setReply r = none := by
  obtain ⟨type, isNull, vall, bytes, intval, arrval, nalloc, elemtype⟩ := r
  obtain rfl : type = .unknown := htype
  rw [setReply]
  exact if_neg hnull

/-- A reply is converted alike at the top and as an element unless it is a null array, or
has lost its type. -/
theorem pushReply_eq_setReply_iff (r : RedisReply) :
    pushReply r = setReply r ↔ r.type ≠ .unknown ∧ ¬ (r.type = .array ∧ r.isNull) := by
  cases htype : r.type with
  | array =>
    have hpush : pushReply r = setArrayReply r.arrval := by
      unfold pushReply
      rw [htype]
    by_cases hnull : r.isNull
    · rw [hpush, setReply_null hnull]
      exact iff_of_false setArrayReply_ne_null fun h => h.2 ⟨rfl, hnull⟩
    · rw [hpush, setReply_array hnull htype]
      exact iff_of_true rfl ⟨by simp, fun h => hnull h.2⟩
  | unknown =>
    refine iff_of_false ?_ fun h => h.1 rfl
    unfold pushReply
    rw [htype]
    by_cases hnull : r.isNull
    · rw [setReply_null hnull]
      intro h
      cases h
    · rw [setReply_unknown hnull htype]
      intro h
      cases h
  | _ =>
    refine iff_of_true ?_ ⟨by simp, fun h => by cases h.1⟩
    unfold pushReply
    rw [htype]

/-- The reply to an aborted `EXEC`. -/
theorem not_pushReply_eq_setReply : ¬ ∀ (chunk : List UInt8)
    (st : RedisReplyParser × Committed) (delivered : List RedisReply) (rc : Rc),
    feed fresh chunk = some (st, delivered, rc) → ∀ r ∈ delivered, pushReply r = setReply r := by
  intro h
  obtain ⟨st, rc, hfeed⟩ : ∃ st rc, feed fresh (ascii "*-1\r\n") =
      some (st, [{ RedisReply.init with type := .array, isNull := true }], rc) := ⟨_, _, rfl⟩
  have hsame := h _ _ _ _ hfeed _ (List.mem_singleton.2 rfl)
  cases hsame

/-- The replies a chunk completes and whether parsing it throws, as a connection sees it.
`fresh` is what `Reset` restores, the input buffer cleared. -/
structure ReplyParser (ι τ : Type*) where
  fresh : τ
  parse : τ → ι → Option (τ × List CRedisReply × Bool)

/-- `KjReplyBuilder::ProcessInput` on the chunk just committed. One call of
`redis_reply_parse_once` leaves nothing for a second: its code is never `over` or
`again`. -/
def processInput (st : RedisReplyParser × Committed) (chunk : List UInt8) :
    Option ((RedisReplyParser × Committed) × List CRedisReply × Bool) :=
  if (st.2.commit chunk).length = 0 then some ((st.1, st.2.commit chunk), [], false)
  else
    match feed st chunk with
    | none => none
    | some (st, delivered, rc) =>
      (pushReplies delivered).map fun replies => (st, replies, rc ≠ .premature)

def kjReplyBuilder : ReplyParser (List UInt8) (RedisReplyParser × Committed) where
  fresh := fresh
  parse := processInput

/-- Replies that arrive whole. -/
def wholeReplies : ReplyParser (List CRedisReply) Unit where
  fresh := ()
  parse _ replies := some ((), replies, false)

end KjRedis.Conn
