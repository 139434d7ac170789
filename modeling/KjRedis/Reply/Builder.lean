import KjRedis.Base.NxArray
import KjRedis.Base.BipBuf

/-! The reply parser's data: replies, builders and the stack the builders live on. -/
namespace KjRedis.Reply

/-- The codes of `reply_builder.h`. `stray` is no code of the library: the step
touches memory outside the objects it works on. -/
inductive Rc
  | over | again | abort | premature | invalidPath | invalidLeadingChar
  | invalidRrbState | invalidBulkString | stray
  deriving DecidableEq, Repr

inductive LeadingType
  | unknown | simpleString | errorString | integer | bulkString | array
  deriving DecidableEq, Repr

/-- `nx_buf_t`: the bytes of `[pos, last)`, `none` where nothing was written yet,
and the capacity `end - pos`. -/
structure NxBuf where
  data : List (Option UInt8)
  size : Nat
  deriving DecidableEq, Repr

/-- `redis_reply_t`. `vall_tail` is the last link of `vall`; `nalloc` is that of
`arrval`. -/
structure RedisReply where
  type : LeadingType
  isNull : Bool
  vall : List NxBuf
  bytes : Nat
  intval : Int
  arrval : Option (List RedisReply)
  nalloc : Nat
  elemtype : LeadingType
  deriving Repr

def RedisReply.init : RedisReply :=
  { type := .unknown, isNull := false, vall := [], bytes := 0, intval := 0, arrval := none
    nalloc := 0, elemtype := .unknown }

/-- What clearing the first sixteen bytes of a `redis_reply_t` leaves of it. -/
def RedisReply.zeroHead (r : RedisReply) : RedisReply :=
  { r with type := .unknown, isNull := false, vall := [] }

/-- `redis_reply_builder_t`. The `state` stays a number: the builders of one slot
give it different meanings. `storeLen` and `len` are kept below `2 ^ 32` and `depth` below
`2 ^ 8` by what writes them; a call that counts `arridx`, an `int`, up to `2 ^ 31 - 1` strays. -/
structure RedisReplyBuilder where
  depth : Nat
  state : Nat
  storeLen : Nat
  len : Nat
  arridx : Nat
  deriving DecidableEq, Repr

def RedisReplyBuilder.zero : RedisReplyBuilder :=
  { depth := 0, state := 0, storeLen := 0, len := 0, arridx := 0 }

inductive ParseRedisReply
  | idle | running | over
  deriving DecidableEq, Repr

/-- `redis_reply_parser_t`. `builders` is the stack's memory, by address; `rZeroed`
records that a pop cleared the head of the reply while a builder works on it. `parsed`, a
`uint64_t`, is a number: bytes up to `2 ^ 64`. -/
structure RedisReplyParser where
  parsed : Nat
  state : ParseRedisReply
  pool : NxPool
  stackRrb : NxArray
  builders : Nat → RedisReplyBuilder
  rAddr : Nat
  r : RedisReply
  rZeroed : Bool

def sizeofReplyBuilder : Nat := 16
def sizeofReply : Nat := 56
def redisParserPoolSize : Nat := 1024

/-- `create_reply_parser`, and what `reset_reply_parser` restores. -/
def createReplyParser : RedisReplyParser :=
  let pool := NxPool.create redisParserPoolSize
  let (stackRrb, pool) := NxArray.create pool 16 sizeofReplyBuilder
  let (rAddr, pool) := pool.palloc sizeofReply
  { parsed := 0, state := .idle, pool, stackRrb, builders := fun _ => .zero, rAddr
    r := .init, rZeroed := false }

namespace RedisReplyParser

/-- Store through a builder pointer. -/
def write (rrp : RedisReplyParser) (rrb : Nat) (b : RedisReplyBuilder) : RedisReplyParser :=
  { rrp with builders := Function.update rrp.builders rrb b }

def stackPushReplyBuilder (rrp : RedisReplyParser) : Nat × RedisReplyParser :=
  let (rb, stackRrb, pool, builders) := rrp.stackRrb.push rrp.pool rrp.builders
  (rb, { rrp with stackRrb, pool, builders := Function.update builders rb .zero })

/-- `stack_pop_reply_builder` clears sixteen bytes at the popped address: a slot of
the array, the head of the reply that follows the first sixteen slots, free bytes
of the pool's block, or memory that is not the pool's. -/
def stackPopReplyBuilder (rrp : RedisReplyParser) : Option RedisReplyParser :=
  match rrp.stackRrb.pop with
  | (none, _) => none
  | (some rb, stackRrb) =>
    if rrp.stackRrb.nelts < rrp.stackRrb.nalloc then
      some { rrp with stackRrb, builders := Function.update rrp.builders rb .zero }
    else if rb = rrp.rAddr then
      some { rrp with stackRrb, r := rrp.r.zeroHead, rZeroed := true }
    else if rb + sizeofReplyBuilder ≤ rrp.pool.endAddr then
      some { rrp with stackRrb, builders := Function.update rrp.builders rb .zero }
    else none

/-- `stack_alloc_reply_builder`, which takes its depth as a `uint8_t`. -/
def stackAllocReplyBuilder (rrp : RedisReplyParser) (depth : Nat) : Nat × RedisReplyParser :=
  let depth := depth % 2 ^ 8
  match rrp.stackRrb.at? depth with
  | some rb => (rb, rrp)
  | none =>
    let (rb, rrp) := rrp.stackPushReplyBuilder
    (rb, rrp.write rb { rrp.builders rb with depth := depth })

end RedisReplyParser

end KjRedis.Reply
