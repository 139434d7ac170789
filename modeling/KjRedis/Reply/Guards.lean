import KjRedis.Reply.CallStack
import KjRedis.Reply.Progress

/-! When a call of the parser stays inside its objects: a test made before each of its
steps, on the parser, the block and the reply as that step finds them. -/
namespace KjRedis.Reply

/-- What a payload and its terminator still want, as `__build_bulk_string_plain` has it. -/
def wantSize (rrb : RedisReplyBuilder) (b : NxBuf) : Nat :=
  ((rrb.storeLen + 2) % 2 ^ 32 + (2 ^ 64 - b.data.length)) % 2 ^ 64

variable {fuel : Nat} {rrp : RedisReplyParser} {bb : Committed} {r : RedisReply} {o : Out}
  {step : Step} {guard : Guard}

namespace RedisReplyParser

end RedisReplyParser

open RedisReplyParser

end KjRedis.Reply
