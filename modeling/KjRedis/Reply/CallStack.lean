import KjRedis.Reply.ArraySpec
import KjRedis.Reply.ParserSpec
import KjRedis.Reply.TextCopy

/-! The calls of the builders that are open at a time, each with the pointer it took off
the builder stack as it began. The stack may move; the pointers stay. -/
namespace KjRedis.Reply

/-- A builder's call: its `rrb`, and the parser as its current round began. -/
structure OpenCall where
  rrb : Nat
  rrp : RedisReplyParser

/-- The calls open in each round of a step that opens builders, outermost first. -/
abbrev Stacks := RedisReplyParser → Committed → RedisReply → List (List OpenCall)

def noCall : Stacks := fun _ _ _ => [[]]

/-- The rounds of `rrbLoop step`, in each of them the calls that `inner` opens. -/
def loopStacks (step : Step) (inner : Stacks) (rrb : Nat) : Nat → Stacks
  | 0, _, _, _ => [[]]
  | fuel + 1, rrp, bb, r =>
    (inner rrp bb r).map (⟨rrb, rrp⟩ :: ·) ++
      match step rrp bb r with
      | none => []
      | some o => if o.rc = .again then loopStacks step inner rrb fuel o.rrp o.bb o.r else []

def builderStacks (fuel depth : Nat) (step : Nat → Step) (inner : Nat → Stacks) : Stacks :=
  fun rrp bb r =>
    let (rrb, rrp) := rrp.stackAllocReplyBuilder depth
    loopStacks (step rrb) (inner rrb) rrb fuel rrp bb r

def byTypeStacks (recArray : Nat → Stacks) (fuel rrb : Nat) : Stacks := fun rrp bb r =>
  match r.type with
  | .simpleString | .errorString =>
    builderStacks fuel ((rrp.builders rrb).depth + 1) lineStep (fun _ => noCall) rrp bb r
  | .bulkString => builderStacks fuel ((rrp.builders rrb).depth + 1) bulkStep (fun _ => noCall) rrp bb r
  | .array => recArray rrb rrp bb r
  | .integer | .unknown => [[]]

/-- The element `__build_array_element` builds. -/
def currentElement (b : RedisReplyBuilder) (r : RedisReply) : RedisReply :=
  (r.arrval.getD []).getD b.arridx { RedisReply.init with type := r.elemtype }

def elementStacks (recArray : Nat → Stacks) (fuel rrb : Nat) : Stacks := fun rrp bb r =>
  if (rrp.builders rrb).state = 3 then
    byTypeStacks recArray fuel rrb rrp bb (currentElement (rrp.builders rrb) r)
  else [[]]

def arrayStacks : Nat → Nat → Stacks
  | 0, _ => noCall
  | fuel + 1, rrb => fun rrp bb r =>
    builderStacks fuel ((rrp.builders rrb).depth + 1) (arrayStep (rBuildArray fuel) fuel)
      (elementStacks (arrayStacks fuel) fuel) rrp bb r

def contentStacks (fuel rrb : Nat) : Stacks := fun rrp bb r =>
  if (rrp.builders rrb).state = 2 then byTypeStacks (arrayStacks fuel) fuel rrb rrp bb r else [[]]

def replyStacks (fuel : Nat) (rrp : RedisReplyParser) (bb : Committed) : List (List OpenCall) :=
  builderStacks fuel 0 (replyStep fuel) (contentStacks fuel) rrp bb rrp.r

/-- The calls open at every time of one `redis_reply_parse_once`. -/
def parseStacks (fuel : Nat) : Nat → Rc → RedisReplyParser → Committed → List (List OpenCall)
  | 0, _, _, _ => []
  | rounds + 1, rc, rrp, bb =>
    if rrp.state ≠ .over ∧ (rc = .again ∨ rc = .over) then
      replyStacks fuel rrp bb ++
        match rBuildReply fuel rrp bb with
        | none => []
        | some o =>
          if o.rc = .over then parseStacks fuel rounds .over { o.rrp with r := .init } o.bb
          else []
    else []

end KjRedis.Reply
