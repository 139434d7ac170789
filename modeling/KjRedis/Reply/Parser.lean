import KjRedis.Reply.Builder

/-! The reply parser: the five builders and `redis_reply_parse_once`. The loops and
the recursion of `r_build_array` take fuel; running out is `none`. -/
namespace KjRedis.Reply

/-- What a builder call leaves: its code, the parser, the buffer and the reply it
was handed. -/
structure Out where
  rc : Rc
  rrp : RedisReplyParser
  bb : Committed
  r : RedisReply

abbrev Step := RedisReplyParser → Committed → RedisReply → Option Out

/-- The loop of `RRB_LOOP_BEGIN` and `RRB_LOOP_END` around one builder's switch. -/
def rrbLoop (step : Step) : Nat → Step
  | 0, _, _, _ => none
  | fuel + 1, rrp, bb, r =>
    match step rrp bb r with
    | none => none
    | some o => if o.rc = .again then rrbLoop step fuel o.rrp o.bb o.r else some o

/-- Allocate the builder of a depth, loop, and pop it when the loop ends in `over`. -/
def withBuilder (fuel depth : Nat) (step : Nat → Step) : Step := fun rrp bb r =>
  let (rrb, rrp) := rrp.stackAllocReplyBuilder depth
  match rrbLoop (step rrb) fuel rrp bb r with
  | none => none
  | some o =>
    if o.rc = .over then
      match o.rrp.stackPopReplyBuilder with
      | some rrp => some { o with rrp }
      | none => some { o with rc := .stray }
    else some o

def redisReplyReadLeading (bb : Committed) : Option UInt8 := bb.head?

def minus : UInt8 := 45
def zeroChar : UInt8 := 48

def wrapInt64 (v : Int) : Int := v.bmod (2 ^ 64)

/-- One character of `redis_reply_read_integer`'s loop: any `-` makes the number
negative and every other character counts as a digit. -/
def readDigit (acc : Int × Int) (c : UInt8) : Int × Int :=
  if c = minus then (acc.1, -1)
  else (wrapInt64 (acc.1 * 10 + (c.toInt8.toInt - zeroChar.toInt8.toInt)), acc.2)

def toInteger (text : List UInt8) : Int :=
  let (v64, negativeMul) := text.foldl readDigit (0, 1)
  wrapInt64 (v64 * negativeMul)

def redisReplyReadInteger (bb : Committed) : Option (Int × Nat) :=
  if bb.length < 2 then none
  else
    match bb.findStr crlf with
    | none => none
    | some appendSize => some (toInteger (bb.take appendSize), appendSize + 2)

def rBuildInteger (rrp : RedisReplyParser) (bb : Committed) :
    Option Int × RedisReplyParser × Committed :=
  match redisReplyReadInteger bb with
  | none => (none, rrp, bb)
  | some (v, n) => (some v, { rrp with parsed := rrp.parsed + n }, bb.decommit n)

/-- `r_build_integer` on `&r->intval`. -/
def rBuildIntval : Step := fun rrp bb r =>
  match rBuildInteger rrp bb with
  | (none, rrp, bb) => some { rc := .premature, rrp, bb, r }
  | (some v, rrp, bb) => some { rc := .over, rrp, bb, r := { r with intval := v } }

def simpleStringTempBuffSize : Nat := 4096

def NxBuf.create (size : Nat) : NxBuf := { data := [], size }

/-- The copy of `__build_simple_string_plain` goes to `b->pos` while `b->last`
advances: the old bytes are overwritten and as many cells at the end stay unset. -/
def NxBuf.appendAtPos (b : NxBuf) (text : List UInt8) : NxBuf :=
  { b with data := text.map some ++
      (b.data ++ List.replicate text.length none).drop text.length }

/-- The append loop. Every round copies from `p1`, the start of the text. -/
def simpleStringAppend (text : List UInt8) :
    Nat → Nat → List NxBuf → RedisReplyBuilder → Option (List NxBuf × RedisReplyBuilder)
  | _, 0, vall, b => some (vall, b)
  | 0, _ + 1, _, _ => none
  | fuel + 1, remainSize, vall, rrb =>
    match vall.getLast? with
    | none => none
    | some b =>
      if b.size - b.data.length = 0 then
        let b := NxBuf.create simpleStringTempBuffSize
        let appendSize := min simpleStringTempBuffSize remainSize
        simpleStringAppend text fuel (remainSize - appendSize)
          (vall ++ [b.appendAtPos (text.take appendSize)])
          { rrb with len := (rrb.len + 1) % 2 ^ 32
                     storeLen := (rrb.storeLen + appendSize) % 2 ^ 32 }
      else
        let appendSize := min (b.size - b.data.length) remainSize
        simpleStringAppend text fuel (remainSize - appendSize)
          (vall.dropLast ++ [b.appendAtPos (text.take appendSize)])
          { rrb with storeLen := (rrb.storeLen + appendSize) % 2 ^ 32 }

def buildSimpleStringInit (rrb : Nat) : Step := fun rrp bb r =>
  some
    { rc := .again
      rrp := rrp.write rrb { rrp.builders rrb with storeLen := 0, len := 1, state := 2 }
      bb
      r := { r with vall := r.vall ++ [NxBuf.create simpleStringTempBuffSize] } }

def buildSimpleStringPlain (rrb : Nat) : Step := fun rrp bb r =>
  if bb.length < 2 then some { rc := .premature, rrp, bb, r }
  else
    let found := bb.findStr crlf
    let (consumeSize, remainSize) :=
      match found with
      | none => if bb.getLast? = some cr then (bb.length - 1, bb.length - 1) else (bb.length, bb.length)
      | some p2 => (p2 + 2, p2)
    match simpleStringAppend bb remainSize remainSize r.vall (rrp.builders rrb) with
    | none => some { rc := .stray, rrp, bb, r }
    | some (vall, b) =>
      let rrp := rrp.write rrb b
      let rrp := { rrp with parsed := rrp.parsed + consumeSize }
      let bb := bb.decommit consumeSize
      if found.isSome then some { rc := .over, rrp, bb, r := { r with vall, bytes := b.storeLen } }
      else some { rc := .premature, rrp, bb, r := { r with vall } }

def rBuildSimpleString (fuel rrb : Nat) : Step := fun rrp bb r =>
  withBuilder fuel ((rrp.builders rrb).depth + 1) (fun subRrb rrp bb r =>
    match (rrp.builders subRrb).state with
    | 0 | 1 => buildSimpleStringInit subRrb rrp bb r
    | 2 => buildSimpleStringPlain subRrb rrp bb r
    | _ => some { rc := .invalidRrbState, rrp, bb, r }) rrp bb r

def toUint32 (v : Int) : Nat := (v % 2 ^ 32).toNat

def buildBulkStringStoreLen (rrb : Nat) : Step := fun rrp bb r =>
  match rBuildInteger rrp bb with
  | (none, rrp, bb) => some { rc := .premature, rrp, bb, r }
  | (some len, rrp, bb) =>
    if 0 ≤ len then
      let storeLen := toUint32 len
      some
        { rc := .again
          rrp := rrp.write rrb { rrp.builders rrb with storeLen, len := 1, state := 2 }
          bb
          r := { r with vall := r.vall ++ [NxBuf.create ((storeLen + 3) % 2 ^ 32)] } }
    else some { rc := .over, rrp, bb, r := { r with isNull := true, bytes := 0 } }

/-- The terminator is checked after the copy and before the bytes are decommitted. -/
def buildBulkStringPlain (rrb : Nat) : Step := fun rrp bb r =>
  match r.vall.getLast? with
  | none => some { rc := .stray, rrp, bb, r }
  | some b =>
    let storeLen := (rrp.builders rrb).storeLen
    let wantSize := ((storeLen + 2) % 2 ^ 32 + (2 ^ 64 - b.data.length)) % 2 ^ 64
    let consumeSize := min bb.length wantSize
    let data := b.data ++ (bb.take consumeSize).map some
    if b.size < data.length then some { rc := .stray, rrp, bb, r }
    else if consumeSize = wantSize then
      if data.length < 2 then some { rc := .stray, rrp, bb, r }
      else if data.drop (data.length - 2) ≠ crlf.map some then
        some
          { rc := .invalidBulkString, rrp, bb
            r := { r with vall := r.vall.dropLast ++ [{ b with data }] } }
      else
        some
          { rc := .over
            rrp := { rrp with parsed := rrp.parsed + consumeSize }
            bb := bb.decommit consumeSize
            r := { r with vall := r.vall.dropLast ++ [{ b with data := data.take (data.length - 2) }]
                          bytes := storeLen } }
    else
      some
        { rc := .premature
          rrp := { rrp with parsed := rrp.parsed + consumeSize }
          bb := bb.decommit consumeSize
          r := { r with vall := r.vall.dropLast ++ [{ b with data }] } }

def rBuildBulkString (fuel rrb : Nat) : Step := fun rrp bb r =>
  withBuilder fuel ((rrp.builders rrb).depth + 1) (fun subRrb rrp bb r =>
    match (rrp.builders subRrb).state with
    | 0 | 1 => buildBulkStringStoreLen subRrb rrp bb r
    | 2 => buildBulkStringPlain subRrb rrp bb r
    | _ => some { rc := .invalidRrbState, rrp, bb, r }) rrp bb r

def leadingType (leading : UInt8) : Option LeadingType :=
  if leading = 43 then some .simpleString
  else if leading = 45 then some .errorString
  else if leading = 58 then some .integer
  else if leading = 36 then some .bulkString
  else if leading = 42 then some .array
  else none

def buildArrayLen (rrb : Nat) : Step := fun rrp bb r =>
  match rBuildInteger rrp bb with
  | (none, rrp, bb) => some { rc := .premature, rrp, bb, r }
  | (some len, rrp, bb) =>
    if 0 < len then
      some
        { rc := .again
          rrp := rrp.write rrb
            { rrp.builders rrb with storeLen := 0, len := toUint32 len, state := 2 }
          bb
          r := { r with arrval := some [], nalloc := toUint32 len } }
    else
      some
        { rc := .over, rrp, bb
          r := { r with isNull := decide (len < 0), elemtype := .unknown, arrval := none } }

def buildArrayElementType (rrb : Nat) : Step := fun rrp bb r =>
  match redisReplyReadLeading bb with
  | none => some { rc := .premature, rrp, bb, r }
  | some leading =>
    match leadingType leading with
    | none => some { rc := .invalidLeadingChar, rrp, bb, r }
    | some type =>
      let rrp := rrp.write rrb { rrp.builders rrb with state := 3 }
      some
        { rc := .again
          rrp := { rrp with parsed := rrp.parsed + 1 }
          bb := bb.decommit 1
          r := { r with elemtype := type } }

/-- The switch over a reply's type that `__build_reply_content` makes for the top
reply and `__build_array_element` for an element. -/
def buildByType (rBuildArray : Nat → Step) (fuel rrb : Nat) : Step := fun rrp bb r =>
  match r.type with
  | .simpleString => rBuildSimpleString fuel rrb rrp bb r
  | .errorString => rBuildSimpleString fuel rrb rrp bb r
  | .integer => rBuildIntval rrp bb r
  | .bulkString => rBuildBulkString fuel rrb rrp bb r
  | .array => rBuildArray rrb rrp bb r
  | .unknown => some { rc := .invalidLeadingChar, rrp, bb, r }

/-- The end of `__build_array_element`: `arridx` is an `int`, compared unsigned. -/
def buildArrayElementEnd (rrb : Nat) (r : RedisReply) (o : Out) : Out :=
  if o.rc = .over then
    let b := o.rrp.builders rrb
    let b := { b with arridx := b.arridx + 1 }
    if 2 ^ 31 ≤ b.arridx + 1 then { o with rc := .stray, r }
    else if b.arridx + 1 ≤ b.len then
      { o with rc := .again, rrp := o.rrp.write rrb { b with state := 2 }, r }
    else { o with rrp := o.rrp.write rrb b, r }
  else { o with r }

/-- `__build_array_element`. An array of capacity 0 has no room for an element. -/
def buildArrayElement (rBuildArray : Nat → Step) (fuel rrb : Nat) : Step := fun rrp bb r =>
  match r.arrval with
  | none => some { rc := .stray, rrp, bb, r }
  | some elems =>
    let arridx := (rrp.builders rrb).arridx
    if elems.length ≤ arridx ∧ r.nalloc = 0 then some { rc := .stray, rrp, bb, r }
    else
      let elems :=
        if elems.length ≤ arridx then elems ++ [{ RedisReply.init with type := r.elemtype }]
        else elems
      let index := min arridx (elems.length - 1)
      match elems[index]? with
      | none => some { rc := .stray, rrp, bb, r }
      | some r2 =>
        match buildByType rBuildArray fuel rrb rrp bb r2 with
        | none => none
        | some o => some (buildArrayElementEnd rrb { r with arrval := some (elems.set index o.r) } o)

def rBuildArray : Nat → Nat → Step
  | 0, _ => fun _ _ _ => none
  | fuel + 1, rrb => fun rrp bb r =>
    withBuilder fuel ((rrp.builders rrb).depth + 1) (fun subRrb rrp bb r =>
      match (rrp.builders subRrb).state with
      | 0 | 1 => buildArrayLen subRrb rrp bb r
      | 2 => buildArrayElementType subRrb rrp bb r
      | 3 => buildArrayElement (rBuildArray fuel) fuel subRrb rrp bb r
      | _ => some { rc := .invalidRrbState, rrp, bb, r }) rrp bb r

def buildReplyType (rrb : Nat) : Step := fun rrp bb r =>
  match redisReplyReadLeading bb with
  | none => some { rc := .premature, rrp, bb, r }
  | some leading =>
    match leadingType leading with
    | none => some { rc := .invalidLeadingChar, rrp, bb, r }
    | some type =>
      let rrp := rrp.write rrb { rrp.builders rrb with state := 2 }
      some
        { rc := .again
          rrp := { rrp with parsed := rrp.parsed + 1 }
          bb := bb.decommit 1
          r := { r with type } }

def buildReplyContent (fuel rrb : Nat) : Step :=
  buildByType (rBuildArray fuel) fuel rrb

/-- The reply built here is `rrp->r` itself: a pop that cleared its head meanwhile
shows in what the call leaves. -/
def rBuildReply (fuel : Nat) (rrp : RedisReplyParser) (bb : Committed) : Option Out :=
  match withBuilder fuel 0 (fun rrb rrp bb r =>
      match (rrp.builders rrb).state with
      | 0 | 1 => buildReplyType rrb rrp bb r
      | 2 => buildReplyContent fuel rrb rrp bb r
      | _ => some { rc := .invalidRrbState, rrp, bb, r }) rrp bb rrp.r with
  | none => none
  | some o =>
    if o.rrp.rZeroed then
      some { o with rrp := { o.rrp with rZeroed := false }, r := o.r.zeroHead }
    else some o

/-- A call's parser, buffer, code and the replies it passed to `r_cb`. -/
structure ParseOut where
  rrp : RedisReplyParser
  bb : Committed
  rc : Rc
  delivered : List RedisReply

def parseLoop (rCb : RedisReply → Int) (fuel : Nat) :
    Nat → Rc → RedisReplyParser → Committed → Option ParseOut
  | 0, _, _, _ => none
  | rounds + 1, rc, rrp, bb =>
    if rrp.state ≠ .over ∧ (rc = .again ∨ rc = .over) then
      match rBuildReply fuel rrp bb with
      | none => none
      | some o =>
        if o.rc = .over then
          if rCb o.r = 0 then
            match parseLoop rCb fuel rounds .over { o.rrp with r := .init } o.bb with
            | none => none
            | some res => some { res with delivered := o.r :: res.delivered }
          else
            some { rrp := { o.rrp with r := o.r, state := .over }, bb := o.bb, rc := .abort
                   delivered := [o.r] }
        else parseLoop rCb fuel rounds o.rc { o.rrp with r := o.r } o.bb
    else some { rrp, bb, rc, delivered := [] }

/-- Every loop round but a few consumes a byte, and the recursion is as deep as the
stack and the bytes left. -/
def parseFuel (rrp : RedisReplyParser) (bb : Committed) : Nat :=
  bb.length + rrp.stackRrb.nelts + 4

def redisReplyParseOnce (rCb : RedisReply → Int) (rrp : RedisReplyParser) (bb : Committed) :
    Option ParseOut :=
  parseLoop rCb (parseFuel rrp bb) (parseFuel rrp bb) .again rrp bb

/-- Commit a chunk and parse, with a callback that always returns 0. -/
def feed (st : RedisReplyParser × Committed) (chunk : List UInt8) :
    Option ((RedisReplyParser × Committed) × List RedisReply × Rc) :=
  match redisReplyParseOnce (fun _ => 0) st.1 (st.2.commit chunk) with
  | none => none
  | some o => some ((o.rrp, o.bb), o.delivered, o.rc)

def fresh : RedisReplyParser × Committed := (createReplyParser, [])

end KjRedis.Reply
