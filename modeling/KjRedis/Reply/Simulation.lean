import KjRedis.Reply.Stack
import KjRedis.Reply.Tokens

/-! The parser follows the reader: what a suspended parser holds for a part of a
reply, and what one call of each builder makes of the bytes it is given. -/
namespace KjRedis.Reply

open RedisReplyParser

def NumKind.leading : NumKind → LeadingType
  | .int => .integer
  | .bulkLen => .bulkString
  | .arrayLen => .array

def textLeading (isError : Bool) : LeadingType := if isError then .errorString else .simpleString

def Resp.leading : Resp → LeadingType
  | .text isError _ => textLeading isError
  | .int _ => .integer
  | .nullBulk => .bulkString
  | .bulk _ => .bulkString
  | .nullArray => .array
  | .array _ => .array

/-- `elemtype` after some elements: the type of the last. -/
def lastLeading (done : List Resp) : LeadingType := (done.getLast?.map Resp.leading).getD .unknown

mutual

/-- The `redis_reply_t` the parser leaves for a reply. -/
def Resp.render : Resp → RedisReply
  | .text isError bytes =>
    { RedisReply.init with
      type := textLeading isError, vall := [⟨bytes.map some, simpleStringTempBuffSize⟩]
      bytes := bytes.length }
  | .int v => { RedisReply.init with type := .integer, intval := v }
  | .nullBulk => { RedisReply.init with type := .bulkString, isNull := true }
  | .bulk bytes =>
    { RedisReply.init with
      type := .bulkString, vall := [⟨bytes.map some, bytes.length + 3⟩], bytes := bytes.length }
  | .nullArray => { RedisReply.init with type := .array, isNull := true }
  | .array elems =>
    if elems.length = 0 then { RedisReply.init with type := .array }
    else
      { RedisReply.init with
        type := .array, arrval := some (Resp.renderAll elems), nalloc := elems.length
        elemtype := lastLeading elems }

def Resp.renderAll : List Resp → List RedisReply
  | [] => []
  | v :: vs => v.render :: Resp.renderAll vs

end

theorem Resp.renderAll_eq_map (vs : List Resp) : Resp.renderAll vs = vs.map Resp.render := by
  induction vs with
  | nil => rfl
  | cons v vs ih => rw [Resp.renderAll, ih, List.map_cons]

theorem Resp.render_type (v : Resp) : v.render.type = v.leading := by
  cases v with
  | array elems =>
    rw [Resp.render]
    split <;> rfl
  | _ => simp [Resp.render, Resp.leading]

namespace Part

def leading : Part → LeadingType
  | .type => .unknown
  | .badType => .unknown
  | .text isError _ _ => textLeading isError
  | .num kind _ => kind.leading
  | .payload _ _ => .bulkString
  | .badPayload _ _ => .bulkString
  | .array _ _ _ => .array

/-- The leading character has been read. -/
def started : Part → Bool
  | .type => false
  | .badType => false
  | _ => true

/-- The `redis_reply_t` of a reply of which part has been read. -/
def draft : Part → RedisReply
  | .type => .init
  | .badType => .init
  | .text isError acc _ =>
    { RedisReply.init with
      type := textLeading isError, vall := [⟨acc.map some, simpleStringTempBuffSize⟩] }
  | .num kind _ => { RedisReply.init with type := kind.leading }
  | .payload len acc =>
    { RedisReply.init with type := .bulkString, vall := [⟨acc.map some, len + 3⟩] }
  | .badPayload len acc =>
    { RedisReply.init with type := .bulkString, vall := [⟨acc.map some, len + 3⟩] }
  | .array len done cur =>
    { RedisReply.init with
      type := .array
      arrval := some (done.map Resp.render ++ if cur.started then [cur.draft] else [])
      nalloc := len
      elemtype := if cur.started then cur.leading else lastLeading done }

def height : Part → Nat
  | .array _ _ cur => cur.height + 1
  | _ => 0

/-- Text the parser has copied can only be followed by the end of its line: the next
copy goes to the start of the buffer. -/
def Settled (env : Envelope) : Part → List UInt8 → Prop
  | .text _ acc _, bs => acc = [] ∨ env.textMax ≤ acc.length ∨ bs.head? = some cr
  | .array _ _ cur, bs => cur.Settled env bs
  | _, _ => True

/-- The same of bytes not all of which are there: text is copied down to the last byte
that is, two bytes at least, unless that is a CR. -/
def Copied (env : Envelope) : Part → List UInt8 → Prop
  | .text isError acc gotCr, bs =>
    (Part.text isError acc gotCr).Settled env bs ∨ 2 ≤ acc.length ∧ bs = []
  | .array _ _ cur, bs => cur.Copied env bs
  | _, _ => True

theorem Copied.settled {env : Envelope} (henv : env.textMax ≤ 2) {p : Part} {bs : List UInt8}
    (h : p.Copied env bs) : p.Settled env bs := by
  induction p with
  | text isError acc gotCr =>
    rcases h with h | ⟨hlen, -⟩
    · exact h
    · exact .inr (.inl (Nat.le_trans henv hlen))
  | array len done cur ih => exact ih h
  | _ => trivial

end Part

/-- The deepest builder whose pop clears a slot of the stack's first storage. -/
def maxBuilder : Nat := 14

/-- No line of text is longer than one buffer, and no builder is opened beyond the stack's
first storage. -/
structure Envelope.Shallow (env : Envelope) : Prop where
  text : env.textMax ≤ simpleStringTempBuffSize
  opens : ∀ {depth : Nat} {type : LeadingType}, env.opens depth type → depth ≤ maxBuilder

/-- The builder at `depth` is there, in a state. -/
def RedisReplyParser.At (rrp : RedisReplyParser) (depth state : Nat) : Prop :=
  (rrp.frame depth).depth = depth ∧ (rrp.frame depth).state = state

/-- The builders a suspended parser holds for a part whose own builder is at `depth`.
Of a number nothing is consumed before its CRLF has arrived. -/
def Held (rrp : RedisReplyParser) : Nat → Part → Prop
  | depth, .type => rrp.stackRrb.nelts = depth
  | _, .badType => False
  | depth, .text _ acc gotCr =>
    gotCr = false ∧ rrp.stackRrb.nelts = depth + 1 ∧ depth ≤ maxBuilder ∧ rrp.At depth 2 ∧
      (rrp.frame depth).storeLen = acc.length ∧ acc.length ≤ simpleStringTempBuffSize
  | depth, .num .int acc => acc = [] ∧ rrp.stackRrb.nelts = depth
  | depth, .num _ acc =>
    acc = [] ∧ rrp.stackRrb.nelts = depth + 1 ∧ depth ≤ maxBuilder ∧ rrp.At depth 0 ∧
      (rrp.frame depth).arridx = 0
  | depth, .payload len acc =>
    rrp.stackRrb.nelts = depth + 1 ∧ depth ≤ maxBuilder ∧ rrp.At depth 2 ∧
      (rrp.frame depth).storeLen = len ∧ len < 2 ^ 32 - 3 ∧ acc.length < len + 2
  | depth, .badPayload len acc =>
    rrp.stackRrb.nelts = depth + 1 ∧ depth ≤ maxBuilder ∧ rrp.At depth 2 ∧
      (rrp.frame depth).storeLen = len ∧ len < 2 ^ 32 - 3 ∧ acc.length = len + 2 ∧
      acc.drop len ≠ crlf
  | depth, .array len done cur =>
    depth ≤ maxBuilder ∧ rrp.At depth (if cur.started then 3 else 2) ∧
      (rrp.frame depth).len = len ∧ (rrp.frame depth).arridx = done.length ∧
      done.length < len ∧ Held rrp (depth + 1) cur

/-- What is held for a part rests on the stack's height and on the builders from its
depth on. -/
theorem Held.congr {rrp rrp' : RedisReplyParser} {depth : Nat} {p : Part}
    (hnelts : rrp'.stackRrb.nelts = rrp.stackRrb.nelts)
    (hframe : ∀ i, depth ≤ i → rrp'.frame i = rrp.frame i) (h : Held rrp depth p) :
    Held rrp' depth p := by
  have hown := hframe depth (Nat.le_refl depth)
  induction p generalizing depth with
  | array len done cur ih =>
    obtain ⟨h₁, h₂, h₃, h₄, h₅, h₆⟩ := h
    have hcur := ih (fun i hi => hframe i (by omega)) h₆ (hframe (depth + 1) (by omega))
    refine ⟨h₁, ?_, ?_, ?_, h₅, hcur⟩
    · unfold RedisReplyParser.At
      rw [hown]
      exact h₂
    · rw [hown]
      exact h₃
    · rw [hown]
      exact h₄
  | badType => exact h.elim
  | num kind acc =>
    cases kind <;> simp only [Held, RedisReplyParser.At, hnelts, hown] at h ⊢ <;> exact h
  | _ =>
    simp only [Held, RedisReplyParser.At, hnelts, hown] at h ⊢
    exact h

theorem Held.height_le {rrp : RedisReplyParser} {depth : Nat} {p : Part} (h : Held rrp depth p) :
    depth + p.height ≤ rrp.stackRrb.nelts := by
  induction p generalizing depth with
  | array len done cur ih =>
    have := ih h.2.2.2.2.2
    simp only [Part.height]
    omega
  | badType => exact h.elim
  | num kind acc =>
    cases kind <;> simp only [Held] at h <;> simp only [Part.height] <;> omega
  | _ => simp only [Held, Part.height] at h ⊢; omega

theorem Held.nelts_gt {rrp : RedisReplyParser} {depth : Nat} {p : Part} (h : Held rrp depth p)
    (hlead : p.leading = .array) : depth < rrp.stackRrb.nelts := by
  cases p with
  | num kind acc =>
    cases kind <;> simp only [Held] at h <;> simp [Part.leading, NumKind.leading] at hlead
    omega
  | array len done cur =>
    have := h.height_le
    simp only [Part.height] at this
    omega
  | text isError acc gotCr => cases isError <;> simp [Part.leading, textLeading] at hlead
  | _ => simp [Part.leading] at hlead

/-- No builder for the part yet: its leading character was read just before. -/
def Opened (rrp : RedisReplyParser) (depth : Nat) (p : Part) (r : RedisReply) : Prop :=
  rrp.stackRrb.nelts = depth ∧ r = { RedisReply.init with type := p.leading } ∧
    ((∃ isError, p = .text isError [] false ∧ depth ≤ maxBuilder) ∨ p = .num .int [] ∨
      ∃ kind, p = .num kind [] ∧ depth ≤ maxBuilder)

def Entry (rrp : RedisReplyParser) (depth : Nat) (p : Part) (r : RedisReply) : Prop :=
  (p.started ∧ Held rrp depth p ∧ r = p.draft) ∨ Opened rrp depth p r

/-- What a call returns against what the reader makes of its bytes. `top` is the
stack's height when the reply is complete. -/
def Outcome (env : Envelope) (depth top : Nat) (p : Part) (b : List UInt8)
    (rrp : RedisReplyParser) (o : Out) : Prop :=
  match p.run env depth b with
  | .more q =>
    o.rc = q.code ∧ Keeps depth rrp o.rrp ∧
      ∃ p', p'.started ∧ Held o.rrp depth p' ∧ o.r = p'.draft ∧
        p'.run env depth o.bb = .more q ∧ p'.Copied env o.bb
  | .done v rest =>
    o.rc = .over ∧ Keeps depth rrp o.rrp ∧ o.rrp.stackRrb.nelts = top ∧ o.bb = rest ∧
      o.r = v.render
  | .wild => True

theorem Outcome.transfer {env : Envelope} {depth top : Nat} {p p₁ : Part} {b b₁ : List UInt8}
    {rrp rrp₁ : RedisReplyParser} {o : Out} (hrun : p.run env depth b = p₁.run env depth b₁)
    (hkeeps : Keeps depth rrp rrp₁) (h : Outcome env depth top p₁ b₁ rrp₁ o) :
    Outcome env depth top p b rrp o := by
  unfold Outcome at h ⊢
  rw [hrun]
  cases h' : p₁.run env depth b₁ with
  | more q =>
    rw [h'] at h
    exact ⟨h.1, hkeeps.trans h.2.1, h.2.2⟩
  | done v rest =>
    rw [h'] at h
    exact ⟨h.1, hkeeps.trans h.2.1, h.2.2⟩
  | wild => trivial

theorem Part.code_ne (q : Part) : q.code ≠ .again ∧ q.code ≠ .over := by
  induction q with
  | array len done cur ih => exact ih
  | _ => exact ⟨by simp [Part.code], by simp [Part.code]⟩

/-- A loop that ends leaves its builder's scope as `RRB_LOOP_END` does. -/
theorem withBuilder_outcome {env : Envelope} {fuel depth : Nat} (step : Nat → Step) {p : Part}
    {b : List UInt8} {rrp rrp₁ : RedisReplyParser} {rrb : Nat} {r : RedisReply}
    (hfs : rrp.FirstStorage) (hdepth : depth ≤ maxBuilder)
    (halloc : rrp.stackAllocReplyBuilder depth = (rrb, rrp₁)) (hkeeps : Keeps depth rrp rrp₁)
    (hwild : p.run env depth b ≠ .wild)
    (hloop : ∃ o, rrbLoop (step rrb) fuel rrp₁ b r = some o ∧
      Outcome env depth (depth + 1) p b rrp₁ o) :
    ∃ o, withBuilder fuel depth step rrp b r = some o ∧ Outcome env depth depth p b rrp o := by
  obtain ⟨o, hrun, hout⟩ := hloop
  have hout' := hout.transfer rfl hkeeps
  unfold withBuilder
  simp only [halloc, hrun]
  unfold Outcome at hout'
  cases hread : p.run env depth b with
  | more q =>
    rw [hread] at hout'
    refine ⟨o, if_neg ?_, ?_⟩
    · rw [hout'.1]
      exact q.code_ne.2
    · unfold Outcome
      rw [hread]
      exact hout'
  | done v rest =>
    rw [hread] at hout'
    obtain ⟨hrc, hk, htop, hbb, hr⟩ := hout'
    obtain ⟨rrp₂, hpop, hk₂, hnelts⟩ := pop_keeps (hk.firstStorage hfs) htop hdepth
    refine ⟨{ o with rrp := rrp₂ }, ?_, ?_⟩
    · rw [if_pos hrc]
      simp only [hpop]
    · unfold Outcome
      rw [hread]
      exact ⟨hrc, hk.trans hk₂, hnelts, hbb, hr⟩
  | wild => exact absurd hread hwild

theorem rrbLoop_again {step : Step} {fuel : Nat} {rrp : RedisReplyParser} {b : Committed}
    {r : RedisReply} {o : Out} (h : step rrp b r = some o) (hrc : o.rc = .again) :
    rrbLoop step (fuel + 1) rrp b r = rrbLoop step fuel o.rrp o.bb o.r := by
  simp only [rrbLoop, h, if_pos hrc]

theorem rrbLoop_stop {step : Step} {fuel : Nat} {rrp : RedisReplyParser} {b : Committed}
    {r : RedisReply} {o : Out} (h : step rrp b r = some o) (hrc : o.rc ≠ .again) :
    rrbLoop step (fuel + 1) rrp b r = some o := by
  simp only [rrbLoop, h, if_neg hrc]

end KjRedis.Reply
