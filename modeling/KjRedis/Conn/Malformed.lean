import KjRedis.Conn.Connection
import KjRedis.Reply.Extension

/-! A chunk with bytes in it that the parser refuses. The replies complete before them
stay in the builder, and no later chunk gets them out. -/
namespace KjRedis.Conn

open KjRedis.Reply

namespace KjRedisConn

variable {ι τ : Type*} {P : ReplyParser ι τ} {intake : CRedisReply → Option CRedisReply}

/-- What a call of `OnClientReceive` has done to the pipelines: the callbacks called, the
pipelines left, how many of them are committed, and whether it threw. -/
def dispatched (o : KjRedisConn τ × Bool) : List Call × List CmdPipeline × Int × Bool :=
  (o.1.calls, o.1.dqCommon, o.1.committingNum, o.2)

/-- The loop goes on with more replies, unless it has thrown. -/
def thenReplies (intake : CRedisReply → Option CRedisReply) (more : List CRedisReply) :
    KjRedisConn τ × Bool → KjRedisConn τ × Bool
  | (c, true) => (c, true)
  | (c, false) => replyLoop intake more c

/-- The whole chunk is handled as its beginning alone would be, and then whatever replies
the parser takes the rest for. -/
def HandsOver (P : ReplyParser (List UInt8) τ) (c : KjRedisConn τ) (good bad : List UInt8) : Prop :=
  ∃ more, (c.onClientReceive P some (good ++ bad)).map dispatched =
    (c.onClientReceive P some good).map fun o => dispatched (thenReplies some more o)

/-- The parser stops at a byte of the chunk with an error. -/
def Refuses (P : ReplyParser ι τ) (parser : τ) (chunk : ι) : Prop :=
  ∃ parser' replies, P.parse parser chunk = some (parser', replies, true)

/-- Two connections with the same pipelines, whatever they have read. -/
structure SamePipelines (c c' : KjRedisConn τ) : Prop where
  calls : c.calls = c'.calls
  dqCommon : c.dqCommon = c'.dqCommon
  committingNum : c.committingNum = c'.committingNum

theorem SamePipelines.dispatched {c c' : KjRedisConn τ} (h : SamePipelines c c') (threw : Bool) :
    dispatched (c, threw) = KjRedisConn.dispatched (c', threw) := by
  simp only [KjRedisConn.dispatched, h.calls, h.dqCommon, h.committingNum]

theorem SamePipelines.onReply {c c' : KjRedisConn τ} (h : SamePipelines c c') (reply : CRedisReply) :
    SamePipelines (c.onReply reply).1 (c'.onReply reply).1 ∧
      (c.onReply reply).2 = (c'.onReply reply).2 := by
  rw [KjRedisConn.onReply, KjRedisConn.onReply, h.dqCommon, h.committingNum, h.calls]
  split
  · exact ⟨h, rfl⟩
  · split
    · exact ⟨h, rfl⟩
    · split
      · exact ⟨h, rfl⟩
      · split
        · split
          · exact ⟨⟨rfl, rfl, rfl⟩, rfl⟩
          · exact ⟨⟨rfl, rfl, rfl⟩, rfl⟩
        · exact ⟨⟨rfl, rfl, rfl⟩, rfl⟩

/-- What a loop does first, of a longer list as of a shorter one: it refuses the reply, or
has taken it and is left with the same pipelines. -/
theorem SamePipelines.replyLoop_cons {c c' : KjRedisConn τ} (h : SamePipelines c c')
    (reply : CRedisReply) (replies replies' : List CRedisReply) :
    (∃ c₁ c₁', SamePipelines c₁ c₁' ∧ replyLoop intake (reply :: replies) c = (c₁, true) ∧
        replyLoop intake (reply :: replies') c' = (c₁', true)) ∨
      ∃ c₁ c₁', SamePipelines c₁ c₁' ∧
        replyLoop intake (reply :: replies) c = replyLoop intake replies c₁ ∧
        replyLoop intake (reply :: replies') c' = replyLoop intake replies' c₁' := by
  have hnext : SamePipelines { c with availableReplies := replies }
      { c' with availableReplies := replies' } := ⟨h.calls, h.dqCommon, h.committingNum⟩
  rw [KjRedisConn.replyLoop, KjRedisConn.replyLoop]
  split
  · exact .inl ⟨_, _, hnext, rfl, rfl⟩
  · split
    · exact .inr ⟨_, _, hnext, rfl, rfl⟩
    · next reply' _ =>
      obtain ⟨hsame, hthrew⟩ := hnext.onReply reply'
      generalize KjRedisConn.onReply { c with availableReplies := replies } reply' = o at *
      generalize KjRedisConn.onReply { c' with availableReplies := replies' } reply' = o' at *
      obtain ⟨c₁, threw⟩ := o
      obtain ⟨c₁', threw'⟩ := o'
      obtain rfl : threw = threw' := hthrew
      cases threw with
      | true => exact .inl ⟨_, _, hsame, rfl, rfl⟩
      | false => exact .inr ⟨_, _, hsame, rfl, rfl⟩

theorem SamePipelines.replyLoop {c c' : KjRedisConn τ} (h : SamePipelines c c')
    (replies : List CRedisReply) :
    KjRedisConn.dispatched (replyLoop intake replies c) =
      KjRedisConn.dispatched (KjRedisConn.replyLoop intake replies c') := by
  induction replies generalizing c c' with
  | nil =>
    apply SamePipelines.dispatched
    exact ⟨h.calls, h.dqCommon, h.committingNum⟩
  | cons reply replies ih =>
    rcases @SamePipelines.replyLoop_cons _ intake c c' h reply replies replies with
      ⟨c₁, c₁', hsame, heq, heq'⟩ | ⟨c₁, c₁', hsame, heq, heq'⟩
    · rw [heq, heq']
      exact hsame.dispatched true
    · rw [heq, heq']
      exact ih hsame

theorem SamePipelines.replyLoop_append {c c' : KjRedisConn τ} (h : SamePipelines c c')
    (replies more : List CRedisReply) :
    KjRedisConn.dispatched (KjRedisConn.replyLoop intake (replies ++ more) c) =
      KjRedisConn.dispatched (thenReplies intake more (KjRedisConn.replyLoop intake replies c')) := by
  induction replies generalizing c c' with
  | nil =>
    apply SamePipelines.replyLoop
    exact ⟨h.calls, h.dqCommon, h.committingNum⟩
  | cons reply replies ih =>
    rcases @SamePipelines.replyLoop_cons _ intake c c' h reply (replies ++ more) replies with
      ⟨c₁, c₁', hsame, heq, heq'⟩ | ⟨c₁, c₁', hsame, heq, heq'⟩
    · rw [List.cons_append, heq, heq']
      exact hsame.dispatched true
    · rw [List.cons_append, heq, heq']
      exact ih hsame

/-- The replies counted for the front pipeline. -/
def processed (c : KjRedisConn τ) : Nat := (c.dqCommon.head?.map (·.processedNum)).getD 0

/-- A reply that does not make the loop throw pops the front pipeline or is counted for it. -/
theorem OnReply.moves {c c' : KjRedisConn τ} {reply : CRedisReply}
    (h : OnReply c reply (c', false)) :
    c'.dqCommon.length < c.dqCommon.length ∨
      c'.dqCommon.length = c.dqCommon.length ∧ c'.processed = c.processed + 1 := by
  cases h with
  | counted cp dq hdq =>
    right
    simp [processed, hdq, CmdPipeline.counted]
  | finished cp dq hdq =>
    left
    simp [hdq]

theorem replyLoop_moves {c c' : KjRedisConn τ} {replies : List CRedisReply}
    (h : replyLoop some replies c = (c', false)) :
    c'.dqCommon.length < c.dqCommon.length ∨
      c'.dqCommon.length = c.dqCommon.length ∧ c'.processed = c.processed + replies.length := by
  induction replies generalizing c with
  | nil =>
    cases h
    exact .inr ⟨rfl, rfl⟩
  | cons reply replies ih =>
    rw [replyLoop] at h
    simp only at h
    split at h
    · cases h
    · split at h
      · cases h
      · next c₁ hreply =>
        have hmoves := OnReply.moves (hreply ▸ onReply_spec { c with availableReplies := replies } reply)
        simp only [processed, List.length_cons] at hmoves ih ⊢
        have := ih h
        omega

/-- A loop that leaves the pipelines as they were has had no reply to take. -/
theorem eq_nil_of_dispatched {c c' : KjRedisConn τ} {replies : List CRedisReply}
    (h : dispatched (replyLoop some replies c) = dispatched (c', false))
    (hsame : c'.dqCommon = c.dqCommon) : replies = [] := by
  generalize hloop : replyLoop some replies c = o at h
  obtain ⟨c₁, threw⟩ := o
  simp only [dispatched, Prod.mk.injEq] at h
  obtain ⟨-, hdq, -, rfl⟩ := h
  rcases replyLoop_moves hloop with hless | ⟨-, hmore⟩
  · rw [hdq, hsame] at hless
    exact absurd hless (Nat.lt_irrefl _)
  · rw [processed, processed, hdq, hsame] at hmore
    exact List.eq_nil_of_length_eq_zero (Nat.left_eq_add.1 hmore)

end KjRedisConn

theorem pushReplies_prefix {rs rs' : List RedisReply} {replies replies' : List CRedisReply}
    (h : rs <+: rs') (hpush : pushReplies rs = some replies) (hpush' : pushReplies rs' = some replies') :
    replies <+: replies' := by
  induction rs generalizing rs' replies replies' with
  | nil =>
    cases hpush
    exact List.nil_prefix
  | cons r rs ih =>
    obtain ⟨rest, rfl⟩ := h
    rw [List.cons_append] at hpush'
    simp only [pushReplies, Option.bind_eq_some_iff, Option.map_eq_some_iff] at hpush hpush'
    obtain ⟨reply, hreply, replies, hreplies, rfl⟩ := hpush
    obtain ⟨reply', hreply', replies', hreplies', rfl⟩ := hpush'
    obtain rfl : reply = reply' := Option.some.inj (hreply.symm.trans hreply')
    exact List.cons_prefix_cons.2 ⟨rfl, ih (List.prefix_append rs rest) hreplies hreplies'⟩

/-- A chunk completes first the replies its beginning completes. -/
theorem processInput_prefix {st st₁ st₂ : RedisReplyParser × Committed} {good bad : List UInt8}
    {replies replies' : List CRedisReply} {threw threw' : Bool}
    (h : processInput st good = some (st₁, replies, threw))
    (h' : processInput st (good ++ bad) = some (st₂, replies', threw')) : replies <+: replies' := by
  unfold processInput at h h'
  split at h
  · cases h
    exact List.nil_prefix
  · next hlen =>
    have hlen' : ¬ (st.2.commit (good ++ bad)).length = 0 := by
      simp only [Committed.commit, List.length_append] at hlen ⊢
      omega
    rw [if_neg hlen'] at h'
    split at h
    · cases h
    · next hfeed =>
      split at h'
      · cases h'
      · next hfeed' =>
        obtain ⟨replies, hpush, heq⟩ := Option.map_eq_some_iff.1 h
        obtain ⟨replies', hpush', heq'⟩ := Option.map_eq_some_iff.1 h'
        cases heq
        cases heq'
        refine pushReplies_prefix ?_ hpush hpush'
        unfold feed at hfeed hfeed'
        split at hfeed
        · cases hfeed
        · next hparse =>
          split at hfeed'
          · cases hfeed'
          · next hparse' =>
            cases hfeed
            cases hfeed'
            rw [Committed.commit, ← List.append_assoc] at hparse'
            exact redisReplyParseOnce_prefix hparse hparse'

namespace KjRedisConn

variable {c : KjRedisConn (RedisReplyParser × Committed)} {good bad : List UInt8}

theorem onClientReceive_parsed {chunk : List UInt8} {st : RedisReplyParser × Committed}
    {replies : List CRedisReply} (h : processInput c.parser chunk = some (st, replies, false)) :
    c.onClientReceive kjReplyBuilder some chunk =
      some (replyLoop some (c.availableReplies ++ replies) (c.parsed st replies)) := by
  unfold onClientReceive kjReplyBuilder
  simp only [h]
  rfl

theorem onClientReceive_refused {chunk : List UInt8} {st : RedisReplyParser × Committed}
    {replies : List CRedisReply} (h : processInput c.parser chunk = some (st, replies, true)) :
    c.onClientReceive kjReplyBuilder some chunk = some (c.parsed st replies, false) := by
  unfold onClientReceive kjReplyBuilder
  simp only [h]
  rfl

theorem onClientReceive_none {chunk : List UInt8} (h : processInput c.parser chunk = none) :
    c.onClientReceive kjReplyBuilder some chunk = none := by
  unfold onClientReceive kjReplyBuilder
  simp only [h]

/-- A refused chunk has handed over nothing. -/
theorem eq_nil_of_handsOver {st st' : RedisReplyParser × Committed} {replies replies' : List CRedisReply}
    (hgood : processInput c.parser good = some (st, replies, false))
    (hwhole : processInput c.parser (good ++ bad) = some (st', replies', true))
    (h : HandsOver kjReplyBuilder c good bad) : c.availableReplies ++ replies = [] := by
  obtain ⟨more, h⟩ := h
  rw [onClientReceive_parsed hgood, onClientReceive_refused hwhole] at h
  have hsame : SamePipelines (c.parsed st replies) (c.parsed st replies) := ⟨rfl, rfl, rfl⟩
  have hdone := (hsame.replyLoop_append (c.availableReplies ++ replies) more).trans
    (Option.some.inj h).symm
  exact (List.append_eq_nil_iff.1 (eq_nil_of_dispatched hdone rfl)).1

/-- The replies before a malformed byte are handed over if and only if there are none, or
the parser takes the byte for a good one. -/
theorem handsOver_iff {st : RedisReplyParser × Committed} {replies : List CRedisReply}
    (hgood : processInput c.parser good = some (st, replies, false)) :
    HandsOver kjReplyBuilder c good bad ↔ processInput c.parser (good ++ bad) ≠ none ∧
      (Refuses kjReplyBuilder c.parser (good ++ bad) → c.availableReplies = [] ∧ replies = []) := by
  cases hwhole : processInput c.parser (good ++ bad) with
  | none =>
    refine iff_of_false ?_ fun h => h.1 rfl
    rintro ⟨more, h⟩
    rw [onClientReceive_none hwhole, onClientReceive_parsed hgood] at h
    cases h
  | some out =>
    obtain ⟨st', replies', threw⟩ := out
    have hpre := processInput_prefix hgood hwhole
    cases threw with
    | false =>
      obtain ⟨more, rfl⟩ := hpre
      refine iff_of_true ⟨more, ?_⟩ ⟨by simp, ?_⟩
      · rw [onClientReceive_parsed hgood, onClientReceive_parsed hwhole, ← List.append_assoc]
        apply congrArg some
        apply SamePipelines.replyLoop_append
        exact ⟨rfl, rfl, rfl⟩
      · rintro ⟨st'', replies'', hrefused⟩
        cases hwhole.symm.trans hrefused
    | true =>
      constructor
      · exact fun h => ⟨by simp, fun _ =>
          List.append_eq_nil_iff.1 (eq_nil_of_handsOver hgood hwhole h)⟩
      · rintro ⟨-, h⟩
        obtain ⟨havail, rfl⟩ := h ⟨_, _, hwhole⟩
        refine ⟨[], ?_⟩
        rw [onClientReceive_parsed hgood, onClientReceive_refused hwhole, havail]
        rfl

/-- One pipeline of one command, written and not answered yet. -/
def awaiting : KjRedisConn (RedisReplyParser × Committed) :=
  { opened kjReplyBuilder [] with
    dqCommon := [(createCmdPipeline
      { sn := 1, commands := [[ascii "PING"]], builtNum := 1, replyCb := some .user
        disposes := false }).setState .committing]
    committingNum := 1, bConnected := true, connecting := false, reading := true }

/-- `*2\r\n:1\r\n` and a byte that begins no element. -/
theorem handsOver_iff_element :
    HandsOver kjReplyBuilder awaiting (ascii "*2\r\n:1\r\n") (ascii "x") := by
  obtain ⟨st, hgood⟩ : ∃ st, processInput awaiting.parser (ascii "*2\r\n:1\r\n") =
      some (st, [], false) := ⟨_, rfl⟩
  obtain ⟨st', hwhole⟩ : ∃ st',
      processInput awaiting.parser (ascii "*2\r\n:1\r\n" ++ ascii "x") = some (st', [], true) :=
    ⟨_, rfl⟩
  have havail : awaiting.availableReplies = [] := rfl
  exact (handsOver_iff hgood).2 ⟨Option.ne_none_iff_exists'.2 ⟨_, hwhole⟩, fun _ => ⟨havail, rfl⟩⟩

/-- `:7\r\n` is read and then an `x`: the callback is not called. -/
theorem not_handsOver : ¬ ∀ (c : KjRedisConn (RedisReplyParser × Committed)) (good bad : List UInt8)
    (st : RedisReplyParser × Committed) (replies : List CRedisReply),
    processInput c.parser good = some (st, replies, false) → (∀ reply ∈ replies, reply.ok) →
      Refuses kjReplyBuilder c.parser (good ++ bad) → HandsOver kjReplyBuilder c good bad := by
  intro h
  obtain ⟨st, hgood⟩ : ∃ st, processInput awaiting.parser (ascii ":7\r\n") =
      some (st, [.ofInt 7], false) := ⟨_, rfl⟩
  obtain ⟨st', replies', hwhole⟩ : ∃ st' replies',
      processInput awaiting.parser (ascii ":7\r\n" ++ ascii "x") = some (st', replies', true) :=
    ⟨_, _, rfl⟩
  have hands := h awaiting _ (ascii "x") _ _ hgood (List.forall_mem_singleton.2 rfl) ⟨_, _, hwhole⟩
  have hnil := eq_nil_of_handsOver hgood hwhole hands
  exact absurd hnil (List.append_ne_nil_of_right_ne_nil _ (List.cons_ne_nil _ _))

end KjRedisConn

end KjRedis.Conn
