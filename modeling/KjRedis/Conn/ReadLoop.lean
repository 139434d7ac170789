import KjRedis.Reply.Consumption
import KjRedis.Base.BipFifo
import KjRedis.Conn.Connection

/-! `KjRedisTcpConn`'s read loop: the room it reserves before each read, beside the
connection that takes the bytes. -/
namespace KjRedis.Conn

open KjRedis.Reply

/-- `KJ_TCP_CONNECTION_READ_SIZE`. -/
def readSize : Nat := 4096

/-- `KJ_TCP_CONNECTION_READ_RESERVE_SIZE`. -/
def readReserveSize : Nat := 1024 * 8

/-- `bufbase` is where the read under way puts its bytes; `noRoom` is set when the assertion on
it fails. -/
structure TcpConn where
  bb : BipBuf
  bufbase : Nat
  conn : KjRedisConn (RedisReplyParser × Committed)
  noRoom : Bool

namespace TcpConn

variable {junk : Nat → UInt8}

/-- A client connection whose `Open` has just been called. -/
def opened (junk : Nat → UInt8) (dqInit : List CmdPipeline) : TcpConn :=
  { bb := BipBuf.create junk readReserveSize, bufbase := 0, conn := Conn.opened kjReplyBuilder dqInit
    noRoom := false }

/-- `AsyncReadLoop` up to its read. -/
def asyncReadLoop (junk : Nat → UInt8) (s : TcpConn) : TcpConn :=
  match s.bb.forceReserve junk readSize with
  | some (some bufbase, bb) => { s with bb, bufbase }
  | _ => { s with noRoom := true }

/-- The bytes read are committed, and the parser takes off what it does not leave. -/
def readInto (bb : BipBuf) (bufbase : Nat) (chunk : List UInt8) (left : Committed) : BipBuf :=
  let bb := (bb.write bufbase chunk).commit chunk.length
  (bb.decommit (bb.committedSize - left.length)).2

def next (junk : Nat → UInt8) (s : TcpConn) (e : Event (List UInt8)) : Option TcpConn :=
  if s.noRoom then none
  else
    match s.conn.next kjReplyBuilder some e with
    | none => none
    | some conn =>
      match e with
      | .receive chunk =>
        if 1 ≤ chunk.length ∧ chunk.length ≤ readSize then
          let s := { s with bb := readInto s.bb s.bufbase chunk conn.parser.2, conn }
          some (if conn.reading then s.asyncReadLoop junk else s)
        else none
      | .connectOk _ => some ({ s with conn }.asyncReadLoop junk)
      | .reset => some { s with bb := s.bb.reset, conn }
      | _ => some { s with conn }

end TcpConn

def tcpConn (junk : Nat → UInt8) : Transition.System TcpConn (Event (List UInt8)) where
  next := TcpConn.next junk

namespace TcpConn

/-- The parser takes nothing of what it has and what comes. -/
def Stalled (st : RedisReplyParser × Committed) (chunk : List UInt8) : Prop :=
  ∃ st' replies threw, processInput st chunk = some (st', replies, threw) ∧ st'.2 = st.2 ++ chunk

/-- A chunk that fills the buffer to its last byte and of which the parser takes nothing. -/
def Blocked (s : TcpConn) : Event (List UInt8) → Prop
  | .receive chunk =>
    s.bb.committedSize + chunk.length = s.bb.availableCapacity ∧ Stalled s.conn.parser chunk
  | _ => False

/-- Fewer unread bytes than `next_power_of_two` can make room for. -/
def Small (s : TcpConn) : Event (List UInt8) → Prop
  | .receive chunk => s.bb.committedSize + chunk.length + readSize ≤ 2 ^ 31
  | _ => True

theorem processInput_took {st st' : RedisReplyParser × Committed} {chunk : List UInt8}
    {replies : List CRedisReply} {threw : Bool}
    (h : processInput st chunk = some (st', replies, threw)) :
    st'.2 <:+ st.2 ++ chunk ∧ (st'.2 = st.2 ++ chunk → threw = false →
      (st.2 ++ chunk).length < 2 ∨ Committed.findStr (st.2 ++ chunk) crlf = none) := by
  unfold processInput at h
  split at h
  · next hempty =>
    cases h
    exact ⟨List.suffix_rfl, fun _ _ => .inl (by rw [show (st.2 ++ chunk).length = 0 from hempty]; decide)⟩
  · split at h
    · cases h
    · next st₁ delivered rc hfeed =>
      obtain ⟨replies', -, heq⟩ := Option.map_eq_some_iff.1 h
      cases heq
      unfold feed at hfeed
      split at hfeed
      · cases hfeed
      · next out hparse =>
        cases hfeed
        have htook := redisReplyParseOnce_took hparse
        refine ⟨htook.suffix, fun hsame hpre => htook.waits ?_ hsame⟩
        simpa using hpre

/-- A stalled parser stands at a byte it refuses, or in a line whose CRLF has not come. -/
theorem Stalled.kind {st : RedisReplyParser × Committed} {chunk : List UInt8} (h : Stalled st chunk)
    (hlen : 2 ≤ (st.2 ++ chunk).length) :
    (∃ st' replies, processInput st chunk = some (st', replies, true)) ∨
      Committed.findStr (st.2 ++ chunk) crlf = none := by
  obtain ⟨st', replies, threw, hparse, hsame⟩ := h
  cases threw with
  | true => exact .inl ⟨st', replies, hparse⟩
  | false =>
    have := (processInput_took hparse).2 hsame rfl
    exact .inr (this.resolve_left (Nat.not_lt_of_le hlen))

theorem readInto_spec {bb : BipBuf} {chunk : List UInt8} {left : Committed} (hs : bb.Sane)
    (hres : bb.reservationSize = readSize) (hle : chunk.length ≤ readSize)
    (hleft : left <:+ bb.block ++ chunk) :
    (readInto bb bb.rStart chunk left).Sane ∧ (readInto bb bb.rStart chunk left).block = left ∧
      (readInto bb bb.rStart chunk left).reservationSize = 0 ∧
      (readInto bb bb.rStart chunk left).availableCapacity = bb.availableCapacity := by
  have hpos : 0 < bb.reservationSize := by
    rw [hres]
    decide
  obtain ⟨hs₁, hblock₁, hregion₁⟩ := BipBuf.write_spec hs hpos
    (show 0 + chunk.length ≤ bb.reservationSize by omega)
  rw [Nat.add_zero] at hs₁ hblock₁ hregion₁
  obtain ⟨hs₂, hblock₂, -⟩ := @BipBuf.commit_spec (bb.write bb.rStart chunk) chunk.length hs₁
  have hblock : ((bb.write bb.rStart chunk).commit chunk.length).block = bb.block ++ chunk := by
    rw [hblock₂, hblock₁, hregion₁, Slice.take_splice_zero]
    rfl
  have hsize := hs₂.length_block
  obtain ⟨hs₃, hblock₃, -⟩ := @BipBuf.decommit_spec ((bb.write bb.rStart chunk).commit chunk.length)
    (((bb.write bb.rStart chunk).commit chunk.length).committedSize - left.length) hs₂
  refine ⟨hs₃, ?_, BipBuf.reservationSize_commit, BipBuf.availableCapacity_commit⟩
  rw [readInto, hblock₃, Committed.decommit_eq_drop, ← hsize, hblock]
  exact (List.suffix_iff_eq_drop.1 hleft).symm

/-- What holds between two events while the loop has had its room. -/
structure Fit (s : TcpConn) : Prop where
  sane : s.bb.Sane
  block : s.bb.block = s.conn.parser.2
  power : ∃ k, 13 ≤ k ∧ k ≤ 31 ∧ s.bb.availableCapacity = 2 ^ k
  reserved : s.conn.reading → s.bb.reservationSize = readSize ∧ s.bufbase = s.bb.rStart
  quiet : s.conn.connecting ∨ s.conn.bDelayReconnecting →
    s.conn.reading = false ∧ s.bb.block = [] ∧ s.bb.reservationSize = 0
  apart : ¬ (s.conn.connecting ∧ s.conn.bDelayReconnecting)

theorem fit_opened (dqInit : List CmdPipeline) : Fit (opened junk dqInit) := by
  refine ⟨BipBuf.sane_create (by decide), Slice.slice_self, ⟨13, by decide, by decide, rfl⟩, ?_, ?_, ?_⟩
  · intro h
    cases h
  · intro _
    exact ⟨rfl, Slice.slice_self, rfl⟩
  · intro h
    cases h.2

variable {s s' : TcpConn} {conn : KjRedisConn (RedisReplyParser × Committed)}

theorem Fit.of_sameTasks (h : Fit s) (ht : KjRedisConn.SameTasks s.conn conn) :
    Fit { s with conn } := by
  refine ⟨h.sane, ?_, h.power, ?_, ?_, ?_⟩
  · rw [h.block, ht.parser]
  · intro hreading
    exact h.reserved (ht.reading ▸ hreading)
  · intro hquiet
    rw [ht.connecting, ht.bDelayReconnecting] at hquiet
    obtain ⟨hreading, hrest⟩ := h.quiet hquiet
    exact ⟨ht.reading.trans hreading, hrest⟩
  · rw [ht.connecting, ht.bDelayReconnecting]
    exact h.apart

/-- A capacity that has to grow doubles. -/
theorem grown_power {k : Nat} (hlow : 13 ≤ k) (hhigh : 2 ^ k + readSize ≤ 2 ^ 31) :
    k + 1 ≤ 31 ∧ (2 ^ k + readSize - 1).size = k + 1 := by
  have hbig : 2 ^ 13 ≤ 2 ^ k := Nat.pow_le_pow_right (by decide) hlow
  have hdouble : 2 ^ (k + 1) = 2 * 2 ^ k := by rw [Nat.pow_succ, Nat.mul_comm]
  unfold readSize at *
  refine ⟨?_, Nat.le_antisymm ?_ ?_⟩
  · by_contra hgt
    have : 2 ^ 31 ≤ 2 ^ k := Nat.pow_le_pow_right (by decide) (by omega)
    omega
  · apply Nat.size_le.2
    omega
  · apply Nat.lt_size.2
    omega

/-- The loop goes on to its read where a byte is free, and not where none is. -/
theorem asyncReadLoop_room (hs : s.bb.Sane) (hres : s.bb.reservationSize = 0)
    (hpower : ∃ k, 13 ≤ k ∧ k ≤ 31 ∧ s.bb.availableCapacity = 2 ^ k)
    (hsmall : s.bb.committedSize + readSize ≤ 2 ^ 31)
    (hfree : s.bb.committedSize < s.bb.availableCapacity) :
    ∃ bb, s.asyncReadLoop junk = { s with bb, bufbase := bb.rStart } ∧ bb.Sane ∧ bb.block = s.bb.block ∧
      bb.reservationSize = readSize ∧ ∃ k, 13 ≤ k ∧ k ≤ 31 ∧ bb.availableCapacity = 2 ^ k := by
  obtain ⟨k, hlow, hhigh, hcap⟩ := hpower
  have hmax : s.bb.committedSize + readSize ≤ s.bb.availableCapacity ∨
      s.bb.availableCapacity + readSize ≤ 2 ^ 31 := by
    rcases Nat.lt_or_ge k 31 with hlt | hge
    · right
      have hhalf : 2 ^ k ≤ 2 ^ 30 := Nat.pow_le_pow_right (by decide) (by omega)
      rw [hcap]
      unfold readSize
      omega
    · left
      obtain rfl : k = 31 := by omega
      rw [hcap]
      exact hsmall
  obtain ⟨bb, hcall, hsane, hblock, hgot, hgrown⟩ :=
    @BipBuf.forceReserve_granted s.bb junk readSize hs hres (by decide) hfree hmax
  refine ⟨bb, ?_, hsane, hblock, hgot, ?_⟩
  · unfold asyncReadLoop
    rw [hcall]
  · split at hgrown
    · exact ⟨k, hlow, hhigh, hgrown.trans hcap⟩
    · next hfits =>
      rw [hcap] at hgrown hmax hfits
      obtain ⟨hnext, hsize⟩ := grown_power hlow (hmax.resolve_left hfits)
      exact ⟨k + 1, by omega, hnext, hsize ▸ hgrown⟩

theorem asyncReadLoop_full (hres : s.bb.reservationSize = 0)
    (hfull : s.bb.committedSize = s.bb.availableCapacity) :
    (s.asyncReadLoop junk).noRoom = true := by
  unfold asyncReadLoop
  rw [BipBuf.forceReserve_full (by decide) hres hfull]

/-- What is left of a chunk leaves a free byte, unless the chunk was blocked. -/
theorem Fit.left_lt (h : Fit s) (hreading : s.conn.reading) {chunk : List UInt8}
    {st' : RedisReplyParser × Committed} {replies : List CRedisReply} {threw : Bool}
    (hle : chunk.length ≤ readSize)
    (hparse : processInput s.conn.parser chunk = some (st', replies, threw)) :
    st'.2.length ≤ s.bb.availableCapacity ∧
      (st'.2.length = s.bb.availableCapacity ↔ s.Blocked (.receive chunk)) := by
  have hbounded := h.sane.bounded
  rw [(h.reserved hreading).1] at hbounded
  have hblock := h.sane.length_block
  rw [h.block] at hblock
  obtain ⟨hsuffix, -⟩ := processInput_took hparse
  have hlen := hsuffix.length_le
  rw [List.length_append, hblock] at hlen
  refine ⟨by omega, fun hfull => ⟨by omega, st', replies, threw, hparse, ?_⟩, ?_⟩
  · apply hsuffix.eq_of_length_le
    rw [List.length_append, hblock]
    omega
  · rintro ⟨hfills, st'', replies', threw', hparse', hsame⟩
    rw [hparse] at hparse'
    obtain ⟨rfl, -⟩ := Prod.mk.inj (Option.some.inj hparse')
    rw [hsame, List.length_append, hblock]
    exact hfills

theorem Fit.awake (h : Fit s) (hreading : s.conn.reading) :
    ¬ (s.conn.connecting ∨ s.conn.bDelayReconnecting) := by
  intro hquiet
  have := (h.quiet hquiet).1
  rw [hreading] at this
  cases this

/-- What a receive makes of a connection, before the loop reserves again. -/
structure Received (s : TcpConn) (chunk : List UInt8) (s₁ : TcpConn) : Prop where
  sane : s₁.bb.Sane
  block : s₁.bb.block = s₁.conn.parser.2
  unreserved : s₁.bb.reservationSize = 0
  capacity : s₁.bb.availableCapacity = s.bb.availableCapacity
  awake : ¬ (s₁.conn.connecting ∨ s₁.conn.bDelayReconnecting)
  le : s₁.bb.committedSize ≤ s.bb.availableCapacity
  full : s₁.bb.committedSize = s.bb.availableCapacity ↔ s.Blocked (.receive chunk)
  short : s₁.bb.committedSize ≤ s.bb.committedSize + chunk.length

theorem Fit.received (h : Fit s) {chunk : List UInt8} (hle : chunk.length ≤ readSize)
    (hnext : KjRedisConn.Next kjReplyBuilder some s.conn (.receive chunk) conn) :
    Received s chunk { s with bb := readInto s.bb s.bufbase chunk conn.parser.2, conn } := by
  have hof : ∀ {st' replies threw}, s.conn.reading →
      processInput s.conn.parser chunk = some (st', replies, threw) →
      KjRedisConn.SameTasks (s.conn.parsed st' replies) conn ∨
        (∃ c', KjRedisConn.SameTasks (s.conn.parsed st' replies) c' ∧ conn = c'.readFailed) →
      Received s chunk { s with bb := readInto s.bb s.bufbase chunk conn.parser.2, conn } := by
    intro st' replies threw hreading hparse hconn
    have hparser : conn.parser = st' := by
      rcases hconn with ht | ⟨c', ht, rfl⟩ <;> exact ht.parser
    have hawake : ¬ (conn.connecting ∨ conn.bDelayReconnecting) := by
      have hold := h.awake hreading
      rcases hconn with ht | ⟨c', ht, rfl⟩
      · rw [ht.connecting, ht.bDelayReconnecting]
        exact hold
      · show ¬ (c'.connecting ∨ c'.bDelayReconnecting)
        rw [ht.connecting, ht.bDelayReconnecting]
        exact hold
    have hsuffix := (processInput_took hparse).1
    have hblock := h.sane.length_block
    have hlen := hsuffix.length_le
    rw [List.length_append, ← h.block, hblock] at hlen
    rw [← h.block] at hsuffix
    obtain ⟨hres, hbufbase⟩ := h.reserved hreading
    obtain ⟨hs, hb, hr, hc⟩ := readInto_spec h.sane hres hle hsuffix
    rw [← hbufbase] at hs hb hr hc
    obtain ⟨hcap, hfull⟩ := h.left_lt hreading hle hparse
    subst hparser
    have hsize := hs.length_block
    rw [hb] at hsize
    rw [hsize] at hlen hcap hfull
    exact ⟨hs, hb, hr, hc, hawake, hcap, hfull, hlen⟩
  cases hnext with
  | unparsed _ parser replies hreading hparse => exact hof hreading hparse (.inl (.refl _))
  | read _ parser replies _ hreading hparse hloop =>
    have ht := (KjRedisConn.sameTasks_replyLoop some (s.conn.availableReplies ++ replies)
      (s.conn.parsed parser replies)).1
    rw [hloop] at ht
    exact hof hreading hparse (.inl ht)
  | refused _ parser replies c' hreading hparse hloop =>
    have ht := (KjRedisConn.sameTasks_replyLoop some (s.conn.availableReplies ++ replies)
      (s.conn.parsed parser replies)).1
    rw [hloop] at ht
    exact hof hreading hparse (.inr ⟨c', ht, rfl⟩)

/-- A chunk that is not blocked leaves room for the next, and one that is blocked none. -/
theorem Received.goesOn {chunk : List UInt8} {s₁ : TcpConn} (hrec : Received s chunk s₁) (h : Fit s)
    (hsmall : s.Small (.receive chunk)) :
    (¬ s.Blocked (.receive chunk) →
      (s₁.asyncReadLoop junk).noRoom = s₁.noRoom ∧ Fit (s₁.asyncReadLoop junk)) ∧
      (s.Blocked (.receive chunk) → (s₁.asyncReadLoop junk).noRoom = true) := by
  have hle := hrec.le
  have hshort := hrec.short
  have hcap := hrec.capacity
  have hsmall' : s.bb.committedSize + chunk.length + readSize ≤ 2 ^ 31 := hsmall
  have hpower := h.power
  rw [← hcap] at hpower
  constructor
  · intro hblocked
    have hne := mt hrec.full.1 hblocked
    obtain ⟨bb, hloop, hs, hblock, hres, hpower'⟩ := @asyncReadLoop_room s₁ junk hrec.sane
      hrec.unreserved hpower (by omega) (by omega)
    rw [hloop]
    exact ⟨rfl, hs, hblock.trans hrec.block, hpower', fun _ => ⟨hres, rfl⟩,
      fun hquiet => absurd hquiet hrec.awake, fun hboth => hrec.awake (.inl hboth.1)⟩
  · intro hblocked
    have hfull := hrec.full.2 hblocked
    exact asyncReadLoop_full hrec.unreserved (by omega)

@[simp] theorem conn_asyncReadLoop : (s.asyncReadLoop junk).conn = s.conn := by
  unfold asyncReadLoop
  split <;> rfl

/-- The room runs out where a chunk is blocked and `OnClientReceive` returns, so that the
loop goes on. -/
theorem Fit.receive (h : Fit s) {chunk : List UInt8} (hsmall : s.Small (.receive chunk))
    (hnext : TcpConn.next junk s (.receive chunk) = some s') :
    (s'.noRoom = true ↔ s.Blocked (.receive chunk) ∧ s'.conn.reading = true) ∧
      (s'.noRoom = false → Fit s') := by
  unfold TcpConn.next at hnext
  split at hnext
  · cases hnext
  next hroom =>
  split at hnext
  · cases hnext
  next conn hconn =>
  simp only at hnext
  split at hnext
  · next hlen =>
    have hrec := h.received hlen.2 (KjRedisConn.next_spec hconn)
    obtain rfl := Option.some.inj hnext
    have hroom := Bool.eq_false_iff.2 hroom
    split
    · next hreading =>
      obtain ⟨hfree, hfull⟩ := @Received.goesOn s junk chunk _ hrec h hsmall
      rw [conn_asyncReadLoop]
      by_cases hblocked : s.Blocked (.receive chunk)
      · have hno := hfull hblocked
        exact ⟨iff_of_true hno ⟨hblocked, hreading⟩, fun hyes => by rw [hno] at hyes; cases hyes⟩
      · obtain ⟨hkept, hfit⟩ := hfree hblocked
        refine ⟨iff_of_false ?_ fun hb => hblocked hb.1, fun _ => hfit⟩
        exact Bool.eq_false_iff.1 (hkept.trans hroom)
    · next hreading =>
      refine ⟨iff_of_false (Bool.eq_false_iff.1 hroom) fun hb => hreading hb.2, fun _ => ?_⟩
      refine ⟨hrec.sane, hrec.block, ?_, fun hr => absurd hr hreading,
        fun hquiet => absurd hquiet hrec.awake, fun hboth => hrec.awake (.inl hboth.1)⟩
      rw [hrec.capacity]
      exact h.power
  · cases hnext

/-- A connect finds the buffer empty, and makes room for what is read first. -/
theorem Fit.connected (h : Fit s) (hconnecting : s.conn.connecting) (ok : Option Nat) :
    ({ s with conn := s.conn.connected ok }.asyncReadLoop junk).noRoom = s.noRoom ∧
      Fit ({ s with conn := s.conn.connected ok }.asyncReadLoop junk) := by
  obtain ⟨hreading, hempty, hres⟩ := h.quiet (.inl hconnecting)
  have hzero := h.sane.length_block
  rw [hempty] at hzero
  have hsize : s.bb.committedSize = 0 := hzero.symm
  have hparser : (s.conn.connected ok).parser = s.conn.parser :=
    (KjRedisConn.sameTasks_commit _ ok).1.parser
  have hconnecting' : (s.conn.connected ok).connecting = false :=
    (KjRedisConn.sameTasks_commit _ ok).1.connecting
  have hdelay : (s.conn.connected ok).bDelayReconnecting = s.conn.bDelayReconnecting :=
    (KjRedisConn.sameTasks_commit _ ok).1.bDelayReconnecting
  obtain ⟨bb, hloop, hs, hblock, hgot, hpower⟩ := @asyncReadLoop_room
    { s with conn := s.conn.connected ok } junk h.sane hres h.power
    (show s.bb.committedSize + readSize ≤ 2 ^ 31 by rw [hsize]; decide)
    (show s.bb.committedSize < s.bb.availableCapacity by rw [hsize]; exact h.sane.positive)
  rw [hloop]
  have hawake : ¬ ((s.conn.connected ok).connecting ∨ (s.conn.connected ok).bDelayReconnecting) := by
    rw [hconnecting', hdelay]
    rintro (hfalse | hdelay)
    · cases hfalse
    · exact h.apart ⟨hconnecting, hdelay⟩
  refine ⟨rfl, hs, ?_, hpower, fun _ => ⟨hgot, rfl⟩, fun hquiet => absurd hquiet hawake,
    fun hboth => hawake (.inl hboth.1)⟩
  show bb.block = (s.conn.connected ok).parser.2
  rw [hblock, hparser]
  exact h.block

/-- Between chunks the loop keeps its room: a reset empties the buffer, and a connect finds
it empty. -/
theorem Fit.other {e : Event (List UInt8)} (h : Fit s) (hother : ∀ chunk, e ≠ .receive chunk)
    (hnext : TcpConn.next junk s e = some s') : s'.noRoom = false ∧ Fit s' := by
  unfold TcpConn.next at hnext
  split at hnext
  · cases hnext
  next hroom =>
  have hroom := Bool.eq_false_iff.2 hroom
  split at hnext
  · cases hnext
  next conn hconn =>
  have hspec := KjRedisConn.next_spec hconn
  cases hspec with
  | send work =>
    cases hnext
    exact ⟨hroom, h.of_sameTasks ⟨rfl, rfl, rfl, rfl, rfl, rfl⟩⟩
  | commit ok =>
    cases hnext
    exact ⟨hroom, h.of_sameTasks (KjRedisConn.sameTasks_commit s.conn ok).1⟩
  | tick ok c₁ threw _ hloop =>
    cases hnext
    have ht := (KjRedisConn.sameTasks_commitLoop
      { s.conn with commitTicks := s.conn.commitTicks - 1 } ok).1
    rw [hloop] at ht
    refine ⟨hroom, h.of_sameTasks ?_⟩
    split
    · exact ⟨ht.dqInit, ht.parser, ht.bConnected, ht.reading, ht.bDelayReconnecting, ht.connecting⟩
    · exact ⟨ht.dqInit, ht.parser, ht.bConnected, ht.reading, ht.bDelayReconnecting, ht.connecting⟩
  | unparsed chunk => exact absurd rfl (hother chunk)
  | read chunk => exact absurd rfl (hother chunk)
  | refused chunk => exact absurd rfl (hother chunk)
  | readFail hreading =>
    cases hnext
    exact ⟨hroom, h.sane, h.block, h.power, fun hr => absurd hr Bool.false_ne_true,
      fun hquiet => absurd hquiet (h.awake hreading), h.apart⟩
  | reset =>
    cases hnext
    obtain ⟨hs, hblock, -⟩ := BipBuf.reset_spec h.sane
    exact ⟨hroom, hs, hblock, h.power, fun hr => absurd hr Bool.false_ne_true, fun _ => ⟨rfl, hblock, rfl⟩,
      fun hboth => absurd hboth.1 Bool.false_ne_true⟩
  | timer hdelay =>
    cases hnext
    have hquiet := h.quiet (.inr hdelay)
    exact ⟨hroom, h.sane, h.block, h.power, h.reserved, fun _ => hquiet,
      fun hboth => absurd hboth.2 Bool.false_ne_true⟩
  | connectOk ok hconnecting =>
    obtain rfl := Option.some.inj hnext
    obtain ⟨hkept, hfit⟩ := @Fit.connected _ _ h hconnecting ok
    exact ⟨hkept.trans hroom, hfit⟩
  | connectFail hconnecting =>
    cases hnext
    have hquiet := h.quiet (.inl hconnecting)
    exact ⟨hroom, h.sane, h.block, h.power, h.reserved, fun _ => hquiet,
      fun hboth => absurd hboth.1 Bool.false_ne_true⟩

/-- One event of the loop: it runs out of room exactly on a blocked chunk. -/
theorem Fit.next {e : Event (List UInt8)} (h : Fit s) (hsmall : s.Small e)
    (hnext : TcpConn.next junk s e = some s') :
    (s'.noRoom = true ↔ s.Blocked e ∧ s'.conn.reading = true) ∧ (s'.noRoom = false → Fit s') := by
  have hother : (∀ chunk, e ≠ .receive chunk) → ¬ s.Blocked e →
      (s'.noRoom = true ↔ s.Blocked e ∧ s'.conn.reading = true) ∧ (s'.noRoom = false → Fit s') := by
    intro hne hblocked
    obtain ⟨hroom, hfit⟩ := h.other hne hnext
    exact ⟨iff_of_false (Bool.eq_false_iff.1 hroom) fun hb => hblocked hb.1, fun _ => hfit⟩
  cases e with
  | receive chunk => exact h.receive hsmall hnext
  | _ =>
    apply hother
    · intro chunk he
      cases he
    · exact id

theorem next_noRoom {e : Event (List UInt8)} (h : s.noRoom = true) : TcpConn.next junk s e = none :=
  if_pos h

theorem Fit.run {es : List (Event (List UInt8))} (h : Fit s) (hroom : s.noRoom = false)
    (hsmall : (tcpConn junk).Meets Small s es) (hrun : (tcpConn junk).run s es = some s') :
    s'.noRoom = false ↔ (tcpConn junk).Meets (fun s e => s.Blocked e →
      ∀ s₁, (tcpConn junk).next s e = some s₁ → s₁.conn.reading = false) s es := by
  induction es generalizing s with
  | nil =>
    obtain rfl := Option.some.inj hrun
    exact iff_of_true hroom trivial
  | cons e es ih =>
    obtain ⟨s₁, hnext, hrest⟩ := Transition.System.run_cons_some.1 hrun
    obtain ⟨hno, hfit⟩ := h.next hsmall.1 hnext
    simp only [Transition.System.Meets]
    have honly : ∀ {Q : TcpConn → Prop}, Q s₁ → ∀ t, (tcpConn junk).next s e = some t → Q t := by
      intro Q hq t ht
      obtain rfl := Option.some.inj (hnext.symm.trans ht)
      exact hq
    cases hroom₁ : s₁.noRoom with
    | false =>
      have hstep : s.Blocked e → s₁.conn.reading = false := by
        intro hblocked
        by_contra hreading
        have := hno.2 ⟨hblocked, Bool.eq_true_of_not_eq_false hreading⟩
        rw [hroom₁] at this
        cases this
      rw [ih (hfit hroom₁) hroom₁ (hsmall.2 s₁ hnext) hrest]
      constructor
      · intro hall
        exact ⟨fun hb => honly (hstep hb), honly hall⟩
      · intro hall
        exact hall.2 s₁ hnext
    | true =>
      obtain ⟨hblocked, hreading⟩ := hno.1 hroom₁
      have hlast : s' = s₁ := by
        cases es with
        | nil => exact (Option.some.inj hrest).symm
        | cons e' es =>
          obtain ⟨t, ht, -⟩ := Transition.System.run_cons_some.1 hrest
          rw [show (tcpConn junk).next s₁ e' = none from next_noRoom hroom₁] at ht
          cases ht
      refine iff_of_false ?_ fun hall => ?_
      · rw [hlast, hroom₁]
        decide
      · have := hall.1 hblocked s₁ hnext
        rw [hreading] at this
        cases this

end TcpConn

/-- In every run of a client connection whose unread bytes stay countable, the read loop has
room before each read exactly if no chunk fills the buffer to its last byte while the parser
takes nothing, save one on which `OnClientReceive` throws. -/
theorem noRoom_iff_blocked (junk : Nat → UInt8) (dqInit : List CmdPipeline)
    (es : List (Event (List UInt8))) (s : TcpConn)
    (hrun : (tcpConn junk).run (TcpConn.opened junk dqInit) es = some s)
    (hsmall : (tcpConn junk).Meets TcpConn.Small (TcpConn.opened junk dqInit) es) :
    s.noRoom = false ↔ (tcpConn junk).Meets (fun s e => s.Blocked e →
      ∀ s₁, (tcpConn junk).next s e = some s₁ → s₁.conn.reading = false)
      (TcpConn.opened junk dqInit) es :=
  (TcpConn.fit_opened dqInit).run rfl hsmall hrun

/-- The event leaves the buffer room to spare, by the count of its unread bytes alone. -/
def TcpConn.leavesRoom (s : TcpConn) : Event (List UInt8) → Bool
  | .receive chunk =>
    s.bb.committedSize + chunk.length + readSize ≤ 2 ^ 31 ∧
      s.bb.committedSize + chunk.length ≠ s.bb.availableCapacity
  | _ => true

theorem TcpConn.small_of_leavesRoom {s : TcpConn} {e : Event (List UInt8)} (h : s.leavesRoom e) :
    s.Small e ∧ ¬ s.Blocked e := by
  cases e with
  | receive chunk =>
    simp only [leavesRoom, decide_eq_true_eq] at h
    exact ⟨h.1, fun hblocked => h.2 hblocked.1⟩
  | _ => exact ⟨trivial, id⟩

set_option maxRecDepth 100000 in
/-- A bulk of two bytes whose length is written with 8186 digits, in three chunks: the last one
fills the buffer, and the parser takes it. -/
theorem noRoom_iff_blocked_digits :
    let work : CmdWork :=
      { sn := 1, commands := [[[80]]], builtNum := 1, replyCb := some .user, disposes := false }
    let es : List (Event (List UInt8)) :=
      [.connectOk none, .send work, .commit none, .receive [36], .receive (List.replicate 4096 48)]
    let chunk : List UInt8 := List.replicate 4089 48 ++ ascii "2\r\nab\r\n"
    ∃ s s', (tcpConn 0).run (TcpConn.opened 0 []) es = some s ∧
      s.bb.committedSize + chunk.length = s.bb.availableCapacity ∧
      (tcpConn 0).run (TcpConn.opened 0 []) (es ++ [.receive chunk]) = some s' ∧
      s'.noRoom = false := by
  intro work es chunk
  have hseen : ((tcpConn 0).run (TcpConn.opened 0 []) es).bind (fun s =>
      (processInput s.conn.parser chunk).bind fun out =>
        ((tcpConn 0).next s (.receive chunk)).map fun _ =>
          (s.bb.committedSize, s.bb.availableCapacity, s.conn.parser.2.length, out.1.2.length)) =
      some (4096, 8192, 4096, 0) := by decide +kernel
  obtain ⟨s, hrun, h⟩ := Option.bind_eq_some_iff.1 hseen
  obtain ⟨out, hparse, h⟩ := Option.bind_eq_some_iff.1 h
  obtain ⟨s', hnext, hfacts⟩ := Option.map_eq_some_iff.1 h
  simp only [Prod.mk.injEq] at hfacts
  obtain ⟨hcommitted, hcapacity, hhad, hleft⟩ := hfacts
  have hlen : chunk.length = 4096 := by decide +kernel
  have hpast : (tcpConn 0).Meets (fun s e => s.leavesRoom e) (TcpConn.opened 0 []) es := by
    decide +kernel
  have hwhole : (tcpConn 0).run (TcpConn.opened 0 []) (es ++ [.receive chunk]) = some s' := by
    refine Transition.System.run_append_some.2 ⟨s, hrun, ?_⟩
    exact Transition.System.run_cons_some.2 ⟨s', hnext, rfl⟩
  refine ⟨s, s', hrun, ?_, hwhole, ?_⟩
  · rw [hcommitted, hlen, hcapacity]
  refine (noRoom_iff_blocked 0 [] _ s' hwhole ?_).2 ?_
  · refine (Transition.System.meets_append hrun).2 ⟨?_, ?_, fun _ _ => trivial⟩
    · exact hpast.mono fun _ _ h => (TcpConn.small_of_leavesRoom h).1
    · show s.bb.committedSize + chunk.length + readSize ≤ 2 ^ 31
      rw [hcommitted, hlen]
      decide
  · refine (Transition.System.meets_append hrun).2 ⟨?_, fun hblocked => ?_, fun _ _ => trivial⟩
    · exact hpast.mono fun _ _ h hb => absurd hb (TcpConn.small_of_leavesRoom h).2
    · obtain ⟨-, st', replies, threw, hparse', htook⟩ := hblocked
      obtain rfl := Option.some.inj (hparse.symm.trans hparse')
      have := congrArg List.length htook
      rw [hleft, List.length_append, hhad] at this
      omega

/-- Two chunks of 4096 bytes after a byte that is no leading character. -/
theorem not_noRoom_false : ¬ ∀ (junk : Nat → UInt8) (dqInit : List CmdPipeline)
    (es : List (Event (List UInt8))) (s : TcpConn),
    (tcpConn junk).run (TcpConn.opened junk dqInit) es = some s → s.noRoom = false := by
  intro h
  let xs : List UInt8 := List.replicate readSize 120
  have hout : ((tcpConn 0).run (TcpConn.opened 0 []) [.connectOk none, .receive xs, .receive xs]).map
      (fun s => s.noRoom) = some true := by decide +kernel
  obtain ⟨s, hrun, hroom⟩ := Option.map_eq_some_iff.1 hout
  rw [h 0 [] _ s hrun] at hroom
  cases hroom

end KjRedis.Conn
