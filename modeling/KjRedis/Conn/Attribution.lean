import KjRedis.Conn.InFlight
import KjRedis.Conn.Wire

/-! A client connection and its server: which reply a pipeline's callback is given, over
any sends, failures and reconnects. -/
namespace KjRedis.Conn

open KjRedis.Reply KjRedisConn

def isErrorReply : Resp → Bool
  | .text isError _ => isError
  | _ => false

/-- `answers` are the replies to the commands written on the current connection, from the
first; `arrived` counts the bytes of these that have arrived. -/
structure Net where
  conn : KjRedisConn (RedisReplyParser × Committed)
  answers : List Resp
  arrived : Nat

/-- The bytes still on their way. -/
def Net.wire (s : Net) : List UInt8 := (Resp.encodeAll s.answers).drop s.arrived

/-- An event of the connection other than bytes that arrive; a reply of the server; or
the next `n` bytes. -/
inductive NetEvent
  | client (e : Event (List UInt8))
  | answer (v : Resp)
  | arrive (n : Nat)

def connNext (c : KjRedisConn (RedisReplyParser × Committed)) (e : Event (List UInt8)) :
    Option (KjRedisConn (RedisReplyParser × Committed)) :=
  (clientConn kjReplyBuilder).next c e

/-- Every pipeline sent holds a command; the server answers each command with one reply
that is no error, in order. -/
def Net.next (s : Net) : NetEvent → Option Net
  | .client (.receive _) => none
  | .client (.send work) =>
    if work.builtNum = work.commands.length ∧ 0 < work.commands.length then
      (connNext s.conn (.send work)).map fun conn => { s with conn }
    else none
  | .client (.connectOk ok) =>
    (connNext s.conn (.connectOk ok)).map fun conn => { conn, answers := [], arrived := 0 }
  | .client e => (connNext s.conn e).map fun conn => { s with conn }
  | .answer v =>
    match s.conn.stream with
    | none => none
    | some works =>
      if isErrorReply v = false ∧ s.answers.length < commandCount works then
        some { s with answers := s.answers ++ [v] }
      else none
  | .arrive n =>
    if 0 < n ∧ n ≤ s.wire.length then
      (connNext s.conn (.receive (s.wire.take n))).map fun conn =>
        { s with conn, arrived := s.arrived + n }
    else none

def net : Transition.System Net NetEvent where
  next := Net.next

def openedNet (param : RedisStubParam) : Net :=
  { conn := opened kjReplyBuilder (clientInit param), answers := [], arrived := 0 }

/-- Every callback the step calls is given the server's reply, on the current connection,
to the last command of its pipeline. -/
def GivesOwnReply (s s' : Net) : Prop :=
  ∀ work r, .reply work r ∈ s'.conn.calls.drop s.conn.calls.length →
    ∃ before after v, s.conn.stream = some (before ++ work :: after) ∧
      s.answers[commandCount before + work.commands.length - 1]? = some v ∧ r = received v

/-- The replies are ones the parser delivers as they are, and no chunk cuts a line of text
where its pieces would overlap; and no pipeline that will be sent again has been answered
in part. -/
def NetEvent.Sound (s : Net) : NetEvent → Prop
  | .answer v => plain v 1
  | .arrive n => ∀ q out, (reader wholeTexts).run .type
      ((Resp.encodeAll s.answers).take (s.arrived + n)) = some (q, out) → Uncut q (s.wire.drop n)
  | .client (.connectOk _) => ∀ cp ∈ s.conn.dqCommon, 0 < cp.sn → cp.processedNum = 0
  | _ => True

/-- A pipeline that holds a command, its commands counted. -/
structure CmdWork.Filled (work : CmdWork) : Prop where
  counted : work.Counted
  pos : 0 < work.commands.length

/-- The invariant. While the connection is read, the replies taken are the first of the
answers, the parser stands where the reader stands after the bytes that have arrived, and
the rest of the answers is on the wire. -/
structure Reading (s : Net) : Prop where
  sane : Sane kjReplyBuilder s.conn
  only : Only CmdWork.Filled s.conn
  arrived : s.arrived ≤ (Resp.encodeAll s.answers).length
  live : s.conn.reading → ∃ done ps unsent q taken left,
    InFlight done ps unsent taken.length s.conn ∧ s.answers = taken ++ left ∧
      (reader wholeTexts).run .type ((Resp.encodeAll s.answers).take s.arrived) = some (q, taken) ∧
      (reader wholeTexts).run q s.wire = some (.type, left) ∧
      StandsBefore s.conn.parser q s.wire ∧ s.conn.availableReplies = []

theorem Only.counted {τ : Type*} {c : KjRedisConn τ} (h : Only CmdWork.Filled c) :
    Only CmdWork.Counted c :=
  ⟨fun work hw => (h.queued work hw).counted, fun cp hcp => (h.init cp hcp).counted,
    fun works hworks work hw => (h.written works hworks work hw).counted⟩

theorem reading_opened (param : RedisStubParam) : Reading (openedNet param) where
  sane := sane_opened kjReplyBuilder (isInit_client param)
  only := only_opened kjReplyBuilder fun cp hcp =>
    have h := isInit_client param cp hcp
    ⟨h.counted, by rw [h.length]; exact Nat.one_pos⟩
  arrived := Nat.zero_le _
  live h := by cases h

variable {s s' : Net}

/-- What an event of the connection does to the net. -/
theorem next_client {e : Event (List UInt8)} (h : s.next (.client e) = some s') :
    (∀ chunk, e ≠ .receive chunk) ∧ Next kjReplyBuilder some s.conn e s'.conn ∧
      (∀ work, e = .send work → work.Filled) ∧
      ((∃ ok, e = .connectOk ok) ∧ s'.answers = [] ∧ s'.arrived = 0 ∨
        (∀ ok, e ≠ .connectOk ok) ∧ s'.answers = s.answers ∧ s'.arrived = s.arrived) := by
  have hsame : ∀ {e : Event (List UInt8)}, ((connNext s.conn e).map fun conn => { s with conn }) =
      some s' → Next kjReplyBuilder some s.conn e s'.conn ∧ s'.answers = s.answers ∧ s'.arrived = s.arrived := by
    intro e h
    obtain ⟨conn, hconn, rfl⟩ := Option.map_eq_some_iff.1 h
    exact ⟨next_spec hconn, rfl, rfl⟩
  have hother : ∀ {e : Event (List UInt8)}, (∀ chunk, e ≠ .receive chunk) →
      (∀ work, e ≠ .send work) → (∀ ok, e ≠ .connectOk ok) →
      ((connNext s.conn e).map fun conn => { s with conn }) = some s' →
      (∀ chunk, e ≠ .receive chunk) ∧ Next kjReplyBuilder some s.conn e s'.conn ∧
        (∀ work, e = .send work → work.Filled) ∧
        ((∃ ok, e = .connectOk ok) ∧ s'.answers = [] ∧ s'.arrived = 0 ∨
          (∀ ok, e ≠ .connectOk ok) ∧ s'.answers = s.answers ∧ s'.arrived = s.arrived) := by
    intro e hreceive hsend hconnect h
    obtain ⟨hnext, hrest⟩ := hsame h
    exact ⟨hreceive, hnext, fun work hwork => absurd hwork (hsend work), .inr ⟨hconnect, hrest⟩⟩
  cases e with
  | receive chunk => cases h
  | send work =>
    simp only [Net.next] at h
    split at h
    next hwork =>
      obtain ⟨hnext, hrest⟩ := hsame h
      refine ⟨by simp, hnext, fun w hw => ?_, .inr ⟨by simp, hrest⟩⟩
      obtain rfl := Event.send.inj hw
      exact ⟨hwork.1, hwork.2⟩
    · cases h
  | connectOk ok =>
    obtain ⟨conn, hconn, rfl⟩ := Option.map_eq_some_iff.1 h
    exact ⟨by simp, next_spec hconn, by simp, .inl ⟨⟨ok, rfl⟩, rfl, rfl⟩⟩
  | commit ok => exact hother (by simp) (by simp) (by simp) h
  | tick ok => exact hother (by simp) (by simp) (by simp) h
  | readFail => exact hother (by simp) (by simp) (by simp) h
  | reset => exact hother (by simp) (by simp) (by simp) h
  | timer => exact hother (by simp) (by simp) (by simp) h
  | connectFail => exact hother (by simp) (by simp) (by simp) h

theorem Reading.client {e : Event (List UInt8)} (h : Reading s) (hsound : NetEvent.Sound s (.client e))
    (hnext : s.next (.client e) = some s') : Reading s' := by
  obtain ⟨hreceive, hconn, hsend, hrest⟩ := next_client hnext
  have harrived' : s'.arrived ≤ (Resp.encodeAll s'.answers).length := by
    rcases hrest with ⟨-, -, harrived⟩ | ⟨-, hanswers, harrived⟩
    · rw [harrived]
      exact Nat.zero_le _
    · rw [hanswers, harrived]
      exact h.arrived
  refine ⟨h.sane.next hconn, h.only.next hsend hconn, harrived', fun hreading => ?_⟩
  rcases hrest with ⟨⟨ok, rfl⟩, hanswers, harrived⟩ | ⟨hconnect, hanswers, harrived⟩
  · obtain ⟨hconnecting, hconn⟩ := hconn.of_connectOk
    obtain ⟨ps, unsent, hflight, -⟩ := h.sane.inFlight_connected h.only.counted hsound ok
    obtain ⟨-, hfresh, havailable⟩ := h.sane.idle (.inl hconnecting)
    have htasks := sameTasks_commit (KjRedisConn.resending s.conn) ok
    rw [← connected_eq, ← hconn] at htasks
    have hwire : s'.wire = [] := by
      rw [Net.wire, hanswers, harrived]
      rfl
    refine ⟨[], ps, unsent, .type, [], [], hconn ▸ hflight, hanswers, ?_, ?_, ?_, ?_⟩
    · rw [hanswers, harrived]
      rfl
    · rw [hwire]
      rfl
    · rw [htasks.1.parser]
      show StandsBefore s.conn.parser .type s'.wire
      rw [hfresh]
      exact fresh_standsBefore s'.wire
    · exact htasks.2.trans havailable
  · obtain ⟨done, ps, unsent, q, taken, left, hflight, hsplit, hpast, hrun, hstands, havailable⟩ :=
      h.live (hconn.was_reading hconnect hreading)
    obtain ⟨⟨ps', unsent', hflight'⟩, hparser, havailable'⟩ :=
      hflight.next (fun work hw => (hsend work hw).counted) hconn hreceive hconnect hreading
    have hwire : s'.wire = s.wire := by rw [Net.wire, hanswers, harrived, Net.wire]
    refine ⟨done, ps', unsent', q, taken, left, hflight', hanswers.trans hsplit, ?_, ?_, ?_,
      havailable'.trans havailable⟩
    · rw [hanswers, harrived]
      exact hpast
    · rw [hwire]
      exact hrun
    · rw [hwire, hparser]
      exact hstands

theorem Reading.answer {v : Resp} (h : Reading s) (hv : plain v 1)
    (hnext : s.next (.answer v) = some s') : Reading s' := by
  simp only [Net.next] at hnext
  split at hnext
  · cases hnext
  · split at hnext
    · obtain rfl := Option.some.inj hnext
      have hbytes : Resp.encodeAll (s.answers ++ [v]) = Resp.encodeAll s.answers ++ Resp.encodeAll [v] :=
        encodeAll_append s.answers [v]
      have hwire : Net.wire { s with answers := s.answers ++ [v] } = s.wire ++ Resp.encodeAll [v] := by
        rw [Net.wire, hbytes, List.drop_append_of_le_length h.arrived, Net.wire]
      refine ⟨h.sane, h.only, ?_, fun hreading => ?_⟩
      · rw [hbytes, List.length_append]
        exact Nat.le_trans h.arrived (Nat.le_add_right _ _)
      obtain ⟨done, ps, unsent, q, taken, left, hflight, hsplit, hpast, hrun, ⟨p, htop, hmore, hset⟩,
        havailable⟩ := h.live hreading
      refine ⟨done, ps, unsent, q, taken, left ++ [v], hflight, ?_, ?_, ?_, ⟨p, htop, hmore, ?_⟩,
        havailable⟩
      · rw [hsplit, List.append_assoc]
      · rw [hbytes, List.take_append_of_le_length h.arrived]
        exact hpast
      · rw [hwire]
        exact Incremental.Machine.run_append hrun (reader_plain (List.forall_mem_singleton.2 hv))
      · rw [hwire, ← List.append_assoc]
        exact Settled.append hset _
    · cases hnext

/-- Bytes that arrive bring the next of the answers. -/
theorem Reading.answers_read {n : Nat} {parser : RedisReplyParser × Committed} {replies : List CRedisReply}
    {threw : Bool} (h : Reading s) (hsound : NetEvent.Sound s (.arrive n))
    (hn : 0 < n ∧ n ≤ s.wire.length) (hreading : s.conn.reading)
    (hparse : processInput s.conn.parser (s.wire.take n) = some (parser, replies, threw)) :
    ∃ done ps unsent q taken out left, InFlight done ps unsent taken.length s.conn ∧
      s.answers = taken ++ (out ++ left) ∧ replies = out.map received ∧ threw = false ∧
      (reader wholeTexts).run .type ((Resp.encodeAll s.answers).take (s.arrived + n)) =
        some (q, taken ++ out) ∧
      (reader wholeTexts).run q (s.wire.drop n) = some (.type, left) ∧
      StandsBefore parser q (s.wire.drop n) ∧ s.conn.availableReplies = [] := by
  have htake : (Resp.encodeAll s.answers).take (s.arrived + n) =
      (Resp.encodeAll s.answers).take s.arrived ++ s.wire.take n := by
    rw [List.take_add, Net.wire]
  obtain ⟨done, ps, unsent, q, taken, left, hflight, hsplit, hpast, hrun, hstands, havailable⟩ :=
    h.live hreading
  rw [← List.take_append_drop n s.wire] at hrun hstands
  obtain ⟨q₁, out₁, out₂, hchunk, hrest, rfl⟩ := Incremental.Machine.run_append_inv hrun
  have hpast' : (reader wholeTexts).run .type ((Resp.encodeAll s.answers).take (s.arrived + n)) =
      some (q₁, taken ++ out₁) := by
    rw [htake]
    exact Incremental.Machine.run_append hpast hchunk
  have hne : s.wire.take n ≠ [] := by
    apply List.ne_nil_of_length_pos
    rw [List.length_take]
    omega
  obtain ⟨st, hprocess, hstands'⟩ :=
    processInput_stands hstands hne hchunk hrest (hsound q₁ _ hpast')
  obtain ⟨rfl, hreplies⟩ := Prod.mk.inj (Option.some.inj (hprocess.symm.trans hparse))
  obtain ⟨rfl, rfl⟩ := Prod.mk.inj hreplies
  exact ⟨done, ps, unsent, q₁, taken, out₁, out₂, hflight, hsplit, rfl, rfl, hpast', hrest,
    hstands', havailable⟩

/-- Callbacks that are attributed to the answers behind those taken are given their own. -/
theorem Reading.gives_own {taken out left : List Resp} {new : List Call} (h : Reading s)
    (hsplit : s.answers = taken ++ (out ++ left))
    (hattr : Attributed s.conn.stream taken.length (out.map received) new)
    (hcalls : s'.conn.calls = s.conn.calls ++ new) : GivesOwnReply s s' := by
  intro work r hmem
  rw [hcalls, List.drop_left] at hmem
  obtain ⟨i, before, after, hi, hstream, hcount⟩ := hattr work r hmem
  rw [List.getElem?_map] at hi
  obtain ⟨v, hv, rfl⟩ := Option.map_eq_some_iff.1 hi
  refine ⟨before, after, v, hstream, ?_, rfl⟩
  have hlt := (List.getElem?_eq_some_iff.1 hv).1
  have hfilled : ∀ w ∈ before ++ work :: after, 0 < w.commands.length := fun w hw =>
    (h.only.written _ hstream w hw).pos
  rw [replyCount_eq fun w hw => hfilled w (List.mem_append_left _ hw),
    CmdWork.replyNum_eq (hfilled work (List.mem_append_right _ List.mem_cons_self))] at hcount
  rw [hsplit, ← hcount, Nat.add_sub_cancel, List.getElem?_append_right (Nat.le_add_right _ _),
    Nat.add_sub_cancel_left, List.getElem?_append_left hlt]
  exact hv

/-- Bytes that arrive are read, and the callbacks they call are given their own replies. -/
theorem Reading.arrive {n : Nat} (h : Reading s) (hsound : NetEvent.Sound s (.arrive n))
    (hnext : s.next (.arrive n) = some s') : Reading s' ∧ GivesOwnReply s s' := by
  simp only [Net.next] at hnext
  split at hnext
  next hn =>
    obtain ⟨conn, hconn, rfl⟩ := Option.map_eq_some_iff.1 hnext
    have hspec : Next kjReplyBuilder some s.conn (.receive (s.wire.take n)) conn := next_spec hconn
    have hsane : Sane kjReplyBuilder conn := h.sane.next hspec
    have honly : Only CmdWork.Filled conn := h.only.next (by simp) hspec
    have harrived : s.arrived + n ≤ (Resp.encodeAll s.answers).length := by
      have hwire := hn.2
      rw [Net.wire, List.length_drop] at hwire
      have := h.arrived
      omega
    have hdrop : Net.wire { s with conn, arrived := s.arrived + n } = s.wire.drop n := by
      rw [Net.wire, Net.wire, List.drop_drop]
    cases hspec with
    | unparsed _ parser replies hreading hparse =>
      obtain ⟨-, -, -, -, -, -, -, -, -, -, hthrew, -⟩ := h.answers_read hsound hn hreading hparse
      cases hthrew
    | read _ parser replies _ hreading hparse hloop =>
      obtain ⟨done, ps, unsent, q, taken, out, left, hflight, hsplit, rfl, -, hpast, hrun, hstands,
        havailable⟩ := h.answers_read hsound hn hreading hparse
      have hparsed : InFlight done ps unsent taken.length (s.conn.parsed parser (out.map received)) :=
        hflight.copy rfl rfl rfl
      obtain ⟨new, hcalls, hattr, hok, -⟩ := hparsed.replyLoop some (out.map received)
      have htasks := sameTasks_replyLoop some (out.map received)
        (s.conn.parsed parser (out.map received))
      rw [havailable, List.nil_append] at hloop
      rw [hloop] at hcalls hok htasks
      rw [List.filterMap_some] at hattr hok
      obtain ⟨done', ps', hflight'⟩ := hok rfl
      refine ⟨⟨hsane, honly, harrived, fun _ => ⟨done', ps', unsent, q, taken ++ out, left, ?_, ?_, hpast,
        ?_, ?_, htasks.2 rfl⟩⟩, h.gives_own hsplit hattr hcalls⟩
      · rw [List.length_map] at hflight'
        rw [List.length_append]
        exact hflight'
      · rw [hsplit, List.append_assoc]
      · rw [hdrop]
        exact hrun
      · rw [hdrop, htasks.1.parser]
        exact hstands
    | refused _ parser replies c₁ hreading hparse hloop =>
      obtain ⟨done, ps, unsent, q, taken, out, left, hflight, hsplit, rfl, -, -, -, -, havailable⟩ :=
        h.answers_read hsound hn hreading hparse
      have hparsed : InFlight done ps unsent taken.length (s.conn.parsed parser (out.map received)) :=
        hflight.copy rfl rfl rfl
      obtain ⟨new, hcalls, hattr, -⟩ := hparsed.replyLoop some (out.map received)
      rw [havailable, List.nil_append] at hloop
      rw [hloop] at hcalls
      rw [List.filterMap_some] at hattr
      exact ⟨⟨hsane, honly, harrived, fun hr => by cases hr⟩, h.gives_own hsplit hattr hcalls⟩
  · cases hnext

theorem Reading.next {e : NetEvent} (h : Reading s) (hsound : e.Sound s)
    (hnext : net.next s e = some s') : Reading s' ∧ GivesOwnReply s s' := by
  have hquiet : s'.conn.calls = s.conn.calls → GivesOwnReply s s' := by
    intro hcalls work r hmem
    rw [hcalls, List.drop_length] at hmem
    cases hmem
  cases e with
  | client e =>
    obtain ⟨hreceive, hconn, -⟩ := next_client hnext
    exact ⟨h.client hsound hnext, hquiet (calls_next hconn hreceive)⟩
  | answer v =>
    refine ⟨h.answer hsound hnext, hquiet ?_⟩
    simp only [net, Net.next] at hnext
    split at hnext
    · cases hnext
    · split at hnext
      · obtain rfl := Option.some.inj hnext
        rfl
      · cases hnext
  | arrive n => exact h.arrive hsound hnext

/-- In every run whose steps are sound, every callback called is given the server's reply,
on the current connection, to the last command of its pipeline. -/
theorem givesOwnReply_of_sound (param : RedisStubParam) {es : List NetEvent} {e : NetEvent}
    {s s' : Net} (hsound : net.Meets (fun s e => e.Sound s) (openedNet param) (es ++ [e]))
    (hrun : net.run (openedNet param) es = some s) (hnext : net.next s e = some s') :
    GivesOwnReply s s' := by
  obtain ⟨hpast, hlast⟩ := (Transition.System.meets_append hrun).1 hsound
  have hreading : Reading s := Transition.System.run_invariant
    (fun _ _ _ h hs hn => (h.next hs hn).1) (reading_opened param) hpast hrun
  exact (hreading.next hlast.1 hnext).2

/-- Two commands of a caller. -/
def twoCommands : CmdWork :=
  { sn := 1, commands := [[[80]], [[81]]], builtNum := 2, replyCb := some .user, disposes := false }

theorem sound_arrive_all {n : Nat} (hplain : ∀ v ∈ s.answers, plain v 1)
    (hn : s.arrived + n = (Resp.encodeAll s.answers).length) : NetEvent.Sound s (.arrive n) := by
  intro q out hq
  rw [hn, List.take_length, reader_plain hplain] at hq
  obtain ⟨rfl, -⟩ := Prod.mk.inj (Option.some.inj hq)
  trivial

/-- The pipeline is written, the connection lost before its replies, and made again. -/
theorem givesOwnReply_of_sound_lost :
    let first : List NetEvent :=
      [.client (.connectOk none), .client (.send twoCommands), .client (.commit none),
        .answer (.bulk sTestcmsgpack), .client .readFail, .client .reset, .client .timer]
    let second : List NetEvent :=
      [.client (.connectOk none), .answer (.bulk sTestcmsgpack), .answer (.int 1), .answer (.int 2)]
    ∃ s s', net.run (openedNet ⟨[], []⟩) (first ++ second) = some s ∧
      net.next s (.arrive 55) = some s' ∧ s'.conn.calls.length = 2 ∧ GivesOwnReply s s' := by
  intro first second
  have hseen : (net.run (openedNet ⟨[], []⟩) first).bind (fun s₁ =>
      (net.run s₁ second).bind fun s => (net.next s (.arrive 55)).map fun s' =>
        (s₁.conn.dqCommon.all (·.processedNum == 0), s.arrived + 55 == (Resp.encodeAll s.answers).length,
          s.answers.all (plain · 1), s'.conn.calls.length)) =
      some (true, true, true, 2) := by decide +kernel
  obtain ⟨s₁, hrun₁, h⟩ := Option.bind_eq_some_iff.1 hseen
  obtain ⟨s, hrun₂, h⟩ := Option.bind_eq_some_iff.1 h
  obtain ⟨s', hnext, hfacts⟩ := Option.map_eq_some_iff.1 h
  simp only [Prod.mk.injEq, List.all_eq_true, beq_iff_eq] at hfacts
  obtain ⟨hfresh, harrived, hplain, hcalls⟩ := hfacts
  have hrun : net.run (openedNet ⟨[], []⟩) (first ++ second) = some s :=
    Transition.System.run_append_some.2 ⟨s₁, hrun₁, hrun₂⟩
  have hfirst : net.Meets (fun s e => e.Sound s) (openedNet ⟨[], []⟩) first := by
    refine ⟨fun cp hcp => ?_, fun _ _ => Transition.System.meets_of_forall fun _ e he => ?_⟩
    · cases hcp
    · simp only [List.mem_cons, List.not_mem_nil, or_false] at he
      rcases he with rfl | rfl | rfl | rfl | rfl | rfl
      · trivial
      · trivial
      · exact rfl
      · trivial
      · trivial
      · trivial
  have hsecond : net.Meets (fun s e => e.Sound s) s₁ second := by
    refine ⟨fun cp hcp _ => hfresh cp hcp, fun _ _ => Transition.System.meets_of_forall fun _ e he => ?_⟩
    simp only [List.mem_cons, List.not_mem_nil, or_false] at he
    rcases he with rfl | rfl | rfl
    · exact rfl
    · exact rfl
    · exact rfl
  refine ⟨s, s', hrun, hnext, hcalls, givesOwnReply_of_sound ⟨[], []⟩ ?_ hrun hnext⟩
  refine (Transition.System.meets_append hrun).2
    ⟨?_, sound_arrive_all hplain harrived, fun _ _ => trivial⟩
  exact (Transition.System.meets_append hrun₁).2 ⟨hfirst, hsecond⟩

def Call.repliesTo (work : CmdWork) : Call → Bool
  | .reply work' _ => work' = work
  | .dispose _ => false

/-- A pipeline sent again after a reconnect is called back after the first of its
commands' replies, where it had been answered in part. -/
theorem not_givesOwnReply_resent :
    ¬ ∀ (param : RedisStubParam) (es : List NetEvent) (e : NetEvent) (s s' : Net),
      net.run (openedNet param) es = some s → net.next s e = some s' → GivesOwnReply s s' := by
  intro hall
  let es : List NetEvent :=
    [.client (.connectOk none), .answer (.bulk sTestcmsgpack), .arrive 47,
      .client (.send twoCommands), .client (.commit none), .answer (.int 1), .arrive 4,
      .client .readFail, .client .reset, .client .timer, .client (.connectOk none),
      .answer (.bulk sTestcmsgpack), .answer (.int 5), .arrive 47]
  let load : CmdWork := (scriptLoadPipeline (sTestcmsgpack, testScript)).toCmdWork
  have hrun : ((net.run (openedNet ⟨[], []⟩) es).bind fun s =>
      (net.next s (.arrive 4)).map fun s' =>
        (s.conn.stream, s.answers.length,
          (s'.conn.calls.drop s.conn.calls.length).any (Call.repliesTo twoCommands))) =
      some (some [load, twoCommands], 2, true) := by decide +kernel
  obtain ⟨s, hs, h⟩ := Option.bind_eq_some_iff.1 hrun
  obtain ⟨s', hs', h⟩ := Option.map_eq_some_iff.1 h
  obtain ⟨hstream, h⟩ := Prod.mk.inj h
  obtain ⟨hanswers, hcalls⟩ := Prod.mk.inj h
  have hmem : ∃ r, Call.reply twoCommands r ∈ s'.conn.calls.drop s.conn.calls.length := by
    obtain ⟨call, hcall, hmine⟩ := List.any_eq_true.1 hcalls
    cases call with
    | reply work r =>
      obtain rfl := of_decide_eq_true hmine
      exact ⟨r, hcall⟩
    | dispose => cases hmine
  obtain ⟨r, hmem⟩ := hmem
  obtain ⟨before, after, v, hsplit, hv, -⟩ := hall ⟨[], []⟩ es _ s s' hs hs' _ _ hmem
  rw [hstream] at hsplit
  cases before with
  | nil =>
    have hsn := congrArg CmdWork.sn (List.cons.inj (Option.some.inj hsplit)).1
    cases hsn
  | cons work before =>
    obtain ⟨rfl, -⟩ := List.cons.inj (Option.some.inj hsplit)
    have hlt := (List.getElem?_eq_some_iff.1 hv).1
    rw [hanswers, commandCount_cons, show load.commands.length = 1 from rfl,
      show twoCommands.commands.length = 2 from rfl] at hlt
    omega

end KjRedis.Conn
