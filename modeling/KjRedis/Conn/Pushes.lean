import KjRedis.Conn.Malformed
import KjRedis.Conn.Subscriber

/-! Published messages and command replies on the subscriber's connection. Both come in
one stream and are told apart by the shape of an array whose rows have been moved out. -/
namespace KjRedis.Conn

open KjRedis.Reply

/-- `_refWorkCb1` and `_refWorkCb2` with what they are called with. -/
inductive WorkCall
  | message (sChannel sMessage : List (Option UInt8))
  | pmessage (sPattern sChannel sMessage : List (Option UInt8))
  deriving DecidableEq

/-- The work callback `KjRedisSubscriberConn::OnClientReceive` calls for a reply. -/
def workCall (reply : CRedisReply) : Option WorkCall :=
  if reply.ok && reply.isArray then
    match reply.rows with
    | v₀ :: v₁ :: v₂ :: v₃ :: _ =>
      if v₀.isString && v₁.isString && v₂.isString && v₃.isString then
        if v₀.strval = (ascii "pmessage").map some then
          some (.pmessage v₁.strval v₂.strval v₃.strval)
        else none
      else if v₀.isString && v₁.isString && v₂.isString then
        if v₀.strval = (ascii "message").map some then some (.message v₁.strval v₂.strval) else none
      else none
    | [v₀, v₁, v₂] =>
      if v₀.isString && v₁.isString && v₂.isString then
        if v₀.strval = (ascii "message").map some then some (.message v₁.strval v₂.strval) else none
      else none
    | _ => none
  else none

/-- The messages there are: `message` with a channel and a text, and `pmessage` with a
pattern before them. -/
def published (reply : CRedisReply) : Option WorkCall :=
  if reply.isArray then
    match reply.rows with
    | [v₀, v₁, v₂] =>
      if v₀.isString && v₁.isString && v₂.isString && v₀.strval = (ascii "message").map some then
        some (.message v₁.strval v₂.strval)
      else none
    | [v₀, v₁, v₂, v₃] =>
      if v₀.isString && v₁.isString && v₂.isString && v₃.isString &&
          v₀.strval = (ascii "pmessage").map some then
        some (.pmessage v₁.strval v₂.strval v₃.strval)
      else none
    | _ => none
  else none

private theorem isSome_ite {p : Prop} [Decidable p] {b : Bool} {call : WorkCall} :
    (if b then if p then some call else none else none).isSome = (b && decide p) := by
  cases b with
  | false => rfl
  | true =>
    by_cases hp : p
    · simp [hp]
    · simp [hp]

theorem isMessage_eq (reply : CRedisReply) : isMessage reply = (workCall reply).isSome := by
  unfold isMessage workCall
  by_cases harray : reply.ok && reply.isArray
  · rw [harray, Bool.true_and, if_pos rfl]
    rcases reply.rows with _ | ⟨v₀, _ | ⟨v₁, _ | ⟨v₂, _ | ⟨v₃, vs⟩⟩⟩⟩
    · rfl
    · rfl
    · rfl
    · exact isSome_ite.symm
    · simp only
      split
      · split
        next hname => exact decide_eq_true hname
        next hname => exact decide_eq_false hname
      · exact isSome_ite.symm
  · rw [Bool.eq_false_of_not_eq_true harray, Bool.false_and]
    rfl

/-- What is left of a reply that is no message: an array has lost its rows. -/
def movedFrom (reply : CRedisReply) : CRedisReply :=
  if reply.ok && reply.isArray then { reply with rows := [] } else reply

theorem subscriberIntake_message {reply : CRedisReply} {call : WorkCall}
    (h : workCall reply = some call) : subscriberIntake reply = none := by
  unfold subscriberIntake
  rw [isMessage_eq, h]
  rfl

theorem subscriberIntake_other {reply : CRedisReply} (h : workCall reply = none) :
    subscriberIntake reply = some (movedFrom reply) := by
  unfold subscriberIntake movedFrom
  rw [isMessage_eq, h]
  split
  · contradiction
  · split <;> rfl

/-- An array longer than a message, the first strings of which are those of one: a fifth
element behind a `pmessage`, or a fourth one that is no string behind a `message`. -/
def LooksPublished (reply : CRedisReply) : Prop :=
  reply.isArray ∧ ∃ v₀ v₁ v₂ v₃ vs, reply.rows = v₀ :: v₁ :: v₂ :: v₃ :: vs ∧
    v₀.isString ∧ v₁.isString ∧ v₂.isString ∧
    (v₃.isString ∧ vs ≠ [] ∧ v₀.strval = (ascii "pmessage").map some ∨
      ¬ v₃.isString ∧ v₀.strval = (ascii "message").map some)

/-- The two agree but for these. -/
theorem workCall_eq_published_iff {reply : CRedisReply} (hok : reply.ok) :
    workCall reply = published reply ↔ ¬ LooksPublished reply := by
  unfold LooksPublished
  unfold workCall published
  rw [hok, Bool.true_and]
  by_cases harray : reply.isArray
  · rw [if_pos harray, if_pos harray]
    rcases reply.rows with _ | ⟨v₀, _ | ⟨v₁, _ | ⟨v₂, _ | ⟨v₃, vs⟩⟩⟩⟩
    · simp
    · simp
    · simp
    · by_cases hstrings : v₀.isString && v₁.isString && v₂.isString
      · simp [hstrings]
      · simp [hstrings]
    · by_cases hstrings : v₀.isString && v₁.isString && v₂.isString
      · obtain ⟨⟨h₀, h₁⟩, h₂⟩ := (by simpa using hstrings :
          (v₀.isString = true ∧ v₁.isString = true) ∧ v₂.isString = true)
        cases h₃ : v₃.isString with
        | true =>
          cases vs with
          | nil => simp [h₀, h₁, h₂, h₃]
          | cons v₄ vs => simp [h₀, h₁, h₂, h₃, harray]
        | false =>
          cases vs with
          | nil => simp [h₀, h₁, h₂, h₃, harray]
          | cons v₄ vs => simp [h₀, h₁, h₂, h₃, harray]
      · refine iff_of_true ?_ ?_
        · have hfew := Bool.eq_false_of_not_eq_true hstrings
          cases vs with
          | nil => simp only [hfew, Bool.false_and, Bool.false_eq_true, if_false]
          | cons v₄ vs => simp only [hfew, Bool.false_and, Bool.false_eq_true, if_false]
        · rintro ⟨-, w₀, w₁, w₂, w₃, ws, heq, h₀, h₁, h₂, -⟩
          cases heq
          exact hstrings (by rw [h₀, h₁, h₂]; rfl)
  · simp [harray]

namespace KjRedisConn

variable {τ : Type*}

/-- One round of the loop of `KjRedisSubscriberConn::OnClientReceive`, and whether it throws. -/
def takeReply (c : KjRedisConn τ) (reply : CRedisReply) : KjRedisConn τ × Bool :=
  if reply.isError then (c, true)
  else
    match subscriberIntake reply with
    | none => (c, false)
    | some reply => c.onReply reply

end KjRedisConn

/-- A reply and what has been done for it: the work callbacks called, and the connection
before and after. -/
structure Handled (τ : Type*) where
  reply : CRedisReply
  before : KjRedisConn τ
  workCalls : List WorkCall
  after : KjRedisConn τ

variable {τ : Type*}

/-- The replies handed to the loop. Once it has thrown nothing is done for the rest. -/
def handled : List CRedisReply → KjRedisConn τ → List (Handled τ)
  | [], _ => []
  | reply :: replies, c =>
    ⟨reply, c, (workCall reply).toList, (c.takeReply reply).1⟩ ::
      if (c.takeReply reply).2 then
        replies.map fun lost => ⟨lost, (c.takeReply reply).1, [], (c.takeReply reply).1⟩
      else handled replies (c.takeReply reply).1

/-- The reply is counted for the front pipeline, and its callback is given the last one as
it was parsed. -/
def Answered (c c' : KjRedisConn τ) (reply : CRedisReply) (cp : CmdPipeline)
    (dq : List CmdPipeline) : Prop :=
  if cp.builtNum ≤ cp.processedNum + 1 then
    c'.calls = c.calls ++ cp.replied reply ++ cp.disposed ∧ c'.dqCommon = dq ∧
      c'.committingNum = c.committingNum - 1
  else
    c'.calls = c.calls ∧ c'.dqCommon = cp.counted :: dq ∧ c'.committingNum = c.committingNum

/-- A message goes to its work callback and no further. Any other reply answers the front
pipeline. -/
def Handled.Faithful (h : Handled τ) : Prop :=
  match published h.reply with
  | some call => h.workCalls = [call] ∧ KjRedisConn.SamePipelines h.before h.after
  | none => h.workCalls = [] ∧ ∃ cp dq, h.before.dqCommon = cp :: dq ∧
      Answered h.before h.after h.reply cp dq

/-- A reply that does not look like a message without being one; and if it is the last one of
a pipeline with a callback, it is no array with rows, and the callback does not throw on it. -/
def Plain (c : KjRedisConn τ) (reply : CRedisReply) : Prop :=
  ¬ LooksPublished reply ∧ (published reply = none → ∀ cp dq, c.dqCommon = cp :: dq →
    cp.builtNum ≤ cp.processedNum + 1 →
      ¬ cp.throwsOn reply ∧ (cp.replyCb.isSome → reply.isArray → reply.rows = []))

theorem replied_movedFrom_iff {work : CmdWork} {reply : CRedisReply} (hok : reply.ok) :
    work.replied (movedFrom reply) = work.replied reply ↔
      (work.replyCb.isSome → reply.isArray → reply.rows = []) := by
  unfold CmdWork.replied movedFrom
  rw [hok, Bool.true_and]
  obtain ⟨type, rows, strval, intval⟩ := reply
  by_cases hcb : work.replyCb.isSome
  · simp [hcb]
  · simp [hcb]

theorem throwsOn_movedFrom (work : CmdWork) (reply : CRedisReply) :
    work.throwsOn (movedFrom reply) = work.throwsOn reply := by
  have hthrows : ∀ cb : ReplyCb, cb.throws (movedFrom reply) = cb.throws reply := by
    intro cb
    unfold movedFrom
    cases cb with
    | user => rfl
    | scriptLoad sSha => split <;> rfl
  unfold CmdWork.throwsOn
  exact congrArg work.replyCb.any (funext hthrows)

theorem takeReply_message {c : KjRedisConn τ} {reply : CRedisReply} {call : WorkCall}
    (hok : reply.ok) (h : workCall reply = some call) : c.takeReply reply = (c, false) := by
  unfold KjRedisConn.takeReply
  rw [if_neg (CRedisReply.ok_iff.1 hok), subscriberIntake_message h]

theorem takeReply_other {c : KjRedisConn τ} {reply : CRedisReply} (hok : reply.ok)
    (h : workCall reply = none) : c.takeReply reply = c.onReply (movedFrom reply) := by
  unfold KjRedisConn.takeReply
  rw [if_neg (CRedisReply.ok_iff.1 hok), subscriberIntake_other h]

/-- A pipeline one more reply has been counted for is another one. -/
theorem counted_ne (cp : CmdPipeline) : cp.counted ≠ cp := by
  intro h
  have := congrArg CmdPipeline.processedNum h
  exact Nat.succ_ne_self _ this

theorem answered_iff {c : KjRedisConn τ} {reply : CRedisReply} {cp : CmdPipeline}
    {dq : List CmdPipeline} (hok : reply.ok) (hcommitted : c.HasCommitted)
    (hdq : c.dqCommon = cp :: dq) :
    Answered c (c.onReply (movedFrom reply)).1 reply cp dq ↔
      (cp.builtNum ≤ cp.processedNum + 1 →
        ¬ cp.throwsOn reply ∧ (cp.replyCb.isSome → reply.isArray → reply.rows = [])) := by
  unfold Answered
  have hspec := KjRedisConn.onReply_spec c (movedFrom reply)
  generalize c.onReply (movedFrom reply) = o at hspec ⊢
  cases hspec with
  | refused h => exact absurd h hcommitted.not_refused
  | counted cp' dq' hdq' _ _ hmore =>
    cases hdq.symm.trans hdq'
    have hmore : ¬ cp.builtNum ≤ cp.processedNum + 1 := Nat.not_le.2 hmore
    rw [if_neg hmore]
    exact iff_of_true ⟨rfl, rfl, rfl⟩ fun h => absurd h hmore
  | threw cp' dq' hdq' _ _ hlast hcb =>
    cases hdq.symm.trans hdq'
    rw [throwsOn_movedFrom] at hcb
    rw [if_pos hlast]
    refine iff_of_false ?_ fun h => (h hlast).1 hcb
    rintro ⟨-, hleft, -⟩
    exact List.cons_ne_self _ _ hleft
  | finished cp' dq' hdq' _ _ hlast hcb =>
    cases hdq.symm.trans hdq'
    rw [throwsOn_movedFrom] at hcb
    rw [if_pos hlast, ← replied_movedFrom_iff hok]
    constructor
    · rintro ⟨hcalls, -, -⟩ -
      exact ⟨hcb, List.append_cancel_left (List.append_cancel_right hcalls)⟩
    · intro h
      exact ⟨by rw [(h hlast).2], rfl, rfl⟩

/-- A reply that finds a written pipeline is handled faithfully if and only if it is plain. -/
theorem faithful_iff_plain {c : KjRedisConn τ} {reply : CRedisReply} (hok : reply.ok)
    (hserved : published reply = none → c.HasCommitted) :
    Handled.Faithful ⟨reply, c, (workCall reply).toList, (c.takeReply reply).1⟩ ↔ Plain c reply := by
  unfold Handled.Faithful
  rw [Plain, ← workCall_eq_published_iff hok]
  cases hwork : workCall reply with
  | some call =>
    rw [takeReply_message hok hwork]
    cases hpub : published reply with
    | some call' =>
      have hsame : KjRedisConn.SamePipelines c c := ⟨rfl, rfl, rfl⟩
      simp [hsame]
    | none => simp
  | none =>
    rw [takeReply_other hok hwork]
    cases hpub : published reply with
    | some call' => simp
    | none =>
      obtain ⟨-, cp, dq, hdq, -⟩ := hserved hpub
      have hanswered := answered_iff hok (hserved hpub) hdq
      constructor
      · rintro ⟨-, cp', dq', hdq', h⟩
        cases hdq.symm.trans hdq'
        refine ⟨rfl, fun _ cp' dq' hdq' => ?_⟩
        cases hdq.symm.trans hdq'
        exact hanswered.1 h
      · rintro ⟨-, h⟩
        exact ⟨rfl, cp, dq, hdq, hanswered.2 (h rfl cp dq hdq)⟩

/-- Every reply that is neither an error nor a message finds a written pipeline. -/
def Served : List CRedisReply → KjRedisConn τ → Prop
  | [], _ => True
  | reply :: replies, c =>
    (reply.ok → published reply = none → c.HasCommitted) ∧ Served replies (c.takeReply reply).1

/-- No reply but errors comes after an error, and the replies before it are plain. -/
def AllPlain : List CRedisReply → KjRedisConn τ → Prop
  | [], _ => True
  | reply :: replies, c =>
    if reply.isError then ∀ lost ∈ replies, lost.isError
    else Plain c reply ∧ AllPlain replies (c.takeReply reply).1

def AllFaithful (replies : List CRedisReply) (c : KjRedisConn τ) : Prop :=
  ∀ h ∈ handled replies c, h.reply.ok → h.Faithful

/-- A reply nothing is done for is not handled. -/
theorem not_faithful_lost (c : KjRedisConn τ) (reply : CRedisReply) :
    ¬ Handled.Faithful ⟨reply, c, [], c⟩ := by
  unfold Handled.Faithful
  cases published reply with
  | some call => simp
  | none =>
    rintro ⟨-, cp, dq, hdq, h⟩
    unfold Answered at h
    split at h
    · exact List.cons_ne_self _ _ (hdq.symm.trans h.2.1)
    · exact counted_ne cp (List.cons.inj (hdq.symm.trans h.2.1)).1.symm

/-- A plain reply does not make the loop throw. -/
theorem takeReply_of_plain {c : KjRedisConn τ} {reply : CRedisReply} (hok : reply.ok)
    (hserved : published reply = none → c.HasCommitted) (h : Plain c reply) :
    (c.takeReply reply).2 = false := by
  obtain ⟨hlooks, hlast⟩ := h
  have hshape := (workCall_eq_published_iff hok).2 hlooks
  cases hwork : workCall reply with
  | some call => rw [takeReply_message hok hwork]
  | none =>
    have hpub : published reply = none := hshape.symm.trans hwork
    rw [takeReply_other hok hwork]
    have hspec := KjRedisConn.onReply_spec c (movedFrom reply)
    generalize c.onReply (movedFrom reply) = o at hspec ⊢
    cases hspec with
    | refused h => exact absurd h (hserved hpub).not_refused
    | counted => rfl
    | threw cp' dq' hdq' _ _ hend hcb =>
      rw [throwsOn_movedFrom] at hcb
      exact absurd hcb (hlast hpub cp' dq' hdq' hend).1
    | finished => rfl

theorem allFaithful_iff_allPlain {replies : List CRedisReply} {c : KjRedisConn τ}
    (h : Served replies c) : AllFaithful replies c ↔ AllPlain replies c := by
  induction replies generalizing c with
  | nil => exact iff_of_true (fun _ hmem => by cases hmem) trivial
  | cons reply replies ih =>
    obtain ⟨hserved, hrest⟩ := h
    unfold AllFaithful
    rw [handled, AllPlain, List.forall_mem_cons]
    by_cases herror : reply.isError
    · have hthrew : c.takeReply reply = (c, true) := if_pos herror
      have hnot : ¬ reply.ok := fun hok => CRedisReply.ok_iff.1 hok herror
      rw [if_pos herror, hthrew, if_pos rfl, List.forall_mem_map]
      constructor
      · rintro ⟨-, h⟩ lost hlost
        by_contra hok
        exact not_faithful_lost c lost (h lost hlost (CRedisReply.ok_iff.2 hok))
      · intro h
        refine ⟨fun hok => absurd hok hnot, fun lost hlost hok => ?_⟩
        exact absurd (h lost hlost) (CRedisReply.ok_iff.1 hok)
    · have hok : reply.ok := CRedisReply.ok_iff.2 herror
      have hfaithful := faithful_iff_plain hok (hserved hok)
      rw [if_neg herror]
      constructor
      · rintro ⟨hthis, hthose⟩
        have hplain := hfaithful.1 (hthis hok)
        rw [takeReply_of_plain hok (hserved hok) hplain, if_neg Bool.false_ne_true] at hthose
        exact ⟨hplain, (ih hrest).1 hthose⟩
      · rintro ⟨hplain, hthose⟩
        rw [takeReply_of_plain hok (hserved hok) hplain, if_neg Bool.false_ne_true]
        exact ⟨fun _ => hfaithful.2 hplain, (ih hrest).2 hthose⟩

namespace KjRedisConn

theorem SamePipelines.takeReply {c c' : KjRedisConn τ} (h : SamePipelines c c')
    (reply : CRedisReply) : SamePipelines (c.takeReply reply).1 (c'.takeReply reply).1 ∧
      (c.takeReply reply).2 = (c'.takeReply reply).2 := by
  unfold KjRedisConn.takeReply
  split
  · exact ⟨h, rfl⟩
  · split
    · exact ⟨h, rfl⟩
    · exact h.onReply _

theorem replyLoop_takeReply (reply : CRedisReply) (replies : List CRedisReply) (c : KjRedisConn τ) :
    replyLoop subscriberIntake (reply :: replies) c =
      if ({ c with availableReplies := replies }.takeReply reply).2 then
        (({ c with availableReplies := replies }.takeReply reply).1, true)
      else replyLoop subscriberIntake replies ({ c with availableReplies := replies }.takeReply reply).1 := by
  rw [replyLoop, takeReply]
  split
  · rfl
  · cases subscriberIntake reply with
    | none => rfl
    | some reply' =>
      simp only
      split
      next heq => rw [heq, if_pos rfl]
      next heq => rw [heq, if_neg Bool.false_ne_true]

end KjRedisConn

/-- The connection after the last reply handed to the loop. -/
def handledLast (replies : List CRedisReply) (c : KjRedisConn τ) : KjRedisConn τ :=
  (handled replies c).foldl (fun _ h => h.after) c

/-- The loop leaves the pipelines as the last reply has left them. -/
theorem replyLoop_handled {replies : List CRedisReply} {c c' : KjRedisConn τ}
    (h : KjRedisConn.SamePipelines c c') :
    KjRedisConn.SamePipelines (handledLast replies c)
      (KjRedisConn.replyLoop subscriberIntake replies c').1 := by
  unfold handledLast
  induction replies generalizing c c' with
  | nil => exact ⟨h.calls, h.dqCommon, h.committingNum⟩
  | cons reply replies ih =>
    have hnext : KjRedisConn.SamePipelines c { c' with availableReplies := replies } :=
      ⟨h.calls, h.dqCommon, h.committingNum⟩
    obtain ⟨hsame, hthrew⟩ := hnext.takeReply reply
    rw [handled, List.foldl_cons, KjRedisConn.replyLoop_takeReply, ← hthrew]
    split
    · have hlost : ∀ (c₁ : KjRedisConn τ) (rest : List CRedisReply),
          (rest.map fun lost => (⟨lost, c₁, [], c₁⟩ : Handled τ)).foldl (fun _ h => h.after) c₁ = c₁ := by
        intro c₁ rest
        induction rest with
        | nil => rfl
        | cons lost rest ih => exact ih
      rw [hlost]
      exact hsame
    · exact ih hsame

/-- What a step hands to the loop, and the connection before. -/
def arrived (c : KjRedisConn Unit) : Event (List CRedisReply) → List (List CRedisReply × KjRedisConn Unit)
  | .receive replies => [(c.availableReplies ++ replies, c.parsed () replies)]
  | _ => []

def receipts (c : KjRedisConn Unit) :
    List (Event (List CRedisReply)) → List (List CRedisReply × KjRedisConn Unit)
  | [] => []
  | e :: es =>
    match (subscriberConn wholeReplies).next c e with
    | none => []
    | some c' => arrived c e ++ receipts c' es

/-- In every run of the subscriber's connection each message and each other reply is handled
as it should, by what the connection's loop does to the pipelines, if and only if every reply
that comes is plain and follows no error. -/
theorem receipts_faithful_iff (c : KjRedisConn Unit) (es : List (Event (List CRedisReply)))
    (hserved : ∀ x ∈ receipts c es, Served x.1 x.2) :
    (∀ x ∈ receipts c es, KjRedisConn.SamePipelines (handledLast x.1 x.2)
        (KjRedisConn.replyLoop subscriberIntake x.1 x.2).1) ∧
      ((∀ x ∈ receipts c es, AllFaithful x.1 x.2) ↔ ∀ x ∈ receipts c es, AllPlain x.1 x.2) :=
  ⟨fun _ _ => replyLoop_handled ⟨rfl, rfl, rfl⟩,
    forall₂_congr fun x hx => allFaithful_iff_allPlain (hserved x hx)⟩

/-- `PUBSUB NUMSUB c`, as `CRedisSubscriber::Pubsub` commits it. -/
def pubsub : CmdWork :=
  { sn := 1, commands := [[ascii "PUBSUB", ascii "NUMSUB", ascii "c"]], builtNum := 1
    replyCb := some .user, disposes := true }

/-- A connection is made, `PUBSUB` is sent, and replies come. -/
def pubsubRun (replies : List CRedisReply) : List (Event (List CRedisReply)) :=
  [.connectOk none, .send pubsub, .commit none, .receive replies]

def pubsubSent : KjRedisConn Unit :=
  { opened wholeReplies [] with
    dqCommon := [(createCmdPipeline pubsub).setState .committing]
    committingNum := 1, bConnected := true, stream := some [pubsub], connecting := false
    reading := true }

theorem receipts_pubsub (replies : List CRedisReply) :
    receipts (opened wholeReplies []) (pubsubRun replies) =
      [(replies, pubsubSent.parsed () replies)] := rfl

theorem hasCommitted_pubsub (replies : List CRedisReply) :
    (pubsubSent.parsed () replies).HasCommitted :=
  ⟨Int.one_pos, _, _, rfl, Nat.le_refl _⟩

def bulk (s : String) : CRedisReply := .ofString ((ascii s).map some) .bulkString

def hello : CRedisReply := .ofRows [bulk "message", bulk "c", bulk "hello"]

/-- A message and then an integer. -/
theorem receipts_faithful_iff_message :
    AllFaithful [hello, .ofInt 1] (pubsubSent.parsed () [hello, .ofInt 1]) := by
  have hwork : workCall hello = some (.message (bulk "c").strval (bulk "hello").strval) := if_pos rfl
  have hpub : published hello = some (.message (bulk "c").strval (bulk "hello").strval) := if_pos rfl
  have htake := @takeReply_message Unit (pubsubSent.parsed () [hello, .ofInt 1]) hello _ rfl hwork
  have hmem := List.mem_singleton_self ([hello, .ofInt 1], pubsubSent.parsed () [hello, .ofInt 1])
  rw [← receipts_pubsub] at hmem
  refine (receipts_faithful_iff _ _ ?_).2.2 ?_ _ hmem
  rotate_left
  · rw [receipts_pubsub, List.forall_mem_singleton, AllPlain, if_neg (by decide), AllPlain,
      if_neg (by decide), htake, Plain, Plain, hpub]
    have hlooks : ∀ {reply : CRedisReply}, reply.ok → workCall reply = published reply →
        ¬ LooksPublished reply := fun hok heq => (workCall_eq_published_iff hok).1 heq
    refine ⟨⟨hlooks rfl (hwork.trans hpub.symm), fun hnone => by cases hnone⟩,
      ⟨hlooks rfl rfl, fun _ cp dq hdq _ => ?_⟩, trivial⟩
    cases hdq
    exact ⟨by decide, fun _ harray => by cases harray⟩
  · rw [receipts_pubsub, List.forall_mem_singleton, Served, Served, htake, hpub]
    exact ⟨fun _ hnone => absurd hnone (Option.some_ne_none _), fun _ _ => hasCommitted_pubsub _, trivial⟩

/-- The reply to `PUBSUB NUMSUB` comes to its callback without its rows. -/
theorem not_receipts_faithful : ¬ ∀ (c : KjRedisConn Unit) (es : List (Event (List CRedisReply))),
    (∀ x ∈ receipts c es, Served x.1 x.2) → ∀ x ∈ receipts c es, AllFaithful x.1 x.2 := by
  intro h
  have hserved : Served [.ofRows [bulk "c", .ofInt 1]]
      (pubsubSent.parsed () [.ofRows [bulk "c", .ofInt 1]]) :=
    ⟨fun _ _ => hasCommitted_pubsub _, trivial⟩
  have hall := h (opened wholeReplies []) (pubsubRun [.ofRows [bulk "c", .ofInt 1]])
  rw [receipts_pubsub, List.forall_mem_singleton, List.forall_mem_singleton] at hall
  have hplain := (allFaithful_iff_allPlain hserved).1 (hall hserved)
  rw [AllPlain, if_neg (by simp [CRedisReply.ofRows, CRedisReply.isError])] at hplain
  have hrows := ((hplain.1.2 rfl _ _ rfl (Nat.le_refl 1)).2 rfl) rfl
  cases hrows

end KjRedis.Conn
