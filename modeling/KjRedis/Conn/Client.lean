import KjRedis.Conn.Completion
import KjRedis.Conn.InFlight

/-! `CRedisClient` and its connection: commands are built, committed as pipelines, handed
to the connection's thread, and their replies handed back. -/
namespace KjRedis.Conn

open KjRedisConn

/-- `commands` are those whose text is `_allCommands`. The counts are `int`s in the code: it
counts as here up to `2 ^ 31 - 1` commits, and as many commands between two of them. -/
structure CRedisClient where
  commands : List Command
  builtNum : Nat
  nextSn : Int

def newClient : CRedisClient := { commands := [], builtNum := 0, nextSn := 0 }

namespace CRedisClient

def buildCommand (c : CRedisClient) (vPiece : Command) : CRedisClient :=
  { c with commands := c.commands ++ [vPiece], builtNum := c.builtNum + 1 }

/-- The pipeline of a commit; nothing asks whether a command was built. -/
def commitWith (c : CRedisClient) (disposes : Bool) : CRedisClient × CmdWork :=
  ({ commands := [], builtNum := 0, nextSn := c.nextSn + 1 },
    { sn := c.nextSn + 1, commands := c.commands, builtNum := c.builtNum
      replyCb := some .user, disposes })

def commit (c : CRedisClient) : CRedisClient × CmdWork := c.commitWith false

/-- The caller waits until its pipeline has been disposed of. -/
def blockingCommit (c : CRedisClient) : CRedisClient × CmdWork := c.commitWith true

end CRedisClient

inductive ClientCall
  | buildCommand (vPiece : Command)
  | commit
  | blockingCommit

def CRedisClient.perform (c : CRedisClient) : ClientCall → CRedisClient × Option CmdWork
  | .buildCommand vPiece => (c.buildCommand vPiece, none)
  | .commit => (c.commit.1, some c.commit.2)
  | .blockingCommit => (c.blockingCommit.1, some c.blockingCommit.2)

/-- The client after some calls, and the pipelines they have committed. -/
def CRedisClient.runCalls (c : CRedisClient) : List ClientCall → CRedisClient × List CmdWork
  | [] => (c, [])
  | call :: calls =>
    let (c, work) := c.perform call
    let (c, works) := c.runCalls calls
    (c, work.toList ++ works)

def committed (calls : List ClientCall) : List CmdWork := (newClient.runCalls calls).2

/-- No pipeline without commands comes before one with commands. -/
def EmptyLast (works : List CmdWork) : Prop :=
  works.Pairwise fun work later => work.commands = [] → later.commands = []

/-- A caller's callback that is called, and the reply it is given. -/
def Call.userReply : Call → Option (CmdWork × CRedisReply)
  | .reply work r => if 0 < work.sn then some (work, r) else none
  | .dispose _ => none

def userReplies (calls : List Call) : List (CmdWork × CRedisReply) := calls.filterMap Call.userReply

def Call.disposesOf (work : CmdWork) : Call → Bool
  | .reply _ _ => false
  | .dispose work' => work' = work

/-- The client and the connection in its own thread. `callbacks` is the work queue,
`blocked` the pipeline a `BlockingCommit` waits for; `answers` are the replies to the
commands written, of which the first `arrived` have arrived; `trunk` holds the callbacks
on their way back to the caller's thread and `invoked` those it has run. -/
structure Service where
  client : CRedisClient
  callbacks : List CmdWork
  blocked : Option CmdWork
  conn : KjRedisConn Unit
  answers : List CRedisReply
  arrived : Nat
  trunk : List (CmdWork × CRedisReply)
  invoked : List (CmdWork × CRedisReply)

inductive ServiceEvent
  | call (call : ClientCall)
  | readPipe
  | connectOk
  | tick
  | answer (r : CRedisReply)
  | receive (n : Nat)
  | runOnce

def openedService (param : RedisStubParam) : Service :=
  { client := newClient, callbacks := [], blocked := none
    conn := opened wholeReplies (clientInit param), answers := [], arrived := 0, trunk := []
    invoked := [] }

namespace Service

def isBlocked (s : Service) : Bool :=
  s.blocked.any fun work => !s.conn.calls.any (Call.disposesOf work)

/-- The callbacks that `n` replies have called. A `Commit`'s goes through the trunk queue,
a `BlockingCommit`'s is run at once. -/
def received (s : Service) (n : Nat) (conn : KjRedisConn Unit) : Service :=
  let new := userReplies (conn.calls.drop s.conn.calls.length)
  { s with
    conn, arrived := s.arrived + n
    trunk := s.trunk ++ new.filter fun call => !call.1.disposes
    invoked := s.invoked ++ new.filter fun call => call.1.disposes }

/-- The connection does not fail, so every write succeeds. The server answers a command
with a reply that is no error, and a script load of `Init` with the script's digest. -/
def next (s : Service) : ServiceEvent → Option Service
  | .call call =>
    if s.isBlocked then none
    else
      let (client, work) := s.client.perform call
      some
        { s with
          client, callbacks := s.callbacks ++ work.toList
          blocked := work.filter fun work => work.disposes }
  | .readPipe => some { s with callbacks := [], conn := s.conn.readPipe s.callbacks none }
  | .connectOk =>
    ((clientConn wholeReplies).next s.conn (.connectOk none)).map fun conn => { s with conn }
  | .tick => ((clientConn wholeReplies).next s.conn (.tick none)).map fun conn => { s with conn }
  | .answer r =>
    match s.conn.stream with
    | none => none
    | some works =>
      if s.answers.length < commandCount works ∧ r.isError = false ∧
          (s.conn.dqInit[s.answers.length]?).all (fun cp => !cp.throwsOn r) then
        some { s with answers := s.answers ++ [r] }
      else none
  | .receive n =>
    if 0 < n ∧ s.arrived + n ≤ s.answers.length then
      ((clientConn wholeReplies).next s.conn
          (.receive ((s.answers.drop s.arrived).take n))).map (s.received n)
    else none
  | .runOnce => some { s with trunk := [], invoked := s.invoked ++ s.trunk }

/-- Everything committed has been written, answered and handed back. -/
structure Settled (s : Service) : Prop where
  callbacks : s.callbacks = []
  reading : s.conn.reading
  answered : ∃ works, s.conn.stream = some works ∧ s.answers.length = commandCount works
  arrived : s.arrived = s.answers.length
  trunk : s.trunk = []

/-- The pipeline's callback has been invoked once, with the reply to its last command. -/
def CalledBack (s : Service) (work : CmdWork) : Prop :=
  ∃ r before after, s.invoked.filter (fun call => call.1 = work) = [(work, r)] ∧
    s.conn.stream = some (before ++ work :: after) ∧
    s.answers[commandCount before + work.commands.length - 1]? = some r

end Service

def service : Transition.System Service ServiceEvent where
  next := Service.next

def ServiceEvent.clientCall : ServiceEvent → Option ClientCall
  | .call c => some c
  | _ => none

def clientCalls (es : List ServiceEvent) : List ClientCall := es.filterMap ServiceEvent.clientCall

/-- A pipeline of a client whose last number was `sn`. -/
structure CmdWork.IsCommit (sn : Int) (work : CmdWork) : Prop where
  user : work.IsUser
  counted : work.Counted
  later : sn < work.sn

theorem CmdWork.IsCommit.mono {sn sn' : Int} {work : CmdWork} (h : work.IsCommit sn)
    (hle : sn' ≤ sn) : work.IsCommit sn' :=
  { h with later := Int.lt_of_le_of_lt hle h.later }

/-- `_builtNum` counts the commands built. -/
structure CRedisClient.Sound (c : CRedisClient) : Prop where
  builtNum : c.builtNum = c.commands.length
  nextSn : 0 ≤ c.nextSn

theorem sound_newClient : newClient.Sound := ⟨rfl, Int.le_refl 0⟩

theorem CRedisClient.Sound.commitWith {c : CRedisClient} (h : c.Sound) (disposes : Bool) :
    (c.commitWith disposes).1.Sound ∧ (c.commitWith disposes).2.IsCommit c.nextSn ∧
      (c.commitWith disposes).2.sn = (c.commitWith disposes).1.nextSn := by
  have hsn : 0 < c.nextSn + 1 := Int.lt_add_one_of_le h.nextSn
  exact ⟨⟨rfl, Int.le_of_lt hsn⟩, ⟨⟨hsn, rfl⟩, h.builtNum, Int.lt_succ _⟩, rfl⟩

/-- A call commits at most one pipeline, numbered after those before it and not after
those to come. -/
theorem CRedisClient.Sound.perform {c : CRedisClient} (h : c.Sound) (call : ClientCall) :
    (c.perform call).1.Sound ∧ c.nextSn ≤ (c.perform call).1.nextSn ∧
      ∀ work ∈ (c.perform call).2.toList, work.IsCommit c.nextSn ∧
        work.sn ≤ (c.perform call).1.nextSn := by
  cases call with
  | buildCommand vPiece =>
    refine ⟨⟨?_, h.nextSn⟩, Int.le_refl _, fun work hwork => absurd hwork List.not_mem_nil⟩
    show c.builtNum + 1 = (c.commands ++ [vPiece]).length
    rw [h.builtNum, List.length_append, List.length_singleton]
  | commit =>
    obtain ⟨hsound, hwork, hsn⟩ := h.commitWith false
    refine ⟨hsound, Int.le_of_lt (Int.lt_succ _), fun work hmem => ?_⟩
    obtain rfl := List.mem_singleton.1 hmem
    exact ⟨hwork, Int.le_of_eq hsn⟩
  | blockingCommit =>
    obtain ⟨hsound, hwork, hsn⟩ := h.commitWith true
    refine ⟨hsound, Int.le_of_lt (Int.lt_succ _), fun work hmem => ?_⟩
    obtain rfl := List.mem_singleton.1 hmem
    exact ⟨hwork, Int.le_of_eq hsn⟩

theorem CRedisClient.Sound.runCalls {c : CRedisClient} (h : c.Sound) (calls : List ClientCall) :
    (∀ work ∈ (c.runCalls calls).2, work.IsCommit c.nextSn) ∧
      (c.runCalls calls).2.Pairwise fun work later => work.sn < later.sn := by
  induction calls generalizing c with
  | nil => exact ⟨fun work hwork => absurd hwork List.not_mem_nil, List.Pairwise.nil⟩
  | cons call calls ih =>
    obtain ⟨hsound, hle, hwork⟩ := h.perform call
    obtain ⟨hworks, hpairwise⟩ := ih hsound
    refine ⟨fun work hmem => ?_, ?_⟩
    · rcases List.mem_append.1 hmem with hmem | hmem
      · exact (hwork work hmem).1
      · exact (hworks work hmem).mono hle
    · apply List.pairwise_append.2
      refine ⟨?_, hpairwise, fun work hmem later hlater => ?_⟩
      · cases call with
        | buildCommand vPiece => exact List.Pairwise.nil
        | commit => exact List.pairwise_singleton _ _
        | blockingCommit => exact List.pairwise_singleton _ _
      · exact Int.lt_of_le_of_lt (hwork work hmem).2 (hworks later hlater).later

theorem runCalls_append (c : CRedisClient) (calls calls' : List ClientCall) :
    c.runCalls (calls ++ calls') =
      (((c.runCalls calls).1.runCalls calls').1,
        (c.runCalls calls).2 ++ ((c.runCalls calls).1.runCalls calls').2) := by
  induction calls generalizing c with
  | nil => rfl
  | cons call calls ih =>
    simp only [List.cons_append, CRedisClient.runCalls, ih, List.append_assoc]

theorem committed_nodup (calls : List ClientCall) : (committed calls).Nodup :=
  (sound_newClient.runCalls calls).2.imp fun hlt heq => by
    rw [heq] at hlt
    exact Int.lt_irrefl _ hlt

end KjRedis.Conn
