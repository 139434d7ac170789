import KjRedis.Conn.ReplyBuilder

/-! Command pipelines, and those a connection sends first. -/
namespace KjRedis.Conn

open KjRedis.Reply

/-- The pieces of one command. -/
abbrev Command := List (List UInt8)

inductive PipelineState
  | queueing | sending | committing | processing | processOver
  deriving DecidableEq, Repr

def PipelineState.toNat : PipelineState → Nat
  | .queueing => 1
  | .sending => 2
  | .committing => 3
  | .processing => 4
  | .processOver => 5

/-- `redis_reply_cb_t`: a caller's, which does not throw, or that of `SCRIPT LOAD`. -/
inductive ReplyCb
  | user
  | scriptLoad (sSha : List UInt8)
  deriving DecidableEq, Repr

/-- The script's digest has come back. -/
def bRegisterSuccess (sSha : List UInt8) (reply : CRedisReply) : Bool :=
  reply.ok && reply.isString && reply.strval = sSha.map some

def ReplyCb.throws : ReplyCb → CRedisReply → Bool
  | .user, _ => false
  | .scriptLoad sSha, reply => !bRegisterSuccess sSha reply

/-- What a pipeline is created with. `commands` are those whose text is `_commands`;
`disposes` tells whether there is a `_dispose_cb`. `sn` and `builtNum` are `int`s, below
`2 ^ 31` here. -/
structure CmdWork where
  sn : Int
  commands : List Command
  builtNum : Nat
  replyCb : Option ReplyCb
  disposes : Bool
  deriving DecidableEq, Repr

/-- `redis_cmd_pipepline_t`. `processedNum` is an `int`, below `2 ^ 31` here too. -/
structure CmdPipeline extends CmdWork where
  processedNum : Nat
  state : PipelineState
  deriving DecidableEq, Repr

/-- The text of `_commands`. -/
def CmdWork.text (work : CmdWork) : List UInt8 := (buildAll work.commands).sOutAllCommands

def createCmdPipeline (work : CmdWork) : CmdPipeline :=
  { work with processedNum := 0, state := .queueing }

def CmdPipeline.setState (cp : CmdPipeline) (state : PipelineState) : CmdPipeline :=
  { cp with state }

@[simp] theorem toCmdWork_setState (cp : CmdPipeline) (state : PipelineState) :
    (cp.setState state).toCmdWork = cp.toCmdWork := rfl

@[simp] theorem state_setState (cp : CmdPipeline) (state : PipelineState) :
    (cp.setState state).state = state := rfl

@[simp] theorem processedNum_setState (cp : CmdPipeline) (state : PipelineState) :
    (cp.setState state).processedNum = cp.processedNum := rfl

/-- A callback that has been called. -/
inductive Call
  | reply (work : CmdWork) (reply : CRedisReply)
  | dispose (work : CmdWork)

/-- A pipeline that one more reply has been counted for. -/
def CmdPipeline.counted (cp : CmdPipeline) : CmdPipeline :=
  { cp with processedNum := cp.processedNum + 1, state := .processing }

@[simp] theorem toCmdWork_counted (cp : CmdPipeline) : cp.counted.toCmdWork = cp.toCmdWork := rfl

/-- Its `_reply_cb` throws on this reply. -/
def CmdWork.throwsOn (work : CmdWork) (reply : CRedisReply) : Bool :=
  work.replyCb.any fun cb => cb.throws reply

def CmdWork.replied (work : CmdWork) (reply : CRedisReply) : List Call :=
  if work.replyCb.isSome then [.reply work reply] else []

def CmdWork.disposed (work : CmdWork) : List Call :=
  if work.disposes then [.dispose work] else []

structure RedisStubParam where
  sPassword : List UInt8
  mapScript : List (List UInt8 × List UInt8)

/-- `operator[]` of a `std::map` and an assignment: the keys stay in order. -/
def mapSet (key value : List UInt8) :
    List (List UInt8 × List UInt8) → List (List UInt8 × List UInt8)
  | [] => [(key, value)]
  | entry :: entries =>
    if key < entry.1 then (key, value) :: entry :: entries
    else if entry.1 < key then entry :: mapSet key value entries
    else (key, value) :: entries

def authPipelines (param : RedisStubParam) : List CmdPipeline :=
  if param.sPassword = [] then []
  else
    [createCmdPipeline
      { sn := 0, commands := [[ascii "AUTH", param.sPassword]], builtNum := 1, replyCb := none
        disposes := false }]

def sTestcmsgpack : List UInt8 := ascii "577017df0566f25df93daa49115c0290597c3c36"

def testScript : List UInt8 :=
  ascii "local t=\x7b1,'abc2',3\x7d;local p=cmsgpack.pack(t);local u=cmsgpack.unpack(p);return \x7bt,p,u\x7d"

def scriptLoadPipeline (entry : List UInt8 × List UInt8) : CmdPipeline :=
  createCmdPipeline
    { sn := 0, commands := [[ascii "SCRIPT", ascii "LOAD", entry.2]], builtNum := 1
      replyCb := some (.scriptLoad entry.1), disposes := false }

/-- `KjRedisClientConn::Init`. -/
def clientInit (param : RedisStubParam) : List CmdPipeline :=
  authPipelines param ++
    (mapSet sTestcmsgpack testScript param.mapScript).map scriptLoadPipeline

/-- `KjRedisSubscriberConn::Init`. -/
def subscriberInit (param : RedisStubParam) : List CmdPipeline := authPipelines param

/-- What every pipeline of `Init` is: one command, number 0, no reply counted. -/
structure IsInit (cp : CmdPipeline) : Prop where
  sn : cp.sn = 0
  builtNum : cp.builtNum = cp.commands.length
  length : cp.commands.length = 1
  processedNum : cp.processedNum = 0
  disposes : cp.disposes = false

theorem isInit_auth (param : RedisStubParam) : ∀ cp ∈ authPipelines param, IsInit cp := by
  intro cp hcp
  rw [authPipelines] at hcp
  split at hcp
  · cases hcp
  · obtain rfl := List.mem_singleton.1 hcp
    exact ⟨rfl, rfl, rfl, rfl, rfl⟩

theorem isInit_client (param : RedisStubParam) : ∀ cp ∈ clientInit param, IsInit cp := by
  intro cp hcp
  rcases List.mem_append.1 hcp with h | h
  · exact isInit_auth param cp h
  · obtain ⟨entry, -, rfl⟩ := List.mem_map.1 h
    exact ⟨rfl, rfl, rfl, rfl, rfl⟩

end KjRedis.Conn
