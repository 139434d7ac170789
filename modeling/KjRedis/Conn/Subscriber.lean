import KjRedis.Conn.Client
import Mathlib.Logic.Function.Basic

/-! `CRedisSubscriber`, its connection and its server: callers count their subscriptions
here, the server holds them for the connection it has. -/
namespace KjRedis.Conn

open KjRedisConn

/-- It builds and commits commands as a client does. A name that a map lacks counts 0; an `int`
that leaves its range wraps. -/
structure CRedisSubscriber extends CRedisClient where
  channelCounter : List UInt8 → Int32
  patternCounter : List UInt8 → Int32

def newSubscriber : CRedisSubscriber :=
  { newClient with channelCounter := fun _ => 0, patternCounter := fun _ => 0 }

namespace CRedisSubscriber

/-- `BuildCommand` and one of `CommitChannel`, `CommitPattern` and `Commit`. -/
def commitCommand (s : CRedisSubscriber) (vPiece : Command) : CRedisSubscriber × CmdWork :=
  let (client, work) := (s.toCRedisClient.buildCommand vPiece).commit
  ({ s with toCRedisClient := client }, work)

def setChannel (s : CRedisSubscriber) (channel : List UInt8) (nCount : Int32) : CRedisSubscriber :=
  { s with channelCounter := Function.update s.channelCounter channel nCount }

def setPattern (s : CRedisSubscriber) (pattern : List UInt8) (nCount : Int32) : CRedisSubscriber :=
  { s with patternCounter := Function.update s.patternCounter pattern nCount }

def subscribe (s : CRedisSubscriber) (channel : List UInt8) : CRedisSubscriber × Option CmdWork :=
  let nCount := s.channelCounter channel
  if 0 = nCount then
    let (s, work) := s.commitCommand [ascii "SUBSCRIBE", channel]
    (s.setChannel channel (nCount + 1), some work)
  else (s.setChannel channel (nCount + 1), none)

def psubscribe (s : CRedisSubscriber) (pattern : List UInt8) : CRedisSubscriber × Option CmdWork :=
  let nCount := s.patternCounter pattern
  if 0 ≥ nCount then
    let (s, work) := s.commitCommand [ascii "PSUBSCRIBE", pattern]
    (s.setPattern pattern (0 + 1), some work)
  else (s.setPattern pattern (nCount + 1), none)

def unsubscribe (s : CRedisSubscriber) (channel : List UInt8) : CRedisSubscriber × Option CmdWork :=
  let nCount := s.channelCounter channel
  if nCount > 0 then
    let s := s.setChannel channel (nCount - 1)
    if 0 = nCount - 1 then
      let (s, work) := s.commitCommand [ascii "UNSUBSCRIBE", channel]
      (s, some work)
    else (s, none)
  else (s, none)

/-- Unlike `Unsubscribe` it counts below zero. -/
def punsubscribe (s : CRedisSubscriber) (pattern : List UInt8) : CRedisSubscriber × Option CmdWork :=
  let nCount := s.patternCounter pattern - 1
  let s := s.setPattern pattern nCount
  if 0 = nCount then
    let (s, work) := s.commitCommand [ascii "PUNSUBSCRIBE", pattern]
    (s, some work)
  else (s, none)

end CRedisSubscriber

inductive SubscriberCall
  | subscribe (channel : List UInt8)
  | psubscribe (pattern : List UInt8)
  | unsubscribe (channel : List UInt8)
  | punsubscribe (pattern : List UInt8)
  deriving DecidableEq

def CRedisSubscriber.perform (s : CRedisSubscriber) :
    SubscriberCall → CRedisSubscriber × Option CmdWork
  | .subscribe channel => s.subscribe channel
  | .psubscribe pattern => s.psubscribe pattern
  | .unsubscribe channel => s.unsubscribe channel
  | .punsubscribe pattern => s.punsubscribe pattern

/-- The call takes no count out of an `int`. -/
def CRedisSubscriber.Fits (s : CRedisSubscriber) : SubscriberCall → Prop
  | .subscribe channel => s.channelCounter channel ≠ Int32.maxValue
  | .psubscribe pattern => s.patternCounter pattern ≠ Int32.maxValue
  | .unsubscribe _ => True
  | .punsubscribe pattern => s.patternCounter pattern ≠ Int32.minValue

/-- What the server holds for a connection. -/
structure Subscriptions where
  channels : List (List UInt8)
  patterns : List (List UInt8)

def noSubscriptions : Subscriptions := { channels := [], patterns := [] }

def addName (name : List UInt8) (names : List (List UInt8)) : List (List UInt8) :=
  if name ∈ names then names else name :: names

def removeName (name : List UInt8) (names : List (List UInt8)) : List (List UInt8) :=
  names.filter fun other => other ≠ name

/-- The reply to a command that subscribes or ends a subscription. -/
def Subscriptions.confirmation (s : Subscriptions) (kind name : List UInt8) : CRedisReply :=
  .ofRows
    [.ofString (kind.map some) .bulkString, .ofString (name.map some) .bulkString,
      .ofInt (s.channels.length + s.patterns.length)]

/-- The server takes a command; one it does not know here is `AUTH`. -/
def Subscriptions.process (s : Subscriptions) : Command → Subscriptions × CRedisReply
  | [word, name] =>
    if word = ascii "SUBSCRIBE" then
      let s := { s with channels := addName name s.channels }
      (s, s.confirmation (ascii "subscribe") name)
    else if word = ascii "PSUBSCRIBE" then
      let s := { s with patterns := addName name s.patterns }
      (s, s.confirmation (ascii "psubscribe") name)
    else if word = ascii "UNSUBSCRIBE" then
      let s := { s with channels := removeName name s.channels }
      (s, s.confirmation (ascii "unsubscribe") name)
    else if word = ascii "PUNSUBSCRIBE" then
      let s := { s with patterns := removeName name s.patterns }
      (s, s.confirmation (ascii "punsubscribe") name)
    else (s, .ofString ((ascii "OK").map some) .simpleString)
  | _ => (s, .ofString ((ascii "OK").map some) .simpleString)

/-- The commands of some pipelines, in order. -/
def commandsOf (works : List CmdWork) : List Command := works.flatMap (·.commands)

/-- `callbacks` is the work queue. The server has taken the first `served` of the commands
written on the current connection; `wire` holds what it has sent and has not arrived. -/
structure SubscriberService where
  subscriber : CRedisSubscriber
  callbacks : List CmdWork
  conn : KjRedisConn Unit
  served : Nat
  held : Subscriptions
  wire : List CRedisReply

inductive SubscriberEvent
  | call (c : SubscriberCall)
  | readPipe (ok : Option Nat)
  | conn (e : Event (List CRedisReply))
  | serve
  | publish (message : CRedisReply)
  | receive (n : Nat)

def openedSubscriber (param : RedisStubParam) : SubscriberService :=
  { subscriber := newSubscriber, callbacks := []
    conn := opened wholeReplies (subscriberInit param), served := 0, held := noSubscriptions
    wire := [] }

namespace SubscriberService

def connNext (c : KjRedisConn Unit) (e : Event (List CRedisReply)) : Option (KjRedisConn Unit) :=
  (subscriberConn wholeReplies).next c e

/-- A connection just made has no subscriptions. The server confirms each command it
takes, and sends published messages between the confirmations. -/
def next (s : SubscriberService) : SubscriberEvent → Option SubscriberService
  | .call c =>
    let (subscriber, work) := s.subscriber.perform c
    some { s with subscriber, callbacks := s.callbacks ++ work.toList }
  | .readPipe ok => some { s with callbacks := [], conn := s.conn.readPipe s.callbacks ok }
  | .conn (.send _) => none
  | .conn (.commit _) => none
  | .conn (.receive _) => none
  | .conn (.connectOk ok) =>
    (connNext s.conn (.connectOk ok)).map fun conn =>
      { s with conn, served := 0, held := noSubscriptions, wire := [] }
  | .conn e => (connNext s.conn e).map fun conn => { s with conn }
  | .serve =>
    match s.conn.stream.bind fun works => (commandsOf works)[s.served]? with
    | none => none
    | some command =>
      let (held, reply) := s.held.process command
      some { s with held, served := s.served + 1, wire := s.wire ++ [reply] }
  | .publish message =>
    if s.conn.stream.isSome ∧ isMessage message then some { s with wire := s.wire ++ [message] }
    else none
  | .receive n =>
    if 0 < n ∧ n ≤ s.wire.length then
      (connNext s.conn (.receive (s.wire.take n))).map fun conn =>
        { s with conn, wire := s.wire.drop n }
    else none

/-- The connection is up, and no pipeline remains in `_dqCommon` or on its way there. -/
structure Quiet (s : SubscriberService) : Prop where
  reading : s.conn.reading
  dqCommon : s.conn.dqCommon = []
  callbacks : s.callbacks = []

/-- The server holds just the subscriptions that are counted. -/
def HoldsCounted (s : SubscriberService) : Prop :=
  (∀ channel, channel ∈ s.held.channels ↔ 0 < s.subscriber.channelCounter channel) ∧
    ∀ pattern, pattern ∈ s.held.patterns ↔ 0 < s.subscriber.patternCounter pattern

/-- Of the commands, one subscribes to each channel and pattern counted. -/
def Resubscribed (subscriber : CRedisSubscriber) (commands : List Command) : Prop :=
  (∀ channel, 0 < subscriber.channelCounter channel → [ascii "SUBSCRIBE", channel] ∈ commands) ∧
    ∀ pattern, 0 < subscriber.patternCounter pattern → [ascii "PSUBSCRIBE", pattern] ∈ commands

def Fits (s : SubscriberService) : SubscriberEvent → Prop
  | .call c => s.subscriber.Fits c
  | _ => True

/-- Every connect finds the commands of all that is counted still unconfirmed. -/
def Sound (s : SubscriberService) : SubscriberEvent → Prop
  | .conn (.connectOk _) =>
    Resubscribed s.subscriber (commandsOf (waiting s.conn.dqCommon ++ s.callbacks))
  | _ => True

end SubscriberService

def subscriberService : Transition.System SubscriberService SubscriberEvent where
  next := SubscriberService.next

end KjRedis.Conn
