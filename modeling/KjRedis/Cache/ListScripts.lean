import KjRedis.Cache.ListProxy

/-! The scripts of `CRedisListProxy` on a server with lists, and the calls that clients make
with them. -/
namespace KjRedis.Cache

open KjRedis.Conn KjRedis.Reply
open HashStore (Hash Store serialized)

/-- `published` has the channels and messages of `PUBLISH`, the last one first. -/
structure ListServer where
  hashes : Store Bytes
  lists : Bytes → List Bytes
  published : List (Bytes × Bytes)

/-- A script runs to its end without another command in between. -/
abbrev ListScript (α : Type) := StateM ListServer α

namespace ListServer

variable (key : Bytes)

def hget (field : Bytes) : ListScript (Option Bytes) := do
  return ((← get).hashes key).lookup field

def hset (field value : Bytes) : ListScript Unit :=
  modify fun s => { s with hashes := s.hashes.set key field value }

def hdel (field : Bytes) : ListScript Unit :=
  modify fun s => { s with hashes := s.hashes.unset key field }

def hgetall : ListScript (List Bytes) := do
  return ((← get).hashes key).entries.flatMap fun e => [e.1, e.2]

/-- Whatever the key holds. -/
def del : ListScript Unit :=
  modify fun s => { s with hashes := s.hashes.drop key, lists := Function.update s.lists key [] }

def lpush (value : Bytes) : ListScript Unit :=
  modify fun s => { s with lists := Function.update s.lists key (value :: s.lists key) }

def rpush (value : Bytes) : ListScript Unit :=
  modify fun s => { s with lists := Function.update s.lists key (s.lists key ++ [value]) }

def lpop : ListScript (Option Bytes) := do
  let s ← get
  set { s with lists := Function.update s.lists key (s.lists key).tail }
  return (s.lists key).head?

def rpop : ListScript (Option Bytes) := do
  let s ← get
  set { s with lists := Function.update s.lists key (s.lists key).dropLast }
  return (s.lists key).getLast?

def llen : ListScript Nat := do return ((← get).lists key).length

/-- `LRANGE` from 0 to -1. -/
def lrange : ListScript (List Bytes) := do return (← get).lists key

/-- A negative index counts from the end. -/
def lindex (n : ℤ) : ListScript (Option Bytes) := do
  let l := (← get).lists key
  let i := if n < 0 then l.length + n else n
  return if i < 0 then none else l[i.toNat]?

def publish (chan msg : Bytes) : ListScript Unit :=
  modify fun s => { s with published := (chan, msg) :: s.published }

/-- What a list is serialized to stands for the list itself; an empty one does not exist. -/
def serializedList (l : List Bytes) : Option (List Bytes) := if l = [] then none else some l

def dumpList : ListScript (Option (List Bytes)) := do return serializedList ((← get).lists key)

def dumpHash : ListScript (Option (Hash Bytes)) := do return serialized ((← get).hashes key)

def restoreList (l : List Bytes) : ListScript Unit :=
  modify fun s => { s with lists := Function.update s.lists key l }

def restoreHash (c : Hash Bytes) : ListScript Unit :=
  modify fun s => { s with hashes := Function.update s.hashes key c }

end ListServer

open ListServer

namespace CRedisListProxy

section Scripts

variable (lua : Lua) (key₁ key₂ key₃ key₄ argv₁ argv₂ argv₃ argv₄ : Bytes)

/-- `false` is the null reply that makes `Clear` exit. -/
def sClear : ListScript Bool := do
  let r ← hget key₁ isDirty
  if absent r || r.bind lua.tonumber == some 0 then
    hdel key₃ key₂
    del key₂
    del key₁
    return true
  else
    return false

def sPopAll : ListScript (List Bytes) := do
  let r ← lrange key₂
  del key₂
  hset key₁ isDirty (lua.tostring 1)
  hset key₃ key₂ key₁
  return r

/-- The mark is set after the flag, so that it may be the flag. -/
def sPopAllAndMark : ListScript (List Bytes) := do
  let r ← lrange key₂
  del key₂
  hset key₁ isDirty (lua.tostring 1)
  hset key₃ key₂ key₁
  hset key₁ argv₁ argv₂
  publish key₄ (ascii "0|" ++ argv₁ ++ ascii ":" ++ argv₂)
  return r

/-- What the four scripts have in common that set a mark to `ARGV[3]`. -/
def setMark (agrees : Option Bytes → Bool) (push : ListScript Unit) (message : Bytes → Bytes) :
    ListScript Bool := do
  let r ← hget key₁ argv₁
  if agrees r then
    hset key₁ argv₁ argv₃
    push
    hset key₁ isDirty (lua.tostring 1)
    hset key₃ key₂ key₁
    let m ← llen key₂
    publish key₄ (message (lua.tostring m))
    return true
  else
    return false

def sLPushCAS : ListScript Bool :=
  setMark lua key₁ key₂ key₃ key₄ argv₁ argv₃ (fun r => absent r || r == some argv₂)
    (lpush key₂ argv₄) fun m => m ++ ascii "|" ++ argv₁ ++ ascii ":" ++ argv₃

def sRPushCAS : ListScript Bool :=
  setMark lua key₁ key₂ key₃ key₄ argv₁ argv₃ (fun r => absent r || r == some argv₂)
    (rpush key₂ argv₄) fun m => m

def sTestMark : ListScript Bool := do
  let r ← hget key₁ argv₁
  return r == some argv₂

def sSetCAS : ListScript Bool :=
  setMark lua key₁ key₂ key₃ key₄ argv₁ argv₃ (fun r => absent r || r == some argv₂) (pure ())
    fun m => m

def sResetCAS : ListScript Bool :=
  setMark lua key₁ key₂ key₃ key₄ argv₁ argv₃ (fun r => r != some argv₂) (pure ()) fun m => m

/-- `{l,DUMP l,c,DUMP c}`: the key of the list and what it held, and the same of its marks. -/
abbrev ListDirtyEntry := Bytes × Option (List Bytes) × Bytes × Option (Hash Bytes)

/-- `for i=1,n-1,2`: fields and values of the index in turn. -/
def lootLoop : List Bytes → ListScript (List ListDirtyEntry)
  | l :: c :: e => do
    let d ← hget c isDirty
    hdel c isDirty
    if d.bind lua.tonumber == some 1 then
      let dl ← dumpList l
      let dc ← dumpHash c
      let r ← lootLoop e
      return (l, dl, c, dc) :: r
    else
      lootLoop e
  | _ => return []

def sLootDirtyEntry : ListScript (List ListDirtyEntry) := do
  let e ← hgetall key₁
  del key₁
  lootLoop lua e

/-- `none` is the empty string. -/
def sRestore (c : Option (Hash Bytes)) (l : Option (List Bytes)) : ListScript Unit := do
  del key₁
  del key₂
  if let some c := c then restoreHash key₁ c
  if let some l := l then restoreList key₂ l

/-- A script of the counters, on the server with lists. -/
def counting (script : Server → CASReply × Server) : ListScript CASReply := do
  let s ← get
  let answer := script { hashes := s.hashes, lists := s.lists, published := [] }
  let told := answer.2.published.map fun e => (e.1, lua.tostring e.2)
  set { hashes := answer.2.hashes, lists := answer.2.lists, published := told ++ s.published : ListServer }
  return answer.1

end Scripts

end CRedisListProxy

/-- What a client can ask of a list. -/
inductive ListCall where
  | lPushToList (sValue : Bytes)
  | rPushToList (sValue : Bytes)
  | clear
  | lPop
  | rPop
  | lLength
  | getItemAt (nIndex : ℤ)
  | popAll
  | popAllAndMark (sId sExpect : Bytes)
  | lPushCAS (sId sExpect sDest sValue : Bytes)
  | rPushCAS (sId sExpect sDest sValue : Bytes)
  | testMark (sId sExpect : Bytes)
  | setCAS (sId sExpect sDest : Bytes)
  | resetCAS (sId sMustNotEqual sDest : Bytes)
  | incrByIntCAS (sId : Bytes) (nIncrement nUpperBound : ℤ)
  | decrByIntCAS (sId : Bytes) (nDecrement nLowerBound : ℤ)
  deriving DecidableEq

inductive ListReply where
  | done
  | flag (b : Bool)
  | text (sValue : Bytes)
  | number (n : ℤ)
  | items (vOut : List Bytes)
  | counter (r : CASReply)

open CRedisListProxy in
/-- A reply that is no string is the empty one. -/
def ListCall.perform (lua : Lua) (listDirtyEntry : Bytes) (p : CRedisListProxy) :
    ListCall → ListScript ListReply
  | .lPushToList sValue => do
    lpush p.sIdList sValue
    return .done
  | .rPushToList sValue => do
    rpush p.sIdList sValue
    return .done
  | .clear =>
    return .flag (← CRedisListProxy.sClear lua p.sIdHashOfCAS p.sIdList listDirtyEntry)
  | .lPop => return .text ((← lpop p.sIdList).getD [])
  | .rPop => return .text ((← rpop p.sIdList).getD [])
  | .lLength => return .number (Int.bmod (← llen p.sIdList) (2 ^ 32))
  | .getItemAt nIndex => return .text ((← lindex p.sIdList nIndex).getD [])
  | .popAll => return .items (← sPopAll lua p.sIdHashOfCAS p.sIdList listDirtyEntry)
  | .popAllAndMark sId sExpect =>
    return .items (← sPopAllAndMark lua p.sIdHashOfCAS p.sIdList listDirtyEntry p.sIdChanOfNotify
      sId sExpect)
  | .lPushCAS sId sExpect sDest sValue =>
    return .flag (← sLPushCAS lua p.sIdHashOfCAS p.sIdList listDirtyEntry p.sIdChanOfNotify
      sId sExpect sDest sValue)
  | .rPushCAS sId sExpect sDest sValue =>
    return .flag (← sRPushCAS lua p.sIdHashOfCAS p.sIdList listDirtyEntry p.sIdChanOfNotify
      sId sExpect sDest sValue)
  | .testMark sId sExpect => return .flag (← sTestMark p.sIdHashOfCAS sId sExpect)
  | .setCAS sId sExpect sDest =>
    return .flag (← sSetCAS lua p.sIdHashOfCAS p.sIdList listDirtyEntry p.sIdChanOfNotify
      sId sExpect sDest)
  | .resetCAS sId sMustNotEqual sDest =>
    return .flag (← sResetCAS lua p.sIdHashOfCAS p.sIdList listDirtyEntry p.sIdChanOfNotify
      sId sMustNotEqual sDest)
  | .incrByIntCAS sId nIncrement nUpperBound =>
    return .counter (← counting lua (sIncrByIntCAS lua p.sIdHashOfCAS p.sIdList listDirtyEntry
      p.sIdChanOfNotify sId (decimalInt nIncrement) (decimalInt nUpperBound)))
  | .decrByIntCAS sId nDecrement nLowerBound =>
    return .counter (← counting lua (sDecrByIntCAS lua p.sIdHashOfCAS p.sIdList listDirtyEntry
      p.sIdChanOfNotify sId (decimalInt nDecrement) (decimalInt nLowerBound)))

namespace ListServer

variable (lua : Lua) (listDirtyEntry : Bytes) (p : CRedisListProxy) (s : ListServer)

def list : List Bytes := s.lists p.sIdList

def mark (sId : Bytes) : Option Bytes := (s.hashes p.sIdHashOfCAS).lookup sId

/-- What the looting script asks of the flag. -/
def isFlagged : Bool := (s.mark p isDirty).bind lua.tonumber == some 1

def withList (l : List Bytes) : ListServer :=
  { s with lists := Function.update s.lists p.sIdList l }

def withMark (sId value : Bytes) : ListServer :=
  { s with hashes := s.hashes.set p.sIdHashOfCAS sId value }

/-- The flag of the list, and its entry in the index. -/
def flagged : ListServer :=
  { s.withMark p isDirty (lua.tostring 1) with
    hashes := (s.withMark p isDirty (lua.tostring 1)).hashes.set listDirtyEntry p.sIdList p.sIdHashOfCAS }

def told (msg : Bytes) : ListServer :=
  { s with published := (p.sIdChanOfNotify, msg) :: s.published }

/-- `DEL` of the list. -/
def emptied : ListServer :=
  { s.withList p [] with hashes := s.hashes.drop p.sIdList }

def cleared : ListServer :=
  let t := { s with hashes := s.hashes.unset listDirtyEntry p.sIdList : ListServer }.emptied p
  { t with
    hashes := t.hashes.drop p.sIdHashOfCAS
    lists := Function.update t.lists p.sIdHashOfCAS [] }

theorem withList_self : s.withList p (s.list p) = s := by
  simp only [withList, list, Function.update_eq_self]

end ListServer

/-- The mark that the call sets where it is accepted, and to what. -/
def ListCall.sets : ListCall → Option (Bytes × Bytes)
  | .lPushCAS sId _ sDest _ | .rPushCAS sId _ sDest _ | .setCAS sId _ sDest | .resetCAS sId _ sDest =>
    some (sId, sDest)
  | _ => none

/-- What the call asks of the mark that it sets. -/
def ListCall.agrees : ListCall → Option Bytes → Bool
  | .lPushCAS _ sExpect _ _, r | .rPushCAS _ sExpect _ _, r | .setCAS _ sExpect _, r =>
    absent r || r == some sExpect
  | .resetCAS _ sMustNotEqual _, r => r != some sMustNotEqual
  | _, _ => false

/-- The list after the call where that is accepted. -/
def ListCall.pushed : ListCall → List Bytes → List Bytes
  | .lPushCAS _ _ _ sValue, l => sValue :: l
  | .rPushCAS _ _ _ sValue, l => l ++ [sValue]
  | _, l => l

/-- The call changes nothing. -/
def ListCall.looks : ListCall → Bool
  | .lLength | .getItemAt _ | .testMark _ _ => true
  | _ => false

/-- The counter that the call changes. -/
def ListCall.counts : ListCall → Option Bytes
  | .incrByIntCAS sId _ _ | .decrByIntCAS sId _ _ => some sId
  | _ => none

section Performed

variable (lua : Lua) (listDirtyEntry : Bytes) (p : CRedisListProxy) (s : ListServer)

/-- What a call replies and what it leaves. -/
inductive Performed : ListCall → ListReply → ListServer → Prop
  | lPushToList (sValue : Bytes) :
      Performed (.lPushToList sValue) .done (s.withList p (sValue :: s.list p))
  | rPushToList (sValue : Bytes) :
      Performed (.rPushToList sValue) .done (s.withList p (s.list p ++ [sValue]))
  | lPop : Performed .lPop (.text ((s.list p).head?.getD [])) (s.withList p (s.list p).tail)
  | rPop : Performed .rPop (.text ((s.list p).getLast?.getD [])) (s.withList p (s.list p).dropLast)
  | looked {call : ListCall} (reply : ListReply) (hlooks : call.looks = true) :
      Performed call reply s
  | kept : Performed .clear (.flag false) s
  | cleared (hclean : s.isFlagged lua p = false) :
      Performed .clear (.flag true) (s.cleared listDirtyEntry p)
  | popAll : Performed .popAll (.items (s.list p)) ((s.emptied p).flagged lua listDirtyEntry p)
  | popAllAndMark (sId sExpect msg : Bytes) :
      Performed (.popAllAndMark sId sExpect) (.items (s.list p))
        ((((s.emptied p).flagged lua listDirtyEntry p).withMark p sId sExpect).told p msg)
  | refused {call : ListCall} {sId sDest : Bytes} (hsets : call.sets = some (sId, sDest))
      (hnot : call.agrees (s.mark p sId) = false) : Performed call (.flag false) s
  | accepted {call : ListCall} {sId sDest : Bytes} (msg : Bytes)
      (hsets : call.sets = some (sId, sDest)) (hagrees : call.agrees (s.mark p sId) = true) :
      Performed call (.flag true) ((((s.withMark p sId sDest).withList p
        (call.pushed (s.list p))).flagged lua listDirtyEntry p).told p msg)
  | uncounted {call : ListCall} {sId : Bytes} {r : CASReply} (hcounts : call.counts = some sId)
      (hnot : r.isAccepted = false) : Performed call (.counter r) s
  | counted {call : ListCall} {sId : Bytes} (r : ℚ) (msg : Bytes) (hcounts : call.counts = some sId) :
      Performed call (.counter (.accepted r))
        (((s.withMark p sId (lua.tostring r)).flagged lua listDirtyEntry p).told p msg)

variable {lua listDirtyEntry p s}

theorem absent_bind (h : lua.RoundTrips) {r : Option Bytes} (habsent : absent r = true) :
    r.bind lua.tonumber = none := by
  cases r with
  | none => rfl
  | some r =>
    obtain rfl := List.isEmpty_iff.1 habsent
    exact h.empty

theorem run_reply {α : Type} (script : ListScript α) (f : α → ListReply) :
    StateT.run (m := Id) (do return f (← script)) s = (f (script.run s).1, (script.run s).2) := rfl

theorem Performed.setMark {call : ListCall} {sId sDest : Bytes} {push : ListScript Unit}
    (message : Bytes → Bytes) (hsets : call.sets = some (sId, sDest))
    (hpush : ∀ s, push.run s = ((), s.withList p (call.pushed (s.list p)))) {r : Bool × ListServer}
    (hrun : (CRedisListProxy.setMark lua p.sIdHashOfCAS p.sIdList listDirtyEntry p.sIdChanOfNotify
      sId sDest call.agrees push message).run s = r) :
    Performed lua listDirtyEntry p s call (.flag r.1) r.2 := by
  have hscript : (CRedisListProxy.setMark lua p.sIdHashOfCAS p.sIdList listDirtyEntry
      p.sIdChanOfNotify sId sDest call.agrees push message).run s =
      if call.agrees (s.mark p sId) then
        let t := ((s.withMark p sId sDest).withList p (call.pushed (s.list p))).flagged lua
          listDirtyEntry p
        (true, t.told p (message (lua.tostring (t.list p).length)))
      else (false, s) := by
    have hget : (CRedisListProxy.setMark lua p.sIdHashOfCAS p.sIdList listDirtyEntry
        p.sIdChanOfNotify sId sDest call.agrees push message).run s =
        StateT.run (if call.agrees (s.mark p sId) then do
          hset p.sIdHashOfCAS sId sDest
          push
          hset p.sIdHashOfCAS isDirty (lua.tostring 1)
          hset listDirtyEntry p.sIdList p.sIdHashOfCAS
          let m ← llen p.sIdList
          publish p.sIdChanOfNotify (message (lua.tostring m))
          return true
        else return false) s := rfl
    rw [hget]
    split
    · simp only [StateT.run_bind, hpush]
      rfl
    · rfl
  rw [hscript] at hrun
  subst hrun
  split
  · next hagrees => exact .accepted _ hsets hagrees
  · next hnot => exact .refused hsets (Bool.eq_false_iff.2 hnot)

theorem Performed.counting {call : ListCall} {sId argv₂ argv₃ : Bytes} {op : ℚ → ℚ → ℚ}
    {respects : ℚ → ℚ → Bool} (hcounts : call.counts = some sId) :
    Performed lua listDirtyEntry p s call
      (.counter ((CRedisListProxy.counting lua (byIntCAS lua op respects p.sIdHashOfCAS p.sIdList
        listDirtyEntry p.sIdChanOfNotify sId argv₂ argv₃)).run s).1)
      ((CRedisListProxy.counting lua (byIntCAS lua op respects p.sIdHashOfCAS p.sIdList
        listDirtyEntry p.sIdChanOfNotify sId argv₂ argv₃)).run s).2 := by
  have hmark : (s.hashes p.sIdHashOfCAS).lookup sId = s.mark p sId := rfl
  simp only [CRedisListProxy.counting, byIntCAS, StateT.run_bind, StateT.run_get, pure_bind, hmark]
  cases newValue lua op (s.mark p sId) argv₂ with
  | none => exact .uncounted hcounts rfl
  | some r =>
    cases lua.tonumber argv₃ with
    | none => exact .uncounted hcounts rfl
    | some bound =>
      dsimp only
      split
      · exact .counted r _ hcounts
      · exact .uncounted hcounts rfl

theorem ListCall.performed (h : lua.RoundTrips) (call : ListCall) : Performed lua listDirtyEntry p s call
    ((call.perform lua listDirtyEntry p).run s).1 ((call.perform lua listDirtyEntry p).run s).2 := by
  cases call with
  | lPushToList sValue => exact .lPushToList sValue
  | rPushToList sValue => exact .rPushToList sValue
  | clear =>
    rw [ListCall.perform, run_reply]
    have hscript : (CRedisListProxy.sClear lua p.sIdHashOfCAS p.sIdList listDirtyEntry).run s =
        StateT.run (if absent (s.mark p isDirty) || (s.mark p isDirty).bind lua.tonumber == some 0
          then do
            hdel listDirtyEntry p.sIdList
            del p.sIdList
            del p.sIdHashOfCAS
            return true
          else return false) s := rfl
    rw [hscript]
    split
    · next hclean =>
      refine .cleared ?_
      have hone : (s.mark p isDirty).bind lua.tonumber ≠ some 1 := by
        intro hone
        rcases Bool.or_eq_true_iff.1 hclean with habsent | hzero
        · rw [absent_bind h habsent] at hone
          cases hone
        · rw [eq_of_beq hzero] at hone
          exact zero_ne_one (Option.some.inj hone)
      exact beq_eq_false_iff_ne.2 hone
    · exact .kept
  | lPop => exact .lPop
  | rPop => exact .rPop
  | lLength => exact .looked _ rfl
  | getItemAt nIndex => exact .looked _ rfl
  | popAll => exact .popAll
  | popAllAndMark sId sExpect => exact .popAllAndMark sId sExpect _
  | lPushCAS sId sExpect sDest sValue =>
    rw [ListCall.perform, run_reply]
    exact .setMark _ rfl (fun _ => rfl) rfl
  | rPushCAS sId sExpect sDest sValue =>
    rw [ListCall.perform, run_reply]
    exact .setMark _ rfl (fun _ => rfl) rfl
  | testMark sId sExpect => exact .looked _ rfl
  | setCAS sId sExpect sDest =>
    rw [ListCall.perform, run_reply]
    exact .setMark _ rfl (fun s => (congrArg _ (withList_self p s)).symm) rfl
  | resetCAS sId sMustNotEqual sDest =>
    rw [ListCall.perform, run_reply]
    exact .setMark _ rfl (fun s => (congrArg _ (withList_self p s)).symm) rfl
  | incrByIntCAS sId nIncrement nUpperBound =>
    rw [ListCall.perform, run_reply]
    exact .counting rfl
  | decrByIntCAS sId nDecrement nLowerBound =>
    rw [ListCall.perform, run_reply]
    exact .counting rfl

end Performed

end KjRedis.Cache
