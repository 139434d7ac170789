import KjRedis.Cache.CacheProxy
import KjRedis.Lib.Transition
import KjRedis.Reply.Nesting
import Mathlib.Data.Rat.Cast.Order
import Mathlib.Tactic.NormNum
import Mathlib.Tactic.Linarith

/-! `CRedisListProxy`: its keys and its bounded counters, which clients change by scripts. -/
namespace KjRedis.Cache

open HashStore KjRedis.Conn KjRedis.Reply

structure CRedisListProxy where
  sModuleName : Bytes
  sMainId : Bytes
  sSubid : Bytes

namespace CRedisListProxy

/-- What the keys of a proxy and the channel of its list begin with. -/
def name (p : CRedisListProxy) : Bytes :=
  p.sModuleName ++ ascii ":" ++ p.sMainId ++ ascii ":" ++ p.sSubid

def sIdList (p : CRedisListProxy) : Bytes := p.name ++ ascii ":L"
def sIdHashOfCAS (p : CRedisListProxy) : Bytes := p.name ++ ascii ":CAS_H"
def sIdChanOfNotify (p : CRedisListProxy) : Bytes := p.name ++ ascii ":NTF_CHN"

end CRedisListProxy

/-- The service entry of a client: its index of dirty lists is no key of the proxy. -/
structure ServiceEntry (p : CRedisListProxy) where
  listDirtyEntry : Bytes
  ne_list : listDirtyEntry ≠ p.sIdList
  ne_hash : listDirtyEntry ≠ p.sIdHashOfCAS

/-- What Lua makes of strings and numbers; a string that is no number is `nil`. -/
structure Lua where
  tonumber : Bytes → Option ℚ
  tostring : ℚ → Bytes

/-- Whole numbers in decimal, and no others. -/
def wholeNumbers : Lua where
  tonumber
    | [] => none
    | c :: ds =>
      if c = minus then if ds.all isDigit && !ds.isEmpty then some (-natOf ds) else none
      else if (c :: ds).all isDigit then some (natOf (c :: ds)) else none
  tostring r := decimalInt r.num

/-- Whole numbers go to strings and come back. -/
structure Lua.RoundTrips (lua : Lua) : Prop where
  argument : ∀ n : ℤ, lua.tonumber (decimalInt n) = some (n : ℚ)
  stored : ∀ n : ℤ, lua.tonumber (lua.tostring n) = some (n : ℚ)
  empty : lua.tonumber [] = none

theorem wholeNumbers_roundTrips : wholeNumbers.RoundTrips := by
  have hread : ∀ n : ℤ, wholeNumbers.tonumber (decimalInt n) = some (n : ℚ) := by
    intro n
    obtain ⟨ds, heq, hne, hall, hnat⟩ := decimalAux_spec (Nat.lt_succ_self n.natAbs) []
    have hdecimal : decimal n.natAbs = ds := by rw [decimal, heq, List.append_nil]
    have hdigits : ds.all isDigit = true := List.all_eq_true.2 hall
    rw [decimalInt, hdecimal]
    cases ds with
    | nil => exact absurd rfl hne
    | cons c ds =>
      have hval : ((natOf (c :: ds) : ℤ) : ℚ) = (n.natAbs : ℤ) := by rw [hnat]
      split
      · next hneg =>
        rw [Int.ofNat_natAbs_of_nonpos hneg.le, Int.cast_neg] at hval
        simp only [wholeNumbers, if_true, hdigits, Bool.true_and, List.isEmpty_cons, Bool.not_false]
        rw [← neg_neg (n : ℚ), ← hval]
        rfl
      · next hpos =>
        rw [Int.natAbs_of_nonneg (not_lt.1 hpos)] at hval
        have hc : c ≠ minus := by
          rintro rfl
          exact absurd (hall minus List.mem_cons_self) (by decide)
        simp only [wholeNumbers, if_neg hc, hdigits, if_true]
        rw [← hval]
        rfl
  exact ⟨hread, fun n => (congrArg (fun n => wholeNumbers.tonumber (decimalInt n))
    (Rat.num_intCast n)).trans (hread n), rfl⟩

/-- `published` has the channels and messages of `PUBLISH`, the last one first. -/
structure Server where
  hashes : Store Bytes
  lists : Bytes → List Bytes
  published : List (Bytes × Nat)

inductive CASReply
  | error
  | refused
  | accepted (r : ℚ)

def CASReply.isAccepted : CASReply → Bool
  | .accepted _ => true
  | _ => false

def isDirty : Bytes := ascii "is_dirty"

/-- `type(r)=='boolean' and not r or nil==r or ''==r`. -/
def absent : Option Bytes → Bool
  | none => true
  | some r => r.isEmpty

section Scripts

variable (lua : Lua)

/-- The line that follows `HGET`: the delta is taken as it is where `r` is absent, by both
scripts. -/
def newValue (op : ℚ → ℚ → ℚ) (r : Option Bytes) (argv₂ : Bytes) : Option ℚ :=
  if absent r then lua.tonumber argv₂
  else do return op (← lua.tonumber (r.getD [])) (← lua.tonumber argv₂)

/-- The script of `IncrByIntCAS` and of `DecrByIntCAS`. -/
def byIntCAS (op : ℚ → ℚ → ℚ) (respects : ℚ → ℚ → Bool)
    (key₁ key₂ key₃ key₄ argv₁ argv₂ argv₃ : Bytes) (s : Server) : CASReply × Server :=
  match newValue lua op ((s.hashes key₁).lookup argv₁) argv₂, lua.tonumber argv₃ with
  | some r, some bound =>
    if respects r bound then
      let hashes := ((s.hashes.set key₁ argv₁ (lua.tostring r)).set key₁ isDirty
        (lua.tostring 1)).set key₃ key₂ key₁
      let m := (s.lists key₂).length
      (.accepted r, { s with hashes, published := (key₄, m) :: s.published })
    else (.refused, s)
  -- arithmetic on `nil`, or a comparison with it
  | _, _ => (.error, s)

def sIncrByIntCAS : Bytes → Bytes → Bytes → Bytes → Bytes → Bytes → Bytes → Server →
    CASReply × Server :=
  byIntCAS lua (· + ·) (· ≤ ·)

def sDecrByIntCAS : Bytes → Bytes → Bytes → Bytes → Bytes → Bytes → Bytes → Server →
    CASReply × Server :=
  byIntCAS lua (· - ·) (· ≥ ·)

variable {p : CRedisListProxy} (entry : ServiceEntry p)

def incrByIntCAS (sId : Bytes) (nIncrement nUpperBound : ℤ) : Server → CASReply × Server :=
  sIncrByIntCAS lua p.sIdHashOfCAS p.sIdList entry.listDirtyEntry p.sIdChanOfNotify sId
    (decimalInt nIncrement) (decimalInt nUpperBound)

def decrByIntCAS (sId : Bytes) (nDecrement nLowerBound : ℤ) : Server → CASReply × Server :=
  sDecrByIntCAS lua p.sIdHashOfCAS p.sIdList entry.listDirtyEntry p.sIdChanOfNotify sId
    (decimalInt nDecrement) (decimalInt nLowerBound)

end Scripts

inductive CounterOp
  | incr
  | decr
  deriving DecidableEq

/-- A call of any client with the list. -/
structure CounterCall (p : CRedisListProxy) where
  entry : ServiceEntry p
  op : CounterOp
  sId : Bytes
  delta : ℤ
  bound : ℤ

namespace CounterCall

variable {p : CRedisListProxy} (call : CounterCall p)

def perform (lua : Lua) : Server → CASReply × Server :=
  match call.op with
  | .incr => incrByIntCAS lua call.entry call.sId call.delta call.bound
  | .decr => decrByIntCAS lua call.entry call.sId call.delta call.bound

/-- What the call asks to add to the counter `c`. -/
def change (c : Bytes) : ℤ :=
  if call.sId = c then
    match call.op with
    | .incr => call.delta
    | .decr => -call.delta
  else 0

/-- The bound of the call admits the value. -/
def Respects (n : ℤ) : Prop :=
  match call.op with
  | .incr => n ≤ call.bound
  | .decr => call.bound ≤ n

/-- What the script computes from the stored value. -/
def newValue (lua : Lua) (r : Option Bytes) : Option ℚ :=
  match call.op with
  | .incr => Cache.newValue lua (· + ·) r (decimalInt call.delta)
  | .decr => Cache.newValue lua (· - ·) r (decimalInt call.delta)

/-- The bound as the script checks it. -/
def respects (r : ℚ) : Bool :=
  match call.op with
  | .incr => r ≤ call.bound
  | .decr => r ≥ call.bound

end CounterCall

/-- `log` has the calls with their replies, the last one first. -/
structure CounterState (p : CRedisListProxy) where
  server : Server
  log : List (CounterCall p × CASReply)

section System

variable (lua : Lua) {p : CRedisListProxy} (c : Bytes)

def counters (p : CRedisListProxy) : Transition.System (CounterState p) (CounterCall p) where
  next s call :=
    let answer := call.perform lua s.server
    some { server := answer.2, log := (call, answer.1) :: s.log }

/-- What the hash has under a counter's id. -/
def Server.stored (p : CRedisListProxy) (s : Server) : Option Bytes :=
  (s.hashes p.sIdHashOfCAS).lookup c

/-- The value of a counter; an absent one counts 0. -/
def Server.counter (p : CRedisListProxy) (s : Server) : Option ℚ :=
  if absent (s.stored c p) then some 0 else lua.tonumber ((s.stored c p).getD [])

/-- The accepted increments less the accepted decrements. -/
def total : List (CounterCall p × CASReply) → ℤ
  | [] => 0
  | (call, reply) :: past => total past + if reply.isAccepted then call.change c else 0

/-- Every call on the counter was accepted exactly when the new value respects its bound. -/
def Judged : List (CounterCall p × CASReply) → Prop
  | [] => True
  | (call, reply) :: past =>
    (call.sId = c → (reply.isAccepted = true ↔ call.Respects (total c past + call.change c))) ∧
      Judged past

structure AddsUp (s : CounterState p) : Prop where
  sum : s.server.counter lua c p = some (total c s.log : ℚ)
  judged : Judged c s.log

/-- A decrement that meets the counter absent is by 0, or refused at either sign. The field
of the counter is not the script's own `is_dirty`, unless what is written there is right. -/
structure CountsFromZero (s : CounterState p) (call : CounterCall p) : Prop where
  decr : call.sId = c → call.op = .decr → absent (s.server.stored c p) →
    (call.bound ≤ call.delta ↔ call.bound ≤ -call.delta) ∧
      (c ≠ isDirty → call.bound ≤ call.delta → call.delta = 0)
  dirty : c = isDirty → ∀ r, call.newValue lua (s.server.stored call.sId p) = some r →
    call.respects r → total c s.log + call.change c = 1

end System

section Proof

variable {lua : Lua} {p : CRedisListProxy} {c : Bytes} {s : CounterState p} {call : CounterCall p}
  {server : Server} {r : ℚ} {n : ℤ}

/-- What an accepted call leaves. -/
def written (lua : Lua) (call : CounterCall p) (r : ℚ) (s : Server) : Server :=
  { s with
    hashes := ((s.hashes.set p.sIdHashOfCAS call.sId (lua.tostring r)).set p.sIdHashOfCAS isDirty
      (lua.tostring 1)).set call.entry.listDirtyEntry p.sIdList p.sIdHashOfCAS
    published := (p.sIdChanOfNotify, (s.lists p.sIdList).length) :: s.published }

theorem stored_written : (written lua call r server).stored c p =
    if c = isDirty then some (lua.tostring 1)
    else if c = call.sId then some (lua.tostring r) else server.stored c p := by
  simp only [Server.stored, written, lookup_set, Ne.symm call.entry.ne_hash, false_and, if_false,
    true_and]

theorem perform_eq (h : lua.RoundTrips) : call.perform lua server =
    match call.newValue lua (server.stored call.sId p) with
    | some r =>
      if call.respects r then (.accepted r, written lua call r server) else (.refused, server)
    | none => (.error, server) := by
  have hscript : ∀ op respects, byIntCAS lua op respects p.sIdHashOfCAS p.sIdList
      call.entry.listDirtyEntry p.sIdChanOfNotify call.sId (decimalInt call.delta)
      (decimalInt call.bound) server =
        match newValue lua op (server.stored call.sId p) (decimalInt call.delta) with
        | some r =>
          if respects r call.bound then (.accepted r, written lua call r server)
          else (.refused, server)
        | none => (.error, server) := by
    intro op respects
    rw [byIntCAS, h.argument call.bound, Server.stored]
    cases newValue lua op _ (decimalInt call.delta) with
    | none => rfl
    | some r => rfl
  obtain ⟨entry, op, sId, delta, bound⟩ := call
  cases op with
  | incr => exact hscript (· + ·) (· ≤ ·)
  | decr => exact hscript (· - ·) (· ≥ ·)

theorem absent_tostring (h : lua.RoundTrips) : absent (some (lua.tostring n)) = false := by
  have hsome := h.stored n
  cases hs : lua.tostring n with
  | nil =>
    rw [hs, h.empty] at hsome
    cases hsome
  | cons => rfl

theorem newValue_absent (h : lua.RoundTrips) {stored : Option Bytes} (hr : absent stored) :
    call.newValue lua stored = some (call.delta : ℚ) := by
  obtain ⟨entry, op, sId, delta, bound⟩ := call
  cases op with
  | incr => exact (if_pos hr).trans (h.argument delta)
  | decr => exact (if_pos hr).trans (h.argument delta)

theorem newValue_stored (h : lua.RoundTrips) :
    call.newValue lua (some (lua.tostring n)) = some ((n + call.change call.sId : ℤ) : ℚ) := by
  have hnot : ¬ absent (some (lua.tostring n)) = true := by rw [absent_tostring h]; simp
  obtain ⟨entry, op, sId, delta, bound⟩ := call
  cases op with
  | incr =>
    simp only [CounterCall.newValue, newValue, if_neg hnot, Option.getD_some, h.stored, h.argument]
    simp [CounterCall.change]
  | decr =>
    simp only [CounterCall.newValue, newValue, if_neg hnot, Option.getD_some, h.stored, h.argument]
    simp [CounterCall.change, sub_eq_add_neg]

theorem respects_cast : call.respects (n : ℚ) = true ↔ call.Respects n := by
  obtain ⟨entry, op, sId, delta, bound⟩ := call
  cases op with
  | incr => simp [CounterCall.respects, CounterCall.Respects]
  | decr => simp [CounterCall.respects, CounterCall.Respects]

theorem change_of_ne (h : call.sId ≠ c) : call.change c = 0 := if_neg h

theorem counter_absent (h : absent (server.stored c p)) : server.counter lua c p = some 0 := if_pos h

theorem counter_tostring (h : lua.RoundTrips) (hs : server.stored c p = some (lua.tostring n)) :
    server.counter lua c p = some (n : ℚ) := by
  rw [Server.counter, hs, if_neg (by rw [absent_tostring h]; simp), Option.getD_some, h.stored]

/-- The invariant: the counter is still absent, or it is the total as a string. -/
structure Kept (lua : Lua) (c : Bytes) (s : CounterState p) : Prop where
  stored : s.server.stored c p = none ∧ total c s.log = 0 ∨
    s.server.stored c p = some (lua.tostring (total c s.log))
  judged : Judged c s.log

theorem Kept.addsUp (h : lua.RoundTrips) (hkept : Kept lua c s) : AddsUp lua c s := by
  refine ⟨?_, hkept.judged⟩
  rcases hkept.stored with ⟨hnone, hzero⟩ | hsome
  · rw [counter_absent (by rw [hnone]; rfl), hzero, Int.cast_zero]
  · exact counter_tostring h hsome

theorem Kept.total_of_absent (h : lua.RoundTrips) (hkept : Kept lua c s)
    (habsent : absent (s.server.stored c p)) : total c s.log = 0 := by
  rcases hkept.stored with ⟨-, hzero⟩ | hsome
  · exact hzero
  · rw [hsome, absent_tostring h] at habsent
    cases habsent

/-- The script computes the new value, but for a decrement that meets the counter absent. -/
theorem Kept.newValue (h : lua.RoundTrips) (hkept : Kept lua c s) (hid : call.sId = c) :
    call.newValue lua (s.server.stored c p) = some ((total c s.log + call.change c : ℤ) : ℚ) ∨
      call.op = .decr ∧ absent (s.server.stored c p) = true := by
  rcases hkept.stored with ⟨hnone, hzero⟩ | hsome
  · have habsent : absent (s.server.stored c p) = true := by rw [hnone]; rfl
    cases hop : call.op with
    | decr => exact .inr ⟨rfl, habsent⟩
    | incr =>
      refine .inl ?_
      rw [newValue_absent h habsent, hzero, zero_add, CounterCall.change, if_pos hid, hop]
  · refine .inl ?_
    rw [hsome, newValue_stored h, hid]

variable {reply : CASReply} {server' : Server}

/-- What a call replies and what it leaves of the counter. -/
theorem perform_cases (h : lua.RoundTrips) (hperform : call.perform lua server = (reply, server')) :
    (∃ r, call.newValue lua (server.stored call.sId p) = some r ∧ call.respects r = true ∧
      reply.isAccepted = true ∧ server' = written lua call r server) ∨
    (∀ r, call.newValue lua (server.stored call.sId p) = some r → call.respects r = false) ∧
      reply.isAccepted = false ∧ server' = server := by
  rw [perform_eq h] at hperform
  cases hr : call.newValue lua (server.stored call.sId p) with
  | none =>
    rw [hr] at hperform
    obtain ⟨rfl, rfl⟩ := Prod.mk.inj hperform
    refine .inr ⟨?_, rfl, rfl⟩
    intro r hr
    cases hr
  | some r =>
    simp only [hr] at hperform
    split at hperform
    · next hok =>
      obtain ⟨rfl, rfl⟩ := Prod.mk.inj hperform
      exact .inl ⟨r, rfl, hok, rfl, rfl⟩
    · next hok =>
      obtain ⟨rfl, rfl⟩ := Prod.mk.inj hperform
      refine .inr ⟨fun r' hr' => ?_, rfl, rfl⟩
      obtain rfl := Option.some.inj hr'
      exact Bool.eq_false_iff.2 hok

/-- A step that counts from zero keeps the invariant. -/
theorem Kept.next (h : lua.RoundTrips) (hkept : Kept lua c s) (hzero : CountsFromZero lua c s call)
    (hperform : call.perform lua s.server = (reply, server')) :
    Kept lua c { server := server', log := (call, reply) :: s.log } := by
  by_cases hid : call.sId = c
  · -- the value the script computes is taken as the new value would be
    obtain ⟨m, hm, hrespects, hexact⟩ : ∃ m : ℤ,
        call.newValue lua (s.server.stored c p) = some (m : ℚ) ∧
        (call.Respects m ↔ call.Respects (total c s.log + call.change c)) ∧
        (c ≠ isDirty → call.Respects m → m = total c s.log + call.change c) := by
      rcases hkept.newValue h hid with hnew | ⟨hop, habsent⟩
      · exact ⟨_, hnew, Iff.rfl, fun _ _ => rfl⟩
      · obtain ⟨hiff, hdelta⟩ := hzero.decr hid hop habsent
        have hchange : total c s.log + call.change c = -call.delta := by
          rw [hkept.total_of_absent h habsent, zero_add, CounterCall.change, if_pos hid, hop]
        have hres : ∀ n, call.Respects n ↔ call.bound ≤ n := by
          intro n
          rw [CounterCall.Respects, hop]
        refine ⟨call.delta, newValue_absent h habsent, ?_, fun hne hok => ?_⟩
        · rw [hres, hres, hchange, hiff]
        · rw [hchange, hdelta hne ((hres _).1 hok), neg_zero]
    subst hid
    rcases perform_cases h hperform with ⟨r, hr, hok, hacc, rfl⟩ | ⟨hrefused, hacc, rfl⟩
    · obtain rfl := Option.some.inj (hm.symm.trans hr)
      have hokm := respects_cast.1 hok
      refine ⟨.inr ?_, fun _ => ⟨fun _ => hrespects.1 hokm, fun _ => hacc⟩, hkept.judged⟩
      show (written lua call _ s.server).stored call.sId p = _
      rw [stored_written, if_pos rfl, total, hacc, if_pos rfl]
      split
      · next hd => rw [hzero.dirty hd _ hr hok, Int.cast_one]
      · next hd => rw [hexact hd hokm]
    · have hno : ¬ call.Respects m := by
        rw [← respects_cast, hrefused _ hm]
        simp
      have hiff : reply.isAccepted = true ↔
          call.Respects (total call.sId s.log + call.change call.sId) := by
        rw [hacc, ← hrespects, iff_false_right hno]
        exact Bool.false_ne_true
      refine ⟨?_, fun _ => hiff, hkept.judged⟩
      simpa [total, hacc] using hkept.stored
  · have hsame : ∀ reply, total c ((call, reply) :: s.log) = total c s.log := by
      intro reply
      rw [total, change_of_ne hid, ite_self, add_zero]
    refine ⟨?_, fun heq => absurd heq hid, hkept.judged⟩
    rcases perform_cases h hperform with ⟨r, hr, hok, hacc, rfl⟩ | ⟨-, -, rfl⟩
    · simp only [stored_written, hsame, if_neg (Ne.symm hid)]
      split
      · next hd =>
        have hone := hzero.dirty hd r hr hok
        rw [change_of_ne hid, add_zero] at hone
        rw [hone, Int.cast_one]
        exact .inr rfl
      · exact hkept.stored
    · rw [hsame]
      exact hkept.stored

/-- Where the sums are right after a step, it counted from zero. -/
theorem Kept.of_next (h : lua.RoundTrips) (hkept : Kept lua c s)
    (hperform : call.perform lua s.server = (reply, server'))
    (hsums : AddsUp lua c { server := server', log := (call, reply) :: s.log }) :
    CountsFromZero lua c s call := by
  constructor
  · intro hid hop habsent
    have htotal := hkept.total_of_absent h habsent
    have hchange : call.change c = -call.delta := by rw [CounterCall.change, if_pos hid, hop]
    have hres : ∀ n, call.Respects n ↔ call.bound ≤ n := by
      intro n
      rw [CounterCall.Respects, hop]
    have hnew := @newValue_absent _ _ call h _ habsent
    have hjudged := hsums.judged.1 hid
    rw [htotal, zero_add, hchange, hres] at hjudged
    subst hid
    rcases perform_cases h hperform with ⟨r, hr, hok, hacc, rfl⟩ | ⟨hrefused, hacc, rfl⟩
    · obtain rfl := Option.some.inj (hnew.symm.trans hr)
      have hle := (hres _).1 (respects_cast.1 hok)
      refine ⟨⟨fun _ => hjudged.1 hacc, fun _ => hle⟩, fun hne _ => ?_⟩
      have hstored : (written lua call (call.delta : ℚ) s.server).stored call.sId p =
          some (lua.tostring call.delta) := by
        rw [stored_written, if_neg hne, if_pos rfl]
      have hsum := hsums.sum
      rw [counter_tostring h hstored, total, htotal, hacc, if_pos rfl, zero_add, hchange] at hsum
      have heq : call.delta = -call.delta := Int.cast_injective (Option.some.inj hsum)
      omega
    · have hno : ¬ call.bound ≤ call.delta := by
        rw [← hres, ← respects_cast, hrefused _ hnew]
        simp
      refine ⟨⟨fun hle => absurd hle hno, fun hle => ?_⟩, fun _ hle => absurd hle hno⟩
      have hyes := hjudged.2 hle
      rw [hacc] at hyes
      cases hyes
  · rintro rfl r hr hok
    rcases perform_cases h hperform with ⟨r', hr', hok', hacc, rfl⟩ | ⟨hrefused, -, -⟩
    · have hstored : (written lua call r' s.server).stored isDirty p =
          some (lua.tostring (1 : ℤ)) := by
        rw [stored_written, if_pos rfl, Int.cast_one]
      have hsum := hsums.sum
      rw [counter_tostring h hstored, total, hacc, if_pos rfl] at hsum
      exact (Int.cast_injective (Option.some.inj hsum)).symm
    · rw [hrefused r hr] at hok
      cases hok

/-- In every run of calls on a list, a counter that starts absent adds up if and only if
every step counts from zero. -/
theorem addsUp_iff_countsFromZero (h : lua.RoundTrips) {start : Server}
    {calls : List (CounterCall p)} {s' : CounterState p}
    (hstart : start.stored c p = none)
    (hrun : (counters lua p).run { server := start, log := [] } calls = some s') :
    (counters lua p).Always (AddsUp lua c) { server := start, log := [] } calls ↔
      (counters lua p).Meets (CountsFromZero lua c) { server := start, log := [] } calls := by
  refine @Transition.System.always_iff_meets _ _ _ _ _ _ _ (Kept lua c) _
    (fun s hkept => hkept.addsUp h) ?_ ?_ ⟨.inl ⟨hstart, rfl⟩, trivial⟩ hrun
  · intro s call t hkept hzero hnext
    obtain rfl := Option.some.inj hnext
    exact hkept.next h hzero rfl
  · intro s call t hkept hzero hnext hsums
    obtain rfl := Option.some.inj hnext
    exact hzero (hkept.of_next h rfl hsums)

/-- An increment, a decrement, and an increment past its bound. -/
theorem addsUp_iff_countsFromZero_three :
    let p : CRedisListProxy := ⟨ascii "M", ascii "list", ascii "A"⟩
    let entry : ServiceEntry p := ⟨ascii "DIRTY", by decide, by decide⟩
    let start : Server := { hashes := fun _ => ∅, lists := fun _ => [], published := [] }
    let calls : List (CounterCall p) :=
      [⟨entry, .incr, ascii "n", 5, 10⟩, ⟨entry, .decr, ascii "n", 3, 0⟩,
        ⟨entry, .incr, ascii "n", 100, 10⟩]
    (counters wholeNumbers p).Always (AddsUp wholeNumbers (ascii "n"))
      { server := start, log := [] } calls := by
  intro p entry start calls
  refine (addsUp_iff_countsFromZero wholeNumbers_roundTrips rfl rfl).2 ?_
  have hid : ascii "n" ≠ isDirty := by decide
  have hincr : ∀ s : CounterState p, ∀ delta bound,
      CountsFromZero wholeNumbers (ascii "n") s ⟨entry, .incr, ascii "n", delta, bound⟩ :=
    fun _ _ _ => ⟨fun _ hop => CounterOp.noConfusion hop, fun h => absurd h hid⟩
  refine Transition.System.meets_cons rfl (hincr _ 5 10) <| Transition.System.meets_cons rfl ?_ <|
    Transition.System.meets_cons rfl (hincr _ 100 10) trivial
  refine ⟨fun _ _ habsent => ?_, fun h => absurd h hid⟩
  revert habsent
  decide

/-- The first decrement of a counter stores its delta, and is accepted with it. -/
theorem not_addsUp_decr :
    let p : CRedisListProxy := ⟨ascii "M", ascii "list", ascii "A"⟩
    let entry : ServiceEntry p := ⟨ascii "DIRTY", by decide, by decide⟩
    let start : Server := { hashes := fun _ => ∅, lists := fun _ => [], published := [] }
    ∃ s', (counters wholeNumbers p).run { server := start, log := [] }
        [⟨entry, .decr, ascii "n", 5, 0⟩] = some s' ∧
      s'.server.counter wholeNumbers (ascii "n") p = some 5 ∧
      ¬ AddsUp wholeNumbers (ascii "n") s' := by
  intro p entry start
  refine ⟨_, rfl, ?_, fun hsums => ?_⟩
  · decide
  · have hzero : CountsFromZero wholeNumbers (ascii "n")
        { server := start, log := [] } ⟨entry, .decr, ascii "n", 5, 0⟩ :=
      Kept.of_next wholeNumbers_roundTrips ⟨.inl ⟨rfl, rfl⟩, trivial⟩ rfl hsums
    have hiff := (hzero.decr rfl rfl rfl).1
    norm_num at hiff

end Proof

end KjRedis.Cache
