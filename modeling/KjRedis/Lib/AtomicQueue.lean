import KjRedis.Lib.History
import Mathlib.Data.List.Infix

/-! A queue between one producer and one consumer whose calls take effect at one moment
between their start and their return, and what the two can tell from their calls. -/
namespace AtomicQueue

variable {T : Type*}

/-- The calls and what they return. `dequeued none` is a call that found no element. -/
inductive Label (T : Type*)
  | enqueue (x : T)
  | enqueued (ok : Bool)
  | dequeue
  | dequeued (r : Option T)

inductive Producer (T : Type*)
  | idle
  /-- `since` elements had left when the call started. -/
  | calling (x : T) (since : Nat)
  | returning (ok : Bool)

inductive Consumer (T : Type*)
  | idle
  /-- Whether the queue has been seen empty in this call. -/
  | calling (seenEmpty : Bool)
  | returning (r : Option T)

/-- All elements that have been put in, of which the first `left` have been taken out. -/
structure State (T : Type*) where
  entered : List T
  left : Nat
  producer : Producer T
  consumer : Consumer T

def State.items (s : State T) : List T := s.entered.drop s.left

inductive Event (T : Type*)
  | enqueue (x : T)
  | enter
  | refuse
  | enqueued
  | dequeue
  | look
  | leave
  | miss
  | dequeued

def State.next (s : State T) : Event T → Option (List (Label T) × State T)
  | .enqueue x =>
    match s.producer with
    | .idle => some ([.enqueue x], { s with producer := .calling x s.left })
    | _ => none
  | .enter =>
    match s.producer with
    | .calling x _ => some ([], { s with entered := s.entered ++ [x], producer := .returning true })
    | _ => none
  | .refuse =>
    match s.producer with
    | .calling _ _ => some ([], { s with producer := .returning false })
    | _ => none
  | .enqueued =>
    match s.producer with
    | .returning ok => some ([.enqueued ok], { s with producer := .idle })
    | _ => none
  | .dequeue =>
    match s.consumer with
    | .idle => some ([.dequeue], { s with consumer := .calling false })
    | _ => none
  | .look =>
    match s.consumer with
    | .calling _ =>
      if s.entered.length ≤ s.left then some ([], { s with consumer := .calling true }) else none
    | _ => none
  | .leave =>
    match s.consumer, s.entered[s.left]? with
    | .calling _, some x =>
      some ([], { s with left := s.left + 1, consumer := .returning (some x) })
    | _, _ => none
  | .miss =>
    match s.consumer with
    | .calling true => some ([], { s with consumer := .returning none })
    | _ => none
  | .dequeued =>
    match s.consumer with
    | .returning r => some ([.dequeued r], { s with consumer := .idle })
    | _ => none

def system (T : Type*) : History.System (State T) (Event T) (Label T) where
  next := State.next

def empty (T : Type*) : State T := { entered := [], left := 0, producer := .idle, consumer := .idle }

/-- The producer's call has returned, and its element is in the queue if it returned true. -/
def State.returned (s : State T) (x : T) (ok : Bool) : State T :=
  { s with entered := if ok then s.entered ++ [x] else s.entered, producer := .idle }

theorem runs_returned {s : State T} {x : T} {since : Nat} (h : s.producer = .calling x since)
    (ok : Bool) : (system T).Runs s [.enqueued ok] (s.returned x ok) := by
  cases ok with
  | true =>
    have henter : (system T).next s .enter =
        some ([], { s with entered := s.entered ++ [x], producer := .returning true }) := by
      simp only [system, State.next, h]
    exact (History.System.Runs.one henter).step (e := .enqueued) rfl
  | false =>
    have hrefuse : (system T).next s .refuse = some ([], { s with producer := .returning false }) := by
      simp only [system, State.next, h]
    exact (History.System.Runs.one hrefuse).step (e := .enqueued) rfl

theorem runs_look {s : State T} {seen : Bool} (h : s.consumer = .calling seen) (hempty : s.items = []) :
    (system T).Runs s [] { s with consumer := .calling true } := by
  refine .one (e := .look) ?_
  simp only [system, State.next, h]
  rw [if_pos (List.drop_eq_nil_iff.1 hempty)]

/-- The consumer's call has returned, with the first element or with none. -/
def State.served (s : State T) (r : Option T) : State T :=
  { s with left := s.left + r.toList.length, consumer := .idle }

theorem items_served {s : State T} {x : T} {xs : List T} (h : s.items = x :: xs) :
    (s.served (some x)).items = xs := by
  show s.entered.drop (s.left + 1) = xs
  rw [← List.drop_drop, show s.entered.drop s.left = x :: xs from h]
  rfl

theorem runs_served {s : State T} {seen : Bool} {x : T} {xs : List T}
    (h : s.consumer = .calling seen) (hitems : s.items = x :: xs) :
    (system T).Runs s [.dequeued (some x)] (s.served (some x)) := by
  have hget : s.entered[s.left]? = some x := by
    have hdrop : (s.entered.drop s.left)[0]? = s.entered[s.left + 0]? := List.getElem?_drop
    rw [Nat.add_zero] at hdrop
    rw [← hdrop, show s.entered.drop s.left = x :: xs from hitems]
    rfl
  have hleave : (system T).next s .leave =
      some ([], { s with left := s.left + 1, consumer := .returning (some x) }) := by
    simp only [system, State.next, h, hget]
  exact (History.System.Runs.one hleave).step (e := .dequeued) rfl

theorem runs_missed {s : State T} (h : s.consumer = .calling true) :
    (system T).Runs s [.dequeued none] (s.served none) := by
  have hmiss : (system T).next s .miss = some ([], { s with consumer := .returning none }) := by
    simp only [system, State.next, h]
  exact (History.System.Runs.one hmiss).step (e := .dequeued) rfl

/-- `accepted` are the elements whose calls have returned true, `pending` the one of a call
that has not returned, `taken` what the consumer has been given. `acceptedBefore` is what had been
accepted when the consumer's last call started, `takenBefore` how many had been taken when the
producer's last call did; `missed` says that the consumer's last call has found nothing. -/
structure Ledger (T : Type*) where
  accepted : List T
  pending : Option T
  taken : List T
  acceptedBefore : List T
  takenBefore : Nat
  missed : Bool

def Ledger.note (l : Ledger T) : Label T → Ledger T
  | .enqueue x => { l with pending := some x, takenBefore := l.taken.length }
  | .enqueued ok =>
    { l with accepted := if ok then l.accepted ++ l.pending.toList else l.accepted, pending := none }
  | .dequeue => { l with acceptedBefore := l.accepted, missed := false }
  | .dequeued r => { l with taken := l.taken ++ r.toList, missed := r.isNone }

def ledger (h : List (Label T)) : Ledger T :=
  h.foldl Ledger.note
    { accepted := [], pending := none, taken := [], acceptedBefore := [], takenBefore := 0
      missed := false }

@[simp] theorem ledger_append_nil (h : List (Label T)) : ledger (h ++ []) = ledger h := by
  rw [List.append_nil]

@[simp] theorem ledger_concat (h : List (Label T)) (l : Label T) :
    ledger (h ++ [l]) = (ledger h).note l := List.foldl_concat _ _ _ _

/-- The producer's calls as the ledger has them. -/
def ProducerKnows (l : Ledger T) (s : State T) : Producer T → Prop
  | .idle => l.pending = none ∧ s.entered = l.accepted
  | .calling x since => l.pending = some x ∧ s.entered = l.accepted ∧ l.takenBefore ≤ since
  | .returning ok => s.entered = if ok then l.accepted ++ l.pending.toList else l.accepted

def ConsumerKnows (l : Ledger T) (s : State T) : Consumer T → Prop
  | .idle => l.taken = s.entered.take s.left ∧
      (l.missed = true → l.acceptedBefore.length ≤ s.left)
  | .calling seenEmpty => l.taken = s.entered.take s.left ∧ l.missed = false ∧
      (seenEmpty = true → l.acceptedBefore.length ≤ s.left)
  | .returning r => l.taken ++ r.toList = s.entered.take s.left ∧ l.missed = false ∧
      (r = none → l.acceptedBefore.length ≤ s.left)

structure Known (l : Ledger T) (s : State T) : Prop where
  left_le : s.left ≤ s.entered.length
  before : l.acceptedBefore <+: s.entered
  accepted : l.accepted <+: s.entered
  takenBefore_le : l.taken.length ≤ s.left
  producer : ProducerKnows l s s.producer
  consumer : ConsumerKnows l s s.consumer

theorem known_empty : Known (ledger []) (empty T) where
  left_le := Nat.le_refl 0
  before := List.prefix_refl []
  accepted := List.prefix_refl []
  takenBefore_le := Nat.le_refl 0
  producer := ⟨rfl, rfl⟩
  consumer := ⟨rfl, fun _ => Nat.le_refl 0⟩

variable {h : List (Label T)} {l : Ledger T} {s s' : State T} {x : T} {since : Nat} {ok seen : Bool}
  {r : Option T}

theorem Known.enqueue (hk : Known l s) (hidle : s.producer = .idle) (x : T) :
    Known (l.note (.enqueue x)) { s with producer := .calling x s.left } := by
  have hp := hk.producer
  rw [hidle] at hp
  exact { hk with producer := ⟨rfl, hp.2, hk.takenBefore_le⟩ }

/-- What the consumer knows stays so when the queue grows. -/
theorem ConsumerKnows.grow {c : Consumer T} (hc : ConsumerKnows l s c) (hle : s.left ≤ s.entered.length)
    (x : T) (p : Producer T) :
    ConsumerKnows l { s with entered := s.entered ++ [x], producer := p } c := by
  have htake : (s.entered ++ [x]).take s.left = s.entered.take s.left :=
    List.take_append_of_le_length hle
  cases c with
  | idle => exact ⟨hc.1.trans htake.symm, hc.2⟩
  | calling seen => exact ⟨hc.1.trans htake.symm, hc.2⟩
  | returning r => exact ⟨hc.1.trans htake.symm, hc.2⟩

theorem Known.enter (hk : Known l s) (hcall : s.producer = .calling x since) :
    Known l { s with entered := s.entered ++ [x], producer := .returning true } := by
  have hp := hk.producer
  rw [hcall] at hp
  exact
    { left_le := by
        rw [List.length_append]
        exact Nat.le_add_right_of_le hk.left_le
      before := hk.before.trans (List.prefix_append _ _)
      accepted := hk.accepted.trans (List.prefix_append _ _)
      takenBefore_le := hk.takenBefore_le
      producer := by
        show s.entered ++ [x] = l.accepted ++ l.pending.toList
        rw [hp.1, hp.2.1]
        rfl
      consumer := hk.consumer.grow hk.left_le x _ }

theorem Known.enqueued (hk : Known l s) (hret : s.producer = .returning ok) :
    Known (l.note (.enqueued ok)) { s with producer := .idle } := by
  have hp := hk.producer
  rw [hret] at hp
  exact
    { hk with
      accepted := by
        show (if ok then l.accepted ++ l.pending.toList else l.accepted) <+: s.entered
        exact hp ▸ List.prefix_rfl
      producer := ⟨rfl, hp⟩ }

theorem Known.dequeue (hk : Known l s) (hidle : s.consumer = .idle) :
    Known (l.note .dequeue) { s with consumer := .calling false } := by
  have hc := hk.consumer
  rw [hidle] at hc
  exact
    { hk with
      before := hk.accepted
      consumer := ⟨hc.1, rfl, fun h => absurd h Bool.false_ne_true⟩ }

theorem Known.look (hk : Known l s) (hcall : s.consumer = .calling seen)
    (hempty : s.entered.length ≤ s.left) : Known l { s with consumer := .calling true } := by
  have hc := hk.consumer
  rw [hcall] at hc
  exact { hk with consumer := ⟨hc.1, hc.2.1, fun _ => hk.before.length_le.trans hempty⟩ }

theorem Known.leave (hk : Known l s) (hcall : s.consumer = .calling seen)
    (hx : s.entered[s.left]? = some x) :
    Known l { s with left := s.left + 1, consumer := .returning (some x) } := by
  have hc := hk.consumer
  rw [hcall] at hc
  obtain ⟨hlt, hget⟩ := List.getElem?_eq_some_iff.1 hx
  exact
    { hk with
      left_le := hlt
      takenBefore_le := Nat.le_succ_of_le hk.takenBefore_le
      producer := by
        have hp := hk.producer
        cases hprod : s.producer with
        | idle =>
          rw [hprod] at hp
          exact hp
        | calling y since =>
          rw [hprod] at hp
          exact hp
        | returning ok =>
          rw [hprod] at hp
          exact hp
      consumer := by
        refine ⟨?_, hc.2.1, fun h => absurd h (Option.some_ne_none x)⟩
        rw [hc.1, List.take_add_one, hx] }

theorem Known.dequeued (hk : Known l s) (hret : s.consumer = .returning r) :
    Known (l.note (.dequeued r)) { s with consumer := .idle } := by
  have hc := hk.consumer
  rw [hret] at hc
  refine { hk with takenBefore_le := ?_, consumer := ⟨hc.1, fun h => hc.2.2 (Option.isNone_iff_eq_none.1 h)⟩ }
  show (l.taken ++ r.toList).length ≤ s.left
  rw [hc.1]
  exact List.length_take_le _ _

/-- What is known before a step is known after it, with what the step has shown. -/
theorem Known.next {e : Event T} {out : List (Label T)} (hk : Known (ledger h) s)
    (hnext : s.next e = some (out, s')) : Known (ledger (h ++ out)) s' := by
  cases e with
  | enqueue x =>
    simp only [State.next] at hnext
    split at hnext <;> cases hnext
    next hidle =>
      rw [ledger_concat]
      exact hk.enqueue hidle x
  | enter =>
    simp only [State.next] at hnext
    split at hnext <;> cases hnext
    next hcall =>
      rw [ledger_append_nil]
      exact hk.enter hcall
  | refuse =>
    simp only [State.next] at hnext
    split at hnext <;> cases hnext
    next hcall =>
      rw [ledger_append_nil]
      have hp := hk.producer
      rw [hcall] at hp
      exact { hk with producer := hp.2.1 }
  | enqueued =>
    simp only [State.next] at hnext
    split at hnext <;> cases hnext
    next hret =>
      rw [ledger_concat]
      exact hk.enqueued hret
  | dequeue =>
    simp only [State.next] at hnext
    split at hnext <;> cases hnext
    next hidle =>
      rw [ledger_concat]
      exact hk.dequeue hidle
  | look =>
    simp only [State.next] at hnext
    split at hnext
    · next hcall =>
      split at hnext <;> cases hnext
      next hempty =>
        rw [ledger_append_nil]
        exact hk.look hcall hempty
    · cases hnext
  | leave =>
    simp only [State.next] at hnext
    split at hnext <;> cases hnext
    next hcall hx =>
      rw [ledger_append_nil]
      exact hk.leave hcall hx
  | miss =>
    simp only [State.next] at hnext
    split at hnext <;> cases hnext
    next hcall =>
      rw [ledger_append_nil]
      have hc := hk.consumer
      rw [hcall] at hc
      refine { hk with consumer := ⟨?_, hc.2.1, fun _ => hc.2.2 rfl⟩ }
      exact (List.append_nil _).trans hc.1
  | dequeued =>
    simp only [State.next] at hnext
    split at hnext <;> cases hnext
    next hret =>
      rw [ledger_concat]
      exact hk.dequeued hret

/-- The ledger of what a run has shown agrees with the state the run has led to. -/
theorem known_of_runs (hrun : (system T).Runs (empty T) h s) : Known (ledger h) s :=
  @History.System.Runs.invariant _ _ _ _ _ _ _ (fun h s => Known (ledger h) s)
    (fun _ _ _ _ _ hk hnext => hk.next hnext) known_empty hrun

/-- No element comes twice, none is lost before a later one comes, and all come in order:
what was taken is the beginning of what was put in. -/
theorem taken_prefix (hrun : (system T).Runs (empty T) h s) :
    (ledger h).taken <+: (ledger h).accepted ++ (ledger h).pending.toList := by
  have hk := known_of_runs hrun
  have hentered : s.entered <+: (ledger h).accepted ++ (ledger h).pending.toList := by
    have hp := hk.producer
    cases hprod : s.producer with
    | idle =>
      rw [hprod] at hp
      exact hp.2 ▸ List.prefix_append _ _
    | calling x since =>
      rw [hprod] at hp
      exact hp.2.1 ▸ List.prefix_append _ _
    | returning ok =>
      rw [hprod] at hp
      cases ok with
      | true => exact hp ▸ List.prefix_rfl
      | false => exact hp ▸ List.prefix_append _ _
  have htaken : (ledger h).taken <+: s.entered.take s.left := by
    have hc := hk.consumer
    cases hcons : s.consumer with
    | idle =>
      rw [hcons] at hc
      exact hc.1 ▸ List.prefix_rfl
    | calling seen =>
      rw [hcons] at hc
      exact hc.1 ▸ List.prefix_rfl
    | returning r =>
      rw [hcons] at hc
      exact hc.1 ▸ List.prefix_append _ _
  exact (htaken.trans (List.take_prefix _ _)).trans hentered

/-- A call that found nothing: all that was accepted before it had been taken. -/
theorem accepted_taken_of_missed (hrun : (system T).Runs (empty T) h s)
    (hmissed : (ledger h).missed = true) : (ledger h).acceptedBefore <+: (ledger h).taken := by
  have hk := known_of_runs hrun
  have hc := hk.consumer
  cases hcons : s.consumer with
  | idle =>
    rw [hcons] at hc
    rw [hc.1]
    exact List.prefix_take_iff.2 ⟨hk.before, hc.2 hmissed⟩
  | calling seen =>
    rw [hcons] at hc
    exact absurd (hmissed.symm.trans hc.2.1) (by decide)
  | returning r =>
    rw [hcons] at hc
    exact absurd (hmissed.symm.trans hc.2.1) (by decide)

end AtomicQueue
