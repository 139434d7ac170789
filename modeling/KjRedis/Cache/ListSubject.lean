import KjRedis.Cache.ListProxy
import KjRedis.Conn.Subscriber

/-! `CRedisListSubject`: the observers of lists, and the channels they subscribe to. -/
namespace KjRedis.Cache

open KjRedis.Conn

/-- `κ` are the callbacks; `cb` is `none` where the function is empty. -/
structure ObserverReg (κ : Type*) where
  regid : UInt64
  cb : Option κ
  isDeleted : Bool

/-- A proxy with the service entry it is bound to, one of `σ`. -/
structure ListObserver (σ : Type*) where
  serviceEntry : σ
  proxy : CRedisListProxy

/-- A channel the map lacks has no registrations. `calls` are those on the subscribers of the
service entries, `notified` those of callbacks, with their registrations. -/
structure ListSubject (σ κ : Type*) where
  mapObserverRegList : Bytes → List (ObserverReg κ)
  calls : List (σ × SubscriberCall)
  notified : List (UInt64 × κ × Bytes × Bytes)

inductive ListSubjectEvent (σ κ : Type*)
  | attach (regid : UInt64) (observer : ListObserver σ) (cb : Option κ)
  | detach (regid : UInt64) (observer : ListObserver σ)
  | message (chan msg : Bytes)

section Registrations

variable {κ : Type*} (regid : UInt64)

/-- The first registration with the id, or a new one. The flag says that it subscribes. -/
def attachReg (cb : Option κ) : List (ObserverReg κ) → List (ObserverReg κ) × Bool
  | [] => ([{ regid, cb, isDeleted := false }], true)
  | reg :: regs =>
    if regid = reg.regid then ({ reg with cb, isDeleted := false } :: regs, reg.isDeleted)
    else (reg :: (attachReg cb regs).1, (attachReg cb regs).2)

/-- The flag says that it unsubscribes: it found a registration with the id. -/
def detachReg : List (ObserverReg κ) → List (ObserverReg κ) × Bool
  | [] => ([], false)
  | reg :: regs =>
    if regid = reg.regid then ({ reg with isDeleted := true } :: regs, true)
    else (reg :: (detachReg regs).1, (detachReg regs).2)

/-- The callbacks of the first loop of a message. -/
def notifyRegs (chan msg : Bytes) : List (ObserverReg κ) → List (UInt64 × κ × Bytes × Bytes)
  | [] => []
  | reg :: regs =>
    match reg.isDeleted, reg.cb with
    | false, some cb => (reg.regid, cb, chan, msg) :: notifyRegs chan msg regs
    | _, _ => notifyRegs chan msg regs

/-- Its second loop. -/
def eraseDeleted : List (ObserverReg κ) → List (ObserverReg κ)
  | [] => []
  | reg :: regs => if reg.isDeleted then eraseDeleted regs else reg :: eraseDeleted regs

end Registrations

namespace ListSubject

variable {σ κ : Type*}

def new : ListSubject σ κ := { mapObserverRegList := fun _ => [], calls := [], notified := [] }

def setRegs (s : ListSubject σ κ) (chan : Bytes) (regs : List (ObserverReg κ)) :
    ListSubject σ κ :=
  { s with mapObserverRegList := Function.update s.mapObserverRegList chan regs }

def issue (s : ListSubject σ κ) (serviceEntry : σ) (call : SubscriberCall) : ListSubject σ κ :=
  { s with calls := s.calls ++ [(serviceEntry, call)] }

def attachObserver (s : ListSubject σ κ) (regid : UInt64) (observer : ListObserver σ)
    (cb : Option κ) : ListSubject σ κ :=
  let chan := observer.proxy.sIdChanOfNotify
  let (regs, subscribes) := attachReg regid cb (s.mapObserverRegList chan)
  let s := s.setRegs chan regs
  if subscribes then s.issue observer.serviceEntry (.subscribe chan) else s

def detachObserver (s : ListSubject σ κ) (regid : UInt64) (observer : ListObserver σ) :
    ListSubject σ κ :=
  let chan := observer.proxy.sIdChanOfNotify
  let (regs, unsubscribes) := detachReg regid (s.mapObserverRegList chan)
  let s := s.setRegs chan regs
  if unsubscribes then s.issue observer.serviceEntry (.unsubscribe chan) else s

def onGotChannelMessage (s : ListSubject σ κ) (chan msg : Bytes) : ListSubject σ κ :=
  let regs := s.mapObserverRegList chan
  { s.setRegs chan (eraseDeleted regs) with notified := s.notified ++ notifyRegs chan msg regs }

def perform (s : ListSubject σ κ) : ListSubjectEvent σ κ → ListSubject σ κ
  | .attach regid observer cb => s.attachObserver regid observer cb
  | .detach regid observer => s.detachObserver regid observer
  | .message chan msg => s.onGotChannelMessage chan msg

/-- The registrations of a channel that are not marked deleted. -/
def live (s : ListSubject σ κ) (chan : Bytes) : List (ObserverReg κ) :=
  (s.mapObserverRegList chan).filter fun reg => !reg.isDeleted

/-- How often the call was issued. -/
def issued (s : ListSubject σ κ) (call : SubscriberCall) : Nat :=
  s.calls.countP fun entry => entry.2 = call

/-- The subscriptions of every channel match its registrations, and a message now calls each
of these, and no other, once. -/
structure Matched (s : ListSubject σ κ) : Prop where
  balance : ∀ chan, (s.issued (.subscribe chan) : ℤ) - s.issued (.unsubscribe chan) =
    (s.live chan).length
  notifies : ∀ chan msg, (s.onGotChannelMessage chan msg).notified =
    s.notified ++ (s.live chan).filterMap fun reg => reg.cb.map fun cb => (reg.regid, cb, chan, msg)
  once : ∀ chan, ((s.live chan).map (·.regid)).Nodup

/-- A registration that is detached is not one already marked deleted. -/
def FirstDetach (s : ListSubject σ κ) : ListSubjectEvent σ κ → Prop
  | .detach regid observer =>
    ∀ reg, (s.mapObserverRegList observer.proxy.sIdChanOfNotify).find? (regid = ·.regid) = some reg →
      reg.isDeleted = false
  | _ => True

end ListSubject

def listSubject (σ κ : Type*) : Transition.System (ListSubject σ κ) (ListSubjectEvent σ κ) where
  next s e := some (s.perform e)

section Loops

variable {κ : Type*} {regid : UInt64} {cb : Option κ} {regs : List (ObserverReg κ)}

/-- How many registrations are not marked deleted. -/
def liveCount (regs : List (ObserverReg κ)) : Nat := (regs.filter fun reg => !reg.isDeleted).length

theorem liveCount_cons (reg : ObserverReg κ) :
    liveCount (reg :: regs) = liveCount regs + if reg.isDeleted then 0 else 1 := by
  unfold liveCount
  cases h : reg.isDeleted with
  | false => simp [h]
  | true => simp [h]

theorem attachReg_liveCount : liveCount (attachReg regid cb regs).1 =
    liveCount regs + if (attachReg regid cb regs).2 then 1 else 0 := by
  induction regs with
  | nil => rfl
  | cons reg regs ih =>
    rw [attachReg]
    split
    · rw [liveCount_cons, liveCount_cons]
      cases reg.isDeleted with
      | false => rfl
      | true => rfl
    · rw [liveCount_cons, liveCount_cons, ih]
      exact Nat.add_right_comm _ _ _

theorem attachReg_regids : (attachReg regid cb regs).1.map (·.regid) = regs.map (·.regid) ∨
    regid ∉ regs.map (·.regid) ∧
      (attachReg regid cb regs).1.map (·.regid) = regs.map (·.regid) ++ [regid] := by
  induction regs with
  | nil => exact .inr ⟨List.not_mem_nil, rfl⟩
  | cons reg regs ih =>
    rw [attachReg]
    split
    · exact .inl rfl
    · next hne =>
      rcases ih with hsame | ⟨hnew, hsnoc⟩
      · refine .inl ?_
        rw [List.map_cons, hsame, List.map_cons]
      · refine .inr ⟨?_, ?_⟩
        · rw [List.map_cons, List.mem_cons]
          exact not_or.2 ⟨hne, hnew⟩
        · rw [List.map_cons, hsnoc, List.map_cons, List.cons_append]

theorem detachReg_regids : (detachReg regid regs).1.map (·.regid) = regs.map (·.regid) := by
  induction regs with
  | nil => rfl
  | cons reg regs ih =>
    rw [detachReg]
    split
    · rfl
    · rw [List.map_cons, ih, List.map_cons]

/-- It unsubscribes where it finds the id, also where the registration counted no more. -/
theorem detachReg_liveCount : match regs.find? (regid = ·.regid) with
    | none => detachReg regid regs = (regs, false)
    | some reg => (detachReg regid regs).2 = true ∧
        liveCount regs = liveCount (detachReg regid regs).1 + if reg.isDeleted then 0 else 1 := by
  induction regs with
  | nil => rfl
  | cons reg regs ih =>
    rw [List.find?_cons, detachReg]
    by_cases heq : regid = reg.regid
    · simp only [heq, decide_true, if_true]
      refine ⟨trivial, ?_⟩
      rw [liveCount_cons, liveCount_cons]
      simp
    · simp only [heq, decide_false, if_false]
      cases hfind : regs.find? (regid = ·.regid) with
      | none =>
        rw [hfind] at ih
        rw [ih]
      | some found =>
        rw [hfind] at ih
        refine ⟨ih.1, ?_⟩
        rw [liveCount_cons, liveCount_cons, ih.2]
        omega

theorem eraseDeleted_eq : eraseDeleted regs = regs.filter fun reg => !reg.isDeleted := by
  induction regs with
  | nil => rfl
  | cons reg regs ih =>
    rw [eraseDeleted, List.filter_cons, ih]
    cases reg.isDeleted with
    | false => rfl
    | true => rfl

theorem notifyRegs_eq (chan msg : Bytes) : notifyRegs chan msg regs =
    (regs.filter fun reg => !reg.isDeleted).filterMap fun reg =>
      reg.cb.map fun cb => (reg.regid, cb, chan, msg) := by
  induction regs with
  | nil => rfl
  | cons reg regs ih =>
    obtain ⟨regid, cb, isDeleted⟩ := reg
    cases isDeleted with
    | true => exact ih
    | false =>
      cases cb with
      | none => exact ih
      | some cb => exact congrArg ((regid, cb, chan, msg) :: ·) ih

end Loops

namespace ListSubject

variable {σ κ : Type*} {s s' : ListSubject σ κ} {chan chan' : Bytes} {regs : List (ObserverReg κ)}
  {e : ListSubjectEvent σ κ}

theorem setRegs_self : (s.setRegs chan regs).mapObserverRegList chan = regs := by
  simp [setRegs]

/-- The calls of `Subscribe` less those of `Unsubscribe`. -/
def balance (s : ListSubject σ κ) (chan : Bytes) : ℤ :=
  s.issued (.subscribe chan) - s.issued (.unsubscribe chan)

theorem issued_issue (serviceEntry : σ) (call call' : SubscriberCall) :
    (s.issue serviceEntry call).issued call' = s.issued call' + if call = call' then 1 else 0 := by
  simp only [issued, issue, List.countP_append, List.countP_singleton, decide_eq_true_eq]

theorem balance_subscribe (serviceEntry : σ) : (s.issue serviceEntry (.subscribe chan)).balance chan' =
    s.balance chan' + if chan' = chan then 1 else 0 := by
  simp only [balance, issued_issue, SubscriberCall.subscribe.injEq, reduceCtorEq, if_false,
    eq_comm (a := chan)]
  split <;> omega

theorem balance_unsubscribe (serviceEntry : σ) :
    (s.issue serviceEntry (.unsubscribe chan)).balance chan' =
      s.balance chan' - if chan' = chan then 1 else 0 := by
  simp only [balance, issued_issue, SubscriberCall.unsubscribe.injEq, reduceCtorEq, if_false,
    eq_comm (a := chan)]
  split <;> omega

/-- The invariant; deleted registrations keep their ids. -/
structure Registered (s : ListSubject σ κ) : Prop where
  balance : ∀ chan, s.balance chan = liveCount (s.mapObserverRegList chan)
  regids : ∀ chan, ((s.mapObserverRegList chan).map (·.regid)).Nodup

theorem Registered.matched (h : Registered s) : Matched s where
  balance := h.balance
  notifies chan msg := congrArg (s.notified ++ ·) (notifyRegs_eq chan msg)
  once chan := (h.regids chan).sublist (List.filter_sublist.map _)

/-- New registrations of one channel, and calls that change its balance as much. -/
theorem Registered.put (h : Registered s) (chan : Bytes) (hregids : (regs.map (·.regid)).Nodup)
    (hmap : s'.mapObserverRegList = Function.update s.mapObserverRegList chan regs)
    (hbalance : ∀ chan', s'.balance chan' = s.balance chan' +
      if chan' = chan then (liveCount regs : ℤ) - liveCount (s.mapObserverRegList chan) else 0) :
    Registered s' := by
  constructor
  · intro chan'
    rw [hbalance, h.balance, hmap]
    by_cases hchan : chan' = chan
    · subst hchan
      rw [if_pos rfl, Function.update_self]
      omega
    · rw [if_neg hchan, Function.update_of_ne hchan, add_zero]
  · intro chan'
    rw [hmap]
    by_cases hchan : chan' = chan
    · subst hchan
      rw [Function.update_self]
      exact hregids
    · rw [Function.update_of_ne hchan]
      exact h.regids chan'

theorem Registered.attachObserver (h : Registered s) (regid : UInt64) (observer : ListObserver σ)
    (cb : Option κ) : Registered (s.attachObserver regid observer cb) := by
  set chan := observer.proxy.sIdChanOfNotify with hchan
  have hcount := @attachReg_liveCount κ regid cb (s.mapObserverRegList chan)
  have hregids : ((attachReg regid cb (s.mapObserverRegList chan)).1.map (·.regid)).Nodup := by
    rcases @attachReg_regids κ regid cb (s.mapObserverRegList chan) with hsame | ⟨hnew, hsnoc⟩
    · rw [hsame]
      exact h.regids chan
    · rw [hsnoc, List.nodup_append]
      refine ⟨h.regids chan, List.nodup_singleton regid, ?_⟩
      rintro _ hmem _ hid rfl
      rw [List.mem_singleton.1 hid] at hmem
      exact hnew hmem
  rw [ListSubject.attachObserver, ← hchan]
  generalize attachReg regid cb (s.mapObserverRegList chan) = answer at hcount hregids ⊢
  obtain ⟨regs, subscribes⟩ := answer
  cases subscribes with
  | true =>
    refine h.put chan hregids rfl fun chan' => ?_
    refine (balance_subscribe observer.serviceEntry).trans ?_
    rw [show (liveCount regs : ℤ) - liveCount (s.mapObserverRegList chan) = 1 by
      rw [hcount]; simp]
    rfl
  | false =>
    refine h.put chan hregids rfl fun chan' => ?_
    rw [show (liveCount regs : ℤ) - liveCount (s.mapObserverRegList chan) = 0 by
      rw [hcount]; simp, ite_self, add_zero]
    rfl

/-- A detached registration that counts is counted no more; one that does not is the slip. -/
theorem Registered.detachObserver (h : Registered s) (regid : UInt64) (observer : ListObserver σ)
    (hfirst : FirstDetach s (.detach regid observer)) :
    Registered (s.detachObserver regid observer) := by
  set chan := observer.proxy.sIdChanOfNotify with hchan
  have hcount := @detachReg_liveCount κ regid (s.mapObserverRegList chan)
  have hregids : ((detachReg regid (s.mapObserverRegList chan)).1.map (·.regid)).Nodup := by
    rw [detachReg_regids]
    exact h.regids chan
  rw [ListSubject.detachObserver, ← hchan]
  cases hfind : (s.mapObserverRegList chan).find? (regid = ·.regid) with
  | none =>
    rw [hfind] at hcount
    rw [hcount] at hregids ⊢
    refine h.put chan hregids rfl fun chan' => ?_
    rw [sub_self, ite_self, add_zero]
    rfl
  | some reg =>
    rw [hfind] at hcount
    obtain ⟨hflag, hcount⟩ := hcount
    rw [hfirst reg hfind, if_neg Bool.false_ne_true] at hcount
    generalize detachReg regid (s.mapObserverRegList chan) = answer at hflag hcount hregids ⊢
    obtain ⟨regs, unsubscribes⟩ := answer
    obtain rfl : unsubscribes = true := hflag
    refine h.put chan hregids rfl fun chan' => ?_
    refine (balance_unsubscribe observer.serviceEntry).trans ?_
    have hless : (liveCount regs : ℤ) - liveCount (s.mapObserverRegList chan) = -1 := by
      rw [hcount, Nat.cast_add, Nat.cast_one, sub_add_cancel_left]
    rw [hless, sub_eq_add_neg, apply_ite Neg.neg, neg_zero]
    rfl

theorem Registered.message (h : Registered s) (chan msg : Bytes) :
    Registered (s.onGotChannelMessage chan msg) := by
  refine h.put chan ?_ rfl fun chan' => ?_
  · rw [eraseDeleted_eq]
    exact (h.regids chan).sublist (List.filter_sublist.map _)
  · have hsame : liveCount (eraseDeleted (s.mapObserverRegList chan)) =
        liveCount (s.mapObserverRegList chan) := by
      rw [eraseDeleted_eq, liveCount, List.filter_filter]
      simp [liveCount]
    rw [hsame, sub_self, ite_self, add_zero]
    rfl

theorem Registered.perform (h : Registered s) (hfirst : FirstDetach s e) :
    Registered (s.perform e) := by
  cases e with
  | attach regid observer cb => exact h.attachObserver regid observer cb
  | detach regid observer => exact h.detachObserver regid observer hfirst
  | message chan msg => exact h.message chan msg

/-- Where the subscriptions match after a call, it was no second detach. -/
theorem Registered.of_perform (h : Registered s) (hmatched : Matched (s.perform e)) :
    FirstDetach s e := by
  cases e with
  | attach => trivial
  | message => trivial
  | detach regid observer =>
    intro reg hfind
    by_contra hdeleted
    rw [Bool.not_eq_false] at hdeleted
    set chan := observer.proxy.sIdChanOfNotify with hchan
    have hcount := @detachReg_liveCount κ regid (s.mapObserverRegList chan)
    rw [hfind] at hcount
    obtain ⟨hflag, hcount⟩ := hcount
    have hbalance := hmatched.balance chan
    rw [ListSubject.perform, ListSubject.detachObserver, ← hchan] at hbalance
    generalize detachReg regid (s.mapObserverRegList chan) = answer at hflag hcount hbalance
    obtain ⟨regs, unsubscribes⟩ := answer
    obtain rfl : unsubscribes = true := hflag
    have hlive : ((s.setRegs chan regs).live chan).length = liveCount regs := by
      rw [live, setRegs_self]
      rfl
    have hless : (s.setRegs chan regs).balance chan - 1 = liveCount regs :=
      ((balance_unsubscribe observer.serviceEntry).trans (by rw [if_pos rfl])).symm.trans
        (hbalance.trans (congrArg Nat.cast hlive))
    have hbefore : (s.setRegs chan regs).balance chan = liveCount (s.mapObserverRegList chan) :=
      h.balance chan
    rw [hbefore, hcount, hdeleted] at hless
    simp at hless

/-- In every run, the subscriptions match the registrations throughout if and only if no
registration is detached while it is marked deleted. -/
theorem matched_iff_firstDetach {es : List (ListSubjectEvent σ κ)}
    (hrun : (listSubject σ κ).run new es = some s') :
    (listSubject σ κ).Always Matched new es ↔ (listSubject σ κ).Meets FirstDetach new es := by
  refine @Transition.System.always_iff_meets _ _ _ _ _ _ _ Registered _
    (fun s h => h.matched) ?_ ?_ ⟨fun _ => rfl, fun _ => List.nodup_nil⟩ hrun
  · intro s e t h hfirst hnext
    obtain rfl := Option.some.inj hnext
    exact h.perform hfirst
  · intro s e t h hsecond hnext hmatched
    obtain rfl := Option.some.inj hnext
    exact hsecond (h.of_perform hmatched)

/-- Attached, detached, attached again before the message, and another observer beside it. -/
theorem matched_iff_firstDetach_again :
    let observer : ListObserver Unit := ⟨(), ⟨ascii "M", ascii "list", ascii "A"⟩⟩
    let es : List (ListSubjectEvent Unit Nat) :=
      [.attach 1 observer (some 10), .attach 2 observer (some 20), .detach 1 observer,
        .attach 1 observer (some 11), .detach 2 observer,
        .message observer.proxy.sIdChanOfNotify (ascii "1")]
    (listSubject Unit Nat).Always Matched new es := by
  intro observer es
  refine (matched_iff_firstDetach rfl).2 ?_
  refine Transition.System.meets_cons rfl trivial <| Transition.System.meets_cons rfl trivial <|
    Transition.System.meets_cons rfl ?_ <| Transition.System.meets_cons rfl trivial <|
    Transition.System.meets_cons rfl ?_ <| Transition.System.meets_cons rfl trivial trivial
  · rintro reg ⟨⟩
    rfl
  · rintro reg ⟨⟩
    rfl

/-- One of two observers detaches twice: two calls of each kind, and one registration. -/
theorem not_matched_detached_twice :
    let observer : ListObserver Unit := ⟨(), ⟨ascii "M", ascii "list", ascii "A"⟩⟩
    ∃ s' : ListSubject Unit Nat, (listSubject Unit Nat).run new
        [.attach 1 observer (some 10), .attach 2 observer (some 20), .detach 1 observer,
          .detach 1 observer] = some s' ∧
      (s'.live observer.proxy.sIdChanOfNotify).map (·.regid) = [2] ∧
      s'.balance observer.proxy.sIdChanOfNotify = 0 ∧ ¬ Matched s' := by
  intro observer
  refine ⟨_, rfl, by decide, by decide, fun hmatched => ?_⟩
  have hbalance := hmatched.balance observer.proxy.sIdChanOfNotify
  revert hbalance
  decide

end ListSubject

end KjRedis.Cache
