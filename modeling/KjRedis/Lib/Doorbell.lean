import KjRedis.Lib.AtomicQueue

/-! A producer that rings a bell after each element, and a consumer that waits for the bell
and then takes elements until it finds none. -/
namespace Doorbell

open AtomicQueue (Label State)

variable {T : Type*}

inductive Producer (T : Type*)
  | idle
  | putting (x : T)
  | ringing

inductive Consumer
  | waiting
  | looking
  | taking
  | stopped

/-- `accepted` has entered the queue and `taken` has left it, as the two have been told;
`rings` have not been heard yet. -/
structure Control (T : Type*) where
  producer : Producer T
  consumer : Consumer
  accepted : List T
  taken : List T
  rings : Nat

namespace Control

/-- What the calls of the queue change. -/
inductive Notes : Control T → Label T → Control T → Prop
  | enqueue {c : Control T} (h : c.producer = .idle) (x : T) :
    Notes c (.enqueue x) { c with producer := .putting x }
  | accepted {c : Control T} {x : T} (h : c.producer = .putting x) :
    Notes c (.enqueued true) { c with producer := .ringing, accepted := c.accepted ++ [x] }
  | refused {c : Control T} {x : T} (h : c.producer = .putting x) {p : Producer T}
      (hp : ∀ y, p ≠ .putting y) : Notes c (.enqueued false) { c with producer := p }
  | dequeue {c : Control T} (h : c.consumer = .looking) : Notes c .dequeue { c with consumer := .taking }
  | taken {c : Control T} (h : c.consumer = .taking) (x : T) :
    Notes c (.dequeued (some x)) { c with consumer := .looking, taken := c.taken ++ [x] }
  | missed {c : Control T} (h : c.consumer = .taking) :
    Notes c (.dequeued none) { c with consumer := .waiting }

/-- What the two do between their calls. A producer may ring without reason, but not while
it is in a call. -/
inductive Acts : Control T → Control T → Prop
  | still (c : Control T) : Acts c c
  | reach {c : Control T} (h : c.producer = .idle) : Acts c { c with producer := .ringing }
  | ring {c : Control T} (h : ∀ x, c.producer ≠ .putting x) {n : Nat} (hn : 0 < n) :
    Acts c { c with producer := .idle, rings := c.rings + n }
  | hear {c : Control T} (h : c.consumer = .waiting) {n : Nat} (hn : n ≤ c.rings) :
    Acts c { c with consumer := .looking, rings := c.rings - n }
  | stop {c : Control T} (h : c.consumer ≠ .taking) : Acts c { c with consumer := .stopped }
  | ignore {c : Control T} (h : c.consumer = .stopped) (rings : Nat) : Acts c { c with rings }

end Control

/-- The element of a call under way. -/
def Producer.pending : Producer T → List T
  | .putting x => [x]
  | _ => []

def ProducerRelated (a : State T) (accepted : List T) : Producer T → Prop
  | .putting x => (∃ since, a.producer = .calling x since ∧ a.entered = accepted) ∨
      ∃ ok, a.producer = .returning ok ∧ a.entered = if ok then accepted ++ [x] else accepted
  | _ => a.producer = .idle ∧ a.entered = accepted

def ConsumerRelated (a : State T) (taken : List T) : Consumer → Prop
  | .taking => (∃ seen, a.consumer = .calling seen ∧ taken = a.entered.take a.left) ∨
      ∃ r, a.consumer = .returning r ∧ taken ++ r.toList = a.entered.take a.left
  | _ => a.consumer = .idle ∧ taken = a.entered.take a.left

/-- The consumer will see what is in the queue now before it waits for the bell again. -/
def WillLook (a : State T) : Consumer → Prop
  | .waiting => False
  | .taking => a.consumer = .calling false ∨ ∃ x, a.consumer = .returning (some x)
  | _ => True

/-- What nobody will look for by himself has been rung for, or is about to be. -/
structure Inv (a : State T) (c : Control T) : Prop where
  left_le : a.left ≤ a.entered.length
  producer : ProducerRelated a c.accepted c.producer
  consumer : ConsumerRelated a c.taken c.consumer
  heard : a.items = [] ∨ 0 < c.rings ∨ c.producer = .ringing ∨ a.producer = .returning true ∨
    WillLook a c.consumer

variable {a a' : State T} {c c' : Control T} {out : List (Label T)} {x : T}

theorem inv_start : Inv (AtomicQueue.empty T) ⟨.idle, .waiting, [], [], 0⟩ where
  left_le := Nat.le_refl 0
  producer := ⟨rfl, rfl⟩
  consumer := ⟨rfl, rfl⟩
  heard := .inl rfl

theorem Inv.acts (h : Inv a c) (hact : Control.Acts c c') : Inv a c' := by
  obtain ⟨hle, hp, hc, hheard⟩ := h
  cases hact with
  | still => exact ⟨hle, hp, hc, hheard⟩
  | reach hidle =>
    rw [hidle] at hp
    exact ⟨hle, hp, hc, .inr (.inr (.inl rfl))⟩
  | ring hnot hn =>
    refine ⟨hle, ?_, hc, .inr (.inl (Nat.add_pos_right _ hn))⟩
    cases hprod : c.producer with
    | putting x => exact absurd hprod (hnot x)
    | idle =>
      rw [hprod] at hp
      exact hp
    | ringing =>
      rw [hprod] at hp
      exact hp
  | hear hwait hn =>
    rw [hwait] at hc
    exact ⟨hle, hp, hc, .inr (.inr (.inr (.inr trivial)))⟩
  | stop hnot =>
    refine ⟨hle, hp, ?_, .inr (.inr (.inr (.inr trivial)))⟩
    cases hcons : c.consumer with
    | taking => exact absurd hcons hnot
    | _ =>
      rw [hcons] at hc
      exact hc
  | ignore hstopped rings =>
    refine ⟨hle, hp, hc, .inr (.inr (.inr (.inr ?_)))⟩
    rw [hstopped]
    trivial

theorem Inv.drained (h : Inv a c) (hwait : c.consumer = .waiting) (hrings : c.rings = 0)
    (hidle : c.producer = .idle) : c.taken = c.accepted := by
  have hp := h.producer
  have hc := h.consumer
  rw [hidle] at hp
  rw [hwait] at hc
  have hitems : a.items = [] := by
    rcases h.heard with hnil | hpos | hring | hret | hlook
    · exact hnil
    · exact absurd hrings (Nat.ne_of_gt hpos)
    · rw [hidle] at hring
      cases hring
    · rw [hp.1] at hret
      cases hret
    · rw [hwait] at hlook
      exact hlook.elim
  rw [hc.2, ← hp.2]
  exact List.take_of_length_le (List.drop_eq_nil_iff.1 hitems)

theorem Inv.taken_prefix (h : Inv a c) : c.taken <+: c.accepted ++ c.producer.pending := by
  have hentered : a.entered <+: c.accepted ++ c.producer.pending := by
    have hp := h.producer
    cases hprod : c.producer with
    | putting x =>
      rw [hprod] at hp
      rcases hp with ⟨_, _, heq⟩ | ⟨ok, _, heq⟩
      · exact heq ▸ List.prefix_append _ _
      · cases ok with
        | true => exact heq ▸ List.prefix_rfl
        | false => exact heq ▸ List.prefix_append _ _
    | idle =>
      rw [hprod] at hp
      exact hp.2 ▸ List.prefix_append _ _
    | ringing =>
      rw [hprod] at hp
      exact hp.2 ▸ List.prefix_append _ _
  have htaken : c.taken <+: a.entered.take a.left := by
    have hc := h.consumer
    cases hcons : c.consumer with
    | taking =>
      rw [hcons] at hc
      rcases hc with ⟨_, _, heq⟩ | ⟨r, _, heq⟩
      · exact heq ▸ List.prefix_rfl
      · exact heq ▸ List.prefix_append _ _
    | _ =>
      rw [hcons] at hc
      exact hc.2 ▸ List.prefix_rfl
  exact (htaken.trans (List.take_prefix _ _)).trans hentered

/-- A step inside a call of the producer, which shows nothing. -/
theorem Inv.enter {since : Nat} (h : Inv a c) (hcall : a.producer = .calling x since) :
    Inv { a with entered := a.entered ++ [x], producer := .returning true } c := by
  obtain ⟨hle, hp, hc, -⟩ := h
  refine ⟨?_, ?_, ?_, .inr (.inr (.inr (.inl rfl)))⟩
  · rw [List.length_append]
    exact Nat.le_add_right_of_le hle
  · cases hprod : c.producer with
    | putting y =>
      rw [hprod] at hp
      rcases hp with ⟨_, hcall', heq⟩ | ⟨_, hret, _⟩
      · obtain ⟨rfl, -⟩ := AtomicQueue.Producer.calling.inj (hcall'.symm.trans hcall)
        exact .inr ⟨true, rfl, congrArg (· ++ [y]) heq⟩
      · rw [hret] at hcall
        cases hcall
    | idle =>
      rw [hprod] at hp
      rw [hp.1] at hcall
      cases hcall
    | ringing =>
      rw [hprod] at hp
      rw [hp.1] at hcall
      cases hcall
  · have htake : (a.entered ++ [x]).take a.left = a.entered.take a.left :=
      List.take_append_of_le_length hle
    cases hcons : c.consumer with
    | taking =>
      rw [hcons] at hc
      rcases hc with ⟨seen, hcons', heq⟩ | ⟨r, hcons', heq⟩
      · exact .inl ⟨seen, hcons', heq.trans htake.symm⟩
      · exact .inr ⟨r, hcons', heq.trans htake.symm⟩
    | _ =>
      rw [hcons] at hc
      exact ⟨hc.1, hc.2.trans htake.symm⟩

theorem Inv.refuse {since : Nat} (h : Inv a c) (hcall : a.producer = .calling x since) :
    Inv { a with producer := .returning false } c := by
  obtain ⟨hle, hp, hc, hheard⟩ := h
  refine ⟨hle, ?_, ?_, ?_⟩
  · cases hprod : c.producer with
    | putting y =>
      rw [hprod] at hp
      rcases hp with ⟨_, _, heq⟩ | ⟨_, hret, _⟩
      · exact .inr ⟨false, rfl, heq⟩
      · rw [hret] at hcall
        cases hcall
    | idle =>
      rw [hprod] at hp
      rw [hp.1] at hcall
      cases hcall
    | ringing =>
      rw [hprod] at hp
      rw [hp.1] at hcall
      cases hcall
  · exact hc
  · rcases hheard with hnil | hpos | hring | hret | hlook
    · exact .inl hnil
    · exact .inr (.inl hpos)
    · exact .inr (.inr (.inl hring))
    · rw [hret] at hcall
      cases hcall
    · exact .inr (.inr (.inr (.inr hlook)))

theorem Inv.enqueued {ok : Bool} (h : Inv a c) (hret : a.producer = .returning ok)
    (hnotes : c.Notes (.enqueued ok) c') : Inv { a with producer := .idle } c' := by
  obtain ⟨hle, hp, hc, hheard⟩ := h
  have hentered : ∀ {x}, c.producer = .putting x →
      a.entered = if ok then c.accepted ++ [x] else c.accepted := by
    intro x hprod
    rw [hprod] at hp
    rcases hp with ⟨_, hcall, _⟩ | ⟨ok', hret', heq⟩
    · rw [hcall] at hret
      cases hret
    · obtain rfl := AtomicQueue.Producer.returning.inj (hret'.symm.trans hret)
      exact heq
  cases hnotes with
  | accepted hprod => exact ⟨hle, ⟨rfl, hentered hprod⟩, hc, .inr (.inr (.inl rfl))⟩
  | @refused x hprod p hnot =>
    have hp' : ProducerRelated { a with producer := .idle } c.accepted p := by
      cases hcase : p with
      | putting y => exact absurd hcase (hnot y)
      | idle => exact ⟨rfl, hentered hprod⟩
      | ringing => exact ⟨rfl, hentered hprod⟩
    refine ⟨hle, hp', hc, ?_⟩
    rcases hheard with hnil | hpos | hring | hret' | hlook
    · exact .inl hnil
    · exact .inr (.inl hpos)
    · rw [hprod] at hring
      cases hring
    · rw [hret'] at hret
      cases hret
    · exact .inr (.inr (.inr (.inr hlook)))

/-- A step inside a call of the consumer: it leaves the producer's side as it is. -/
theorem Inv.consume (h : Inv a c) (c' : Control T) {consumer : AtomicQueue.Consumer T} {left : Nat}
    (hle : left ≤ a.entered.length)
    (hc : ConsumerRelated { a with left := left, consumer := consumer } c'.taken c'.consumer)
    (hp : c'.producer = c.producer) (haccepted : c'.accepted = c.accepted) (hrings : c'.rings = c.rings)
    (hlook : WillLook { a with left := left, consumer := consumer } c'.consumer ∨
      (a.entered.drop left = [] ∨ a.items ≠ [] ∧ ¬ WillLook a c.consumer)) :
    Inv { a with left := left, consumer := consumer } c' := by
  refine ⟨hle, ?_, hc, ?_⟩
  · rw [hp, haccepted]
    exact h.producer
  · rw [hp, hrings]
    rcases hlook with hlook | hnil | ⟨hne, hnot⟩
    · exact .inr (.inr (.inr (.inr hlook)))
    · exact .inl hnil
    · rcases h.heard with hnil | hpos | hring | hret | hlook
      · exact absurd hnil hne
      · exact .inr (.inl hpos)
      · exact .inr (.inr (.inl hring))
      · exact .inr (.inr (.inr (.inl hret)))
      · exact absurd hlook hnot

/-- The consumer's call as its program sees it. -/
theorem Inv.taking (h : Inv a c) (hbusy : a.consumer ≠ .idle) : c.consumer = .taking := by
  have hc := h.consumer
  cases hcons : c.consumer with
  | taking => rfl
  | _ =>
    rw [hcons] at hc
    exact absurd hc.1 hbusy

theorem Inv.taken_calling {seen : Bool} (h : Inv a c) (hcall : a.consumer = .calling seen) :
    c.consumer = .taking ∧ c.taken = a.entered.take a.left := by
  have htaking := h.taking fun hidle => by
    rw [hcall] at hidle
    cases hidle
  have hc := h.consumer
  rw [htaking] at hc
  rcases hc with ⟨_, _, heq⟩ | ⟨r, hret, _⟩
  · exact ⟨htaking, heq⟩
  · rw [hcall] at hret
    cases hret

theorem Inv.taken_returning {r : Option T} (h : Inv a c) (hret : a.consumer = .returning r) :
    c.consumer = .taking ∧ c.taken ++ r.toList = a.entered.take a.left := by
  have htaking := h.taking fun hidle => by
    rw [hret] at hidle
    cases hidle
  have hc := h.consumer
  rw [htaking] at hc
  rcases hc with ⟨_, hcall, _⟩ | ⟨r', hret', heq⟩
  · rw [hret] at hcall
    cases hcall
  · obtain rfl := AtomicQueue.Consumer.returning.inj (hret'.symm.trans hret)
    exact ⟨htaking, heq⟩

/-- The last call found nothing, and what has come since has been rung for. -/
theorem Inv.missed (h : Inv a c) (c' : Control T) (hnot : ¬ WillLook a c.consumer)
    {consumer : AtomicQueue.Consumer T}
    (hc : ConsumerRelated { a with consumer := consumer } c'.taken c'.consumer)
    (hp : c'.producer = c.producer) (haccepted : c'.accepted = c.accepted) (hrings : c'.rings = c.rings) :
    Inv { a with consumer := consumer } c' := by
  refine h.consume c' h.left_le hc hp haccepted hrings (.inr ?_)
  by_cases hnil : a.items = []
  · exact .inl hnil
  · exact .inr ⟨hnil, hnot⟩

theorem Inv.silent {e : AtomicQueue.Event T} (h : Inv a c) (hnext : a.next e = some ([], a')) :
    Inv a' c := by
  cases e with
  | enter =>
    simp only [State.next] at hnext
    split at hnext <;> cases hnext
    next hcall => exact h.enter hcall
  | refuse =>
    simp only [State.next] at hnext
    split at hnext <;> cases hnext
    next hcall => exact h.refuse hcall
  | look =>
    simp only [State.next] at hnext
    split at hnext
    · next hcall =>
      split at hnext <;> cases hnext
      next hempty =>
        obtain ⟨htaking, heq⟩ := h.taken_calling hcall
        refine h.consume c h.left_le ?_ rfl rfl rfl (.inr (.inl (List.drop_eq_nil_iff.2 hempty)))
        rw [htaking]
        exact .inl ⟨true, rfl, heq⟩
    · cases hnext
  | leave =>
    simp only [State.next] at hnext
    split at hnext <;> cases hnext
    next x hcall hx =>
      obtain ⟨htaking, heq⟩ := h.taken_calling hcall
      obtain ⟨hlt, -⟩ := List.getElem?_eq_some_iff.1 hx
      refine h.consume c hlt ?_ rfl rfl rfl (.inl ?_)
      · rw [htaking]
        refine .inr ⟨some x, rfl, ?_⟩
        rw [List.take_add_one, hx, heq]
      · rw [htaking]
        exact .inr ⟨x, rfl⟩
  | miss =>
    simp only [State.next] at hnext
    split at hnext <;> cases hnext
    next hcall =>
      obtain ⟨htaking, heq⟩ := h.taken_calling hcall
      refine h.missed c ?_ ?_ rfl rfl rfl
      · rw [htaking]
        rintro (hfalse | ⟨x, hret⟩)
        · rw [hcall] at hfalse
          cases hfalse
        · rw [hcall] at hret
          cases hret
      · rw [htaking]
        exact .inr ⟨none, rfl, by rw [heq]; exact List.append_nil _⟩
  | enqueue y =>
    simp only [State.next] at hnext
    split at hnext <;> cases hnext
  | enqueued =>
    simp only [State.next] at hnext
    split at hnext <;> cases hnext
  | dequeue =>
    simp only [State.next] at hnext
    split at hnext <;> cases hnext
  | dequeued =>
    simp only [State.next] at hnext
    split at hnext <;> cases hnext

theorem Inv.shows {e : AtomicQueue.Event T} {l : Label T} (h : Inv a c)
    (hnext : a.next e = some ([l], a')) (hnotes : c.Notes l c') : Inv a' c' := by
  cases e with
  | enqueue x =>
    simp only [State.next] at hnext
    split at hnext <;> cases hnext
    cases hnotes with
    | enqueue hidle =>
      have hp := h.producer
      rw [hidle] at hp
      refine ⟨h.left_le, .inl ⟨a.left, rfl, hp.2⟩, h.consumer, ?_⟩
      rcases h.heard with hnil | hpos | hring | hret | hlook
      · exact .inl hnil
      · exact .inr (.inl hpos)
      · rw [hidle] at hring
        cases hring
      · rw [hp.1] at hret
        cases hret
      · exact .inr (.inr (.inr (.inr hlook)))
  | enqueued =>
    simp only [State.next] at hnext
    split at hnext <;> cases hnext
    next hret => exact h.enqueued hret hnotes
  | dequeue =>
    simp only [State.next] at hnext
    split at hnext <;> cases hnext
    cases hnotes with
    | dequeue hlooking =>
      have hc := h.consumer
      rw [hlooking] at hc
      exact h.consume _ h.left_le (.inl ⟨false, rfl, hc.2⟩) rfl rfl rfl (.inl (.inl rfl))
  | dequeued =>
    simp only [State.next] at hnext
    split at hnext <;> cases hnext
    next r hret =>
      obtain ⟨htaking, heq⟩ := h.taken_returning hret
      cases hnotes with
      | taken _ x => exact h.consume _ h.left_le ⟨rfl, heq⟩ rfl rfl rfl (.inl trivial)
      | missed _ =>
        refine h.missed _ ?_ ⟨rfl, (List.append_nil _).symm.trans heq⟩ rfl rfl rfl
        rw [htaking]
        rintro (hcall | ⟨x, hret'⟩)
        · rw [hret] at hcall
          cases hcall
        · rw [hret] at hret'
          cases hret'
  | enter =>
    simp only [State.next] at hnext
    split at hnext <;> cases hnext
  | refuse =>
    simp only [State.next] at hnext
    split at hnext <;> cases hnext
  | look =>
    simp only [State.next] at hnext
    split at hnext
    · split at hnext <;> cases hnext
    · cases hnext
  | leave =>
    simp only [State.next] at hnext
    split at hnext <;> cases hnext
  | miss =>
    simp only [State.next] at hnext
    split at hnext <;> cases hnext

/-- A program keeps to the bell in the states it comes to, which are all `Ok`: `bell` is what
of its state the bell is about. -/
structure Follows {κ δ : Type*} (note : κ → Label T → Option κ) (act : κ → δ → Option κ)
    (bell : κ → Control T) (Ok : κ → Prop) : Prop where
  okNote : ∀ k l k', Ok k → note k l = some k' → Ok k'
  okAct : ∀ k d k', Ok k → act k d = some k' → Ok k'
  notes : ∀ k l k', Ok k → note k l = some k' → (bell k).Notes l (bell k')
  acts : ∀ k d k', Ok k → act k d = some k' → (bell k).Acts (bell k')

theorem length_le_one {e : AtomicQueue.Event T} (hnext : a.next e = some (out, a')) : out.length ≤ 1 := by
  cases e with
  | look =>
    simp only [State.next] at hnext
    split at hnext
    · split at hnext <;> cases hnext
      exact Nat.zero_le 1
    · cases hnext
  | _ =>
    simp only [State.next] at hnext
    split at hnext <;> cases hnext
    exact Nat.le_of_ble_eq_true rfl

variable {σ ε κ δ : Type*} {sys : History.System σ ε (Label T)} {R : State T → σ → Prop}
  {note : κ → Label T → Option κ} {act : κ → δ → Option κ} {bell : κ → Control T} {s₀ s : σ} {k₀ k : κ}
  {h : List (Label T ⊕ δ)} {Ok : κ → Prop}

theorem Follows.next (hfollows : Follows note act bell Ok) {e : AtomicQueue.Event T ⊕ δ}
    {out : List (Label T ⊕ δ)} {t : State T × κ} (hok : Ok k) (hinv : Inv a (bell k))
    (hnext : ((AtomicQueue.system T).guided note act).next (a, k) e = some (out, t)) :
    Ok t.2 ∧ Inv t.1 (bell t.2) := by
  rcases History.System.guided_cases hnext with ⟨e', out', hqueue, hnote, -⟩ | ⟨d, -, hact, hsame, -⟩
  · have hlen := length_le_one hqueue
    cases out' with
    | nil =>
      rw [← Option.some.inj hnote]
      exact ⟨hok, hinv.silent hqueue⟩
    | cons l more =>
      obtain rfl : more = [] := List.eq_nil_of_length_eq_zero (by simpa using hlen)
      have hone : note k l = some t.2 := by simpa using hnote
      exact ⟨hfollows.okNote _ _ _ hok hone, hinv.shows hqueue (hfollows.notes _ _ _ hok hone)⟩
  · rw [hsame]
    exact ⟨hfollows.okAct _ _ _ hok hact, hinv.acts (hfollows.acts _ _ _ hok hact)⟩

/-- Around a queue whose calls take effect at one moment each, the invariant holds in every
state that a program with a bell comes to. -/
theorem inv_of_runs (hfollows : Follows note act bell Ok) (hsim : History.Simulates (AtomicQueue.system T) sys R)
    (hrel : R (AtomicQueue.empty T) s₀) (hok : Ok k₀)
    (hbell : bell k₀ = ⟨.idle, .waiting, [], [], 0⟩) (hrun : (sys.guided note act).Runs (s₀, k₀) h (s, k)) :
    Ok k ∧ ∃ a, R a s ∧ Inv a (bell k) := by
  have hrel₀ : R ((AtomicQueue.empty T, k₀) : State T × κ).1 (s₀, k₀).1 ∧
      ((AtomicQueue.empty T, k₀) : State T × κ).2 = (s₀, k₀).2 := ⟨hrel, rfl⟩
  obtain ⟨⟨a, k'⟩, habs, hrel', rfl⟩ := hsim.guided.run hrel₀ hrun
  have hboth : Ok k' ∧ Inv a (bell k') :=
    @History.System.Runs.invariant _ _ _ _ _ _ _ (fun _ t => Ok t.2 ∧ Inv t.1 (bell t.2))
      (fun _ t e out t' hinv hnext => hfollows.next hinv.1 hinv.2 hnext) ⟨hok, hbell ▸ inv_start⟩ habs
  exact ⟨hboth.1, a, hrel', hboth.2⟩

end Doorbell
