import KjRedis.Conn.Subscriptions

/-! The commands a subscriber commits: a server that takes them in order holds the names
whose balance is positive, and none of the commands is wasted. -/
namespace KjRedis.Conn

/-- The subscriber and the commands committed so far, after one more call. -/
def emit (st : CRedisSubscriber × List Command) (call : SubscriberCall) :
    CRedisSubscriber × List Command :=
  ((st.1.perform call).1, st.2 ++ commandsOf (st.1.perform call).2.toList)

def emitted (calls : List SubscriberCall) : CRedisSubscriber × List Command :=
  calls.foldl emit (newSubscriber, [])

/-- A server that takes some commands. -/
def replay (held : Subscriptions) (commands : List Command) : Subscriptions :=
  commands.foldl (fun held command => (held.process command).1) held

/-- The command subscribes to a name that is not held, or ends a subscription that is. -/
def Useful (held : Subscriptions) (command : Command) : Prop :=
  ∃ name, command = [ascii "SUBSCRIBE", name] ∧ name ∉ held.channels ∨
    command = [ascii "UNSUBSCRIBE", name] ∧ name ∈ held.channels ∨
    command = [ascii "PSUBSCRIBE", name] ∧ name ∉ held.patterns ∨
    command = [ascii "PUNSUBSCRIBE", name] ∧ name ∈ held.patterns

def AllUseful : Subscriptions → List Command → Prop
  | _, [] => True
  | held, command :: commands => Useful held command ∧ AllUseful (held.process command).1 commands

/-- A subscribe adds one, an unsubscribe subtracts one but not below zero. -/
def channelBalance (channel : List UInt8) (calls : List SubscriberCall) : Nat :=
  calls.foldl (fun n call =>
    if call = .subscribe channel then n + 1
    else if call = .unsubscribe channel then n - 1
    else n) 0

def patternBalance (pattern : List UInt8) (calls : List SubscriberCall) : Nat :=
  calls.foldl (fun n call =>
    if call = .psubscribe pattern then n + 1
    else if call = .punsubscribe pattern then n - 1
    else n) 0

theorem allUseful_append {held : Subscriptions} {commands commands' : List Command} :
    AllUseful held (commands ++ commands') ↔
      AllUseful held commands ∧ AllUseful (replay held commands) commands' := by
  induction commands generalizing held with
  | nil => exact (and_iff_right trivial).symm
  | cons command commands ih =>
    rw [List.cons_append, AllUseful, AllUseful, ih, and_assoc]
    rfl

theorem replay_append (held : Subscriptions) (commands commands' : List Command) :
    replay held (commands ++ commands') = replay (replay held commands) commands' :=
  List.foldl_append

theorem HeldAfter.replay {held : Subscriptions} {commands : List Command}
    (h : HeldAfter held commands) (commands' : List Command) :
    HeldAfter (replay held commands') (commands ++ commands') := by
  induction commands' generalizing held commands with
  | nil =>
    rw [List.append_nil]
    exact h
  | cons command commands' ih =>
    rw [List.append_cons]
    exact ih (h.process command)

/-- The counts are the balances; only those of patterns can be below. -/
structure Balanced (calls : List SubscriberCall) (s : CRedisSubscriber) : Prop where
  channels : ∀ channel, (s.channelCounter channel).toInt = channelBalance channel calls
  patterns : ∀ pattern, max 0 (s.patternCounter pattern).toInt = patternBalance pattern calls

/-- The invariant. What is counted is what a server holds that has taken the commands. -/
structure Counting (calls : List SubscriberCall) (st : CRedisSubscriber × List Command) : Prop where
  sound : st.1.Sound
  counted : CountedAfter st.1 st.2
  held : HeldAfter (replay noSubscriptions st.2) st.2
  balanced : Balanced calls st.1
  useful : AllUseful noSubscriptions st.2

theorem counting_nil : Counting [] (newSubscriber, []) where
  sound := sound_newSubscriber
  counted := countedAfter_nil
  held := heldAfter_nil
  balanced := ⟨fun _ => rfl, fun _ => rfl⟩
  useful := trivial

theorem Counting.mem_channels {calls : List SubscriberCall} {st : CRedisSubscriber × List Command}
    (h : Counting calls st) (channel : List UInt8) :
    channel ∈ (replay noSubscriptions st.2).channels ↔ 0 < st.1.channelCounter channel := by
  rw [← decide_eq_decide, h.held.channels, h.counted.channels]

theorem Counting.mem_patterns {calls : List SubscriberCall} {st : CRedisSubscriber × List Command}
    (h : Counting calls st) (pattern : List UInt8) :
    pattern ∈ (replay noSubscriptions st.2).patterns ↔ 0 < st.1.patternCounter pattern := by
  rw [← decide_eq_decide, h.held.patterns, h.counted.patterns]

theorem channelBalance_append (channel : List UInt8) (calls : List SubscriberCall)
    (call : SubscriberCall) :
    channelBalance channel (calls ++ [call]) =
      if call = .subscribe channel then channelBalance channel calls + 1
      else if call = .unsubscribe channel then channelBalance channel calls - 1
      else channelBalance channel calls := List.foldl_append

theorem patternBalance_append (pattern : List UInt8) (calls : List SubscriberCall)
    (call : SubscriberCall) :
    patternBalance pattern (calls ++ [call]) =
      if call = .psubscribe pattern then patternBalance pattern calls + 1
      else if call = .punsubscribe pattern then patternBalance pattern calls - 1
      else patternBalance pattern calls := List.foldl_append

/-- Where they fit, the counts go up and down as integers do. -/
theorem toInt_add_one {n : Int32} (h : n ≠ Int32.maxValue) : (n + 1).toInt = n.toInt + 1 := by
  have hne : n.toInt ≠ 2 ^ 31 - 1 := fun heq => h (Int32.toInt_inj.1 heq)
  have hlow := n.le_toInt
  have hhigh := n.toInt_lt
  rw [Int32.toInt_add]
  exact Int.bmod_eq_of_le (by change _ ≤ n.toInt + 1; omega) (by change n.toInt + 1 < _; omega)

theorem toInt_sub_one {n : Int32} (h : n ≠ Int32.minValue) : (n - 1).toInt = n.toInt - 1 := by
  have hne : n.toInt ≠ -2 ^ 31 := fun heq => h (Int32.toInt_inj.1 heq)
  have hlow := n.le_toInt
  have hhigh := n.toInt_lt
  rw [Int32.toInt_sub]
  exact Int.bmod_eq_of_le (by change _ ≤ n.toInt - 1; omega) (by change n.toInt - 1 < _; omega)

theorem toInt_pos {n : Int32} : 0 < n ↔ 0 < n.toInt := Int32.lt_iff_toInt_lt

theorem toInt_update {counter : List UInt8 → Int32} {name other : List UInt8} {n : Int32} :
    (Function.update counter name n other).toInt =
      if other = name then n.toInt else (counter other).toInt := by
  rw [Function.update_apply]
  split <;> rfl

theorem counters_subscribe (s : CRedisSubscriber) (channel : List UInt8) :
    (s.subscribe channel).1.channelCounter =
        Function.update s.channelCounter channel (s.channelCounter channel + 1) ∧
      (s.subscribe channel).1.patternCounter = s.patternCounter := by
  rw [CRedisSubscriber.subscribe]
  split <;> exact ⟨rfl, rfl⟩

theorem counters_psubscribe (s : CRedisSubscriber) (pattern : List UInt8) :
    (s.psubscribe pattern).1.channelCounter = s.channelCounter ∧
      (s.psubscribe pattern).1.patternCounter = Function.update s.patternCounter pattern
        (if 0 ≥ s.patternCounter pattern then 0 + 1 else s.patternCounter pattern + 1) := by
  rw [CRedisSubscriber.psubscribe]
  split
  · exact ⟨rfl, rfl⟩
  · exact ⟨rfl, rfl⟩

theorem counters_unsubscribe (s : CRedisSubscriber) (channel : List UInt8) :
    (s.unsubscribe channel).1.channelCounter =
        (if 0 < s.channelCounter channel then
          Function.update s.channelCounter channel (s.channelCounter channel - 1)
        else s.channelCounter) ∧
      (s.unsubscribe channel).1.patternCounter = s.patternCounter := by
  rw [CRedisSubscriber.unsubscribe]
  by_cases hpos : 0 < s.channelCounter channel
  · simp only [if_pos hpos]
    split <;> exact ⟨rfl, rfl⟩
  · simp only [if_neg hpos, and_self]

theorem counters_punsubscribe (s : CRedisSubscriber) (pattern : List UInt8) :
    (s.punsubscribe pattern).1.channelCounter = s.channelCounter ∧
      (s.punsubscribe pattern).1.patternCounter =
        Function.update s.patternCounter pattern (s.patternCounter pattern - 1) := by
  rw [CRedisSubscriber.punsubscribe]
  split <;> exact ⟨rfl, rfl⟩

variable {calls : List SubscriberCall} {s : CRedisSubscriber}

/-- A call to another name, or of another kind, leaves the balance. -/
theorem Balanced.of_channels (h : Balanced calls s) {call : SubscriberCall} {s' : CRedisSubscriber}
    (hcall : ∀ pattern, call ≠ .psubscribe pattern ∧ call ≠ .punsubscribe pattern)
    (hpatterns : s'.patternCounter = s.patternCounter)
    (hchannels : ∀ channel, (s'.channelCounter channel).toInt =
      channelBalance channel (calls ++ [call])) : Balanced (calls ++ [call]) s' := by
  refine ⟨hchannels, fun pattern => ?_⟩
  rw [patternBalance_append, if_neg (hcall pattern).1, if_neg (hcall pattern).2, hpatterns]
  exact h.patterns pattern

theorem Balanced.of_patterns (h : Balanced calls s) {call : SubscriberCall} {s' : CRedisSubscriber}
    (hcall : ∀ channel, call ≠ .subscribe channel ∧ call ≠ .unsubscribe channel)
    (hchannels : s'.channelCounter = s.channelCounter)
    (hpatterns : ∀ pattern, max 0 (s'.patternCounter pattern).toInt =
      patternBalance pattern (calls ++ [call])) : Balanced (calls ++ [call]) s' := by
  refine ⟨fun channel => ?_, hpatterns⟩
  rw [channelBalance_append, if_neg (hcall channel).1, if_neg (hcall channel).2, hchannels]
  exact h.channels channel

theorem Balanced.call (h : Balanced calls s) (call : SubscriberCall) (hfits : s.Fits call) :
    Balanced (calls ++ [call]) (s.perform call).1 := by
  cases call with
  | subscribe channel =>
    obtain ⟨hchannels, hpatterns⟩ := counters_subscribe s channel
    refine h.of_channels (fun pattern => ⟨by simp, by simp⟩) hpatterns fun other => ?_
    have hcount := h.channels other
    show ((s.subscribe channel).1.channelCounter other).toInt = _
    rw [hchannels, toInt_update, toInt_add_one hfits, channelBalance_append]
    by_cases hname : other = channel
    · subst hname
      rw [if_pos rfl, if_pos rfl]
      omega
    · rw [if_neg hname, if_neg (by simpa using Ne.symm hname), if_neg (by simp)]
      exact hcount
  | psubscribe pattern =>
    obtain ⟨hchannels, hpatterns⟩ := counters_psubscribe s pattern
    refine h.of_patterns (fun channel => ⟨by simp, by simp⟩) hchannels fun other => ?_
    have hcount := h.patterns other
    show max 0 ((s.psubscribe pattern).1.patternCounter other).toInt = _
    rw [hpatterns, toInt_update, patternBalance_append]
    by_cases hname : other = pattern
    · subst hname
      have hpos := @toInt_pos (s.patternCounter other)
      rw [if_pos rfl, if_pos rfl]
      split
      next hle =>
        have hzero := mt hpos.2 (Int32.not_lt.2 hle)
        show max 0 (1 : Int) = _
        omega
      next hlt =>
        rw [toInt_add_one hfits]
        have := hpos.1 (Int32.not_le.1 hlt)
        omega
    · rw [if_neg hname, if_neg (by simpa using Ne.symm hname), if_neg (by simp)]
      exact hcount
  | unsubscribe channel =>
    obtain ⟨hchannels, hpatterns⟩ := counters_unsubscribe s channel
    refine h.of_channels (fun pattern => ⟨by simp, by simp⟩) hpatterns fun other => ?_
    have hcount := h.channels other
    show ((s.unsubscribe channel).1.channelCounter other).toInt = _
    rw [hchannels, channelBalance_append,
      if_neg (show ¬ SubscriberCall.unsubscribe channel = .subscribe other by simp)]
    by_cases hname : other = channel
    · subst hname
      have hpos := @toInt_pos (s.channelCounter other)
      rw [if_pos rfl]
      by_cases hlt : 0 < s.channelCounter other
      · have := hpos.1 hlt
        rw [if_pos hlt, Function.update_self, toInt_sub_one (by grind)]
        omega
      · have := mt hpos.2 hlt
        rw [if_neg hlt]
        omega
    · rw [if_neg (show ¬ SubscriberCall.unsubscribe channel = .unsubscribe other by
        simpa using Ne.symm hname)]
      by_cases hlt : 0 < s.channelCounter channel
      · rw [if_pos hlt, Function.update_of_ne hname]
        exact hcount
      · rw [if_neg hlt]
        exact hcount
  | punsubscribe pattern =>
    obtain ⟨hchannels, hpatterns⟩ := counters_punsubscribe s pattern
    refine h.of_patterns (fun channel => ⟨by simp, by simp⟩) hchannels fun other => ?_
    have hcount := h.patterns other
    show max 0 ((s.punsubscribe pattern).1.patternCounter other).toInt = _
    rw [hpatterns, toInt_update, toInt_sub_one hfits, patternBalance_append,
      if_neg (show ¬ SubscriberCall.punsubscribe pattern = .psubscribe other by simp)]
    by_cases hname : other = pattern
    · subst hname
      rw [if_pos rfl, if_pos rfl]
      omega
    · rw [if_neg hname, if_neg (by simpa using Ne.symm hname)]
      exact hcount

/-- A call commits a command only where it changes what a server holds that holds what is
counted. -/
theorem CRedisSubscriber.Sound.useful {held : Subscriptions} (h : s.Sound)
    (hchannels : ∀ channel, channel ∈ held.channels ↔ 0 < s.channelCounter channel)
    (hpatterns : ∀ pattern, pattern ∈ held.patterns ↔ 0 < s.patternCounter pattern)
    (call : SubscriberCall) : AllUseful held (commandsOf (s.perform call).2.toList) := by
  have hone : ∀ {work : CmdWork} {command : Command}, work.commands = [command] →
      Useful held command → AllUseful held (commandsOf [work]) := by
    intro work command hcommands huseful
    rw [commandsOf, List.flatMap_singleton, hcommands]
    exact ⟨huseful, trivial⟩
  cases call with
  | subscribe channel =>
    simp only [perform, subscribe]
    split
    next hzero =>
      apply hone (h.commitCommand _).2.2
      refine ⟨channel, .inl ⟨rfl, fun hmem => ?_⟩⟩
      have hpos := (hchannels channel).1 hmem
      grind
    next => trivial
  | psubscribe pattern =>
    simp only [perform, psubscribe]
    split
    next hzero =>
      apply hone (h.commitCommand _).2.2
      refine ⟨pattern, .inr (.inr (.inl ⟨rfl, fun hmem => ?_⟩))⟩
      have hpos := (hpatterns pattern).1 hmem
      grind
    next => trivial
  | unsubscribe channel =>
    simp only [perform, unsubscribe]
    split
    next hpos =>
      split
      next =>
        have hset := h.setChannel channel (show 0 ≤ s.channelCounter channel - 1 by grind)
        apply hone (hset.commitCommand _).2.2
        exact ⟨channel, .inr (.inl ⟨rfl, (hchannels channel).2 hpos⟩)⟩
      next => trivial
    next => trivial
  | punsubscribe pattern =>
    simp only [perform, punsubscribe]
    split
    next hzero =>
      have hset := h.setPattern pattern (s.patternCounter pattern - 1)
      apply hone (hset.commitCommand _).2.2
      refine ⟨pattern, .inr (.inr (.inr ⟨rfl, (hpatterns pattern).2 ?_⟩))⟩
      grind
    next => trivial

theorem Counting.call {st : CRedisSubscriber × List Command} (h : Counting calls st)
    (call : SubscriberCall) (hfits : st.1.Fits call) : Counting (calls ++ [call]) (emit st call) := by
  have hcall := h.sound.call call hfits
  refine ⟨hcall.sound, h.counted.call hcall, ?_, h.balanced.call call hfits, ?_⟩
  · rw [emit, replay_append]
    exact h.held.replay _
  · rw [emit, allUseful_append]
    exact ⟨h.useful, h.sound.useful h.mem_channels h.mem_patterns call⟩

theorem emitted_append (calls : List SubscriberCall) (call : SubscriberCall) :
    emitted (calls ++ [call]) = emit (emitted calls) call := List.foldl_append

/-- None of the calls takes a count out of an `int`. -/
def CountsFit (calls : List SubscriberCall) : Prop :=
  ∀ before call after, calls = before ++ call :: after → (emitted before).1.Fits call

theorem CountsFit.before {call : SubscriberCall} (h : CountsFit (calls ++ [call])) :
    CountsFit calls ∧ (emitted calls).1.Fits call := by
  refine ⟨fun before c after heq => h before c (after ++ [call]) ?_, h calls call [] rfl⟩
  rw [heq, List.append_assoc, List.cons_append]

theorem counting (hfits : CountsFit calls) : Counting calls (emitted calls) := by
  induction calls using List.reverseRecOn with
  | nil => exact counting_nil
  | append_singleton calls call ih =>
    obtain ⟨hbefore, hcall⟩ := hfits.before
    rw [emitted_append]
    exact (ih hbefore).call call hcall

/-- A server that takes the commands of some calls in order holds just the names whose
balance is positive, and each command changes what it holds. -/
def CountsReferences (calls : List SubscriberCall) : Prop :=
  (∀ channel, channel ∈ (replay noSubscriptions (emitted calls).2).channels ↔
      0 < channelBalance channel calls) ∧
    (∀ pattern, pattern ∈ (replay noSubscriptions (emitted calls).2).patterns ↔
      0 < patternBalance pattern calls) ∧
    AllUseful noSubscriptions (emitted calls).2

/-- So it is for all calls none of which takes a count out of an `int`. -/
theorem replay_emitted (calls : List SubscriberCall) (hfits : CountsFit calls) :
    CountsReferences calls := by
  have h := counting hfits
  refine ⟨fun channel => ?_, fun pattern => ?_, h.useful⟩
  · rw [h.mem_channels, toInt_pos, h.balanced.channels]
    exact Int.natCast_pos
  · have hbalance := h.balanced.patterns pattern
    rw [h.mem_patterns, toInt_pos]
    omega

/-- A channel twice subscribed to and a pattern unsubscribed from before it is subscribed to. -/
theorem replay_emitted_names : CountsReferences
    [.subscribe [99], .punsubscribe [42], .subscribe [99], .psubscribe [42], .unsubscribe [99]] := by
  refine replay_emitted _ fun before call after heq => ?_
  match before, heq with
  | [], heq => cases heq; exact show (0 : Int32) ≠ _ by decide
  | [_], heq => cases heq; exact show (0 : Int32) ≠ _ by decide
  | [_, _], heq => cases heq; exact show (1 : Int32) ≠ _ by decide
  | [_, _, _], heq => cases heq; exact show (-1 : Int32) ≠ _ by decide
  | [_, _, _, _], heq => cases heq; trivial
  | _ :: _ :: _ :: _ :: _ :: before, heq => simp at heq

/-- Below zero a pattern's count goes on to the end of an `int`, and then is above zero. -/
theorem emitted_punsubscribes (name : List UInt8) {n : Nat} (hn : n < 2 ^ 32) :
    (emitted (List.replicate n (.punsubscribe name))).2 = [] ∧
      ((emitted (List.replicate n (.punsubscribe name))).1.patternCounter name).toInt =
        (-n : Int).bmod (2 ^ 32) := by
  induction n with
  | zero => exact ⟨rfl, rfl⟩
  | succ n ih =>
    obtain ⟨hcommands, hcount⟩ := ih (Nat.lt_of_succ_lt hn)
    rw [List.replicate_succ', emitted_append]
    generalize emitted (List.replicate n (.punsubscribe name)) = st at hcommands hcount
    have hnext : (st.1.patternCounter name - 1).toInt = (-(n + 1 : Nat) : Int).bmod (2 ^ 32) := by
      rw [Int32.toInt_sub, hcount]
      show ((-n : Int).bmod (2 ^ 32) - 1).bmod (2 ^ 32) = _
      rw [Int.bmod_sub_bmod, Int.natCast_succ, Int.neg_add, Int.sub_eq_add_neg]
    have hne : 0 ≠ st.1.patternCounter name - 1 := by
      intro hzero
      rw [← hzero] at hnext
      have hmod := Int.bmod_emod (x := (-(n + 1 : Nat) : Int)) (m := 2 ^ 32)
      rw [← hnext] at hmod
      change (0 : Int) % 4294967296 = (-(n + 1 : Nat)) % 4294967296 at hmod
      omega
    constructor
    · show st.2 ++ commandsOf (st.1.punsubscribe name).2.toList = []
      rw [CRedisSubscriber.punsubscribe, if_neg hne, hcommands]
      rfl
    · show ((st.1.punsubscribe name).1.patternCounter name).toInt = _
      rw [(counters_punsubscribe st.1 name).2, Function.update_self]
      exact hnext

theorem patternBalance_punsubscribes (name : List UInt8) (n : Nat) :
    patternBalance name (List.replicate n (.punsubscribe name)) = 0 := by
  induction n with
  | zero => rfl
  | succ n ih =>
    rw [List.replicate_succ', patternBalance_append, if_neg (by simp), if_pos rfl, ih]

/-- `2 ^ 31 + 1` unsubscribes of a pattern that was never subscribed to, then a subscribe. -/
theorem not_countsReferences : ¬ ∀ calls, CountsReferences calls := by
  intro h
  obtain ⟨hcommands, hcount⟩ := @emitted_punsubscribes [97] (2 ^ 31 + 1) (by decide)
  have hholds := (h (List.replicate (2 ^ 31 + 1) (.punsubscribe [97]) ++ [.psubscribe [97]])).2.1 [97]
  rw [patternBalance_append, patternBalance_punsubscribes, emitted_append] at hholds
  generalize emitted (List.replicate (2 ^ 31 + 1) (.punsubscribe [97])) = st
    at hcommands hcount hholds
  have hpos : ¬ 0 ≥ st.1.patternCounter [97] := by
    refine Int32.not_le.2 (toInt_pos.2 ?_)
    rw [hcount]
    decide
  have hnone : (emit st (.psubscribe [97])).2 = [] := by
    show st.2 ++ commandsOf (st.1.psubscribe [97]).2.toList = []
    rw [CRedisSubscriber.psubscribe, if_neg hpos, hcommands]
    rfl
  rw [hnone] at hholds
  exact absurd (hholds.2 (by decide)) List.not_mem_nil

end KjRedis.Conn
