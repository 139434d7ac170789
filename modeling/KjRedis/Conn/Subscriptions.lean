import KjRedis.Conn.Subscriber
import KjRedis.Lib.Overwrite

/-! Whether the server holds the subscriptions that are counted. It holds those of the
commands written on the current connection; the counts are those of all that was ever
committed. -/
namespace KjRedis.Conn

open KjRedisConn

/-- What a command does to a name: `on` subscribes, `off` ends the subscription. -/
def turn (on off name : List UInt8) (command : Command) : Option Bool :=
  if command = [on, name] then some true
  else if command = [off, name] then some false
  else none

theorem turn_eq_some_true {on off name : List UInt8} {command : Command} :
    turn on off name command = some true ↔ command = [on, name] := by
  rw [turn]
  split
  next h => exact iff_of_true rfl h
  next h =>
    refine iff_of_false (fun hturn => ?_) h
    split at hturn <;> cases hturn

/-- A name that is held in the end was held at the start, or is subscribed to. -/
theorem run_turn_cases {on off name : List UInt8} {held : Bool} {commands : List Command}
    (h : Overwrite.run (turn on off name) held commands = true) :
    held = true ∨ [on, name] ∈ commands := by
  rcases @Overwrite.run_cases _ _ (turn on off name) held commands with hstart | ⟨command, hmem, hturn⟩
  · exact .inl (hstart.symm.trans h)
  · rw [h] at hturn
    exact .inr (turn_eq_some_true.1 hturn ▸ hmem)

/-- Whether the commands that remain have the effect of all of them. -/
theorem run_turn_suffix {on off name : List UInt8} {old rest : List Command} :
    Overwrite.run (turn on off name) false rest = Overwrite.run (turn on off name) false (old ++ rest) ↔
      (Overwrite.run (turn on off name) false (old ++ rest) = true → [on, name] ∈ rest) := by
  rw [Overwrite.run_suffix]
  refine imp_congr_right fun _ => ⟨?_, fun hmem => ⟨_, hmem, turn_eq_some_true.2 rfl⟩⟩
  rintro ⟨command, hmem, hturn⟩
  exact turn_eq_some_true.1 hturn ▸ hmem

def channelTurn (channel : List UInt8) : Command → Option Bool :=
  turn (ascii "SUBSCRIBE") (ascii "UNSUBSCRIBE") channel

def patternTurn (pattern : List UInt8) : Command → Option Bool :=
  turn (ascii "PSUBSCRIBE") (ascii "PUNSUBSCRIBE") pattern

theorem mem_addName {name other : List UInt8} {names : List (List UInt8)} :
    other ∈ addName name names ↔ other = name ∨ other ∈ names := by
  rw [addName]
  split
  next h =>
    refine ⟨.inr, fun hor => ?_⟩
    rcases hor with rfl | hmem
    · exact h
    · exact hmem
  next => exact List.mem_cons

theorem mem_removeName {name other : List UInt8} {names : List (List UInt8)} :
    other ∈ removeName name names ↔ other ∈ names ∧ other ≠ name := by
  rw [removeName, List.mem_filter]
  simp

theorem turn_pair (on off name word other : List UInt8) :
    turn on off name [word, other] =
      if word = on ∧ other = name then some true
      else if word = off ∧ other = name then some false else none := by
  simp only [turn, List.cons.injEq, and_true]

theorem turn_of_length {on off name : List UInt8} {command : Command} (h : command.length ≠ 2) :
    turn on off name command = none := by
  have hne : ∀ word, command ≠ [word, name] := by
    rintro word rfl
    exact h rfl
  rw [turn, if_neg (hne on), if_neg (hne off)]

theorem turn_on {on off name other : List UInt8} {names : List (List UInt8)} :
    decide (name ∈ addName other names) =
      (turn on off name [on, other]).getD (decide (name ∈ names)) := by
  rw [turn_pair]
  by_cases h : other = name
  · rw [if_pos ⟨rfl, h⟩, h]
    exact decide_eq_true (mem_addName.2 (.inl rfl))
  · rw [if_neg (fun h' => h h'.2), if_neg (fun h' => h h'.2), Option.getD_none]
    exact decide_eq_decide.2 (mem_addName.trans (or_iff_right (Ne.symm h)))

theorem turn_off {on off name other : List UInt8} {names : List (List UInt8)} (hne : off ≠ on) :
    decide (name ∈ removeName other names) =
      (turn on off name [off, other]).getD (decide (name ∈ names)) := by
  rw [turn_pair, if_neg fun h => hne h.1]
  by_cases h : other = name
  · rw [if_pos ⟨rfl, h⟩, h]
    exact decide_eq_false fun hmem => (mem_removeName.1 hmem).2 rfl
  · rw [if_neg (fun h' => h h'.2), Option.getD_none]
    exact decide_eq_decide.2 (mem_removeName.trans (and_iff_left (Ne.symm h)))

theorem turn_other {on off name word other : List UInt8} (hon : word ≠ on) (hoff : word ≠ off) :
    turn on off name [word, other] = none := by
  rw [turn_pair, if_neg fun h => hon h.1, if_neg fun h => hoff h.1]

/-- What the server holds of a name is what the commands turn it to. -/
theorem process_turns (s : Subscriptions) (command : Command) (name : List UInt8) :
    decide (name ∈ (s.process command).1.channels) =
        (channelTurn name command).getD (decide (name ∈ s.channels)) ∧
      decide (name ∈ (s.process command).1.patterns) =
        (patternTurn name command).getD (decide (name ∈ s.patterns)) := by
  unfold channelTurn patternTurn
  match command with
  | [word, other] =>
    simp only [Subscriptions.process]
    split
    next h =>
      subst h
      exact ⟨turn_on, by rw [turn_other (by decide) (by decide)]; rfl⟩
    next h₁ =>
      split
      next h =>
        subst h
        exact ⟨by rw [turn_other (by decide) (by decide)]; rfl, turn_on⟩
      next h₂ =>
        split
        next h =>
          subst h
          exact ⟨turn_off (by decide), by rw [turn_other (by decide) (by decide)]; rfl⟩
        next h₃ =>
          split
          next h =>
            subst h
            exact ⟨by rw [turn_other (by decide) (by decide)]; rfl, turn_off (by decide)⟩
          next h₄ => exact ⟨by rw [turn_other h₁ h₃]; rfl, by rw [turn_other h₂ h₄]; rfl⟩
  | [] => exact ⟨rfl, rfl⟩
  | [word] =>
    have hlen : [word].length ≠ 2 := by simp
    exact ⟨by rw [turn_of_length hlen]; rfl, by rw [turn_of_length hlen]; rfl⟩
  | word :: piece :: other :: pieces =>
    have hlen : (word :: piece :: other :: pieces).length ≠ 2 := by simp
    exact ⟨by rw [turn_of_length hlen]; rfl, by rw [turn_of_length hlen]; rfl⟩

/-- The pipelines of a subscriber hold one command each. -/
structure CmdWork.IsSingle (work : CmdWork) : Prop where
  user : work.IsUser
  builtNum : work.builtNum = 1
  length : work.commands.length = 1

/-- Nothing built waits to be committed. -/
structure CRedisSubscriber.Sound (s : CRedisSubscriber) : Prop where
  client : s.toCRedisClient.Sound
  commands : s.commands = []
  channels : ∀ channel, 0 ≤ s.channelCounter channel

theorem sound_newSubscriber : newSubscriber.Sound :=
  ⟨sound_newClient, rfl, fun _ => Int32.le_refl 0⟩

theorem CRedisSubscriber.Sound.commitCommand {s : CRedisSubscriber} (h : s.Sound) (vPiece : Command) :
    (s.commitCommand vPiece).1.Sound ∧ (s.commitCommand vPiece).2.IsSingle ∧
      (s.commitCommand vPiece).2.commands = [vPiece] := by
  have hcommands : (s.commitCommand vPiece).2.commands = [vPiece] := by
    show s.commands ++ [vPiece] = [vPiece]
    rw [h.commands, List.nil_append]
  have hbuilt : (s.commitCommand vPiece).2.builtNum = 1 := by
    show s.builtNum + 1 = 1
    rw [h.client.builtNum, h.commands, List.length_nil]
  obtain ⟨hclient, -, -⟩ := h.client.perform (.buildCommand vPiece)
  obtain ⟨hclient, hwork, -⟩ := hclient.commitWith false
  exact ⟨⟨hclient, rfl, h.channels⟩, ⟨hwork.user, hbuilt, by rw [hcommands]; rfl⟩, hcommands⟩

variable {counter : List UInt8 → Int32} {on off name other : List UInt8} {nCount : Int32}

theorem counted_on (h : 0 < nCount) :
    decide (0 < Function.update counter other nCount name) =
      (turn on off name [on, other]).getD (decide (0 < counter name)) := by
  rw [turn_pair]
  by_cases hname : name = other
  · subst hname
    rw [if_pos ⟨rfl, rfl⟩, Function.update_self]
    exact decide_eq_true h
  · rw [if_neg fun h' => hname h'.2.symm, if_neg fun h' => hname h'.2.symm,
      Function.update_of_ne hname]
    rfl

theorem counted_off (hne : off ≠ on) (h : ¬ 0 < nCount) :
    decide (0 < Function.update counter other nCount name) =
      (turn on off name [off, other]).getD (decide (0 < counter name)) := by
  rw [turn_pair, if_neg fun h' => hne h'.1]
  by_cases hname : name = other
  · subst hname
    rw [if_pos ⟨rfl, rfl⟩, Function.update_self]
    exact decide_eq_false h
  · rw [if_neg fun h' => hname h'.2.symm, Function.update_of_ne hname]
    rfl

/-- A count that stays above or not above zero needs no command. -/
theorem counted_same (h : 0 < nCount ↔ 0 < counter other) :
    decide (0 < Function.update counter other nCount name) = decide (0 < counter name) := by
  by_cases hname : name = other
  · subst hname
    rw [Function.update_self]
    exact decide_eq_decide.2 h
  · rw [Function.update_of_ne hname]

/-- What a name is after some commands. -/
def channelAfter (channel : List UInt8) (held : Bool) (commands : List Command) : Bool :=
  Overwrite.run (channelTurn channel) held commands

def patternAfter (pattern : List UInt8) (held : Bool) (commands : List Command) : Bool :=
  Overwrite.run (patternTurn pattern) held commands

/-- A call's counts and commands agree. -/
structure Agrees (s s' : CRedisSubscriber) (works : List CmdWork) : Prop where
  sound : s'.Sound
  single : ∀ work ∈ works, work.IsSingle
  channels : ∀ channel, decide (0 < s'.channelCounter channel) =
    channelAfter channel (decide (0 < s.channelCounter channel)) (commandsOf works)
  patterns : ∀ pattern, decide (0 < s'.patternCounter pattern) =
    patternAfter pattern (decide (0 < s.patternCounter pattern)) (commandsOf works)

theorem CRedisSubscriber.Sound.setChannel {s : CRedisSubscriber} (h : s.Sound)
    (channel : List UInt8) (hcount : 0 ≤ nCount) : (s.setChannel channel nCount).Sound := by
  refine ⟨h.client, h.commands, fun name => ?_⟩
  show 0 ≤ Function.update s.channelCounter channel nCount name
  by_cases hname : name = channel
  · subst hname
    rw [Function.update_self]
    exact hcount
  · rw [Function.update_of_ne hname]
    exact h.channels name

theorem CRedisSubscriber.Sound.setPattern {s : CRedisSubscriber} (h : s.Sound)
    (pattern : List UInt8) (nCount : Int32) : (s.setPattern pattern nCount).Sound :=
  ⟨h.client, h.commands, h.channels⟩

/-- A call that sends one command. -/
theorem agrees_sent {s s' : CRedisSubscriber} {work : CmdWork} {word : List UInt8}
    (hsound : s'.Sound) (hwork : work.IsSingle) (hcommands : work.commands = [[word, other]])
    (hchannels : ∀ channel, decide (0 < s'.channelCounter channel) =
      (channelTurn channel [word, other]).getD (decide (0 < s.channelCounter channel)))
    (hpatterns : ∀ pattern, decide (0 < s'.patternCounter pattern) =
      (patternTurn pattern [word, other]).getD (decide (0 < s.patternCounter pattern))) :
    Agrees s s' [work] := by
  have hcommandsOf : commandsOf [work] = [[word, other]] := by
    rw [commandsOf, List.flatMap_singleton, hcommands]
  refine ⟨hsound, List.forall_mem_singleton.2 hwork, ?_, ?_⟩
  · rw [hcommandsOf]
    exact hchannels
  · rw [hcommandsOf]
    exact hpatterns

theorem CRedisSubscriber.Sound.call {s : CRedisSubscriber} (h : s.Sound) (call : SubscriberCall)
    (hfits : s.Fits call) : Agrees s (s.perform call).1 (s.perform call).2.toList := by
  cases call with
  | subscribe channel =>
    have hcount := h.channels channel
    have hmax : s.channelCounter channel ≠ Int32.maxValue := hfits
    simp only [perform, subscribe]
    split
    next hzero =>
      obtain ⟨hsound, hwork, hcommands⟩ := h.commitCommand [ascii "SUBSCRIBE", channel]
      apply agrees_sent (hsound.setChannel channel (by grind)) hwork hcommands
      · exact fun name => counted_on (by grind)
      · intro name
        rw [patternTurn, turn_other (by decide) (by decide)]
        rfl
    next hzero =>
      exact ⟨h.setChannel channel (by grind), fun _ hwork => absurd hwork List.not_mem_nil,
        fun name => counted_same (by grind), fun name => rfl⟩
  | psubscribe pattern =>
    have hmax : s.patternCounter pattern ≠ Int32.maxValue := hfits
    simp only [perform, psubscribe]
    split
    next hzero =>
      obtain ⟨hsound, hwork, hcommands⟩ := h.commitCommand [ascii "PSUBSCRIBE", pattern]
      apply agrees_sent (hsound.setPattern pattern _) hwork hcommands
      · intro name
        rw [channelTurn, turn_other (by decide) (by decide)]
        rfl
      · exact fun name => counted_on (by grind)
    next hzero =>
      exact ⟨h.setPattern pattern _, fun _ hwork => absurd hwork List.not_mem_nil,
        fun name => rfl, fun name => counted_same (by grind)⟩
  | unsubscribe channel =>
    simp only [perform, unsubscribe]
    split
    next hpos =>
      have hset := h.setChannel channel (show 0 ≤ s.channelCounter channel - 1 by grind)
      split
      next hzero =>
        obtain ⟨hsound, hwork, hcommands⟩ := hset.commitCommand [ascii "UNSUBSCRIBE", channel]
        apply agrees_sent hsound hwork hcommands
        · exact fun name => counted_off (by decide) (by grind)
        · intro name
          rw [patternTurn, turn_other (by decide) (by decide)]
          rfl
      next hzero =>
        exact ⟨hset, fun _ hwork => absurd hwork List.not_mem_nil,
          fun name => counted_same (by grind), fun name => rfl⟩
    next hpos =>
      exact ⟨h, fun _ hwork => absurd hwork List.not_mem_nil, fun name => rfl, fun name => rfl⟩
  | punsubscribe pattern =>
    simp only [perform, punsubscribe]
    have hmin : s.patternCounter pattern ≠ Int32.minValue := hfits
    have hset := h.setPattern pattern (s.patternCounter pattern - 1)
    split
    next hzero =>
      obtain ⟨hsound, hwork, hcommands⟩ := hset.commitCommand [ascii "PUNSUBSCRIBE", pattern]
      apply agrees_sent hsound hwork hcommands
      · intro name
        rw [channelTurn, turn_other (by decide) (by decide)]
        rfl
      · exact fun name => counted_off (by decide) (by grind)
    next hzero =>
      exact ⟨hset, fun _ hwork => absurd hwork List.not_mem_nil,
        fun name => rfl, fun name => counted_same (by grind)⟩

/-- What a server holds that has taken these commands, from the first of a connection. -/
structure HeldAfter (held : Subscriptions) (commands : List Command) : Prop where
  channels : ∀ channel, decide (channel ∈ held.channels) = channelAfter channel false commands
  patterns : ∀ pattern, decide (pattern ∈ held.patterns) = patternAfter pattern false commands

/-- What a subscriber counts that has committed these commands. -/
structure CountedAfter (s : CRedisSubscriber) (commands : List Command) : Prop where
  channels : ∀ channel, decide (0 < s.channelCounter channel) = channelAfter channel false commands
  patterns : ∀ pattern, decide (0 < s.patternCounter pattern) = patternAfter pattern false commands

theorem heldAfter_nil : HeldAfter noSubscriptions [] :=
  ⟨fun _ => decide_eq_false List.not_mem_nil, fun _ => decide_eq_false List.not_mem_nil⟩

theorem countedAfter_nil : CountedAfter newSubscriber [] := ⟨fun _ => rfl, fun _ => rfl⟩

theorem HeldAfter.process {held : Subscriptions} {commands : List Command}
    (h : HeldAfter held commands) (command : Command) :
    HeldAfter (held.process command).1 (commands ++ [command]) := by
  constructor
  · intro channel
    rw [(process_turns held command channel).1, h.channels channel, channelAfter, channelAfter,
      Overwrite.run_append]
    rfl
  · intro pattern
    rw [(process_turns held command pattern).2, h.patterns pattern, patternAfter, patternAfter,
      Overwrite.run_append]
    rfl

theorem CountedAfter.call {s s' : CRedisSubscriber} {commands : List Command} {works : List CmdWork}
    (h : CountedAfter s commands) (hcall : Agrees s s' works) :
    CountedAfter s' (commands ++ commandsOf works) := by
  constructor
  · intro channel
    rw [hcall.channels channel, h.channels channel, channelAfter, channelAfter, channelAfter,
      Overwrite.run_append]
  · intro pattern
    rw [hcall.patterns pattern, h.patterns pattern, patternAfter, patternAfter, patternAfter,
      Overwrite.run_append]

/-- A name that a call makes counted it subscribes to. -/
theorem resubscribed_call {s s' : CRedisSubscriber} {commands : List Command} {works : List CmdWork}
    (h : SubscriberService.Resubscribed s commands) (hcall : Agrees s s' works) :
    SubscriberService.Resubscribed s' (commands ++ commandsOf works) := by
  constructor
  · intro channel hpos
    have hafter := hcall.channels channel
    rw [decide_eq_true hpos] at hafter
    rcases run_turn_cases hafter.symm with hstart | hmem
    · exact List.mem_append_left _ (h.1 channel (of_decide_eq_true hstart))
    · exact List.mem_append_right _ hmem
  · intro pattern hpos
    have hafter := hcall.patterns pattern
    rw [decide_eq_true hpos] at hafter
    rcases run_turn_cases hafter.symm with hstart | hmem
    · exact List.mem_append_left _ (h.2 pattern (of_decide_eq_true hstart))
    · exact List.mem_append_right _ hmem

/-- The commands that no name depends on. -/
def Neutral (command : Command) : Prop :=
  ∀ name, channelTurn name command = none ∧ patternTurn name command = none

/-- A server that has seen the last of the commands holds what is counted just when these
subscribe to all of it. -/
theorem resubscribed_iff {held : Subscriptions} {s : CRedisSubscriber}
    {init old rest : List Command} (hinit : ∀ command ∈ init, Neutral command)
    (hheld : HeldAfter held (init ++ rest)) (hcounted : CountedAfter s (old ++ rest)) :
    ((∀ channel, channel ∈ held.channels ↔ 0 < s.channelCounter channel) ∧
        ∀ pattern, pattern ∈ held.patterns ↔ 0 < s.patternCounter pattern) ↔
      SubscriberService.Resubscribed s rest := by
  have hskip : ∀ {turn : Command → Option Bool}, (∀ command ∈ init, turn command = none) →
      Overwrite.run turn false (init ++ rest) = Overwrite.run turn false rest := by
    intro turn hnone
    rw [Overwrite.run_append, Overwrite.run_of_none hnone]
  apply and_congr
  · apply forall_congr'
    intro channel
    rw [← @decide_eq_decide (channel ∈ held.channels), hheld.channels, hcounted.channels,
      channelAfter, channelAfter, hskip fun command h => (hinit command h channel).1]
    refine run_turn_suffix.trans ?_
    rw [← decide_eq_true_iff (p := 0 < s.channelCounter channel), hcounted.channels]
    rfl
  · apply forall_congr'
    intro pattern
    rw [← @decide_eq_decide (pattern ∈ held.patterns), hheld.patterns, hcounted.patterns,
      patternAfter, patternAfter, hskip fun command h => (hinit command h pattern).2]
    refine run_turn_suffix.trans ?_
    rw [← decide_eq_true_iff (p := 0 < s.patternCounter pattern), hcounted.patterns]
    rfl

/-- A pipeline that one reply completes, and whose callback does not throw. -/
structure CmdWork.OneReply (work : CmdWork) : Prop where
  counted : work.Counted
  length : work.commands.length = 1
  noThrow : ∀ r, work.throwsOn r = false

theorem CmdWork.IsSingle.oneReply {work : CmdWork} (h : work.IsSingle) : work.OneReply := by
  refine ⟨h.builtNum.trans h.length.symm, h.length, fun r => ?_⟩
  rw [CmdWork.throwsOn, h.user.replyCb]
  rfl

theorem subscriberInit_mem {param : RedisStubParam} {cp : CmdPipeline}
    (h : cp ∈ subscriberInit param) :
    cp.replyCb = none ∧ cp.commands = [[ascii "AUTH", param.sPassword]] := by
  rw [subscriberInit, authPipelines] at h
  split at h
  · cases h
  · obtain rfl := List.mem_singleton.1 h
    exact ⟨rfl, rfl⟩

theorem oneReply_init {param : RedisStubParam} {cp : CmdPipeline} (h : cp ∈ subscriberInit param) :
    cp.toCmdWork.OneReply := by
  have hinit := isInit_auth param cp h
  refine ⟨hinit.counted, hinit.length, fun r => ?_⟩
  rw [CmdWork.throwsOn, (subscriberInit_mem h).1]
  rfl

theorem neutral_init (param : RedisStubParam) :
    ∀ command ∈ commandsOf ((subscriberInit param).map (·.toCmdWork)), Neutral command := by
  intro command hmem
  obtain ⟨work, hwork, hcommand⟩ := List.mem_flatMap.1 hmem
  obtain ⟨cp, hcp, rfl⟩ := List.mem_map.1 hwork
  rw [(subscriberInit_mem hcp).2] at hcommand
  obtain rfl := List.mem_singleton.1 hcommand
  exact fun name => ⟨turn_other (by decide) (by decide), turn_other (by decide) (by decide)⟩

/-- No pipeline in the deque has been answered in part. -/
structure Untouched (c : KjRedisConn Unit) : Prop where
  only : Only CmdWork.OneReply c
  fresh : ∀ cp ∈ c.dqCommon, cp.processedNum = 0

variable {c c' : KjRedisConn Unit}

theorem writeSending_processed {ok : Nat} {dq : List CmdPipeline} {cp : CmdPipeline}
    (h : cp ∈ (writeSending ok dq).1) : ∃ cp' ∈ dq, cp'.processedNum = cp.processedNum := by
  induction dq generalizing ok with
  | nil => cases h
  | cons cp' dq ih =>
    have htail : ∀ {ok}, cp ∈ (writeSending ok dq).1 →
        ∃ cp'' ∈ cp' :: dq, cp''.processedNum = cp.processedNum := by
      intro ok h
      obtain ⟨cp'', hmem, heq⟩ := ih h
      exact ⟨cp'', List.mem_cons_of_mem cp' hmem, heq⟩
    by_cases hs : cp'.state = .sending
    · cases ok with
      | zero =>
        rw [writeSending_throw dq hs] at h
        exact ⟨cp, h, rfl⟩
      | succ ok =>
        rw [writeSending_write dq hs] at h
        rcases List.mem_cons.1 h with rfl | h
        · exact ⟨cp', List.mem_cons_self, rfl⟩
        · exact htail h
    · rw [writeSending_skip dq hs] at h
      rcases List.mem_cons.1 h with rfl | h
      · exact ⟨cp, List.mem_cons_self, rfl⟩
      · exact htail h

theorem Untouched.commitLoop (h : Untouched c) (ok : Option Nat) : Untouched (c.commitLoop ok).1 := by
  refine ⟨h.only.commitLoop ok, ?_⟩
  rw [KjRedisConn.commitLoop]
  split
  · intro cp hcp
    obtain ⟨cp', hmem, heq⟩ := writeSending_processed hcp
    exact heq ▸ h.fresh cp' hmem
  · exact h.fresh

theorem Untouched.commit (h : Untouched c) (ok : Option Nat) : Untouched (c.commit ok) := by
  rw [KjRedisConn.commit]
  split
  · exact h
  · have hloop := h.commitLoop ok
    split
    next c' threw heq =>
      rw [heq] at hloop
      split
      · exact ⟨{ hloop.only with }, hloop.fresh⟩
      · exact hloop

/-- The first reply of a pipeline is its last. -/
theorem Untouched.onReply (h : Untouched c) (r : CRedisReply) : Untouched (c.onReply r).1 := by
  refine ⟨h.only.onReply r, ?_⟩
  have hone : ∀ {cp dq}, c.dqCommon = cp :: dq → cp.toCmdWork.OneReply := by
    intro cp dq hdq
    apply h.only.queued
    rw [KjRedisConn.queued, hdq]
    exact List.mem_cons_self
  have hspec := onReply_spec c r
  generalize c.onReply r = o at hspec ⊢
  cases hspec with
  | refused => exact h.fresh
  | counted cp dq hdq _ _ hmore =>
    have hbuilt : cp.builtNum = cp.commands.length := (hone hdq).counted
    have hlength := (hone hdq).length
    omega
  | threw cp dq hdq _ _ _ hcb =>
    rw [(hone hdq).noThrow] at hcb
    cases hcb
  | finished cp dq hdq =>
    exact fun cp' hcp' => h.fresh cp' (hdq ▸ List.mem_cons_of_mem cp hcp')

theorem Untouched.next {e : Event (List CRedisReply)} (h : Untouched c)
    (hinit : ∀ cp ∈ c.dqInit, IsInit cp) (hsend : ∀ work, e = .send work → work.OneReply)
    (hnext : Next wholeReplies subscriberIntake c e c') : Untouched c' := by
  have honly := h.only.next hsend hnext
  refine ⟨honly, ?_⟩
  have hloop : ∀ {parser replies c₁ threw}, KjRedisConn.replyLoop subscriberIntake
      (c.availableReplies ++ replies) (c.parsed parser replies) = (c₁, threw) → Untouched c₁ := by
    intro parser replies c₁ threw heq
    have hparsed : Untouched (c.parsed parser replies) := ⟨{ h.only with }, h.fresh⟩
    have hread := replyLoop_keeps Untouched (fun _ _ h => ⟨{ h.only with }, h.fresh⟩)
      (fun _ r h => h.onReply r) subscriberIntake (c.availableReplies ++ replies) hparsed
    rw [heq] at hread
    exact hread
  cases hnext with
  | send work =>
    intro cp hcp
    rcases List.mem_append.1 hcp with hcp | hcp
    · exact h.fresh cp hcp
    · obtain rfl := List.mem_singleton.1 hcp
      rfl
  | commit ok => exact (h.commit ok).fresh
  | tick ok c₁ threw _ hcommit =>
    have hticked : Untouched { c with commitTicks := c.commitTicks - 1 } := ⟨{ h.only with }, h.fresh⟩
    have hcommitted := hticked.commitLoop ok
    rw [hcommit] at hcommitted
    split <;> exact hcommitted.fresh
  | read chunk parser replies c₁ _ _ heq => exact (hloop heq).fresh
  | refused chunk parser replies c₁ _ _ heq => exact (hloop heq).fresh
  | reset =>
    intro cp hcp
    obtain ⟨cp', hcp', rfl⟩ := List.mem_map.1 hcp
    exact h.fresh cp' hcp'
  | connectOk ok =>
    have hresending : Untouched (KjRedisConn.resending c) := by
      refine ⟨h.only.resending, fun cp hcp => ?_⟩
      obtain ⟨-, cp', -, heq, hcp' | ⟨hcp', -⟩⟩ := resending_cases hcp
      · exact heq ▸ (hinit cp' hcp').processedNum
      · exact heq ▸ h.fresh cp' hcp'
    exact (hresending.commit ok).fresh
  | _ => exact h.fresh

/-- A message passes the server's confirmations by. -/
theorem process_reply (s : Subscriptions) (command : Command) :
    (s.process command).2.isError = false ∧ isMessage (s.process command).2 = false := by
  match command with
  | [word, name] =>
    simp only [Subscriptions.process]
    repeat' split
    all_goals exact ⟨rfl, rfl⟩
  | [] => exact ⟨rfl, rfl⟩
  | [_] => exact ⟨rfl, rfl⟩
  | _ :: _ :: _ :: _ => exact ⟨rfl, rfl⟩

theorem intake_eq_none {r : CRedisReply} : subscriberIntake r = none ↔ isMessage r = true := by
  rw [subscriberIntake]
  split
  next h => exact iff_of_true rfl h
  next h =>
    refine iff_of_false (fun hnone => ?_) h
    split at hnone <;> cases hnone

/-- The confirmations among what the server has sent. -/
def confirmations (replies : List CRedisReply) : Nat := (replies.filterMap subscriberIntake).length

theorem confirmations_append (replies replies' : List CRedisReply) :
    confirmations (replies ++ replies') = confirmations replies + confirmations replies' := by
  rw [confirmations, List.filterMap_append, List.length_append, ← confirmations, ← confirmations]

/-- While the connection is up: the pipelines on it are those of `Init` and the last ones
sent, `rest`, and the server has taken the first of their commands. -/
structure Live (sound : Prop) (sentWorks : List CmdWork) (s : SubscriberService)
    (done : List CmdWork) (ps unsent : List CmdPipeline) (n : Nat) (old rest : List CmdWork) :
    Prop where
  flight : InFlight done ps unsent n s.conn
  available : s.conn.availableReplies = []
  split : sentWorks = old ++ rest
  queued : done ++ (ps ++ unsent).map (·.toCmdWork) = s.conn.dqInit.map (·.toCmdWork) ++ rest
  served : n + confirmations s.wire = s.served
  bound : s.served ≤ (commandsOf (done ++ ps.map (·.toCmdWork))).length
  held : HeldAfter s.held ((commandsOf (done ++ ps.map (·.toCmdWork))).take s.served)
  resubscribed : sound →
    SubscriberService.Resubscribed s.subscriber (commandsOf (rest ++ s.callbacks))

/-- The invariant. `sound` tells whether every connect has found what it needs. -/
structure Mirrored (param : RedisStubParam) (sound : Prop) (evs : List (Event (List CRedisReply)))
    (s : SubscriberService) : Prop where
  subscriber : s.subscriber.Sound
  counted : CountedAfter s.subscriber (commandsOf (sent evs ++ s.callbacks))
  single : ∀ work ∈ s.callbacks, work.IsSingle
  order : InOrder evs s.conn
  init : s.conn.dqInit = subscriberInit param
  sane : Sane wholeReplies s.conn
  untouched : Untouched s.conn
  live : s.conn.reading → ∃ done ps unsent n old rest,
    Live sound (sent evs) s done ps unsent n old rest

variable {param : RedisStubParam} {sound : Prop} {evs : List (Event (List CRedisReply))}
  {s s' : SubscriberService}

theorem commandsOf_append (works works' : List CmdWork) :
    commandsOf (works ++ works') = commandsOf works ++ commandsOf works' := List.flatMap_append

theorem mirrored_opened (param : RedisStubParam) (sound : Prop) :
    Mirrored param sound [] (openedSubscriber param) where
  subscriber := sound_newSubscriber
  counted := countedAfter_nil
  single _ h := absurd h List.not_mem_nil
  order := ⟨rfl, fun _ h => absurd h List.not_mem_nil, fun _ h => absurd h List.not_mem_nil,
    fun cp hcp => (isInit_auth param cp hcp).sn⟩
  init := rfl
  sane := sane_opened wholeReplies (isInit_auth param)
  untouched := ⟨only_opened wholeReplies fun _ hcp => oneReply_init hcp,
    fun _ h => absurd h List.not_mem_nil⟩
  live h := by cases h

theorem Mirrored.call (h : Mirrored param sound evs s) (call : SubscriberCall)
    (hfits : s.subscriber.Fits call) :
    Mirrored param sound evs
      { s with
        subscriber := (s.subscriber.perform call).1
        callbacks := s.callbacks ++ (s.subscriber.perform call).2.toList } := by
  have hcall := h.subscriber.call call hfits
  refine
    { h with subscriber := hcall.sound, counted := ?_, single := ?_, live := fun hreading => ?_ }
  · rw [← List.append_assoc, commandsOf_append]
    exact h.counted.call hcall
  · intro work hwork
    exact (List.mem_append.1 hwork).elim (h.single work) (hcall.single work)
  · obtain ⟨done, ps, unsent, n, old, rest, hlive⟩ := h.live hreading
    refine ⟨done, ps, unsent, n, old, rest, { hlive with resubscribed := fun hsound => ?_ }⟩
    rw [← List.append_assoc, commandsOf_append]
    exact resubscribed_call (hlive.resubscribed hsound) hcall

theorem Mirrored.publish (h : Mirrored param sound evs s) {message : CRedisReply}
    (hmessage : isMessage message = true) :
    Mirrored param sound evs { s with wire := s.wire ++ [message] } := by
  refine { h with live := fun hreading => ?_ }
  obtain ⟨done, ps, unsent, n, old, rest, hlive⟩ := h.live hreading
  refine ⟨done, ps, unsent, n, old, rest, { hlive with served := ?_ }⟩
  have hnone : confirmations [message] = 0 := by
    rw [confirmations, List.filterMap_cons_none (intake_eq_none.2 hmessage)]
    rfl
  rw [confirmations_append, hnone]
  exact hlive.served

theorem Mirrored.serve (h : Mirrored param sound evs s) {works : List CmdWork} {command : Command}
    (hstream : s.conn.stream = some works) (hcommand : (commandsOf works)[s.served]? = some command) :
    Mirrored param sound evs
      { s with
        held := (s.held.process command).1, served := s.served + 1
        wire := s.wire ++ [(s.held.process command).2] } := by
  refine { h with live := fun hreading => ?_ }
  obtain ⟨done, ps, unsent, n, old, rest, hlive⟩ := h.live hreading
  obtain rfl := Option.some.inj (hlive.flight.stream.symm.trans hstream)
  obtain ⟨hlt, hget⟩ := List.getElem?_eq_some_iff.1 hcommand
  refine ⟨done, ps, unsent, n, old, rest,
    { hlive with flight := hlive.flight, served := ?_, bound := hlt, held := ?_ }⟩
  · have hone : confirmations [(s.held.process command).2] = 1 := by
      cases hintake : subscriberIntake (s.held.process command).2 with
      | none =>
        have hmessage := intake_eq_none.1 hintake
        rw [(process_reply s.held command).2] at hmessage
        cases hmessage
      | some r =>
        rw [confirmations, List.filterMap_cons_some hintake]
        rfl
    show n + confirmations (s.wire ++ [(s.held.process command).2]) = s.served + 1
    rw [confirmations_append, hone, ← Nat.add_assoc, hlive.served]
  · show HeldAfter _ ((commandsOf _).take (s.served + 1))
    rw [List.take_add_one, hcommand]
    exact hlive.held.process command

/-- The pipelines written, and those queued, as the stream and the deque have them. -/
theorem Live.works {done : List CmdWork} {ps unsent : List CmdPipeline} {n : Nat}
    {sentWorks old rest : List CmdWork} (h : Live sound sentWorks s done ps unsent n old rest) :
    s.conn.stream = some (done ++ ps.map (·.toCmdWork)) ∧
      s.conn.queued = (ps ++ unsent).map (·.toCmdWork) :=
  ⟨h.flight.stream, by rw [KjRedisConn.queued, h.flight.dqCommon]⟩

/-- An event that neither sends, reads nor connects. -/
theorem Mirrored.quiet (h : Mirrored param sound evs s) {e : Event (List CRedisReply)}
    {conn : KjRedisConn Unit} (hsend : ∀ work, e ≠ .send work) (hreceive : ∀ rs, e ≠ .receive rs)
    (hconnect : ∀ ok, e ≠ .connectOk ok)
    (hnext : Next wholeReplies subscriberIntake s.conn e conn) :
    Mirrored param sound (evs ++ [e]) { s with conn } := by
  have hnone : e.sent = none := by
    cases e with
    | send work => exact absurd rfl (hsend work)
    | _ => rfl
  have hproper : e.Proper := by
    cases e with
    | send work => exact absurd rfl (hsend work)
    | _ => trivial
  have hsent : sent (evs ++ [e]) = sent evs := by
    rw [sent, List.filterMap_append, List.filterMap_cons_none hnone, List.filterMap_nil,
      List.append_nil]
    rfl
  refine
    { subscriber := h.subscriber, counted := hsent ▸ h.counted, single := h.single
      order := h.order.next hproper hnext, init := (dqInit_next hnext).trans h.init
      sane := h.sane.next hnext
      untouched := h.untouched.next h.sane.init (fun work hwork => absurd hwork (hsend work)) hnext
      live := fun hreading => ?_ }
  obtain ⟨done, ps, unsent, n, old, rest, hlive⟩ :=
    h.live (hnext.was_reading hconnect hreading)
  obtain ⟨⟨ps', unsent', hflight⟩, -, havailable⟩ :=
    hlive.flight.next (fun work hwork => absurd hwork (hsend work)) hnext hreceive hconnect hreading
  have hreset : e ≠ .reset := by
    rintro rfl
    cases hnext
    cases hreading
  obtain ⟨more, hmore⟩ := stream_next hnext hconnect hreset hlive.flight.stream
  have hworks : done ++ ps'.map (·.toCmdWork) = done ++ ps.map (·.toCmdWork) ++ more :=
    Option.some.inj (hflight.stream.symm.trans hmore)
  have hqueued := queued_next hnext hsend hreceive hconnect
  rw [queued, hflight.dqCommon, hlive.works.2] at hqueued
  refine ⟨done, ps', unsent', n, old, rest,
    { flight := hflight, available := havailable.trans hlive.available
      split := hsent.trans hlive.split, queued := ?_, served := hlive.served, bound := ?_
      held := ?_, resubscribed := hlive.resubscribed }⟩
  · rw [hqueued, dqInit_next hnext]
    exact hlive.queued
  · rw [hworks, commandsOf_append, List.length_append]
    exact Nat.le_trans hlive.bound (Nat.le_add_right _ _)
  · rw [hworks, commandsOf_append, List.take_append_of_le_length hlive.bound]
    exact hlive.held

theorem Mirrored.send (h : Mirrored param sound evs s) {work : CmdWork} {works : List CmdWork}
    (hcallbacks : s.callbacks = work :: works) :
    Mirrored param sound (evs ++ [.send work])
      { s with callbacks := works, conn := s.conn.send work } := by
  have hwork : work.IsSingle := h.single work (hcallbacks ▸ List.mem_cons_self)
  have hnext : Next wholeReplies subscriberIntake s.conn (.send work) (s.conn.send work) :=
    .send work
  have hsent : sent (evs ++ [.send work]) = sent evs ++ [work] := List.filterMap_append
  have honly : ∀ w, (.send work : Event (List CRedisReply)) = .send w → w = work := by
    rintro _ ⟨⟩
    rfl
  refine
    { subscriber := h.subscriber, counted := ?_
      single := fun w hw => h.single w (hcallbacks ▸ List.mem_cons_of_mem work hw)
      order := h.order.send hwork.user, init := h.init
      sane := h.sane.next hnext
      untouched := h.untouched.next h.sane.init (fun w hw => honly w hw ▸ hwork.oneReply) hnext
      live := fun hreading => ?_ }
  · have hcounted := h.counted
    rw [hcallbacks, List.append_cons, ← hsent] at hcounted
    exact hcounted
  · obtain ⟨done, ps, unsent, n, old, rest, hlive⟩ := h.live hreading
    refine ⟨done, ps, _, n, old, rest ++ [work],
      { hlive with
        flight := hlive.flight.send hwork.oneReply.counted
        split := by rw [hsent, hlive.split, List.append_assoc]
        queued := ?_, resubscribed := fun hsound => ?_ }⟩
    · rw [← List.append_assoc, List.map_append, ← List.append_assoc, hlive.queued, List.append_assoc]
      rfl
    · have hresubscribed := hlive.resubscribed hsound
      rw [hcallbacks, List.append_cons] at hresubscribed
      exact hresubscribed

theorem Mirrored.sends (h : Mirrored param sound evs s) :
    ∃ evs, Mirrored param sound evs
      { s with callbacks := [], conn := s.callbacks.foldl KjRedisConn.send s.conn } := by
  obtain ⟨works, hworks⟩ : ∃ works, s.callbacks = works := ⟨_, rfl⟩
  induction works generalizing evs s with
  | nil =>
    refine ⟨evs, ?_⟩
    cases s
    subst hworks
    exact h
  | cons work works ih =>
    obtain ⟨evs', h'⟩ := ih (h.send hworks) rfl
    refine ⟨evs', ?_⟩
    rw [hworks]
    exact h'

theorem Mirrored.readPipe (h : Mirrored param sound evs s) (ok : Option Nat) :
    ∃ evs, Mirrored param sound evs
      { s with callbacks := [], conn := s.conn.readPipe s.callbacks ok } := by
  obtain ⟨evs', h'⟩ := h.sends
  rw [KjRedisConn.readPipe]
  split
  next hempty =>
    rw [hempty] at h'
    exact ⟨evs', h'⟩
  next =>
    refine ⟨evs' ++ [.commit ok], ?_⟩
    exact h'.quiet (by simp) (by simp) (by simp) (.commit ok)

theorem resending_queued (h : InOrder evs c) :
    (KjRedisConn.resending c).queued = c.dqInit.map (·.toCmdWork) ++ waiting c.dqCommon := by
  show (List.map _ (c.dqInit ++ c.dqCommon.filter _)).map _ = _
  rw [List.map_map, List.map_append]
  exact congrArg (c.dqInit.map _ ++ ·) (kept_eq_waiting h.notOver)

/-- On a connection just made everything is written that has not been confirmed, and
nothing is held. -/
theorem Mirrored.connectOk (h : Mirrored param sound evs s) {ok : Option Nat}
    {conn : KjRedisConn Unit} (hnext : Next wholeReplies subscriberIntake s.conn (.connectOk ok) conn)
    (hsound : sound → s.Sound (.conn (.connectOk ok))) :
    Mirrored param sound (evs ++ [.connectOk ok])
      { s with conn, served := 0, held := noSubscriptions, wire := [] } := by
  obtain ⟨hconnecting, rfl⟩ := hnext.of_connectOk
  have hsent : sent (evs ++ [.connectOk ok]) = sent evs := by
    rw [sent, List.filterMap_append]
    exact List.append_nil _
  have hcounted : Only CmdWork.Counted s.conn :=
    ⟨fun w hw => (h.untouched.only.queued w hw).counted,
      fun cp hcp => (h.untouched.only.init cp hcp).counted,
      fun works hworks w hw => (h.untouched.only.written works hworks w hw).counted⟩
  obtain ⟨ps, unsent, hflight, -⟩ :=
    h.sane.inFlight_connected hcounted (fun cp hcp _ => h.untouched.fresh cp hcp) ok
  have hsame := sameTasks_commit (KjRedisConn.resending s.conn) ok
  have hqueue := sameQueue_commit (KjRedisConn.resending s.conn) ok
  rw [← connected_eq] at hsame hqueue
  have hqueued : (ps ++ unsent).map (·.toCmdWork) =
      s.conn.dqInit.map (·.toCmdWork) ++ waiting s.conn.dqCommon := by
    rw [← resending_queued h.order, ← hqueue.queued, KjRedisConn.queued, hflight.dqCommon]
  refine
    { subscriber := h.subscriber, counted := hsent ▸ h.counted, single := h.single
      order := h.order.next trivial hnext, init := hsame.1.dqInit.trans h.init
      sane := h.sane.next hnext
      untouched := h.untouched.next h.sane.init (by simp) hnext
      live := fun _ => ⟨[], ps, unsent, 0, fired s.conn.calls, waiting s.conn.dqCommon, ?_⟩ }
  exact
    { flight := hflight
      available := hsame.2.trans (h.sane.idle (.inl hconnecting)).2.2
      split := hsent.trans h.order.order.symm
      queued := by
        rw [List.nil_append, hqueued, hsame.1.dqInit]
        rfl
      served := rfl, bound := Nat.zero_le _, held := heldAfter_nil, resubscribed := hsound }

/-- Replies that arrive confirm the first pipelines, and messages go by. -/
theorem Mirrored.receive (h : Mirrored param sound evs s) {n : Nat} {conn : KjRedisConn Unit}
    (hnext : Next wholeReplies subscriberIntake s.conn (.receive (s.wire.take n)) conn) :
    Mirrored param sound (evs ++ [.receive (s.wire.take n)])
      { s with conn, wire := s.wire.drop n } := by
  have hsent : sent (evs ++ [.receive (s.wire.take n)]) = sent evs := by
    rw [sent, List.filterMap_append]
    exact List.append_nil _
  refine
    { subscriber := h.subscriber, counted := hsent ▸ h.counted, single := h.single
      order := h.order.next trivial hnext, init := (dqInit_next hnext).trans h.init
      sane := h.sane.next hnext
      untouched := h.untouched.next h.sane.init (by simp) hnext
      live := fun hreading => ?_ }
  have hstream := stream_receive hnext
  have hinit := dqInit_next hnext
  cases hnext with
  | unparsed _ parser replies _ hparse => cases hparse
  | refused => cases hreading
  | read _ parser replies _ hreading' hparse hloop =>
    obtain ⟨rfl, hreplies⟩ := Prod.mk.inj (Option.some.inj hparse)
    obtain ⟨rfl, -⟩ := Prod.mk.inj hreplies
    obtain ⟨done, ps, unsent, m, old, rest, hlive⟩ := h.live hreading'
    have hparsed : InFlight done ps unsent m (s.conn.parsed () (s.wire.take n)) :=
      hlive.flight.copy rfl rfl rfl
    obtain ⟨-, -, -, hok, -⟩ := hparsed.replyLoop subscriberIntake (s.wire.take n)
    have htasks := sameTasks_replyLoop subscriberIntake (s.wire.take n)
      (s.conn.parsed () (s.wire.take n))
    rw [hlive.available, List.nil_append] at hloop
    rw [hloop] at hok htasks
    obtain ⟨done', ps', hflight⟩ := hok rfl
    have hworks : done' ++ ps'.map (·.toCmdWork) = done ++ ps.map (·.toCmdWork) := by
      have hsame := hstream
      rw [hflight.stream, hlive.flight.stream] at hsame
      exact Option.some.inj hsame
    refine ⟨done', ps', unsent, m + confirmations (s.wire.take n), old, rest,
      { flight := hflight, available := htasks.2 rfl, split := hsent.trans hlive.split, queued := ?_
        served := ?_, bound := hworks ▸ hlive.bound, held := hworks ▸ hlive.held
        resubscribed := hlive.resubscribed }⟩
    · rw [List.map_append, ← List.append_assoc, hworks, List.append_assoc, ← List.map_append,
        hlive.queued, hinit]
    · show m + confirmations (s.wire.take n) + confirmations (s.wire.drop n) = s.served
      rw [Nat.add_assoc, ← confirmations_append, List.take_append_drop, hlive.served]

theorem Mirrored.next {e : SubscriberEvent} (h : Mirrored param sound evs s) (hfits : s.Fits e)
    (hsound : sound → s.Sound e) (hnext : subscriberService.next s e = some s') :
    ∃ evs, Mirrored param sound evs s' := by
  cases e with
  | call call =>
    obtain rfl := Option.some.inj hnext
    exact ⟨evs, h.call call hfits⟩
  | readPipe ok =>
    obtain rfl := Option.some.inj hnext
    exact h.readPipe ok
  | conn e =>
    have hquiet : (∀ work, e ≠ .send work) → (∀ rs, e ≠ .receive rs) → (∀ ok, e ≠ .connectOk ok) →
        ((SubscriberService.connNext s.conn e).map fun conn => { s with conn }) = some s' →
        ∃ evs, Mirrored param sound evs s' := by
      intro hsend hreceive hconnect hnext
      obtain ⟨conn, hconn, rfl⟩ := Option.map_eq_some_iff.1 hnext
      exact ⟨_, h.quiet hsend hreceive hconnect (subscriberConn_spec hconn)⟩
    cases e with
    | send work => cases hnext
    | commit ok => cases hnext
    | receive rs => cases hnext
    | connectOk ok =>
      obtain ⟨conn, hconn, rfl⟩ := Option.map_eq_some_iff.1 hnext
      exact ⟨_, h.connectOk (subscriberConn_spec hconn) hsound⟩
    | tick ok => exact hquiet (by simp) (by simp) (by simp) hnext
    | readFail => exact hquiet (by simp) (by simp) (by simp) hnext
    | reset => exact hquiet (by simp) (by simp) (by simp) hnext
    | timer => exact hquiet (by simp) (by simp) (by simp) hnext
    | connectFail => exact hquiet (by simp) (by simp) (by simp) hnext
  | serve =>
    simp only [subscriberService, SubscriberService.next] at hnext
    split at hnext
    · cases hnext
    next command hcommand =>
      obtain rfl := Option.some.inj hnext
      obtain ⟨works, hstream, hget⟩ := Option.bind_eq_some_iff.1 hcommand
      exact ⟨evs, h.serve hstream hget⟩
  | publish message =>
    simp only [subscriberService, SubscriberService.next] at hnext
    split at hnext
    next hmessage =>
      obtain rfl := Option.some.inj hnext
      exact ⟨evs, h.publish hmessage.2⟩
    · cases hnext
  | receive n =>
    simp only [subscriberService, SubscriberService.next] at hnext
    split at hnext
    · obtain ⟨conn, hconn, rfl⟩ := Option.map_eq_some_iff.1 hnext
      exact ⟨_, h.receive (subscriberConn_spec hconn)⟩
    · cases hnext

theorem mirrored_run {es : List SubscriberEvent}
    (hfits : subscriberService.Meets (fun s e => s.Fits e) (openedSubscriber param) es)
    (hsound : sound → subscriberService.Meets (fun s e => s.Sound e) (openedSubscriber param) es)
    (hrun : subscriberService.run (openedSubscriber param) es = some s) :
    ∃ evs, Mirrored param sound evs s := by
  have hstep : ∀ s e s', (∃ evs, Mirrored param sound evs s) → (s.Fits e ∧ (sound → s.Sound e)) →
      subscriberService.next s e = some s' → ∃ evs, Mirrored param sound evs s' := by
    rintro s e s' ⟨evs, h⟩ ⟨hfits, hsound⟩ hnext
    exact h.next hfits hsound hnext
  exact @Transition.System.run_invariant _ _ subscriberService _ (openedSubscriber param) s es
    (fun s => ∃ evs, Mirrored param sound evs s) hstep ⟨[], mirrored_opened param sound⟩
    (hfits.and (Transition.System.meets_imp hsound)) hrun

/-- Once everything has been confirmed the server holds just what is counted, if and only
if on this connection a command has been written for each of it. -/
theorem Mirrored.holdsCounted_iff (h : Mirrored param sound evs s) (hquiet : s.Quiet) :
    ∃ works, s.conn.stream = some works ∧
      (s.HoldsCounted ↔ SubscriberService.Resubscribed s.subscriber (commandsOf works)) ∧
      (sound → s.HoldsCounted) := by
  obtain ⟨done, ps, unsent, n, old, rest, hlive⟩ := h.live hquiet.reading
  obtain ⟨rfl, rfl⟩ := List.append_eq_nil_iff.1 (hlive.flight.dqCommon.symm.trans hquiet.dqCommon)
  have hstream : s.conn.stream = some done := by
    rw [hlive.flight.stream, List.map_nil, List.append_nil]
  have hone : ∀ work ∈ done, work.commands.length = 1 := fun work hwork =>
    (h.untouched.only.written done hstream work hwork).length
  have hlen : (commandsOf done).length = n := by
    rw [commandsOf, List.length_flatMap, ← commandCount, ← replyCount_eq fun work hwork => by
      rw [hone work hwork]; exact Nat.one_pos]
    exact hlive.flight.count.symm
  have hqueued : done = s.conn.dqInit.map (·.toCmdWork) ++ rest := by
    have hqueued := hlive.queued
    rw [List.append_nil, List.map_nil, List.append_nil] at hqueued
    exact hqueued
  have hsplit : commandsOf done = commandsOf ((subscriberInit param).map (·.toCmdWork)) ++
      commandsOf rest := by
    rw [hqueued, h.init, commandsOf_append]
  have hheld : HeldAfter s.held (commandsOf ((subscriberInit param).map (·.toCmdWork)) ++
      commandsOf rest) := by
    have hheld := hlive.held
    have hserved := hlive.served
    have hbound := hlive.bound
    rw [List.map_nil, List.append_nil] at hbound hheld
    rw [List.take_of_length_le (by omega), hsplit] at hheld
    exact hheld
  have hcounted : CountedAfter s.subscriber (commandsOf old ++ commandsOf rest) := by
    have hcounted := h.counted
    rw [hquiet.callbacks, List.append_nil, hlive.split, commandsOf_append] at hcounted
    exact hcounted
  have hholds := resubscribed_iff (neutral_init param) hheld hcounted
  have hnot : ∀ {word name : List UInt8} (on off : List UInt8), turn on off name [word, name] ≠ none →
      (∀ command, Neutral command → turn on off name command = none) →
      ([word, name] ∈ commandsOf done ↔ [word, name] ∈ commandsOf rest) := by
    intro word name on off hturn hneutral
    rw [hsplit, List.mem_append]
    exact or_iff_right fun hmem => hturn (hneutral _ (neutral_init param _ hmem))
  have hresubscribed : SubscriberService.Resubscribed s.subscriber (commandsOf rest) ↔
      SubscriberService.Resubscribed s.subscriber (commandsOf done) := by
    have hset : ∀ {on off name : List UInt8}, turn on off name [on, name] ≠ none := by
      intro on off name hnone
      rw [turn_eq_some_true.2 rfl] at hnone
      cases hnone
    apply and_congr
    · exact forall_congr' fun channel => imp_congr_right fun _ =>
        (hnot _ _ hset fun command hneutral => (hneutral channel).1).symm
    · exact forall_congr' fun pattern => imp_congr_right fun _ =>
        (hnot _ _ hset fun command hneutral => (hneutral pattern).2).symm
  refine ⟨done, hstream, hholds.trans hresubscribed, fun hsound => hholds.2 ?_⟩
  have hsound := hlive.resubscribed hsound
  rw [hquiet.callbacks, List.append_nil] at hsound
  exact hsound

/-- Where the connection is up and nothing waits to be confirmed, the server holds just
what is counted if and only if on this connection a command has been written for each
of it; and so it does in every run in which each connect finds a command, not yet
confirmed, for each of what is counted. No call of the run takes a count out of an `int`. -/
theorem holdsCounted_iff_resubscribed (param : RedisStubParam) {es : List SubscriberEvent}
    {s : SubscriberService} (hrun : subscriberService.run (openedSubscriber param) es = some s)
    (hfits : subscriberService.Meets (fun s e => s.Fits e) (openedSubscriber param) es)
    (hquiet : s.Quiet) :
    (s.HoldsCounted ↔ ∃ works, s.conn.stream = some works ∧
        SubscriberService.Resubscribed s.subscriber (commandsOf works)) ∧
      (subscriberService.Meets (fun s e => s.Sound e) (openedSubscriber param) es →
        s.HoldsCounted) := by
  constructor
  · have hmirrored : ∃ evs, Mirrored param False evs s := mirrored_run hfits False.elim hrun
    obtain ⟨evs, h⟩ := hmirrored
    obtain ⟨works, hstream, hiff, -⟩ := h.holdsCounted_iff hquiet
    rw [hiff]
    refine ⟨fun h => ⟨works, hstream, h⟩, fun ⟨works', hstream', h⟩ => ?_⟩
    obtain rfl := Option.some.inj (hstream.symm.trans hstream')
    exact h
  · intro hmeets
    have hmirrored : ∃ evs, Mirrored param True evs s := mirrored_run hfits (fun _ => hmeets) hrun
    obtain ⟨evs, h⟩ := hmirrored
    obtain ⟨works, -, -, hholds⟩ := h.holdsCounted_iff hquiet
    exact hholds trivial

/-- A channel and a pattern, subscribed to and confirmed. -/
theorem holdsCounted_iff_resubscribed_two :
    let es : List SubscriberEvent :=
      [.conn (.connectOk none), .call (.subscribe [99]), .call (.psubscribe [42]), .readPipe none,
        .serve, .serve, .receive 1, .publish (.ofRows (List.replicate 3
          (.ofString ((ascii "message").map some) .bulkString))), .receive 2]
    ∃ s, subscriberService.run (openedSubscriber ⟨[], []⟩) es = some s ∧ s.HoldsCounted := by
  intro es
  have hend : (subscriberService.run (openedSubscriber ⟨[], []⟩) es).map (fun s =>
      (s.conn.reading, s.conn.dqCommon, s.callbacks)) = some (true, [], []) := by decide +kernel
  obtain ⟨s, hrun, hs⟩ := Option.map_eq_some_iff.1 hend
  simp only [Prod.mk.injEq] at hs
  have hfits : subscriberService.Meets (fun s e => s.Fits e) (openedSubscriber ⟨[], []⟩) es := by
    refine Transition.System.meets_cons rfl trivial <| Transition.System.meets_cons rfl ?_ <|
      Transition.System.meets_cons rfl ?_ <| Transition.System.meets_of_forall fun s₂ e he => ?_
    · exact show (0 : Int32) ≠ Int32.maxValue by decide
    · exact show (0 : Int32) ≠ Int32.maxValue by decide
    · simp only [List.mem_cons, List.not_mem_nil, or_false] at he
      rcases he with rfl | rfl | rfl | rfl | rfl | rfl <;> trivial
  refine ⟨s, hrun, (holdsCounted_iff_resubscribed ⟨[], []⟩ hrun hfits ⟨hs.1, hs.2.1, hs.2.2⟩).2 ?_⟩
  refine ⟨⟨fun channel hpos => ?_, fun pattern hpos => ?_⟩, fun s₁ _ => ?_⟩
  · exact absurd hpos Int32.lt_irrefl
  · exact absurd hpos Int32.lt_irrefl
  · refine Transition.System.meets_of_forall fun s₂ e he => ?_
    simp only [List.mem_cons, List.not_mem_nil, or_false] at he
    rcases he with rfl | rfl | rfl | rfl | rfl | rfl | rfl | rfl <;> trivial

/-- A subscription that has been confirmed is not sent again after a reconnect. -/
theorem not_holdsCounted_reconnect :
    ¬ ∀ (param : RedisStubParam) (es : List SubscriberEvent) (s : SubscriberService),
      subscriberService.run (openedSubscriber param) es = some s → s.Quiet → s.HoldsCounted := by
  intro hall
  let es : List SubscriberEvent :=
    [.conn (.connectOk none), .call (.subscribe [99]), .readPipe none, .serve, .receive 1,
      .conn .readFail, .conn .reset, .conn .timer, .conn (.connectOk none)]
  have hend : (subscriberService.run (openedSubscriber ⟨[], []⟩) es).map (fun s =>
      ((s.conn.reading, s.conn.dqCommon, s.callbacks),
        s.held.channels, s.subscriber.channelCounter [99])) = some ((true, [], []), [], 1) := by
    decide +kernel
  obtain ⟨s, hrun, hs⟩ := Option.map_eq_some_iff.1 hend
  simp only [Prod.mk.injEq] at hs
  obtain ⟨⟨hreading, hdq, hcallbacks⟩, hheld, hcount⟩ := hs
  have hmem := ((hall ⟨[], []⟩ es s hrun ⟨hreading, hdq, hcallbacks⟩).1 [99]).2 (by rw [hcount]; decide)
  rw [hheld] at hmem
  cases hmem

end KjRedis.Conn
