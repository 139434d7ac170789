import KjRedis.Conn.Client

/-! Which callbacks of a client are called, over a connection that does not fail: each
pipeline takes as many replies as it has commands, but one that has none takes one. -/
namespace KjRedis.Conn

open KjRedisConn

variable {τ : Type*} {stream : Option (List CmdWork)} {n : Nat} {rs rs' : List CRedisReply}
  {new new' : List Call}

theorem Attributed.append (h : Attributed stream n rs new)
    (h' : Attributed stream (n + rs.length) rs' new') :
    Attributed stream n (rs ++ rs') (new ++ new') := by
  intro work r hmem
  rcases List.mem_append.1 hmem with hmem | hmem
  · obtain ⟨i, before, after, hi, hstream, hcount⟩ := h work r hmem
    refine ⟨i, before, after, ?_, hstream, hcount⟩
    rw [List.getElem?_append_left (List.getElem?_eq_some_iff.1 hi).1]
    exact hi
  · obtain ⟨i, before, after, hi, hstream, hcount⟩ := h' work r hmem
    refine ⟨rs.length + i, before, after, ?_, hstream, by omega⟩
    rw [List.getElem?_append_right (Nat.le_add_right _ _), Nat.add_sub_cancel_left]
    exact hi

/-- More pipelines written change nothing for those before. -/
theorem Attributed.wrote {works : List CmdWork} (h : Attributed (some works) n rs new)
    (more : List CmdWork) : Attributed (some (works ++ more)) n rs new := by
  intro work r hmem
  obtain ⟨i, before, after, hi, hstream, hcount⟩ := h work r hmem
  refine ⟨i, before, after ++ more, hi, ?_, hcount⟩
  rw [Option.some.inj hstream, List.append_assoc, List.cons_append]

theorem sends_eq (c : KjRedisConn τ) (works : List CmdWork) :
    works.foldl KjRedisConn.send c =
      { c with
        dqCommon := c.dqCommon ++ works.map fun work => (createCmdPipeline work).setState .sending } := by
  induction works generalizing c with
  | nil => rw [List.map_nil, List.append_nil]; rfl
  | cons work works ih =>
    rw [List.foldl_cons, ih]
    simp only [KjRedisConn.send, List.map_cons, List.append_assoc, List.singleton_append]

theorem sends_queued (c : KjRedisConn τ) (works : List CmdWork) :
    (works.foldl KjRedisConn.send c).queued = c.queued ++ works := by
  rw [sends_eq, queued, List.map_append, List.map_map, queued]
  congr 1
  exact List.map_id works

theorem InFlight.sends {done : List CmdWork} {ps unsent : List CmdPipeline} {c : KjRedisConn τ}
    (h : InFlight done ps unsent n c) {works : List CmdWork} (hworks : ∀ work ∈ works, work.Counted) :
    ∃ unsent', InFlight done ps unsent' n (works.foldl KjRedisConn.send c) := by
  induction works generalizing unsent c with
  | nil => exact ⟨unsent, h⟩
  | cons work works ih =>
    exact ih (h.send (hworks work List.mem_cons_self)) fun work' hwork' =>
      hworks work' (List.mem_cons_of_mem work hwork')

/-- A connection that is being made: what is sent waits. -/
structure Unmade (sentWorks : List CmdWork) (c : KjRedisConn Unit) : Prop where
  connecting : c.connecting
  reading : c.reading = false
  bConnected : c.bConnected = false
  stream : c.stream = none
  queued : c.queued = sentWorks
  fresh : ∀ cp ∈ c.dqCommon, cp.state = .sending ∧ cp.processedNum = 0
  calls : c.calls = []

/-- A connection that has been made: what is sent has been written, after the pipelines
of `Init`, and `taken` are the replies taken from it. -/
structure Made (sentWorks : List CmdWork) (taken : List CRedisReply) (c : KjRedisConn Unit) :
    Prop where
  reading : c.reading
  bConnected : c.bConnected
  available : c.availableReplies = []
  stream : c.stream = some (c.dqInit.map (·.toCmdWork) ++ sentWorks)
  flight : ∃ done ps, InFlight done ps [] taken.length c
  attributed : Attributed c.stream 0 taken c.calls

/-- What any connection keeps that has been sent these pipelines. -/
structure Kept (sentWorks : List CmdWork) (c : KjRedisConn Unit) : Prop where
  sane : Sane wholeReplies c
  counted : Only CmdWork.Counted c
  users : ∀ work ∈ sentWorks, work.IsUser
  order : ∃ evs : List (Event (List CRedisReply)), InOrder evs c ∧ sent evs = sentWorks

variable {sentWorks works : List CmdWork} {taken : List CRedisReply} {c c' : KjRedisConn Unit}

theorem Kept.next (h : Kept sentWorks c) {e : Event (List CRedisReply)}
    (hsend : ∀ work, e = .send work → work.IsUser ∧ work.Counted)
    (hnext : (clientConn wholeReplies).next c e = some c') : Kept (sentWorks ++ sent [e]) c' := by
  obtain ⟨evs, hevs, rfl⟩ := h.order
  have hproper : e.Proper := by
    cases e with
    | send work => exact (hsend work rfl).1
    | _ => trivial
  refine ⟨h.sane.next (next_spec hnext), ?_, fun work hwork => ?_, evs ++ [e], ?_, ?_⟩
  · exact h.counted.next (fun work hw => (hsend work hw).2) (next_spec hnext)
  · rcases List.mem_append.1 hwork with hwork | hwork
    · exact h.users work hwork
    · cases e with
      | send work' => exact List.mem_singleton.1 hwork ▸ (hsend work' rfl).1
      | _ => exact absurd hwork List.not_mem_nil
  · exact hevs.next hproper (next_spec hnext)
  · exact List.filterMap_append

theorem Kept.quiet (h : Kept sentWorks c) {e : Event (List CRedisReply)} (he : e.sent = none)
    (hnext : (clientConn wholeReplies).next c e = some c') : Kept sentWorks c' := by
  have hsent : sent [e] = [] := List.filterMap_cons_none he
  have hnext := h.next (fun work hwork => by rw [hwork] at he; cases he) hnext
  rw [hsent, List.append_nil] at hnext
  exact hnext

theorem Kept.sends (h : Kept sentWorks c) (hworks : ∀ work ∈ works, work.IsUser ∧ work.Counted) :
    Kept (sentWorks ++ works) (works.foldl KjRedisConn.send c) := by
  induction works generalizing sentWorks c with
  | nil =>
    rw [List.append_nil]
    exact h
  | cons work works ih =>
    have hwork : Kept (sentWorks ++ [work]) (c.send work) := by
      refine @Kept.next _ _ _ h (.send work) ?_ rfl
      rintro _ ⟨⟩
      exact hworks work List.mem_cons_self
    rw [List.append_cons]
    exact ih hwork fun work' hwork' => hworks work' (List.mem_cons_of_mem work hwork')

theorem Kept.readPipe (h : Kept sentWorks c)
    (hworks : ∀ work ∈ works, work.IsUser ∧ work.Counted) :
    Kept (sentWorks ++ works) (c.readPipe works none) := by
  rw [KjRedisConn.readPipe]
  split
  next hempty =>
    rw [hempty, List.append_nil]
    exact h
  next => exact @Kept.quiet _ _ _ (h.sends hworks) (.commit none) rfl rfl

/-- `CommitLoop` writes what waits. -/
theorem commitLoop_none {done : List CmdWork} {ps unsent : List CmdPipeline}
    (h : InFlight done ps unsent n c) (hconn : c.bConnected) :
    (∃ ps', InFlight done ps' [] n (c.commitLoop none).1) ∧ (c.commitLoop none).2 = false ∧
      (c.commitLoop none).1.stream = some (done ++ c.queued) := by
  obtain ⟨ps', unsent', hloop, hall⟩ := h.commitLoop none
  obtain ⟨rfl, hok⟩ := hall hconn rfl
  refine ⟨⟨ps', hloop⟩, hok, ?_⟩
  have hqueued := (sameQueue_commitLoop c none).queued
  rw [queued, hloop.dqCommon, List.append_nil] at hqueued
  rw [hloop.stream, hqueued]

theorem commit_none {done : List CmdWork} {ps unsent : List CmdPipeline}
    (h : InFlight done ps unsent n c) (hconn : c.bConnected) :
    (∃ ps', InFlight done ps' [] n (c.commit none)) ∧
      (c.commit none).stream = some (done ++ c.queued) := by
  rw [KjRedisConn.commit]
  split
  next hempty =>
    have hdq := h.dqCommon
    rw [hempty] at hdq
    obtain ⟨rfl, rfl⟩ := List.append_eq_nil_iff.1 hdq.symm
    refine ⟨⟨[], h⟩, ?_⟩
    rw [h.stream, queued, hempty]
  next =>
    obtain ⟨hflight, hok, hstream⟩ := commitLoop_none h hconn
    split
    next c' threw heq =>
      rw [heq] at hflight hok hstream
      cases hok
      exact ⟨hflight, hstream⟩

/-- Written once more, a connection's stream holds what it held and what was queued. -/
theorem Made.rewritten (h : Made sentWorks taken c) {c₁ : KjRedisConn Unit}
    (hsame : SameTasks c c₁) (hcalls : c₁.calls = c.calls)
    (havailable : c₁.availableReplies = c.availableReplies)
    (hflight : ∃ done ps, InFlight done ps [] taken.length c₁)
    (hstream : c₁.stream = some (c.dqInit.map (·.toCmdWork) ++ sentWorks ++ works)) :
    Made (sentWorks ++ works) taken c₁ where
  reading := hsame.reading.trans h.reading
  bConnected := hsame.bConnected.trans h.bConnected
  available := havailable.trans h.available
  stream := by rw [hstream, hsame.dqInit, List.append_assoc]
  flight := hflight
  attributed := by
    have hattr := h.attributed
    rw [h.stream] at hattr
    rw [hstream, hcalls]
    exact hattr.wrote works

theorem Made.readPipe (h : Made sentWorks taken c) (hworks : ∀ work ∈ works, work.Counted) :
    Made (sentWorks ++ works) taken (c.readPipe works none) := by
  rw [KjRedisConn.readPipe]
  split
  next hempty =>
    rw [hempty, List.append_nil]
    exact h
  next =>
    obtain ⟨done, ps, hflight⟩ := h.flight
    obtain ⟨unsent, hsends⟩ := hflight.sends hworks
    have heq := sends_eq c works
    have hconn : (works.foldl KjRedisConn.send c).bConnected := by
      rw [heq]
      exact h.bConnected
    obtain ⟨hcommit, hstream⟩ := commit_none hsends hconn
    have hdone : done ++ c.queued = c.dqInit.map (·.toCmdWork) ++ sentWorks := by
      have hbefore := h.stream
      rw [hflight.stream] at hbefore
      rw [queued, hflight.dqCommon, List.append_nil]
      exact Option.some.inj hbefore
    have hsent : SameTasks c (works.foldl KjRedisConn.send c) := by
      rw [heq]
      exact ⟨rfl, rfl, rfl, rfl, rfl, rfl⟩
    have hsame := sameTasks_commit (works.foldl KjRedisConn.send c) none
    apply h.rewritten (hsent.trans hsame.1)
    · rw [(sameQueue_commit _ none).calls, heq]
    · rw [hsame.2, heq]
    · exact ⟨done, hcommit⟩
    · rw [hstream, sends_queued, ← List.append_assoc, hdone]

/-- Before the connection is made `CommitLoop` only runs again later. -/
theorem commitLoop_unmade (hconn : c.bConnected = false) :
    c.commitLoop none = ({ c with commitTicks := c.commitTicks + 1 }, false) := by
  rw [KjRedisConn.commitLoop, if_neg (by rw [hconn]; exact Bool.false_ne_true)]

theorem Unmade.readPipe (h : Unmade sentWorks c) :
    Unmade (sentWorks ++ works) (c.readPipe works none) := by
  rw [KjRedisConn.readPipe]
  split
  next hempty =>
    rw [hempty, List.append_nil]
    exact h
  next =>
    have hsends : Unmade (sentWorks ++ works) (works.foldl KjRedisConn.send c) := by
      have hqueued := sends_queued c works
      rw [h.queued] at hqueued
      rw [sends_eq] at hqueued ⊢
      refine { h with queued := hqueued, fresh := fun cp hcp => ?_ }
      rcases List.mem_append.1 hcp with hcp | hcp
      · exact h.fresh cp hcp
      · obtain ⟨work, -, rfl⟩ := List.mem_map.1 hcp
        exact ⟨rfl, rfl⟩
    rw [KjRedisConn.commit]
    split
    · exact hsends
    · rw [commitLoop_unmade hsends.bConnected]
      exact { hsends with }

theorem Made.tick (h : Made sentWorks taken c) :
    ∃ c₁, { c with commitTicks := c.commitTicks - 1 }.commitLoop none = (c₁, false) ∧
      Made sentWorks taken c₁ := by
  obtain ⟨done, ps, hflight⟩ := h.flight
  have hticked : InFlight done ps [] taken.length { c with commitTicks := c.commitTicks - 1 } :=
    hflight.copy rfl rfl rfl
  obtain ⟨hloop, hok, hstream⟩ := commitLoop_none hticked h.bConnected
  have hsame := sameTasks_commitLoop { c with commitTicks := c.commitTicks - 1 } none
  have hcalls := (sameQueue_commitLoop { c with commitTicks := c.commitTicks - 1 } none).calls
  have hdone : done ++ c.queued = c.dqInit.map (·.toCmdWork) ++ sentWorks ++ [] := by
    have hbefore := h.stream
    rw [hflight.stream] at hbefore
    rw [queued, hflight.dqCommon, List.append_nil, List.append_nil]
    exact Option.some.inj hbefore
  refine ⟨_, Prod.ext rfl hok, ?_⟩
  rw [← List.append_nil sentWorks]
  apply h.rewritten ⟨hsame.1.dqInit, hsame.1.parser, hsame.1.bConnected, hsame.1.reading,
    hsame.1.bDelayReconnecting, hsame.1.connecting⟩ hcalls hsame.2 ⟨done, hloop⟩
  exact hstream.trans (congrArg some hdone)

/-- The callers' pipelines that wait are all written when the connection has been made. -/
theorem Unmade.connected (h : Unmade sentWorks c) (hkept : Kept sentWorks c) :
    Made sentWorks [] (c.connected none) := by
  have hfresh : ∀ cp ∈ c.dqCommon, 0 < cp.sn → cp.processedNum = 0 := fun cp hcp _ =>
    (h.fresh cp hcp).2
  have hfilter : c.dqCommon.filter (fun cp =>
      decide (0 < cp.sn ∧ cp.state.toNat < PipelineState.processOver.toNat)) = c.dqCommon := by
    apply List.filter_eq_self.2
    intro cp hcp
    have huser := hkept.users cp.toCmdWork (h.queued ▸ List.mem_map_of_mem hcp)
    rw [(h.fresh cp hcp).1]
    exact decide_eq_true ⟨huser.sn, by decide⟩
  have hqueued : (KjRedisConn.resending c).queued = c.dqInit.map (·.toCmdWork) ++ sentWorks := by
    show (List.map _ (c.dqInit ++ c.dqCommon.filter _)).map _ = _
    rw [hfilter, List.map_map, List.map_append]
    exact congrArg (c.dqInit.map _ ++ ·) h.queued
  obtain ⟨ps, unsent, hflight, hall⟩ := hkept.sane.inFlight_connected hkept.counted hfresh none
  obtain rfl := hall rfl
  have hsame := sameTasks_commit (KjRedisConn.resending c) none
  have hqueue := sameQueue_commit (KjRedisConn.resending c) none
  rw [← connected_eq] at hsame hqueue
  refine ⟨hsame.1.reading, hsame.1.bConnected, ?_, ?_, ⟨[], ps, hflight⟩, ?_⟩
  · exact hsame.2.trans (hkept.sane.idle (.inl h.connecting)).2.2
  · have hps : (c.connected none).dqCommon.map (·.toCmdWork) = _ := hqueue.queued.trans hqueued
    rw [hflight.dqCommon, List.append_nil] at hps
    rw [hflight.stream, List.nil_append, hps, hsame.1.dqInit]
    rfl
  · rw [hqueue.calls]
    show Attributed _ 0 [] c.calls
    rw [h.calls]
    exact attributed_nil _ 0 []

/-- Replies that the pipelines written can take. -/
theorem Made.receive (h : Made sentWorks taken c) {rs : List CRedisReply}
    (herror : ∀ r ∈ rs, r.isError = false) (hfit : ¬ Unfit c.stream taken.length rs) :
    ∃ c', (clientConn wholeReplies).next c (.receive rs) = some c' ∧
      Made sentWorks (taken ++ rs) c' ∧ c'.stream = c.stream ∧ ∃ new, c'.calls = c.calls ++ new := by
  obtain ⟨done, ps, hflight⟩ := h.flight
  let c₀ := c.parsed () rs
  have hparsed : InFlight done ps [] taken.length c₀ := hflight.copy rfl rfl rfl
  obtain ⟨new, hcalls, hattr, hok, hthrew⟩ := hparsed.replyLoop some rs
  have htasks := sameTasks_replyLoop some rs c₀
  have hstream : (KjRedisConn.replyLoop some rs c₀).1.stream = c.stream := by
    apply replyLoop_keeps fun c' : KjRedisConn Unit => c'.stream = c.stream
    · exact fun c' _ h => h
    · exact fun c' r h => (stream_onReply c' r).trans h
    · rfl
  rw [List.filterMap_some] at hattr hok hthrew
  have hfine : (KjRedisConn.replyLoop some rs c₀).2 = false := by
    by_contra hthrow
    rcases hthrew (Bool.eq_true_of_not_eq_false hthrow) with ⟨r, hr, hisError⟩ | hunfit
    · rw [herror r hr] at hisError
      cases hisError
    · exact hfit hunfit
  refine ⟨_, ?_, ⟨?_, ?_, htasks.2 hfine, ?_, ?_, ?_⟩, hstream, new, hcalls⟩
  · have hreceive : c.onClientReceive wholeReplies some rs =
        some (KjRedisConn.replyLoop some (c.availableReplies ++ rs) c₀) := rfl
    simp only [clientConn, KjRedisConn.next]
    rw [if_pos h.reading, hreceive, h.available, List.nil_append, Option.map_some]
    split
    next heq =>
      rw [heq] at hfine
      cases hfine
    next heq => rw [heq]
  · exact htasks.1.reading.trans h.reading
  · exact htasks.1.bConnected.trans h.bConnected
  · rw [hstream, h.stream, htasks.1.dqInit]
    rfl
  · rw [List.length_append]
    exact hok hfine |>.elim fun done' h' => ⟨done', h'⟩
  · rw [hstream, hcalls]
    apply h.attributed.append
    rw [Nat.zero_add]
    exact hattr

/-- The invariant. The pipelines committed are those sent and those still in the work
queue; the replies that have arrived are the first of the answers. -/
structure Serving (calls : List ClientCall) (sentWorks : List CmdWork) (s : Service) : Prop where
  runCalls : newClient.runCalls calls = (s.client, sentWorks ++ s.callbacks)
  kept : Kept sentWorks s.conn
  phase : Unmade sentWorks s.conn ∧ s.answers = [] ∨
    Made sentWorks (s.answers.take s.arrived) s.conn
  arrived : s.arrived ≤ s.answers.length
  written : ∀ works, s.conn.stream = some works → s.answers.length ≤ commandCount works
  noError : ∀ r ∈ s.answers, r.isError = false
  loaded : ∀ (i : Nat) (cp : CmdPipeline) (r : CRedisReply), s.conn.dqInit[i]? = some cp →
    s.answers[i]? = some r → cp.throwsOn r = false
  handed : (s.invoked ++ s.trunk).Perm (userReplies s.conn.calls)

theorem serving_opened (param : RedisStubParam) : Serving [] [] (openedService param) where
  runCalls := rfl
  kept :=
    { sane := sane_opened wholeReplies (isInit_client param)
      counted := only_opened wholeReplies fun cp hcp => (isInit_client param cp hcp).counted
      users := fun _ h => absurd h List.not_mem_nil
      order := ⟨[], ⟨rfl, fun _ h => absurd h List.not_mem_nil, fun _ h => absurd h List.not_mem_nil,
        fun cp hcp => (isInit_client param cp hcp).sn⟩, rfl⟩ }
  phase := .inl ⟨⟨rfl, rfl, rfl, rfl, rfl, fun _ h => absurd h List.not_mem_nil, rfl⟩, rfl⟩
  arrived := Nat.le_refl 0
  written _ h := by cases h
  noError _ h := absurd h List.not_mem_nil
  loaded i cp r _ h := by simp [openedService] at h
  handed := List.Perm.refl []

variable {calls : List ClientCall} {s s' : Service}

/-- The pipelines committed are a caller's, numbered in order. -/
theorem Serving.commits (h : Serving calls sentWorks s) :
    ∀ work ∈ sentWorks ++ s.callbacks, work.IsUser ∧ work.Counted := by
  intro work hwork
  have hworks := (sound_newClient.runCalls calls).1
  rw [h.runCalls] at hworks
  exact ⟨(hworks work hwork).user, (hworks work hwork).counted⟩

/-- The pipelines written before one of `Init` are of `Init` as well, and so take one
reply each. -/
theorem replyCount_init {dqInit : List CmdPipeline} (hinit : ∀ cp ∈ dqInit, IsInit cp)
    {before after : List CmdWork} {work : CmdWork} {rest : List CmdWork}
    (hsplit : dqInit.map (·.toCmdWork) ++ rest = before ++ work :: after)
    (hlt : before.length < dqInit.length) :
    replyCount before + work.replyNum = before.length + 1 ∧
      ∃ cp, dqInit[before.length]? = some cp ∧ cp.toCmdWork = work := by
  have hone : ∀ works : List CmdWork, (∀ w ∈ works, w.commands.length = 1) →
      replyCount works = works.length := by
    intro works h
    induction works with
    | nil => rfl
    | cons w works ih =>
      have hw := h w List.mem_cons_self
      rw [replyCount_cons, CmdWork.replyNum, hw, ih fun w hw => h w (List.mem_cons_of_mem _ hw),
        List.length_cons, Nat.max_self, Nat.add_comm]
  have hleads : before ++ [work] <+: dqInit.map (·.toCmdWork) := by
    have hbefore : before ++ [work] <+: before ++ work :: after :=
      ⟨after, by rw [List.append_assoc, List.singleton_append]⟩
    apply List.prefix_of_prefix_length_le hbefore
    · exact ⟨rest, hsplit⟩
    · rw [List.length_append, List.length_singleton, List.length_map]
      exact hlt
  have hmem : ∀ w ∈ before ++ [work], w.commands.length = 1 := by
    intro w hw
    obtain ⟨cp, hcp, rfl⟩ := List.mem_map.1 (hleads.subset hw)
    exact (hinit cp hcp).length
  have hcount := hone _ hmem
  rw [replyCount_append, replyCount_cons, replyCount_nil, Nat.add_zero, List.length_append,
    List.length_singleton] at hcount
  refine ⟨hcount, ?_⟩
  obtain ⟨more, hmore⟩ := hleads
  have hget := congrArg (·[before.length]?) hmore
  simp only [List.append_assoc, List.singleton_append, List.getElem?_map] at hget
  rw [List.getElem?_append_right (Nat.le_refl _), Nat.sub_self, List.getElem?_cons_zero] at hget
  exact Option.map_eq_some_iff.1 hget.symm

/-- The pipelines written take every reply of the server. -/
theorem Serving.fits (h : Serving calls sentWorks s)
    (hmade : Made sentWorks (s.answers.take s.arrived) s.conn) {n : Nat}
    (hn : s.arrived + n ≤ s.answers.length) :
    ¬ Unfit s.conn.stream (s.answers.take s.arrived).length ((s.answers.drop s.arrived).take n) := by
  have htaken : (s.answers.take s.arrived).length = s.arrived := by
    rw [List.length_take]
    exact Nat.min_eq_left h.arrived
  rw [htaken]
  rintro (⟨works, hstream, hlt⟩ | ⟨i, r, work, before, after, hi, hstream, hcount, hthrows⟩)
  · have hle := h.written works hstream
    have hcommands := commandCount_le_replyCount works
    rw [List.length_take, List.length_drop] at hlt
    omega
  · have hmade' := hmade.stream
    rw [hstream, Option.some.injEq] at hmade'
    by_cases hlt : before.length < s.conn.dqInit.length
    · obtain ⟨hbefore, cp, hcp, rfl⟩ := replyCount_init h.kept.sane.init hmade'.symm hlt
      have hget : s.answers[before.length]? = some r := by
        have hlen := (List.getElem?_eq_some_iff.1 hi).1
        rw [List.length_take] at hlen
        rw [List.getElem?_take_of_lt (by omega), List.getElem?_drop] at hi
        rw [← hi]
        congr 1
        omega
      rw [h.loaded before.length cp r hcp hget] at hthrows
      cases hthrows
    · have huser : work ∈ sentWorks := by
        have hget : (before ++ work :: after)[before.length]? = some work := by
          rw [List.getElem?_append_right (Nat.le_refl _), Nat.sub_self, List.getElem?_cons_zero]
        rw [hmade', List.getElem?_append_right (by rw [List.length_map]; omega)] at hget
        exact List.mem_of_getElem? hget
      rw [CmdWork.throwsOn, (h.kept.users work huser).replyCb] at hthrows
      cases hthrows

theorem Serving.call (h : Serving calls sentWorks s) (made : ClientCall)
    (hnext : s.next (.call made) = some s') : Serving (calls ++ [made]) sentWorks s' := by
  simp only [Service.next] at hnext
  split at hnext
  · cases hnext
  · obtain rfl := Option.some.inj hnext
    refine { h with runCalls := ?_ }
    rw [runCalls_append, h.runCalls]
    simp only [CRedisClient.runCalls, List.append_nil, List.append_assoc]

theorem Serving.readPipe (h : Serving calls sentWorks s) :
    Serving calls (sentWorks ++ s.callbacks)
      { s with callbacks := [], conn := s.conn.readPipe s.callbacks none } := by
  have hworks : ∀ work ∈ s.callbacks, work.IsUser ∧ work.Counted := fun work hwork =>
    h.commits work (List.mem_append_right _ hwork)
  have hsame : (s.conn.readPipe s.callbacks none).dqInit = s.conn.dqInit ∧
      (s.conn.readPipe s.callbacks none).calls = s.conn.calls := by
    rw [KjRedisConn.readPipe]
    split
    · exact ⟨rfl, rfl⟩
    · rw [(sameTasks_commit _ none).1.dqInit, (sameQueue_commit _ none).calls, sends_eq]
      exact ⟨rfl, rfl⟩
  have hphase : Unmade (sentWorks ++ s.callbacks) (s.conn.readPipe s.callbacks none) ∧
        s.answers = [] ∨
      Made (sentWorks ++ s.callbacks) (s.answers.take s.arrived)
        (s.conn.readPipe s.callbacks none) :=
    h.phase.imp (fun hunmade => ⟨hunmade.1.readPipe, hunmade.2⟩) fun hmade =>
      hmade.readPipe fun work hwork => (hworks work hwork).2
  refine
    { runCalls := by rw [h.runCalls, List.append_nil]
      kept := h.kept.readPipe hworks, phase := hphase, arrived := h.arrived, written := ?_
      noError := h.noError, loaded := hsame.1 ▸ h.loaded, handed := hsame.2 ▸ h.handed }
  intro works hstream
  rcases h.phase with ⟨-, hnone⟩ | hmade
  · rw [hnone]
    exact Nat.zero_le _
  · have hle := h.written _ hmade.stream
    rcases hphase with ⟨hunmade, -⟩ | hmade'
    · rw [hunmade.stream] at hstream
      cases hstream
    · rw [hmade'.stream, Option.some.injEq, hsame.1, ← List.append_assoc] at hstream
      rw [← hstream, commandCount_append]
      exact Nat.le_trans hle (Nat.le_add_right _ _)

/-- What the connection does besides reading leaves the rest of the service as it is. -/
theorem Serving.quiet (h : Serving calls sentWorks s) {e : Event (List CRedisReply)}
    {conn : KjRedisConn Unit} (he : e.sent = none) (hreceive : ∀ rs, e ≠ .receive rs)
    (hnext : (clientConn wholeReplies).next s.conn e = some conn)
    (hphase : Unmade sentWorks conn ∧ s.answers = [] ∨ Made sentWorks (s.answers.take s.arrived) conn) :
    Serving calls sentWorks { s with conn } := by
  have hinit := dqInit_next (clientConn_spec hnext)
  refine
    { h with
      kept := h.kept.quiet he hnext, phase := hphase, written := ?_, loaded := hinit ▸ h.loaded
      handed := (calls_next (next_spec hnext) hreceive) ▸ h.handed }
  intro works hstream
  rcases h.phase with ⟨-, hnone⟩ | hmade
  · rw [hnone]
    exact Nat.zero_le _
  · rcases hphase with ⟨hunmade, -⟩ | hmade'
    · rw [hunmade.stream] at hstream
      cases hstream
    · rw [hmade'.stream, hinit] at hstream
      rw [← Option.some.inj hstream]
      exact h.written _ hmade.stream

theorem Serving.connectOk (h : Serving calls sentWorks s) {conn : KjRedisConn Unit}
    (hnext : (clientConn wholeReplies).next s.conn (.connectOk none) = some conn) :
    Serving calls sentWorks { s with conn } := by
  apply h.quiet rfl (by simp) hnext
  have hspec : Next wholeReplies some s.conn (.connectOk none) conn := next_spec hnext
  obtain ⟨hconnecting, rfl⟩ := hspec.of_connectOk
  rcases h.phase with ⟨hunmade, hnone⟩ | hmade
  · rw [hnone, List.take_nil]
    exact .inr (hunmade.connected h.kept)
  · exact absurd (.inl hconnecting) (h.kept.sane.busy hmade.reading)

theorem Serving.tick (h : Serving calls sentWorks s) {conn : KjRedisConn Unit}
    (hnext : (clientConn wholeReplies).next s.conn (.tick none) = some conn) :
    Serving calls sentWorks { s with conn } := by
  apply h.quiet rfl (by simp) hnext
  simp only [clientConn, KjRedisConn.next] at hnext
  split at hnext
  · cases hnext
  · refine h.phase.imp (fun hunmade => ⟨?_, hunmade.2⟩) fun hmade => ?_
    · have hticked : Unmade sentWorks { s.conn with commitTicks := s.conn.commitTicks - 1 } :=
        { hunmade.1 with }
      rw [commitLoop_unmade hticked.bConnected] at hnext
      obtain rfl := Option.some.inj hnext
      exact { hticked with }
    · obtain ⟨c₁, hloop, hmade₁⟩ := hmade.tick
      rw [hloop] at hnext
      obtain rfl := Option.some.inj hnext
      exact hmade₁

theorem Serving.answer (h : Serving calls sentWorks s) {r : CRedisReply}
    (hnext : s.next (.answer r) = some s') : Serving calls sentWorks s' := by
  simp only [Service.next] at hnext
  split at hnext
  · cases hnext
  next works hstream =>
    split at hnext
    next hanswer =>
      obtain rfl := Option.some.inj hnext
      obtain ⟨hlt, herror, hload⟩ := hanswer
      refine { h with phase := ?_, arrived := ?_, written := ?_, noError := ?_, loaded := ?_ }
      · refine h.phase.imp (fun hunmade => ?_) fun hmade => ?_
        · have hnone := hunmade.1.stream
          rw [hstream] at hnone
          cases hnone
        · rw [List.take_append_of_le_length h.arrived]
          exact hmade
      · rw [List.length_append]
        exact Nat.le_trans h.arrived (Nat.le_add_right _ _)
      · intro works' hstream'
        obtain rfl := Option.some.inj (hstream.symm.trans hstream')
        rw [List.length_append, List.length_singleton]
        exact hlt
      · intro r' hr'
        rcases List.mem_append.1 hr' with hr' | hr'
        · exact h.noError r' hr'
        · exact List.mem_singleton.1 hr' ▸ herror
      · intro i cp r' hcp hr'
        by_cases hi : i < s.answers.length
        · rw [List.getElem?_append_left hi] at hr'
          exact h.loaded i cp r' hcp hr'
        · have hlen := (List.getElem?_eq_some_iff.1 hr').1
          rw [List.length_append, List.length_singleton] at hlen
          obtain rfl : i = s.answers.length := by omega
          rw [List.getElem?_concat_length, Option.some.injEq] at hr'
          rw [hcp, Option.all_some, hr'] at hload
          simpa using hload
    · cases hnext

theorem userReplies_append (calls calls' : List Call) :
    userReplies (calls ++ calls') = userReplies calls ++ userReplies calls' :=
  List.filterMap_append

theorem Serving.receive (h : Serving calls sentWorks s) {n : Nat} (hpos : 0 < n)
    (hn : s.arrived + n ≤ s.answers.length) :
    ∃ conn, s.next (.receive n) = some (s.received n conn) ∧
      Serving calls sentWorks (s.received n conn) ∧ conn.stream = s.conn.stream ∧ conn.reading := by
  have hmade : Made sentWorks (s.answers.take s.arrived) s.conn := by
    refine h.phase.resolve_left fun hunmade => ?_
    rw [hunmade.2, List.length_nil] at hn
    omega
  have herror : ∀ r ∈ (s.answers.drop s.arrived).take n, r.isError = false := fun r hr =>
    h.noError r (List.mem_of_mem_drop (List.mem_of_mem_take hr))
  obtain ⟨conn, hnext, hmade', hstream, new, hcalls⟩ := hmade.receive herror (h.fits hmade hn)
  have hinit := dqInit_next (clientConn_spec hnext)
  refine ⟨conn, ?_, ?_, hstream, hmade'.reading⟩
  · show (if 0 < n ∧ _ then Option.map _ ((clientConn wholeReplies).next _ _) else none) = _
    rw [if_pos ⟨hpos, hn⟩, hnext, Option.map_some]
  · refine
      { runCalls := h.runCalls, kept := h.kept.quiet rfl hnext, phase := .inr ?_, arrived := hn
        written := fun works hworks => h.written works (hstream ▸ hworks), noError := h.noError
        loaded := hinit ▸ h.loaded, handed := ?_ }
    · have htake := @List.take_add _ s.answers s.arrived n
      exact (htake ▸ hmade' : Made sentWorks (s.answers.take (s.arrived + n)) conn)
    · show ((s.invoked ++ (userReplies (conn.calls.drop s.conn.calls.length)).filter _) ++
        (s.trunk ++ (userReplies (conn.calls.drop s.conn.calls.length)).filter _)).Perm
          (userReplies conn.calls)
      rw [hcalls, List.drop_left, userReplies_append, List.append_assoc]
      refine List.Perm.trans ?_ (h.handed.append_right (userReplies new))
      rw [List.append_assoc]
      apply List.Perm.append_left
      exact (List.perm_append_comm_assoc _ _ _).trans
        (List.Perm.append_left s.trunk (List.filter_append_perm (fun call : CmdWork × CRedisReply => call.1.disposes) _))

theorem Serving.next {e : ServiceEvent} (h : Serving calls sentWorks s)
    (hnext : service.next s e = some s') :
    ∃ sentWorks', Serving (calls ++ clientCalls [e]) sentWorks' s' := by
  have hquiet : e.clientCall = none → calls ++ clientCalls [e] = calls := by
    intro he
    rw [clientCalls, List.filterMap_cons_none he, List.filterMap_nil, List.append_nil]
  cases e with
  | call made => exact ⟨sentWorks, h.call made hnext⟩
  | readPipe =>
    obtain rfl := Option.some.inj hnext
    exact ⟨_, (hquiet rfl).symm ▸ h.readPipe⟩
  | connectOk =>
    obtain ⟨conn, hconn, rfl⟩ := Option.map_eq_some_iff.1 hnext
    exact ⟨sentWorks, (hquiet rfl).symm ▸ h.connectOk hconn⟩
  | tick =>
    obtain ⟨conn, hconn, rfl⟩ := Option.map_eq_some_iff.1 hnext
    exact ⟨sentWorks, (hquiet rfl).symm ▸ h.tick hconn⟩
  | answer r => exact ⟨sentWorks, (hquiet rfl).symm ▸ h.answer hnext⟩
  | receive n =>
    have hn : 0 < n ∧ s.arrived + n ≤ s.answers.length := by
      by_contra hn
      have : s.next (.receive n) = none := if_neg hn
      cases this.symm.trans hnext
    obtain ⟨conn, hconn, hserving, -⟩ := h.receive hn.1 hn.2
    obtain rfl := Option.some.inj (hconn.symm.trans hnext)
    exact ⟨sentWorks, (hquiet rfl).symm ▸ hserving⟩
  | runOnce =>
    obtain rfl := Option.some.inj hnext
    refine ⟨sentWorks, (hquiet rfl).symm ▸ { h with handed := ?_ }⟩
    rw [List.append_nil]
    exact h.handed

theorem serving_run (param : RedisStubParam) {es : List ServiceEvent}
    (hrun : service.run (openedService param) es = some s) :
    ∃ sentWorks, Serving (clientCalls es) sentWorks s := by
  have hstep : ∀ past s e s', (∃ sentWorks, Serving (clientCalls past) sentWorks s) → True →
      service.next s e = some s' →
      ∃ sentWorks, Serving (clientCalls (past ++ [e])) sentWorks s' := by
    rintro past s e s' ⟨sentWorks, h⟩ - hnext
    rw [clientCalls, List.filterMap_append]
    exact h.next hnext
  have hopened : ∃ sentWorks, Serving (clientCalls []) sentWorks (openedService param) :=
    ⟨[], serving_opened param⟩
  exact Transition.System.run_history hstep hopened
    (Transition.System.meets_of_forall fun _ _ _ => trivial) hrun

theorem fired_eq (calls : List Call) : fired calls = (userReplies calls).map (·.1) := by
  rw [fired, userReplies, List.map_filterMap]
  apply List.filterMap_congr
  intro call _
  cases call with
  | reply work r => simp only [Call.fired, Call.userReply]; split <;> rfl
  | dispose work => rfl

theorem mem_of_userReply {calls : List Call} {work : CmdWork} {r : CRedisReply}
    (h : (work, r) ∈ userReplies calls) : .reply work r ∈ calls := by
  obtain ⟨call, hcall, hreply⟩ := List.mem_filterMap.1 h
  cases call with
  | reply work' r' =>
    simp only [Call.userReply] at hreply
    split at hreply
    · obtain ⟨rfl, rfl⟩ := Prod.mk.inj (Option.some.inj hreply)
      exact hcall
    · cases hreply
  | dispose work' => cases hreply

/-- Where no key comes twice, an entry is the only one of its key. -/
theorem filter_key {α β : Type*} [DecidableEq α] {l : List (α × β)} {a : α} {b : β}
    (hnodup : (l.map (·.1)).Nodup) (hmem : (a, b) ∈ l) :
    l.filter (fun entry => entry.1 = a) = [(a, b)] := by
  induction l with
  | nil => cases hmem
  | cons entry l ih =>
    rw [List.map_cons, List.nodup_cons] at hnodup
    rcases List.mem_cons.1 hmem with rfl | hmem
    · rw [List.filter_cons_of_pos (by simp)]
      congr 1
      apply List.filter_eq_nil_iff.2
      intro entry hentry hkey
      obtain rfl := of_decide_eq_true hkey
      exact hnodup.1 (List.mem_map.2 ⟨entry, hentry, rfl⟩)
    · have hne : entry.1 ≠ a := by
        rintro rfl
        exact hnodup.1 (List.mem_map.2 ⟨_, hmem, rfl⟩)
      rw [List.filter_cons_of_neg (by simpa using hne)]
      exact ih hnodup.2 hmem

/-- A pipeline without commands takes a reply too many. -/
theorem commandCount_lt_replyCount {works : List CmdWork} {work : CmdWork} (hmem : work ∈ works)
    (hempty : work.commands = []) : commandCount works < replyCount works := by
  obtain ⟨before, after, rfl⟩ := List.append_of_mem hmem
  have hbefore := commandCount_le_replyCount before
  have hafter := commandCount_le_replyCount after
  have hpos := work.replyNum_pos
  rw [commandCount_append, commandCount_cons, replyCount_append, replyCount_cons, hempty,
    List.length_nil]
  omega

theorem commandCount_eq_zero {works : List CmdWork} (h : ∀ work ∈ works, work.commands = []) :
    commandCount works = 0 := by
  induction works with
  | nil => rfl
  | cons work works ih =>
    rw [commandCount_cons, h work List.mem_cons_self,
      ih fun work' hwork' => h work' (List.mem_cons_of_mem work hwork')]
    rfl

/-- What a settled service has done. Every pipeline sent has been written; those whose
callbacks have been called are `done`, and `ps` have not had all their replies. -/
structure Outcome (sentWorks : List CmdWork) (s : Service) (done : List CmdWork)
    (ps : List CmdPipeline) : Prop where
  stream : s.conn.stream = some (done ++ ps.map (·.toCmdWork))
  split : done ++ ps.map (·.toCmdWork) = s.conn.dqInit.map (·.toCmdWork) ++ sentWorks
  count : commandCount (done ++ ps.map (·.toCmdWork)) = replyCount done + progress ps
  running : ∀ cp ∈ ps, cp.processedNum < cp.replyNum
  order : fired s.conn.calls ++ waiting ps = sentWorks
  attributed : Attributed s.conn.stream 0 s.answers s.conn.calls
  handed : s.invoked.Perm (userReplies s.conn.calls)

theorem Serving.outcome (h : Serving calls sentWorks s) (hsettled : s.Settled) :
    ∃ done ps, Outcome sentWorks s done ps := by
  have hmade : Made sentWorks (s.answers.take s.arrived) s.conn := by
    refine h.phase.resolve_left fun hunmade => ?_
    have hreading := hsettled.reading
    rw [hunmade.1.reading] at hreading
    cases hreading
  have htaken : s.answers.take s.arrived = s.answers := by
    rw [hsettled.arrived, List.take_length]
  rw [htaken] at hmade
  obtain ⟨done, ps, hflight⟩ := hmade.flight
  obtain ⟨works, hworks, hanswers⟩ := hsettled.answered
  obtain rfl := Option.some.inj (hflight.stream.symm.trans hworks)
  obtain ⟨evs, horder, hsent⟩ := h.kept.order
  have hqueue := horder.order
  rw [hflight.dqCommon, List.append_nil, hsent] at hqueue
  have hhanded := h.handed
  rw [hsettled.trunk, List.append_nil] at hhanded
  exact ⟨done, ps,
    { stream := hflight.stream
      split := Option.some.inj (hflight.stream.symm.trans hmade.stream)
      count := hanswers.symm.trans hflight.count
      running := hflight.running, order := hqueue, attributed := hmade.attributed
      handed := hhanded }⟩

variable {done : List CmdWork} {ps : List CmdPipeline}

/-- A caller's pipeline has had its replies, or it is among those that have not. -/
theorem Outcome.fired_or (h : Outcome sentWorks s done ps) {work : CmdWork}
    (hwork : work ∈ sentWorks) : work ∈ fired s.conn.calls ∨ work ∈ ps.map (·.toCmdWork) := by
  rw [← h.order] at hwork
  exact (List.mem_append.1 hwork).imp_right List.mem_of_mem_filter

theorem Outcome.not_waiting (h : Outcome sentWorks s done ps) (hnodup : sentWorks.Nodup)
    {work : CmdWork} (hfired : work ∈ fired s.conn.calls) (hsn : 0 < work.sn) :
    work ∉ ps.map (·.toCmdWork) := by
  rw [← h.order, List.nodup_append] at hnodup
  intro hmem
  exact hnodup.2.2 work hfired work (List.mem_filter.2 ⟨hmem, decide_eq_true hsn⟩) rfl

/-- A callback that has fired has been invoked once. -/
theorem Outcome.invoked (h : Outcome sentWorks s done ps) (hnodup : sentWorks.Nodup)
    {work : CmdWork} (hfired : work ∈ fired s.conn.calls) :
    ∃ r, .reply work r ∈ s.conn.calls ∧
      s.invoked.filter (fun call => call.1 = work) = [(work, r)] := by
  rw [← h.order, List.nodup_append, fired_eq] at hnodup
  rw [fired_eq] at hfired
  obtain ⟨⟨work, r⟩, hmem, rfl⟩ := List.mem_map.1 hfired
  refine ⟨r, mem_of_userReply hmem, ?_⟩
  apply List.perm_singleton.1
  rw [← filter_key hnodup.1 hmem]
  exact h.handed.filter _

theorem Outcome.fired_of_calledBack (h : Outcome sentWorks s done ps) {work : CmdWork}
    (hcalled : s.CalledBack work) : work ∈ fired s.conn.calls := by
  obtain ⟨r, -, -, hinvoked, -⟩ := hcalled
  have hmem : (work, r) ∈ s.invoked.filter (fun call => call.1 = work) := by
    rw [hinvoked]
    exact List.mem_singleton_self _
  rw [fired_eq]
  exact List.mem_map.2 ⟨_, h.handed.subset (List.mem_of_mem_filter hmem), rfl⟩

/-- No pipeline without commands comes before one with commands on the stream either:
those of `Init` have one. -/
theorem EmptyLast.written {dqInit : List CmdPipeline} (hinit : ∀ cp ∈ dqInit, IsInit cp)
    (h : EmptyLast sentWorks) : EmptyLast (dqInit.map (·.toCmdWork) ++ sentWorks) := by
  have hfilled : ∀ work ∈ dqInit.map (·.toCmdWork), work.commands ≠ [] := by
    intro work hwork hempty
    obtain ⟨cp, hcp, rfl⟩ := List.mem_map.1 hwork
    have hlen := (hinit cp hcp).length
    rw [hempty] at hlen
    cases hlen
  apply List.pairwise_append.2
  refine ⟨?_, h, fun work hwork _ _ hempty => absurd hempty (hfilled work hwork)⟩
  have hany : (dqInit.map (·.toCmdWork)).Pairwise fun _ _ => True :=
    List.pairwise_of_forall fun _ _ => trivial
  exact hany.imp_of_mem fun hwork _ _ hempty => absurd hempty (hfilled _ hwork)

theorem EmptyLast.before {before after : List CmdWork} {work : CmdWork}
    (h : EmptyLast (before ++ work :: after)) (hwork : work.commands ≠ []) :
    ∀ w ∈ before, 0 < w.commands.length := by
  intro w hw
  apply List.length_pos_of_ne_nil
  intro hempty
  exact hwork ((List.pairwise_append.1 h).2.2 w hw work List.mem_cons_self hempty)

/-- Where pipelines without commands come last, every other one has had its replies. -/
theorem Outcome.fired_of_emptyLast (h : Outcome sentWorks s done ps)
    (hinit : ∀ cp ∈ s.conn.dqInit, IsInit cp) (hlast : EmptyLast sentWorks) {work : CmdWork}
    (hmem : work ∈ sentWorks) (hwork : work.commands ≠ []) : work ∈ fired s.conn.calls := by
  refine (h.fired_or hmem).resolve_right fun hps => ?_
  obtain ⟨cp, hcp, rfl⟩ := List.mem_map.1 hps
  obtain ⟨front, back, rfl⟩ := List.append_of_mem hcp
  have hall := hlast.written hinit
  rw [← h.split, List.map_append, List.map_cons, ← List.append_assoc] at hall
  have hfilled := hall.before hwork
  have hdone := replyCount_eq fun w hw => hfilled w (List.mem_append_left _ hw)
  have hcount := h.count
  rw [hdone, List.map_append, List.map_cons, commandCount_append, commandCount_append,
    commandCount_cons] at hcount
  have hpos : 0 < cp.commands.length := List.length_pos_of_ne_nil hwork
  -- the pipeline the replies stopped at has had fewer than it has commands
  cases front with
  | nil =>
    have hrunning := h.running cp hcp
    rw [CmdWork.replyNum_eq hpos] at hrunning
    simp only [List.nil_append, progress, List.map_nil, commandCount_nil] at hcount
    omega
  | cons first front =>
    have hfirst := hfilled first.toCmdWork (List.mem_append_right _ List.mem_cons_self)
    have hrunning := h.running first List.mem_cons_self
    rw [CmdWork.replyNum_eq hfirst] at hrunning
    simp only [List.cons_append, progress, List.map_cons, commandCount_cons] at hcount
    omega

/-- Every pipeline with commands has had its callback called just when no pipeline
without commands was committed before one with. -/
theorem Outcome.calledBack_iff (h : Outcome sentWorks s done ps)
    (hinit : ∀ cp ∈ s.conn.dqInit, IsInit cp) (hnodup : sentWorks.Nodup)
    (husers : ∀ work ∈ sentWorks, work.IsUser) :
    (∀ work ∈ sentWorks, work.commands ≠ [] → s.CalledBack work) ↔ EmptyLast sentWorks := by
  constructor
  · intro hcalled
    apply List.pairwise_iff_forall_sublist.2
    intro work later hsub hempty
    by_contra hlater
    have hmem : later ∈ sentWorks := hsub.subset (List.mem_cons_of_mem _ List.mem_cons_self)
    have hfired := h.fired_of_calledBack (hcalled later hmem hlater)
    have hnot := h.not_waiting hnodup hfired (husers later hmem).sn
    have hdone : work ∈ done := by
      have hwritten := hsub.trans (List.sublist_append_right (s.conn.dqInit.map (·.toCmdWork)) _)
      rw [← h.split] at hwritten
      obtain ⟨l₁, l₂, hl, h₁, h₂⟩ := List.sublist_append_iff.1 hwritten
      cases l₁ with
      | nil =>
        rw [List.nil_append] at hl
        exact absurd (h₂.subset (hl ▸ List.mem_cons_of_mem _ List.mem_cons_self)) hnot
      | cons w l₁ =>
        obtain ⟨rfl, -⟩ := List.cons.inj hl
        exact h₁.subset List.mem_cons_self
    -- what has not had its replies was committed, and so holds no command
    have hrest : ∀ w ∈ ps.map (·.toCmdWork), w.commands = [] := by
      intro w hw
      rcases List.append_eq_append_iff.1 h.split with ⟨init, -, hps⟩ | ⟨sent, -, hsent⟩
      · exact absurd (hps ▸ List.mem_append_right init hmem) hnot
      · have hw' : w ∈ sentWorks := hsent ▸ List.mem_append_right sent hw
        by_contra hfilled
        have hfired := h.fired_of_calledBack (hcalled w hw' hfilled)
        exact h.not_waiting hnodup hfired (husers w hw').sn hw
    have hcount := h.count
    rw [commandCount_append, commandCount_eq_zero hrest, Nat.add_zero] at hcount
    have hlt := commandCount_lt_replyCount hdone hempty
    omega
  · intro hlast work hmem hwork
    obtain ⟨r, hcall, hinvoked⟩ :=
      h.invoked hnodup (h.fired_of_emptyLast hinit hlast hmem hwork)
    obtain ⟨i, before, after, hi, hstream, hcount⟩ := h.attributed work r hcall
    refine ⟨r, before, after, hinvoked, hstream, ?_⟩
    have hall := hlast.written hinit
    rw [← h.split, ← Option.some.inj (hstream.symm.trans h.stream)] at hall
    rw [replyCount_eq (hall.before hwork), CmdWork.replyNum_eq (List.length_pos_of_ne_nil hwork),
      Nat.zero_add] at hcount
    rw [← hcount, Nat.add_sub_cancel]
    exact hi

/-- The second state follows the first without any call of the client. -/
def Service.Continues (s s' : Service) : Prop :=
  ∃ es, (∀ e ∈ es, e.clientCall = none) ∧ service.run s es = some s'

theorem Service.Continues.refl (s : Service) : s.Continues s :=
  ⟨[], fun _ h => absurd h List.not_mem_nil, rfl⟩

theorem Service.Continues.trans {s'' : Service} (h : s.Continues s') (h' : s'.Continues s'') :
    s.Continues s'' := by
  obtain ⟨es, hes, hrun⟩ := h
  obtain ⟨es', hes', hrun'⟩ := h'
  refine ⟨es ++ es', fun e he => ?_, Transition.System.run_append_some.2 ⟨s', hrun, hrun'⟩⟩
  exact (List.mem_append.1 he).elim (hes e) (hes' e)

theorem Service.Continues.step (e : ServiceEvent) (he : e.clientCall = none)
    (hnext : s.next e = some s') : s.Continues s' := by
  refine ⟨[e], List.forall_mem_singleton.2 he, ?_⟩
  exact Transition.System.run_cons_some.2 ⟨s', hnext, rfl⟩

/-- The server can always answer: a script load with the digest asked for. -/
theorem exists_answer (cp : CmdPipeline) : ∃ r : CRedisReply, r.isError = false ∧ cp.throwsOn r = false := by
  cases hcb : cp.replyCb with
  | none => exact ⟨.ofInt 0, rfl, by rw [CmdWork.throwsOn, hcb]; rfl⟩
  | some cb =>
    cases cb with
    | user => exact ⟨.ofInt 0, rfl, by rw [CmdWork.throwsOn, hcb]; rfl⟩
    | scriptLoad sSha =>
      refine ⟨.ofString (sSha.map some) .bulkString, rfl, ?_⟩
      rw [CmdWork.throwsOn, hcb]
      simp [ReplyCb.throws, bRegisterSuccess, CRedisReply.ofString, CRedisReply.ok,
        CRedisReply.isError, CRedisReply.isString]

theorem Serving.connects (h : Serving calls sentWorks s) :
    ∃ s', s.Continues s' ∧ Serving calls sentWorks s' ∧ s'.conn.reading := by
  rcases h.phase with ⟨hunmade, -⟩ | hmade
  · have hnext : (clientConn wholeReplies).next s.conn (.connectOk none) =
        some (s.conn.connected none) := if_pos hunmade.connecting
    refine ⟨{ s with conn := s.conn.connected none }, ?_, h.connectOk hnext, ?_⟩
    · apply Service.Continues.step .connectOk rfl
      exact Option.map_eq_some_iff.2 ⟨_, hnext, rfl⟩
    · exact (hunmade.connected h.kept).reading
  · exact ⟨s, .refl s, h, hmade.reading⟩

theorem Serving.made (h : Serving calls sentWorks s) (hreading : s.conn.reading) :
    Made sentWorks (s.answers.take s.arrived) s.conn := by
  refine h.phase.resolve_left fun hunmade => ?_
  rw [hunmade.1.reading] at hreading
  cases hreading

theorem Serving.answers (h : Serving calls sentWorks s) (hreading : s.conn.reading)
    {works : List CmdWork} (hstream : s.conn.stream = some works) :
    ∃ s', s.Continues s' ∧ Serving calls sentWorks s' ∧ s'.conn = s.conn ∧
      s'.callbacks = s.callbacks ∧ s'.answers.length = commandCount works := by
  obtain ⟨k, hk⟩ := Nat.exists_eq_add_of_le (h.written works hstream)
  induction k generalizing s with
  | zero => exact ⟨s, .refl s, h, rfl, rfl, hk.symm⟩
  | succ k ih =>
    have hanswer : ∃ r : CRedisReply, r.isError = false ∧
        (s.conn.dqInit[s.answers.length]?).all (fun cp => !cp.throwsOn r) = true := by
      cases s.conn.dqInit[s.answers.length]? with
      | none => exact ⟨.ofInt 0, rfl, rfl⟩
      | some cp =>
        obtain ⟨r, herror, hload⟩ := exists_answer cp
        exact ⟨r, herror, by rw [Option.all_some, hload]; rfl⟩
    obtain ⟨r, herror, hload⟩ := hanswer
    have hnext : s.next (.answer r) = some { s with answers := s.answers ++ [r] } := by
      simp only [Service.next, hstream]
      rw [if_pos ⟨by omega, herror, hload⟩]
    obtain ⟨s', hcontinues, hserving, hconn, hcallbacks, hlen⟩ :=
      ih (h.answer hnext) hreading hstream
        (by rw [List.length_append, List.length_singleton]; omega)
    exact ⟨s', (Service.Continues.step (.answer r) rfl hnext).trans hcontinues, hserving, hconn, hcallbacks, hlen⟩

/-- The replies still on their way arrive. -/
theorem Serving.arrives (h : Serving calls sentWorks s) (hreading : s.conn.reading) :
    ∃ s', s.Continues s' ∧ s'.callbacks = s.callbacks ∧ s'.conn.reading ∧
      s'.conn.stream = s.conn.stream ∧ s'.answers = s.answers ∧ s'.arrived = s'.answers.length := by
  rcases Nat.eq_or_lt_of_le h.arrived with heq | hlt
  · exact ⟨s, .refl s, rfl, hreading, rfl, rfl, heq⟩
  · have hall : s.arrived + (s.answers.length - s.arrived) = s.answers.length :=
      Nat.add_sub_cancel' h.arrived
    obtain ⟨conn, hnext, -, hstream, hreading'⟩ :=
      h.receive (Nat.sub_pos_of_lt hlt) (Nat.le_of_eq hall)
    exact ⟨_, .step _ rfl hnext, rfl, hreading', hstream, rfl, hall⟩

/-- Whatever has been committed, the connection and the server can bring to its end. -/
theorem Serving.settles (h : Serving calls sentWorks s) : ∃ s', s.Continues s' ∧ s'.Settled := by
  obtain ⟨s₁, h₁, hserving₁, hreading₁⟩ := h.connects
  have hserving₂ := hserving₁.readPipe
  have h₂ : s₁.Continues
      { s₁ with callbacks := [], conn := s₁.conn.readPipe s₁.callbacks none } :=
    .step .readPipe rfl rfl
  have hmade := (hserving₁.made hreading₁).readPipe fun work hwork =>
    (hserving₁.commits work (List.mem_append_right _ hwork)).2
  obtain ⟨s₃, h₃, hserving₃, hconn₃, hcallbacks₃, hlen₃⟩ :=
    hserving₂.answers hmade.reading hmade.stream
  obtain ⟨s₄, h₄, hcallbacks₄, hreading₄, hstream₄, hanswers₄, harrived₄⟩ :=
    hserving₃.arrives (hconn₃ ▸ hmade.reading)
  have h₅ : s₄.Continues { s₄ with trunk := [], invoked := s₄.invoked ++ s₄.trunk } :=
    .step .runOnce rfl rfl
  refine ⟨_, h₁.trans (h₂.trans (h₃.trans (h₄.trans h₅))), ?_⟩
  exact
    { callbacks := hcallbacks₄.trans hcallbacks₃
      reading := hreading₄
      answered := ⟨_, hstream₄.trans (hconn₃ ▸ hmade.stream), (congrArg _ hanswers₄).trans hlen₃⟩
      arrived := harrived₄
      trunk := rfl }

/-- Over a connection that does not fail, whatever a client has committed can be brought
to its end; and once it is, every pipeline with commands has had its callback invoked
exactly once, with the reply to its last command, just when no pipeline without commands
was committed before one with. -/
theorem calledBack_iff_emptyLast (param : RedisStubParam) {es : List ServiceEvent} {s : Service}
    (hrun : service.run (openedService param) es = some s) :
    (∃ s', s.Continues s' ∧ s'.Settled) ∧
      (s.Settled → ((∀ work ∈ committed (clientCalls es), work.commands ≠ [] → s.CalledBack work) ↔
        EmptyLast (committed (clientCalls es)))) := by
  obtain ⟨sentWorks, h⟩ := serving_run param hrun
  refine ⟨h.settles, fun hsettled => ?_⟩
  have hcommitted : committed (clientCalls es) = sentWorks := by
    rw [committed, h.runCalls, hsettled.callbacks, List.append_nil]
  obtain ⟨done, ps, houtcome⟩ := h.outcome hsettled
  have hnodup := committed_nodup (clientCalls es)
  rw [hcommitted] at hnodup ⊢
  exact houtcome.calledBack_iff h.kept.sane.init hnodup h.kept.users

/-- A commit of two commands and a blocking one of a third. -/
theorem calledBack_iff_emptyLast_blocking :
    let es : List ServiceEvent :=
      [.call (.buildCommand [[80]]), .call (.buildCommand [[81]]), .connectOk, .call .commit,
        .call (.buildCommand [[82]]), .readPipe, .call .blockingCommit,
        .answer (.ofString (sTestcmsgpack.map some) .bulkString), .answer (.ofInt 1), .receive 2,
        .readPipe, .answer (.ofInt 2), .answer (.ofInt 3), .receive 2, .runOnce]
    ∃ s, service.run (openedService ⟨[], []⟩) es = some s ∧
      ∀ work ∈ committed (clientCalls es), work.commands ≠ [] → s.CalledBack work := by
  intro es
  have hend : (service.run (openedService ⟨[], []⟩) es).map (fun s =>
      (s.callbacks, s.conn.reading, s.conn.stream.map commandCount, s.answers.length, s.arrived,
        s.trunk.length)) = some ([], true, some 4, 4, 4, 0) := by decide +kernel
  obtain ⟨s, hrun, hs⟩ := Option.map_eq_some_iff.1 hend
  simp only [Prod.mk.injEq] at hs
  obtain ⟨hcallbacks, hreading, hstream, hanswers, harrived, htrunk⟩ := hs
  obtain ⟨works, hworks, hcount⟩ := Option.map_eq_some_iff.1 hstream
  have hsettled : s.Settled :=
    ⟨hcallbacks, hreading, ⟨works, hworks, hanswers.trans hcount.symm⟩, harrived.trans hanswers.symm,
      List.eq_nil_of_length_eq_zero htrunk⟩
  have hlast : EmptyLast (committed (clientCalls es)) := by
    apply List.Pairwise.cons
    · exact List.forall_mem_singleton.2 fun hempty => by cases hempty
    · exact List.pairwise_singleton _ _
  exact ⟨s, hrun, ((calledBack_iff_emptyLast ⟨[], []⟩ hrun).2 hsettled).2 hlast⟩

/-- A commit of nothing takes the reply of the next. -/
theorem not_calledBack_empty :
    ¬ ∀ (param : RedisStubParam) (es : List ServiceEvent) (s : Service),
      service.run (openedService param) es = some s → s.Settled →
        ∀ work ∈ committed (clientCalls es), work.commands ≠ [] → s.CalledBack work := by
  intro hall
  let es : List ServiceEvent :=
    [.connectOk, .call .commit, .call (.buildCommand [[80]]), .call .commit, .readPipe,
      .answer (.ofString (sTestcmsgpack.map some) .bulkString), .answer (.ofInt 7), .receive 2,
      .runOnce]
  have hend : (service.run (openedService ⟨[], []⟩) es).map (fun s =>
      ((s.callbacks, s.conn.reading, s.conn.stream.map commandCount), s.answers.length, s.arrived,
        s.trunk.length, s.invoked.map (·.1.sn))) = some (([], true, some 2), 2, 2, 0, [1]) := by
    decide +kernel
  obtain ⟨s, hrun, hs⟩ := Option.map_eq_some_iff.1 hend
  simp only [Prod.mk.injEq] at hs
  obtain ⟨⟨hcallbacks, hreading, hstream⟩, hanswers, harrived, htrunk, hinvoked⟩ := hs
  obtain ⟨works, hworks, hcount⟩ := Option.map_eq_some_iff.1 hstream
  have hsettled : s.Settled :=
    ⟨hcallbacks, hreading, ⟨works, hworks, hanswers.trans hcount.symm⟩, harrived.trans hanswers.symm,
      List.eq_nil_of_length_eq_zero htrunk⟩
  let second : CmdWork :=
    { sn := 2, commands := [[[80]]], builtNum := 1, replyCb := some .user, disposes := false }
  have hmem : second ∈ committed (clientCalls es) := by decide
  obtain ⟨r, -, -, honce, -⟩ := hall ⟨[], []⟩ es s hrun hsettled second hmem (by decide)
  have hcalled : (second, r) ∈ s.invoked :=
    List.mem_of_mem_filter (honce ▸ List.mem_singleton_self (second, r))
  have hsn : second.sn ∈ s.invoked.map (·.1.sn) := List.mem_map.2 ⟨_, hcalled, rfl⟩
  rw [hinvoked] at hsn
  exact absurd hsn (by decide)

end KjRedis.Conn
