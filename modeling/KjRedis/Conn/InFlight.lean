import KjRedis.Conn.Connection
import Mathlib.Data.List.Infix
import Mathlib.Algebra.BigOperators.Group.List.Basic

/-! One connection while it is read: the pipelines written on it are those finished
followed by those still at the front of the deque, and the replies taken from it are those
the first take and the progress of the second. -/
namespace KjRedis.Conn

open KjRedisConn

/-- The commands of some pipelines, together. -/
def commandCount (works : List CmdWork) : Nat := (works.map (·.commands.length)).sum

@[simp] theorem commandCount_append (works works' : List CmdWork) :
    commandCount (works ++ works') = commandCount works + commandCount works' := by
  rw [commandCount, List.map_append, List.sum_append, ← commandCount, ← commandCount]

@[simp] theorem commandCount_cons (work : CmdWork) (works : List CmdWork) :
    commandCount (work :: works) = work.commands.length + commandCount works := by
  rw [commandCount, List.map_cons, List.sum_cons, ← commandCount]

@[simp] theorem commandCount_nil : commandCount [] = 0 := rfl

/-- The commands of a pipeline are counted by `_built_num`. -/
def CmdWork.Counted (work : CmdWork) : Prop := work.builtNum = work.commands.length

/-- The replies a pipeline takes: one, also where it holds no command. -/
def CmdWork.replyNum (work : CmdWork) : Nat := max 1 work.commands.length

/-- The replies some pipelines take, together. -/
def replyCount (works : List CmdWork) : Nat := (works.map CmdWork.replyNum).sum

@[simp] theorem replyCount_append (works works' : List CmdWork) :
    replyCount (works ++ works') = replyCount works + replyCount works' := by
  rw [replyCount, List.map_append, List.sum_append, ← replyCount, ← replyCount]

@[simp] theorem replyCount_cons (work : CmdWork) (works : List CmdWork) :
    replyCount (work :: works) = work.replyNum + replyCount works := by
  rw [replyCount, List.map_cons, List.sum_cons, ← replyCount]

@[simp] theorem replyCount_nil : replyCount [] = 0 := rfl

theorem CmdWork.replyNum_pos (work : CmdWork) : 0 < work.replyNum :=
  Nat.lt_of_lt_of_le Nat.one_pos (Nat.le_max_left 1 _)

theorem CmdWork.replyNum_eq {work : CmdWork} (h : 0 < work.commands.length) :
    work.replyNum = work.commands.length := Nat.max_eq_right h

theorem commandCount_le_replyCount (works : List CmdWork) : commandCount works ≤ replyCount works := by
  induction works with
  | nil => exact Nat.le_refl 0
  | cons work works ih =>
    rw [commandCount_cons, replyCount_cons]
    exact Nat.add_le_add (Nat.le_max_right 1 _) ih

/-- Pipelines that all hold a command take a reply for each. -/
theorem replyCount_eq {works : List CmdWork} (h : ∀ work ∈ works, 0 < work.commands.length) :
    replyCount works = commandCount works := by
  induction works with
  | nil => rfl
  | cons work works ih =>
    rw [replyCount_cons, commandCount_cons, CmdWork.replyNum_eq (h work List.mem_cons_self),
      ih fun work' hwork' => h work' (List.mem_cons_of_mem work hwork')]

/-- The replies the front pipeline has had. -/
def progress : List CmdPipeline → Nat
  | [] => 0
  | cp :: _ => cp.processedNum

/-- The pipelines `done` and `ps` have been written, `unsent` wait to be; `n` replies
have been taken. -/
structure InFlight {τ : Type*} (done : List CmdWork) (ps unsent : List CmdPipeline) (n : Nat)
    (c : KjRedisConn τ) : Prop where
  stream : c.stream = some (done ++ ps.map (·.toCmdWork))
  dqCommon : c.dqCommon = ps ++ unsent
  written : ∀ cp ∈ ps, PipelineState.committing.toNat ≤ cp.state.toNat
  sending : ∀ cp ∈ unsent, cp.state = .sending
  works : ∀ cp ∈ ps ++ unsent, cp.toCmdWork.Counted
  running : ∀ cp ∈ ps, cp.processedNum < cp.replyNum
  unanswered : ∀ cp ∈ ps.tail ++ unsent, cp.processedNum = 0
  count : n = replyCount done + progress ps
  num : (ps.length : Int) ≤ c.committingNum

variable {τ : Type*} {done : List CmdWork} {ps unsent : List CmdPipeline} {n : Nat}
  {c c' : KjRedisConn τ}

theorem InFlight.copy (h : InFlight done ps unsent n c) (hstream : c'.stream = c.stream)
    (hdq : c'.dqCommon = c.dqCommon) (hnum : c'.committingNum = c.committingNum) :
    InFlight done ps unsent n c' :=
  { h with
    stream := hstream.trans h.stream, dqCommon := hdq.trans h.dqCommon, num := hnum ▸ h.num }

/-- A stream just made: nothing has been written, everything waits. -/
theorem inFlight_start (hstream : c.stream = some []) (hnum : 0 ≤ c.committingNum)
    (hsending : ∀ cp ∈ c.dqCommon, cp.state = .sending)
    (hworks : ∀ cp ∈ c.dqCommon, cp.toCmdWork.Counted)
    (hunanswered : ∀ cp ∈ c.dqCommon, cp.processedNum = 0) :
    InFlight [] [] c.dqCommon 0 c where
  stream := hstream
  dqCommon := rfl
  written _ h := absurd h List.not_mem_nil
  sending := hsending
  works := hworks
  running _ h := absurd h List.not_mem_nil
  unanswered := hunanswered
  count := rfl
  num := hnum

theorem InFlight.send (h : InFlight done ps unsent n c) {work : CmdWork} (hwork : work.Counted) :
    InFlight done ps (unsent ++ [(createCmdPipeline work).setState .sending]) n (c.send work) := by
  have hsnoc : ∀ {P : CmdPipeline → Prop} {cps : List CmdPipeline}, (∀ cp ∈ cps, P cp) →
      P ((createCmdPipeline work).setState .sending) →
      ∀ cp ∈ cps ++ [(createCmdPipeline work).setState .sending], P cp := by
    intro P cps hall hnew cp hcp
    rcases List.mem_append.1 hcp with hcp | hcp
    · exact hall cp hcp
    · exact List.mem_singleton.1 hcp ▸ hnew
  refine { h with dqCommon := ?_, sending := hsnoc h.sending rfl, works := ?_, unanswered := ?_ }
  · rw [KjRedisConn.send, h.dqCommon, List.append_assoc]
  · rw [← List.append_assoc]
    exact hsnoc h.works hwork
  · rw [← List.append_assoc]
    exact hsnoc h.unanswered rfl

theorem writeSending_skips {cps : List CmdPipeline} (h : ∀ cp ∈ cps, cp.state ≠ .sending) {ok : Nat}
    {dq : List CmdPipeline} :
    writeSending ok (cps ++ dq) = (cps ++ (writeSending ok dq).1, (writeSending ok dq).2) := by
  induction cps with
  | nil => rfl
  | cons cp cps ih =>
    rw [List.cons_append, writeSending_skip _ (h cp List.mem_cons_self),
      ih fun cp' hcp' => h cp' (List.mem_cons_of_mem cp hcp')]
    rfl

theorem writeSending_written {cps : List CmdPipeline}
    (h : ∀ cp ∈ cps, PipelineState.committing.toNat ≤ cp.state.toNat) (ok : Nat)
    (dq : List CmdPipeline) :
    writeSending ok (cps ++ dq) = (cps ++ (writeSending ok dq).1, (writeSending ok dq).2) := by
  refine writeSending_skips fun cp hcp hs => ?_
  have := h cp hcp
  rw [hs] at this
  exact absurd this (by decide)

/-- Of pipelines that all wait, the first `ok` are written. -/
theorem writeSending_unsent (ok : Nat) {dq : List CmdPipeline} (h : ∀ cp ∈ dq, cp.state = .sending) :
    writeSending ok dq =
      ((dq.take ok).map (·.setState .committing) ++ dq.drop ok,
        (dq.take ok).map (·.toCmdWork), decide (ok < dq.length)) := by
  induction dq generalizing ok with
  | nil => cases ok <;> rfl
  | cons cp dq ih =>
    have hcp := h cp List.mem_cons_self
    cases ok with
    | zero =>
      rw [writeSending_throw dq hcp]
      simp
    | succ ok =>
      rw [writeSending_write dq hcp, ih ok fun cp' hcp' => h cp' (List.mem_cons_of_mem cp hcp')]
      simp

/-- The first of the waiting pipelines have been written. -/
theorem InFlight.wrote {sending waiting : List CmdPipeline}
    (h : InFlight done ps (sending ++ waiting) n c) {num : Int}
    (hnum : num = c.committingNum + sending.length)
    (hstream : c'.stream = c.stream.map (· ++ sending.map (·.toCmdWork)))
    (hdq : c'.dqCommon = ps ++ (sending.map (·.setState .committing) ++ waiting))
    (hcommitting : c'.committingNum = num) :
    InFlight done (ps ++ sending.map (·.setState .committing)) waiting n c' := by
  have hworks : (sending.map (·.setState .committing)).map (·.toCmdWork) =
      sending.map (·.toCmdWork) := by
    rw [List.map_map]
    rfl
  have hsplit : ∀ {P : CmdPipeline → Prop},
      (∀ cp ∈ ps, P cp) → (∀ cp ∈ sending, P (cp.setState .committing)) →
      ∀ cp ∈ ps ++ sending.map (·.setState .committing), P cp := by
    intro P hps hsending cp hcp
    rcases List.mem_append.1 hcp with hcp | hcp
    · exact hps cp hcp
    · obtain ⟨cp', hcp', rfl⟩ := List.mem_map.1 hcp
      exact hsending cp' hcp'
  have hmem : ∀ cp ∈ sending, cp ∈ sending ++ waiting := fun cp hcp => List.mem_append_left _ hcp
  have hfresh : ∀ cp ∈ sending ++ waiting, cp.processedNum = 0 := fun cp hcp =>
    h.unanswered cp (List.mem_append_right _ hcp)
  refine ⟨?_, ?_, ?_, ?_, ?_, ?_, ?_, ?_, ?_⟩
  · rw [hstream, h.stream, Option.map_some, List.map_append, hworks, List.append_assoc]
  · rw [hdq, List.append_assoc]
  · exact hsplit h.written fun cp _ => Nat.le_refl _
  · exact fun cp hcp => h.sending cp (List.mem_append_right _ hcp)
  · intro cp hcp
    rcases List.mem_append.1 hcp with hcp | hcp
    · exact hsplit (fun cp hcp => h.works cp (List.mem_append_left _ hcp))
        (fun cp hcp => h.works cp (List.mem_append_right _ (hmem cp hcp))) cp hcp
    · exact h.works cp (List.mem_append_right _ (List.mem_append_right _ hcp))
  · refine hsplit h.running fun cp hcp => ?_
    rw [processedNum_setState, hfresh cp (hmem cp hcp)]
    exact cp.replyNum_pos
  · intro cp hcp
    rcases List.mem_append.1 hcp with hcp | hcp
    · have hcp : cp ∈ ps.tail ∨ cp ∈ sending.map (·.setState .committing) := by
        cases ps with
        | nil => exact .inr (List.mem_of_mem_tail hcp)
        | cons front ps => exact List.mem_append.1 hcp
      rcases hcp with hcp | hcp
      · exact h.unanswered cp (List.mem_append_left _ hcp)
      · obtain ⟨cp', hcp', rfl⟩ := List.mem_map.1 hcp
        exact hfresh cp' (hmem cp' hcp')
    · exact hfresh cp (List.mem_append_right _ hcp)
  · rw [h.count]
    congr 1
    cases ps with
    | cons front ps => rfl
    | nil =>
      cases sending with
      | nil => rfl
      | cons front sending => exact (hfresh front List.mem_cons_self).symm
  · rw [hcommitting, hnum, List.length_append, List.length_map]
    have := h.num
    omega

/-- `CommitLoop` writes a first part of the pipelines that wait: all of them, if no
write throws. -/
theorem InFlight.commitLoop (h : InFlight done ps unsent n c) (ok : Option Nat) :
    ∃ ps' unsent', InFlight done ps' unsent' n (c.commitLoop ok).1 ∧
      (c.bConnected → ok = none → unsent' = [] ∧ (c.commitLoop ok).2 = false) := by
  by_cases hconn : c.bConnected
  · have hloop : c.commitLoop ok =
        let k := ok.getD c.dqCommon.length
        ({ c with
            dqCommon := ps ++ ((unsent.take k).map (·.setState .committing) ++ unsent.drop k)
            committingNum := c.committingNum + ((unsent.take k).map (·.toCmdWork)).length
            stream := c.stream.map (· ++ (unsent.take k).map (·.toCmdWork)) },
          decide (k < unsent.length)) := by
      rw [KjRedisConn.commitLoop, if_pos hconn, h.stream, Option.isSome_some, if_pos rfl]
      simp only [h.dqCommon, writeSending_written h.written, writeSending_unsent _ h.sending]
    rw [hloop]
    refine ⟨_, _, InFlight.wrote (by rw [List.take_append_drop]; exact h)
      (congrArg (c.committingNum + ·) (by rw [List.length_map])) rfl rfl rfl, fun _ hok => ?_⟩
    rw [hok, Option.getD_none, h.dqCommon, List.length_append]
    refine ⟨List.drop_eq_nil_of_le (Nat.le_add_left _ _), decide_eq_false ?_⟩
    omega
  · rw [KjRedisConn.commitLoop, if_neg hconn]
    exact ⟨ps, unsent, h.copy rfl rfl rfl, fun hc => absurd hc hconn⟩

theorem InFlight.commit (h : InFlight done ps unsent n c) (ok : Option Nat) :
    ∃ ps' unsent', InFlight done ps' unsent' n (c.commit ok) ∧
      (c.bConnected → ok = none → unsent' = []) := by
  rw [KjRedisConn.commit]
  split
  next hempty =>
    have hdq := h.dqCommon
    rw [hempty] at hdq
    exact ⟨ps, unsent, h, fun _ _ => (List.append_eq_nil_iff.1 hdq.symm).2⟩
  next =>
    obtain ⟨ps', unsent', hloop, hall⟩ := h.commitLoop ok
    refine ⟨ps', unsent', ?_, fun hconn hok => (hall hconn hok).1⟩
    split
    next c' threw heq =>
      rw [heq] at hloop
      split
      · exact hloop.copy rfl rfl rfl
      · exact hloop

/-- In the calls `new` of the replies `rs`, taken after the first `n`, every pipeline is
given the last of the replies it takes. -/
def Attributed (stream : Option (List CmdWork)) (n : Nat) (rs : List CRedisReply)
    (new : List Call) : Prop :=
  ∀ work r, .reply work r ∈ new → ∃ i before after, rs[i]? = some r ∧
    stream = some (before ++ work :: after) ∧
    n + i + 1 = replyCount before + work.replyNum

theorem attributed_nil (stream : Option (List CmdWork)) (n : Nat) (rs : List CRedisReply) :
    Attributed stream n rs [] := fun _ _ hmem => absurd hmem List.not_mem_nil

theorem attributed_replied {work : CmdWork} {before after : List CmdWork} {r : CRedisReply}
    {stream : Option (List CmdWork)} (hstream : stream = some (before ++ work :: after))
    (hcount : n + 1 = replyCount before + work.replyNum) :
    Attributed stream n [r] (work.replied r) := by
  intro work' r' hmem
  rw [CmdWork.replied] at hmem
  split at hmem
  · obtain ⟨rfl, rfl⟩ := Call.reply.inj (List.mem_singleton.1 hmem)
    exact ⟨0, before, after, rfl, hstream, hcount⟩
  · cases hmem

theorem Attributed.disposed {stream : Option (List CmdWork)} {rs : List CRedisReply}
    {new : List Call} (h : Attributed stream n rs new) (work : CmdWork) :
    Attributed stream n rs (new ++ work.disposed) := by
  intro work' r hmem
  rcases List.mem_append.1 hmem with hmem | hmem
  · exact h work' r hmem
  · rw [CmdWork.disposed] at hmem
    split at hmem <;> simp at hmem

theorem Attributed.cons {stream : Option (List CmdWork)} {r : CRedisReply} {rs : List CRedisReply}
    {new new' : List Call} (h : Attributed stream n [r] new)
    (h' : Attributed stream (n + 1) rs new') : Attributed stream n (r :: rs) (new ++ new') := by
  intro work r' hmem
  rcases List.mem_append.1 hmem with hmem | hmem
  · obtain ⟨i, before, after, hi, hstream, hcount⟩ := h work r' hmem
    cases i with
    | zero => exact ⟨0, before, after, hi, hstream, hcount⟩
    | succ i => simp at hi
  · obtain ⟨i, before, after, hi, hstream, hcount⟩ := h' work r' hmem
    exact ⟨i + 1, before, after, hi, hstream, by omega⟩

/-- Of the replies `rs`, taken after the first `n`, one more than the pipelines written take
has come, or one on which its pipeline's callback throws. -/
def Unfit (stream : Option (List CmdWork)) (n : Nat) (rs : List CRedisReply) : Prop :=
  (∃ works, stream = some works ∧ replyCount works < n + rs.length) ∨
    ∃ i r work before after, rs[i]? = some r ∧ stream = some (before ++ work :: after) ∧
      n + i + 1 = replyCount before + work.replyNum ∧ work.throwsOn r

theorem Unfit.head {stream : Option (List CmdWork)} {r : CRedisReply} (h : Unfit stream n [r])
    (rs : List CRedisReply) : Unfit stream n (r :: rs) := by
  rcases h with ⟨works, hstream, hlt⟩ | ⟨i, r', work, before, after, hi, h⟩
  · refine .inl ⟨works, hstream, ?_⟩
    rw [List.length_singleton] at hlt
    rw [List.length_cons]
    omega
  · cases i with
    | zero => exact .inr ⟨0, r', work, before, after, hi, h⟩
    | succ i => simp at hi

theorem Unfit.cons {stream : Option (List CmdWork)} {rs : List CRedisReply}
    (h : Unfit stream (n + 1) rs) (r : CRedisReply) : Unfit stream n (r :: rs) := by
  rcases h with ⟨works, hstream, hlt⟩ | ⟨i, r', work, before, after, hi, hstream, hcount, h⟩
  · refine .inl ⟨works, hstream, ?_⟩
    rw [List.length_cons]
    omega
  · exact .inr ⟨i + 1, r', work, before, after, hi, hstream, by omega, h⟩

/-- The reply that completes the front pipeline is the last it takes. -/
theorem InFlight.last {cp : CmdPipeline} (h : InFlight done (cp :: ps) unsent n c)
    (hlast : cp.builtNum ≤ cp.processedNum + 1) : n + 1 = replyCount done + cp.replyNum := by
  have hbuilt : cp.builtNum = cp.commands.length := h.works cp List.mem_cons_self
  have hrunning := h.running cp List.mem_cons_self
  have hcount := h.count
  rw [progress] at hcount
  rw [CmdWork.replyNum] at hrunning ⊢
  omega

/-- A pipeline that has been written is the first of those in flight, if it is the first of all. -/
theorem InFlight.front {cp : CmdPipeline} {dq : List CmdPipeline} (h : InFlight done ps unsent n c)
    (hdq : c.dqCommon = cp :: dq) (hstate : PipelineState.committing.toNat ≤ cp.state.toNat) :
    ∃ ps', ps = cp :: ps' ∧ dq = ps' ++ unsent := by
  have hps := h.dqCommon
  rw [hdq] at hps
  cases ps with
  | nil =>
    rw [List.nil_append] at hps
    have := h.sending cp (hps ▸ List.mem_cons_self)
    rw [this] at hstate
    exact absurd hstate (by decide)
  | cons front ps =>
    obtain ⟨rfl, rfl⟩ := List.cons.inj hps
    exact ⟨ps, rfl, rfl⟩

/-- The front pipeline has had one more of its replies. -/
theorem InFlight.counted {cp : CmdPipeline} {c' : KjRedisConn τ} (h : InFlight done (cp :: ps) unsent n c)
    (hmore : cp.processedNum + 1 < cp.builtNum) (hstream : c'.stream = c.stream)
    (hdq : c'.dqCommon = cp.counted :: ps ++ unsent) (hnum : c'.committingNum = c.committingNum) :
    InFlight done (cp.counted :: ps) unsent (n + 1) c' where
  stream := hstream.trans h.stream
  dqCommon := hdq
  written := List.forall_mem_cons.2
    ⟨Nat.le_succ 3, fun cp' hcp' => h.written cp' (List.mem_cons_of_mem cp hcp')⟩
  sending := h.sending
  works := List.forall_mem_cons.2
    ⟨h.works cp List.mem_cons_self, fun cp' hcp' => h.works cp' (List.mem_cons_of_mem cp hcp')⟩
  running := by
    have hbuilt : cp.builtNum = cp.commands.length := h.works cp List.mem_cons_self
    have hrunning : cp.processedNum + 1 < cp.replyNum :=
      Nat.lt_of_lt_of_le (hbuilt ▸ hmore) (Nat.le_max_right 1 _)
    exact List.forall_mem_cons.2
      ⟨hrunning, fun cp' hcp' => h.running cp' (List.mem_cons_of_mem cp hcp')⟩
  unanswered := h.unanswered
  count := congrArg (· + 1) h.count
  num := by
    rw [hnum]
    exact h.num

/-- The front pipeline has had the last of its replies. -/
theorem InFlight.finished {cp : CmdPipeline} {c' : KjRedisConn τ} (h : InFlight done (cp :: ps) unsent n c)
    (hlast : cp.builtNum ≤ cp.processedNum + 1) (hstream : c'.stream = c.stream)
    (hdq : c'.dqCommon = ps ++ unsent) (hnum : c'.committingNum = c.committingNum - 1) :
    InFlight (done ++ [cp.toCmdWork]) ps unsent (n + 1) c' where
  stream := by rw [hstream, h.stream, List.map_cons, List.append_assoc, List.singleton_append]
  dqCommon := hdq
  written cp' hcp' := h.written cp' (List.mem_cons_of_mem cp hcp')
  sending := h.sending
  works cp' hcp' := h.works cp' (List.mem_cons_of_mem cp hcp')
  running cp' hcp' := h.running cp' (List.mem_cons_of_mem cp hcp')
  unanswered cp' hcp' := h.unanswered cp'
    (List.mem_append.2 ((List.mem_append.1 hcp').imp_left List.mem_of_mem_tail))
  count := by
    have hprogress : progress ps = 0 := by
      cases ps with
      | nil => rfl
      | cons front ps => exact h.unanswered front (List.mem_append_left _ List.mem_cons_self)
    rw [h.last hlast, replyCount_append, replyCount_cons, hprogress]
    rfl
  num := by
    have := h.num
    rw [List.length_cons] at this
    rw [hnum]
    omega

/-- A reply completes the front pipeline just when it is the last the pipeline takes. -/
theorem InFlight.onReply (h : InFlight done ps unsent n c) (r : CRedisReply) :
    ∃ new, (c.onReply r).1.calls = c.calls ++ new ∧ (c.onReply r).1.stream = c.stream ∧
      Attributed c.stream n [r] new ∧
      ((c.onReply r).2 = false → ∃ done' ps', InFlight done' ps' unsent (n + 1) (c.onReply r).1) ∧
      ((c.onReply r).2 = true → Unfit c.stream n [r]) := by
  have hspec := onReply_spec c r
  generalize c.onReply r = o at hspec ⊢
  cases hspec with
  | refused hrefused =>
    refine ⟨[], (List.append_nil _).symm, rfl, attributed_nil _ _ _,
      fun hthrew => absurd hthrew (by simp), fun _ => .inl ⟨_, h.stream, ?_⟩⟩
    cases ps with
    | nil =>
      rw [List.map_nil, List.append_nil, h.count]
      exact Nat.lt_succ_self _
    | cons front ps =>
      have hnum := h.num
      have hstate := h.written front List.mem_cons_self
      rw [List.length_cons] at hnum
      rcases hrefused front _ h.dqCommon with hle | hlt
      · omega
      · omega
  | counted cp dq hdq hnum hstate hmore =>
    obtain ⟨ps, rfl, rfl⟩ := h.front hdq hstate
    exact ⟨[], (List.append_nil _).symm, rfl, attributed_nil _ _ _,
      fun _ => ⟨done, cp.counted :: ps, h.counted hmore rfl rfl rfl⟩, fun hthrew => absurd hthrew (by simp)⟩
  | threw cp dq hdq hnum hstate hlast hcb =>
    obtain ⟨ps, rfl, rfl⟩ := h.front hdq hstate
    exact ⟨cp.replied r, rfl, rfl, attributed_replied h.stream (h.last hlast),
      fun hok => absurd hok (by simp),
      fun _ => .inr ⟨0, r, cp.toCmdWork, done, _, rfl, h.stream, h.last hlast, hcb⟩⟩
  | finished cp dq hdq hnum hstate hlast hcb =>
    obtain ⟨ps, rfl, rfl⟩ := h.front hdq hstate
    exact ⟨cp.replied r ++ cp.disposed, List.append_assoc .., rfl,
      (attributed_replied h.stream (h.last hlast)).disposed cp.toCmdWork,
      fun _ => ⟨done ++ [cp.toCmdWork], ps, h.finished hlast rfl rfl rfl⟩,
      fun hthrew => absurd hthrew (by simp)⟩

theorem InFlight.replyLoop (h : InFlight done ps unsent n c)
    (intake : CRedisReply → Option CRedisReply) (rs : List CRedisReply) :
    ∃ new, (KjRedisConn.replyLoop intake rs c).1.calls = c.calls ++ new ∧
      Attributed c.stream n (rs.filterMap intake) new ∧
      ((KjRedisConn.replyLoop intake rs c).2 = false → ∃ done' ps',
        InFlight done' ps' unsent (n + (rs.filterMap intake).length)
          (KjRedisConn.replyLoop intake rs c).1) ∧
      ((KjRedisConn.replyLoop intake rs c).2 = true →
        (∃ r ∈ rs, r.isError) ∨ Unfit c.stream n (rs.filterMap intake)) := by
  induction rs generalizing done ps n c with
  | nil =>
    exact ⟨[], (List.append_nil _).symm, attributed_nil _ _ _,
      fun _ => ⟨done, ps, h.copy rfl rfl rfl⟩, fun hthrew => absurd hthrew (by simp [KjRedisConn.replyLoop])⟩
  | cons r rs ih =>
    have h' : InFlight done ps unsent n { c with availableReplies := rs } := h.copy rfl rfl rfl
    rw [KjRedisConn.replyLoop]
    split
    next herror =>
      exact ⟨[], (List.append_nil _).symm, attributed_nil _ _ _, fun hok => absurd hok (by simp),
        fun _ => .inl ⟨r, List.mem_cons_self, herror⟩⟩
    next herror =>
      split
      next hmessage =>
        rw [List.filterMap_cons_none hmessage]
        obtain ⟨new, hcalls, hattr, hok, hthrew⟩ := ih h'
        refine ⟨new, hcalls, hattr, hok, fun ht => ?_⟩
        rcases hthrew ht with ⟨e, he, herr⟩ | hunfit
        · exact .inl ⟨e, List.mem_cons_of_mem r he, herr⟩
        · exact .inr hunfit
      next r' hreply =>
        rw [List.filterMap_cons_some hreply]
        obtain ⟨new, hcalls, hstream, hattr, hok, hthrew⟩ := h'.onReply r'
        split
        next c₁ heq =>
          rw [heq] at hcalls hthrew
          have hnew := hattr.cons (attributed_nil c.stream (n + 1) (rs.filterMap intake))
          rw [List.append_nil] at hnew
          exact ⟨new, hcalls, hnew, fun hok => absurd hok (by simp),
            fun _ => .inr ((hthrew rfl).head _)⟩
        next c₁ heq =>
          rw [heq] at hcalls hstream hok
          obtain ⟨done₁, ps₁, h₁⟩ := hok rfl
          obtain ⟨new', hcalls', hattr', hok', hthrew'⟩ := ih h₁
          have hstream : c₁.stream = c.stream := hstream
          rw [hstream] at hattr' hthrew'
          refine ⟨new ++ new', ?_, hattr.cons hattr', fun ht => ?_, fun ht => ?_⟩
          · rw [hcalls', ← List.append_assoc]
            exact congrArg (· ++ new') hcalls
          · rw [List.length_cons, Nat.add_comm _ 1, ← Nat.add_assoc]
            exact hok' ht
          · rcases hthrew' ht with ⟨e, he, herr⟩ | hunfit
            · exact .inl ⟨e, List.mem_cons_of_mem r he, herr⟩
            · exact .inr (hunfit.cons r')

theorem stream_onReply (c : KjRedisConn τ) (r : CRedisReply) : (c.onReply r).1.stream = c.stream := by
  have hspec := onReply_spec c r
  generalize c.onReply r = o at hspec ⊢
  cases hspec <;> rfl

variable {ι : Type*} {P : ReplyParser ι τ} {intake : CRedisReply → Option CRedisReply}

/-- The connection just before the pipelines are sent again. -/
def KjRedisConn.resending (c : KjRedisConn τ) : KjRedisConn τ :=
  { c with
    connecting := false, stream := some [], bConnected := true, reading := true
    dqCommon := (c.dqInit ++ c.dqCommon.filter fun cp =>
      0 < cp.sn ∧ cp.state.toNat < PipelineState.processOver.toNat).map (·.setState .sending) }

theorem connected_eq (c : KjRedisConn τ) (ok : Option Nat) :
    c.connected ok = (KjRedisConn.resending c).commit ok := rfl

theorem resending_cases {cp : CmdPipeline} (h : cp ∈ (KjRedisConn.resending c).dqCommon) :
    cp.state = .sending ∧ ∃ cp', cp'.toCmdWork = cp.toCmdWork ∧
      cp'.processedNum = cp.processedNum ∧ (cp' ∈ c.dqInit ∨ cp' ∈ c.dqCommon ∧ 0 < cp'.sn) := by
  obtain ⟨cp', hcp', rfl⟩ := List.mem_map.1 h
  refine ⟨rfl, cp', rfl, rfl, ?_⟩
  rcases List.mem_append.1 hcp' with hcp' | hcp'
  · exact .inl hcp'
  · obtain ⟨hmem, hkeep⟩ := List.mem_filter.1 hcp'
    exact .inr ⟨hmem, (of_decide_eq_true hkeep).1⟩

/-- Every pipeline of the connection, queued, written or sent first, is one of these. -/
structure Only (Q : CmdWork → Prop) (c : KjRedisConn τ) : Prop where
  queued : ∀ work ∈ c.queued, Q work
  init : ∀ cp ∈ c.dqInit, Q cp.toCmdWork
  written : ∀ works, c.stream = some works → ∀ work ∈ works, Q work

variable {Q : CmdWork → Prop}

theorem only_opened (P : ReplyParser ι τ) {dqInit : List CmdPipeline}
    (hinit : ∀ cp ∈ dqInit, Q cp.toCmdWork) : Only Q (opened P dqInit) where
  queued _ h := absurd h List.not_mem_nil
  init := hinit
  written _ h := by cases h

theorem Only.same (h : Only Q c) (hqueue : SameQueue c c') (hstream : c'.stream = c.stream) :
    Only Q c' where
  queued := hqueue.queued ▸ h.queued
  init := hqueue.dqInit ▸ h.init
  written := hstream ▸ h.written

/-- What is written was queued. -/
theorem writeSending_mem {ok : Nat} {dq : List CmdPipeline} {work : CmdWork}
    (h : work ∈ (writeSending ok dq).2.1) : work ∈ dq.map (·.toCmdWork) := by
  induction dq generalizing ok with
  | nil => cases h
  | cons cp dq ih =>
    by_cases hs : cp.state = .sending
    · cases ok with
      | zero =>
        rw [writeSending_throw dq hs] at h
        cases h
      | succ ok =>
        rw [writeSending_write dq hs] at h
        rcases List.mem_cons.1 h with rfl | h
        · exact List.mem_cons_self
        · exact List.mem_cons_of_mem _ (ih h)
    · rw [writeSending_skip dq hs] at h
      exact List.mem_cons_of_mem _ (ih h)

theorem Only.commitLoop (h : Only Q c) (ok : Option Nat) : Only Q (c.commitLoop ok).1 := by
  have hqueue := sameQueue_commitLoop c ok
  refine ⟨hqueue.queued ▸ h.queued, hqueue.dqInit ▸ h.init, ?_⟩
  rw [KjRedisConn.commitLoop]
  split
  · intro works hworks work hwork
    obtain ⟨works, hstream, rfl⟩ := Option.map_eq_some_iff.1 hworks
    rcases List.mem_append.1 hwork with hwork | hwork
    · exact h.written works hstream work hwork
    · exact h.queued work (writeSending_mem hwork)
  · exact h.written

theorem Only.commit (h : Only Q c) (ok : Option Nat) : Only Q (c.commit ok) := by
  rw [KjRedisConn.commit]
  split
  · exact h
  · have hloop := h.commitLoop ok
    split
    next c' threw heq =>
      rw [heq] at hloop
      split
      · exact { hloop with }
      · exact hloop

theorem Only.onReply (h : Only Q c) (r : CRedisReply) : Only Q (c.onReply r).1 := by
  have hspec := onReply_spec c r
  generalize c.onReply r = o at hspec ⊢
  have hqueued : ∀ {cp dq}, c.dqCommon = cp :: dq →
      ∀ work, work = cp.toCmdWork ∨ work ∈ dq.map (·.toCmdWork) → Q work := by
    intro cp dq hdq work hwork
    apply h.queued
    rw [KjRedisConn.queued, hdq]
    exact List.mem_cons.2 hwork
  cases hspec with
  | refused => exact h
  | counted cp dq hdq =>
    exact { h with queued := fun work hwork => hqueued hdq work (List.mem_cons.1 hwork) }
  | threw cp dq hdq =>
    exact { h with queued := fun work hwork => hqueued hdq work (List.mem_cons.1 hwork) }
  | finished cp dq hdq =>
    exact { h with queued := fun work hwork => hqueued hdq work (.inr hwork) }

theorem Only.resending (h : Only Q c) : Only Q (KjRedisConn.resending c) := by
  refine ⟨fun work hwork => ?_, h.init, fun works hworks work hwork => ?_⟩
  · obtain ⟨cp, hcp, rfl⟩ := List.mem_map.1 hwork
    obtain ⟨-, cp', hwork', -, hcp' | ⟨hcp', -⟩⟩ := resending_cases hcp
    · exact hwork' ▸ h.init cp' hcp'
    · exact hwork' ▸ h.queued _ (List.mem_map_of_mem hcp')
  · obtain rfl := Option.some.inj hworks
    cases hwork

theorem Only.next {e : Event ι} (h : Only Q c) (hsend : ∀ work, e = .send work → Q work)
    (hnext : Next P intake c e c') : Only Q c' := by
  have hloop : ∀ {parser replies c₁ threw}, KjRedisConn.replyLoop intake
      (c.availableReplies ++ replies) (c.parsed parser replies) = (c₁, threw) → Only Q c₁ := by
    intro parser replies c₁ threw heq
    have hparsed : Only Q (c.parsed parser replies) := { h with }
    have hread := replyLoop_keeps (Only Q) (fun _ _ h => { h with }) (fun _ r h => h.onReply r)
      intake (c.availableReplies ++ replies) hparsed
    rw [heq] at hread
    exact hread
  cases hnext with
  | send work =>
    refine { h with queued := fun w hw => ?_ }
    rw [KjRedisConn.queued, KjRedisConn.send, List.map_append] at hw
    rcases List.mem_append.1 hw with hw | hw
    · exact h.queued w hw
    · exact List.mem_singleton.1 hw ▸ hsend work rfl
  | commit ok => exact h.commit ok
  | tick ok c₁ threw _ hcommit =>
    have hticked : Only Q { c with commitTicks := c.commitTicks - 1 } := { h with }
    have hcommitted := hticked.commitLoop ok
    rw [hcommit] at hcommitted
    split
    · exact { hcommitted with }
    · exact hcommitted
  | unparsed chunk parser replies => exact { h with }
  | read chunk parser replies c₁ _ _ heq => exact hloop heq
  | refused chunk parser replies c₁ _ _ heq => exact { hloop heq with }
  | readFail => exact { h with }
  | reset =>
    have hqueue := sameQueue_reset P c
    exact ⟨hqueue.queued ▸ h.queued, h.init, fun _ hworks => by cases hworks⟩
  | timer => exact { h with }
  | connectOk ok => exact h.resending.commit ok
  | connectFail => exact { h with }

/-- The init pipelines are init pipelines; and while the connection waits to connect, its
parser is fresh and nothing is read. -/
structure Sane {ι τ : Type*} (P : ReplyParser ι τ) (c : KjRedisConn τ) : Prop where
  init : ∀ cp ∈ c.dqInit, IsInit cp
  num : 0 ≤ c.committingNum
  idle : c.connecting ∨ c.bDelayReconnecting →
    c.reading = false ∧ c.parser = P.fresh ∧ c.availableReplies = []
  once : ¬ (c.connecting ∧ c.bDelayReconnecting)

theorem sane_opened (P : ReplyParser ι τ) {dqInit : List CmdPipeline}
    (hinit : ∀ cp ∈ dqInit, IsInit cp) : Sane P (opened P dqInit) where
  init := hinit
  num := Int.le_refl 0
  idle _ := ⟨rfl, rfl, rfl⟩
  once h := absurd h.2 (by simp [opened])

theorem IsInit.counted {cp : CmdPipeline} (h : IsInit cp) : cp.toCmdWork.Counted := h.builtNum

theorem commitLoop_num (c : KjRedisConn τ) (ok : Option Nat) :
    c.committingNum ≤ (c.commitLoop ok).1.committingNum := by
  rw [KjRedisConn.commitLoop]
  split
  · exact Int.le_add_of_nonneg_right (Int.natCast_nonneg _)
  · exact Int.le_refl _

theorem commit_num (c : KjRedisConn τ) (ok : Option Nat) :
    c.committingNum ≤ (c.commit ok).committingNum := by
  rw [KjRedisConn.commit]
  split
  · exact Int.le_refl _
  · have h := commitLoop_num c ok
    split
    next c' threw heq =>
      rw [heq] at h
      split <;> exact h

theorem Sane.onReply (h : Sane P c) (r : CRedisReply) : Sane P (c.onReply r).1 := by
  have hspec := onReply_spec c r
  generalize c.onReply r = o at hspec ⊢
  cases hspec with
  | finished cp dq hdq hnum => exact { h with num := Int.le_sub_one_of_lt hnum }
  | _ => exact { h with }

/-- While a connection is read it does not wait to connect. -/
theorem Sane.busy (h : Sane P c) (hreading : c.reading) :
    ¬ (c.connecting ∨ c.bDelayReconnecting) := by
  intro hidle
  rw [(h.idle hidle).1] at hreading
  cases hreading

theorem Sane.replyLoop (h : Sane P c) (hbusy : ¬ (c.connecting ∨ c.bDelayReconnecting))
    (rs : List CRedisReply) : Sane P (KjRedisConn.replyLoop intake rs c).1 := by
  have hkeeps : Sane P (KjRedisConn.replyLoop intake rs c).1 ∧
      ¬ ((KjRedisConn.replyLoop intake rs c).1.connecting ∨
        (KjRedisConn.replyLoop intake rs c).1.bDelayReconnecting) := by
    apply replyLoop_keeps fun c : KjRedisConn τ =>
      Sane P c ∧ ¬ (c.connecting ∨ c.bDelayReconnecting)
    · exact fun c _ h => ⟨{ h.1 with idle := fun hidle => absurd hidle h.2 }, h.2⟩
    · intro c r h
      have hsame := sameTasks_onReply c r
      refine ⟨h.1.onReply r, ?_⟩
      rw [hsame.connecting, hsame.bDelayReconnecting]
      exact h.2
    · exact ⟨h, hbusy⟩
  exact hkeeps.1

theorem Sane.same (h : Sane P c) (hqueue : SameQueue c c') (htasks : SameTasks c c')
    (havailable : c'.availableReplies = c.availableReplies) (hnum : 0 ≤ c'.committingNum) :
    Sane P c' where
  init := hqueue.dqInit ▸ h.init
  num := hnum
  idle := by
    rw [htasks.parser, havailable, htasks.reading, htasks.connecting, htasks.bDelayReconnecting]
    exact h.idle
  once := by
    rw [htasks.connecting, htasks.bDelayReconnecting]
    exact h.once

theorem Sane.commitLoop (h : Sane P c) (ok : Option Nat) : Sane P (c.commitLoop ok).1 :=
  h.same (sameQueue_commitLoop c ok) (sameTasks_commitLoop c ok).1 (sameTasks_commitLoop c ok).2
    (Int.le_trans h.num (commitLoop_num c ok))

theorem Sane.commit (h : Sane P c) (ok : Option Nat) : Sane P (c.commit ok) :=
  h.same (sameQueue_commit c ok) (sameTasks_commit c ok).1 (sameTasks_commit c ok).2
    (Int.le_trans h.num (commit_num c ok))

theorem Sane.failed (h : Sane P c) : Sane P c.taskFailed :=
  { h with }

theorem Sane.resending (h : Sane P c) (hconnecting : c.connecting) :
    Sane P (KjRedisConn.resending c) where
  init := h.init
  num := h.num
  idle hidle := by
    rcases hidle with hidle | hidle
    · cases hidle
    · exact absurd ⟨hconnecting, hidle⟩ h.once
  once hboth := absurd hboth.1 (by simp [KjRedisConn.resending])

theorem Sane.next {e : Event ι} (h : Sane P c) (hnext : Next P intake c e c') : Sane P c' := by
  have hread : ∀ {parser replies c₁ threw}, c.reading →
      KjRedisConn.replyLoop intake (c.availableReplies ++ replies) (c.parsed parser replies) =
        (c₁, threw) → Sane P c₁ := by
    intro parser replies c₁ threw hreading heq
    have hbusy := h.busy hreading
    have hparsed : Sane P (c.parsed parser replies) :=
      { h with idle := fun hidle => absurd hidle hbusy }
    have hloop := @Sane.replyLoop _ _ _ _ intake hparsed hbusy (c.availableReplies ++ replies)
    rw [heq] at hloop
    exact hloop
  have hfailed : ∀ {c₁ : KjRedisConn τ}, Sane P c₁ → Sane P c₁.readFailed := by
    intro c₁ h₁
    exact { h₁ with idle := fun hidle => ⟨rfl, (h₁.idle hidle).2⟩ }
  cases hnext with
  | send work => exact { h with }
  | commit ok => exact h.commit ok
  | tick ok c₁ threw _ hcommit =>
    have hticked : Sane P { c with commitTicks := c.commitTicks - 1 } := { h with }
    have hloop := hticked.commitLoop ok
    rw [hcommit] at hloop
    split
    · exact hloop.failed
    · exact hloop
  | unparsed chunk parser replies hreading =>
    exact { h with idle := fun hidle => absurd hidle (h.busy hreading) }
  | read chunk parser replies c₁ hreading _ heq => exact hread hreading heq
  | refused chunk parser replies c₁ hreading _ heq => exact hfailed (hread hreading heq)
  | readFail => exact hfailed h
  | reset =>
    exact
      { init := h.init
        num := Int.le_refl 0
        idle := fun _ => ⟨rfl, rfl, rfl⟩
        once := fun hboth => absurd hboth.1 (by simp [KjRedisConn.reset]) }
  | timer hdelay =>
    refine { h with idle := fun _ => h.idle (.inr hdelay), once := fun hboth => ?_ }
    cases hboth.2
  | connectOk ok hconnecting => exact (h.resending hconnecting).commit ok
  | connectFail =>
    refine { h with idle := fun hidle => h.idle (.inr ?_), once := fun hboth => ?_ }
    · exact hidle.resolve_left (by simp [KjRedisConn.taskFailed])
    · cases hboth.1

/-- After a connect everything is sent again, if no pipeline has been answered in part. -/
theorem Sane.inFlight_connected (h : Sane P c) (honly : Only CmdWork.Counted c)
    (hunanswered : ∀ cp ∈ c.dqCommon, 0 < cp.sn → cp.processedNum = 0) (ok : Option Nat) :
    ∃ ps unsent, InFlight [] ps unsent 0 (c.connected ok) ∧ (ok = none → unsent = []) := by
  have hstart : InFlight [] [] (KjRedisConn.resending c).dqCommon 0 (KjRedisConn.resending c) := by
    apply inFlight_start
    · rfl
    · exact h.num
    · exact fun cp hcp => (resending_cases hcp).1
    · intro cp hcp
      obtain ⟨-, cp', hwork, -, hcp' | ⟨hcp', -⟩⟩ := resending_cases hcp
      · exact hwork ▸ (h.init cp' hcp').counted
      · exact hwork ▸ honly.queued _ (List.mem_map_of_mem hcp')
    · intro cp hcp
      obtain ⟨-, cp', -, hprocessed, hcp' | ⟨hcp', hsn⟩⟩ := resending_cases hcp
      · exact hprocessed ▸ (h.init cp' hcp').processedNum
      · exact hprocessed ▸ hunanswered cp' hcp' hsn
  obtain ⟨ps, unsent, hcommit, hall⟩ := hstart.commit ok
  exact ⟨ps, unsent, hcommit, hall rfl⟩

/-- Only reading calls callbacks. -/
theorem calls_next {e : Event ι} (hnext : Next P intake c e c')
    (hreceive : ∀ chunk, e ≠ .receive chunk) : c'.calls = c.calls := by
  cases hnext with
  | commit ok => exact (sameQueue_commit c ok).calls
  | tick ok c₁ threw _ hcommit =>
    have hsame := sameQueue_commitLoop { c with commitTicks := c.commitTicks - 1 } ok
    rw [hcommit] at hsame
    split <;> exact hsame.calls
  | unparsed chunk => exact absurd rfl (hreceive chunk)
  | read chunk => exact absurd rfl (hreceive chunk)
  | refused chunk => exact absurd rfl (hreceive chunk)
  | connectOk ok => exact (sameQueue_commit (KjRedisConn.resending c) ok).calls
  | _ => rfl

/-- What neither reads nor connects only adds pipelines and writes them. -/
theorem InFlight.next {e : Event ι} (h : InFlight done ps unsent n c)
    (hsend : ∀ work, e = .send work → work.Counted) (hnext : Next P intake c e c')
    (hreceive : ∀ chunk, e ≠ .receive chunk) (hconnect : ∀ ok, e ≠ .connectOk ok)
    (hreading : c'.reading) : (∃ ps' unsent', InFlight done ps' unsent' n c') ∧
      c'.parser = c.parser ∧ c'.availableReplies = c.availableReplies := by
  cases hnext with
  | send work => exact ⟨⟨ps, _, h.send (hsend work rfl)⟩, rfl, rfl⟩
  | commit ok =>
    obtain ⟨ps', unsent', hcommit, -⟩ := h.commit ok
    exact ⟨⟨ps', unsent', hcommit⟩, (sameTasks_commit c ok).1.parser, (sameTasks_commit c ok).2⟩
  | tick ok c₁ threw _ hcommit =>
    have hticked : InFlight done ps unsent n { c with commitTicks := c.commitTicks - 1 } :=
      h.copy rfl rfl rfl
    obtain ⟨ps', unsent', hloop, -⟩ := hticked.commitLoop ok
    have htasks := sameTasks_commitLoop { c with commitTicks := c.commitTicks - 1 } ok
    rw [hcommit] at hloop htasks
    split
    · exact ⟨⟨ps', unsent', hloop.copy rfl rfl rfl⟩, htasks.1.parser, htasks.2⟩
    · exact ⟨⟨ps', unsent', hloop⟩, htasks.1.parser, htasks.2⟩
  | unparsed chunk => exact absurd rfl (hreceive chunk)
  | read chunk => exact absurd rfl (hreceive chunk)
  | refused chunk => exact absurd rfl (hreceive chunk)
  | readFail => cases hreading
  | reset => cases hreading
  | timer => exact ⟨⟨ps, unsent, h.copy rfl rfl rfl⟩, rfl, rfl⟩
  | connectOk ok => exact absurd rfl (hconnect ok)
  | connectFail => exact ⟨⟨ps, unsent, h.copy rfl rfl rfl⟩, rfl, rfl⟩

/-- Reading writes nothing. -/
theorem stream_receive {chunk : ι} (hnext : Next P intake c (.receive chunk) c') :
    c'.stream = c.stream := by
  have hread : ∀ {parser replies c₁ threw}, KjRedisConn.replyLoop intake
      (c.availableReplies ++ replies) (c.parsed parser replies) = (c₁, threw) →
      c₁.stream = c.stream := by
    intro parser replies c₁ threw heq
    have hkeeps := replyLoop_keeps (fun c' : KjRedisConn τ => c'.stream = c.stream)
      (fun _ _ h => h) (fun c' r h => (stream_onReply c' r).trans h) intake
      (c.availableReplies ++ replies) (show (c.parsed parser replies).stream = c.stream from rfl)
    rw [heq] at hkeeps
    exact hkeeps
  cases hnext with
  | unparsed => rfl
  | read _ _ _ _ _ _ hloop => exact hread hloop
  | refused _ _ _ c₁ _ _ hloop =>
    have hstill : c₁.stream = c.stream := hread hloop
    exact hstill

/-- Until the next connect a stream only grows. -/
theorem stream_next {e : Event ι} (hnext : Next P intake c e c') (hconnect : ∀ ok, e ≠ .connectOk ok)
    (hreset : e ≠ .reset) {works : List CmdWork} (hstream : c.stream = some works) :
    ∃ more, c'.stream = some (works ++ more) := by
  have hsame : c'.stream = c.stream → ∃ more, c'.stream = some (works ++ more) := fun h =>
    ⟨[], by rw [h, hstream, List.append_nil]⟩
  by_cases hreceive : ∃ chunk, e = .receive chunk
  · obtain ⟨chunk, rfl⟩ := hreceive
    exact hsame (stream_receive hnext)
  have hcommitLoop : ∀ (c : KjRedisConn τ) (ok : Option Nat), c.stream = some works →
      ∃ more, (c.commitLoop ok).1.stream = some (works ++ more) := by
    intro c ok hstream
    rw [KjRedisConn.commitLoop]
    split
    · exact ⟨_, congrArg (Option.map _) hstream⟩
    · exact ⟨[], by rw [hstream, List.append_nil]⟩
  cases hnext with
  | commit ok =>
    rw [KjRedisConn.commit]
    split
    · exact ⟨[], by rw [hstream, List.append_nil]⟩
    · have hloop := hcommitLoop c ok hstream
      split
      next c₁ threw heq =>
        rw [heq] at hloop
        split <;> exact hloop
  | tick ok c₁ threw _ hcommit =>
    have hloop := hcommitLoop { c with commitTicks := c.commitTicks - 1 } ok hstream
    rw [hcommit] at hloop
    split <;> exact hloop
  | read chunk => exact absurd ⟨chunk, rfl⟩ hreceive
  | refused chunk => exact absurd ⟨chunk, rfl⟩ hreceive
  | reset => exact absurd rfl hreset
  | connectOk ok => exact absurd rfl (hconnect ok)
  | _ => exact hsame rfl

/-- What neither sends, reads nor connects keeps the queue. -/
theorem queued_next {e : Event ι} (hnext : Next P intake c e c') (hsend : ∀ work, e ≠ .send work)
    (hreceive : ∀ chunk, e ≠ .receive chunk) (hconnect : ∀ ok, e ≠ .connectOk ok) :
    c'.queued = c.queued := by
  cases hnext with
  | send work => exact absurd rfl (hsend work)
  | commit ok => exact (sameQueue_commit c ok).queued
  | tick ok c₁ threw _ hcommit =>
    have hsame := sameQueue_commitLoop { c with commitTicks := c.commitTicks - 1 } ok
    rw [hcommit] at hsame
    split <;> exact hsame.queued
  | unparsed chunk => exact absurd rfl (hreceive chunk)
  | read chunk => exact absurd rfl (hreceive chunk)
  | refused chunk => exact absurd rfl (hreceive chunk)
  | reset => exact (sameQueue_reset P c).queued
  | connectOk ok => exact absurd rfl (hconnect ok)
  | _ => rfl

/-- Nothing changes what is sent first. -/
theorem dqInit_next {e : Event ι} (hnext : Next P intake c e c') : c'.dqInit = c.dqInit := by
  cases hnext with
  | commit ok => exact (sameTasks_commit c ok).1.dqInit
  | tick ok c₁ threw _ hcommit =>
    have hsame := (sameTasks_commitLoop { c with commitTicks := c.commitTicks - 1 } ok).1
    rw [hcommit] at hsame
    split <;> exact hsame.dqInit
  | read chunk parser replies c₁ _ _ hloop =>
    have hsame := (sameTasks_replyLoop intake (c.availableReplies ++ replies) (c.parsed parser replies)).1
    rw [hloop] at hsame
    exact hsame.dqInit
  | refused chunk parser replies c₁ _ _ hloop =>
    have hsame := (sameTasks_replyLoop intake (c.availableReplies ++ replies) (c.parsed parser replies)).1
    rw [hloop] at hsame
    exact hsame.dqInit
  | connectOk ok => exact (sameTasks_commit (KjRedisConn.resending c) ok).1.dqInit
  | _ => rfl

end KjRedis.Conn
