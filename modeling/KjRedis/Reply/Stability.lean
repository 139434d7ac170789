import KjRedis.Lib.Transition
import KjRedis.Reply.Suspended

/-! The builders of a call that waits for more bytes, and those the next call goes on
from: they are the same ones as long as the stack stays where the calls found it. -/
namespace KjRedis.Reply

open RedisReplyParser Transition

def RedisReplyParser.stackReplyBuilderAt (rrp : RedisReplyParser) (depth : Nat) : Option Nat :=
  rrp.stackRrb.at? (depth % 2 ^ 8)

/-- The stack returns for each depth in use what the call at the depth left in its builder. -/
structure Stable (rrp : RedisReplyParser) (calls : List OpenCall) : Prop where
  depths : rrp.stackRrb.nelts = calls.length
  frames : ∀ d, (h : d < calls.length) →
    (rrp.stackReplyBuilderAt d).map rrp.builders = some (rrp.builders calls[d].rrb)

instance (rrp : RedisReplyParser) (calls : List OpenCall) : Decidable (Stable rrp calls) :=
  decidable_of_iff (_ ∧ _) ⟨fun h => ⟨h.1, h.2⟩, fun h => ⟨h.depths, h.frames⟩⟩

variable {rrp : RedisReplyParser} {bb : Committed} {r : RedisReply} {f : Nat → RedisReplyBuilder}
  {k n d fuel rounds : Nat} {calls : List OpenCall} {chains : List (List OpenCall)} {o : Out}

theorem rests_iff : Rests rrp k n d calls ↔ n = d + calls.length ∧
    ∀ i, (h : i < calls.length) → rrp.builders calls[i].rrb = rrp.live k (d + i) := by
  induction calls generalizing d with
  | nil => exact ⟨fun h => ⟨h, nofun⟩, fun h => h.1⟩
  | cons c calls ih =>
    have hlen : (c :: calls).length = calls.length + 1 := List.length_cons
    rw [Rests, ih]
    constructor
    · rintro ⟨hc, hn, hrest⟩
      refine ⟨by omega, fun i hi => ?_⟩
      cases i with
      | zero => exact hc
      | succ i =>
        have := hrest i (Nat.lt_of_succ_lt_succ hi)
        rwa [show d + 1 + i = d + (i + 1) by omega] at this
    · rintro ⟨hn, hall⟩
      refine ⟨hall 0 (Nat.succ_pos _), by omega, fun i hi => ?_⟩
      have := hall (i + 1) (Nat.succ_lt_succ hi)
      rwa [show d + (i + 1) = d + 1 + i by omega] at this

theorem stable_iff (h : Leveled rrp k n) (hlen : calls.length ≤ 2 ^ 8) :
    Stable rrp calls ↔ Rests rrp k n 0 calls := by
  have hnelts : rrp.stackRrb.nelts = n := by rw [h.stack]
  have hat : n = calls.length → ∀ i < calls.length,
      (rrp.stackReplyBuilderAt i).map rrp.builders = some (rrp.live k i) := by
    intro hn i hi
    rw [stackReplyBuilderAt, Nat.mod_eq_of_lt (Nat.lt_of_lt_of_le hi hlen),
      NxArray.at?_of_lt (by omega), h.slot]
    rfl
  rw [rests_iff, Nat.zero_add]
  constructor
  · rintro ⟨hdepths, hframes⟩
    have hn : n = calls.length := hnelts.symm.trans hdepths
    refine ⟨hn, fun i hi => ?_⟩
    rw [Nat.zero_add]
    exact (Option.some.inj ((hat hn i hi).symm.trans (hframes i hi))).symm
  · rintro ⟨hn, hall⟩
    refine ⟨hnelts.trans hn, fun i hi => ?_⟩
    have := hall i hi
    rw [Nat.zero_add] at this
    rw [hat hn i hi, this]

theorem RedisReply.Sound.zeroHead (h : r.Sound) : r.zeroHead.Sound := by
  intro s hs
  rw [parts_eq] at hs
  rcases List.mem_cons.1 hs with rfl | hs
  · exact nofun
  · refine h s ?_
    rw [parts_eq]
    exact List.mem_cons_of_mem r hs

theorem Top.zeroHead (h : Top f n r) : Top f n r.zeroHead := by
  cases h with
  | idle hfresh => exact .idle ⟨rfl, hfresh.2⟩
  | begun hstate hfresh => exact .begun hstate ⟨rfl, hfresh.2⟩
  | content hpos hstate => exact .content hpos hstate (.inl rfl)

theorem Returned.stored {addr : Nat} (h : Returned Top d k addr rrp chains o) :
    Returned Top d k addr rrp chains o.stored := by
  unfold Out.stored
  split
  · refine ⟨h.again, fun hover => ?_, fun hover hstray calls hlast => ?_⟩
    · obtain ⟨k', hat, hspares, hsound⟩ := h.ended hover
      exact ⟨k', hat.congr rfl rfl rfl,
        ⟨hspares.grows, hspares.below, hspares.live, hspares.state⟩, hsound.zeroHead⟩
    · obtain ⟨k', n', hat, hspares, htop, hrests⟩ := h.suspended hover hstray calls hlast
      refine ⟨k', n', hat.congr rfl rfl rfl,
        ⟨hspares.grows, hspares.below, hspares.live, hspares.state⟩, fun hanch => (htop hanch).zeroHead, ?_⟩
      intro hrc
      rw [← hrests hrc]
      simp only [rests_iff]
      rfl
  · exact h

theorem contentStacks_ne_nil {rrb : Nat} : contentStacks fuel rrb rrp bb r ≠ [] := by
  unfold contentStacks
  split
  · exact byTypeStacks_ne_nil arrayStacks_ne_nil
  · exact nofun

theorem rBuildReply_returned (h : Leveled rrp k n) (htop : Top (rrp.live k) n rrp.r)
    (hrun : rBuildReply fuel rrp bb = some o) (hshallow : Shallow 0 (replyStacks fuel rrp bb)) :
    Returned Top 0 k (slotOf k 0) rrp (replyStacks fuel rrp bb) o := by
  rw [rBuildReply_eq] at hrun
  obtain ⟨o₁, hrun₁, rfl⟩ := Option.map_eq_some_iff.1 hrun
  exact (withBuilder_returned layer_top (fun _ _ _ _ => contentStacks_ne_nil)
    (fun hin hrun hshallow => replyStep_left hin hrun hshallow) h htop hrun₁ hshallow).stored

/-- A parser between two calls. -/
structure Standing (rrp : RedisReplyParser) : Prop where
  running : rrp.state ≠ .over
  top : ∃ k n, Leveled rrp k n ∧ Top (rrp.live k) n rrp.r

theorem standing_created : Standing createReplyParser :=
  ⟨nofun, 0, 0, ⟨⟨rfl, rfl, by omega, Nat.zero_le _⟩, nofun⟩, .idle ⟨rfl, rfl⟩⟩

theorem parseLoop_left {rc : Rc} {out : ParseOut} (hstand : Standing rrp) (hrc : rc = .again ∨ rc = .over)
    (hrun : parseLoop (fun _ => 0) fuel rounds rc rrp bb = some out)
    (hshallow : Shallow 0 (parseStacks fuel rounds rc rrp bb)) :
    (∀ r ∈ out.delivered, r.Sound) ∧
    ∃ calls, (parseStacks fuel rounds rc rrp bb).getLast? = some calls ∧ (out.rc ≠ .stray →
      (Anchored 0 calls → Standing out.rrp) ∧
      (out.rc = .premature → (Stable out.rrp calls ↔ Anchored 0 calls))) := by
  induction rounds generalizing rc rrp bb out with
  | zero => cases hrun
  | succ rounds ih =>
    obtain ⟨k, n, hat, htop⟩ := hstand.top
    rw [parseLoop, if_pos ⟨hstand.running, hrc⟩] at hrun
    rw [parseStacks, if_pos ⟨hstand.running, hrc⟩] at hshallow ⊢
    split at hrun
    · cases hrun
    · next o hbuild =>
      simp only [hbuild] at hshallow ⊢
      have hfirst : Shallow 0 (replyStacks fuel rrp bb) :=
        fun calls hcalls => hshallow calls (List.mem_append_left _ hcalls)
      have hret := rBuildReply_returned hat htop hbuild hfirst
      split at hrun
      · next hover =>
        rw [if_pos hover] at hshallow ⊢
        simp only [if_true] at hrun
        split at hrun
        · cases hrun
        · next res hrest =>
          obtain rfl := Option.some.inj hrun
          obtain ⟨k', hat', hspares, hsound⟩ := hret.ended hover
          have hstand' : Standing { o.rrp with r := .init } :=
            ⟨fun h => hstand.running (hspares.state.symm.trans h), k', 0, hat'.congr rfl rfl rfl,
              .idle ⟨rfl, rfl⟩⟩
          obtain ⟨hsounds, calls, hlast, hleft⟩ := ih hstand' (.inr rfl) hrest hshallow.rest
          refine ⟨fun r hr => ?_, calls, ?_, hleft⟩
          · rcases List.mem_cons.1 hr with rfl | hr
            · exact hsound
            · exact hsounds r hr
          · rw [List.getLast?_append, hlast, Option.some_or]
      · next hover =>
        rw [if_neg hover, List.append_nil]
        obtain ⟨calls, hlast⟩ := Option.isSome_iff_exists.1
          (List.getLast?_isSome.2 (show replyStacks fuel rrp bb ≠ [] from
            builderStacks_ne_nil fun _ _ _ _ => contentStacks_ne_nil))
        obtain ⟨rounds, rfl⟩ : ∃ m, rounds = m + 1 :=
          Nat.exists_eq_succ_of_ne_zero (by rintro rfl; cases hrun)
        rw [parseLoop, if_neg fun hgo => hgo.2.elim hret.again hover] at hrun
        obtain rfl := Option.some.inj hrun
        refine ⟨fun r hr => absurd hr List.not_mem_nil, calls, hlast, fun hstray => ?_⟩
        obtain ⟨k', n', hat', hspares, htop', hrests⟩ := hret.suspended hover hstray calls hlast
        have hat'' : Leveled { o.rrp with r := o.r } k' n' := hat'.congr rfl rfl rfl
        refine ⟨fun hanch => ⟨fun h => hstand.running (hspares.state.symm.trans h), k', n', hat'', htop' hanch⟩,
          fun hpre => ?_⟩
        have hlen := hfirst calls (List.mem_of_getLast? hlast)
        rw [stable_iff hat'' (by omega), ← hrests hpre, rests_iff, rests_iff]
        rfl

/-- A call on all that is committed, with rounds enough for any block and any reply so far. -/
def parseOnce (rrp : RedisReplyParser) (bb : Committed) : Option ParseOut :=
  parseLoop (fun _ => 0) (load bb rrp.r + 3) (load bb rrp.r + 3) .again rrp bb

def callStacks (rrp : RedisReplyParser) (bb : Committed) : List (List OpenCall) :=
  parseStacks (load bb rrp.r + 3) (load bb rrp.r + 3) .again rrp bb

/-- The calls that were open as a call of the parser returned. -/
def suspendedCalls (rrp : RedisReplyParser) (bb : Committed) : List OpenCall :=
  (callStacks rrp bb).getLast?.getD []

theorem parseOnce_left {out : ParseOut} (hstand : Standing rrp) (hrun : parseOnce rrp bb = some out)
    (hshallow : Shallow 0 (callStacks rrp bb)) :
    (∀ r ∈ out.delivered, r.Sound) ∧ (out.rc ≠ .stray →
      (Anchored 0 (suspendedCalls rrp bb) → Standing out.rrp) ∧
      (out.rc = .premature → (Stable out.rrp (suspendedCalls rrp bb) ↔ Anchored 0 (suspendedCalls rrp bb)))) := by
  obtain ⟨hsounds, calls, hlast, hleft⟩ := parseLoop_left hstand (.inl rfl) hrun hshallow
  have hcalls : suspendedCalls rrp bb = calls := by
    rw [suspendedCalls, callStacks, hlast, Option.getD_some]
  rw [hcalls]
  exact ⟨hsounds, hleft⟩

/-- A chunk is committed and parsed. `BuildReply` throws on every code but `premature`. -/
def replyCalls : System (RedisReplyParser × Committed) (List UInt8) where
  next st chunk :=
    match parseOnce st.1 (st.2.commit chunk) with
    | none => none
    | some out => if out.rc = .premature then some (out.rrp, out.bb) else none

/-- A call that waits for more leaves its parser and its open calls so that `Q` holds. -/
def Waiting (Q : RedisReplyParser → List OpenCall → Prop) (st : RedisReplyParser × Committed)
    (chunk : List UInt8) : Prop :=
  match parseOnce st.1 (st.2.commit chunk) with
  | none => True
  | some out => out.rc = .premature → Q out.rrp (suspendedCalls st.1 (st.2.commit chunk))

instance (Q : RedisReplyParser → List OpenCall → Prop) [∀ rrp calls, Decidable (Q rrp calls)]
    (st : RedisReplyParser × Committed) (chunk : List UInt8) : Decidable (Waiting Q st chunk) := by
  unfold Waiting
  split <;> infer_instance

/-- No call of the chunk opens a builder at depth 256 or past it. -/
def ShallowCall (st : RedisReplyParser × Committed) (chunk : List UInt8) : Prop :=
  Shallow 0 (callStacks st.1 (st.2.commit chunk))

instance (st : RedisReplyParser × Committed) (chunk : List UInt8) : Decidable (ShallowCall st chunk) :=
  inferInstanceAs (Decidable (Shallow 0 _))

/-- The builders of the suspended calls were on the stack as their last rounds began. -/
def AnchoredCall : RedisReplyParser × Committed → List UInt8 → Prop :=
  Waiting fun _ calls => Anchored 0 calls

instance (st : RedisReplyParser × Committed) (chunk : List UInt8) : Decidable (AnchoredCall st chunk) :=
  inferInstanceAs (Decidable (Waiting _ st chunk))

variable {st st' : RedisReplyParser × Committed} {chunk : List UInt8}

theorem waiting_stable_iff (hstand : Standing st.1) (hshallow : ShallowCall st chunk) :
    Waiting Stable st chunk ↔ AnchoredCall st chunk := by
  unfold AnchoredCall Waiting
  split
  · exact Iff.rfl
  · next out hrun =>
    refine forall_congr' fun hrc => ?_
    exact ((parseOnce_left hstand hrun hshallow).2 (by rw [hrc]; simp)).2 hrc

theorem standing_next (hstand : Standing st.1) (hshallow : ShallowCall st chunk)
    (hanch : AnchoredCall st chunk) (hnext : replyCalls.next st chunk = some st') : Standing st'.1 := by
  unfold AnchoredCall Waiting at hanch
  simp only [replyCalls] at hnext
  split at hnext
  · cases hnext
  · next out hrun =>
    rw [hrun] at hanch
    obtain ⟨hrc, hout⟩ := Option.ite_none_right_eq_some.1 hnext
    obtain rfl := Option.some.inj hout
    exact ((parseOnce_left hstand hrun hshallow).2 (by rw [hrc]; simp)).1 (hanch hrc)

/-- In a run of calls none of which goes too deep, the builders of every suspended call are
stable if and only if each was still on the stack as its last round began. -/
theorem stable_iff_anchored (chunks : List (List UInt8)) (hshallow : replyCalls.Meets ShallowCall fresh chunks) :
    replyCalls.Meets (Waiting Stable) fresh chunks ↔ replyCalls.Meets AnchoredCall fresh chunks :=
  @System.meets_congr _ _ replyCalls ShallowCall fresh chunks (fun st => Standing st.1) _ _
    (fun _ _ hstand hsh => waiting_stable_iff hstand hsh)
    (fun _ _ _ hstand hsh hanch hnext => standing_next hstand hsh hanch hnext) standing_created hshallow

/-- Two arrays, the inner one cut inside its second element. -/
theorem stable_iff_anchored_nested :
    let chunks : List (List UInt8) := [[42, 50, 13, 10, 42, 50, 13, 10, 58, 49, 13, 10, 36, 51, 13, 10, 97],
      [98, 99, 13, 10]]
    replyCalls.Meets (Waiting Stable) fresh chunks := by
  intro chunks
  have hshallow : replyCalls.Meets ShallowCall fresh chunks := by decide +kernel
  exact (stable_iff_anchored chunks hshallow).2 (by decide +kernel)

/-- The seventeenth builder moves the stack; the array it is opened for goes on where the
stack was. -/
theorem not_stable_moved : ¬ ∀ chunks, replyCalls.Meets (Waiting Stable) fresh chunks := by
  intro h
  exact absurd (h [(List.replicate 15 [42, 50, 13, 10]).flatten ++ [36, 49, 13, 10, 97, 13, 10]]).1
    (by decide +kernel)

end KjRedis.Reply
