import KjRedis.Cache.ListBackup
import Mathlib.Data.List.Chain

/-! What clients hand over by a list, and the marks that they agree on. -/
namespace KjRedis.Cache

open KjRedis.Conn
open HashStore (Store lookup_set)

namespace ListCall

def gives : ListCall → ListReply → List Bytes
  | .lPushToList sValue, _ | .rPushToList sValue, _ => [sValue]
  | .lPushCAS _ _ _ sValue, .flag true | .rPushCAS _ _ _ sValue, .flag true => [sValue]
  | _, _ => []

def takes : ListCall → ListReply → List Bytes
  | .lPop, .text sValue | .rPop, .text sValue => [sValue]
  | .popAll, .items vOut | .popAllAndMark _ _, .items vOut => vOut
  | _, _ => []

/-- The call adds at the end only and takes from the front only. -/
def queues : ListCall → Bool
  | .lPushToList _ | .lPushCAS _ _ _ _ | .rPop => false
  | _ => true

/-- What the call asks the mark to be. -/
def expects : ListCall → Option Bytes
  | .lPushCAS _ sExpect _ _ | .rPushCAS _ sExpect _ _ | .setCAS _ sExpect _ => some sExpect
  | _ => none

/-- The mark that the call sets without a condition. -/
def marks : ListCall → Option (Bytes × Bytes)
  | .popAllAndMark sId sExpect => some (sId, sExpect)
  | _ => none

/-- What the call has set the mark to. -/
def writes (lua : Lua) (sId : Bytes) (call : ListCall) : ListReply → Option Bytes
  | .flag true => (call.sets.filter fun e => e.1 = sId).map (·.2)
  | .items _ => (call.marks.filter fun e => e.1 = sId).map (·.2)
  | .counter (.accepted r) => if call.counts = some sId then some (lua.tostring r) else none
  | _ => none

end ListCall

/-- The empty text is also the reply of an empty list. -/
def nonEmpty (l : List Bytes) : List Bytes := l.filter fun v => !v.isEmpty

section Runs

variable {ι : Type*} (lua : Lua) (proxy : ι → CRedisListProxy) (i : ι)

namespace ListState

/-- The calls with the list, the last one first. -/
def calls (s : ListState ι) : List (ListCall × ListReply) :=
  (s.log.filter fun e => (proxy e.1).name = (proxy i).name).map (·.2)

def given (s : ListState ι) : List Bytes := (s.calls proxy i).reverse.flatMap fun e => e.1.gives e.2

def taken (s : ListState ι) : List Bytes := (s.calls proxy i).reverse.flatMap fun e => e.1.takes e.2

/-- What the calls have set a mark to, the last one first, and what each expected. -/
def written (s : ListState ι) (sId : Bytes) : List (Option Bytes × Bytes) :=
  (s.calls proxy i).filterMap fun e => (e.1.writes lua sId e.2).map fun v => (e.1.expects, v)

end ListState

namespace ListEvent

/-- The list and its marks are thrown away, or put back as they were. -/
def Drops : ListEvent ι → Prop
  | .call j c => c = .clear ∧ (proxy j).name = (proxy i).name
  | .restore j => (proxy j).name = (proxy i).name
  | .flush => True
  | .loot => False

def InOrder : ListEvent ι → Prop
  | .call j c => (proxy j).name = (proxy i).name → c.queues = true
  | _ => True

end ListEvent

/-- No value is lost or taken twice. -/
def HandedOver (s : ListState ι) : Prop :=
  (nonEmpty (s.taken proxy i ++ s.server.list (proxy i))).Perm (nonEmpty (s.given proxy i))

/-- The values come out in the order they went in. -/
def HandedOverInOrder (s : ListState ι) : Prop :=
  nonEmpty (s.taken proxy i ++ s.server.list (proxy i)) = nonEmpty (s.given proxy i)

/-- A mark is what was set last. What a call expected was there before it, and where no
value is set twice, no two calls have gone from the same value. -/
structure Agreed (s : ListState ι) (sId : Bytes) : Prop where
  current : s.server.mark (proxy i) sId = (s.written lua proxy i sId).head?.map (·.2)
  chain : (s.written lua proxy i sId).IsChain fun b a => ∀ e, b.1 = some e → e = a.2 ∨ a.2 = []
  once : ((s.written lua proxy i sId).map (·.2)).Nodup →
    [] ∉ (s.written lua proxy i sId).map (·.2) →
      ((s.written lua proxy i sId).dropLast.filterMap (·.1)).Nodup

end Runs

namespace ListCall

variable {call : ListCall} {sId sDest : Bytes}

theorem idle_of_looks (h : call.looks = true) (reply : ListReply) :
    call.gives reply = [] ∧ call.takes reply = [] := by
  cases call <;> first | exact ⟨rfl, rfl⟩ | cases h

theorem idle_of_counts (h : call.counts = some sId) (reply : ListReply) :
    call.gives reply = [] ∧ call.takes reply = [] := by
  cases call <;> first | exact ⟨rfl, rfl⟩ | cases h

theorem idle_of_refused (h : call.sets = some (sId, sDest)) :
    call.gives (.flag false) = [] ∧ call.takes (.flag false) = [] := by
  cases call <;> first | exact ⟨rfl, rfl⟩ | cases h

theorem takes_of_sets (h : call.sets = some (sId, sDest)) (reply : ListReply) :
    call.takes reply = [] := by
  cases call <;> first | rfl | cases h

theorem pushed_perm (h : call.sets = some (sId, sDest)) (l : List Bytes) :
    (call.pushed l).Perm (l ++ call.gives (.flag true)) := by
  cases call with
  | lPushCAS _ _ _ sValue => exact (List.perm_append_singleton sValue l).symm
  | rPushCAS => exact .refl _
  | setCAS => exact .of_eq (List.append_nil l).symm
  | resetCAS => exact .of_eq (List.append_nil l).symm
  | _ => cases h

theorem pushed_eq (h : call.sets = some (sId, sDest)) (hqueues : call.queues = true) (l : List Bytes) :
    call.pushed l = l ++ call.gives (.flag true) := by
  cases call with
  | lPushCAS => cases hqueues
  | rPushCAS => rfl
  | setCAS => exact (List.append_nil l).symm
  | resetCAS => exact (List.append_nil l).symm
  | _ => cases h

end ListCall

section Calls

variable {lua : Lua} {listDirtyEntry : Bytes} {p : CRedisListProxy} {s t : ListServer}
  {call : ListCall} {reply : ListReply}

theorem list_withList {l : List Bytes} : (s.withList p l).list p = l := Function.update_self _ _ _

theorem list_emptied : (s.emptied p).list p = [] := Function.update_self _ _ _

theorem mark_emptied {sId : Bytes} : (s.emptied p).mark p sId = s.mark p sId :=
  congrArg (AList.lookup sId) (Function.update_of_ne CRedisListProxy.sIdList_ne_hash.symm _ _)

theorem nonEmpty_head (l : List Bytes) : nonEmpty (l.head?.getD [] :: l.tail) = nonEmpty l := by
  cases l with
  | nil => rfl
  | cons => rfl

theorem nonEmpty_last (l : List Bytes) :
    (nonEmpty (l.getLast?.getD [] :: l.dropLast)).Perm (nonEmpty l) := by
  rcases List.eq_nil_or_concat l with rfl | ⟨l, v, rfl⟩
  · exact .refl _
  · rw [List.concat_eq_append, List.getLast?_concat, List.dropLast_concat, Option.getD_some]
    exact (List.perm_append_singleton v l).symm.filter _

/-- What a call takes out comes from the front, and what it puts in goes to the end. -/
theorem Performed.in_order (h : Performed lua listDirtyEntry p s call reply t) (hclear : call ≠ .clear)
    (hqueues : call.queues = true) :
    nonEmpty (call.takes reply ++ t.list p) = nonEmpty (s.list p ++ call.gives reply) := by
  have hidle : call.gives reply = [] ∧ call.takes reply = [] →
      nonEmpty (call.takes reply ++ s.list p) = nonEmpty (s.list p ++ call.gives reply) := by
    rintro ⟨hgives, htakes⟩
    rw [hgives, htakes, List.append_nil, List.nil_append]
  cases h with
  | lPushToList => cases hqueues
  | rPushToList =>
    rw [list_withList]
    rfl
  | lPop =>
    rw [list_withList]
    exact (nonEmpty_head (s.list p)).trans (congrArg nonEmpty (List.append_nil _).symm)
  | rPop => cases hqueues
  | looked _ hlooks => exact hidle (ListCall.idle_of_looks hlooks reply)
  | kept => exact absurd rfl hclear
  | cleared => exact absurd rfl hclear
  | popAll => exact congrArg (fun l => nonEmpty (s.list p ++ l)) list_emptied
  | popAllAndMark => exact congrArg (fun l => nonEmpty (s.list p ++ l)) list_emptied
  | refused hsets => exact hidle (ListCall.idle_of_refused hsets)
  | accepted msg hsets =>
    rw [ListCall.takes_of_sets hsets, ← ListCall.pushed_eq hsets hqueues]
    exact congrArg nonEmpty list_withList
  | uncounted hcounts => exact hidle (ListCall.idle_of_counts hcounts _)
  | counted r msg hcounts => exact hidle (ListCall.idle_of_counts hcounts _)

/-- Wherever a call puts values in and takes them out. -/
theorem Performed.conserves (h : Performed lua listDirtyEntry p s call reply t) (hclear : call ≠ .clear) :
    (nonEmpty (call.takes reply ++ t.list p)).Perm (nonEmpty (s.list p ++ call.gives reply)) := by
  have hidle : call.gives reply = [] ∧ call.takes reply = [] →
      (nonEmpty (call.takes reply ++ s.list p)).Perm (nonEmpty (s.list p ++ call.gives reply)) := by
    rintro ⟨hgives, htakes⟩
    rw [hgives, htakes, List.append_nil, List.nil_append]
  have hordered := h.in_order hclear
  cases h with
  | lPushToList sValue =>
    rw [list_withList]
    exact (List.perm_append_singleton sValue (s.list p)).symm.filter _
  | rPushToList => exact .of_eq (hordered rfl)
  | lPop => exact .of_eq (hordered rfl)
  | rPop =>
    rw [list_withList]
    exact (nonEmpty_last (s.list p)).trans (.of_eq (congrArg nonEmpty (List.append_nil _).symm))
  | looked _ hlooks => exact hidle (ListCall.idle_of_looks hlooks reply)
  | kept => exact absurd rfl hclear
  | cleared => exact absurd rfl hclear
  | popAll => exact .of_eq (hordered rfl)
  | popAllAndMark => exact .of_eq (hordered rfl)
  | refused hsets => exact hidle (ListCall.idle_of_refused hsets)
  | accepted msg hsets =>
    rw [ListCall.takes_of_sets hsets]
    refine (List.Perm.of_eq (congrArg nonEmpty list_withList)).trans ?_
    exact (ListCall.pushed_perm hsets (s.list p)).filter _
  | uncounted hcounts => exact hidle (ListCall.idle_of_counts hcounts _)
  | counted r msg hcounts => exact hidle (ListCall.idle_of_counts hcounts _)

/-- What a call sets a mark to is there afterwards, and what it expected was there before. -/
inductive MarkChange (sId : Bytes) (s t : ListServer) (call : ListCall) : Option Bytes → Prop
  | keep (hsame : t.mark p sId = s.mark p sId) : MarkChange sId s t call none
  | set {v : Bytes} (hset : t.mark p sId = some v) (hexpects : ∀ e, call.expects = some e →
      s.mark p sId = some e ∨ absent (s.mark p sId) = true) : MarkChange sId s t call (some v)

theorem ListCall.writes_of_looks (h : call.looks = true) (sId : Bytes) :
    call.writes lua sId reply = none := by
  have hnone : call.sets = none ∧ call.marks = none ∧ call.counts = none := by
    cases call <;> first | exact ⟨rfl, rfl, rfl⟩ | cases h
  obtain ⟨hsets, hmarks, hcounts⟩ := hnone
  unfold ListCall.writes
  split
  · rw [hsets]
    rfl
  · rw [hmarks]
    rfl
  · rw [hcounts]
    rfl
  · rfl

theorem ListCall.expects_of_agrees {r : Option Bytes} (h : call.agrees r = true) :
    ∀ e, call.expects = some e → r = some e ∨ absent r = true := by
  intro e he
  have hcas : ∀ sExpect, absent r || r == some sExpect → r = some sExpect ∨ absent r = true := by
    intro sExpect h
    rcases Bool.or_eq_true_iff.1 h with habsent | hequal
    · exact .inr habsent
    · exact .inl (eq_of_beq hequal)
  cases call with
  | lPushCAS =>
    obtain rfl := Option.some.inj he
    exact hcas _ h
  | rPushCAS =>
    obtain rfl := Option.some.inj he
    exact hcas _ h
  | setCAS =>
    obtain rfl := Option.some.inj he
    exact hcas _ h
  | _ => cases he

theorem MarkChange.of_set {sId sId' v : Bytes}
    (hmark : t.mark p sId = if sId = sId' then some v else s.mark p sId)
    (hexpects : sId = sId' → ∀ e, call.expects = some e →
      s.mark p sId = some e ∨ absent (s.mark p sId) = true) :
    @MarkChange p sId s t call (((some (sId', v)).filter fun e => e.1 = sId).map (·.2)) := by
  by_cases heq : sId = sId'
  · subst heq
    rw [if_pos rfl] at hmark
    simp only [Option.filter, decide_true, if_true, Option.map_some]
    exact .set hmark (hexpects rfl)
  · rw [if_neg heq] at hmark
    simp only [Option.filter, Ne.symm heq, decide_false, Bool.false_eq_true, if_false, Option.map_none]
    exact .keep hmark

theorem Performed.mark (h : Performed lua listDirtyEntry p s call reply t) (hclear : call ≠ .clear)
    (hhash : listDirtyEntry ≠ p.sIdHashOfCAS) {sId : Bytes} (hid : sId ≠ isDirty) :
    @MarkChange p sId s t call (call.writes lua sId reply) := by
  cases h with
  | lPushToList => exact .keep rfl
  | rPushToList => exact .keep rfl
  | lPop => exact .keep rfl
  | rPop => exact .keep rfl
  | looked _ hlooks =>
    rw [ListCall.writes_of_looks hlooks]
    exact .keep rfl
  | kept => exact absurd rfl hclear
  | cleared => exact absurd rfl hclear
  | popAll =>
    refine .keep ?_
    rw [mark_flagged hhash, if_neg hid]
    exact mark_emptied
  | popAllAndMark sId' sExpect msg =>
    refine .of_set ?_ fun _ e he => by cases he
    rw [mark_told, mark_withMark, mark_flagged hhash, if_neg hid, mark_emptied]
  | refused hsets => exact .keep rfl
  | @accepted _ sId' sDest msg hsets hagrees =>
    rw [ListCall.writes, hsets]
    refine .of_set ?_ fun heq e he => ?_
    · rw [mark_told, mark_flagged hhash, if_neg hid]
      exact mark_withMark sId' sDest sId
    · subst heq
      exact ListCall.expects_of_agrees hagrees e he
  | @uncounted _ _ r hcounts hnot =>
    have hnone : call.writes lua sId (.counter r) = none := by
      cases r with
      | accepted r => cases hnot
      | _ => rfl
    rw [hnone]
    exact .keep rfl
  | @counted _ sId' r msg hcounts =>
    have hexpects : call.expects = none := by
      cases call <;> first | rfl | cases hcounts
    have hmark : (((s.withMark p sId' (lua.tostring r)).flagged lua listDirtyEntry p).told p msg).mark p
        sId = if sId = sId' then some (lua.tostring r) else s.mark p sId := by
      rw [mark_told, mark_flagged hhash, if_neg hid, mark_withMark]
    rw [ListCall.writes, hcounts]
    by_cases heq : sId = sId'
    · rw [if_pos heq] at hmark
      rw [if_pos (congrArg some heq.symm)]
      refine .set hmark fun e he => ?_
      rw [hexpects] at he
      cases he
    · rw [if_neg heq] at hmark
      rw [if_neg fun h => heq (Option.some.inj h).symm]
      exact .keep hmark

end Calls

section Proof

variable {ι : Type*} {lua : Lua} {listDirtyEntry : Bytes} {proxy : ι → CRedisListProxy}
  {s : ListState ι} {i : ι}

theorem list_of_name {p q : CRedisListProxy} {t : ListServer} (h : q.name = p.name) :
    t.list q = t.list p := congrArg t.lists (CRedisListProxy.sIdList_inj.2 h)

theorem mark_of_name {p q : CRedisListProxy} {t : ListServer} (h : q.name = p.name) (sId : Bytes) :
    t.mark q sId = t.mark p sId :=
  congrArg (fun key => (t.hashes key).lookup sId) (CRedisListProxy.sIdHashOfCAS_inj.2 h)

theorem Within.list_eq {p q : CRedisListProxy} {s t : ListServer} (h : Within listDirtyEntry p s t)
    (hne : q.name ≠ p.name) : t.list q = s.list q :=
  h.lists _ (CRedisListProxy.sIdList_inj.not.2 hne) CRedisListProxy.sIdList_ne_hash

theorem Within.mark_eq {p q : CRedisListProxy} {s t : ListServer} (h : Within listDirtyEntry p s t)
    (hne : q.name ≠ p.name) (hhash : listDirtyEntry ≠ q.sIdHashOfCAS) (sId : Bytes) :
    t.mark q sId = s.mark q sId := congrArg (AList.lookup sId) (h.hash_eq hne hhash)

theorem looted_mark (hapart : ListsApart listDirtyEntry proxy) {s : ListServer} {sId : Bytes}
    (hid : sId ≠ isDirty) : (s.looted listDirtyEntry).mark (proxy i) sId = s.mark (proxy i) sId := by
  rw [ListServer.mark, (looted_proxy hapart i).2]
  split
  · exact AList.lookup_erase_ne hid
  · rfl

/-- An event that does not throw the list away leaves it, or it is a call with it. -/
theorem perform_cases_of_kept (hapart : ListsApart listDirtyEntry proxy) (hlua : lua.RoundTrips)
    (h : Filed lua listDirtyEntry proxy s) {e : ListEvent ι} (hkept : ¬ e.Drops proxy i) {s' : ListState ι}
    (hperform : s.perform lua listDirtyEntry proxy e = s') :
    (s'.calls proxy i = s.calls proxy i ∧ s'.server.list (proxy i) = s.server.list (proxy i) ∧
      ∀ sId, sId ≠ isDirty → s'.server.mark (proxy i) sId = s.server.mark (proxy i) sId) ∨
    ∃ j call reply, e = .call j call ∧ (proxy j).name = (proxy i).name ∧ call ≠ .clear ∧
      Performed lua listDirtyEntry (proxy j) s.server call reply s'.server ∧
        s'.calls proxy i = (call, reply) :: s.calls proxy i := by
  subst hperform
  cases e with
  | call j call =>
    have hperformed := @ListCall.performed lua listDirtyEntry (proxy j) s.server hlua call
    by_cases hname : (proxy j).name = (proxy i).name
    · refine .inr ⟨j, call, _, rfl, hname, fun hclear => hkept ⟨hclear, hname⟩, hperformed, ?_⟩
      simp [ListState.calls, ListState.perform, ListState.answered, hname]
    · have hwithin := hperformed.within (hapart j).1 (hapart j).2
      refine .inl ⟨?_, hwithin.list_eq (Ne.symm hname), fun sId _ =>
        hwithin.mark_eq (Ne.symm hname) (hapart i).2 sId⟩
      simp [ListState.calls, ListState.perform, ListState.answered, hname]
  | loot =>
    have hserver : (s.perform lua listDirtyEntry proxy .loot).server = s.server.looted listDirtyEntry :=
      congrArg Prod.snd (h.indexed.run_loot hapart)
    refine .inl ⟨rfl, ?_, fun sId hid => ?_⟩
    · rw [hserver]
      exact (looted_proxy hapart i).1
    · rw [hserver]
      exact looted_mark hapart hid
  | restore j =>
    obtain ⟨l, c, -, hperform⟩ := h.perform_restore j
    have hwithin := @within_restored listDirtyEntry s.server _ (hapart j).1 (hapart j).2 l (c.erase isDirty)
    have hne : (proxy i).name ≠ (proxy j).name := fun heq => hkept heq.symm
    rw [hperform]
    exact .inl ⟨rfl, hwithin.list_eq hne, fun sId _ => hwithin.mark_eq hne (hapart i).2 sId⟩
  | flush => exact absurd trivial hkept

section Handover

variable {R : List Bytes → List Bytes → Prop} (htrans : ∀ {a b c}, R a b → R b c → R a c)
  (hleft : ∀ a {b c}, R b c → R (a ++ b) (a ++ c)) (hright : ∀ c {a b}, R a b → R (a ++ c) (b ++ c))
include htrans hleft hright

/-- What a step keeps of the values, however they are compared. -/
theorem hand_over {taken l given takes l' gives : List Bytes}
    (h : R (nonEmpty (taken ++ l)) (nonEmpty given))
    (hstep : R (nonEmpty (takes ++ l')) (nonEmpty (l ++ gives))) :
    R (nonEmpty (taken ++ takes ++ l')) (nonEmpty (given ++ gives)) := by
  simp only [nonEmpty, List.filter_append] at h hstep ⊢
  have hfirst := hleft (taken.filter fun v => !v.isEmpty) hstep
  have hsecond := hright (gives.filter fun v => !v.isEmpty) h
  rw [List.append_assoc] at hsecond ⊢
  exact htrans hfirst hsecond

end Handover

/-- What a call adds to the values that have been given and taken. -/
theorem calls_cons {s s' : ListState ι} {call : ListCall} {reply : ListReply}
    (h : s'.calls proxy i = (call, reply) :: s.calls proxy i) :
    s'.given proxy i = s.given proxy i ++ call.gives reply ∧
      s'.taken proxy i = s.taken proxy i ++ call.takes reply := by
  constructor
  · rw [ListState.given, h, List.reverse_cons, List.flatMap_append, List.flatMap_singleton]
    rfl
  · rw [ListState.taken, h, List.reverse_cons, List.flatMap_append, List.flatMap_singleton]
    rfl

variable (hapart : ListsApart listDirtyEntry proxy) (hlua : lua.RoundTrips)
include hapart hlua

theorem Filed.handedOver (h : Filed lua listDirtyEntry proxy s) {e : ListEvent ι}
    (hkept : ¬ e.Drops proxy i) (hover : HandedOver proxy i s) :
    HandedOver proxy i (s.perform lua listDirtyEntry proxy e) := by
  rcases perform_cases_of_kept hapart hlua h hkept rfl with
    ⟨hcalls, hlist, -⟩ | ⟨j, call, reply, -, hname, hclear, hperformed, hcalls⟩
  · rw [HandedOver, ListState.taken, ListState.given, hcalls, hlist]
    exact hover
  · obtain ⟨hgiven, htaken⟩ := calls_cons hcalls
    rw [HandedOver, hgiven, htaken]
    refine hand_over .trans (fun a _ _ => .append_left a) (fun c _ _ => .append_right c) hover ?_
    rw [list_of_name hname.symm, list_of_name hname.symm]
    exact hperformed.conserves hclear

theorem Filed.handedOverInOrder (h : Filed lua listDirtyEntry proxy s) {e : ListEvent ι}
    (hkept : ¬ e.Drops proxy i) (horder : e.InOrder proxy i) (hover : HandedOverInOrder proxy i s) :
    HandedOverInOrder proxy i (s.perform lua listDirtyEntry proxy e) := by
  rcases perform_cases_of_kept hapart hlua h hkept rfl with
    ⟨hcalls, hlist, -⟩ | ⟨j, call, reply, rfl, hname, hclear, hperformed, hcalls⟩
  · rw [HandedOverInOrder, ListState.taken, ListState.given, hcalls, hlist]
    exact hover
  · obtain ⟨hgiven, htaken⟩ := calls_cons hcalls
    rw [HandedOverInOrder, hgiven, htaken]
    refine hand_over .trans (fun a _ _ => congrArg (a ++ ·)) (fun c _ _ => congrArg (· ++ c)) hover ?_
    rw [list_of_name hname.symm, list_of_name hname.symm]
    exact hperformed.in_order hclear (horder hname)

/-- In every run that does not throw the list away. -/
theorem handedOver_of_run {start s : ListState ι} (hstart : ListStart start) {es : List (ListEvent ι)}
    (hkept : ∀ e ∈ es, ¬ e.Drops proxy i)
    (hrun : (listProxies lua listDirtyEntry proxy).run start es = some s) :
    HandedOver proxy i s ∧ ((∀ e ∈ es, e.InOrder proxy i) → HandedOverInOrder proxy i s) := by
  have hlist : start.server.list (proxy i) = [] := congrFun hstart.noLists _
  have hnone : start.calls proxy i = [] := by rw [ListState.calls, hstart.noneCalled]; rfl
  have hempty : HandedOverInOrder proxy i start := by
    rw [HandedOverInOrder, ListState.taken, ListState.given, hlist, hnone]
    rfl
  have hstep : ∀ s e s', Filed lua listDirtyEntry proxy s ∧ HandedOver proxy i s →
      ¬ e.Drops proxy i → (listProxies lua listDirtyEntry proxy).next s e = some s' →
      Filed lua listDirtyEntry proxy s' ∧ HandedOver proxy i s' := by
    rintro s e s' ⟨hfiled, hover⟩ hkept hnext
    obtain rfl := Option.some.inj hnext
    exact ⟨hfiled.perform hapart hlua e, hfiled.handedOver hapart hlua hkept hover⟩
  have hstepInOrder : ∀ s e s', Filed lua listDirtyEntry proxy s ∧ HandedOverInOrder proxy i s →
      ¬ e.Drops proxy i ∧ e.InOrder proxy i →
      (listProxies lua listDirtyEntry proxy).next s e = some s' →
      Filed lua listDirtyEntry proxy s' ∧ HandedOverInOrder proxy i s' := by
    rintro s e s' ⟨hfiled, hover⟩ ⟨hkept, horder⟩ hnext
    obtain rfl := Option.some.inj hnext
    exact ⟨hfiled.perform hapart hlua e, hfiled.handedOverInOrder hapart hlua hkept horder hover⟩
  constructor
  · exact (Transition.System.run_invariant hstep ⟨hstart.filed, .of_eq hempty⟩
      (Transition.System.meets_of_forall fun _ => hkept) hrun).2
  · intro horder
    exact (Transition.System.run_invariant hstepInOrder ⟨hstart.filed, hempty⟩
      (Transition.System.meets_of_forall fun _ e he => ⟨hkept e he, horder e he⟩) hrun).2

/-- The invariant: what was set last is there, and each call found what it expected. -/
structure Chained (lua : Lua) (proxy : ι → CRedisListProxy) (i : ι) (sId : Bytes)
    (s : ListState ι) : Prop where
  current : s.server.mark (proxy i) sId = (s.written lua proxy i sId).head?.map (·.2)
  chain : (s.written lua proxy i sId).IsChain fun b a => ∀ e, b.1 = some e → e = a.2 ∨ a.2 = []

omit hapart hlua in
/-- What the calls expected are values that were set before. -/
theorem expected_sublist {writes : List (Option Bytes × Bytes)} (hne : [] ∉ writes.map (·.2))
    (h : writes.IsChain fun b a => ∀ e, b.1 = some e → e = a.2 ∨ a.2 = []) :
    List.Sublist (writes.dropLast.filterMap (·.1)) (writes.tail.map (·.2)) := by
  induction writes with
  | nil => exact .slnil
  | cons b writes ih =>
    cases writes with
    | nil => exact .slnil
    | cons a writes =>
      obtain ⟨hfirst, hrest⟩ := List.isChain_cons_cons.1 h
      rw [List.map_cons, List.mem_cons, not_or] at hne
      have hsub := ih hne.2 hrest
      rw [List.dropLast_cons_cons, List.tail_cons, List.map_cons]
      cases hb : b.1 with
      | none =>
        rw [List.filterMap_cons_none hb]
        exact hsub.cons a.2
      | some e =>
        rw [List.filterMap_cons_some hb]
        rcases hfirst e hb with rfl | hnil
        · exact hsub.cons_cons a.2
        · rw [List.map_cons, List.mem_cons, not_or] at hne
          exact absurd hnil.symm hne.2.1

omit hapart hlua in
theorem Chained.agreed {sId : Bytes} (h : Chained lua proxy i sId s) : Agreed lua proxy i s sId where
  current := h.current
  chain := h.chain
  once hnodup hne := by
    refine List.Nodup.sublist (expected_sublist hne h.chain) ?_
    rw [List.map_tail]
    exact hnodup.sublist (List.tail_sublist _)

theorem Filed.chained (h : Filed lua listDirtyEntry proxy s) {e : ListEvent ι} {sId : Bytes}
    (hkept : ¬ e.Drops proxy i) (hid : sId ≠ isDirty) (hchained : Chained lua proxy i sId s) :
    Chained lua proxy i sId (s.perform lua listDirtyEntry proxy e) := by
  rcases perform_cases_of_kept hapart hlua h hkept rfl with
    ⟨hcalls, -, hmark⟩ | ⟨j, call, reply, rfl, hname, hclear, hperformed, hcalls⟩
  · have hwritten : (s.perform lua listDirtyEntry proxy e).written lua proxy i sId =
        s.written lua proxy i sId := by rw [ListState.written, hcalls]; rfl
    refine ⟨?_, ?_⟩
    · rw [hmark sId hid, hwritten]
      exact hchained.current
    · rw [hwritten]
      exact hchained.chain
  · have hchange := hperformed.mark hclear (hapart j).2 hid
    have hwritten : (s.perform lua listDirtyEntry proxy (.call j call)).written lua proxy i sId =
        ((call.writes lua sId reply).map fun v => (call.expects, v)).toList ++
          s.written lua proxy i sId := by
      rw [ListState.written, hcalls, List.filterMap_cons]
      cases call.writes lua sId reply with
      | none => rfl
      | some v => rfl
    generalize call.writes lua sId reply = writes at hchange hwritten
    cases hchange with
    | keep hsame =>
      refine ⟨?_, ?_⟩
      · rw [mark_of_name hname.symm, hsame, hwritten, mark_of_name hname]
        exact hchained.current
      · rw [hwritten]
        exact hchained.chain
    | @set v hset hexpects =>
      refine ⟨?_, ?_⟩
      · rw [mark_of_name hname.symm, hset, hwritten]
        rfl
      · rw [hwritten]
        refine List.isChain_cons.2 ⟨fun a ha e he => ?_, hchained.chain⟩
        have hhead : (s.written lua proxy i sId).head? = some a := ha
        have hbefore : s.server.mark (proxy j) sId = some a.2 := by
          rw [mark_of_name hname, hchained.current, hhead]
          rfl
        rcases hexpects e he with hequal | habsent
        · rw [hbefore] at hequal
          exact .inl (Option.some.inj hequal).symm
        · rw [hbefore] at habsent
          exact .inr (List.isEmpty_iff.1 habsent)

/-- In every run that does not throw the marks away. -/
theorem agreed_of_run {start s : ListState ι} (hstart : ListStart start) {es : List (ListEvent ι)}
    (hkept : ∀ e ∈ es, ¬ e.Drops proxy i)
    (hrun : (listProxies lua listDirtyEntry proxy).run start es = some s) {sId : Bytes}
    (hid : sId ≠ isDirty) : Agreed lua proxy i s sId := by
  have hnone : start.written lua proxy i sId = [] := by
    rw [ListState.written, ListState.calls, hstart.noneCalled]
    rfl
  have hchained : Chained lua proxy i sId start := by
    refine ⟨?_, ?_⟩
    · rw [hnone, ListServer.mark, hstart.noHashes]
      rfl
    · rw [hnone]
      exact .nil
  have hstep : ∀ s e s', Filed lua listDirtyEntry proxy s ∧ Chained lua proxy i sId s →
      ¬ e.Drops proxy i → (listProxies lua listDirtyEntry proxy).next s e = some s' →
      Filed lua listDirtyEntry proxy s' ∧ Chained lua proxy i sId s' := by
    rintro s e s' ⟨hfiled, hchained⟩ hkept hnext
    obtain rfl := Option.some.inj hnext
    exact ⟨hfiled.perform hapart hlua e, hfiled.chained hapart hlua hkept hid hchained⟩
  exact (Transition.System.run_invariant hstep ⟨hstart.filed, hchained⟩
    (Transition.System.meets_of_forall fun _ => hkept) hrun).2.agreed

end Proof

/-- Two clients of the first list, of which one comes too late with a value. -/
def queueRun : List (ListEvent Bool) :=
  [.call false (.rPushCAS (ascii "v") (ascii "0") (ascii "1") (ascii "a")),
    .call false (.rPushCAS (ascii "v") (ascii "1") (ascii "2") (ascii "b")), .loot,
    .call false (.rPushCAS (ascii "v") (ascii "1") (ascii "3") (ascii "c")),
    .call true (.lPushToList (ascii "x")), .call false .lPop, .call false (.rPushToList (ascii "d"))]

theorem queueRun_kept : ∀ e ∈ queueRun, ¬ e.Drops mailboxes false := by
  simp [queueRun, ListEvent.Drops]

theorem queueRun_inOrder : ∀ e ∈ queueRun, e.InOrder mailboxes false := by
  simp [queueRun, ListEvent.InOrder, ListCall.queues, mailboxes, CRedisListProxy.name, ascii]

theorem handedOver_queueRun : ∃ s,
    (listProxies wholeNumbers (ascii "dirty") mailboxes).run noMail queueRun = some s ∧
      HandedOverInOrder mailboxes false s ∧ s.taken mailboxes false = [ascii "a"] ∧
      s.server.list (mailboxes false) = [ascii "b", ascii "d"] :=
  ⟨_, rfl, (handedOver_of_run mailboxes_apart wholeNumbers_roundTrips noMail_start queueRun_kept rfl).2
    queueRun_inOrder, by decide +kernel, by decide +kernel⟩

theorem agreed_queueRun : ∃ s,
    (listProxies wholeNumbers (ascii "dirty") mailboxes).run noMail queueRun = some s ∧
      Agreed wholeNumbers mailboxes false s (ascii "v") ∧
      s.server.mark (mailboxes false) (ascii "v") = some (ascii "2") :=
  ⟨_, rfl, agreed_of_run mailboxes_apart wholeNumbers_roundTrips noMail_start queueRun_kept rfl
    (by decide), by decide +kernel⟩

end KjRedis.Cache
