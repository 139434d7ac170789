import KjRedis.Cache.ListId
import KjRedis.Cache.ListScripts

/-! Any number of lists that share one index of dirty lists, and a database that keeps what
is looted of them. -/
namespace KjRedis.Cache

open KjRedis.Conn
open HashStore (Hash Store serialized serialized_getD lookup_set lookup_unset drop_apply)

/-- What a list and its marks are serialized to. -/
abbrev ListDump := Option (List Bytes) × Option (Hash Bytes)

/-- The database keeps the last entry of each list. -/
def applyEntry (db : Bytes → ListDump) (t : CRedisListProxy.ListDirtyEntry) : Bytes → ListDump :=
  Function.update db t.1 (t.2.1, t.2.2.2)

/-- A list with its marks, but for the flag. -/
def ListServer.snapshot (p : CRedisListProxy) (s : ListServer) : ListDump :=
  (ListServer.serializedList (s.list p), serialized ((s.hashes p.sIdHashOfCAS).erase isDirty))

/-- `aside` tells of each list if a change of it, or its loss, has left it without the flag.
`log` has the calls with their replies, the last one first. -/
structure ListState (ι : Type*) where
  server : ListServer
  db : Bytes → ListDump
  aside : Bytes → Bool
  log : List (ι × ListCall × ListReply)

/-- `flush` is a loss of all that the server holds. -/
inductive ListEvent (ι : Type*) where
  | call (i : ι) (call : ListCall)
  | loot
  | restore (i : ι)
  | flush

section System

variable {ι : Type*} (lua : Lua) (listDirtyEntry : Bytes) (proxy : ι → CRedisListProxy)

namespace ListState

/-- What `LootDirtyEntry` would return now. -/
def pending (s : ListState ι) : List CRedisListProxy.ListDirtyEntry :=
  ((CRedisListProxy.sLootDirtyEntry lua listDirtyEntry).run s.server).1

/-- The database with all that is pending applied to it. -/
def settled (s : ListState ι) : Bytes → ListDump :=
  (s.pending lua listDirtyEntry).foldl applyEntry s.db

def answered (s : ListState ι) (i : ι) (call : ListCall) (r : ListReply × ListServer) : ListState ι :=
  let p := proxy i
  let changed := s.server.isFlagged lua p || s.server.snapshot p != r.2.snapshot p
  { s with
    server := r.2
    aside := Function.update s.aside p.sIdList
      (!r.2.isFlagged lua p && (s.aside p.sIdList || changed))
    log := (i, call, r.1) :: s.log }

def perform (s : ListState ι) : ListEvent ι → ListState ι
  | .call i call =>
    s.answered lua proxy i call ((call.perform lua listDirtyEntry (proxy i)).run s.server)
  | .loot =>
    let r := (CRedisListProxy.sLootDirtyEntry lua listDirtyEntry).run s.server
    { s with server := r.2, db := r.1.foldl applyEntry s.db }
  | .restore i =>
    let p := proxy i
    let dump := s.db p.sIdList
    let r := (CRedisListProxy.sRestore p.sIdHashOfCAS p.sIdList dump.2 dump.1).run s.server
    { s with server := r.2, aside := Function.update s.aside p.sIdList false }
  | .flush =>
    { s with
      server := { s.server with hashes := fun _ => ∅, lists := fun _ => [] }
      aside := fun _ => true }

end ListState

def listProxies : Transition.System (ListState ι) (ListEvent ι) where
  next s e := some (s.perform lua listDirtyEntry proxy e)

/-- The index is not a list or a hash of a proxy. -/
def ListsApart : Prop :=
  ∀ i, listDirtyEntry ≠ (proxy i).sIdList ∧ listDirtyEntry ≠ (proxy i).sIdHashOfCAS

/-- Nothing on the server, and nothing in the database. -/
structure ListStart (s : ListState ι) : Prop where
  noLists : s.server.lists = fun _ => []
  noHashes : s.server.hashes = fun _ => ∅
  noDumps : s.db = fun _ => (none, none)
  noneCalled : s.log = []

/-- No change of a list is lost that is not aside, and what is cleared is in the database. -/
structure NoListLost (s : ListState ι) : Prop where
  settled : ∀ i, s.aside (proxy i).sIdList = false →
    s.settled lua listDirtyEntry (proxy i).sIdList = s.server.snapshot (proxy i)
  cleared : ∀ i, s.aside (proxy i).sIdList = false →
    ((ListCall.clear.perform lua listDirtyEntry (proxy i)).run s.server).1 = .flag true →
      s.db (proxy i).sIdList = s.server.snapshot (proxy i)

/-- The call can change a list that has no flag, and set none. -/
def ListCall.isUnmarked : ListCall → Bool
  | .lPushToList _ | .rPushToList _ | .lPop | .rPop | .clear => true
  | .popAllAndMark sId sExpect => sId == isDirty && lua.tonumber sExpect != some 1
  | _ => false

/-- What can put a list aside. -/
def ListEvent.Strays (i : ι) : ListEvent ι → Prop
  | .call j c => (proxy j).name = (proxy i).name ∧ c.isUnmarked lua = true
  | .flush => True
  | _ => False

/-- A list that is aside was so at the start, or one of the events has put it there. -/
def PutAside (start : ListState ι) (es : List (ListEvent ι)) (s : ListState ι) : Prop :=
  ∀ i, s.aside (proxy i).sIdList = true →
    start.aside (proxy i).sIdList = true ∨ ∃ e ∈ es, e.Strays lua proxy i

end System

section Calls

variable {lua : Lua} {listDirtyEntry : Bytes} {p : CRedisListProxy} {s t : ListServer}

/-- Only the keys of the proxy have changed, and of the index only its entry. -/
structure Within (listDirtyEntry : Bytes) (p : CRedisListProxy) (s t : ListServer) : Prop where
  lists : ∀ key, key ≠ p.sIdList → key ≠ p.sIdHashOfCAS → t.lists key = s.lists key
  hashes : ∀ key, key ≠ p.sIdList → key ≠ p.sIdHashOfCAS → key ≠ listDirtyEntry →
    t.hashes key = s.hashes key
  index : ∀ key, key ≠ p.sIdList →
    (t.hashes listDirtyEntry).lookup key = (s.hashes listDirtyEntry).lookup key

theorem Within.refl (s : ListServer) : Within listDirtyEntry p s s :=
  ⟨fun _ _ _ => rfl, fun _ _ _ _ => rfl, fun _ _ => rfl⟩

theorem Within.withList (h : Within listDirtyEntry p s t) (l : List Bytes) :
    Within listDirtyEntry p s (t.withList p l) where
  lists key hl hc := (Function.update_of_ne hl _ _).trans (h.lists key hl hc)
  hashes := h.hashes
  index := h.index

theorem Within.told (h : Within listDirtyEntry p s t) (msg : Bytes) :
    Within listDirtyEntry p s (t.told p msg) :=
  ⟨h.lists, h.hashes, h.index⟩

section Hash

variable (hhash : listDirtyEntry ≠ p.sIdHashOfCAS)
include hhash

theorem Within.withMark (h : Within listDirtyEntry p s t) (sId value : Bytes) :
    Within listDirtyEntry p s (t.withMark p sId value) where
  lists := h.lists
  hashes key hl hc hd := (Function.update_of_ne hc _ _).trans (h.hashes key hl hc hd)
  index key hl := (congrArg (AList.lookup key) (Function.update_of_ne hhash _ _)).trans (h.index key hl)

theorem Within.flagged (h : Within listDirtyEntry p s t) :
    Within listDirtyEntry p s (t.flagged lua listDirtyEntry p) where
  lists := h.lists
  hashes key hl hc hd := by
    refine (Function.update_of_ne hd _ _).trans ((Function.update_of_ne hc _ _).trans ?_)
    exact h.hashes key hl hc hd
  index key hl := by
    rw [ListServer.flagged, lookup_set, if_neg fun heq => hl heq.2]
    exact (h.withMark hhash isDirty (lua.tostring 1)).index key hl

end Hash

section Keys

variable (hlist : listDirtyEntry ≠ p.sIdList) (hhash : listDirtyEntry ≠ p.sIdHashOfCAS)

include hlist in
theorem Within.emptied (h : Within listDirtyEntry p s t) : Within listDirtyEntry p s (t.emptied p) where
  lists key hl hc := (Function.update_of_ne hl _ _).trans (h.lists key hl hc)
  hashes key hl hc hd := (Function.update_of_ne hl _ _).trans (h.hashes key hl hc hd)
  index key hl := (congrArg (AList.lookup key) (Function.update_of_ne hlist _ _)).trans (h.index key hl)

include hlist hhash

theorem hashes_cleared_index : (s.cleared listDirtyEntry p).hashes listDirtyEntry =
    s.hashes.unset listDirtyEntry p.sIdList listDirtyEntry :=
  (Function.update_of_ne hhash _ _).trans (Function.update_of_ne hlist _ _)

theorem within_cleared : Within listDirtyEntry p s (s.cleared listDirtyEntry p) where
  lists key hl hc := (Function.update_of_ne hc _ _).trans (Function.update_of_ne hl _ _)
  hashes key hl hc hd := by
    refine (Function.update_of_ne hc _ _).trans ((Function.update_of_ne hl _ _).trans ?_)
    exact Function.update_of_ne hd _ _
  index key hl := by
    rw [hashes_cleared_index hlist hhash, lookup_unset, if_neg fun heq => hl heq.2]

theorem Performed.within {call : ListCall} {reply : ListReply}
    (h : Performed lua listDirtyEntry p s call reply t) : Within listDirtyEntry p s t := by
  cases h with
  | lPushToList => exact .withList (.refl s) _
  | rPushToList => exact .withList (.refl s) _
  | lPop => exact .withList (.refl s) _
  | rPop => exact .withList (.refl s) _
  | looked => exact .refl s
  | kept => exact .refl s
  | cleared => exact within_cleared hlist hhash
  | popAll => exact .flagged hhash (.emptied hlist (.refl s))
  | popAllAndMark =>
    exact .told (.withMark hhash (.flagged hhash (.emptied hlist (.refl s))) _ _) _
  | refused => exact .refl s
  | accepted => exact .told (.flagged hhash (.withList (.withMark hhash (.refl s) _ _) _)) _
  | uncounted => exact .refl s
  | counted => exact .told (.flagged hhash (.withMark hhash (.refl s) _ _)) _

end Keys

/-- What a call leaves of the entry of its list: the list is in the index, or nothing has
been added and no flag set. -/
def Entered (lua : Lua) (listDirtyEntry : Bytes) (p : CRedisListProxy) (s t : ListServer) : Prop :=
  (t.hashes listDirtyEntry).lookup p.sIdList = some p.sIdHashOfCAS ∨
    (t.isFlagged lua p = true → s.isFlagged lua p = true ∧ t.hashes = s.hashes) ∧
      ∀ value, (t.hashes listDirtyEntry).lookup p.sIdList = some value →
        (s.hashes listDirtyEntry).lookup p.sIdList = some value

theorem entered_of_hashes (h : t.hashes = s.hashes) : Entered lua listDirtyEntry p s t := by
  refine .inr ⟨fun hflag => ⟨?_, h⟩, fun value => ?_⟩
  · rw [← hflag, ListServer.isFlagged, ListServer.isFlagged, ListServer.mark, ListServer.mark, h]
  · rw [h]
    exact id

theorem lookup_flagged :
    ((s.flagged lua listDirtyEntry p).hashes listDirtyEntry).lookup p.sIdList = some p.sIdHashOfCAS := by
  rw [ListServer.flagged, lookup_set, if_pos ⟨rfl, rfl⟩]

theorem Performed.entered {call : ListCall} {reply : ListReply} (hlist : listDirtyEntry ≠ p.sIdList)
    (hhash : listDirtyEntry ≠ p.sIdHashOfCAS) (h : Performed lua listDirtyEntry p s call reply t) :
    Entered lua listDirtyEntry p s t := by
  cases h with
  | lPushToList => exact entered_of_hashes rfl
  | rPushToList => exact entered_of_hashes rfl
  | lPop => exact entered_of_hashes rfl
  | rPop => exact entered_of_hashes rfl
  | looked => exact entered_of_hashes rfl
  | kept => exact entered_of_hashes rfl
  | cleared =>
    have hindex : ((s.cleared listDirtyEntry p).hashes listDirtyEntry).lookup p.sIdList = none := by
      rw [hashes_cleared_index hlist hhash, lookup_unset, if_pos ⟨rfl, rfl⟩]
    have hmarks : (s.cleared listDirtyEntry p).hashes p.sIdHashOfCAS = ∅ :=
      Function.update_self _ _ _
    refine .inr ⟨fun hflag => ?_, fun value hvalue => ?_⟩
    · rw [ListServer.isFlagged, ListServer.mark, hmarks] at hflag
      cases hflag
    · cases hindex.symm.trans hvalue
  | popAll => exact .inl lookup_flagged
  | popAllAndMark =>
    refine .inl (Eq.trans ?_ (@lookup_flagged lua listDirtyEntry p (s.emptied p)))
    exact congrArg (AList.lookup p.sIdList) (Function.update_of_ne hhash _ _)
  | refused => exact entered_of_hashes rfl
  | accepted => exact .inl lookup_flagged
  | uncounted => exact entered_of_hashes rfl
  | counted => exact .inl lookup_flagged

end Calls

section Loot

variable {lua : Lua} {listDirtyEntry : Bytes} {s : ListServer}

/-- What the loop makes of an entry of the index. -/
def lootedEntry (lua : Lua) (s : ListServer) (e : Sigma fun _ : Bytes => Bytes) :
    Option CRedisListProxy.ListDirtyEntry :=
  if ((s.hashes e.2).lookup isDirty).bind lua.tonumber == some 1 then
    some (e.1, ListServer.serializedList (s.lists e.1), e.2, serialized ((s.hashes e.2).erase isDirty))
  else none

theorem lootedEntry_some {e : Sigma fun _ : Bytes => Bytes} {t : CRedisListProxy.ListDirtyEntry}
    (h : lootedEntry lua s e = some t) :
    ((s.hashes e.2).lookup isDirty).bind lua.tonumber == some 1 ∧ t.1 = e.1 := by
  unfold lootedEntry at h
  split at h
  · next hflag =>
    obtain rfl := Option.some.inj h
    exact ⟨hflag, rfl⟩
  · cases h

theorem lootedEntries_nodup {c : Hash Bytes} :
    ((c.entries.filterMap (lootedEntry lua s)).map Prod.fst).Nodup := by
  apply List.pairwise_map.2
  apply List.pairwise_filterMap.2
  apply (List.nodupKeys_iff_pairwise.1 c.nodupKeys).imp
  intro e e' hne t ht t' ht' heq
  exact hne ((lootedEntry_some ht).2.symm.trans (heq.trans (lootedEntry_some ht').2))

def ListServer.unflag (s : ListServer) (c : Bytes) : ListServer :=
  { s with hashes := s.hashes.unset c isDirty }

/-- Every hash is in the index once: no flag is gone before it is read. -/
theorem run_lootLoop {es : List (Sigma fun _ : Bytes => Bytes)} (h : (es.map (·.2)).Nodup) :
    (CRedisListProxy.lootLoop lua (es.flatMap fun e => [e.1, e.2])).run s =
      (es.filterMap (lootedEntry lua s), (es.map (·.2)).foldl ListServer.unflag s) := by
  induction es generalizing s with
  | nil => rfl
  | cons e es ih =>
    obtain ⟨l, c⟩ := e
    rw [List.map_cons, List.nodup_cons] at h
    have hother : es.filterMap (lootedEntry lua (s.unflag c)) = es.filterMap (lootedEntry lua s) := by
      refine List.filterMap_congr fun e he => ?_
      have hne : e.2 ≠ c := by
        have hmem : e.2 ∈ es.map (·.2) := List.mem_map_of_mem he
        rintro heq
        exact h.1 (heq ▸ hmem)
      have hhash : (s.unflag c).hashes e.2 = s.hashes e.2 := Function.update_of_ne hne _ _
      simp only [lootedEntry, hhash]
      rfl
    have hloop : (CRedisListProxy.lootLoop lua (l :: c :: es.flatMap fun e => [e.1, e.2])).run s =
        let r := (CRedisListProxy.lootLoop lua (es.flatMap fun e => [e.1, e.2])).run (s.unflag c)
        if ((s.hashes c).lookup isDirty).bind lua.tonumber == some 1 then
          ((l, ListServer.serializedList (s.lists l), c, serialized ((s.unflag c).hashes c)) :: r.1, r.2)
        else r := by
      have hflag : (CRedisListProxy.lootLoop lua (l :: c :: es.flatMap fun e => [e.1, e.2])).run s =
          StateT.run (if ((s.hashes c).lookup isDirty).bind lua.tonumber == some 1 then do
            let dl ← ListServer.dumpList l
            let dc ← ListServer.dumpHash c
            let r ← CRedisListProxy.lootLoop lua (es.flatMap fun e => [e.1, e.2])
            return (l, dl, c, dc) :: r
          else CRedisListProxy.lootLoop lua (es.flatMap fun e => [e.1, e.2])) (s.unflag c) := rfl
      rw [hflag]
      split
      · rfl
      · rfl
    have hdump : (s.unflag c).hashes c = (s.hashes c).erase isDirty := Function.update_self _ _ _
    rw [List.flatMap_cons, List.cons_append, List.cons_append, List.nil_append, hloop, ih h.2, hother,
      hdump, List.filterMap_cons, lootedEntry]
    split
    · rfl
    · rfl

theorem lists_foldl_unflag (cs : List Bytes) : (cs.foldl ListServer.unflag s).lists = s.lists := by
  induction cs generalizing s with
  | nil => rfl
  | cons c cs ih => exact ih

theorem erase_idem (c : Hash Bytes) : (c.erase isDirty).erase isDirty = c.erase isDirty :=
  AList.ext (List.kerase_of_notMem_keys fun h => (AList.mem_erase.1 (AList.mem_keys.2 h)).1 rfl)

theorem hashes_foldl_unflag (cs : List Bytes) (key : Bytes) : (cs.foldl ListServer.unflag s).hashes key =
    if key ∈ cs then (s.hashes key).erase isDirty else s.hashes key := by
  induction cs generalizing s with
  | nil => rfl
  | cons c cs ih =>
    rw [List.foldl_cons, ih]
    by_cases heq : key = c
    · subst heq
      have hdump : (s.unflag key).hashes key = (s.hashes key).erase isDirty := Function.update_self _ _ _
      rw [hdump, erase_idem, ite_self, if_pos List.mem_cons_self]
    · have hsame : (s.unflag c).hashes key = s.hashes key := Function.update_of_ne heq _ _
      simp only [hsame, List.mem_cons, heq, false_or]

variable {db : Bytes → ListDump} {ts : List CRedisListProxy.ListDirtyEntry}

theorem applyEntry_foldl_of_ne {key : Bytes} (h : ∀ t ∈ ts, key ≠ t.1) :
    ts.foldl applyEntry db key = db key := by
  induction ts generalizing db with
  | nil => rfl
  | cons t ts ih =>
    rw [List.foldl_cons, ih fun u hu => h u (List.mem_cons_of_mem t hu)]
    exact Function.update_of_ne (h t List.mem_cons_self) _ _

theorem applyEntry_foldl_of_mem (hnodup : (ts.map Prod.fst).Nodup) {t : CRedisListProxy.ListDirtyEntry}
    (h : t ∈ ts) : ts.foldl applyEntry db t.1 = (t.2.1, t.2.2.2) := by
  induction ts generalizing db with
  | nil => cases h
  | cons u ts ih =>
    rw [List.map_cons, List.nodup_cons] at hnodup
    rw [List.foldl_cons]
    rcases List.mem_cons.1 h with rfl | hmem
    · have hne : ∀ u ∈ ts, t.1 ≠ u.1 := by
        intro u hu heq
        exact hnodup.1 (heq ▸ List.mem_map_of_mem hu)
      rw [applyEntry_foldl_of_ne hne]
      exact Function.update_self _ _ _
    · exact ih hnodup.2 hmem

end Loot

section Proof

variable {ι : Type*} {lua : Lua} {listDirtyEntry : Bytes} {proxy : ι → CRedisListProxy}

/-- Every flagged list is in the index, and nothing else is. -/
structure ListsIndexed (lua : Lua) (listDirtyEntry : Bytes) (proxy : ι → CRedisListProxy)
    (s : ListServer) : Prop where
  listed : ∀ i, s.isFlagged lua (proxy i) = true →
    (s.hashes listDirtyEntry).lookup (proxy i).sIdList = some (proxy i).sIdHashOfCAS
  only : ∀ key value, (s.hashes listDirtyEntry).lookup key = some value →
    ∃ i, key = (proxy i).sIdList ∧ value = (proxy i).sIdHashOfCAS

/-- What looting makes of a list and its marks. -/
def IsDump (dump : ListDump) : Prop :=
  ∃ l c, dump = (ListServer.serializedList l, serialized (AList.erase isDirty c))

/-- The database has what is neither aside nor flagged. -/
structure Filed (lua : Lua) (listDirtyEntry : Bytes) (proxy : ι → CRedisListProxy)
    (s : ListState ι) : Prop where
  indexed : ListsIndexed lua listDirtyEntry proxy s.server
  saved : ∀ i, s.aside (proxy i).sIdList = false → s.server.isFlagged lua (proxy i) = false →
    s.db (proxy i).sIdList = s.server.snapshot (proxy i)
  dumped : ∀ key, IsDump (s.db key)

variable {s t : ListServer}

theorem ListsIndexed.entry (h : ListsIndexed lua listDirtyEntry proxy s)
    {e : Sigma fun _ : Bytes => Bytes} (he : e ∈ (s.hashes listDirtyEntry).entries) :
    ∃ i, e.1 = (proxy i).sIdList ∧ e.2 = (proxy i).sIdHashOfCAS :=
  h.only e.1 e.2 (AList.mem_lookup_iff.2 he)

theorem ListsIndexed.hashes_nodup (h : ListsIndexed lua listDirtyEntry proxy s) :
    ((s.hashes listDirtyEntry).entries.map (·.2)).Nodup := by
  apply List.pairwise_map.2
  apply (List.nodupKeys_iff_pairwise.1 (s.hashes listDirtyEntry).nodupKeys).imp_of_mem
  intro e e' he he' hne heq
  obtain ⟨i, hkey, hvalue⟩ := h.entry he
  obtain ⟨j, hkey', hvalue'⟩ := h.entry he'
  rw [hvalue, hvalue', CRedisListProxy.sIdHashOfCAS_inj] at heq
  exact hne (hkey.trans ((CRedisListProxy.sIdList_inj.2 heq).trans hkey'.symm))

/-- The server that a looting leaves. -/
def ListServer.looted (listDirtyEntry : Bytes) (s : ListServer) : ListServer :=
  ((s.hashes listDirtyEntry).entries.map (·.2)).foldl ListServer.unflag
    { s with
      hashes := s.hashes.drop listDirtyEntry
      lists := Function.update s.lists listDirtyEntry [] }

theorem ListsIndexed.run_loot (h : ListsIndexed lua listDirtyEntry proxy s)
    (hapart : ListsApart listDirtyEntry proxy) :
    (CRedisListProxy.sLootDirtyEntry lua listDirtyEntry).run s =
      ((s.hashes listDirtyEntry).entries.filterMap (lootedEntry lua s), s.looted listDirtyEntry) := by
  have hloop := @run_lootLoop lua { s with
      hashes := s.hashes.drop listDirtyEntry
      lists := Function.update s.lists listDirtyEntry [] } _ h.hashes_nodup
  refine hloop.trans (congrArg₂ Prod.mk ?_ rfl)
  refine List.filterMap_congr fun e he => ?_
  obtain ⟨i, hkey, hvalue⟩ := h.entry he
  have hhash : s.hashes.drop listDirtyEntry e.2 = s.hashes e.2 :=
    Function.update_of_ne (hvalue ▸ (hapart i).2.symm) _ _
  have hlist : Function.update s.lists listDirtyEntry [] e.1 = s.lists e.1 :=
    Function.update_of_ne (hkey ▸ (hapart i).1.symm) _ _
  simp only [lootedEntry, hhash, hlist]

/-- Of a list and its marks, looting takes nothing but the flag. -/
theorem looted_proxy (hapart : ListsApart listDirtyEntry proxy) (i : ι) :
    (s.looted listDirtyEntry).list (proxy i) = s.list (proxy i) ∧
      (s.looted listDirtyEntry).hashes (proxy i).sIdHashOfCAS =
        if (proxy i).sIdHashOfCAS ∈ (s.hashes listDirtyEntry).entries.map (·.2) then
          (s.hashes (proxy i).sIdHashOfCAS).erase isDirty
        else s.hashes (proxy i).sIdHashOfCAS := by
  have hhash : s.hashes.drop listDirtyEntry (proxy i).sIdHashOfCAS =
      s.hashes (proxy i).sIdHashOfCAS := Function.update_of_ne (hapart i).2.symm _ _
  constructor
  · rw [ListServer.list, ListServer.looted, lists_foldl_unflag]
    exact Function.update_of_ne (hapart i).1.symm _ _
  · rw [ListServer.looted, hashes_foldl_unflag]
    simp only [hhash]

theorem looted_snapshot (hapart : ListsApart listDirtyEntry proxy) (i : ι) :
    (s.looted listDirtyEntry).snapshot (proxy i) = s.snapshot (proxy i) := by
  obtain ⟨hlist, hhash⟩ := looted_proxy (s := s) hapart i
  rw [ListServer.snapshot, hlist, hhash]
  split
  · rw [erase_idem]
    rfl
  · rfl

theorem ListsIndexed.looted_flag (h : ListsIndexed lua listDirtyEntry proxy s)
    (hapart : ListsApart listDirtyEntry proxy) (i : ι) :
    (s.looted listDirtyEntry).isFlagged lua (proxy i) = false := by
  obtain ⟨-, hhash⟩ := looted_proxy (s := s) hapart i
  rw [ListServer.isFlagged, ListServer.mark, hhash]
  split
  · rw [AList.lookup_erase]
    rfl
  · next hnot =>
    refine Bool.eq_false_iff.2 fun hflag => hnot ?_
    exact List.mem_map_of_mem (AList.mem_lookup_iff.1 (h.listed i hflag))

theorem index_looted (key : Bytes) :
    ((s.looted listDirtyEntry).hashes listDirtyEntry).lookup key = none := by
  have hdrop : s.hashes.drop listDirtyEntry listDirtyEntry = ∅ := Function.update_self _ _ _
  rw [ListServer.looted, hashes_foldl_unflag]
  simp only [hdrop]
  split
  · rfl
  · rfl

theorem lootedEntry_isDump {e : Sigma fun _ : Bytes => Bytes} {t : CRedisListProxy.ListDirtyEntry}
    (h : lootedEntry lua s e = some t) : IsDump (t.2.1, t.2.2.2) := by
  unfold lootedEntry at h
  split at h
  · obtain rfl := Option.some.inj h
    exact ⟨_, _, rfl⟩
  · cases h

theorem isDump_foldl {db : Bytes → ListDump} {ts : List CRedisListProxy.ListDirtyEntry}
    (h : ∀ t ∈ ts, IsDump (t.2.1, t.2.2.2)) (hdb : ∀ key, IsDump (db key)) (key : Bytes) :
    IsDump (ts.foldl applyEntry db key) := by
  induction ts generalizing db with
  | nil => exact hdb key
  | cons t ts ih =>
    refine ih (fun u hu => h u (List.mem_cons_of_mem t hu)) fun key => ?_
    rw [applyEntry, Function.update_apply]
    split
    · exact h t List.mem_cons_self
    · exact hdb key

/-- Where nothing is pending of a list, the database has it already. -/
theorem Filed.settled_eq {s : ListState ι} (h : Filed lua listDirtyEntry proxy s)
    (hapart : ListsApart listDirtyEntry proxy) {i : ι} (haside : s.aside (proxy i).sIdList = false) :
    s.settled lua listDirtyEntry (proxy i).sIdList = s.server.snapshot (proxy i) := by
  rw [ListState.settled, ListState.pending, h.indexed.run_loot hapart]
  cases hflag : s.server.isFlagged lua (proxy i) with
  | true =>
    have hlisted := AList.mem_lookup_iff.1 (h.indexed.listed i hflag)
    have hentry : lootedEntry lua s.server ⟨(proxy i).sIdList, (proxy i).sIdHashOfCAS⟩ =
        some ((proxy i).sIdList, (s.server.snapshot (proxy i)).1, (proxy i).sIdHashOfCAS,
          (s.server.snapshot (proxy i)).2) := if_pos hflag
    exact applyEntry_foldl_of_mem lootedEntries_nodup (List.mem_filterMap.2 ⟨_, hlisted, hentry⟩)
  | false =>
    rw [applyEntry_foldl_of_ne, h.saved i haside hflag]
    intro t ht heq
    obtain ⟨e, he, hsome⟩ := List.mem_filterMap.1 ht
    obtain ⟨j, hkey, hvalue⟩ := h.indexed.entry he
    obtain ⟨hone, hfst⟩ := lootedEntry_some hsome
    have hname := CRedisListProxy.sIdList_inj.1 (heq.trans (hfst.trans hkey))
    rw [hvalue, ← CRedisListProxy.sIdHashOfCAS_inj.2 hname] at hone
    exact Bool.false_ne_true (hflag.symm.trans hone)

theorem Within.hash_eq {p q : CRedisListProxy} (h : Within listDirtyEntry p s t) (hne : q.name ≠ p.name)
    (hhash : listDirtyEntry ≠ q.sIdHashOfCAS) : t.hashes q.sIdHashOfCAS = s.hashes q.sIdHashOfCAS :=
  h.hashes _ CRedisListProxy.sIdList_ne_hash.symm (CRedisListProxy.sIdHashOfCAS_inj.not.2 hne)
    hhash.symm

/-- A list of another name stays as it is. -/
theorem Within.snapshot_eq {p q : CRedisListProxy} (h : Within listDirtyEntry p s t)
    (hne : q.name ≠ p.name) (hhash : listDirtyEntry ≠ q.sIdHashOfCAS) :
    t.snapshot q = s.snapshot q := by
  have hlist : t.list q = s.list q := h.lists _ (CRedisListProxy.sIdList_inj.not.2 hne)
    CRedisListProxy.sIdList_ne_hash
  rw [ListServer.snapshot, hlist, h.hash_eq hne hhash]
  rfl

theorem Within.isFlagged_eq {p q : CRedisListProxy} (h : Within listDirtyEntry p s t)
    (hne : q.name ≠ p.name) (hhash : listDirtyEntry ≠ q.sIdHashOfCAS) :
    t.isFlagged lua q = s.isFlagged lua q := by
  rw [ListServer.isFlagged, ListServer.mark, h.hash_eq hne hhash]
  rfl

theorem snapshot_of_name {p q : CRedisListProxy} (h : q.name = p.name) :
    t.snapshot q = t.snapshot p := by
  rw [ListServer.snapshot, ListServer.list, CRedisListProxy.sIdList_inj.2 h,
    CRedisListProxy.sIdHashOfCAS_inj.2 h]
  rfl

theorem isFlagged_of_name {p q : CRedisListProxy} (h : q.name = p.name) :
    t.isFlagged lua q = t.isFlagged lua p := by
  rw [ListServer.isFlagged, ListServer.mark, CRedisListProxy.sIdHashOfCAS_inj.2 h]
  rfl

theorem serializedList_inj {l l' : List Bytes}
    (h : ListServer.serializedList l = ListServer.serializedList l') : l = l' := by
  have hgetD : ∀ l : List Bytes, (ListServer.serializedList l).getD [] = l := by
    intro l
    unfold ListServer.serializedList
    split
    · next hnil => exact hnil.symm
    · rfl
  rw [← hgetD l, h, hgetD]

/-- A dump of nothing is not restored, to the same effect. -/
theorem elim_serialized {hashes : Store Bytes} {key : Bytes} (h : hashes key = ∅) (c : Hash Bytes) :
    (serialized c).elim hashes (Function.update hashes key) = Function.update hashes key c := by
  unfold serialized
  split
  · next hnil =>
    obtain rfl : c = ∅ := AList.ext hnil
    rw [← h, Function.update_eq_self]
    rfl
  · rfl

theorem elim_serializedList {lists : Bytes → List Bytes} {key : Bytes} (h : lists key = [])
    (l : List Bytes) : (ListServer.serializedList l).elim lists (Function.update lists key) =
      Function.update lists key l := by
  unfold ListServer.serializedList
  split
  · next hnil =>
    rw [hnil, ← h, Function.update_eq_self]
    rfl
  · rfl

def ListServer.restored (p : CRedisListProxy) (l : List Bytes) (c : Hash Bytes) (s : ListServer) :
    ListServer :=
  { s with
    hashes := Function.update (s.hashes.drop p.sIdList) p.sIdHashOfCAS c
    lists := Function.update (Function.update s.lists p.sIdHashOfCAS []) p.sIdList l }

theorem run_sRestore (p : CRedisListProxy) (l : List Bytes) (c : Hash Bytes) :
    ((CRedisListProxy.sRestore p.sIdHashOfCAS p.sIdList (serialized c)
      (ListServer.serializedList l)).run s).2 = s.restored p l c := by
  have hrun : ∀ dc dl, ((CRedisListProxy.sRestore p.sIdHashOfCAS p.sIdList dc dl).run s).2 =
      let hashes := (s.hashes.drop p.sIdHashOfCAS).drop p.sIdList
      let lists := Function.update (Function.update s.lists p.sIdHashOfCAS []) p.sIdList []
      { s with
        hashes := dc.elim hashes (Function.update hashes p.sIdHashOfCAS)
        lists := dl.elim lists (Function.update lists p.sIdList) } := by
    intro dc dl
    cases dc with
    | none =>
      cases dl with
      | none => rfl
      | some l => rfl
    | some c =>
      cases dl with
      | none => rfl
      | some l => rfl
  have hcomm : (s.hashes.drop p.sIdHashOfCAS).drop p.sIdList =
      Function.update (s.hashes.drop p.sIdList) p.sIdHashOfCAS ∅ :=
    Function.update_comm CRedisListProxy.sIdList_ne_hash.symm _ _ _
  simp only [hrun, hcomm, elim_serialized (Function.update_self _ _ _),
    elim_serializedList (Function.update_self _ _ _), Function.update_idem, ListServer.restored]

theorem restored_hash (p : CRedisListProxy) (l : List Bytes) (c : Hash Bytes) :
    (s.restored p l c).hashes p.sIdHashOfCAS = c := Function.update_self _ _ _

theorem restored_snapshot (p : CRedisListProxy) (l : List Bytes) (c : Hash Bytes) :
    (s.restored p l (c.erase isDirty)).snapshot p =
      (ListServer.serializedList l, serialized (c.erase isDirty)) := by
  have hlist : (s.restored p l (c.erase isDirty)).list p = l := Function.update_self _ _ _
  rw [ListServer.snapshot, hlist, restored_hash, erase_idem]

theorem restored_isFlagged (p : CRedisListProxy) (l : List Bytes) (c : Hash Bytes) :
    (s.restored p l (c.erase isDirty)).isFlagged lua p = false := by
  rw [ListServer.isFlagged, ListServer.mark, restored_hash, AList.lookup_erase]
  rfl

section Keys

variable {p : CRedisListProxy} (hlist : listDirtyEntry ≠ p.sIdList)
  (hhash : listDirtyEntry ≠ p.sIdHashOfCAS)
include hlist hhash

theorem restored_index (l : List Bytes) (c : Hash Bytes) :
    (s.restored p l c).hashes listDirtyEntry = s.hashes listDirtyEntry :=
  (Function.update_of_ne hhash _ _).trans (Function.update_of_ne hlist _ _)

theorem within_restored (l : List Bytes) (c : Hash Bytes) :
    Within listDirtyEntry p s (s.restored p l c) where
  lists _ hl hc := (Function.update_of_ne hl _ _).trans (Function.update_of_ne hc _ _)
  hashes _ hl hc _ := (Function.update_of_ne hc _ _).trans (Function.update_of_ne hl _ _)
  index _ _ := congrArg _ (restored_index hlist hhash l c)

theorem entered_restored (l : List Bytes) (c : Hash Bytes) :
    Entered lua listDirtyEntry p s (s.restored p l (c.erase isDirty)) := by
  refine .inr ⟨fun hflag => ?_, fun value hlookup => ?_⟩
  · rw [restored_isFlagged] at hflag
    cases hflag
  · rw [restored_index hlist hhash] at hlookup
    exact hlookup

end Keys

variable (hapart : ListsApart listDirtyEntry proxy) (i : ι)
include hapart

theorem ListsIndexed.within (h : ListsIndexed lua listDirtyEntry proxy s)
    (hwithin : Within listDirtyEntry (proxy i) s t) (hentered : Entered lua listDirtyEntry (proxy i) s t) :
    ListsIndexed lua listDirtyEntry proxy t where
  listed j hflag := by
    by_cases hname : (proxy j).name = (proxy i).name
    · rw [isFlagged_of_name hname] at hflag
      rw [CRedisListProxy.sIdList_inj.2 hname, CRedisListProxy.sIdHashOfCAS_inj.2 hname]
      rcases hentered with hin | ⟨hkept, -⟩
      · exact hin
      · obtain ⟨hbefore, hhashes⟩ := hkept hflag
        rw [hhashes]
        exact h.listed i hbefore
    · rw [hwithin.isFlagged_eq hname (hapart j).2] at hflag
      rw [hwithin.index _ (CRedisListProxy.sIdList_inj.not.2 hname)]
      exact h.listed j hflag
  only key value hlookup := by
    by_cases hkey : key = (proxy i).sIdList
    · subst hkey
      rcases hentered with hin | ⟨-, hbefore⟩
      · exact ⟨i, rfl, Option.some.inj (hlookup.symm.trans hin)⟩
      · exact h.only _ _ (hbefore value hlookup)
    · rw [hwithin.index key hkey] at hlookup
      exact h.only key value hlookup

variable {s : ListState ι}

theorem Filed.call (h : Filed lua listDirtyEntry proxy s) (hlua : lua.RoundTrips) (call : ListCall) :
    Filed lua listDirtyEntry proxy (s.perform lua listDirtyEntry proxy (.call i call)) := by
  have hperformed := @ListCall.performed lua listDirtyEntry (proxy i) s.server hlua call
  have hwithin := hperformed.within (hapart i).1 (hapart i).2
  have hentered := hperformed.entered (hapart i).1 (hapart i).2
  refine ⟨h.indexed.within hapart i hwithin hentered, fun j haside hflag => ?_, h.dumped⟩
  simp only [ListState.perform, ListState.answered] at haside hflag ⊢
  by_cases hname : (proxy j).name = (proxy i).name
  · rw [isFlagged_of_name hname] at hflag
    rw [CRedisListProxy.sIdList_inj.2 hname, Function.update_self, hflag] at haside
    simp only [Bool.not_false, Bool.true_and, Bool.or_eq_false_iff, bne_eq_false_iff_eq] at haside
    obtain ⟨hbefore, hflag, hsame⟩ := haside
    rw [CRedisListProxy.sIdList_inj.2 hname, snapshot_of_name hname, ← hsame]
    exact h.saved i hbefore hflag
  · rw [hwithin.isFlagged_eq hname (hapart j).2] at hflag
    rw [Function.update_of_ne (CRedisListProxy.sIdList_inj.not.2 hname)] at haside
    rw [hwithin.snapshot_eq hname (hapart j).2]
    exact h.saved j haside hflag

/-- A looting leaves the database with what it was to be. -/
theorem Filed.loot (h : Filed lua listDirtyEntry proxy s) :
    Filed lua listDirtyEntry proxy (s.perform lua listDirtyEntry proxy .loot) := by
  have hrun := h.indexed.run_loot hapart
  have hserver : (s.perform lua listDirtyEntry proxy .loot).server = s.server.looted listDirtyEntry :=
    congrArg Prod.snd hrun
  refine ⟨⟨fun j hflag => ?_, fun key value hlookup => ?_⟩, fun j haside _ => ?_, ?_⟩
  · rw [hserver, h.indexed.looted_flag hapart] at hflag
    cases hflag
  · rw [hserver, index_looted] at hlookup
    cases hlookup
  · rw [hserver, looted_snapshot hapart]
    exact h.settled_eq hapart haside
  · simp only [ListState.perform, hrun]
    exact isDump_foldl (fun t ht => by
      obtain ⟨e, -, hsome⟩ := List.mem_filterMap.1 ht
      exact lootedEntry_isDump hsome) h.dumped

omit hapart in
theorem Filed.perform_restore (h : Filed lua listDirtyEntry proxy s) : ∃ l c,
    s.db (proxy i).sIdList = (ListServer.serializedList l, serialized (AList.erase isDirty c)) ∧
      s.perform lua listDirtyEntry proxy (.restore i) =
        { s with
          server := s.server.restored (proxy i) l (c.erase isDirty)
          aside := Function.update s.aside (proxy i).sIdList false } := by
  obtain ⟨l, c, hdump⟩ := h.dumped (proxy i).sIdList
  refine ⟨l, c, hdump, ?_⟩
  simp only [ListState.perform, hdump, run_sRestore]

theorem Filed.restore (h : Filed lua listDirtyEntry proxy s) :
    Filed lua listDirtyEntry proxy (s.perform lua listDirtyEntry proxy (.restore i)) := by
  obtain ⟨l, c, hdump, hperform⟩ := h.perform_restore i
  have hwithin := @within_restored listDirtyEntry s.server _ (hapart i).1 (hapart i).2 l (c.erase isDirty)
  rw [hperform]
  refine ⟨h.indexed.within hapart i hwithin (entered_restored (hapart i).1 (hapart i).2 l c),
    fun j haside hflag => ?_, h.dumped⟩
  simp only at haside hflag ⊢
  by_cases hname : (proxy j).name = (proxy i).name
  · rw [snapshot_of_name hname, CRedisListProxy.sIdList_inj.2 hname, restored_snapshot]
    exact hdump
  · rw [hwithin.isFlagged_eq hname (hapart j).2] at hflag
    rw [Function.update_of_ne (CRedisListProxy.sIdList_inj.not.2 hname)] at haside
    rw [hwithin.snapshot_eq hname (hapart j).2]
    exact h.saved j haside hflag

omit hapart i in
theorem Filed.flush (h : Filed lua listDirtyEntry proxy s) :
    Filed lua listDirtyEntry proxy (s.perform lua listDirtyEntry proxy .flush) := by
  refine ⟨⟨fun j hflag => ?_, fun key value hlookup => ?_⟩, fun j haside => ?_, h.dumped⟩
  · cases hflag
  · cases hlookup
  · cases haside

omit i in
theorem Filed.perform (h : Filed lua listDirtyEntry proxy s) (hlua : lua.RoundTrips)
    (e : ListEvent ι) : Filed lua listDirtyEntry proxy (s.perform lua listDirtyEntry proxy e) := by
  cases e with
  | call i call => exact h.call hapart i hlua call
  | loot => exact h.loot hapart
  | restore i => exact h.restore hapart i
  | flush => exact h.flush

theorem Filed.noListLost (h : Filed lua listDirtyEntry proxy s) (hlua : lua.RoundTrips) :
    NoListLost lua listDirtyEntry proxy s where
  settled _ haside := h.settled_eq hapart haside
  cleared i haside hcleared := by
    refine h.saved i haside ?_
    have hperformed := @ListCall.performed lua listDirtyEntry (proxy i) s.server hlua .clear
    rw [hcleared] at hperformed
    generalize (StateT.run (ListCall.clear.perform lua listDirtyEntry (proxy i)) s.server).2 = t
      at hperformed
    cases hperformed with
    | looked _ hlooks => cases hlooks
    | cleared hclean => exact hclean
    | accepted _ hsets => cases hsets

omit hapart i in
theorem mark_withMark {p : CRedisListProxy} (sId value sId' : Bytes) :
    (t.withMark p sId value).mark p sId' = if sId' = sId then some value else t.mark p sId' := by
  simp only [ListServer.mark, ListServer.withMark, lookup_set, true_and]

omit hapart i in
theorem mark_told {p : CRedisListProxy} (msg sId : Bytes) :
    (t.told p msg).mark p sId = t.mark p sId := rfl

section Flag

variable {p : CRedisListProxy} (hlua : lua.RoundTrips) (hhash : listDirtyEntry ≠ p.sIdHashOfCAS)
omit hapart i
include hhash

theorem mark_flagged (sId : Bytes) : (t.flagged lua listDirtyEntry p).mark p sId =
    if sId = isDirty then some (lua.tostring 1) else t.mark p sId := by
  simp only [ListServer.mark, ListServer.flagged, ListServer.withMark, lookup_set, hhash.symm, false_and,
    if_false, true_and]

include hlua

theorem flagged_isFlagged : (t.flagged lua listDirtyEntry p).isFlagged lua p = true := by
  have hone : lua.tonumber (lua.tostring 1) = some 1 := hlua.stored 1
  rw [ListServer.isFlagged, mark_flagged hhash, if_pos rfl, Option.bind_some, hone]
  rfl

/-- A call that marks what it changes sets the flag, or it leaves the list as it was. -/
theorem Performed.of_marked {call : ListCall} {reply : ListReply}
    (h : Performed lua listDirtyEntry p s.server call reply t) (hmarked : call.isUnmarked lua = false) :
    t.isFlagged lua p = true ∨ t = s.server := by
  cases h with
  | lPushToList => cases hmarked
  | rPushToList => cases hmarked
  | lPop => cases hmarked
  | rPop => cases hmarked
  | looked => exact .inr rfl
  | kept => exact .inr rfl
  | cleared => cases hmarked
  | popAll => exact .inl (flagged_isFlagged hlua hhash)
  | popAllAndMark sId sExpect msg =>
    left
    have hflag := @flagged_isFlagged _ _ (s.server.emptied p) _ hlua hhash
    by_cases hid : isDirty = sId
    · have hone : lua.tonumber sExpect = some 1 := by
        simpa [ListCall.isUnmarked, hid] using hmarked
      rw [ListServer.isFlagged, mark_told, mark_withMark, if_pos hid, Option.bind_some, hone]
      rfl
    · rw [ListServer.isFlagged, mark_told, mark_withMark, if_neg hid]
      exact hflag
  | refused => exact .inr rfl
  | accepted => exact .inl (flagged_isFlagged hlua hhash)
  | uncounted => exact .inr rfl
  | counted => exact .inl (flagged_isFlagged hlua hhash)

end Flag

theorem aside_of_perform (hlua : lua.RoundTrips)
    {e : ListEvent ι} (hperform : (s.perform lua listDirtyEntry proxy e).aside (proxy i).sIdList = true) :
    s.aside (proxy i).sIdList = true ∨ e.Strays lua proxy i := by
  cases e with
  | call j call =>
    have hperformed := @ListCall.performed lua listDirtyEntry (proxy j) s.server hlua call
    simp only [ListState.perform, ListState.answered, Function.update_apply,
      CRedisListProxy.sIdList_inj] at hperform
    split at hperform
    · next hname =>
      by_cases hmarked : call.isUnmarked lua = true
      · exact .inr ⟨hname.symm, hmarked⟩
      · rcases hperformed.of_marked hlua (hapart j).2 (Bool.eq_false_iff.2 hmarked) with hflag | hsame
        · rw [hflag] at hperform
          cases hperform
        · rw [hsame] at hperform
          left
          rw [CRedisListProxy.sIdList_inj.2 hname]
          cases hflag : s.server.isFlagged lua (proxy j) with
          | true =>
            rw [hflag] at hperform
            cases hperform
          | false => simpa [hflag] using hperform
    · exact .inl hperform
  | loot => exact .inl hperform
  | restore j =>
    simp only [ListState.perform, Function.update_apply] at hperform
    split at hperform
    · cases hperform
    · exact .inl hperform
  | flush => exact .inr trivial

omit hapart i in
theorem ListStart.filed (h : ListStart s) : Filed lua listDirtyEntry proxy s := by
  refine ⟨⟨fun i hflag => ?_, fun key value hlookup => ?_⟩, fun i _ _ => ?_, fun key => ?_⟩
  · rw [ListServer.isFlagged, ListServer.mark, h.noHashes] at hflag
    cases hflag
  · rw [h.noHashes] at hlookup
    cases hlookup
  · rw [h.noDumps, ListServer.snapshot, ListServer.list, h.noLists, h.noHashes]
    rfl
  · rw [h.noDumps]
    exact ⟨[], ∅, rfl⟩

omit i in
/-- In every order of calls, lootings, restorings and losses of the server. -/
theorem noListLost_of_run (hlua : lua.RoundTrips) {start s : ListState ι} (hstart : ListStart start)
    {es : List (ListEvent ι)} (hrun : (listProxies lua listDirtyEntry proxy).run start es = some s) :
    NoListLost lua listDirtyEntry proxy s ∧ PutAside lua proxy start es s := by
  have hsteps : ∀ past s e s',
      Filed lua listDirtyEntry proxy s ∧ PutAside lua proxy start past s → True →
      (listProxies lua listDirtyEntry proxy).next s e = some s' →
      Filed lua listDirtyEntry proxy s' ∧ PutAside lua proxy start (past ++ [e]) s' := by
    rintro past s e s' ⟨hfiled, haside⟩ - hnext
    obtain rfl := Option.some.inj hnext
    refine ⟨hfiled.perform hapart hlua e, fun i hi => ?_⟩
    rcases aside_of_perform hapart i hlua hi with hbefore | hstrays
    · rcases haside i hbefore with hfirst | ⟨e', he', hstrays⟩
      · exact .inl hfirst
      · exact .inr ⟨e', List.mem_append_left _ he', hstrays⟩
    · exact .inr ⟨e, List.mem_append_right _ List.mem_cons_self, hstrays⟩
  have hinit : PutAside lua proxy start [] start := fun i hi => .inl hi
  obtain ⟨hfiled, haside⟩ := Transition.System.run_history hsteps ⟨hstart.filed, hinit⟩
    (Transition.System.meets_of_forall fun _ _ _ => trivial) hrun
  exact ⟨hfiled.noListLost hapart hlua, haside⟩

/-- A restoring of lists leaves the database, and no list with the flag. -/
theorem restore_run {js : List ι} {t : ListState ι} (hfiled : Filed lua listDirtyEntry proxy s)
    (hunflagged : ∀ j, s.server.isFlagged lua (proxy j) = false)
    (hrun : (listProxies lua listDirtyEntry proxy).run s (js.map .restore) = some t) :
    Filed lua listDirtyEntry proxy t ∧ t.db = s.db ∧
      (∀ j, t.server.isFlagged lua (proxy j) = false) ∧
        ∀ j, s.aside (proxy j).sIdList = false ∨ j ∈ js → t.aside (proxy j).sIdList = false := by
  induction js generalizing s with
  | nil =>
    obtain rfl := Option.some.inj hrun
    exact ⟨hfiled, rfl, hunflagged, fun j hj => hj.resolve_right List.not_mem_nil⟩
  | cons i js ih =>
    obtain ⟨u, hnext, hrest⟩ := Transition.System.run_cons_some.1 hrun
    obtain rfl := Option.some.inj hnext
    have hrestored := hfiled.restore hapart i
    obtain ⟨l, c, hdump, hperform⟩ := hfiled.perform_restore i
    rw [hperform] at hrestored hrest
    have hwithin := @within_restored listDirtyEntry s.server _ (hapart i).1 (hapart i).2 l (c.erase isDirty)
    have hstill : ∀ j, (s.server.restored (proxy i) l (c.erase isDirty)).isFlagged lua (proxy j) =
        false := by
      intro j
      by_cases hname : (proxy j).name = (proxy i).name
      · rw [isFlagged_of_name hname]
        exact restored_isFlagged (proxy i) l c
      · rw [hwithin.isFlagged_eq hname (hapart j).2]
        exact hunflagged j
    obtain ⟨ht, hdb, hflags, haside⟩ := ih hrestored hstill hrest
    refine ⟨ht, hdb, hflags, fun j hj => haside j ?_⟩
    simp only [Function.update_apply]
    rcases hj with hbefore | hmem
    · left
      split
      · rfl
      · exact hbefore
    · rcases List.mem_cons.1 hmem with rfl | hmem
      · exact .inl (if_pos rfl)
      · exact .inr hmem

/-- What has been looted comes back when the server is lost. -/
theorem restored_of_loot (hlua : lua.RoundTrips) {start s t : ListState ι} (hstart : ListStart start)
    {es : List (ListEvent ι)} (hrun : (listProxies lua listDirtyEntry proxy).run start es = some s)
    {js : List ι} (hrestore : (listProxies lua listDirtyEntry proxy).run s
      (.loot :: .flush :: js.map .restore) = some t) {i : ι} (hi : i ∈ js)
    (haside : s.aside (proxy i).sIdList = false) : t.server.list (proxy i) = s.server.list (proxy i) ∧
      ∀ sId, sId ≠ isDirty → t.server.mark (proxy i) sId = s.server.mark (proxy i) sId := by
  have hstep : ∀ s e s', Filed lua listDirtyEntry proxy s → True →
      (listProxies lua listDirtyEntry proxy).next s e = some s' → Filed lua listDirtyEntry proxy s' := by
    rintro s e s' hfiled - hnext
    obtain rfl := Option.some.inj hnext
    exact hfiled.perform hapart hlua e
  have hfiled := Transition.System.run_invariant hstep hstart.filed
    (Transition.System.meets_of_forall fun _ _ _ => trivial) hrun
  obtain ⟨u, hloot, hrest⟩ := Transition.System.run_cons_some.1 hrestore
  obtain ⟨v, hflush, hrest⟩ := Transition.System.run_cons_some.1 hrest
  obtain rfl := Option.some.inj hloot
  obtain rfl := Option.some.inj hflush
  have hlooted := hfiled.loot hapart
  obtain ⟨ht, hdb, hflags, hback⟩ := restore_run hapart hlooted.flush (fun _ => rfl) hrest
  have hsnapshot : t.server.snapshot (proxy i) = s.server.snapshot (proxy i) := by
    rw [← ht.saved i (hback i (.inr hi)) (hflags i), hdb]
    exact hfiled.settled_eq hapart haside
  obtain ⟨hlist, hmarks⟩ := Prod.mk.inj hsnapshot
  refine ⟨serializedList_inj hlist, fun sId hne => ?_⟩
  have herased : (t.server.hashes (proxy i).sIdHashOfCAS).erase isDirty =
      (s.server.hashes (proxy i).sIdHashOfCAS).erase isDirty := by
    rw [← serialized_getD (AList.erase _ _), hmarks, serialized_getD]
  rw [ListServer.mark, ← AList.lookup_erase_ne hne, herased, AList.lookup_erase_ne hne]
  rfl

end Proof

def mailboxes (b : Bool) : CRedisListProxy :=
  { sModuleName := ascii "mail", sMainId := if b then ascii "2" else ascii "1", sSubid := ascii "in" }

theorem mailboxes_apart : ListsApart (ascii "dirty") mailboxes := by
  intro i
  cases i with
  | false => decide
  | true => decide

def noMail : ListState Bool where
  server := { hashes := fun _ => ∅, lists := fun _ => [], published := [] }
  db := fun _ => (none, none)
  aside := fun _ => false
  log := []

theorem noMail_start : ListStart noMail := ⟨rfl, rfl, rfl, rfl⟩

def mailRun : List (ListEvent Bool) :=
  [.call false (.rPushCAS (ascii "v") (ascii "0") (ascii "1") (ascii "a")),
    .call true (.lPushToList (ascii "x")), .loot,
    .call false (.lPushCAS (ascii "v") (ascii "1") (ascii "2") (ascii "b")),
    .call false (.setCAS (ascii "v") (ascii "1") (ascii "3")), .call false .rPop, .call false .clear]

/-- The first list is flagged and the second one aside. -/
theorem noListLost_mailRun : ∃ s,
    (listProxies wholeNumbers (ascii "dirty") mailboxes).run noMail mailRun = some s ∧
      (NoListLost wholeNumbers (ascii "dirty") mailboxes s ∧
        PutAside wholeNumbers mailboxes noMail mailRun s) ∧
      s.aside (mailboxes false).sIdList = false ∧ s.aside (mailboxes true).sIdList = true ∧
      s.server.list (mailboxes false) = [ascii "b"] :=
  ⟨_, rfl, noListLost_of_run mailboxes_apart wholeNumbers_roundTrips noMail_start rfl,
    by decide +kernel, by decide +kernel, by decide +kernel⟩

theorem restored_mailRun : ∃ s t,
    (listProxies wholeNumbers (ascii "dirty") mailboxes).run noMail mailRun = some s ∧
    (listProxies wholeNumbers (ascii "dirty") mailboxes).run s [.loot, .flush, .restore true, .restore false] =
      some t ∧
    t.server.list (mailboxes false) = s.server.list (mailboxes false) ∧
      ∀ sId, sId ≠ isDirty → t.server.mark (mailboxes false) sId = s.server.mark (mailboxes false) sId :=
  ⟨_, _, rfl, rfl, @restored_of_loot _ _ _ _ mailboxes_apart wholeNumbers_roundTrips noMail _ _
    noMail_start mailRun rfl [true, false] rfl false (by decide) (by decide +kernel)⟩

end KjRedis.Cache
