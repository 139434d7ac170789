import KjRedis.Cache.DirtyEntries

/-! Looting takes what is pending of every proxy, and no change is lost. -/
namespace KjRedis.Cache

open HashStore WriteBehind KjRedis.Conn

variable {ι : Type*} {cacheDirtyEntry : Bytes} {proxy : ι → CRedisCacheProxy}
  {s : CacheState} {b : Backed Cell Bytes} {store : Store Bytes}

/-- What the script makes of the entries of the index. -/
def entriesOf (cacheDirtyEntry : Bytes) (store : Store Bytes) : List DirtyEntry :=
  (store cacheDirtyEntry).entries.map fun e => (e.2, serialized (store e.1), serialized (store e.2))

def lootedKeys (cacheDirtyEntry : Bytes) (store : Store Bytes) : List Bytes :=
  (store cacheDirtyEntry).entries.flatMap fun e => [e.1, e.2]

theorem Indexed.entry (h : Indexed cacheDirtyEntry proxy store)
    {e : Sigma fun _ : Bytes => Bytes} (he : e ∈ (store cacheDirtyEntry).entries) :
    ∃ i, e.1 = (proxy i).sIdHashOfDirty ∧ e.2 = (proxy i).sIdHashOfDirtyState :=
  h.only e.1 e.2 (AList.mem_lookup_iff.2 he)

/-- The keys in the index are all different, dirty values and dirty states alike. -/
theorem Indexed.pairwise (h : Indexed cacheDirtyEntry proxy store) :
    (store cacheDirtyEntry).entries.Pairwise fun e e' => e.1 ≠ e'.1 ∧ e.2 ≠ e'.2 := by
  apply (List.nodupKeys_iff_pairwise.1 (store cacheDirtyEntry).nodupKeys).imp_of_mem
  intro e e' he he' hne
  obtain ⟨i, hkey, hvalue⟩ := h.entry he
  obtain ⟨j, hkey', hvalue'⟩ := h.entry he'
  refine ⟨hne, fun heq => hne ?_⟩
  rw [hvalue, hvalue', CRedisCacheProxy.sIdHashOfDirtyState_inj] at heq
  rw [hkey, hkey', CRedisCacheProxy.sIdHashOfDirty_inj]
  exact heq

theorem Indexed.lootedKeys_nodup (h : Indexed cacheDirtyEntry proxy store) :
    (lootedKeys cacheDirtyEntry store).Nodup := by
  refine List.nodup_flatMap.2 ⟨?_, ?_⟩
  · intro e he
    obtain ⟨i, hkey, hvalue⟩ := h.entry he
    simp [hkey, hvalue]
  · apply h.pairwise.imp_of_mem
    intro e e' he he' hne
    obtain ⟨i, hkey, hvalue⟩ := h.entry he
    obtain ⟨j, hkey', hvalue'⟩ := h.entry he'
    have hcross : e.1 ≠ e'.2 := hkey ▸ hvalue' ▸ CRedisCacheProxy.dirty_ne_state
    have hcross' : e.2 ≠ e'.1 := hvalue ▸ hkey' ▸ CRedisCacheProxy.dirty_ne_state.symm
    simp [hne.1.symm, hne.2.symm, hcross.symm, hcross'.symm, Function.onFun]

theorem Indexed.exec_sLootDirtyEntry (h : Indexed cacheDirtyEntry proxy store)
    (hapart : Apart cacheDirtyEntry proxy) : exec (sLootDirtyEntry cacheDirtyEntry) store =
      (some (entriesOf cacheDirtyEntry store),
        (store.drop cacheDirtyEntry).dropAll (lootedKeys cacheDirtyEntry store)) := by
  unfold sLootDirtyEntry
  rw [exec_bind_some (exec_hgetall cacheDirtyEntry store),
    exec_bind_some (exec_del cacheDirtyEntry store), exec_lootLoop h.lootedKeys_nodup]
  refine congrArg₂ Prod.mk (congrArg some ?_) rfl
  refine List.map_congr_left fun e he => ?_
  obtain ⟨i, hkey, hvalue⟩ := h.entry he
  rw [drop_apply, if_neg (hkey ▸ (hapart i).2.1.symm), drop_apply,
    if_neg (hvalue ▸ (hapart i).2.2.symm)]

/-- The entry of a proxy. -/
def entryOf (store : Store Bytes) (p : CRedisCacheProxy) : DirtyEntry :=
  (p.sIdHashOfDirtyState, serialized (store p.sIdHashOfDirty), serialized (store p.sIdHashOfDirtyState))

theorem Indexed.eq_entryOf (h : Indexed cacheDirtyEntry proxy store) {t : DirtyEntry}
    (ht : t ∈ entriesOf cacheDirtyEntry store) : ∃ i, t = entryOf store (proxy i) := by
  obtain ⟨e, he, rfl⟩ := List.mem_map.1 ht
  obtain ⟨i, hkey, hvalue⟩ := h.entry he
  exact ⟨i, by rw [hkey, hvalue, entryOf]⟩

theorem Indexed.entryOf_mem (h : Indexed cacheDirtyEntry proxy store) {i : ι} {sId state : Bytes}
    (hlookup : (store (proxy i).sIdHashOfDirtyState).lookup sId = some state) :
    entryOf store (proxy i) ∈ entriesOf cacheDirtyEntry store :=
  List.mem_map.2 ⟨⟨_, _⟩, AList.mem_lookup_iff.1 (h.listed i sId state hlookup), rfl⟩

theorem Indexed.nodup_fst (h : Indexed cacheDirtyEntry proxy store) :
    ((entriesOf cacheDirtyEntry store).map Prod.fst).Nodup := by
  rw [entriesOf, List.map_map]
  exact List.pairwise_map.2 (h.pairwise.imp fun hne => hne.2)

theorem change_entryOf (p : CRedisCacheProxy) (sId : Bytes) : (entryOf store p).change sId =
    dirtyChange (store p.sIdHashOfDirty) (store p.sIdHashOfDirtyState) sId := by
  simp only [entryOf, DirtyEntry.change, serialized_getD]

theorem mem_cells_entryOf {p : CRedisCacheProxy} {k : Cell} : k ∈ (entryOf store p).cells ↔
    k.1 = p.sIdHashOfDirtyState ∧ k.2 ∈ store p.sIdHashOfDirtyState := by
  simp only [entryOf, DirtyEntry.cells, serialized_getD, List.mem_map]
  constructor
  · rintro ⟨sId, hmem, rfl⟩
    exact ⟨rfl, hmem⟩
  · rintro ⟨hkey, hmem⟩
    exact ⟨k.2, hmem, Prod.ext hkey.symm rfl⟩

theorem Indexed.cells_nodup (h : Indexed cacheDirtyEntry proxy store) :
    ((entriesOf cacheDirtyEntry store).flatMap DirtyEntry.cells).Nodup := by
  refine List.nodup_flatMap.2 ⟨?_, ?_⟩
  · intro t _
    exact (AList.keys_nodup _).map fun _ _ heq => (Prod.mk.inj heq).2
  · apply (List.pairwise_map.1 h.nodup_fst).imp
    intro t t' hne k hk hk'
    obtain ⟨sId, -, rfl⟩ := List.mem_map.1 hk
    obtain ⟨sId', -, heq⟩ := List.mem_map.1 hk'
    exact hne (Prod.mk.inj heq).1.symm

/-- The fields of a proxy that are looted are those with a state. -/
theorem Indexed.mem_cells (h : Indexed cacheDirtyEntry proxy store) {i : ι} {sId : Bytes} :
    ((proxy i).sIdHashOfDirtyState, sId) ∈
      (entriesOf cacheDirtyEntry store).flatMap DirtyEntry.cells ↔
        sId ∈ store (proxy i).sIdHashOfDirtyState := by
  rw [List.mem_flatMap]
  constructor
  · rintro ⟨t, ht, hmem⟩
    obtain ⟨j, rfl⟩ := h.eq_entryOf ht
    obtain ⟨hkey, hmem⟩ := mem_cells_entryOf.1 hmem
    have hkey : (proxy i).sIdHashOfDirtyState = (proxy j).sIdHashOfDirtyState := hkey
    rw [hkey]
    exact hmem
  · intro hmem
    obtain ⟨state, hlookup⟩ := Option.isSome_iff_exists.1 (AList.lookup_isSome.2 hmem)
    exact ⟨_, h.entryOf_mem hlookup, mem_cells_entryOf.2 ⟨rfl, hmem⟩⟩

/-- Applying what has been looted is taking it. -/
theorem Indexed.apply_entriesOf (h : Indexed cacheDirtyEntry proxy s.store)
    (hb : Represents proxy s b) : (entriesOf cacheDirtyEntry s.store).foldl DirtyEntry.apply s.db =
      (b.take ((entriesOf cacheDirtyEntry s.store).flatMap DirtyEntry.cells)).db := by
  funext k
  by_cases hlisted : ∃ i, k.1 = (proxy i).sIdHashOfDirtyState ∧
      entryOf s.store (proxy i) ∈ entriesOf cacheDirtyEntry s.store
  · obtain ⟨i, hkey, hmem⟩ := hlisted
    obtain ⟨table, sId⟩ := k
    obtain rfl : table = (proxy i).sIdHashOfDirtyState := hkey
    refine (apply_foldl_of_mem h.nodup_fst hmem sId s.db).trans ?_
    simp only [Backed.take, Backed.settled, hb.pending, hb.db, change_entryOf]
    split
    · rfl
    · next hnot =>
      rw [h.mem_cells, ← AList.lookup_eq_none] at hnot
      rw [dirtyChange_eq_none hnot]
      rfl
  · have hne : ∀ t ∈ entriesOf cacheDirtyEntry s.store, k.1 ≠ t.1 := by
      intro t ht heq
      obtain ⟨i, rfl⟩ := h.eq_entryOf ht
      exact hlisted ⟨i, heq, ht⟩
    rw [apply_foldl_of_ne hne]
    simp only [Backed.take, hb.db]
    refine (if_neg fun hmem => ?_).symm
    obtain ⟨t, ht, hcell⟩ := List.mem_flatMap.1 hmem
    obtain ⟨i, rfl⟩ := h.eq_entryOf ht
    exact hne _ ht (mem_cells_entryOf.1 hcell).1

/-- The cells that some proxy has. -/
def Live (proxy : ι → CRedisCacheProxy) (k : Cell) : Prop :=
  ∃ i, k.1 = (proxy i).sIdHashOfDirtyState

/-- The invariant. -/
structure Coherent (cacheDirtyEntry : Bytes) (proxy : ι → CRedisCacheProxy) (s : CacheState) :
    Prop where
  indexed : Indexed cacheDirtyEntry proxy s.store
  backed : ∃ b, Represents proxy s b ∧ b.Sound (Live proxy)

section Steps

variable (hapart : Apart cacheDirtyEntry proxy) (i : ι)
include hapart

theorem Coherent.setToHashTable (h : Coherent cacheDirtyEntry proxy s) (sId sValue : Bytes)
    {state : Bytes} (hstate : state = modified ∨ state = added) :
    Coherent cacheDirtyEntry proxy (s.changed ((proxy i).sIdHashOfDirtyState, sId) false
      (exec (setToHashTable (proxy i).sIdHash (proxy i).sIdHashOfDirty (proxy i).sIdHashOfDirtyState
        cacheDirtyEntry state sId sValue) s.store)) := by
  obtain ⟨b, hb, hsound⟩ := h.backed
  have hsame : ∀ key, (∀ j, key ≠ (proxy j).sIdHash) →
      s.store.set (proxy i).sIdHash sId sValue key = s.store key :=
    fun key hne => Function.update_of_ne (hne i) _ _
  rw [exec_setToHashTable]
  constructor
  · exact (h.indexed.of_cache hapart hsame).marked hapart i sId sValue (.inr hstate)
  · refine ⟨_, hb.marked hapart i sId sValue (some sValue) hsame ?_ (.inr ⟨hstate, rfl⟩),
      hsound.change _ _⟩
    intro j sId'
    simp only [lookup_set, CRedisCacheProxy.sIdHash_inj]

theorem Coherent.removeFromHashTable (h : Coherent cacheDirtyEntry proxy s) (sId : Bytes) :
    Coherent cacheDirtyEntry proxy (perform cacheDirtyEntry proxy s (.remove i sId)) := by
  obtain ⟨b, hb, hsound⟩ := h.backed
  have hsame : ∀ key, (∀ j, key ≠ (proxy j).sIdHash) →
      s.store.unset (proxy i).sIdHash sId key = s.store key :=
    fun key hne => Function.update_of_ne (hne i) _ _
  have hindexed := h.indexed.of_cache hapart hsame
  simp only [perform, CRedisCacheProxy.removeFromHashTable]
  cases hlookup : (s.store (proxy i).sIdHash).lookup sId with
  | none =>
    rw [exec_sRemoveFromHashTable_none hlookup]
    refine ⟨hindexed, b, { hb with cache := ?_, pending := ?_ }, hsound⟩
    · intro j sId'
      simp only [CacheState.changed, lookup_unset]
      split
      · next hcell =>
        obtain ⟨hkey, rfl⟩ := hcell
        rw [hb.cache, hkey, hlookup]
      · exact hb.cache j sId'
    · intro j sId'
      simp only [CacheState.changed]
      rw [hsame _ fun _ => CRedisCacheProxy.sIdHash_ne_dirty.symm,
        hsame _ fun _ => CRedisCacheProxy.sIdHash_ne_state.symm]
      exact hb.pending j sId'
  | some sValue =>
    rw [exec_sRemoveFromHashTable hlookup]
    refine ⟨hindexed.marked hapart i sId sValue (.inl rfl), _,
      hb.marked hapart i sId sValue none hsame ?_ (.inl ⟨rfl, rfl⟩), hsound.change _ _⟩
    intro j sId'
    simp only [lookup_unset, CRedisCacheProxy.sIdHash_inj]

theorem Coherent.clear (h : Coherent cacheDirtyEntry proxy s) :
    Coherent cacheDirtyEntry proxy (perform cacheDirtyEntry proxy s (.clear i)) := by
  obtain ⟨b, hb, hsound⟩ := h.backed
  simp only [perform, CRedisCacheProxy.clear]
  by_cases hclean : s.store (proxy i).sIdHashOfDirtyState = ∅
  · rw [exec_sClear hclean]
    exact ⟨h.indexed.cleared hapart i, _, hb.cleared hapart i hclean, hsound.evict _⟩
  · rw [exec_sClear_dirty hclean]
    exact h

end Steps

/-- After the script there is no state, no value and no index. -/
theorem Indexed.looted_state (h : Indexed cacheDirtyEntry proxy store) (i : ι) (sId : Bytes) :
    ((store.drop cacheDirtyEntry).dropAll (lootedKeys cacheDirtyEntry store)
      (proxy i).sIdHashOfDirtyState).lookup sId = none := by
  rw [dropAll_apply]
  split
  · exact AList.lookup_empty sId
  · next hnot =>
    rw [lookup_drop]
    split
    · rfl
    · rw [AList.lookup_eq_none]
      intro hmem
      obtain ⟨state, hlookup⟩ := Option.isSome_iff_exists.1 (AList.lookup_isSome.2 hmem)
      have hentry := AList.mem_lookup_iff.1 (h.listed i sId state hlookup)
      exact hnot (List.mem_flatMap.2 ⟨_, hentry, List.mem_cons_of_mem _ List.mem_cons_self⟩)

theorem looted_index (key : Bytes) : ((store.drop cacheDirtyEntry).dropAll
    (lootedKeys cacheDirtyEntry store) cacheDirtyEntry).lookup key = none := by
  rw [dropAll_apply, drop_apply, if_pos rfl, ite_self]
  exact AList.lookup_empty key

theorem Indexed.looted_cache (h : Indexed cacheDirtyEntry proxy store)
    (hapart : Apart cacheDirtyEntry proxy) (i : ι) : (store.drop cacheDirtyEntry).dropAll
      (lootedKeys cacheDirtyEntry store) (proxy i).sIdHash = store (proxy i).sIdHash := by
  rw [dropAll_apply, if_neg, drop_apply, if_neg (hapart i).1.symm]
  intro hmem
  obtain ⟨e, he, hmem⟩ := List.mem_flatMap.1 hmem
  obtain ⟨j, hkey, hvalue⟩ := h.entry he
  simp [hkey, hvalue] at hmem

theorem Coherent.loot (h : Coherent cacheDirtyEntry proxy s)
    (hapart : Apart cacheDirtyEntry proxy) :
    Coherent cacheDirtyEntry proxy (perform cacheDirtyEntry proxy s .loot) := by
  obtain ⟨b, hb, hsound⟩ := h.backed
  have hstate := h.indexed.looted_state
  simp only [perform, h.indexed.exec_sLootDirtyEntry hapart]
  constructor
  · constructor
    · intro i sId state hlookup
      exact absurd (hlookup.symm.trans (hstate i sId)) (Option.some_ne_none state)
    · intro i sId state hlookup
      exact absurd (hlookup.symm.trans (hstate i sId)) (Option.some_ne_none state)
    · intro key value hlookup
      exact absurd (hlookup.symm.trans (looted_index key)) (Option.some_ne_none value)
  · refine ⟨b.take ((entriesOf cacheDirtyEntry s.store).flatMap DirtyEntry.cells), ?_,
      hsound.take h.indexed.cells_nodup ?_⟩
    · constructor
      · intro i sId
        exact (hb.cache i sId).trans (congrArg _ (h.indexed.looted_cache hapart i).symm)
      · intro i sId
        refine Eq.trans ?_ (dirtyChange_eq_none (hstate i sId)).symm
        simp only [Backed.take]
        split
        · rfl
        · next hnot =>
          rw [h.indexed.mem_cells, ← AList.lookup_eq_none] at hnot
          exact (hb.pending i sId).trans (dirtyChange_eq_none hnot)
      · exact (h.indexed.apply_entriesOf hb).symm
      · exact hb.removed
      · exact hb.version
      · simp only [Backed.take, CacheState.looting, hb.taken, hb.version]
    · intro k hmem
      obtain ⟨t, ht, hcell⟩ := List.mem_flatMap.1 hmem
      obtain ⟨i, rfl⟩ := h.indexed.eq_entryOf ht
      obtain ⟨table, sId⟩ := k
      obtain ⟨hkey, hmem⟩ := mem_cells_entryOf.1 hcell
      obtain rfl : table = (proxy i).sIdHashOfDirtyState := hkey
      rw [hb.pending]
      exact (dirtyChange_ne_none (h.indexed.known i sId)).2 hmem

theorem Coherent.perform (h : Coherent cacheDirtyEntry proxy s)
    (hapart : Apart cacheDirtyEntry proxy) (e : Event ι) :
    Coherent cacheDirtyEntry proxy (perform cacheDirtyEntry proxy s e) := by
  cases e with
  | add i sId sValue => exact h.setToHashTable hapart i sId sValue (.inr rfl)
  | update i sId sValue => exact h.setToHashTable hapart i sId sValue (.inl rfl)
  | remove i sId => exact h.removeFromHashTable hapart i sId
  | clear i => exact h.clear hapart i
  | loot => exact h.loot hapart

theorem Start.coherent (h : Start cacheDirtyEntry proxy s) : Coherent cacheDirtyEntry proxy s := by
  constructor
  · constructor
    · intro i sId state hlookup
      rw [h.noStates, AList.lookup_empty] at hlookup
      cases hlookup
    · intro i sId state hlookup
      rw [h.noStates, AList.lookup_empty] at hlookup
      cases hlookup
    · intro key value hlookup
      rw [h.noIndex, AList.lookup_empty] at hlookup
      cases hlookup
  · refine ⟨⟨s.db, fun _ => none, s.db, s.removed, s.version, s.looted⟩, ?_, ?_⟩
    · refine ⟨fun i sId => (h.equal i sId).symm, fun i sId => ?_, rfl, rfl, rfl, rfl⟩
      refine (dirtyChange_eq_none ?_).symm
      rw [h.noStates]
      exact AList.lookup_empty sId
    · constructor
      · exact fun k v _ hcache => hcache
      · exact fun k hremoved => absurd ((h.noneRemoved k).symm.trans hremoved) Bool.false_ne_true
      · intro k n hmem
        rw [h.noneLooted] at hmem
        cases hmem
      · exact fun k n hpending => absurd rfl hpending
      · exact h.noneLooted ▸ List.nodup_nil

theorem Coherent.settled (h : Coherent cacheDirtyEntry proxy s)
    (hapart : Apart cacheDirtyEntry proxy) (hb : Represents proxy s b) (i : ι) (sId : Bytes) :
    s.settled cacheDirtyEntry ((proxy i).sIdHashOfDirtyState, sId) =
      b.settled ((proxy i).sIdHashOfDirtyState, sId) := by
  unfold CacheState.settled CacheState.pending
  rw [h.indexed.exec_sLootDirtyEntry hapart]
  refine (congrFun (h.indexed.apply_entriesOf hb) _).trans ?_
  simp only [Backed.take]
  split
  · rfl
  · next hnot =>
    rw [h.indexed.mem_cells, ← AList.lookup_eq_none] at hnot
    rw [Backed.settled, hb.pending, dirtyChange_eq_none hnot]
    rfl

/-- A hash that a clearing has changed had no state left. -/
theorem Coherent.cleared (h : Coherent cacheDirtyEntry proxy s)
    (hapart : Apart cacheDirtyEntry proxy) (i : ι)
    (hchanged : (Cache.perform cacheDirtyEntry proxy s (.clear i)).store (proxy i).sIdHash ≠
      s.store (proxy i).sIdHash) (sId : Bytes) : ((proxy i).sIdHashOfDirtyState, sId) ∉
        (s.pending cacheDirtyEntry).flatMap DirtyEntry.cells := by
  intro hmem
  rw [CacheState.pending, h.indexed.exec_sLootDirtyEntry hapart] at hmem
  apply hchanged
  have hdirty : s.store (proxy i).sIdHashOfDirtyState ≠ ∅ := by
    intro hclean
    exact AList.notMem_empty sId (hclean ▸ h.indexed.mem_cells.1 hmem)
  simp only [Cache.perform, CRedisCacheProxy.clear]
  rw [exec_sClear_dirty hdirty]

theorem Coherent.noChangeLost (h : Coherent cacheDirtyEntry proxy s)
    (hapart : Apart cacheDirtyEntry proxy) : NoChangeLost cacheDirtyEntry proxy s := by
  obtain ⟨b, hb, hsound⟩ := h.backed
  constructor
  · intro i sId sValue hlookup
    rw [h.settled hapart hb]
    exact hsound.coherent _ _ ⟨i, rfl⟩ ((hb.cache i sId).trans hlookup)
  · intro i sId hremoved
    rw [h.settled hapart hb]
    exact hsound.gone _ (hb.removed ▸ hremoved)
  · exact fun i hchanged sId => h.cleared hapart i hchanged sId
  · exact hb.taken ▸ hsound.once

theorem run_noChangeLost (es : List (Event ι)) {s' : CacheState}
    (hapart : Apart cacheDirtyEntry proxy) (hstart : Start cacheDirtyEntry proxy s)
    (hrun : (writeBehind cacheDirtyEntry proxy).run s es = some s') :
    NoChangeLost cacheDirtyEntry proxy s' := by
  have hcoherent : Coherent cacheDirtyEntry proxy s' := by
    refine Transition.System.run_invariant (P := fun _ _ => True) ?_ hstart.coherent
      (Transition.System.meets_of_forall fun _ _ _ => trivial) hrun
    rintro s e s' h - hnext
    obtain rfl := Option.some.inj hnext
    exact h.perform hapart e
  exact hcoherent.noChangeLost hapart

/-- Two proxies of one module. -/
def players : Bool → CRedisCacheProxy
  | false => ⟨ascii "game", ascii "7", ascii "1"⟩
  | true => ⟨ascii "game", ascii "8", ascii "1"⟩

/-- The first one has a field `hp`. -/
def playersCached : CacheState where
  store := Store.set (fun _ => ∅) (players false).sIdHash (ascii "hp") (ascii "10")
  db := Function.update (fun _ => none) ((players false).sIdHashOfDirtyState, ascii "hp")
    (some (ascii "10"))
  removed := fun _ => false
  version := fun _ => 0
  looted := []

def nothingCached : CacheState where
  store := fun _ => ∅
  db := fun _ => none
  removed := fun _ => false
  version := fun _ => 0
  looted := []

/-- `mp` is missing, so that its removal has no effect; that of `hp` is still pending when
its hash is to be cleared. -/
def playersRun : List (Event Bool) :=
  [.add true (ascii "xp") (ascii "3"), .update false (ascii "hp") (ascii "9"), .loot,
    .remove false (ascii "mp"), .remove false (ascii "hp"), .update true (ascii "xp") (ascii "4"),
    .clear false]

theorem players_apart : Apart (ascii "dirty") players := by
  rintro (_ | _)
  · decide
  · decide

theorem playersCached_start : Start (ascii "dirty") players playersCached where
  equal := by
    intro i sId
    simp only [playersCached, lookup_set, Function.update_apply, Prod.mk.injEq,
      CRedisCacheProxy.sIdHash_inj, CRedisCacheProxy.sIdHashOfDirtyState_inj]
    rfl
  noValues := by simp [playersCached, Store.set, CRedisCacheProxy.sIdHash_ne_dirty.symm]
  noStates := by simp [playersCached, Store.set, CRedisCacheProxy.sIdHash_ne_state.symm]
  noIndex := by simp [playersCached, Store.set, (players_apart false).1]
  noneRemoved := fun _ => rfl
  noneLooted := rfl

theorem run_noChangeLost_players : ∃ s,
    (writeBehind (ascii "dirty") players).run playersCached playersRun = some s ∧
      NoChangeLost (ascii "dirty") players s ∧
      s.looted.length = 2 ∧
      s.settled (ascii "dirty") ((players false).sIdHashOfDirtyState, ascii "hp") = none ∧
      s.settled (ascii "dirty") ((players true).sIdHashOfDirtyState, ascii "xp") = some (ascii "4") ∧
      s.db ((players true).sIdHashOfDirtyState, ascii "xp") = some (ascii "3") :=
  ⟨_, rfl, run_noChangeLost playersRun players_apart playersCached_start rfl, by decide +kernel,
    by decide +kernel, by decide +kernel, by decide +kernel⟩

/-- Where the index is the cache hash of a proxy, an addition leaves an entry of the index
as a field of that hash. -/
theorem index_is_cache_hash : ∃ s,
    Start (players false).sIdHash players nothingCached ∧
      (writeBehind (players false).sIdHash players).run nothingCached
        [.add false (ascii "hp") (ascii "10")] = some s ∧
      ¬ NoChangeLost (players false).sIdHash players s := by
  refine ⟨_, ⟨fun _ _ => rfl, fun _ => rfl, fun _ => rfl, rfl, fun _ => rfl, rfl⟩, rfl, ?_⟩
  intro h
  have hcached := h.cached false (players false).sIdHashOfDirty (players false).sIdHashOfDirtyState
    (by decide +kernel)
  revert hcached
  decide +kernel

end KjRedis.Cache
