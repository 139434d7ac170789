import KjRedis.Cache.CacheProxy
import KjRedis.Lib.Transition
import KjRedis.Lib.WriteBehind

/-! Any number of proxies that share one index of dirty entries, and a database that the
looted entries are applied to. -/
namespace KjRedis.Cache

open HashStore WriteBehind KjRedis.Conn

/-- A field of a table; the table is named by the key of its dirty states. -/
abbrev Cell := Bytes × Bytes

/-- What the value and the state of a dirty field tell the database to do. -/
def dirtyChange (d s : Hash Bytes) (sId : Bytes) : Option (Option Bytes) :=
  match s.lookup sId with
  | none => none
  | some state =>
    if state = deleted then some none
    else if state = modified ∨ state = added then some (d.lookup sId)
    else none

namespace DirtyEntry

def change (t : DirtyEntry) (sId : Bytes) : Option (Option Bytes) :=
  dirtyChange (t.2.1.getD ∅) (t.2.2.getD ∅) sId

def cells (t : DirtyEntry) : List Cell := (t.2.2.getD ∅).keys.map fun sId => (t.1, sId)

def apply (db : Cell → Option Bytes) (t : DirtyEntry) : Cell → Option Bytes := fun k =>
  if k.1 = t.1 then (t.change k.2).getD (db k) else db k

end DirtyEntry

/-- The store of Redis and the database. `removed` tells of each cell if its last change
was a removal, `version` counts its changes, and `looted` has the dirty entries looted so
far, each with the version it was looted at. -/
structure CacheState where
  store : Store Bytes
  db : Cell → Option Bytes
  removed : Cell → Bool
  version : Cell → Nat
  looted : List (Cell × Nat)

inductive Event (ι : Type*) where
  | add (i : ι) (sId sValue : Bytes)
  | update (i : ι) (sId sValue : Bytes)
  | remove (i : ι) (sId : Bytes)
  | clear (i : ι)
  | loot

namespace CacheState

/-- Only a change that no error has stopped counts. -/
def changed (s : CacheState) (k : Cell) (removed : Bool) : Option Unit × Store Bytes → CacheState
  | (none, store) => { s with store }
  | (some (), store) =>
    { s with
      store
      removed := Function.update s.removed k removed
      version := Function.update s.version k (s.version k + 1) }

/-- The looted entries are applied to the database at once. -/
def looting (s : CacheState) : Option (List DirtyEntry) × Store Bytes → CacheState
  | (none, store) => { s with store }
  | (some vOut, store) =>
    { s with
      store
      db := vOut.foldl DirtyEntry.apply s.db
      looted := s.looted ++ (vOut.flatMap DirtyEntry.cells).map fun k => (k, s.version k) }

/-- What `LootDirtyEntry` would return now. -/
def pending (cacheDirtyEntry : Bytes) (s : CacheState) : List DirtyEntry :=
  (exec (sLootDirtyEntry cacheDirtyEntry) s.store).1.getD []

/-- The database with all that is pending applied to it. -/
def settled (cacheDirtyEntry : Bytes) (s : CacheState) : Cell → Option Bytes :=
  (s.pending cacheDirtyEntry).foldl DirtyEntry.apply s.db

end CacheState

section System

variable {ι : Type*} (cacheDirtyEntry : Bytes) (proxy : ι → CRedisCacheProxy)

def perform (s : CacheState) : Event ι → CacheState
  | .add i sId sValue => s.changed ((proxy i).sIdHashOfDirtyState, sId) false
      (exec ((proxy i).addToHashTable cacheDirtyEntry sId sValue) s.store)
  | .update i sId sValue => s.changed ((proxy i).sIdHashOfDirtyState, sId) false
      (exec ((proxy i).updateToHashTable cacheDirtyEntry sId sValue) s.store)
  | .remove i sId => s.changed ((proxy i).sIdHashOfDirtyState, sId) true
      (exec ((proxy i).removeFromHashTable cacheDirtyEntry sId) s.store)
  | .clear i => { s with store := (exec ((proxy i).clear cacheDirtyEntry) s.store).2 }
  | .loot => s.looting (exec (sLootDirtyEntry cacheDirtyEntry) s.store)

def writeBehind : Transition.System CacheState (Event ι) where
  next s e := some (perform cacheDirtyEntry proxy s e)

/-- Every cache hash equals its table, and nothing is dirty. -/
structure Start (s : CacheState) : Prop where
  equal : ∀ i sId, (s.store (proxy i).sIdHash).lookup sId =
    s.db ((proxy i).sIdHashOfDirtyState, sId)
  noValues : ∀ i, s.store (proxy i).sIdHashOfDirty = ∅
  noStates : ∀ i, s.store (proxy i).sIdHashOfDirtyState = ∅
  noIndex : s.store cacheDirtyEntry = ∅
  noneRemoved : ∀ k, s.removed k = false
  noneLooted : s.looted = []

/-- The index is not one of the hashes of a proxy. -/
def Apart : Prop := ∀ i, cacheDirtyEntry ≠ (proxy i).sIdHash ∧
  cacheDirtyEntry ≠ (proxy i).sIdHashOfDirty ∧ cacheDirtyEntry ≠ (proxy i).sIdHashOfDirtyState

structure NoChangeLost (s : CacheState) : Prop where
  cached : ∀ i sId sValue, (s.store (proxy i).sIdHash).lookup sId = some sValue →
    s.settled cacheDirtyEntry ((proxy i).sIdHashOfDirtyState, sId) = some sValue
  removed : ∀ i sId, s.removed ((proxy i).sIdHashOfDirtyState, sId) = true →
    s.settled cacheDirtyEntry ((proxy i).sIdHashOfDirtyState, sId) = none
  cleared : ∀ i, (perform cacheDirtyEntry proxy s (.clear i)).store (proxy i).sIdHash ≠
      s.store (proxy i).sIdHash →
    ∀ sId, ((proxy i).sIdHashOfDirtyState, sId) ∉
      (s.pending cacheDirtyEntry).flatMap DirtyEntry.cells
  once : s.looted.Nodup

/-- The invariant of the store: the index has the keys of every proxy with a state. -/
structure Indexed (store : Store Bytes) : Prop where
  known : ∀ i sId state, (store (proxy i).sIdHashOfDirtyState).lookup sId = some state →
    state = deleted ∨ state = modified ∨ state = added
  listed : ∀ i sId state, (store (proxy i).sIdHashOfDirtyState).lookup sId = some state →
    (store cacheDirtyEntry).lookup (proxy i).sIdHashOfDirty = some (proxy i).sIdHashOfDirtyState
  only : ∀ key value, (store cacheDirtyEntry).lookup key = some value →
    ∃ i, key = (proxy i).sIdHashOfDirty ∧ value = (proxy i).sIdHashOfDirtyState

/-- The cells of the proxies, as a cache in front of the database. -/
structure Represents (s : CacheState) (b : Backed Cell Bytes) : Prop where
  cache : ∀ i sId, b.cache ((proxy i).sIdHashOfDirtyState, sId) =
    (s.store (proxy i).sIdHash).lookup sId
  pending : ∀ i sId, b.pending ((proxy i).sIdHashOfDirtyState, sId) =
    dirtyChange (s.store (proxy i).sIdHashOfDirty) (s.store (proxy i).sIdHashOfDirtyState) sId
  db : b.db = s.db
  removed : b.removed = s.removed
  version : b.version = s.version
  taken : b.taken = s.looted

end System

section Proof

variable {ι : Type*} {cacheDirtyEntry : Bytes} {proxy : ι → CRedisCacheProxy}
  {s : CacheState} {b : Backed Cell Bytes} {store : Store Bytes}

section

variable {d d' st st' : Hash Bytes} {sId sValue state : Bytes} {value : Option Bytes}

theorem dirtyChange_congr (hd : d.lookup sId = d'.lookup sId) (hst : st.lookup sId = st'.lookup sId) :
    dirtyChange d st sId = dirtyChange d' st' sId := by
  unfold dirtyChange
  rw [hd, hst]

theorem dirtyChange_eq_none (hst : st.lookup sId = none) : dirtyChange d st sId = none := by
  unfold dirtyChange
  rw [hst]

theorem dirtyChange_eq_some (hst : st.lookup sId = some state) (hd : d.lookup sId = some sValue)
    (hstate : state = deleted ∧ value = none ∨
      (state = modified ∨ state = added) ∧ value = some sValue) :
    dirtyChange d st sId = some value := by
  unfold dirtyChange
  simp only [hst]
  rcases hstate with ⟨rfl, rfl⟩ | ⟨hset, rfl⟩
  · exact if_pos rfl
  · rw [if_neg, if_pos hset, hd]
    rcases hset with rfl | rfl
    · decide
    · decide

theorem dirtyChange_ne_none
    (hknown : ∀ state, st.lookup sId = some state →
      state = deleted ∨ state = modified ∨ state = added) :
    dirtyChange d st sId ≠ none ↔ sId ∈ st := by
  unfold dirtyChange
  cases hlookup : st.lookup sId with
  | none => simp [AList.lookup_eq_none.1 hlookup]
  | some state =>
    have hmem : sId ∈ st := AList.lookup_isSome.1 (hlookup ▸ rfl)
    rcases hknown state hlookup with rfl | h
    · simp [hmem]
    · simp only [h, hmem, iff_true]
      split
      · exact Option.some_ne_none _
      · exact Option.some_ne_none _

end

theorem apply_foldl_of_ne {vOut : List DirtyEntry} {k : Cell} (h : ∀ t ∈ vOut, k.1 ≠ t.1)
    (db : Cell → Option Bytes) : vOut.foldl DirtyEntry.apply db k = db k := by
  induction vOut generalizing db with
  | nil => rfl
  | cons t vOut ih =>
    rw [List.foldl_cons, ih fun t' ht' => h t' (List.mem_cons_of_mem t ht')]
    exact if_neg (h t List.mem_cons_self)

theorem apply_foldl_of_mem {vOut : List DirtyEntry} (hnodup : (vOut.map Prod.fst).Nodup)
    {t : DirtyEntry} (ht : t ∈ vOut) (sId : Bytes) (db : Cell → Option Bytes) :
    vOut.foldl DirtyEntry.apply db (t.1, sId) = (t.change sId).getD (db (t.1, sId)) := by
  induction vOut generalizing db with
  | nil => cases ht
  | cons t' vOut ih =>
    rw [List.map_cons, List.nodup_cons] at hnodup
    rw [List.foldl_cons]
    rcases List.mem_cons.1 ht with rfl | ht
    · have hlast : ∀ t' ∈ vOut, t.1 ≠ t'.1 := by
        intro t' ht' heq
        exact hnodup.1 (List.mem_map.2 ⟨t', ht', heq.symm⟩)
      rw [apply_foldl_of_ne hlast]
      exact if_pos rfl
    · rw [ih hnodup.2 ht]
      have hne : t.1 ≠ t'.1 := fun heq => hnodup.1 (List.mem_map.2 ⟨t, ht, heq⟩)
      congr 1
      exact if_neg hne

section Marked

variable (store) (hapart : Apart cacheDirtyEntry proxy) (i j : ι)
  (sId sId' sValue state : Bytes)
include hapart

theorem marked_cache : marked store (proxy i).sIdHashOfDirty (proxy i).sIdHashOfDirtyState
    cacheDirtyEntry sId sValue state (proxy j).sIdHash = store (proxy j).sIdHash := by
  simp [marked, Store.set, (hapart j).1.symm]

theorem marked_dirty : (marked store (proxy i).sIdHashOfDirty (proxy i).sIdHashOfDirtyState
    cacheDirtyEntry sId sValue state (proxy j).sIdHashOfDirty).lookup sId' =
      if (proxy j).name = (proxy i).name ∧ sId' = sId then some sValue
      else (store (proxy j).sIdHashOfDirty).lookup sId' := by
  simp [marked, (hapart j).2.1.symm]

theorem marked_state : (marked store (proxy i).sIdHashOfDirty (proxy i).sIdHashOfDirtyState
    cacheDirtyEntry sId sValue state (proxy j).sIdHashOfDirtyState).lookup sId' =
      if (proxy j).name = (proxy i).name ∧ sId' = sId then some state
      else (store (proxy j).sIdHashOfDirtyState).lookup sId' := by
  simp [marked, (hapart j).2.2.symm, CRedisCacheProxy.dirty_ne_state.symm]

theorem marked_index (key : Bytes) : (marked store (proxy i).sIdHashOfDirty
    (proxy i).sIdHashOfDirtyState cacheDirtyEntry sId sValue state cacheDirtyEntry).lookup key =
      if key = (proxy i).sIdHashOfDirty then some (proxy i).sIdHashOfDirtyState
      else (store cacheDirtyEntry).lookup key := by
  simp [marked, (hapart i).2.1, (hapart i).2.2]

theorem cleared_cache : (cleared store (proxy i).sIdHash (proxy i).sIdHashOfDirty
    (proxy i).sIdHashOfDirtyState cacheDirtyEntry (proxy j).sIdHash).lookup sId' =
      if (proxy j).name = (proxy i).name then none else (store (proxy j).sIdHash).lookup sId' := by
  simp [cleared, (hapart j).1.symm]

theorem cleared_dirty : (cleared store (proxy i).sIdHash (proxy i).sIdHashOfDirty
    (proxy i).sIdHashOfDirtyState cacheDirtyEntry (proxy j).sIdHashOfDirty).lookup sId' =
      if (proxy j).name = (proxy i).name then none
      else (store (proxy j).sIdHashOfDirty).lookup sId' := by
  simp [cleared, (hapart j).2.1.symm, CRedisCacheProxy.sIdHash_ne_dirty.symm]

theorem cleared_state : (cleared store (proxy i).sIdHash (proxy i).sIdHashOfDirty
    (proxy i).sIdHashOfDirtyState cacheDirtyEntry (proxy j).sIdHashOfDirtyState).lookup sId' =
      if (proxy j).name = (proxy i).name then none
      else (store (proxy j).sIdHashOfDirtyState).lookup sId' := by
  simp [cleared, (hapart j).2.2.symm, CRedisCacheProxy.sIdHash_ne_state.symm,
    CRedisCacheProxy.dirty_ne_state.symm]

theorem cleared_index (key : Bytes) : (cleared store (proxy i).sIdHash (proxy i).sIdHashOfDirty
    (proxy i).sIdHashOfDirtyState cacheDirtyEntry cacheDirtyEntry).lookup key =
      if key = (proxy i).sIdHashOfDirty then none else (store cacheDirtyEntry).lookup key := by
  simp [cleared, (hapart i).1, (hapart i).2.1, (hapart i).2.2]

end Marked

/-- The index does not depend on what is cached. -/
theorem Indexed.of_cache (h : Indexed cacheDirtyEntry proxy s.store)
    (hapart : Apart cacheDirtyEntry proxy)
    (hsame : ∀ key, (∀ i, key ≠ (proxy i).sIdHash) → store key = s.store key) :
    Indexed cacheDirtyEntry proxy store := by
  have hentry := hsame cacheDirtyEntry fun i => (hapart i).1
  have hstate (i) := hsame (proxy i).sIdHashOfDirtyState fun _ =>
    CRedisCacheProxy.sIdHash_ne_state.symm
  constructor
  · intro i sId state hlookup
    exact h.known i sId state (hstate i ▸ hlookup)
  · intro i sId state hlookup
    rw [hentry]
    exact h.listed i sId state (hstate i ▸ hlookup)
  · intro key value hlookup
    exact h.only key value (hentry ▸ hlookup)

theorem Indexed.marked (h : Indexed cacheDirtyEntry proxy store)
    (hapart : Apart cacheDirtyEntry proxy) (i : ι) (sId sValue : Bytes) {state : Bytes}
    (hstate : state = deleted ∨ state = modified ∨ state = added) :
    Indexed cacheDirtyEntry proxy (marked store (proxy i).sIdHashOfDirty
      (proxy i).sIdHashOfDirtyState cacheDirtyEntry sId sValue state) := by
  constructor
  · intro j sId' state' hlookup
    rw [marked_state _ hapart] at hlookup
    split at hlookup
    · obtain rfl := Option.some.inj hlookup
      exact hstate
    · exact h.known j sId' state' hlookup
  · intro j sId' state' hlookup
    rw [marked_state _ hapart] at hlookup
    rw [marked_index _ hapart]
    by_cases hname : (proxy j).name = (proxy i).name
    · rw [if_pos (CRedisCacheProxy.sIdHashOfDirty_inj.2 hname),
        CRedisCacheProxy.sIdHashOfDirtyState_inj.2 hname]
    · rw [if_neg fun hboth => hname hboth.1] at hlookup
      rw [if_neg fun heq => hname (CRedisCacheProxy.sIdHashOfDirty_inj.1 heq)]
      exact h.listed j sId' state' hlookup
  · intro key value hlookup
    rw [marked_index _ hapart] at hlookup
    split at hlookup
    · next hkey => exact ⟨i, hkey, (Option.some.inj hlookup).symm⟩
    · exact h.only key value hlookup

/-- A script that changes what is cached and marks it is a change of the cell. -/
theorem Represents.marked (h : Represents proxy s b) (hapart : Apart cacheDirtyEntry proxy) (i : ι)
    (sId sValue : Bytes) {state : Bytes} (value : Option Bytes)
    (hsame : ∀ key, (∀ j, key ≠ (proxy j).sIdHash) → store key = s.store key)
    (hcache : ∀ j sId', (store (proxy j).sIdHash).lookup sId' =
      if (proxy j).name = (proxy i).name ∧ sId' = sId then value
      else (s.store (proxy j).sIdHash).lookup sId')
    (hstate : state = deleted ∧ value = none ∨
      (state = modified ∨ state = added) ∧ value = some sValue) :
    Represents proxy (s.changed ((proxy i).sIdHashOfDirtyState, sId) value.isNone
      (some (), marked store (proxy i).sIdHashOfDirty (proxy i).sIdHashOfDirtyState
        cacheDirtyEntry sId sValue state))
      (b.change ((proxy i).sIdHashOfDirtyState, sId) value) where
  cache := by
    intro j sId'
    refine Eq.trans ?_ (congrArg _ (marked_cache _ hapart i j sId sValue state)).symm
    rw [hcache]
    simp only [Backed.change, Function.update_apply, Prod.mk.injEq,
      CRedisCacheProxy.sIdHashOfDirtyState_inj, h.cache]
  pending := by
    intro j sId'
    have hst := marked_state store hapart i j sId sId' sValue state
    have hd := marked_dirty store hapart i j sId sId' sValue state
    simp only [Backed.change, Function.update_apply, Prod.mk.injEq,
      CRedisCacheProxy.sIdHashOfDirtyState_inj, h.pending]
    split
    · next hcell =>
      rw [if_pos hcell] at hst hd
      exact (dirtyChange_eq_some hst hd hstate).symm
    · next hcell =>
      rw [if_neg hcell] at hst hd
      apply dirtyChange_congr
      · rw [← hsame (proxy j).sIdHashOfDirty fun _ => CRedisCacheProxy.sIdHash_ne_dirty.symm]
        exact hd.symm
      · rw [← hsame (proxy j).sIdHashOfDirtyState fun _ => CRedisCacheProxy.sIdHash_ne_state.symm]
        exact hst.symm
  db := h.db
  removed := by
    simp only [Backed.change, CacheState.changed, h.removed]
  version := by
    simp only [Backed.change, CacheState.changed, h.version]
  taken := h.taken

/-- The invariant stays, as no state of the proxy was left. -/
theorem Indexed.cleared (h : Indexed cacheDirtyEntry proxy store)
    (hapart : Apart cacheDirtyEntry proxy) (i : ι) :
    Indexed cacheDirtyEntry proxy (cleared store (proxy i).sIdHash (proxy i).sIdHashOfDirty
      (proxy i).sIdHashOfDirtyState cacheDirtyEntry) := by
  constructor
  · intro j sId state hlookup
    rw [cleared_state _ hapart] at hlookup
    split at hlookup
    · cases hlookup
    · exact h.known j sId state hlookup
  · intro j sId state hlookup
    rw [cleared_state _ hapart] at hlookup
    split at hlookup
    · cases hlookup
    · next hname =>
      rw [cleared_index _ hapart, if_neg fun heq => hname (CRedisCacheProxy.sIdHashOfDirty_inj.1 heq)]
      exact h.listed j sId state hlookup
  · intro key value hlookup
    rw [cleared_index _ hapart] at hlookup
    split at hlookup
    · cases hlookup
    · exact h.only key value hlookup

theorem Represents.cleared (h : Represents proxy s b) (hapart : Apart cacheDirtyEntry proxy) (i : ι)
    (hclean : s.store (proxy i).sIdHashOfDirtyState = ∅) :
    Represents proxy
      { s with
        store := cleared s.store (proxy i).sIdHash (proxy i).sIdHashOfDirty
          (proxy i).sIdHashOfDirtyState cacheDirtyEntry }
      (b.evict fun k => k.1 = (proxy i).sIdHashOfDirtyState) where
  cache := by
    intro j sId
    refine Eq.trans ?_ (cleared_cache _ hapart i j sId).symm
    simp only [Backed.evict, decide_eq_true_eq, CRedisCacheProxy.sIdHashOfDirtyState_inj, h.cache]
  pending := by
    intro j sId
    have hd := cleared_dirty s.store hapart i j sId
    have hst := cleared_state s.store hapart i j sId
    refine (h.pending j sId).trans ?_
    by_cases hname : (proxy j).name = (proxy i).name
    · rw [if_pos hname] at hst
      rw [dirtyChange_eq_none hst]
      apply dirtyChange_eq_none
      rw [CRedisCacheProxy.sIdHashOfDirtyState_inj.2 hname, hclean]
      exact AList.lookup_empty sId
    · rw [if_neg hname] at hd hst
      exact dirtyChange_congr hd.symm hst.symm
  db := h.db
  removed := h.removed
  version := h.version
  taken := h.taken

end Proof

end KjRedis.Cache
