import KjRedis.Conn.ReplyBuilder
import KjRedis.Lib.HashStore

/-! `CRedisCacheProxy`: the keys of a proxy and its scripts. -/
namespace KjRedis.Cache

open HashStore KjRedis.Conn

abbrev Bytes := List UInt8

structure CRedisCacheProxy where
  sModuleName : Bytes
  sMainId : Bytes
  sSubid : Bytes

namespace CRedisCacheProxy

/-- What the three keys of a proxy begin with. -/
def name (p : CRedisCacheProxy) : Bytes :=
  p.sModuleName ++ ascii ":" ++ p.sMainId ++ ascii ":" ++ p.sSubid

def sIdHash (p : CRedisCacheProxy) : Bytes := p.name ++ ascii ":H"
def sIdHashOfDirty (p : CRedisCacheProxy) : Bytes := p.name ++ ascii ":D_H"
def sIdHashOfDirtyState (p : CRedisCacheProxy) : Bytes := p.name ++ ascii ":DS_H"

end CRedisCacheProxy

def deleted : Bytes := ascii "2"
def modified : Bytes := ascii "3"
def added : Bytes := ascii "4"

section Scripts

variable (key₁ key₂ key₃ key₄ : Bytes)

/-- `false` is the null reply that makes `Clear` exit. -/
def sClear : Script Bytes Bool := do
  let n ← hlen key₃
  if 0 < n then
    return false
  else
    hdel key₄ key₂
    del key₃
    del key₂
    del key₁
    return true

/-- The script of `AddToHashTable` and of `UpdateToHashTable`. -/
def setToHashTable (state sId sValue : Bytes) : Script Bytes Unit := do
  hset key₁ sId (some sValue)
  hset key₂ sId (some sValue)
  hset key₃ sId (some state)
  hset key₄ key₂ (some key₃)

def sAddToHashTable : Bytes → Bytes → Script Bytes Unit := setToHashTable key₁ key₂ key₃ key₄ added

def sUpdateToHashTable : Bytes → Bytes → Script Bytes Unit :=
  setToHashTable key₁ key₂ key₃ key₄ modified

def sRemoveFromHashTable (sId : Bytes) : Script Bytes Unit := do
  let v ← hget key₁ sId
  hdel key₁ sId
  hset key₂ sId v
  hset key₃ sId (some deleted)
  hset key₄ key₂ (some key₃)

/-- `{v,d,s}`: the key of the dirty states, the dirty values and the dirty states. -/
abbrev DirtyEntry := Bytes × Option (Hash Bytes) × Option (Hash Bytes)

/-- `for i=1,n-1,2`: fields and values of the index in turn. -/
def lootLoop : List Bytes → Script Bytes (List DirtyEntry)
  | k :: v :: e => do
    let d ← dump k
    del k
    let s ← dump v
    del v
    let r ← lootLoop e
    return (v, d, s) :: r
  | _ => return []

def sLootDirtyEntry : Script Bytes (List DirtyEntry) := do
  let e ← hgetall key₁
  del key₁
  lootLoop e

end Scripts

namespace CRedisCacheProxy

variable (p : CRedisCacheProxy) (cacheDirtyEntry : Bytes)

def clear : Script Bytes Bool :=
  sClear p.sIdHash p.sIdHashOfDirty p.sIdHashOfDirtyState cacheDirtyEntry

def addToHashTable (sId sValue : Bytes) : Script Bytes Unit :=
  sAddToHashTable p.sIdHash p.sIdHashOfDirty p.sIdHashOfDirtyState cacheDirtyEntry sId sValue

def updateToHashTable (sId sValue : Bytes) : Script Bytes Unit :=
  sUpdateToHashTable p.sIdHash p.sIdHashOfDirty p.sIdHashOfDirtyState cacheDirtyEntry sId sValue

def removeFromHashTable (sId : Bytes) : Script Bytes Unit :=
  sRemoveFromHashTable p.sIdHash p.sIdHashOfDirty p.sIdHashOfDirtyState cacheDirtyEntry sId

end CRedisCacheProxy

section Specs

variable {key₁ key₂ key₃ key₄ sId sValue : Bytes} {s : Store Bytes}

/-- A dirty value with its state, and the entry of the index. -/
def marked (s : Store Bytes) (key₂ key₃ key₄ sId sValue state : Bytes) : Store Bytes :=
  ((s.set key₂ sId sValue).set key₃ sId state).set key₄ key₂ key₃

theorem exec_setToHashTable (state : Bytes) :
    exec (setToHashTable key₁ key₂ key₃ key₄ state sId sValue) s =
      (some (), marked (s.set key₁ sId sValue) key₂ key₃ key₄ sId sValue state) := by
  unfold setToHashTable
  rw [exec_bind_some (exec_hset ..), exec_bind_some (exec_hset ..), exec_bind_some (exec_hset ..),
    exec_hset, marked]

theorem exec_sRemoveFromHashTable (h : (s key₁).lookup sId = some sValue) :
    exec (sRemoveFromHashTable key₁ key₂ key₃ key₄ sId) s =
      (some (), marked (s.unset key₁ sId) key₂ key₃ key₄ sId sValue deleted) := by
  unfold sRemoveFromHashTable
  rw [exec_bind_some (exec_hget ..), exec_bind_some (exec_hdel ..), h,
    exec_bind_some (exec_hset ..), exec_bind_some (exec_hset ..), exec_hset, marked]

/-- A field that is not there stops the script before it has changed anything. -/
theorem exec_sRemoveFromHashTable_none (h : (s key₁).lookup sId = none) :
    exec (sRemoveFromHashTable key₁ key₂ key₃ key₄ sId) s = (none, s.unset key₁ sId) := by
  unfold sRemoveFromHashTable
  rw [exec_bind_some (exec_hget ..), exec_bind_some (exec_hdel ..), h,
    exec_bind_none (exec_hset_none ..)]

/-- Nothing changes as long as a state is left. -/
theorem exec_sClear_dirty (h : s key₃ ≠ ∅) :
    exec (sClear key₁ key₂ key₃ key₄) s = (some false, s) := by
  have hlen : 0 < (s key₃).entries.length := by
    apply List.length_pos_iff.2
    intro hnil
    exact h (AList.ext hnil)
  unfold sClear
  rw [exec_bind_some (exec_hlen key₃ s), if_pos hlen, exec_pure]

/-- The three hashes are gone, and the entry of the index. -/
def cleared (s : Store Bytes) (key₁ key₂ key₃ key₄ : Bytes) : Store Bytes :=
  (((s.unset key₄ key₂).drop key₃).drop key₂).drop key₁

theorem exec_sClear (h : s key₃ = ∅) :
    exec (sClear key₁ key₂ key₃ key₄) s = (some true, cleared s key₁ key₂ key₃ key₄) := by
  have hlen : ¬ 0 < (s key₃).entries.length := by
    rw [h]
    exact Nat.lt_irrefl 0
  unfold sClear
  rw [exec_bind_some (exec_hlen key₃ s), if_neg hlen, exec_bind_some (exec_hdel ..),
    exec_bind_some (exec_del ..), exec_bind_some (exec_del ..), exec_bind_some (exec_del ..),
    exec_pure, cleared]

/-- Keys that are all different: no entry has lost what an earlier one was read from. -/
theorem exec_lootLoop {pairs : List (Sigma fun _ : Bytes => Bytes)}
    (h : (pairs.flatMap fun e => [e.1, e.2]).Nodup) :
    exec (lootLoop (pairs.flatMap fun e => [e.1, e.2])) s =
      (some (pairs.map fun e => (e.2, serialized (s e.1), serialized (s e.2))),
        s.dropAll (pairs.flatMap fun e => [e.1, e.2])) := by
  induction pairs generalizing s with
  | nil => rfl
  | cons e pairs ih =>
    obtain ⟨k, v⟩ := e
    simp only [List.flatMap_cons, List.cons_append, List.nil_append, List.nodup_cons,
      List.mem_cons, not_or] at h ⊢
    obtain ⟨⟨hkv, hk⟩, hv, hrest⟩ := h
    have hv' : s.drop k v = s v := by
      rw [drop_apply, if_neg (Ne.symm hkv)]
    have hother : ∀ e ∈ pairs, ∀ key ∈ [e.1, e.2], (s.drop k).drop v key = s key := by
      intro e he key hkey
      have hmem : key ∈ pairs.flatMap fun e => [e.1, e.2] := List.mem_flatMap.2 ⟨e, he, hkey⟩
      rw [drop_apply, if_neg (ne_of_mem_of_not_mem hmem hv), drop_apply,
        if_neg (ne_of_mem_of_not_mem hmem hk)]
    unfold lootLoop
    rw [exec_bind_some (exec_dump k s), exec_bind_some (exec_del k s), exec_bind_some (exec_dump v _),
      exec_bind_some (exec_del v _), exec_bind_some (ih hrest), exec_pure, hv']
    refine congrArg₂ Prod.mk (congrArg some (congrArg _ ?_)) rfl
    refine List.map_congr_left fun e he => ?_
    rw [hother e he e.1 List.mem_cons_self, hother e he e.2 (List.mem_cons_of_mem _ List.mem_cons_self)]

end Specs

namespace CRedisCacheProxy

variable {p q : CRedisCacheProxy}

@[simp] theorem sIdHash_inj : p.sIdHash = q.sIdHash ↔ p.name = q.name :=
  List.append_left_inj _

@[simp] theorem sIdHashOfDirty_inj : p.sIdHashOfDirty = q.sIdHashOfDirty ↔ p.name = q.name :=
  List.append_left_inj _

@[simp] theorem sIdHashOfDirtyState_inj :
    p.sIdHashOfDirtyState = q.sIdHashOfDirtyState ↔ p.name = q.name :=
  List.append_left_inj _

@[simp] theorem sIdHash_ne_dirty : p.sIdHash ≠ q.sIdHashOfDirty := by
  intro h
  have := congrArg List.reverse h
  simp [sIdHash, sIdHashOfDirty, ascii] at this

@[simp] theorem sIdHash_ne_state : p.sIdHash ≠ q.sIdHashOfDirtyState := by
  intro h
  have := congrArg List.reverse h
  simp [sIdHash, sIdHashOfDirtyState, ascii] at this

@[simp] theorem dirty_ne_state : p.sIdHashOfDirty ≠ q.sIdHashOfDirtyState := by
  intro h
  have := congrArg List.reverse h
  simp [sIdHashOfDirty, sIdHashOfDirtyState, ascii] at this

end CRedisCacheProxy

end KjRedis.Cache
