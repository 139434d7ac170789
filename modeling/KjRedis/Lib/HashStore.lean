import Mathlib.Data.List.AList

/-! A store of hashes under keys, and scripts of calls on it. A script runs to its end or
stops at a call that raises an error; what it has written by then stays written. -/
namespace HashStore

abbrev Hash (β : Type) := AList fun _ : β => β

/-- A key without fields is one that does not exist. -/
abbrev Store (β : Type) := β → Hash β

/-- `none` is an error that a call has raised. -/
abbrev Script (β α : Type) := OptionT (StateM (Store β)) α

variable {α γ β : Type}

/-- What the script returns, and the store it leaves. -/
def exec (script : Script β α) (s : Store β) : Option α × Store β := Id.run (script.run.run s)

@[simp] theorem exec_pure (a : α) (s : Store β) : exec (pure a) s = (some a, s) := rfl

theorem exec_bind (script : Script β α) (f : α → Script β γ) (s : Store β) :
    exec (script >>= f) s = match exec script s with
      | (some a, s') => exec (f a) s'
      | (none, s') => (none, s') := by
  unfold exec
  simp only [OptionT.run_bind, Option.elimM, StateT.run_bind]
  rcases (StateT.run (OptionT.run script) s : Id _) with ⟨_ | a, s'⟩
  · rfl
  · rfl

theorem exec_bind_some {script : Script β α} {f : α → Script β γ} {s s' : Store β} {a : α}
    (h : exec script s = (some a, s')) : exec (script >>= f) s = exec (f a) s' := by
  rw [exec_bind, h]

theorem exec_bind_none {script : Script β α} {f : α → Script β γ} {s s' : Store β}
    (h : exec script s = (none, s')) : exec (script >>= f) s = (none, s') := by
  rw [exec_bind, h]

def hlen (key : β) : Script β Nat := do return ((← get) key).entries.length

/-- Fields and values in turn. -/
def hgetall (key : β) : Script β (List β) := do
  return ((← get) key).entries.flatMap fun e => [e.1, e.2]

/-- What the hash is serialized to stands for the hash itself. -/
def serialized (hash : Hash β) : Option (Hash β) := if hash.entries = [] then none else some hash

def dump (key : β) : Script β (Option (Hash β)) := do return serialized ((← get) key)

@[simp] theorem exec_hlen (key : β) (s : Store β) :
    exec (hlen key) s = (some (s key).entries.length, s) := rfl

@[simp] theorem exec_hgetall (key : β) (s : Store β) :
    exec (hgetall key) s = (some ((s key).entries.flatMap fun e => [e.1, e.2]), s) := rfl

@[simp] theorem exec_dump (key : β) (s : Store β) :
    exec (dump key) s = (some (serialized (s key)), s) := rfl

@[simp] theorem serialized_getD (hash : Hash β) : (serialized hash).getD ∅ = hash := by
  unfold serialized
  split
  · next hnil => exact AList.ext hnil.symm
  · rfl

variable [DecidableEq β]

def Store.set (s : Store β) (key field value : β) : Store β :=
  Function.update s key ((s key).insert field value)

def Store.unset (s : Store β) (key field : β) : Store β :=
  Function.update s key ((s key).erase field)

def Store.drop (s : Store β) (key : β) : Store β := Function.update s key ∅

def Store.dropAll (s : Store β) (keys : List β) : Store β := keys.foldl Store.drop s

/-- A value that is `none` raises an error. -/
def hset (key field : β) : Option β → Script β Unit
  | none => failure
  | some value => modify fun s => s.set key field value

def hget (key field : β) : Script β (Option β) := do return ((← get) key).lookup field

def hdel (key field : β) : Script β Unit := modify fun s => s.unset key field

def del (key : β) : Script β Unit := modify fun s => s.drop key

variable (key field value : β) (s : Store β)

@[simp] theorem exec_hset_none : exec (hset key field none) s = (none, s) := rfl

@[simp] theorem exec_hset :
    exec (hset key field (some value)) s = (some (), s.set key field value) := rfl

@[simp] theorem exec_hget : exec (hget key field) s = (some ((s key).lookup field), s) := rfl

@[simp] theorem exec_hdel : exec (hdel key field) s = (some (), s.unset key field) := rfl

@[simp] theorem exec_del : exec (del key) s = (some (), s.drop key) := rfl

variable {key field value s} {key' field' : β}

@[simp] theorem lookup_set : (s.set key field value key').lookup field' =
    if key' = key ∧ field' = field then some value else (s key').lookup field' := by
  by_cases hkey : key' = key
  · subst hkey
    by_cases hfield : field' = field
    · subst hfield
      simp [Store.set]
    · simp [Store.set, hfield, AList.lookup_insert_ne hfield]
  · simp [Store.set, hkey]

@[simp] theorem lookup_unset : (s.unset key field key').lookup field' =
    if key' = key ∧ field' = field then none else (s key').lookup field' := by
  by_cases hkey : key' = key
  · subst hkey
    by_cases hfield : field' = field
    · subst hfield
      simp [Store.unset]
    · simp [Store.unset, hfield, AList.lookup_erase_ne hfield]
  · simp [Store.unset, hkey]

theorem drop_apply : s.drop key key' = if key' = key then ∅ else s key' :=
  Function.update_apply s key ∅ key'

@[simp] theorem lookup_drop : (s.drop key key').lookup field' =
    if key' = key then none else (s key').lookup field' := by
  rw [drop_apply]
  split
  · exact AList.lookup_empty field'
  · rfl

theorem dropAll_apply (keys : List β) :
    s.dropAll keys key = if key ∈ keys then ∅ else s key := by
  induction keys generalizing s with
  | nil => rfl
  | cons k keys ih =>
    rw [Store.dropAll, List.foldl_cons]
    refine (ih (s := s.drop k)).trans ?_
    rw [drop_apply]
    by_cases hmem : key ∈ keys
    · simp [hmem]
    · simp [hmem]

end HashStore
