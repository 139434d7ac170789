import KjRedis.Rdb.Builders
import KjRedis.Rdb.Numbers

/-! Bytes that lie in a memory, and what a loader reads of them. -/
namespace KjRedis.Rdb

variable {mem : Memory} {p n : Nat} {b : UInt8} {xs ys : List UInt8}

@[simp] theorem ok_bind {α β : Type} (a : α) (f : α → Loaded β) : (Except.ok a >>= f) = f a := rfl

@[simp] theorem error_bind {α β : Type} (e : Fault) (f : α → Loaded β) :
    ((Except.error e : Loaded α) >>= f) = .error e := rfl

theorem bind_eq_ok {α β : Type} {x : Loaded α} {f : α → Loaded β} {b : β} :
    (x >>= f) = .ok b ↔ ∃ a, x = .ok a ∧ f a = .ok b := by
  cases x with
  | ok a =>
    constructor
    · intro h
      exact ⟨a, rfl, h⟩
    · rintro ⟨a', ha, h⟩
      cases ha
      exact h
  | error e =>
    constructor
    · intro h
      cases h
    · rintro ⟨a, ha, h⟩
      cases ha

/-- From `p` on the memory holds these bytes. -/
def Lies (mem : Memory) (p : Nat) (xs : List UInt8) : Prop := xs.map some <+: mem.drop p

theorem lies_append : Lies mem p (xs ++ ys) ↔ Lies mem p xs ∧ Lies mem (p + xs.length) ys := by
  constructor
  · rintro ⟨rest, hrest⟩
    rw [List.map_append, List.append_assoc] at hrest
    refine ⟨⟨_, hrest⟩, rest, ?_⟩
    rw [← List.drop_drop, ← hrest, List.drop_left' (List.length_map ..)]
  · rintro ⟨⟨rest, hrest⟩, rest', hrest'⟩
    refine ⟨rest', ?_⟩
    rw [← List.drop_drop, ← hrest, List.drop_left' (List.length_map ..)] at hrest'
    rw [List.map_append, List.append_assoc, hrest', hrest]

theorem lies_cons : Lies mem p (b :: xs) ↔ Lies mem p [b] ∧ Lies mem (p + 1) xs :=
  @lies_append mem p [b] xs

theorem Lies.length_le (h : Lies mem p xs) (hp : p ≤ mem.length) : p + xs.length ≤ mem.length := by
  have hle := List.IsPrefix.length_le h
  rw [List.length_map, List.length_drop] at hle
  omega

theorem Lies.lt (h : Lies mem p [b]) : p < mem.length := by
  have hle := List.IsPrefix.length_le h
  rw [List.length_map, List.length_drop, List.length_singleton] at hle
  omega

theorem Lies.inj (h : Lies mem p xs) (h' : Lies mem p ys) (hlen : xs.length = ys.length) : xs = ys := by
  have heq := (List.prefix_of_prefix_length_le h h' (by simp [hlen])).eq_of_length (by simp [hlen])
  exact List.map_injective_iff.2 (Option.some_injective _) heq

theorem lies_singleton : Lies mem p [b] ↔ mem[p]? = some (some b) := by
  rw [← List.head?_drop, Lies, List.map_singleton]
  constructor
  · rintro ⟨rest, hrest⟩
    rw [← hrest]
    rfl
  · intro h
    exact ⟨_, List.cons_head?_tail h⟩

theorem byteAt_eq_ok : byteAt mem p = .ok b ↔ Lies mem p [b] := by
  rw [lies_singleton, byteAt]
  constructor
  · intro h
    split at h
    · cases h
    · cases h
    · next hget =>
      cases h
      exact hget
  · intro h
    rw [h]

theorem bytesAt_eq_ok : bytesAt mem p n = .ok xs ↔ xs.length = n ∧ Lies mem p xs := by
  induction n generalizing p xs with
  | zero =>
    rw [bytesAt]
    constructor
    · intro h
      cases h
      exact ⟨rfl, List.nil_prefix⟩
    · rintro ⟨hlen, -⟩
      rw [List.length_eq_zero_iff.1 hlen]
  | succ n ih =>
    rw [bytesAt]
    constructor
    · intro h
      cases hb : byteAt mem p with
      | error => rw [hb] at h; cases h
      | ok b =>
        cases hbs : bytesAt mem (p + 1) n with
        | error => rw [hb, hbs] at h; cases h
        | ok bs =>
          rw [hb, hbs] at h
          cases h
          obtain ⟨hlen, hlies⟩ := ih.1 hbs
          exact ⟨by rw [List.length_cons, hlen], lies_cons.2 ⟨byteAt_eq_ok.1 hb, hlies⟩⟩
    · rintro ⟨hlen, hlies⟩
      cases xs with
      | nil => cases hlen
      | cons b xs =>
        obtain ⟨hb, hxs⟩ := lies_cons.1 hlies
        rw [byteAt_eq_ok.2 hb, ih.2 ⟨Nat.succ.inj hlen, hxs⟩]
        rfl

theorem copyAt_lies (hp : p ≤ mem.length) (h : Lies mem p xs) :
    copyAt mem p xs.length = .ok (xs.map some) := by
  rw [copyAt, if_pos (h.length_le hp)]
  obtain ⟨rest, hrest⟩ := h
  rw [← hrest, List.take_left' (List.length_map ..)]

theorem chainOf_eq_some {known : RdbKv → Bool} {kvs kvs' : List RdbKv} :
    chainOf known (.ok kvs) = some kvs' ↔ kvs = kvs' ∧ kvs.all known = true := by
  rw [chainOf, Except.toOption, Option.filter_eq_some_iff, Option.some_inj]
  exact and_congr_right fun h => by rw [h]

theorem chainOf_ok {known : RdbKv → Bool} {kvs : List RdbKv} (h : kvs.all known = true) :
    chainOf known (.ok kvs) = some kvs := chainOf_eq_some.2 ⟨rfl, h⟩

/-- What becomes of an object whose compact value is over. -/
theorem loadElements_over {load : NxStr → Option (List RdbKv)} {ob : Nat} {rp : RdbParser}
    {kvs : List RdbKv} (hload : load (rp.slots ob).tmpVal = some kvs) :
    (loadElements load ob .over rp).1 = .over ∧
      (loadElements load ob .over rp).2.o =
        { rp.o with vall := rp.o.vall ++ kvs, size := kvs.length } := by
  rw [loadElements, if_pos rfl, hload]
  exact ⟨rfl, rfl⟩

/-- Of the blob a loader makes these elements, and the value of the object is over. -/
def Recovers (load : NxStr → Option (List RdbKv)) (blob : List UInt8) (kvs : List RdbKv) : Prop :=
  ∀ ob rp, (rp.slots ob).tmpVal = some (blob.map some) →
    (loadElements load ob .over rp).1 = .over ∧
      (loadElements load ob .over rp).2.o = { rp.o with vall := rp.o.vall ++ kvs, size := kvs.length }

theorem recovers_iff {load : NxStr → Option (List RdbKv)} {blob : List UInt8} {kvs : List RdbKv} :
    Recovers load blob kvs ↔ load (some (blob.map some)) = some kvs := by
  constructor
  · intro h
    let rp := createRdbParser.write 0 { RdbObjectBuilder.zero with tmpVal := some (blob.map some) }
    obtain ⟨hrc, ho⟩ := h 0 rp rfl
    have htmp : (rp.slots 0).tmpVal = some (blob.map some) := rfl
    cases hload : load (some (blob.map some)) with
    | none =>
      rw [loadElements, if_pos rfl, htmp, hload] at hrc
      cases hrc
    | some kvs' =>
      have hvall := congrArg RdbObject.vall ((loadElements_over (htmp ▸ hload)).2.symm.trans ho)
      exact congrArg some (List.append_cancel_left hvall)
  · intro hload ob rp htmp
    exact loadElements_over (htmp ▸ hload)

end KjRedis.Rdb
