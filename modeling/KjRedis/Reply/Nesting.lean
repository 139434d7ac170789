import KjRedis.Reply.Encoding
import KjRedis.Reply.StackWalk

/-! Whole replies in one block: the parser delivers a nested reply as it is, if and only
if the builders the reply opens never leave the builder stack's memory. -/
namespace KjRedis.Reply

open RedisReplyParser

mutual

/-- Integers, bulk strings, null bulk strings and arrays of these, with lengths the
parser counts without loss. -/
def Resp.isTree : Resp → Bool
  | .text _ _ => false
  | .int v => -2 ^ 63 ≤ v && v < 2 ^ 63
  | .nullBulk => true
  | .bulk bytes => bytes.length < 2 ^ 32 - 3
  | .nullArray => false
  | .array elems => elems.length < 2 ^ 31 - 1 && Resp.areTrees elems

def Resp.areTrees : List Resp → Bool
  | [] => true
  | v :: vs => v.isTree && Resp.areTrees vs

end

/-- No builder is too deep for its depth, and no pop clears the reply's head or memory
outside the pool. -/
def Resp.StackFits (v : Resp) : Prop :=
  (v.stackUse 1 ⟨0, false⟩).map StackUse.cleared = some false

instance (v : Resp) : Decidable v.StackFits := inferInstanceAs (Decidable (_ = _))

/-- Trees of integers, bulk strings and arrays, of any depth. -/
def trees : Envelope where
  textMax := 0
  textOk _ := false
  numOk kind x := kind ≠ .arrayLen || (x.head?.bind leadingType).isNone
  opens _ type := type = .bulkString || type = .array

theorem trees_bounded : trees.Bounded where
  text := Nat.zero_le _
  wraps := by
    intro type h
    cases type <;> simp [trees] at h ⊢
  digits := by
    intro _ d h
    simpa [trees] using h

theorem trees_admitsLine {kind : NumKind} (hkind : kind ≠ .arrayLen) (v : Int) : trees.AdmitsLine kind v := by
  intro y _
  simp [trees, hkind]

/-- The length of an array begins with a digit. -/
theorem trees_admitsLength (n : Nat) : trees.AdmitsLine .arrayLen n := by
  intro y hy
  obtain ⟨d, ds, hhead, hdigit⟩ := decimalInt_head n
  rw [hhead, List.cons_append] at hy
  cases y with
  | nil => rfl
  | cons c y =>
    obtain rfl := (List.cons_prefix_cons.1 hy).1
    simp [trees, hdigit]

mutual

theorem Resp.isTree_admitted : ∀ (v : Resp), v.isTree → ∀ depth, v.Admitted trees depth
  | .text _ _, h, _ => by cases h
  | .int v, h, _ => by
    rw [Resp.isTree, Bool.and_eq_true, decide_eq_true_eq, decide_eq_true_eq] at h
    exact ⟨h, trees_admitsLine (by simp) v⟩
  | .nullBulk, _, _ => ⟨rfl, trees_admitsLine (by simp) _⟩
  | .bulk bytes, h, _ => by
    rw [Resp.isTree, decide_eq_true_eq] at h
    exact ⟨rfl, h, trees_admitsLine (by simp) _⟩
  | .nullArray, h, _ => by cases h
  | .array elems, h, depth => by
    rw [Resp.isTree, Bool.and_eq_true, decide_eq_true_eq] at h
    exact ⟨rfl, h.1, trees_admitsLength _, Resp.areTrees_admitted elems h.2 (depth + 1)⟩

theorem Resp.areTrees_admitted : ∀ (vs : List Resp), Resp.areTrees vs → ∀ depth,
    Resp.AllAdmitted trees vs depth
  | [], _, _ => trivial
  | v :: vs, h, depth => by
    rw [Resp.areTrees, Bool.and_eq_true] at h
    exact ⟨v.isTree_admitted h.1 depth, Resp.areTrees_admitted vs h.2 depth⟩

end

/-- The encoding of a reply, in one block to a fresh parser, comes out as that reply and
nothing else, and leaves nothing behind. -/
def RoundTrips (v : Resp) : Prop :=
  ∃ res, redisReplyParseOnce (fun _ => 0) createReplyParser v.encode = some res ∧
    res.delivered = [v.render] ∧ res.bb = [] ∧ res.rrp.StackIdle

/-- The walk of a stream that is one reply. -/
theorem streamUse_single (v : Resp) : (streamUse [v] .type 0).isSome ↔ v.StackFits := by
  rw [streamUse, Resp.StackFits]
  cases v.stackUse 1 ⟨0, false⟩ with
  | none => exact iff_of_false (by simp) (by simp)
  | some u => cases hc : u.cleared <;> simp [hc, streamUse, Part.stackUse]

/-- A block that is one reply comes out as that reply, exactly when the builder stack
can hold its builders. -/
theorem roundTrips_iff_stackFits {v : Resp} (hv : v.isTree) : RoundTrips v ↔ v.StackFits := by
  have hread : (reader trees).run .type v.encode = some (.type, [v]) := by
    have hall := @reader_encodeAll trees [v] (List.forall_mem_singleton.2 (v.isTree_admitted hv 1))
    rwa [Resp.encodeAll, Resp.encodeAll, List.append_nil] at hall
  obtain ⟨res, hres, hland⟩ := redisReplyParseOnce_lands trees_bounded hread
  rw [StreamLands] at hland
  rw [← streamUse_single, RoundTrips]
  cases hu : streamUse [v] .type 0 with
  | none =>
    rw [hu] at hland
    refine iff_of_false ?_ (by simp)
    rintro ⟨res', hres', hdel, -⟩
    obtain rfl := Option.some.inj (hres.symm.trans hres')
    rcases hland with hne | ⟨hne, -⟩
    · exact hne hdel
    · exact hne rfl
  | some u =>
    rw [hu, Option.elim_some] at hland
    obtain ⟨-, hdel, hend⟩ := hland
    obtain ⟨hbb, hidle⟩ := hend rfl
    exact iff_of_true ⟨res, hres, hdel, hbb, hidle⟩ rfl

/-- `[-7, "\r\n", [nil, []]]`. -/
theorem roundTrips_iff_stackFits_mixed :
    RoundTrips (.array [.int (-7), .bulk [13, 10], .array [.nullBulk, .array []]]) :=
  (roundTrips_iff_stackFits (by decide)).2 (by decide)

/-- `n` arrays around an empty one. -/
def nested : Nat → Resp
  | 0 => .array []
  | n + 1 => .array [nested n]

example : (List.range 40).filter (fun n => ¬ (nested n).StackFits) = [14, 35] := by
  decide +kernel

/-- Fifteen arrays: the pop of the sixteenth builder clears the reply's head. -/
theorem not_roundTrips_nested : ¬ RoundTrips (nested 14) := by
  rintro ⟨res, hres, hdel, -⟩
  have htypes : (redisReplyParseOnce (fun _ => 0) createReplyParser (nested 14).encode).map
      (fun res => res.delivered.map RedisReply.type) = some [.unknown] := by decide +kernel
  rw [hres, Option.map_some, hdel] at htypes
  cases htypes

end KjRedis.Reply
