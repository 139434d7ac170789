import KjRedis.Base.BipMemory
import KjRedis.Lib.FoldTrace
import KjRedis.Reply.Nesting

/-! The arithmetic of `redis_reply_read_integer`, whose accumulator is an `int64_t`: the
values it makes on the way, and when none of them overflows. -/
namespace KjRedis.Reply

open FoldTrace

def FitsInt64 (z : Int) : Prop := -2 ^ 63 ≤ z ∧ z < 2 ^ 63

instance : DecidablePred FitsInt64 := fun _ => inferInstanceAs (Decidable (_ ∧ _))

/-- What one character makes of the accumulator: the product and the sum. -/
def digitSteps (acc : Int × Int) (c : UInt8) : List Int :=
  if c = minus then [] else [acc.1 * 10, acc.1 * 10 + (c.toInt8.toInt - zeroChar.toInt8.toInt)]

/-- The values of the loop, and last that of the multiplication behind it. -/
def integerSteps (text : List UInt8) : List Int :=
  let (v64, negativeMul) := text.foldl readDigit (0, 1)
  trace readDigit digitSteps (0, 1) text ++ [v64 * negativeMul]

def readIntegerSteps (bb : Committed) : List Int :=
  if bb.length < 2 then []
  else
    match bb.findStr crlf with
    | none => []
    | some appendSize => integerSteps (bb.take appendSize)

/-- `redis_reply_read_integer` on the buffer reads `v` and its line, and no value it makes
leaves `int64_t`. -/
structure ReadsExactly (bb : BipBuf) (v : Int) : Prop where
  read : redisReplyReadInteger bb.block = some (v, (decimalInt v).length + 2)
  fits : ∀ z ∈ readIntegerSteps bb.block, FitsInt64 z

theorem digitSteps_digit {c : UInt8} (h : isDigit c) (v m : Int) :
    digitSteps (v, m) c = [v * 10, v * 10 + ((c.toNat - 48 : Nat) : Int)] := by
  rw [digitSteps, if_neg (isDigit_ne h).1, digit_value h]

/-- The accumulator only grows on digits, so that it is the last value that has to fit. -/
theorem digits_fit_iff {ds : List UInt8} (hds : ∀ c ∈ ds, isDigit c) (m : Int) :
    (∀ z ∈ trace readDigit digitSteps (0, m) ds, FitsInt64 z) ↔ natOf ds < 2 ^ 63 := by
  induction ds using List.reverseRecOn with
  | nil => exact iff_of_true (by simp [trace]) (by decide)
  | append_singleton ds c ih =>
    have hall : ∀ c ∈ ds, isDigit c := fun x hx => hds x (List.mem_append_left _ hx)
    rw [trace_snoc, List.forall_mem_append, ih hall, foldl_readDigit hall,
      digitSteps_digit (hds c (by simp)), natOf_snoc]
    constructor
    · rintro ⟨hlt, hsteps⟩
      rw [wrapInt64_of_range (by omega) (by omega)] at hsteps
      have hsum := hsteps _ (List.mem_cons_of_mem _ List.mem_cons_self)
      unfold FitsInt64 at hsum
      omega
    · intro hlt
      have hprev : natOf ds < 2 ^ 63 := by omega
      refine ⟨hprev, ?_⟩
      rw [wrapInt64_of_range (by omega) (by omega)]
      simp only [List.forall_mem_cons, List.not_mem_nil, false_implies, implies_true, and_true]
      unfold FitsInt64
      omega

/-- A number is read without overflow where it and its negation are both an `int64_t`. -/
theorem integerSteps_fit_iff {x : List UInt8} {v : Int} (h : IsNumber x v) :
    (∀ z ∈ integerSteps x, FitsInt64 z) ↔ -2 ^ 63 < v ∧ v < 2 ^ 63 := by
  obtain ⟨neg, ds, -, hds, rfl, rfl⟩ := h
  have hwrap : natOf ds < 2 ^ 63 → wrapInt64 (natOf ds) = natOf ds :=
    fun hlt => wrapInt64_of_range (by omega) (by omega)
  cases neg with
  | false =>
    simp only [Bool.false_eq_true, if_false]
    rw [integerSteps, foldl_readDigit hds]
    simp only [List.forall_mem_append, digits_fit_iff hds, List.forall_mem_singleton]
    constructor
    · rintro ⟨hlt, -⟩
      omega
    · rintro ⟨-, hlt⟩
      have hlt : natOf ds < 2 ^ 63 := by omega
      refine ⟨hlt, ?_⟩
      rw [hwrap hlt]
      unfold FitsInt64
      omega
  | true =>
    simp only [if_true]
    have hminus : readDigit (0, 1) minus = (0, -1) := rfl
    rw [integerSteps, List.foldl_cons, trace, hminus, foldl_readDigit hds]
    simp only [List.forall_mem_append, digits_fit_iff hds, List.forall_mem_singleton]
    constructor
    · rintro ⟨⟨-, hlt⟩, -⟩
      omega
    · rintro ⟨hlt, -⟩
      have hlt : natOf ds < 2 ^ 63 := by omega
      refine ⟨⟨?_, hlt⟩, ?_⟩
      · rw [digitSteps, if_pos rfl]
        exact fun z hz => absurd hz List.not_mem_nil
      · rw [hwrap hlt]
        unfold FitsInt64
        omega

theorem readIntegerSteps_line {x : List UInt8} {v : Int} (h : IsNumber x v) (rest : List UInt8) :
    readIntegerSteps (x ++ cr :: lf :: rest) = integerSteps x := by
  have hlen : ¬ (x ++ cr :: lf :: rest).length < 2 := by
    rw [List.length_append, List.length_cons, List.length_cons]
    omega
  rw [readIntegerSteps, if_neg hlen, Committed.findStr, fastStrstr_line h.no_cr]
  exact congrArg integerSteps List.take_left

/-- The accumulator holds the absolute value, so the least `int64_t` is the one it has no room for. -/
theorem readsExactly_iff {bb : BipBuf} {v : Int} {suffix : List UInt8} (hlow : -2 ^ 63 ≤ v)
    (hhigh : v < 2 ^ 63) (hblock : bb.block = decimalInt v ++ crlf ++ suffix) :
    ReadsExactly bb v ↔ v ≠ -2 ^ 63 := by
  obtain ⟨hnumber, -⟩ := decimalInt_isInt64 hlow hhigh
  have hline : bb.block = decimalInt v ++ cr :: lf :: suffix := by
    rw [hblock, List.append_assoc]
    rfl
  have hfits := integerSteps_fit_iff hnumber
  rw [← readIntegerSteps_line hnumber suffix, ← hline] at hfits
  constructor
  · intro hread
    have := hfits.1 hread.fits
    omega
  · intro hne
    refine ⟨?_, hfits.2 ⟨by omega, hhigh⟩⟩
    rw [hline]
    exact redisReplyReadInteger_line hnumber hlow hhigh suffix

/-- The least number that is read so, behind a byte that has been taken. -/
theorem readsExactly_iff_least :
    let text : List UInt8 := [45, 57, 50, 50, 51, 51, 55, 50, 48, 51, 54, 56, 53, 52, 55, 55, 53, 56, 48, 55]
    let bb : BipBuf := { BipBuf.create (fun _ => 0) 32 with
      buffer := 58 :: text ++ crlf ++ List.replicate 41 43, aStart := 1, aEnd := 24 }
    ReadsExactly bb (-(2 ^ 63 - 1)) := by
  intro text bb
  have hblock : bb.block = decimalInt (-(2 ^ 63 - 1)) ++ crlf ++ [43] := by decide +kernel
  exact (readsExactly_iff (by decide) (by decide) hblock).2 (by decide)

/-- `9223372036854775808` is the accumulator's value before it is negated. -/
theorem not_readsExactly : ¬ ∀ (bb : BipBuf) (v : Int) (suffix : List UInt8), -2 ^ 63 ≤ v → v < 2 ^ 63 →
    bb.block = decimalInt v ++ crlf ++ suffix → ReadsExactly bb v := by
  intro h
  let text : List UInt8 := [45, 57, 50, 50, 51, 51, 55, 50, 48, 51, 54, 56, 53, 52, 55, 55, 53, 56, 48, 56]
  let bb : BipBuf := { BipBuf.create (fun _ => 0) 32 with
    buffer := 58 :: text ++ crlf ++ List.replicate 41 43, aStart := 1, aEnd := 23 }
  have hblock : bb.block = decimalInt (-2 ^ 63) ++ crlf ++ [] := by decide +kernel
  exact absurd (h bb (-2 ^ 63) [] (by decide) (by decide) hblock).fits (by decide +kernel)

end KjRedis.Reply
