import KjRedis.Reply.Tokens
import Mathlib.Algebra.Order.Ring.Int
import Mathlib.Data.List.Induction

/-! Lines that hold a number: their value, and the decimal text of a length. -/
namespace KjRedis.Reply

def isDigit (c : UInt8) : Bool := 48 ≤ c && c ≤ 57

def natOf (ds : List UInt8) : Nat := ds.foldl (fun n c => n * 10 + (c.toNat - 48)) 0

/-- `x` is an optional minus sign and one or more digits, of value `v`. -/
def IsNumber (x : List UInt8) (v : Int) : Prop :=
  ∃ neg : Bool, ∃ ds : List UInt8, ds ≠ [] ∧ (∀ c ∈ ds, isDigit c) ∧
    x = (if neg then minus :: ds else ds) ∧ v = if neg then -(natOf ds : Int) else natOf ds

theorem natOf_snoc (ds : List UInt8) (c : UInt8) :
    natOf (ds ++ [c]) = natOf ds * 10 + (c.toNat - 48) := by
  rw [natOf, List.foldl_append]
  rfl

theorem isDigit_cases {c : UInt8} (h : isDigit c) : 48 ≤ c.toNat ∧ c.toNat ≤ 57 := by
  rw [isDigit, Bool.and_eq_true, decide_eq_true_iff, decide_eq_true_iff, UInt8.le_iff_toNat_le,
    UInt8.le_iff_toNat_le] at h
  exact h

theorem isDigit_ne {c : UInt8} (h : isDigit c) : c ≠ minus ∧ c ≠ cr ∧ c ≠ lf := by
  refine ⟨?_, ?_, ?_⟩ <;> rintro rfl <;> exact absurd h (by decide)

/-- A digit enters the sum as its value, `char` being signed. -/
theorem digit_value {c : UInt8} (h : isDigit c) :
    c.toInt8.toInt - zeroChar.toInt8.toInt = ((c.toNat - 48 : Nat) : Int) := by
  have hc := isDigit_cases h
  have : c.toInt8.toInt = (c.toNat : Int).bmod (2 ^ 8) := by
    rw [← Int8.toInt_toBitVec, UInt8.toBitVec_toInt8, BitVec.toInt_eq_toNat_bmod]
    rfl
  rw [this, Int.bmod_eq_of_le (by omega) (by omega)]
  show (c.toNat : Int) - 48 = _
  omega

theorem readDigit_digit {c : UInt8} (h : isDigit c) (v m : Int) :
    readDigit (v, m) c = (wrapInt64 (v * 10 + ((c.toNat - 48 : Nat) : Int)), m) := by
  rw [readDigit, if_neg (isDigit_ne h).1, digit_value h]

theorem wrapInt64_of_range {w : Int} (hlow : -2 ^ 63 ≤ w) (hhigh : w < 2 ^ 63) : wrapInt64 w = w :=
  Int.bmod_eq_of_le (by omega) (by omega)

private theorem bmod_digit (a d : Int) (n : Nat) :
    (a.bmod n * 10 + d).bmod n = (a * 10 + d).bmod n := by
  rw [← Int.bmod_add_bmod, Int.bmod_mul_bmod, Int.bmod_add_bmod]

theorem foldl_readDigit {ds : List UInt8} (h : ∀ c ∈ ds, isDigit c) (m : Int) :
    ds.foldl readDigit (0, m) = (wrapInt64 (natOf ds), m) := by
  induction ds using List.reverseRecOn with
  | nil => rfl
  | append_singleton ds c ih =>
    rw [List.foldl_append, ih fun x hx => h x (List.mem_append_left _ hx), List.foldl_cons,
      List.foldl_nil, readDigit_digit (h c (by simp)), natOf_snoc]
    refine congrArg (fun w => (w, m)) ((bmod_digit _ _ _).trans ?_)
    rw [wrapInt64, Nat.cast_add, Nat.cast_mul]
    rfl

/-- `redis_reply_read_integer` reads a number in the range of `int64_t` as its value. -/
theorem toInteger_number {x : List UInt8} {v : Int} (h : IsNumber x v) (hlow : -2 ^ 63 ≤ v)
    (hhigh : v < 2 ^ 63) : toInteger x = v := by
  obtain ⟨neg, ds, -, hds, rfl, rfl⟩ := h
  cases neg with
  | false =>
    simp only [if_false, Bool.false_eq_true] at *
    rw [toInteger, foldl_readDigit hds]
    simp only [Int.mul_one]
    rw [wrapInt64_of_range hlow hhigh, wrapInt64_of_range hlow hhigh]
  | true =>
    simp only [if_true] at *
    rw [toInteger, List.foldl_cons, readDigit, if_pos rfl, foldl_readDigit hds]
    simp only
    rw [← wrapInt64_of_range hlow hhigh, wrapInt64, wrapInt64, wrapInt64, Int.bmod_mul_bmod]
    congr 1
    ring

theorem IsNumber.no_cr {x : List UInt8} {v : Int} (h : IsNumber x v) : cr ∉ x := by
  obtain ⟨neg, ds, -, hds, rfl, -⟩ := h
  intro hmem
  have hin : cr ∈ ds := by
    cases neg with
    | false => simpa using hmem
    | true => simpa [cr, minus] using hmem
  exact (isDigit_ne (hds cr hin)).2.1 rfl

/-- A number's line is found whole, at its own end. -/
theorem redisReplyReadInteger_line {x : List UInt8} {v : Int} (h : IsNumber x v)
    (hlow : -2 ^ 63 ≤ v) (hhigh : v < 2 ^ 63) (rest : List UInt8) :
    redisReplyReadInteger (x ++ cr :: lf :: rest) = some (v, x.length + 2) := by
  rw [redisReplyReadInteger_eq, fastStrstr_line h.no_cr, Option.map_some, List.take_left,
    toInteger_number h hlow hhigh]

/-- The reader over a number's line, where the envelope admits the line. -/
theorem run_number_line {env : Envelope} {depth : Nat} {kind : NumKind} {x : List UInt8} {v : Int}
    (h : IsNumber x v) (hlow : -2 ^ 63 ≤ v) (hhigh : v < 2 ^ 63)
    (hok : ∀ y, y <+: x ++ [cr, lf] → env.numOk kind y = true) (rest : List UInt8) :
    Part.run env depth (.num kind []) (x ++ cr :: lf :: rest) =
      match Part.ofNum kind v with
      | .part p => p.run env depth rest
      | .value w => .done w rest
      | .wild => .wild := by
  have hread := redisReplyReadInteger_line h hlow hhigh rest
  have hdrop : (x ++ cr :: lf :: rest).drop (x.length + 2) = rest := by
    rw [show x ++ cr :: lf :: rest = (x ++ [cr, lf]) ++ rest by simp]
    exact List.drop_left' (by simp)
  rcases @Part.run_num_closed env depth kind [] (x ++ cr :: lf :: rest) v _ rfl hread with ⟨y, hy, hlen, hbad, -⟩ | hrun
  · rw [List.nil_append] at hlen hbad
    have hpre : y <+: x ++ [cr, lf] := by
      rw [show x ++ cr :: lf :: rest = (x ++ [cr, lf]) ++ rest by simp] at hy
      exact List.prefix_of_prefix_length_le hy (List.prefix_append _ _) (by simpa using hlen)
    rw [hok y hpre] at hbad
    cases hbad
  · rw [List.nil_append, hdrop] at hrun
    exact hrun

def decimalAux : Nat → Nat → List UInt8 → List UInt8
  | 0, _, acc => acc
  | fuel + 1, n, acc =>
    let acc := UInt8.ofNat (48 + n % 10) :: acc
    if n / 10 = 0 then acc else decimalAux fuel (n / 10) acc

/-- `std::to_string` of an unsigned number. -/
def decimal (n : Nat) : List UInt8 := decimalAux (n + 1) n []

private theorem digit_ofNat {d : Nat} (h : d < 10) :
    isDigit (UInt8.ofNat (48 + d)) ∧ (UInt8.ofNat (48 + d)).toNat - 48 = d := by
  have hval : (UInt8.ofNat (48 + d)).toNat = 48 + d := by
    rw [UInt8.toNat_ofNat']
    omega
  refine ⟨?_, by omega⟩
  rw [isDigit, Bool.and_eq_true, decide_eq_true_iff, decide_eq_true_iff, UInt8.le_iff_toNat_le,
    UInt8.le_iff_toNat_le, hval]
  exact ⟨by show 48 ≤ _; omega, by show _ ≤ 57; omega⟩

theorem decimalAux_spec {fuel n : Nat} (h : n < fuel) (acc : List UInt8) :
    ∃ ds, decimalAux fuel n acc = ds ++ acc ∧ ds ≠ [] ∧ (∀ c ∈ ds, isDigit c) ∧ natOf ds = n := by
  induction fuel generalizing n acc with
  | zero => omega
  | succ fuel ih =>
    obtain ⟨hdigit, hval⟩ := digit_ofNat (Nat.mod_lt n (show 0 < 10 by omega))
    rw [decimalAux]
    by_cases hz : n / 10 = 0
    · refine ⟨[UInt8.ofNat (48 + n % 10)], ?_, by simp, by simpa using hdigit, ?_⟩
      · simp only [if_pos hz]
        rfl
      · show 0 * 10 + _ = n
        rw [hval]
        omega
    · simp only [if_neg hz]
      obtain ⟨ds, heq, -, hall, hnat⟩ := ih (show n / 10 < fuel by omega)
        (UInt8.ofNat (48 + n % 10) :: acc)
      refine ⟨ds ++ [UInt8.ofNat (48 + n % 10)], by rw [heq]; simp, by simp, ?_, ?_⟩
      · intro c hc
        rcases List.mem_append.1 hc with hc | hc
        · exact hall c hc
        · rw [List.mem_singleton.1 hc]
          exact hdigit
      · rw [natOf_snoc, hnat, hval]
        omega

theorem decimal_isNumber (n : Nat) : IsNumber (decimal n) n := by
  obtain ⟨ds, heq, hne, hall, hnat⟩ := decimalAux_spec (Nat.lt_succ_self n) []
  refine ⟨false, ds, hne, hall, ?_, ?_⟩
  · rw [decimal, heq, List.append_nil]
    rfl
  · rw [hnat]
    rfl

example : decimal 0 = [48] ∧ decimal 1207 = [49, 50, 48, 55] := by decide

end KjRedis.Reply
