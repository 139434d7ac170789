import KjRedis.Reply.Nesting
import KjRedis.Rdb.Object

/-! Numbers of a fixed width in bytes, in both orders, and in two's complement. -/
namespace KjRedis.Rdb

variable {n v : Nat} {bs : List UInt8}

/-- The low `n` bytes of a number, the lowest first. -/
def leBytes : Nat → Nat → List UInt8
  | 0, _ => []
  | n + 1, v => UInt8.ofNat v :: leBytes n (v / 256)

def beBytes (n v : Nat) : List UInt8 := (leBytes n v).reverse

@[simp] theorem leBytes_length (n v : Nat) : (leBytes n v).length = n := by
  induction n generalizing v with
  | zero => rfl
  | succ n ih => rw [leBytes, List.length_cons, ih]

@[simp] theorem beBytes_length (n v : Nat) : (beBytes n v).length = n := by
  rw [beBytes, List.length_reverse, leBytes_length]

theorem leNat_nil : leNat [] = 0 := rfl

theorem leNat_cons (b : UInt8) (bs : List UInt8) : leNat (b :: bs) = b.toNat + 256 * leNat bs := by
  rw [leNat, leNat, List.reverse_cons, beNat, List.foldl_append]
  show beNat bs.reverse * 256 + b.toNat = _
  omega

theorem leNat_lt (bs : List UInt8) : leNat bs < 256 ^ bs.length := by
  induction bs with
  | nil => exact Nat.one_pos
  | cons b bs ih =>
    have hb := b.toNat_lt
    rw [leNat_cons, List.length_cons, Nat.pow_succ]
    omega

theorem leNat_leBytes (hv : v < 256 ^ n) : leNat (leBytes n v) = v := by
  induction n generalizing v with
  | zero =>
    rw [Nat.pow_zero] at hv
    rw [leBytes, leNat_nil]
    omega
  | succ n ih =>
    rw [Nat.pow_succ] at hv
    rw [leBytes, leNat_cons, ih (by omega), UInt8.toNat_ofNat']
    omega

theorem leBytes_leNat (bs : List UInt8) : leBytes bs.length (leNat bs) = bs := by
  induction bs with
  | nil => rfl
  | cons b bs ih =>
    have hb := b.toNat_lt
    have hhead : UInt8.ofNat (b.toNat + 256 * leNat bs) = b := by
      apply UInt8.toNat.inj
      rw [UInt8.toNat_ofNat']
      omega
    have htail : (b.toNat + 256 * leNat bs) / 256 = leNat bs := by omega
    rw [List.length_cons, leBytes, leNat_cons, hhead, htail, ih]

theorem beNat_reverse (bs : List UInt8) : beNat bs.reverse = leNat bs := rfl

theorem beNat_lt (bs : List UInt8) : beNat bs < 256 ^ bs.length := by
  rw [← List.length_reverse, ← List.reverse_reverse bs, beNat_reverse, List.reverse_reverse]
  exact leNat_lt bs.reverse

theorem beNat_beBytes (hv : v < 256 ^ n) : beNat (beBytes n v) = v := leNat_leBytes hv

/-- The numbers of `n` bits. -/
def IsSigned (n : Nat) (v : Int) : Prop := -2 ^ (n - 1) ≤ v ∧ v < 2 ^ (n - 1)

instance (n : Nat) (v : Int) : Decidable (IsSigned n v) :=
  inferInstanceAs (Decidable (-2 ^ (n - 1) ≤ v ∧ v < 2 ^ (n - 1)))

/-- An `n`-bit number in two's complement. -/
def unsigned (n : Nat) (v : Int) : Nat := (v % 2 ^ n).toNat

theorem unsigned_lt (n : Nat) (v : Int) : unsigned n v < 2 ^ n := by
  have hpos : (0 : Int) < 2 ^ n := by positivity
  have hlt := Int.emod_lt_of_pos v hpos
  have hnonneg := Int.emod_nonneg v hpos.ne'
  rw [unsigned, ← Int.ofNat_lt, Int.toNat_of_nonneg hnonneg]
  exact_mod_cast hlt

theorem signed_unsigned {v : Int} (hn : 0 < n) (hv : IsSigned n v) : signed n (unsigned n v) = v := by
  obtain ⟨m, rfl⟩ := Nat.exists_eq_succ_of_ne_zero hn.ne'
  rw [IsSigned, Nat.succ_sub_one] at hv
  have hpos : (0 : Int) < 2 ^ m := by positivity
  have hval : ((unsigned (m + 1) v : Nat) : Int) = v % (2 ^ m * 2) := by
    rw [unsigned, pow_succ]
    exact Int.toNat_of_nonneg (Int.emod_nonneg v (by omega))
  have hcast : (2 ^ m : Nat) = ((2 : Int) ^ m) := by exact_mod_cast rfl
  rw [signed, Nat.succ_sub_one, pow_succ]
  by_cases hneg : v < 0
  · have hmod : v % (2 ^ m * 2) = v + 2 ^ m * 2 := by
      rw [← Int.add_emod_right, Int.emod_eq_of_lt (by omega) (by omega)]
    rw [if_neg (by rw [← Int.ofNat_lt, hval, hmod, hcast]; omega), hval, hmod]
    omega
  · have hmod : v % (2 ^ m * 2) = v := Int.emod_eq_of_lt (by omega) (by omega)
    rw [if_pos (by rw [← Int.ofNat_lt, hval, hmod, hcast]; omega), hval, hmod]

/-- The upper two. -/
theorem kind_toNat (p : UInt8) : ((p &&& 0xc0) >>> 6).toNat = p.toNat / 64 := by
  have hlt := p.toNat_lt
  rw [UInt8.toNat_shiftRight, UInt8.toNat_and]
  show (p.toNat &&& 192) >>> 6 = _
  rw [Nat.shiftRight_and_distrib, show 192 >>> 6 = 2 ^ 2 - 1 from rfl, Nat.and_two_pow_sub_one_eq_mod,
    Nat.shiftRight_eq_div_pow]
  omega

/-- The lower six. -/
theorem low_toNat (p : UInt8) : (p &&& 0x3f).toNat = p.toNat % 64 := by
  rw [UInt8.toNat_and]
  exact Nat.and_two_pow_sub_one_eq_mod p.toNat 6

/-- The lower four. -/
theorem nibble_toNat (p : UInt8) : (p &&& 0x0f).toNat = p.toNat % 16 := by
  rw [UInt8.toNat_and]
  exact Nat.and_two_pow_sub_one_eq_mod p.toNat 4

end KjRedis.Rdb
