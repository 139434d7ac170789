import KjRedis.Rdb.Delivery
import KjRedis.Rdb.Numbers

/-! The expire time of a record: its bytes are little-endian, and are taken in the other order. -/
namespace KjRedis.Rdb

open Resumption

section Record

variable (cb : List RdbObject → Bool) {rp : RdbParser} {r : RdbRecord} {t : Int}

/-- However the record is cut, the callback has been given one object for it when its last byte has
come, and that object expires at `t`. -/
def ExpiresAt (rp : RdbParser) (r : RdbRecord) (t : Int) : Prop :=
  ∀ (chunks : List (List UInt8)) (last : List UInt8), last ≠ [] → chunks.flatten ++ last = r.encode →
    ∃ codes rp' left, Feeds (rdbParseObjectOnce cb) rp [] (chunks ++ [last]) codes rp' left ∧
      ∃ o, rp'.walked = rp.walked ++ [o] ∧ o.expire = t

/-- However it is cut, the time is that of its object. -/
theorem expiresAt_iff_object (hplain : ¬ r.IsAux) (h : Awaits rp) (hstate : rp.state = .body) :
    ExpiresAt cb rp r t ↔ r.object.expire = t := by
  obtain ⟨rc, rp', hrun, hwalked⟩ := record_whole cb hplain h hstate
  constructor
  · intro hexpires
    obtain ⟨codes, rp'', left, hfeeds, o, ho, rfl⟩ :=
      hexpires [] r.encode (List.cons_ne_nil _ _) rfl
    cases hfeeds with
    | cons hfirst hnil =>
      cases hnil
      have heq : rp' = rp'' := congrArg (fun out => out.2.1) (hrun.unique hfirst)
      rw [← heq, hwalked] at ho
      rw [List.singleton_inj.1 (List.append_cancel_left ho)]
  · intro hobject chunks last hlast hcut
    rw [← hcut] at hrun
    exact ⟨_, rp', [], (lawful_rdbParseObjectOnce cb).feeds_last h.stacked hlast hrun, r.object,
      hwalked, hobject⟩

end Record

section Numbers

variable {t m v : Nat}

theorem beNat_append (as bs : List UInt8) :
    beNat (as ++ bs) = beNat as * 256 ^ bs.length + beNat bs := by
  induction bs using List.reverseRecOn with
  | nil => simp [beNat]
  | append_singleton bs b ih =>
    have hsnoc : ∀ cs : List UInt8, beNat (cs ++ [b]) = beNat cs * 256 + b.toNat := by
      intro cs
      rw [beNat, List.foldl_append]
      rfl
    rw [← List.append_assoc, hsnoc, hsnoc, ih, List.length_append, Nat.pow_add, Nat.add_mul,
      Nat.mul_assoc, Nat.add_assoc]
    rfl

/-- The four bytes behind the first four, taken in the other order, are its low half. -/
theorem beNat_leBytes_mod : beNat (leBytes 8 v) % 2 ^ 32 = beNat (leBytes 4 (v / 2 ^ 32)) := by
  have hhigh : v / 256 / 256 / 256 / 256 = v / 2 ^ 32 := by omega
  have hsplit : leBytes 8 v = leBytes 4 v ++ leBytes 4 (v / 2 ^ 32) := by
    rw [← hhigh]
    rfl
  have hlt : beNat (leBytes 4 (v / 2 ^ 32)) < 256 ^ (leBytes 4 (v / 2 ^ 32)).length := beNat_lt _
  rw [leBytes_length] at hlt
  rw [hsplit, beNat_append, leBytes_length]
  omega

theorem signed_eq_iff {x : Nat} (hx : x < 2 ^ 32) (ht : t < 2 ^ 31) : signed 32 x = t ↔ x = t := by
  unfold signed
  split
  · exact Int.natCast_inj
  · next hbig =>
    constructor
    · intro heq
      omega
    · rintro rfl
      exact absurd ht hbig

/-- The values that the milliseconds can be read as, for a given high half, are no palindromes. -/
private theorem no_palindrome : ∀ high < 512, ∀ j < 3,
    let t := (beNat (leBytes 4 high) + 2 ^ 32 * (high + j - 1)) / 1000
    beNat (leBytes 4 t) = t → t = 0 := by
  decide +kernel

/-- Read in the other order, the seconds are right where their bytes are a palindrome, and the
milliseconds are not right as well there, but for the time 0. -/
theorem zero_of_reversed (ht : t < 2 ^ 31) (hm : m < 1000) (hseconds : beNat (leBytes 4 t) = t)
    (hms : beNat (leBytes 8 (1000 * t + m)) / 1000 % 2 ^ 32 = t) : t = 0 := by
  have hlow := @beNat_leBytes_mod (1000 * t + m)
  have hhigh : (1000 * t + m) / 2 ^ 32 < 512 := by omega
  set high := (1000 * t + m) / 2 ^ 32 with hdef
  set low := beNat (leBytes 4 high) with hlowdef
  set r := beNat (leBytes 8 (1000 * t + m)) with hr
  -- both 1000 * t + m and 1000 * t + r % 1000 have the high half `high`, or one next to it
  obtain ⟨k, hk, hnear⟩ : ∃ k, 1000 * t + r % 1000 = low + 2 ^ 32 * k ∧
      (k + 1 = high ∨ k = high ∨ k = high + 1) := by
    refine ⟨(1000 * t + r % 1000) / 2 ^ 32, ?_, ?_⟩
    · omega
    · omega
  have hexact : t = (low + 2 ^ 32 * k) / 1000 := by omega
  have hpal : ∀ j < 3, k = high + j - 1 → t = 0 := by
    intro j hj hkj
    have hno := no_palindrome high hhigh j hj
    rw [← hlowdef, ← hkj, ← hexact] at hno
    exact hno hseconds
  rcases hnear with hk | hk | hk
  · exact hpal 0 (by omega) (by omega)
  · exact hpal 1 (by omega) (by omega)
  · exact hpal 2 (by omega) (by omega)

/-- The parts of the first second that are read as less than a second. -/
private theorem zero_parts : ∀ m < 1000, beNat (leBytes 8 m) / 1000 % 2 ^ 32 = 0 ↔
    m ∈ [0, 125, 250, 360, 485, 595, 720, 830, 955] := by
  decide +kernel

end Numbers

/-- The record with a time in seconds. -/
def secondsRecord (t : Nat) : RdbRecord := .expire (leBytes 4 t) (leBytes_length 4 t)

/-- The record with a time in milliseconds. -/
def millisecondsRecord (v : Nat) : RdbRecord := .expireMs (leBytes 8 v) (leBytes_length 8 v)

section Forms

variable (cb : List RdbObject → Bool) {rp : RdbParser} {t m : Nat}

theorem seconds_iff (h : Awaits rp) (hstate : rp.state = .body) (ht : t < 2 ^ 31) :
    ExpiresAt cb rp (secondsRecord t) t ↔ beNat (leBytes 4 t) = t := by
  have hlt : beNat (leBytes 4 t) < 2 ^ 32 := by
    have hfour := beNat_lt (leBytes 4 t)
    rw [leBytes_length] at hfour
    omega
  have hplain : ¬ (secondsRecord t).IsAux := fun haux => haux
  rw [expiresAt_iff_object cb hplain h hstate]
  show signed 32 (beNat (leBytes 4 t) % 2 ^ 32) = t ↔ _
  rw [signed_eq_iff (Nat.mod_lt _ (by decide)) ht, Nat.mod_eq_of_lt hlt]

theorem milliseconds_iff (h : Awaits rp) (hstate : rp.state = .body) (ht : t < 2 ^ 31) :
    ExpiresAt cb rp (millisecondsRecord (1000 * t + m)) t ↔
      beNat (leBytes 8 (1000 * t + m)) / 1000 % 2 ^ 32 = t := by
  have hplain : ¬ (millisecondsRecord (1000 * t + m)).IsAux := fun haux => haux
  rw [expiresAt_iff_object cb hplain h hstate]
  exact signed_eq_iff (Nat.mod_lt _ (by decide)) ht

/-- Of a time both forms reach the callback as it is only where it is 0, with one of nine parts of
a second. -/
theorem bothExpire_iff (h : Awaits rp) (hstate : rp.state = .body) (ht : t < 2 ^ 31) (hm : m < 1000) :
    ExpiresAt cb rp (secondsRecord t) t ∧ ExpiresAt cb rp (millisecondsRecord (1000 * t + m)) t ↔
      t = 0 ∧ m ∈ [0, 125, 250, 360, 485, 595, 720, 830, 955] := by
  rw [seconds_iff cb h hstate ht, milliseconds_iff cb h hstate ht]
  constructor
  · rintro ⟨hseconds, hms⟩
    obtain rfl := zero_of_reversed ht hm hseconds hms
    rw [Nat.mul_zero, Nat.zero_add] at hms
    exact ⟨rfl, (zero_parts m hm).1 hms⟩
  · rintro ⟨rfl, hpart⟩
    rw [Nat.mul_zero, Nat.zero_add]
    exact ⟨rfl, (zero_parts m hm).2 hpart⟩

/-- The time 0 and an eighth of a second. -/
theorem bothExpire_iff_eighth :
    let rp := { createRdbParser with state := .body }
    ExpiresAt (fun _ => true) rp (secondsRecord 0) (0 : Nat) ∧
      ExpiresAt (fun _ => true) rp (millisecondsRecord (1000 * 0 + 125)) (0 : Nat) :=
  (bothExpire_iff (fun _ => true) ⟨rfl, Or.inl rfl⟩ rfl (by decide) (by decide)).2 (by decide)

/-- The time 1 is read as 2^24 seconds. -/
theorem not_bothExpire_one :
    let rp := { createRdbParser with state := .body }
    ExpiresAt (fun _ => true) rp (secondsRecord 1) 16777216 ∧
      ¬ ExpiresAt (fun _ => true) rp (secondsRecord 1) 1 := by
  intro rp
  have hawaits : Awaits rp := ⟨rfl, Or.inl rfl⟩
  have hplain : ¬ (secondsRecord 1).IsAux := fun haux => haux
  have hobject : ∀ t : Int, ExpiresAt (fun _ => true) rp (secondsRecord 1) t ↔
      (secondsRecord 1).object.expire = t :=
    fun t => expiresAt_iff_object (fun _ => true) hplain hawaits rfl
  rw [hobject, hobject]
  decide

end Forms

end KjRedis.Rdb
