import Mathlib.Data.List.Basic
import Mathlib.Data.Nat.Basic

/-! The part of `bip_buf` its readers see: the committed block, the bytes in
`[_a_start, _a_end)`. Committing appends at its end, decommitting drops a prefix. -/
namespace KjRedis

abbrev Committed := List UInt8

def cr : UInt8 := 13
def lf : UInt8 := 10
def crlf : List UInt8 := [cr, lf]

/-- A `char` is signed where this library is built, so a byte above 127 enters
the unsigned sum of `fast_strstr` sign-extended. -/
def charToUint (c : UInt8) : UInt32 := c.toInt8.toInt32.toUInt32

/-- The first pass of `fast_strstr`: both cursors advance together, summing the
difference of the characters and remembering whether they were all equal. -/
def strstrPrefix : List UInt8 → List UInt8 → UInt32 → Bool →
    List UInt8 × List UInt8 × UInt32 × Bool
  | h :: hs, n :: ns, sum, same =>
    strstrPrefix hs ns (sum + charToUint h - charToUint n) (same && h == n)
  | hs, ns, sum, same => (hs, ns, sum, same)

/-- The rolling pass: `sub` starts at `sub_start`, `rest` at `i_haystack`. A window
is accepted on a zero sum, its first character and all but its last character. -/
def strstrScan (needle : List UInt8) : List UInt8 → List UInt8 → Nat → UInt32 → Option Nat
  | s :: sub, c :: rest, i, sum =>
    let sum := sum - charToUint s + charToUint c
    if sum = 0 ∧ sub.head? = needle.head? ∧
        sub.take (needle.length - 1) = needle.take (needle.length - 1) then some (i + 1)
    else strstrScan needle sub rest (i + 1) sum
  | _, _, _, _ => none

/-- `fast_strstr`, returning the offset of the match in the haystack. The sum starts
from the first matched character, which the needle's first character never leaves. -/
def fastStrstr (haystack needle : List UInt8) : Option Nat :=
  match needle with
  | [] => some 0
  | first :: needle' =>
    match haystack.findIdx? (· == first) with
    | none => none
    | some p =>
      let window := haystack.drop p
      let (rest, left, sum, same) := strstrPrefix window.tail needle' (charToUint first) true
      if left ≠ [] then none
      else if same then some p
      else strstrScan needle window rest p sum

/-- A match of the rolling pass is decided by the bytes up to its end. -/
theorem strstrScan_take {needle sub rest : List UInt8} {i p : Nat} {sum : UInt32}
    (hlen : sub.length = rest.length + needle.length) (hpos : 0 < needle.length)
    (h : strstrScan needle sub rest i sum = some p) :
    ∃ k, k < rest.length ∧ p = i + k + 1 ∧ ∀ tail,
      strstrScan needle (sub.take (k + 1 + needle.length) ++ tail) (rest.take (k + 1) ++ tail) i sum
        = some p := by
  induction rest generalizing sub i sum with
  | nil => cases sub <;> simp [strstrScan] at h
  | cons c rest ih =>
    cases sub with
    | nil => simp [strstrScan] at h
    | cons s sub =>
      have hsub : sub.length = rest.length + needle.length := by
        simp only [List.length_cons] at hlen
        omega
      have hwindow : ∀ k tail, (sub.take (k + needle.length) ++ tail).head? = sub.head? ∧
          (sub.take (k + needle.length) ++ tail).take (needle.length - 1) =
            sub.take (needle.length - 1) := by
        intro k tail
        have hne : (sub.take (k + needle.length)).length = min (k + needle.length) sub.length :=
          List.length_take
        refine ⟨?_, ?_⟩
        · rw [List.head?_append_of_ne_nil _ (by rw [← List.length_pos_iff, hne]; omega),
            List.head?_take, if_neg (by omega)]
        · rw [List.take_append_of_le_length (by omega), List.take_take]
          congr 1
          omega
      simp only [strstrScan] at h
      split at h
      · next hmatch =>
        obtain rfl := Option.some.inj h
        refine ⟨0, by simp, by omega, fun tail => ?_⟩
        have hw := hwindow 0 tail
        rw [Nat.zero_add] at hw
        rw [Nat.zero_add, Nat.add_comm, List.take_succ_cons, List.cons_append, List.take_succ_cons,
          List.cons_append, strstrScan, hw.1, hw.2, if_pos hmatch]
      · next hmatch =>
        obtain ⟨k, hk, rfl, htake⟩ := ih hsub h
        refine ⟨k + 1, by simpa using hk, by omega, fun tail => ?_⟩
        have hw := hwindow (k + 1) tail
        rw [show k + 1 + 1 + needle.length = k + 1 + needle.length + 1 by omega,
          List.take_succ_cons, List.cons_append, List.take_succ_cons, List.cons_append,
          strstrScan, hw.1, hw.2, if_neg hmatch]
        exact htake tail

theorem fastStrstr_crlf (h : List UInt8) :
    fastStrstr h crlf =
      match h.findIdx? (· == cr) with
      | none => none
      | some p =>
        match h.drop p with
        | s :: b :: rest =>
          if b = lf then some p
          else strstrScan crlf (s :: b :: rest) rest p (charToUint cr + charToUint b - charToUint lf)
        | _ => none := by
  unfold fastStrstr crlf
  simp only
  cases h.findIdx? (· == cr) with
  | none => rfl
  | some p =>
    simp only
    generalize h.drop p = window
    rcases window with _ | ⟨s, _ | ⟨b, rest⟩⟩
    · rfl
    · rfl
    · by_cases hb : b = lf <;> simp [strstrPrefix, hb]

/-- Searching for CRLF is decided by the bytes up to the end of the match. -/
theorem fastStrstr_take {h : List UInt8} {p : Nat} (hp : fastStrstr h crlf = some p) :
    p + 2 ≤ h.length ∧ ∀ tail, fastStrstr (h.take (p + 2) ++ tail) crlf = some p := by
  rw [fastStrstr_crlf] at hp
  split at hp
  · cases hp
  · next q hq =>
    obtain ⟨hlt, hcr, hbefore⟩ := List.findIdx?_eq_some_iff_getElem.1 hq
    have hsplit : h = h.take q ++ h.drop q := (List.take_append_drop q h).symm
    split at hp
    case h_2 => cases hp
    next s b rest hdrop =>
    have hlen : h.length = q + 2 + rest.length := by
      have := congrArg List.length hdrop
      simp only [List.length_drop, List.length_cons] at this
      omega
    have hfind : ∀ n tail, q < n → (h.take n ++ tail).findIdx? (· == cr) = some q := by
      intro n tail hn
      rw [List.findIdx?_append, List.findIdx?_take, hq]
      simp [hn]
    have hdrop' : ∀ n tail, q < n → n ≤ h.length →
        (h.take n ++ tail).drop q = (s :: b :: rest).take (n - q) ++ tail := by
      intro n tail hn hnl
      rw [List.drop_append_of_le_length (by rw [List.length_take]; omega), List.drop_take, hdrop]
    split at hp
    · next hb =>
      obtain rfl := Option.some.inj hp
      refine ⟨by omega, fun tail => ?_⟩
      rw [fastStrstr_crlf, hfind _ _ (by omega)]
      simp only
      rw [hdrop' _ _ (by omega) (by omega), show q + 2 - q = 2 by omega]
      simp [hb]
    · next hb =>
      obtain ⟨k, hk, rfl, htake⟩ := strstrScan_take (by simp [crlf]) (by simp [crlf]) hp
      refine ⟨by omega, fun tail => ?_⟩
      rw [fastStrstr_crlf, hfind _ _ (by omega)]
      simp only
      rw [hdrop' _ _ (by omega) (by omega), show q + k + 1 + 2 - q = k + 1 + 2 by omega,
        List.take_succ_cons, List.take_succ_cons, List.cons_append, List.cons_append]
      simp only
      rw [if_neg hb]
      have := htake tail
      rwa [show crlf.length = 2 from rfl, List.take_succ_cons, List.take_succ_cons,
        List.cons_append, List.cons_append] at this

theorem fastStrstr_append {h : List UInt8} {p : Nat} (hp : fastStrstr h crlf = some p)
    (tail : List UInt8) : fastStrstr (h ++ tail) crlf = some p := by
  have := (fastStrstr_take hp).2 (h.drop (p + 2) ++ tail)
  rwa [← List.append_assoc, List.take_append_drop] at this

/-- A match that a byte completes ends at that byte. -/
theorem fastStrstr_snoc {h : List UInt8} {b : UInt8} {p : Nat} (hnone : fastStrstr h crlf = none)
    (hp : fastStrstr (h ++ [b]) crlf = some p) : p + 2 = h.length + 1 := by
  obtain ⟨hlen, htake⟩ := fastStrstr_take hp
  rw [List.length_append, List.length_singleton] at hlen
  by_contra hne
  have hle : p + 2 ≤ h.length := by omega
  have hcontra := htake (h.drop (p + 2))
  rw [List.take_append_of_le_length hle, List.take_append_drop, hnone] at hcontra
  cases hcontra

theorem findIdx?_cr_none {x : List UInt8} (hx : cr ∉ x) : x.findIdx? (· == cr) = none := by
  refine List.findIdx?_eq_none_iff.2 fun c hc => ?_
  rw [beq_eq_false_iff_ne]
  rintro rfl
  exact hx hc

theorem findIdx?_cr_append {x : List UInt8} (hx : cr ∉ x) (tail : List UInt8) :
    (x ++ cr :: tail).findIdx? (· == cr) = some x.length := by
  rw [List.findIdx?_append, findIdx?_cr_none hx, List.findIdx?_cons]
  simp

theorem fastStrstr_line {x : List UInt8} (hx : cr ∉ x) (tail : List UInt8) :
    fastStrstr (x ++ cr :: lf :: tail) crlf = some x.length := by
  rw [fastStrstr_crlf, findIdx?_cr_append hx]
  simp

theorem fastStrstr_no_cr {x : List UInt8} (hx : cr ∉ x) : fastStrstr x crlf = none := by
  rw [fastStrstr_crlf, findIdx?_cr_none hx]

theorem fastStrstr_cr_last {x : List UInt8} (hx : cr ∉ x) :
    fastStrstr (x ++ [cr]) crlf = none := by
  rw [fastStrstr_crlf, findIdx?_cr_append hx]
  simp

namespace Committed

def commit (bb : Committed) (chunk : List UInt8) : Committed := bb ++ chunk

def decommit (bb : Committed) (size : Nat) : Committed :=
  bb.drop (if bb.length ≤ size then bb.length else size)

def findStr (bb : Committed) (str : List UInt8) : Option Nat := fastStrstr bb str

@[simp] theorem decommit_eq_drop (bb : Committed) (size : Nat) : bb.decommit size = bb.drop size := by
  unfold decommit
  split
  · next h => rw [List.drop_eq_nil_of_le h, List.drop_length]
  · rfl

end Committed

end KjRedis
