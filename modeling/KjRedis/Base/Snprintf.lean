import KjRedis.Base.FastMemcpy
import Mathlib.Data.Int.Order.Lemmas
import Mathlib.Data.List.TakeWhile

/-! `o_vsnprintf` in its optimised states: the characters between directives, and the
directives it prints without the general formatter. -/
namespace KjRedis.Snprintf

open Memory FastMemcpy

/-- An argument, a string by its bytes before the null. -/
inductive Arg where
  | int (v : Int)
  | str (bytes : List UInt8)
  deriving DecidableEq, Repr

/-- `outside` is a read or write outside of `str` and `scratch_buffer`, `table` a read
outside of `atoi_tab`. -/
inductive Fault where
  | outside
  | table
  | argument
  deriving DecidableEq, Repr

/-- `str` with its `size`, where `scratch_buffer` is, and the bits of a `long int`. -/
structure Buffers where
  str : Nat
  size : Nat
  scratch : Nat
  longBits : Nat

/-- `atoi_tab`: the three digits of each number below 1000, and a null. -/
def atoiTab (i : Int) : Option UInt8 :=
  if 0 ≤ i ∧ i < 4000 then
    let n := i.toNat / 4
    match i.toNat % 4 with
    | 0 => some (UInt8.ofNat (48 + n / 100))
    | 1 => some (UInt8.ofNat (48 + n / 10 % 10))
    | 2 => some (UInt8.ofNat (48 + n % 10))
    | _ => some 0
  else none

/-- The three characters at `atoi_tab + (i << 2)`. -/
def digitGroup (i : Int) : Option (List UInt8) :=
  match atoiTab (4 * i), atoiTab (4 * i + 1), atoiTab (4 * i + 2) with
  | some c₀, some c₁, some c₂ => some [c₀, c₁, c₂]
  | _, _, _ => none

/-- The directives that print an integer: its type, and the characters after the first that
`format` is moved over. -/
structure IntConv where
  bits : Nat
  signed : Bool
  skip : Nat
  deriving DecidableEq, Repr

/-- `va_arg` of the type. -/
def IntConv.take (c : IntConv) (v : Int) : Int :=
  if c.signed then v.bmod (2 ^ c.bits) else v % 2 ^ c.bits

/-- `-v1`, which leaves the least value as it is. -/
def IntConv.neg (c : IntConv) (v : Int) : Int := (-v).bmod (2 ^ c.bits)

def isSignedConv (ch : UInt8) : Bool := ch = 'd'.toUInt8 ∨ ch = 'i'.toUInt8

/-- The cases `'d'`, `'i'`, `'u'` and `'l'`. -/
def intConv (longBits : Nat) (ch : UInt8) (format : List UInt8) : Option IntConv :=
  if isSignedConv ch then some ⟨32, true, 0⟩
  else if ch = 'u'.toUInt8 then some ⟨32, false, 0⟩
  else if ch = 'l'.toUInt8 then
    match format with
    | [] => none
    | c :: format =>
      if isSignedConv c then some ⟨longBits, true, 1⟩
      else if c = 'u'.toUInt8 then some ⟨longBits, false, 1⟩
      else if c = 'l'.toUInt8 then
        match format with
        | [] => none
        | c :: _ =>
          if isSignedConv c then some ⟨64, true, 2⟩
          else if c = 'u'.toUInt8 then some ⟨64, false, 2⟩
          else none
      else none
  else none

def isFlag (ch : UInt8) : Bool := ch ∈ ['-', '+', ' ', '#', '0', '\''].map Char.toUInt8

/-- A quotient that is positive is that of a natural number. -/
theorem tdiv_thousand {v : Int} (h : 0 < v.tdiv 1000) : ∃ n : Nat, v = n ∧ v.tdiv 1000 = (n / 1000 : Nat) := by
  cases v with
  | ofNat n => exact ⟨n, rfl, rfl⟩
  | negSucc n =>
    have hneg : (Int.negSucc n).tdiv 1000 = -((n + 1) / 1000 : Nat) := rfl
    omega

section Printing

variable (b : Buffers)

def store (mem : Mem) (len : Nat) (ch : UInt8) : Except Fault Mem :=
  if len < b.size then .ok (write mem (b.str + len) [ch]) else .error .outside

/-- `OUTCHAR`. -/
def outchar (mem : Mem) (len : Nat) (ch : UInt8) : Except Fault (Mem × Nat) :=
  if len + 1 < b.size then (store b mem len ch).map fun mem => (mem, len + 1)
  else .ok (mem, len + 1)

/-- The loop over groups of three digits, the lowest group first; `s` is where its last
digit goes. -/
def toChars (mem : Mem) (s : Nat) (v1 : Int) : Except Fault (Mem × Nat) :=
  let v2 := v1.tdiv 1000
  match digitGroup (v1 - 1000 * v2) with
  | none => .error .table
  | some ds =>
    if b.scratch + 2 ≤ s ∧ s < b.scratch + 32 then
      if 0 < v2 then toChars (write mem (s - 2) ds) (s - 3) v2
      else .ok (write mem (s - 2) ds, s - 3)
    else .error .outside
termination_by v1.toNat
decreasing_by
  obtain ⟨n, hv, hdiv⟩ := tdiv_thousand (by assumption)
  omega

/-- `while ('0' == *++s);`. -/
def skipZeros (mem : Mem) (s : Nat) : Except Fault Nat :=
  if s + 1 < b.scratch + 32 then
    if mem (s + 1) = '0'.toUInt8 then skipZeros mem (s + 1) else .ok (s + 1)
  else .error .outside
termination_by b.scratch + 32 - s

/-- What follows the sign of an integer: its digits, or as many as there is room for. -/
def printDigits (mem : Mem) (len : Nat) (v1 : Int) : Except Fault (Mem × Nat) := do
  let (mem, s) ← toChars b mem (b.scratch + 31) v1
  let s ← skipZeros b mem s
  let n := b.scratch + 32 - s
  let n := if len + n < b.size then n else b.size - len
  if len + n ≤ b.size ∧ s + n ≤ b.scratch + 32 then
    match fastMemcpy (lent (b.str + len) s n) mem (b.str + len) s n with
    | some mem => .ok (mem, len + n)
    | none => .error .outside
  else .error .outside

/-- A value other than zero. -/
def printInt (c : IntConv) (mem : Mem) (len : Nat) (v1 : Int) : Except Fault (Mem × Nat) :=
  if v1 < 0 then do
    let mem ← store b mem len '-'.toUInt8
    printDigits b mem (len + 1) (c.neg v1)
  else printDigits b mem len v1

def printStr (mem : Mem) (len : Nat) : List UInt8 → Except Fault (Mem × Nat)
  | [] => .ok (mem, len)
  | v :: vs =>
    if len + 1 < b.size then do
      let mem ← store b mem len v
      printStr mem (len + 1) vs
    else .ok (mem, len)

/-- The case `'N'`. -/
def printN (mem : Mem) (len : Nat) (v1 : Int) : Except Fault (Mem × Nat) :=
  if len + 3 < b.size then
    match digitGroup (v1 % 2 ^ 30) with
    | some ds => printStr b mem len ds
    | none => .error .table
  else .ok (mem, len)

/-- Where the loop of `o_vsnprintf` ends: at `over`, or in a state of the general
formatter. -/
inductive Stop where
  | done (mem : Mem) (len : Nat)
  | general

/-- The loop, in `PRINT_S_FLAGS` where `flags` is true and else in `PRINT_S_DEFAULT`. A zero
is printed without a move over the rest of its directive. -/
def run (flags : Bool) (format : List UInt8) (args : List Arg) (mem : Mem) (len : Nat) :
    Except Fault Stop :=
  match flags, format with
  | _, [] => .ok (.done mem len)
  | false, ch :: format =>
    if ch = '%'.toUInt8 then run true format args mem len
    else do
      let (mem, len) ← outchar b mem len ch
      run false format args mem len
  | true, ch :: format =>
    if isFlag ch then run true format args mem len
    else if ch = 's'.toUInt8 then
      match args with
      | .str vs :: args => do
        let (mem, len) ← printStr b mem len vs
        run false format args mem len
      | _ => .error .argument
    else if ch = 'c'.toUInt8 then
      match args with
      | .int v :: args => do
        let (mem, len) ← printStr b mem len [UInt8.ofInt v]
        run false format args mem len
      | _ => .error .argument
    else if ch = 'N'.toUInt8 then
      match args with
      | .int v :: args => do
        let (mem, len) ← printN b mem len v
        run false format args mem len
      | _ => .error .argument
    else
      match intConv b.longBits ch format, args with
      | none, _ => .ok .general
      | some c, .int v :: args =>
        let v1 := c.take v
        if b.size ≤ len + 1 then .ok (.done mem len)
        else if v1 = 0 then do
          let mem ← store b mem len '0'.toUInt8
          run false format args mem (len + 1)
        else do
          let (mem, len) ← printInt b c mem len v1
          run false (format.drop c.skip) args mem len
      | some _, _ => .error .argument
termination_by format.length
decreasing_by all_goals (simp only [List.length_drop, List.length_cons]; omega)

/-- What follows `over`: the null, and the value returned. -/
def finish (mem : Mem) (len : Nat) : Except Fault (Mem × Int) :=
  (store b mem (if len < b.size then len else b.size - 1) 0).map fun mem =>
    (mem, if 2 ^ 31 - 1 ≤ len then -1 else len)

/-- `none` where the general formatter is reached. -/
def oVsnprintf (format : List UInt8) (args : List Arg) (mem : Mem) :
    Except Fault (Option (Mem × Int)) :=
  if b.str = 0 ∨ b.size = 0 then .ok (some (mem, 0))
  else do
    match ← run b false format args mem 0 with
    | .done mem len => (finish b mem len).map some
    | .general => .ok none

end Printing

/-- The three digits of a number below 1000. -/
def group (n : Nat) : List UInt8 :=
  [UInt8.ofNat (48 + n / 100), UInt8.ofNat (48 + n / 10 % 10), UInt8.ofNat (48 + n % 10)]

/-- The groups as they stand in `scratch_buffer` in the end. -/
def groups (v : Nat) : List UInt8 :=
  if v < 1000 then group v else groups (v / 1000) ++ group (v % 1000)

def isZero (c : UInt8) : Bool := c = '0'.toUInt8

/-- What is left of them without the zeros in front. -/
def digits (v : Nat) : List UInt8 := (groups v).dropWhile isZero

variable {b : Buffers} {mem mem' : Mem} {s s' v k n len : Nat} {xs : List UInt8} {c : IntConv}

theorem digitGroup_natCast (h : n < 1000) : digitGroup n = some (group n) := by
  have h₀ : atoiTab (4 * n) = some (UInt8.ofNat (48 + n / 100)) := by
    unfold atoiTab
    rw [if_pos (by omega), show (4 * (n : Int)).toNat = 4 * n by omega, Nat.mul_div_cancel_left n (by decide),
      Nat.mul_mod_right]
    rfl
  have h₁ : atoiTab (4 * n + 1) = some (UInt8.ofNat (48 + n / 10 % 10)) := by
    unfold atoiTab
    rw [if_pos (by omega), show (4 * (n : Int) + 1).toNat = 4 * n + 1 by omega,
      show (4 * n + 1) / 4 = n by omega, show (4 * n + 1) % 4 = 1 by omega]
    rfl
  have h₂ : atoiTab (4 * n + 2) = some (UInt8.ofNat (48 + n % 10)) := by
    unfold atoiTab
    rw [if_pos (by omega), show (4 * (n : Int) + 2).toNat = 4 * n + 2 by omega,
      show (4 * n + 2) / 4 = n by omega, show (4 * n + 2) % 4 = 2 by omega]
    rfl
  unfold digitGroup
  rw [h₀, h₁, h₂, group]

/-- What the table holds in front of its beginning is not its own. -/
theorem digitGroup_neg {i : Int} (h : i < 0) : digitGroup i = none := by
  unfold digitGroup atoiTab
  rw [if_neg (by omega)]

theorem length_groups : ∀ {k v : Nat}, v < 1000 ^ (k + 1) → (groups v).length ≤ 3 * (k + 1) := by
  intro k
  induction k with
  | zero =>
    intro v h
    rw [groups, if_pos (by simpa using h)]
    exact Nat.le_refl 3
  | succ k ih =>
    intro v h
    rw [groups]
    split
    · simp [group]
    · have hdiv : v / 1000 < 1000 ^ (k + 1) := Nat.div_lt_of_lt_mul (by rwa [Nat.pow_succ'] at h)
      have := ih hdiv
      simp only [List.length_append, group, List.length_cons, List.length_nil]
      omega

/-- The part of `scratch_buffer` that `xs` fills, up to `s`. -/
structure Filled (mem : Mem) (s' s : Nat) (xs : List UInt8) : Prop where
  length : s' + xs.length = s
  text : Memory.read mem (s' + 1) xs.length = xs

theorem read_append {a m : Nat} :
    Memory.read mem a (m + n) = Memory.read mem a m ++ Memory.read mem (a + m) n := by
  unfold Memory.read
  rw [List.range_add, List.map_append, List.map_map]
  congr 1
  exact List.map_congr_left fun i _ => by rw [Function.comp_apply, Nat.add_assoc]

theorem read_congr {a : Nat} (h : ∀ x, a ≤ x → x < a + n → mem x = mem' x) :
    Memory.read mem a n = Memory.read mem' a n := by
  unfold Memory.read
  refine List.map_congr_left fun i hi => h _ (Nat.le_add_right a i) ?_
  exact Nat.add_lt_add_left (List.mem_range.1 hi) a

theorem toChars_spec (hs : b.scratch + (groups v).length ≤ s) (hs' : s < b.scratch + 32) :
    ∃ mem' s', toChars b mem s v = .ok (mem', s') ∧ Filled mem' s' s (groups v) ∧
      ∀ x, x ≤ s' ∨ s < x → mem' x = mem x := by
  induction v using Nat.strongRecOn generalizing mem s with
  | ind v ih =>
    have hdiv : (v : Int).tdiv 1000 = (v / 1000 : Nat) := rfl
    have hmod : (v : Int) - 1000 * (v / 1000 : Nat) = (v % 1000 : Nat) := by omega
    have hgroup := digitGroup_natCast (Nat.mod_lt v (show 0 < 1000 by decide))
    have hlen : (group (v % 1000)).length = 3 := rfl
    have hwrite : Memory.read (write mem (s - 2) (group (v % 1000))) (s - 2) 3 = group (v % 1000) :=
      read_write_self
    rw [toChars]
    simp only [hdiv, hmod, hgroup]
    rw [groups] at hs ⊢
    by_cases hv : v < 1000
    · rw [if_pos hv] at hs ⊢
      rw [Nat.mod_eq_of_lt hv] at hwrite ⊢
      change b.scratch + 3 ≤ s at hs
      rw [if_pos (by omega), if_neg (by omega)]
      refine ⟨_, _, rfl, ⟨?_, ?_⟩, fun x hx => write_apart (by rw [show (group v).length = 3 from rfl]; omega)⟩
      · change s - 3 + 3 = s
        omega
      · rw [show s - 3 + 1 = s - 2 by omega]
        exact hwrite
    · rw [if_neg hv] at hs ⊢
      rw [List.length_append, hlen] at hs
      obtain ⟨mem', s', hrun, hfilled, hframe⟩ := @ih (v / 1000) (by omega)
        (write mem (s - 2) (group (v % 1000))) (s - 3) (by omega) (by omega)
      rw [if_pos (by omega), if_pos (by omega), hrun]
      have hlength := hfilled.length
      refine ⟨mem', s', rfl, ⟨?_, ?_⟩, fun x hx => ?_⟩
      · rw [List.length_append, hlen]
        omega
      · have hsame : Memory.read mem' (s - 2) 3 =
            Memory.read (write mem (s - 2) (group (v % 1000))) (s - 2) 3 :=
          read_congr fun x hx _ => hframe x (by omega)
        rw [List.length_append, read_append, hfilled.text, hlen,
          show s' + 1 + (groups (v / 1000)).length = s - 2 by omega, hsame, hwrite]
      · rw [hframe x (by omega), write_apart (by omega)]

theorem read_succ {a : Nat} : Memory.read mem a (n + 1) = mem a :: Memory.read mem (a + 1) n := by
  rw [Nat.add_comm n 1, read_append]
  rfl

theorem skipZeros_spec (hfilled : Filled mem s' (b.scratch + 31) xs)
    (hne : xs.dropWhile isZero ≠ []) :
    ∃ s, skipZeros b mem s' = .ok s ∧ s + (xs.dropWhile isZero).length = b.scratch + 32 ∧
      s' < s ∧ Memory.read mem s (xs.dropWhile isZero).length = xs.dropWhile isZero := by
  induction xs generalizing s' with
  | nil => exact absurd rfl hne
  | cons x xs ih =>
    have hlength := hfilled.length
    have htext := hfilled.text
    rw [List.length_cons] at hlength htext
    rw [read_succ] at htext
    obtain ⟨hx, hxs⟩ := List.cons.inj htext
    rw [skipZeros, if_pos (by omega), hx]
    by_cases hzero : x = '0'.toUInt8
    · have hdrop : (x :: xs).dropWhile isZero = xs.dropWhile isZero :=
        List.dropWhile_cons_of_pos (decide_eq_true hzero)
      rw [hdrop] at hne ⊢
      rw [if_pos hzero]
      obtain ⟨s, hrun, hs, hlt, hread⟩ := @ih (s' + 1) ⟨by omega, hxs⟩ hne
      exact ⟨s, hrun, hs, by omega, hread⟩
    · have hdrop : (x :: xs).dropWhile isZero = x :: xs :=
        List.dropWhile_cons_of_neg fun h => hzero (of_decide_eq_true h)
      rw [hdrop, if_neg hzero]
      exact ⟨s' + 1, rfl, by rw [List.length_cons]; omega, by omega, hfilled.text⟩

theorem group_ne_zeros : ∀ v < 1000, 0 < v → (group v).dropWhile isZero ≠ [] := by
  decide +kernel

theorem digits_of_lt (h : v < 1000) : digits v = (group v).dropWhile isZero := by
  rw [digits, groups, if_pos h]

theorem digits_ne_nil (hv : 0 < v) : digits v ≠ [] := by
  induction v using Nat.strongRecOn with
  | ind v ih =>
    by_cases hlt : v < 1000
    · rw [digits_of_lt hlt]
      exact group_ne_zeros v hlt hv
    · have hne := ih (v / 1000) (by omega) (by omega)
      intro hnil
      rw [digits, groups, if_neg hlt] at hnil
      have hall := List.dropWhile_eq_nil_iff.1 hnil
      exact hne (List.dropWhile_eq_nil_iff.2 fun c hc => hall c (List.mem_append_left _ hc))

theorem digits_of_ge (h : 1000 ≤ v) : digits v = digits (v / 1000) ++ group (v % 1000) := by
  have hne := digits_ne_nil (show 0 < v / 1000 by omega)
  rw [digits, groups, if_neg (by omega), List.dropWhile_append, if_neg]
  · rfl
  · rwa [List.isEmpty_iff]

/-- Where nothing but `scratch_buffer` and the `n` bytes behind the first `len` of `str` has
changed. -/
def Within (b : Buffers) (mem mem' : Mem) (len n : Nat) : Prop :=
  ∀ x, (x < b.scratch ∨ b.scratch + 32 ≤ x) → (x < b.str + len ∨ b.str + len + n ≤ x) →
    mem' x = mem x

theorem printDigits_spec (hv : 0 < v) (hgroups : (groups v).length ≤ 31) (hlen : len < b.size)
    (hapart : Region.Apart ⟨b.scratch, 32⟩ ⟨b.str, b.size⟩) :
    ∃ mem' n, printDigits b mem len v = .ok (mem', len + n) ∧
      n = min (digits v).length (b.size - len) ∧
      Memory.read mem' (b.str + len) n = (digits v).take n ∧ Within b mem mem' len n := by
  obtain ⟨mem₁, s₁, hchars, hfilled, hframe⟩ :=
    @toChars_spec b mem (b.scratch + 31) v (by omega) (by omega)
  obtain ⟨s, hskip, hs, hlt, hread⟩ := skipZeros_spec hfilled (digits_ne_nil hv)
  change s + (digits v).length = b.scratch + 32 at hs
  change Memory.read mem₁ s (digits v).length = digits v at hread
  have hlength := hfilled.length
  have hscratch : b.scratch + 32 - s = (digits v).length := by omega
  set n := if len + (digits v).length < b.size then (digits v).length else b.size - len with hn
  have hmin : n = min (digits v).length (b.size - len) := by
    rw [hn]
    split <;> omega
  have htake : (digits v).take n = Memory.read mem₁ s n := by
    have hpart := @read_part _ mem₁ s n 0 _ (show 0 + n ≤ (digits v).length by omega)
    rwa [List.drop_zero, Nat.add_zero, hread] at hpart
  have hcopy : fastMemcpy (lent (b.str + len) s n) mem₁ (b.str + len) s n =
      some (write mem₁ (b.str + len) (Memory.read mem₁ s n)) := by
    refine fastMemcpy_eq_write ?_ mem₁
    simp only [Region.Apart, Region.limit] at hapart ⊢
    omega
  refine ⟨write mem₁ (b.str + len) (Memory.read mem₁ s n), n, ?_, hmin, ?_, ?_⟩
  · unfold printDigits
    simp only [hchars, hskip, hscratch, bind, Except.bind]
    rw [← hn, if_pos ⟨by omega, by omega⟩, hcopy]
  · have hwrite := @read_write_self _ mem₁ (b.str + len) (Memory.read mem₁ s n)
    rw [length_read] at hwrite
    rw [hwrite, htake]
  · intro x hscr hstr
    rw [write_apart (by rw [length_read]; omega)]
    exact hframe x (by omega)

theorem intConv_bits {longBits : Nat} {ch : UInt8} {format : List UInt8}
    (h : intConv longBits ch format = some c) :
    c.bits = 32 ∨ c.bits = longBits ∨ c.bits = 64 := by
  unfold intConv at h
  repeat' split at h
  all_goals cases h <;> simp

/-- The value an argument has in its type: the least one has no negation. -/
theorem take_cases (hbits : c.bits = 32 ∨ c.bits = 64) (v : Int) :
    0 ≤ c.take v ∧ c.take v < 2 ^ 64 ∨
      c.take v < 0 ∧ -2 ^ 63 < c.take v ∧ c.neg (c.take v) = -c.take v ∨
      c.neg (c.take v) = c.take v ∧ c.take v = -2 ^ (c.bits - 1) := by
  cases hsigned : c.signed with
  | false =>
    refine .inl ?_
    unfold IntConv.take
    rw [hsigned, if_neg (by decide)]
    rcases hbits with h | h <;> rw [h] <;> omega
  | true =>
    unfold IntConv.take IntConv.neg
    rw [hsigned, if_pos rfl]
    have hpos : 0 < 2 ^ c.bits := Nat.two_pow_pos _
    have hlow := @Int.le_bmod v _ hpos
    have hhigh := @Int.bmod_lt v _ hpos
    generalize v.bmod (2 ^ c.bits) = w at hlow hhigh ⊢
    by_cases hleast : w = -2 ^ (c.bits - 1)
    · refine .inr (.inr ?_)
      rw [hleast]
      rcases hbits with h | h <;> rw [h] <;> decide
    · have hneg : (-w).bmod (2 ^ c.bits) = -w := by
        apply Int.bmod_eq_of_le_mul_two <;>
          rcases hbits with h | h <;> rw [h] at hleast hlow hhigh ⊢ <;> omega
      rcases hbits with h | h <;> rw [h] at hleast hlow hhigh hneg ⊢ <;> omega

/-- The arguments are those the format asks for, up to a directive of the general formatter, and the
digits of each integer are found in the table. -/
def Fits (longBits : Nat) (flags : Bool) (format : List UInt8) (args : List Arg) : Prop :=
  match flags, format with
  | _, [] => True
  | false, ch :: format =>
    if ch = '%'.toUInt8 then Fits longBits true format args else Fits longBits false format args
  | true, ch :: format =>
    if isFlag ch then Fits longBits true format args
    else if ch = 's'.toUInt8 then
      ∃ vs rest, args = .str vs :: rest ∧ Fits longBits false format rest
    else if ch = 'c'.toUInt8 then
      ∃ v rest, args = .int v :: rest ∧ Fits longBits false format rest
    else if ch = 'N'.toUInt8 then
      ∃ v rest, args = .int v :: rest ∧ v % 2 ^ 30 < 1000 ∧ Fits longBits false format rest
    else ∀ c, intConv longBits ch format = some c →
      ∃ v rest, args = .int v :: rest ∧ c.take v ≠ -2 ^ (c.bits - 1) ∧
        Fits longBits false (format.drop (if c.take v = 0 then 0 else c.skip)) rest
termination_by format.length
decreasing_by all_goals (simp only [List.length_drop, List.length_cons]; omega)

/-- A result that meets `P`, or a fault: it is no access outside of `str` and `scratch_buffer`, and there
is none where `fits` holds. -/
def Safe {α : Type} (fits : Prop) (P : α → Prop) : Except Fault α → Prop
  | .error f => f ≠ .outside ∧ ¬ fits
  | .ok a => P a

/-- Nothing outside of `str` and `scratch_buffer` has changed. -/
def Kept (b : Buffers) (mem mem' : Mem) : Prop :=
  ∀ x, (x < b.scratch ∨ b.scratch + 32 ≤ x) → (x < b.str ∨ b.str + b.size ≤ x) →
    mem' x = mem x

def Stop.Kept (b : Buffers) (mem : Mem) : Stop → Prop
  | .done mem' _ => Snprintf.Kept b mem mem'
  | .general => True

theorem Safe.bind {α β : Type} {fits : Prop} {P : α → Prop} {Q : β → Prop} {r : Except Fault α}
    {f : α → Except Fault β} (h : Safe fits P r) (hf : ∀ a, P a → Safe fits Q (f a)) :
    Safe fits Q (r >>= f) := by
  cases r with
  | error => exact h
  | ok a => exact hf a h

theorem Safe.mono {α : Type} {fits fits' : Prop} {P Q : α → Prop} {r : Except Fault α}
    (h : Safe fits P r) (hfits : fits' → fits) (hPQ : ∀ a, P a → Q a) : Safe fits' Q r := by
  cases r with
  | error => exact ⟨h.1, fun hfits' => h.2 (hfits hfits')⟩
  | ok a => exact hPQ a h

theorem Kept.refl (b : Buffers) (mem : Mem) : Kept b mem mem := fun _ _ _ => rfl

theorem Kept.trans {mem₁ mem₂ : Mem} (h : Kept b mem mem₁) (h' : Kept b mem₁ mem₂) :
    Kept b mem mem₂ := fun x hs ho => (h' x hs ho).trans (h x hs ho)

theorem Stop.Kept.trans {mem₁ : Mem} {stop : Stop} (h : Snprintf.Kept b mem mem₁)
    (h' : stop.Kept b mem₁) : stop.Kept b mem := by
  cases stop with
  | done mem' len => exact Snprintf.Kept.trans h h'
  | general => trivial

theorem store_eq (h : len < b.size) (ch : UInt8) :
    store b mem len ch = .ok (write mem (b.str + len) [ch]) := if_pos h

theorem store_safe {fits : Prop} (h : len < b.size) (ch : UInt8) :
    Safe fits (Kept b mem) (store b mem len ch) := by
  rw [store_eq h]
  exact fun x _ ho => write_apart (by rw [List.length_singleton]; omega)

theorem outchar_safe {fits : Prop} (len : Nat) (ch : UInt8) :
    Safe fits (fun p => Kept b mem p.1) (outchar b mem len ch) := by
  unfold outchar
  split
  · next h =>
    have hstore := @store_safe b mem len fits (by omega) ch
    rw [store_eq (by omega)] at hstore ⊢
    exact hstore
  · exact Kept.refl b mem

theorem printStr_safe {fits : Prop} (len : Nat) (vs : List UInt8) :
    Safe fits (fun p => Kept b mem p.1) (printStr b mem len vs) := by
  induction vs generalizing mem len with
  | nil => exact Kept.refl b mem
  | cons v vs ih =>
    rw [printStr]
    split
    · next h =>
      exact (store_safe (by omega) v).bind fun mem₁ hkept =>
        (ih (len + 1)).mono id fun _ => hkept.trans
    · exact Kept.refl b mem

theorem printN_safe (len : Nat) (v1 : Int) :
    Safe (v1 % 2 ^ 30 < 1000) (fun p => Kept b mem p.1) (printN b mem len v1) := by
  unfold printN
  split
  · split
    · exact printStr_safe len _
    · next hnone =>
      refine ⟨Fault.noConfusion, fun hlt => ?_⟩
      obtain ⟨n, hn⟩ := Int.eq_ofNat_of_zero_le (Int.emod_nonneg v1 (show (2 ^ 30 : Int) ≠ 0 by decide))
      rw [hn, digitGroup_natCast (by omega)] at hnone
      cases hnone
  · exact Kept.refl b mem

theorem length_groups_le (h : v < 2 ^ 64) : (groups v).length ≤ 31 := by
  have hlen := @length_groups 6 v (by omega)
  omega

/-- The least value is looked up in front of the table. -/
theorem printDigits_least (hbits : c.bits = 32 ∨ c.bits = 64) :
    printDigits b mem len (-2 ^ (c.bits - 1)) = .error .table := by
  have hgroup : digitGroup (-2 ^ (c.bits - 1) - 1000 * (-2 ^ (c.bits - 1) : Int).tdiv 1000) = none := by
    apply digitGroup_neg
    rcases hbits with h | h <;> rw [h] <;> decide
  unfold printDigits
  rw [toChars]
  simp only [hgroup]
  rfl

theorem finish_safe {fits : Prop} (hsize : 0 < b.size) (len : Nat) :
    Safe fits (fun p => Kept b mem p.1 ∧ ∃ i < b.size, p.1 (b.str + i) = 0) (finish b mem len) := by
  have hlt : (if len < b.size then len else b.size - 1) < b.size := by split <;> omega
  have hkept := @store_safe b mem _ fits hlt 0
  unfold finish
  rw [store_eq hlt] at hkept ⊢
  exact ⟨hkept, _, hlt, @write_at _ mem _ 0 [0] (by decide)⟩

section Apart

variable (hapart : Region.Apart ⟨b.scratch, 32⟩ ⟨b.str, b.size⟩)
include hapart

theorem printDigits_safe {fits : Prop} (hv : 0 < v) (hlt : v < 2 ^ 64) (hlen : len < b.size) :
    Safe fits (fun p => Kept b mem p.1) (printDigits b mem len v) := by
  obtain ⟨mem', n, hrun, hn, -, hwithin⟩ :=
    @printDigits_spec b mem v len hv (length_groups_le hlt) hlen hapart
  rw [hrun]
  exact fun x hs ho => hwithin x hs (by omega)

theorem printInt_safe (hbits : c.bits = 32 ∨ c.bits = 64) {v : Int} (hv : c.take v ≠ 0)
    (hlen : len + 1 < b.size) : Safe (c.take v ≠ -2 ^ (c.bits - 1)) (fun p => Kept b mem p.1)
      (printInt b c mem len (c.take v)) := by
  have hdigits : ∀ {fits : Prop} {mem : Mem} {len : Nat} {w : Int}, 0 < w → w < 2 ^ 64 → len < b.size →
      Safe fits (fun p => Kept b mem p.1) (printDigits b mem len w) := by
    intro fits mem len w hw hlt hlen
    obtain ⟨n, rfl⟩ := Int.eq_ofNat_of_zero_le (Int.le_of_lt hw)
    exact printDigits_safe hapart (by omega) (by omega) hlen
  unfold printInt
  rcases take_cases hbits v with ⟨hpos, hlt⟩ | ⟨hneg, hlow, hn⟩ | ⟨hn, hleast⟩
  · rw [if_neg (by omega)]
    exact hdigits (by omega) hlt (by omega)
  · rw [if_pos hneg, hn]
    exact (store_safe (by omega) _).bind fun mem₁ hkept =>
      (hdigits (by omega) (by omega) hlen).mono id fun _ => hkept.trans
  · have hneg : (-2 ^ (c.bits - 1) : Int) < 0 := by
      rcases hbits with h | h <;> rw [h] <;> decide
    rw [hn, hleast, if_pos hneg]
    refine (store_safe (by omega) _).bind fun mem₁ _ => ?_
    rw [printDigits_least hbits]
    exact ⟨Fault.noConfusion, fun hne => hne rfl⟩

/-- The loop, from any of its states and at any length. -/
theorem run_safe (hlong : b.longBits = 32 ∨ b.longBits = 64) (flags : Bool)
    (format : List UInt8) (args : List Arg) (mem : Mem) (len : Nat) :
    Safe (Fits b.longBits flags format args) (Stop.Kept b mem) (run b flags format args mem len) := by
  have hbits : ∀ {ch : UInt8} {format : List UInt8} {c : IntConv},
      intConv b.longBits ch format = some c → c.bits = 32 ∨ c.bits = 64 := by
    intro ch format c h
    have := intConv_bits h
    omega
  fun_induction run b flags format args mem len with
  | case1 flags args mem len => exact Kept.refl b mem
  | case2 args mem len format ih =>
    rw [Fits, if_pos rfl]
    exact ih
  | case3 args mem len ch format hch ih =>
    rw [Fits, if_neg hch]
    exact (outchar_safe len ch).bind fun p hkept => (ih p.1 p.2).mono id fun _ => Stop.Kept.trans hkept
  | case4 args mem len ch format hflag ih =>
    rw [Fits, if_pos hflag]
    exact ih
  | case5 mem len format vs args hflag ih =>
    rw [Fits, if_neg hflag, if_pos rfl]
    refine ((printStr_safe len vs).bind fun p hkept => (ih p.1 p.2).mono ?_ fun _ => Stop.Kept.trans hkept)
    rintro ⟨_, _, ⟨⟩, hfits⟩
    exact hfits
  | case6 args mem len format hargs hflag =>
    rw [Fits, if_neg hflag, if_pos rfl]
    exact ⟨Fault.noConfusion, fun ⟨vs, rest, heq, _⟩ => hargs vs rest heq⟩
  | case7 mem len format v args hflag hs ih =>
    rw [Fits, if_neg hflag, if_neg hs, if_pos rfl]
    refine ((printStr_safe len _).bind fun p hkept => (ih p.1 p.2).mono ?_ fun _ => Stop.Kept.trans hkept)
    rintro ⟨_, _, ⟨⟩, hfits⟩
    exact hfits
  | case8 args mem len format hargs hflag hs =>
    rw [Fits, if_neg hflag, if_neg hs, if_pos rfl]
    exact ⟨Fault.noConfusion, fun ⟨v, rest, heq, _⟩ => hargs v rest heq⟩
  | case9 mem len format v args hflag hs hc ih =>
    rw [Fits, if_neg hflag, if_neg hs, if_neg hc, if_pos rfl]
    refine ((printN_safe len v).mono ?_ fun _ => id).bind fun p hkept =>
      (ih p.1 p.2).mono ?_ fun _ => Stop.Kept.trans hkept
    · rintro ⟨_, _, ⟨⟩, hlt, -⟩
      exact hlt
    · rintro ⟨_, _, ⟨⟩, -, hfits⟩
      exact hfits
  | case10 args mem len format hargs hflag hs hc =>
    rw [Fits, if_neg hflag, if_neg hs, if_neg hc, if_pos rfl]
    exact ⟨Fault.noConfusion, fun ⟨v, rest, heq, _⟩ => hargs v rest heq⟩
  | case11 => trivial
  | case12 mem len => exact Kept.refl b mem
  | case13 mem len ch format hflag hs hc hN c v args hconv v1 hroom hzero ih =>
    rw [Fits, if_neg hflag, if_neg hs, if_neg hc, if_neg hN]
    refine (store_safe (by omega) _).bind fun mem₁ hkept =>
      (ih mem₁).mono (fun hall => ?_) fun _ => Stop.Kept.trans hkept
    obtain ⟨_, _, ⟨⟩, -, hfits⟩ := hall c hconv
    rwa [if_pos hzero] at hfits
  | case14 mem len ch format hflag hs hc hN c v args hconv v1 hroom hzero ih =>
    rw [Fits, if_neg hflag, if_neg hs, if_neg hc, if_neg hN]
    refine ((printInt_safe hapart (hbits hconv) hzero (by omega)).mono (fun hall => ?_) fun _ => id).bind
      fun p hkept => (ih p.1 p.2).mono (fun hall => ?_) fun _ => Stop.Kept.trans hkept
    · obtain ⟨_, _, ⟨⟩, hleast, -⟩ := hall c hconv
      exact hleast
    · obtain ⟨_, _, ⟨⟩, -, hfits⟩ := hall c hconv
      rwa [if_neg hzero] at hfits
  | case15 args mem len ch format hflag hs hc hN c hconv hargs =>
    rw [Fits, if_neg hflag, if_neg hs, if_neg hc, if_neg hN]
    refine ⟨Fault.noConfusion, fun hall => ?_⟩
    obtain ⟨v, rest, heq, -⟩ := hall c hconv
    exact hargs v rest heq

/-- Every format with every argument, at every size: nothing outside of `str` and `scratch_buffer` is
touched, nor of the table if the arguments fit the format, and `str` is left with a null in it. -/
theorem oVsnprintf_safe (hlong : b.longBits = 32 ∨ b.longBits = 64) (hstr : b.str ≠ 0)
    (hsize : 0 < b.size) (format : List UInt8) (args : List Arg) (mem : Mem) :
    Safe (Fits b.longBits false format args)
      (fun r => ∀ p, r = some p → Kept b mem p.1 ∧ ∃ i < b.size, p.1 (b.str + i) = 0)
      (oVsnprintf b format args mem) := by
  unfold oVsnprintf
  rw [if_neg (by omega)]
  refine (run_safe hapart hlong false format args mem 0).bind fun stop hkept => ?_
  cases stop with
  | general => exact fun p hp => by cases hp
  | done mem₁ len =>
    have hfinish := @finish_safe b mem₁ (Fits b.longBits false format args) hsize len
    change Safe _ _ ((finish b mem₁ len).map some)
    cases hrun : finish b mem₁ len with
    | error f =>
      rw [hrun] at hfinish
      exact hfinish
    | ok q =>
      rw [hrun] at hfinish
      rintro p ⟨⟩
      have hloop : Kept b mem mem₁ := hkept
      exact ⟨hloop.trans hfinish.1, hfinish.2⟩

end Apart

/-- Room for seven characters of the many that there are. -/
theorem oVsnprintf_safe_eight :
    Safe (Fits 32 false (['a', '%', 's', '%', 'd'].map Char.toUInt8) [.str [65, 66], .int (-20000)])
      (fun r => ∀ p, r = some p → Kept ⟨4096, 8, 8192, 32⟩ (fun _ => 35) p.1 ∧
        ∃ i < 8, p.1 (4096 + i) = 0)
      (oVsnprintf ⟨4096, 8, 8192, 32⟩ (['a', '%', 's', '%', 'd'].map Char.toUInt8)
        [.str [65, 66], .int (-20000)] (fun _ => 35)) :=
  @oVsnprintf_safe ⟨4096, 8, 8192, 32⟩ (.inr (.inr (.inr (by decide)))) (.inl rfl) (by decide) (by decide)
    _ _ _

end KjRedis.Snprintf
