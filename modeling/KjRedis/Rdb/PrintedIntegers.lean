import KjRedis.Base.Snprintf
import KjRedis.Rdb.Object
import KjRedis.Reply.Nesting

/-! What `o_snprintf` leaves for an integer: for which integers that is the decimal text, and that it is
what the readers of strings, ziplists and intsets are modelled with. -/
namespace KjRedis.Snprintf

open Memory FastMemcpy Reply

def digit (n : Nat) : UInt8 := UInt8.ofNat (48 + n % 10)

theorem decimalAux_acc (fuel n : Nat) (acc : List UInt8) :
    decimalAux fuel n acc = decimalAux fuel n [] ++ acc := by
  induction fuel generalizing n acc with
  | zero => rfl
  | succ fuel ih =>
    simp only [decimalAux]
    split
    · rfl
    · rw [ih _ (_ :: acc), ih _ [_], List.append_assoc]
      rfl

theorem decimalAux_fuel {fuel fuel' n : Nat} (h : n < fuel) (h' : n < fuel') (acc : List UInt8) :
    decimalAux fuel n acc = decimalAux fuel' n acc := by
  induction fuel generalizing fuel' n acc with
  | zero => omega
  | succ fuel ih =>
    cases fuel' with
    | zero => omega
    | succ fuel' =>
      simp only [decimalAux]
      split
      · rfl
      · exact ih (by omega) (by omega) _

theorem decimal_snoc {n : Nat} (h : 10 ≤ n) : decimal n = decimal (n / 10) ++ [digit n] := by
  have hfuel := @decimalAux_fuel n (n / 10 + 1) (n / 10) (by omega) (by omega) []
  unfold decimal
  rw [decimalAux, if_neg (by omega), decimalAux_acc, hfuel]
  rfl

theorem group_eq (n : Nat) : group (n % 1000) = [digit (n / 10 / 10), digit (n / 10), digit n] := by
  unfold group digit
  rw [show n % 1000 / 100 = n / 10 / 10 % 10 by omega,
    show n % 1000 / 10 % 10 = n / 10 % 10 by omega, show n % 1000 % 10 = n % 10 by omega]

theorem decimal_group {n : Nat} (h : 1000 ≤ n) :
    decimal n = decimal (n / 1000) ++ group (n % 1000) := by
  rw [decimal_snoc (by omega), decimal_snoc (show 10 ≤ n / 10 by omega),
    decimal_snoc (show 10 ≤ n / 10 / 10 by omega), group_eq,
    show n / 10 / 10 / 10 = n / 1000 by omega, List.append_assoc, List.append_assoc]
  rfl

theorem digits_small : ∀ v < 1000, 0 < v → (group v).dropWhile isZero = decimal v := by
  decide +kernel

/-- Without the zeros in front, the groups are the decimal text. -/
theorem digits_eq_decimal {v : Nat} (hv : 0 < v) : digits v = decimal v := by
  induction v using Nat.strongRecOn with
  | ind v ih =>
    by_cases hlt : v < 1000
    · rw [digits_of_lt hlt, digits_small v hlt hv]
    · rw [digits_of_ge (by omega), decimal_group (by omega), ih (v / 1000) (by omega) (by omega)]

variable {b : Buffers} {mem mem' : Mem} {len n : Nat} {c : IntConv} {ch : UInt8}
  {rest text : List UInt8} {args : List Arg}

theorem intConv_char (h : intConv b.longBits ch rest = some c) :
    ch = 'd'.toUInt8 ∨ ch = 'i'.toUInt8 ∨ ch = 'u'.toUInt8 ∨ ch = 'l'.toUInt8 := by
  unfold intConv isSignedConv at h
  split at h
  · next hd =>
    have := of_decide_eq_true hd
    tauto
  · split at h
    · next hu => tauto
    · split at h
      · next hl => tauto
      · cases h

theorem run_directive (hconv : intConv b.longBits ch rest = some c) (v : Int)
    (hroom : len + 1 < b.size) :
    run b true (ch :: rest) [.int v] mem len =
      if c.take v = 0 then
        store b mem len '0'.toUInt8 >>= fun mem => run b false rest [] mem (len + 1)
      else
        printInt b c mem len (c.take v) >>= fun p =>
          run b false (rest.drop c.skip) [] p.1 p.2 := by
  have hch := intConv_char hconv
  have hnot : ∀ k : UInt8, k ∉ ['d'.toUInt8, 'i'.toUInt8, 'u'.toUInt8, 'l'.toUInt8] → ch ≠ k := by
    rintro k hk rfl
    exact hk (by simpa using hch)
  have hflag : isFlag ch = false := by
    rcases hch with rfl | rfl | rfl | rfl <;> decide
  rw [run]
  simp only [hflag]
  rw [if_neg (by decide), if_neg (hnot _ (by decide)), if_neg (hnot _ (by decide)), if_neg (hnot _ (by decide))]
  simp only [hconv]
  rw [if_neg (by omega)]

/-- Characters that are not the start of a directive stand as they are. -/
theorem run_literal (hrest : ∀ k ∈ rest, k ≠ '%'.toUInt8) (hroom : len + rest.length < b.size) :
    ∃ mem', run b false rest args mem len = .ok (.done mem' (len + rest.length)) ∧
      Memory.read mem' (b.str + len) rest.length = rest ∧
      ∀ x < b.str + len, mem' x = mem x := by
  induction rest generalizing mem len with
  | nil => exact ⟨mem, by rw [run]; rfl, rfl, fun _ _ => rfl⟩
  | cons k rest ih =>
    rw [List.length_cons] at hroom
    obtain ⟨mem', hrun, hread, hframe⟩ := @ih (write mem (b.str + len) [k]) (len + 1)
      (fun j hj => hrest j (List.mem_cons_of_mem k hj)) (by omega)
    have hout : outchar b mem len k = .ok (write mem (b.str + len) [k], len + 1) := by
      unfold outchar
      rw [if_pos (by omega), store_eq (by omega)]
      rfl
    refine ⟨mem', ?_, ?_, fun x hx => ?_⟩
    · rw [run, if_neg (hrest k List.mem_cons_self), hout, List.length_cons, Nat.add_comm rest.length,
        ← Nat.add_assoc]
      exact hrun
    · have hhead : mem' (b.str + len) = k := by
        rw [hframe _ (by omega)]
        exact @write_at _ mem (b.str + len) 0 [k] (by simp)
      rw [List.length_cons, read_succ, hhead, Nat.add_assoc, hread]
    · rw [hframe x (by omega), write_apart (.inl hx)]

/-- The string at `str`, as long as `nx_strlen` finds it. -/
def cString (b : Buffers) (mem : Mem) : List UInt8 :=
  (Memory.read mem b.str b.size).takeWhile (· ≠ 0)

/-- The string `o_snprintf` leaves for one integer. -/
def oSnprintf (b : Buffers) (format : List UInt8) (v : Int) (mem : Mem) : Option (List UInt8) :=
  match oVsnprintf b format [.int v] mem with
  | .ok (some (mem, _)) => some (cString b mem)
  | _ => none

theorem cString_finish (hread : Memory.read mem b.str text.length = text)
    (hne : ∀ k ∈ text, k ≠ 0) (hroom : text.length < b.size) :
    ∃ mem' r, finish b mem text.length = .ok (mem', r) ∧ cString b mem' = text := by
  have hfinish : finish b mem text.length =
      .ok (write mem (b.str + text.length) [0],
        if 2 ^ 31 - 1 ≤ text.length then -1 else text.length) := by
    unfold finish
    rw [if_pos hroom, store_eq hroom]
    rfl
  refine ⟨_, _, hfinish, ?_⟩
  · have hkept : Memory.read (write mem (b.str + text.length) [0]) b.str text.length = text := by
      rw [← hread, length_read]
      exact read_congr fun x _ hx => write_apart (.inl hx)
    have hnull : write mem (b.str + text.length) [0] (b.str + text.length) = 0 :=
      @write_at _ mem (b.str + text.length) 0 [0] (by decide)
    obtain ⟨n, hn⟩ := Nat.exists_eq_add_of_lt hroom
    unfold cString
    rw [hn, Nat.add_assoc, read_append, hkept, read_succ, hnull,
      List.takeWhile_append_of_pos fun k hk => decide_eq_true (hne k hk),
      List.takeWhile_cons_of_neg (by decide), List.append_nil]

/-- Where the loop ends with a text, that is the string left. -/
theorem oSnprintf_eq {format : List UInt8} {v : Int} (hstr : b.str ≠ 0)
    (hrun : run b false format [.int v] mem 0 = .ok (.done mem' text.length))
    (hread : Memory.read mem' b.str text.length = text) (hne : ∀ k ∈ text, k ≠ 0)
    (hroom : text.length < b.size) : oSnprintf b format v mem = some text := by
  obtain ⟨mem₁, r, hfinish, hstring⟩ := cString_finish hread hne hroom
  unfold oSnprintf oVsnprintf
  rw [if_neg (by omega), hrun]
  simp only [bind, Except.bind, hfinish, Except.map, hstring]

section Texts

variable (hapart : Region.Apart ⟨b.scratch, 32⟩ ⟨b.str, b.size⟩) (hsize : 30 ≤ b.size)
include hapart hsize

theorem printDigits_decimal {w : Int} (hw : 0 < w) (hlt : w < 2 ^ 64) (hlen : len ≤ 1) :
    ∃ mem', printDigits b mem len w = .ok (mem', len + (decimal w.natAbs).length) ∧
      Memory.read mem' (b.str + len) (decimal w.natAbs).length = decimal w.natAbs ∧
      (decimal w.natAbs).length ≤ 21 ∧ ∀ x, (x < b.scratch ∨ b.scratch + 32 ≤ x) →
        x < b.str + len → mem' x = mem x := by
  obtain ⟨v, rfl⟩ := Int.eq_ofNat_of_zero_le (Int.le_of_lt hw)
  have hgroups := @length_groups 6 v (by omega)
  have hdigits : (digits v).length ≤ (groups v).length := List.length_dropWhile_le _ _
  obtain ⟨mem', n, hrun, hn, htext, hwithin⟩ :=
    @printDigits_spec b mem v len (by omega) (by omega) (by omega) hapart
  have hfull : n = (digits v).length := by omega
  rw [hfull, List.take_length] at htext
  rw [hfull] at hrun hwithin
  rw [Int.natAbs_natCast, ← digits_eq_decimal (by omega)]
  exact ⟨mem', hrun, htext, by omega, fun x hs hx => hwithin x hs (.inl hx)⟩

/-- A value with digits, which the least one of its type has not. -/
theorem printInt_decimal (hbits : c.bits = 32 ∨ c.bits = 64) {w : Int} (hw : c.take w = w)
    (hne : w ≠ 0) (hleast : w ≠ -2 ^ (c.bits - 1)) :
    ∃ mem', printInt b c mem 0 w = .ok (mem', (decimalInt w).length) ∧
      Memory.read mem' b.str (decimalInt w).length = decimalInt w ∧ (decimalInt w).length ≤ 22 := by
  have hcases := take_cases hbits w
  rw [hw] at hcases
  unfold printInt decimalInt
  rcases hcases with ⟨hpos, hlt⟩ | ⟨hneg, hlow, hn⟩ | ⟨-, heq⟩
  · obtain ⟨mem', hrun, hread, hlen, -⟩ :=
      @printDigits_decimal b mem 0 hapart hsize w (by omega) hlt (by omega)
    rw [if_neg (by omega), if_neg (by omega), hrun, Nat.zero_add]
    exact ⟨mem', rfl, hread, by omega⟩
  · obtain ⟨mem', hrun, hread, hlen, hframe⟩ :=
      @printDigits_decimal b (write mem b.str ['-'.toUInt8]) 1 hapart hsize (-w) (by omega)
        (by omega) (Nat.le_refl 1)
    rw [Int.natAbs_neg] at hrun hread hlen
    have hminus : mem' b.str = minus := by
      rw [hframe _ (by simp only [Region.Apart, Region.limit] at hapart; omega) (by omega)]
      exact @write_at _ mem b.str 0 ['-'.toUInt8] (by decide)
    rw [if_pos hneg, if_pos hneg, hn, store_eq (by omega)]
    refine ⟨mem', ?_, ?_, by rw [List.length_cons]; omega⟩
    · rw [List.length_cons, Nat.add_comm (decimal w.natAbs).length]
      exact hrun
    · rw [List.length_cons, read_succ, hminus, hread]
  · exact absurd heq hleast

end Texts

theorem decimal_ne_zero (n : Nat) : ∀ k ∈ decimal n, k ≠ 0 := by
  obtain ⟨ds, heq, -, hall, -⟩ := decimalAux_spec (Nat.lt_succ_self n) []
  rintro k hk rfl
  rw [decimal, heq, List.append_nil] at hk
  exact absurd (hall 0 hk) (by decide)

theorem decimalInt_ne_zero (v : Int) : ∀ k ∈ decimalInt v, k ≠ 0 := by
  intro k hk
  unfold decimalInt at hk
  split at hk
  · rcases List.mem_cons.1 hk with rfl | hk
    · decide
    · exact decimal_ne_zero _ k hk
  · exact decimal_ne_zero _ k hk

theorem isSignedConv_ne {k : UInt8} (h : isSignedConv k) : k ≠ '%'.toUInt8 ∧ k ≠ 0 := by
  unfold isSignedConv at h
  rcases of_decide_eq_true h with rfl | rfl <;> decide

/-- What follows the first character of a directive is neither a null nor the start of
another one. -/
theorem intConv_rest (h : intConv b.longBits ch rest = some c) (hrest : rest.length = c.skip) :
    rest.length ≤ 2 ∧ ∀ k ∈ rest, k ≠ '%'.toUInt8 ∧ k ≠ 0 := by
  have hnone : c.skip = 0 → rest.length ≤ 2 ∧ ∀ k ∈ rest, k ≠ '%'.toUInt8 ∧ k ≠ 0 := by
    intro hskip
    obtain rfl := List.eq_nil_of_length_eq_zero (hrest.trans hskip)
    exact ⟨by decide, fun k hk => absurd hk List.not_mem_nil⟩
  have hu : 'u'.toUInt8 ≠ '%'.toUInt8 ∧ 'u'.toUInt8 ≠ 0 := by decide
  have hl : 'l'.toUInt8 ≠ '%'.toUInt8 ∧ 'l'.toUInt8 ≠ 0 := by decide
  have hone : ∀ {k : UInt8} {format : List UInt8}, k ≠ '%'.toUInt8 ∧ k ≠ 0 →
      (k :: format).length = 1 → (k :: format).length ≤ 2 ∧ ∀ j ∈ k :: format, j ≠ '%'.toUInt8 ∧ j ≠ 0 := by
    intro k format hk hlen
    obtain rfl := List.eq_nil_of_length_eq_zero (Nat.succ.inj hlen)
    exact ⟨by simp, by simpa using hk⟩
  have htwo : ∀ {k : UInt8} {format : List UInt8}, k ≠ '%'.toUInt8 ∧ k ≠ 0 →
      ('l'.toUInt8 :: k :: format).length = 2 → ('l'.toUInt8 :: k :: format).length ≤ 2 ∧
        ∀ j ∈ 'l'.toUInt8 :: k :: format, j ≠ '%'.toUInt8 ∧ j ≠ 0 := by
    intro k format hk hlen
    obtain rfl := List.eq_nil_of_length_eq_zero (Nat.succ.inj (Nat.succ.inj hlen))
    refine ⟨by simp, fun j hj => ?_⟩
    rcases List.mem_cons.1 hj with rfl | hj
    · exact hl
    · exact List.mem_singleton.1 hj ▸ hk
  unfold intConv at h
  split at h
  · obtain rfl := Option.some.inj h
    exact hnone rfl
  · split at h
    · obtain rfl := Option.some.inj h
      exact hnone rfl
    · split at h
      · split at h
        · cases h
        · split at h
          · next hk =>
            obtain rfl := Option.some.inj h
            exact hone (isSignedConv_ne hk) hrest
          · split at h
            · next hk =>
              obtain rfl := Option.some.inj h
              rw [hk] at hrest ⊢
              exact hone hu hrest
            · split at h
              · next hk =>
                rw [hk] at hrest ⊢
                split at h
                · cases h
                · split at h
                  · next hk =>
                    obtain rfl := Option.some.inj h
                    exact htwo (isSignedConv_ne hk) hrest
                  · split at h
                    · next hk =>
                      obtain rfl := Option.some.inj h
                      rw [hk] at hrest ⊢
                      exact htwo hu hrest
                    · cases h
              · cases h
      · cases h

/-- The least value of a type has no negation, and no digits are found for it. -/
theorem printInt_least (hbits : c.bits = 32 ∨ c.bits = 64) (hroom : len < b.size) :
    printInt b c mem len (-2 ^ (c.bits - 1)) = .error .table := by
  have hneg : (-2 ^ (c.bits - 1) : Int) < 0 := by
    rcases hbits with h | h <;> rw [h] <;> decide
  have hself : c.neg (-2 ^ (c.bits - 1)) = -2 ^ (c.bits - 1) := by
    unfold IntConv.neg
    rcases hbits with h | h <;> rw [h] <;> decide
  unfold printInt
  rw [if_pos hneg, hself, store_eq hroom]
  exact printDigits_least hbits

/-- What a directive leaves of a value of its type. -/
def leaves (c : IntConv) (rest : List UInt8) (v : Int) : Option (List UInt8) :=
  if v = 0 then some ('0'.toUInt8 :: rest)
  else if v = -2 ^ (c.bits - 1) then none
  else some (decimalInt v)

section Directive

variable (hsize : 30 ≤ b.size) (hconv : intConv b.longBits ch rest = some c)
  (hrest : rest.length = c.skip) {v : Int} (hv : c.take v = v)
include hsize hconv hrest hv

theorem run_format : run b false ('%'.toUInt8 :: ch :: rest) [.int v] mem 0 =
    if v = 0 then store b mem 0 '0'.toUInt8 >>= fun mem => run b false rest [] mem 1
    else printInt b c mem 0 v >>= fun p => run b false [] [] p.1 p.2 := by
  have hrun := @run_directive b mem 0 c ch rest hconv v (by omega)
  have hdrop : rest.drop c.skip = [] := by rw [← hrest, List.drop_length]
  rw [hv, hdrop] at hrun
  rw [run, if_pos rfl]
  exact hrun

variable (hapart : Region.Apart ⟨b.scratch, 32⟩ ⟨b.str, b.size⟩) (hstr : b.str ≠ 0)
include hapart hstr

/-- A zero is printed with the rest of its directive behind it, and of the least value nothing is
known. -/
theorem oSnprintf_eq_leaves (hbits : c.bits = 32 ∨ c.bits = 64) :
    oSnprintf b ('%'.toUInt8 :: ch :: rest) v mem = leaves c rest v := by
  have hrun := @run_format b mem c ch rest hsize hconv hrest v hv
  unfold leaves
  by_cases hzero : v = 0
  · obtain ⟨hlen, hchars⟩ := intConv_rest hconv hrest
    obtain ⟨mem', hliteral, hread, hframe⟩ := @run_literal b (write mem b.str ['0'.toUInt8]) 1 rest []
      (fun k hk => (hchars k hk).1) (by omega)
    have hfirst : mem' b.str = '0'.toUInt8 := by
      rw [hframe _ (by omega)]
      exact @write_at _ mem b.str 0 ['0'.toUInt8] (by decide)
    rw [if_pos hzero] at hrun ⊢
    have hover : run b false ('%'.toUInt8 :: ch :: rest) [.int v] mem 0 =
        .ok (.done mem' ('0'.toUInt8 :: rest).length) := by
      rw [hrun, store_eq (by omega), List.length_cons, Nat.add_comm rest.length]
      exact hliteral
    refine oSnprintf_eq hstr hover ?_ ?_ (by rw [List.length_cons]; omega)
    · rw [List.length_cons, read_succ, hfirst, hread]
    · intro k hk
      rcases List.mem_cons.1 hk with rfl | hk
      · decide
      · exact (hchars k hk).2
  rw [if_neg hzero] at hrun ⊢
  by_cases hleast : v = -2 ^ (c.bits - 1)
  · rw [hleast, printInt_least hbits (by omega)] at hrun
    rw [if_pos hleast]
    unfold oSnprintf oVsnprintf
    rw [if_neg (by omega), hleast, hrun]
    rfl
  · obtain ⟨mem', hint, hread, hlen⟩ := @printInt_decimal b mem c hapart hsize hbits v hv hzero hleast
    have hover : run b false ('%'.toUInt8 :: ch :: rest) [.int v] mem 0 =
        .ok (.done mem' (decimalInt v).length) := by
      rw [hrun, hint]
      change run b false [] [] mem' (decimalInt v).length = _
      rw [run]
    rw [if_neg hleast]
    exact oSnprintf_eq hstr hover hread (decimalInt_ne_zero v) (by omega)

/-- The text that is left is the decimal text of the integer but for the least value of the type, which
has none, and for a zero whose directive is longer than one character. -/
theorem oSnprintf_eq_decimal_iff (hlong : b.longBits = 32 ∨ b.longBits = 64) :
    oSnprintf b ('%'.toUInt8 :: ch :: rest) v mem = some (decimalInt v) ↔
      v ≠ -2 ^ (c.bits - 1) ∧ (v ≠ 0 ∨ rest = []) := by
  have hbits : c.bits = 32 ∨ c.bits = 64 := by
    have := intConv_bits hconv
    omega
  rw [oSnprintf_eq_leaves hsize hconv hrest hv hapart hstr hbits, leaves]
  by_cases hzero : v = 0
  · have hdecimal : decimalInt v = ['0'.toUInt8] := by
      rw [hzero]
      decide
    have hleast : v ≠ -2 ^ (c.bits - 1) := by
      rw [hzero]
      rcases hbits with h | h <;> rw [h] <;> decide
    rw [if_pos hzero, hdecimal, Option.some_inj, List.cons.injEq, and_iff_right rfl, and_iff_right hleast]
    exact (or_iff_right (not_not.2 hzero)).symm
  rw [if_neg hzero, and_iff_left (Or.inl hzero)]
  by_cases hleast : v = -2 ^ (c.bits - 1)
  · rw [if_pos hleast]
    exact iff_of_false (Option.some_ne_none _).symm (not_not.2 hleast)
  · rw [if_neg hleast]
    exact iff_of_true rfl hleast

end Directive

/-- The format of the reader of strings. -/
def ld : List UInt8 := ['%', 'l', 'd'].map Char.toUInt8

/-- The format of the readers of ziplists and intsets. -/
def lld : List UInt8 := ['%', 'l', 'l', 'd'].map Char.toUInt8

theorem leaves_eq_printed {v : Int}
    (hzero : (if c.bits = 32 then [48, 100] else [48, 108, 100]) = '0'.toUInt8 :: rest) :
    leaves c rest v = Rdb.printed c.bits v := by
  unfold leaves Rdb.printed decimalInt
  rw [hzero]
  by_cases hneg : v < 0
  · rw [if_pos hneg, if_pos hneg]
  · rw [if_neg hneg, if_neg hneg]

/-- The readers are modelled with the text that is left for the integers they print. -/
theorem oSnprintf_eq_printed (hapart : Region.Apart ⟨b.scratch, 32⟩ ⟨b.str, b.size⟩)
    (hlong : b.longBits = 32) (hstr : b.str ≠ 0) (hsize : 30 ≤ b.size) {v : Int} :
    (v.bmod (2 ^ 32) = v → oSnprintf b ld v mem = Rdb.printed 32 v) ∧
      (v.bmod (2 ^ 64) = v → oSnprintf b lld v mem = Rdb.printed 64 v) := by
  have hld : intConv b.longBits 'l'.toUInt8 ['d'.toUInt8] = some ⟨32, true, 1⟩ := by
    rw [hlong]
    decide
  have hlld : intConv b.longBits 'l'.toUInt8 ['l'.toUInt8, 'd'.toUInt8] = some ⟨64, true, 2⟩ := by
    rw [hlong]
    decide
  exact ⟨fun hv => (oSnprintf_eq_leaves hsize hld rfl hv hapart hstr (.inl rfl)).trans
      (leaves_eq_printed rfl),
    fun hv => (oSnprintf_eq_leaves hsize hlld rfl hv hapart hstr (.inr rfl)).trans
      (leaves_eq_printed rfl)⟩

theorem oSnprintf_lld_zero :
    oSnprintf ⟨4096, 30, 8192, 32⟩ lld 0 (fun _ => 0) ≠ some (decimalInt 0) ∧
      oSnprintf ⟨4096, 30, 8192, 32⟩ lld (-1207) (fun _ => 0) = some (decimalInt (-1207)) := by
  have hiff : ∀ v : Int, IntConv.take ⟨64, true, 2⟩ v = v →
      (oSnprintf ⟨4096, 30, 8192, 32⟩ lld v (fun _ => 0) = some (decimalInt v) ↔
        v ≠ -2 ^ 63 ∧ (v ≠ 0 ∨ ['l'.toUInt8, 'd'.toUInt8] = [])) := fun v hv =>
    @oSnprintf_eq_decimal_iff ⟨4096, 30, 8192, 32⟩ (fun _ => 0) ⟨64, true, 2⟩ 'l'.toUInt8 _
      (by decide) (by decide) rfl v hv (.inr (.inr (.inr (by decide)))) (by decide) (.inl rfl)
  exact ⟨fun h => absurd ((hiff 0 (by decide)).1 h) (by decide),
    (hiff (-1207) (by decide)).2 ⟨by decide, .inl (by decide)⟩⟩

end KjRedis.Snprintf
