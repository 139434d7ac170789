import KjRedis.Lib.BackReference
import KjRedis.Rdb.Compact

/-! The format of LZF, and what the decompressor makes of any bytes. -/
namespace KjRedis.Rdb

open BackReference

/-- The distance in a control byte and the byte behind it. -/
def lzfBack (ctrl b : UInt8) : Nat := ctrl.toNat % 32 * 256 + 1 + b.toNat

/-- The tokens that some bytes are. -/
inductive LzfTokens : List UInt8 → List (Token UInt8) → Prop
  | nil : LzfTokens [] []
  | literal {ctrl : UInt8} {run ip : List UInt8} {ts : List (Token UInt8)} (hctrl : ctrl < 32)
      (hrun : run.length = ctrl.toNat + 1) (h : LzfTokens ip ts) :
      LzfTokens (ctrl :: (run ++ ip)) (.literal run :: ts)
  | short {ctrl b : UInt8} {ip : List UInt8} {ts : List (Token UInt8)} (hctrl : ¬ ctrl < 32)
      (hlen : ctrl.toNat / 32 ≠ 7) (h : LzfTokens ip ts) :
      LzfTokens (ctrl :: b :: ip) (.copy (lzfBack ctrl b) (ctrl.toNat / 32 + 2) :: ts)
  | long {ctrl extra b : UInt8} {ip : List UInt8} {ts : List (Token UInt8)} (hctrl : ¬ ctrl < 32)
      (hlen : ctrl.toNat / 32 = 7) (h : LzfTokens ip ts) :
      LzfTokens (ctrl :: extra :: b :: ip) (.copy (lzfBack ctrl b) (7 + extra.toNat + 2) :: ts)

/-- The bytes are a stream of tokens, of one at least, that make `raw`. -/
def LzfExpands (compressed raw : List UInt8) : Prop :=
  compressed ≠ [] ∧ ∃ ts, LzfTokens compressed ts ∧ Expands [] ts raw

section Decompress

variable {outLen fuel : Nat} {ctrl b : UInt8} {ip out result c : List UInt8}

theorem lzfCopy_isCopy {back : Nat} (len : Nat) (h : IsCopy out back c) :
    ∃ d, lzfCopy len (out.length - back + c.length) (out ++ c) = some (out ++ (c ++ d)) ∧
      d.length = len ∧ IsCopy out back (c ++ d) := by
  induction len generalizing c with
  | zero => exact ⟨[], by rw [List.append_nil]; rfl, rfl, by rwa [List.append_nil]⟩
  | succ len ih =>
    have hback := h.pos
    have hin := h.le
    have hlt : out.length - back + c.length < (out ++ c).length := by
      rw [List.length_append]
      omega
    obtain ⟨a, ha⟩ : ∃ a, (out ++ c)[out.length - back + c.length]? = some a :=
      ⟨_, List.getElem?_eq_getElem hlt⟩
    obtain ⟨d, hcopy, hlen, hd⟩ := ih (h.snoc ha)
    refine ⟨a :: d, ?_, congrArg (· + 1) hlen, ?_⟩
    · rw [List.length_append, List.length_singleton, ← Nat.add_assoc, ← List.append_assoc,
        List.append_assoc c] at hcopy
      rw [lzfCopy, ha]
      exact hcopy
    · rw [List.append_assoc] at hd
      exact hd

/-- What the loop does behind an operation. -/
def lzfNext (outLen fuel : Nat) (ip out : List UInt8) : Option (List UInt8) :=
  if ip = [] then some out else lzfLoop outLen fuel ip out

theorem shift_five (ctrl : UInt8) : (ctrl >>> 5).toNat = ctrl.toNat / 32 := by
  rw [UInt8.toNat_shiftRight]
  exact Nat.shiftRight_eq_div_pow ctrl.toNat 5

theorem and_low_five (ctrl : UInt8) : (ctrl &&& 0x1f).toNat = ctrl.toNat % 32 := by
  rw [UInt8.toNat_and]
  exact Nat.and_two_pow_sub_one_eq_mod ctrl.toNat 5

theorem lzfLoop_literal (hctrl : ctrl < 32) : lzfLoop outLen (fuel + 1) (ctrl :: ip) out =
    if outLen < out.length + (ctrl.toNat + 1) then none
    else if ip.length < ctrl.toNat + 1 then none
    else lzfNext outLen fuel (ip.drop (ctrl.toNat + 1)) (out ++ ip.take (ctrl.toNat + 1)) := by
  rw [lzfLoop]
  simp only [hctrl, if_true]
  rfl

/-- What the loop makes of a back reference whose length is known. -/
def lzfBackref (outLen fuel : Nat) (ctrl : UInt8) (len : Nat) (out : List UInt8) :
    List UInt8 → Option (List UInt8)
  | [] => none
  | b :: ip =>
    if outLen < out.length + len + 2 then none
    else if out.length < lzfBack ctrl b then none
    else (lzfCopy (len + 2) (out.length - lzfBack ctrl b) out).bind (lzfNext outLen fuel ip)

theorem lzfLoop_copy (hctrl : ¬ ctrl < 32) : lzfLoop outLen (fuel + 1) (ctrl :: ip) out =
    match ip with
    | [] => none
    | b :: rest =>
      if ctrl.toNat / 32 = 7 then lzfBackref outLen fuel ctrl (7 + b.toNat) out rest
      else lzfBackref outLen fuel ctrl (ctrl.toNat / 32) out (b :: rest) := by
  rw [lzfLoop]
  simp only [hctrl, if_false, shift_five, and_low_five]
  cases ip with
  | nil => rfl
  | cons b rest =>
    by_cases h : ctrl.toNat / 32 = 7
    · simp only [h, if_true]
      cases rest with
      | nil => rfl
      | cons b' rest => rfl
    · refine Eq.trans ?_ (if_neg h).symm
      split
      · next hnil => cases hnil
      · next h7 _ => exact absurd h7 h
      · rfl

/-- The tokens of the bytes continue the output to the result. -/
def Continues (ip out result : List UInt8) : Prop := ∃ ts, LzfTokens ip ts ∧ Expands out ts result

theorem Continues.length_le (h : Continues ip out result) : out.length ≤ result.length := by
  obtain ⟨ts, -, hexpands⟩ := h
  exact hexpands.length_le

theorem continues_nil : Continues [] out result ↔ out = result := by
  constructor
  · rintro ⟨ts, htokens, hexpands⟩
    cases htokens
    cases hexpands
    rfl
  · rintro rfl
    exact ⟨[], .nil, .nil out⟩

theorem continues_literal (hctrl : ctrl < 32) : Continues (ctrl :: ip) out result ↔
    ctrl.toNat + 1 ≤ ip.length ∧
      Continues (ip.drop (ctrl.toNat + 1)) (out ++ ip.take (ctrl.toNat + 1)) result := by
  constructor
  · rintro ⟨ts, htokens, hexpands⟩
    cases htokens with
    | literal _ hrun htokens =>
      cases hexpands with
      | literal hexpands =>
        rw [← hrun, List.length_append, List.drop_left, List.take_left]
        exact ⟨Nat.le_add_right _ _, _, htokens, hexpands⟩
    | short hno | long hno => exact absurd hctrl hno
  · rintro ⟨hlen, ts, htokens, hexpands⟩
    refine ⟨.literal (ip.take (ctrl.toNat + 1)) :: ts, ?_, .literal hexpands⟩
    have hrun : (ip.take (ctrl.toNat + 1)).length = ctrl.toNat + 1 := List.length_take_of_le hlen
    have hall := LzfTokens.literal hctrl hrun htokens
    rwa [List.take_append_drop] at hall

/-- The same for a back reference whose length is known. -/
def ContinuesBack (ctrl : UInt8) (len : Nat) (out result : List UInt8) : List UInt8 → Prop
  | [] => False
  | b :: ip => ∃ c, IsCopy out (lzfBack ctrl b) c ∧ c.length = len + 2 ∧ Continues ip (out ++ c) result

theorem continues_copy (hctrl : ¬ ctrl < 32) : Continues (ctrl :: ip) out result ↔
    ctrl.toNat / 32 ≠ 7 ∧ ContinuesBack ctrl (ctrl.toNat / 32) out result ip ∨
      ctrl.toNat / 32 = 7 ∧ ∃ extra rest, ip = extra :: rest ∧
        ContinuesBack ctrl (7 + extra.toNat) out result rest := by
  constructor
  · rintro ⟨ts, htokens, hexpands⟩
    generalize hstart : ctrl :: ip = start at htokens
    cases htokens with
    | nil => cases hstart
    | literal hlt =>
      obtain ⟨rfl, -⟩ := List.cons.inj hstart
      exact absurd hlt hctrl
    | short _ hlen htokens =>
      obtain ⟨rfl, rfl⟩ := List.cons.inj hstart
      generalize hcopied : ctrl.toNat / 32 + 2 = n at hexpands
      cases hexpands with
      | copy hcopy hexpands => exact .inl ⟨hlen, _, hcopy, hcopied.symm, _, htokens, hexpands⟩
    | @long _ extra _ _ _ _ hlen htokens =>
      obtain ⟨rfl, rfl⟩ := List.cons.inj hstart
      generalize hcopied : 7 + extra.toNat + 2 = n at hexpands
      cases hexpands with
      | copy hcopy hexpands =>
        exact .inr ⟨hlen, _, _, rfl, _, hcopy, hcopied.symm, _, htokens, hexpands⟩
  · rintro (⟨hlen, hback⟩ | ⟨hlen, extra, rest, rfl, hback⟩)
    · cases ip with
      | nil => exact hback.elim
      | cons b rest =>
        obtain ⟨c, hcopy, hc, ts, htokens, hexpands⟩ := hback
        exact ⟨_, .short hctrl hlen htokens, hc ▸ .copy hcopy hexpands⟩
    · cases rest with
      | nil => exact hback.elim
      | cons b rest =>
        obtain ⟨c, hcopy, hc, ts, htokens, hexpands⟩ := hback
        exact ⟨_, .long hctrl hlen htokens, hc ▸ .copy hcopy hexpands⟩

/-- Behind an operation, if it is so for the loop. -/
theorem lzfNext_iff (hout : out.length ≤ outLen)
    (hloop : lzfLoop outLen fuel ip out = some result ↔
      ip ≠ [] ∧ result.length ≤ outLen ∧ Continues ip out result) :
    lzfNext outLen fuel ip out = some result ↔
      result.length ≤ outLen ∧ Continues ip out result := by
  rw [lzfNext]
  split
  · next hnil =>
    rw [hnil, continues_nil, Option.some_inj]
    constructor
    · rintro rfl
      exact ⟨hout, rfl⟩
    · exact And.right
  · next hne => rw [hloop, and_iff_right hne]

theorem lzfBackref_iff {len : Nat}
    (hloop : ∀ ip' out' : List UInt8, ip'.length ≤ ip.length → out'.length ≤ outLen →
      (lzfLoop outLen fuel ip' out' = some result ↔
        ip' ≠ [] ∧ result.length ≤ outLen ∧ Continues ip' out' result)) :
    lzfBackref outLen fuel ctrl len out ip = some result ↔
      result.length ≤ outLen ∧ ContinuesBack ctrl len out result ip := by
  cases ip with
  | nil => exact iff_of_false (Option.some_ne_none result).symm fun h => h.2
  | cons b ip =>
    have hpos : 0 < lzfBack ctrl b := by
      rw [lzfBack]
      omega
    rw [lzfBackref]
    by_cases hfar : out.length < lzfBack ctrl b
    · rw [if_pos hfar, ite_self]
      refine iff_of_false (Option.some_ne_none result).symm ?_
      rintro ⟨-, c, hcopy, -⟩
      exact absurd hcopy.le (Nat.not_le.2 hfar)
    · obtain ⟨d, hcopied, hd, hcopy⟩ := lzfCopy_isCopy (len + 2) (isCopy_nil hpos (not_lt.1 hfar))
      simp only [List.append_nil, List.nil_append, List.length_nil, Nat.add_zero] at hcopied hcopy
      rw [if_neg hfar, hcopied, Option.bind_some]
      -- the copy is the one that the tokens name
      have hback : ContinuesBack ctrl len out result (b :: ip) ↔ Continues ip (out ++ d) result := by
        constructor
        · rintro ⟨c, hcopy', hc, hcontinues⟩
          rwa [hcopy.unique hcopy' (hd.trans hc.symm)]
        · exact fun hcontinues => ⟨d, hcopy, hd, hcontinues⟩
      rw [hback]
      by_cases hlong : outLen < out.length + len + 2
      · rw [if_pos hlong]
        refine iff_of_false (Option.some_ne_none result).symm fun ⟨hlen, hcontinues⟩ => ?_
        have hle := hcontinues.length_le
        rw [List.length_append] at hle
        omega
      · have hfits : (out ++ d).length ≤ outLen := by
          rw [List.length_append]
          omega
        rw [if_neg hlong, lzfNext_iff hfits (hloop ip (out ++ d) (Nat.le_succ _) hfits)]

/-- The loop ends with a result exactly where the rest of its input is a stream of tokens that
make it, and it fits. -/
theorem lzfLoop_iff (hfuel : ip.length < fuel) (hout : out.length ≤ outLen) :
    lzfLoop outLen fuel ip out = some result ↔
      ip ≠ [] ∧ result.length ≤ outLen ∧ Continues ip out result := by
  induction fuel generalizing ip out with
  | zero => exact absurd hfuel (Nat.not_lt_zero _)
  | succ fuel ih =>
    cases ip with
    | nil => exact iff_of_false (Option.some_ne_none result).symm fun h => h.1 rfl
    | cons ctrl ip =>
      rw [List.length_cons] at hfuel
      rw [and_iff_right (List.cons_ne_nil _ _)]
      by_cases hctrl : ctrl < 32
      · rw [lzfLoop_literal hctrl, continues_literal hctrl]
        by_cases hshort : ip.length < ctrl.toNat + 1
        · rw [if_pos hshort, ite_self]
          exact iff_of_false (Option.some_ne_none result).symm fun h => absurd h.2.1 (Nat.not_le.2 hshort)
        · have htake : (ip.take (ctrl.toNat + 1)).length = ctrl.toNat + 1 :=
            List.length_take_of_le (not_lt.1 hshort)
          rw [if_neg hshort, and_iff_right (not_lt.1 hshort)]
          by_cases hlong : outLen < out.length + (ctrl.toNat + 1)
          · rw [if_pos hlong]
            refine iff_of_false (Option.some_ne_none result).symm fun ⟨hlen, hcontinues⟩ => ?_
            have hle := hcontinues.length_le
            rw [List.length_append, htake] at hle
            omega
          · have hfits : (out ++ ip.take (ctrl.toNat + 1)).length ≤ outLen := by
              rw [List.length_append, htake]
              omega
            have hdrop : (ip.drop (ctrl.toNat + 1)).length < fuel := by
              rw [List.length_drop]
              omega
            rw [if_neg hlong, lzfNext_iff hfits (ih hdrop hfits)]
      · rw [lzfLoop_copy hctrl, continues_copy hctrl]
        cases ip with
        | nil =>
          refine iff_of_false (Option.some_ne_none result).symm ?_
          rintro ⟨-, ⟨-, hback⟩ | ⟨-, extra, rest, hcons, -⟩⟩
          · exact hback.elim
          · cases hcons
        | cons b rest =>
          rw [List.length_cons] at hfuel
          show (if ctrl.toNat / 32 = 7 then _ else _) = some result ↔ _
          by_cases hseven : ctrl.toNat / 32 = 7
          · rw [if_pos hseven, lzfBackref_iff fun ip' out' hip hfits =>
              ih (lt_of_le_of_lt hip (by omega)) hfits]
            refine and_congr_right fun _ => ⟨fun hback => .inr ⟨hseven, b, rest, rfl, hback⟩, ?_⟩
            rintro (⟨hne, -⟩ | ⟨-, extra, rest', hcons, hback⟩)
            · exact absurd hseven hne
            · obtain ⟨rfl, rfl⟩ := List.cons.inj hcons
              exact hback
          · rw [if_neg hseven, lzfBackref_iff fun ip' out' hip hfits =>
              ih (lt_of_le_of_lt hip (by rw [List.length_cons]; omega)) hfits]
            refine and_congr_right fun _ => ⟨fun hback => .inl ⟨hseven, hback⟩, ?_⟩
            rintro (⟨-, hback⟩ | ⟨heq, -⟩)
            · exact hback
            · exact absurd heq hseven

variable {compressed raw : List UInt8}

/-- What `lzf_decompress` returns on any bytes. -/
theorem lzfDecompress_iff : lzfDecompress compressed outLen = some raw ↔
    raw.length ≤ outLen ∧ LzfExpands compressed raw :=
  (lzfLoop_iff (Nat.lt_succ_self _) (Nat.zero_le outLen)).trans and_left_comm

/-- There is nothing yet that the first token could go back to. -/
theorem LzfExpands.writes (h : LzfExpands compressed raw) : lzfWrites compressed = true := by
  obtain ⟨hne, ts, htokens, hexpands⟩ := h
  cases htokens with
  | nil => exact absurd rfl hne
  | literal hctrl hrun =>
    rw [lzfWrites, decide_eq_true_iff, List.length_append, hrun]
    exact ⟨hctrl, Nat.le_add_right _ _⟩
  | @short ctrl =>
    generalize ctrl.toNat / 32 + 2 = n at hexpands
    cases hexpands with
    | copy hcopy => exact absurd hcopy.le (Nat.not_le.2 hcopy.pos)
  | @long _ extra =>
    generalize 7 + extra.toNat + 2 = n at hexpands
    cases hexpands with
    | copy hcopy => exact absurd hcopy.le (Nat.not_le.2 hcopy.pos)

theorem LzfExpands.decompress (h : LzfExpands compressed raw) :
    lzfDecompress compressed raw.length = some raw := lzfDecompress_iff.2 ⟨Nat.le_refl _, h⟩

end Decompress

end KjRedis.Rdb

