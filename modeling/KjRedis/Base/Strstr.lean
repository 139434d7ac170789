import KjRedis.Base.BipBuf
import KjRedis.Lib.Occurrence
import Mathlib.Data.UInt
import Mathlib.Tactic.Abel

/-! What `fast_strstr` finds. Its sum starts from the first matched character and never
takes the needle's first character off, so past the first candidate it looks for a sum
that is off by that character. -/
namespace KjRedis
open Occurrence

theorem charToUint_toUInt8 (c : UInt8) : (charToUint c).toUInt8 = c := by
  have hall : ∀ n : Fin 256, (charToUint (UInt8.ofFin n)).toUInt8 = UInt8.ofFin n := by
    decide +kernel
  exact hall c.toFin

theorem charToUint_injective : Function.Injective charToUint :=
  Function.LeftInverse.injective charToUint_toUInt8

/-- What the rolling pass takes for the needle: all but its last character, then one that
is less than the last by the first. -/
def looksLike (needle w : List UInt8) : Bool :=
  match needle with
  | [] => false
  | n :: ns =>
    (n :: ns).dropLast.isPrefixOf w &&
      w[ns.length]?.any fun c => charToUint c == charToUint (ns.getLastD n) - charToUint n

theorem looksLike_lt {n : UInt8} {ns w : List UInt8} (h : looksLike (n :: ns) w) :
    ns.length < w.length := by
  unfold looksLike at h
  obtain ⟨c, hc, -⟩ := (Option.any_eq_true _ _).1 (Bool.and_eq_true_iff.1 h).2
  exact (List.getElem?_eq_some_iff.1 hc).1

theorem looksLike_iff {n : UInt8} {ns w : List UInt8} : looksLike (n :: ns) w ↔
    w.take ns.length = (n :: ns).take ns.length ∧
      ∃ c, w[ns.length]? = some c ∧ charToUint c = charToUint (ns.getLastD n) - charToUint n := by
  have hdrop : (n :: ns).dropLast = (n :: ns).take ns.length := List.dropLast_eq_take
  have hlen : ((n :: ns).take ns.length).length = ns.length := by simp
  unfold looksLike
  rw [Bool.and_eq_true, List.isPrefixOf_iff_prefix, Option.any_eq_true, hdrop,
    List.prefix_iff_eq_take, hlen]
  simp only [beq_iff_eq]
  exact and_congr_left' eq_comm

theorem strstrPrefix_eq (hs ns : List UInt8) (sum : UInt32) (same : Bool) :
    strstrPrefix hs ns sum same =
      (hs.drop ns.length, ns.drop hs.length,
        sum + windowSum charToUint ns.length hs - windowSum charToUint hs.length ns,
        same && hs.take ns.length == ns.take hs.length) := by
  induction hs generalizing ns sum same with
  | nil => cases ns <;> simp [strstrPrefix, windowSum]
  | cons h hs ih =>
    cases ns with
    | nil => simp [strstrPrefix, windowSum]
    | cons n ns =>
      rw [strstrPrefix, ih]
      simp only [List.length_cons, List.drop_succ_cons, windowSum, List.take_succ_cons, List.map_cons,
        List.sum_cons, Prod.mk.injEq, true_and]
      refine ⟨by abel, ?_⟩
      rw [Bool.and_assoc]
      rfl

theorem first_looksLike_short {n : UInt8} {ns w : List UInt8} (hshort : w.length ≤ ns.length) :
    first (looksLike (n :: ns)) w = none := by
  refine first_eq_none_iff.2 fun p _ => Bool.eq_false_iff.2 fun h => ?_
  have := looksLike_lt h
  rw [List.length_drop] at this
  omega

theorem sum_tail (n : UInt8) (ns : List UInt8) : (ns.map charToUint).sum =
    (((n :: ns).take ns.length).map charToUint).sum + charToUint (ns.getLastD n) - charToUint n := by
  have hsplit : (n :: ns).take ns.length ++ [ns.getLastD n] = n :: ns := by
    have := List.dropLast_append_getLast (List.cons_ne_nil n ns)
    rwa [List.dropLast_eq_take, List.getLast_eq_getLastD] at this
  have hsum : (((n :: ns).take ns.length ++ [ns.getLastD n]).map charToUint).sum =
      charToUint n + (ns.map charToUint).sum := by
    rw [hsplit, List.map_cons, List.sum_cons]
  rw [List.map_append, List.sum_append, List.map_singleton, List.sum_singleton] at hsum
  rw [hsum]
  abel

/-- What the rolling pass asks of a window whose sum it has. -/
theorem accepts_iff {n : UInt8} {ns w : List UInt8} (hns : ns ≠ []) (hlen : ns.length < w.length) :
    (windowSum charToUint (ns.length + 1) w - (ns.map charToUint).sum = 0 ∧
      w.head? = (n :: ns).head? ∧
      w.take ((n :: ns).length - 1) = (n :: ns).take ((n :: ns).length - 1)) ↔
    looksLike (n :: ns) w := by
  rw [looksLike_iff, List.length_cons, Nat.add_sub_cancel]
  have hget : w[ns.length]? = some w[ns.length] := List.getElem?_eq_getElem hlen
  have hwindow : windowSum charToUint (ns.length + 1) w =
      ((w.take ns.length).map charToUint).sum + charToUint w[ns.length] := by
    unfold windowSum
    rw [List.take_add_one, hget, List.map_append, List.sum_append]
    simp
  constructor
  · rintro ⟨hsum, -, htake⟩
    refine ⟨htake, _, hget, ?_⟩
    rw [hwindow, sum_tail n ns, htake, sub_eq_zero] at hsum
    rw [add_sub_assoc] at hsum
    exact add_left_cancel hsum
  · rintro ⟨htake, c, hc, hdiff⟩
    obtain rfl : w[ns.length] = c := Option.some.inj (hget.symm.trans hc)
    refine ⟨?_, ?_, htake⟩
    · rw [hwindow, sum_tail n ns, htake, hdiff]
      abel
    · cases ns with
      | nil => exact absurd rfl hns
      | cons n' ns =>
        have := congrArg List.head? htake
        simpa [List.head?_take] using this

theorem strstrScan_eq {n : UInt8} {ns sub : List UInt8} {i : Nat} {sum : UInt32} (hns : ns ≠ [])
    (hlen : ns.length < sub.length)
    (hsum : sum = windowSum charToUint (ns.length + 1) sub - (ns.map charToUint).sum) :
    strstrScan (n :: ns) sub (sub.drop (ns.length + 1)) i sum =
      (first (looksLike (n :: ns)) sub.tail).map (· + (i + 1)) := by
  induction sub generalizing i sum with
  | nil => simp at hlen
  | cons s sub ih =>
    cases hrest : (s :: sub).drop (ns.length + 1) with
    | nil =>
      have hshort : sub.length ≤ ns.length := by simpa using hrest
      rw [List.tail_cons, first_looksLike_short hshort]
      rfl
    | cons c rest =>
      have hdrop : sub.drop (ns.length + 1) = rest := by
        have := congrArg List.tail hrest
        rwa [List.tail_drop] at this
      have hlong : ns.length < sub.length := by
        have := congrArg List.length hrest
        simp only [List.length_drop, List.length_cons] at this
        omega
      have hslide : sum - charToUint s + charToUint c =
          windowSum charToUint (ns.length + 1) sub - (ns.map charToUint).sum := by
        rw [windowSum_slide hrest, hsum]
        abel
      have htail : first (looksLike (n :: ns)) sub =
          if looksLike (n :: ns) sub then some 0
          else (first (looksLike (n :: ns)) sub.tail).map (· + 1) := by
        cases sub with
        | nil => simp at hlong
        | cons s' sub => exact first_cons s'
      rw [strstrScan, List.tail_cons, htail]
      simp only [hslide, accepts_iff hns hlong]
      split
      · simp
      · rw [← hdrop, ih hlong rfl, Option.map_map]
        congr 1
        funext k
        simp only [Function.comp_apply]
        omega

/-- `fast_strstr` tries the first place the needle's first character stands, then slides. -/
theorem fastStrstr_eq {n : UInt8} {ns haystack : List UInt8} {p : Nat}
    (hp : haystack.findIdx? (· == n) = some p) :
    fastStrstr haystack (n :: ns) =
      if (n :: ns).isPrefixOf (haystack.drop p) then some p
      else (first (looksLike (n :: ns)) (haystack.drop (p + 1))).map (· + (p + 1)) := by
  obtain ⟨hlt, hn, -⟩ := List.findIdx?_eq_some_iff_getElem.1 hp
  have hwindow : haystack.drop p = n :: haystack.drop (p + 1) := by
    rw [List.drop_eq_getElem_cons hlt, beq_iff_eq.1 hn]
  unfold fastStrstr
  simp only [hp, strstrPrefix_eq, hwindow, List.tail_cons]
  generalize haystack.drop (p + 1) = w
  by_cases hshort : w.length < ns.length
  · have hleft : ns.drop w.length ≠ [] := by
      intro h
      rw [List.drop_eq_nil_iff] at h
      omega
    have hno : ¬ (n :: ns).isPrefixOf (n :: w) := by
      intro h
      have := (List.isPrefixOf_iff_prefix.1 h).length_le
      simp only [List.length_cons] at this
      omega
    rw [if_pos hleft, if_neg hno, first_looksLike_short hshort.le]
    rfl
  · have hle : ns.length ≤ w.length := Nat.le_of_not_lt hshort
    have hleft : ¬ ns.drop w.length ≠ [] := by
      rw [not_not, List.drop_eq_nil_iff]
      exact hle
    have hsame : (true && w.take ns.length == ns.take w.length) = (n :: ns).isPrefixOf (n :: w) := by
      rw [Bool.true_and, List.take_of_length_le hle, Bool.eq_iff_iff, beq_iff_eq,
        List.isPrefixOf_iff_prefix, List.cons_prefix_cons, List.prefix_iff_eq_take]
      simp only [true_and]
      exact eq_comm
    rw [if_neg hleft, hsame]
    split
    · rfl
    · next hdiff =>
      have hns : ns ≠ [] := by
        rintro rfl
        simp at hdiff
      have hscan := @strstrScan_eq n ns (n :: w) p _ hns (by simpa using Nat.lt_succ_of_le hle) rfl
      rw [List.tail_cons, List.drop_succ_cons] at hscan
      rw [← hscan]
      congr 1
      unfold windowSum
      rw [List.take_of_length_le hle, List.take_succ_cons, List.map_cons, List.sum_cons]

/-- The inputs `fast_strstr` searches right: the character it forgets is zero, or the
needle stands at the first candidate, or there is nothing to find and nothing it would
take for the needle past that candidate. -/
def SearchedRight (haystack needle : List UInt8) : Prop :=
  needle.head? = some 0 ∨
    (∃ p, search (needle.take 1) haystack = some p ∧ At needle haystack p) ∨
    ((∀ p, ¬ At needle haystack p) ∧ ∀ p q, search (needle.take 1) haystack = some p → p < q →
      looksLike needle (haystack.drop q) = false)

/-- A window is the needle when all but its last character and its last one are. -/
theorem prefix_iff_last {n : UInt8} {ns w : List UInt8} : (n :: ns) <+: w ↔
    w.take ns.length = (n :: ns).take ns.length ∧ w[ns.length]? = some (ns.getLastD n) := by
  have hlast : (n :: ns)[ns.length]? = some (ns.getLastD n) := by
    rw [← List.getLast_eq_getLastD (List.cons_ne_nil n ns), ← List.getLast?_eq_some_getLast,
      List.getLast?_eq_getElem?]
    rfl
  constructor
  · rintro ⟨t, rfl⟩
    refine ⟨List.take_append_of_le_length (by simp), ?_⟩
    rw [List.getElem?_append_left (by simp), hlast]
  · rintro ⟨hinit, hget⟩
    rw [List.prefix_iff_eq_take, List.length_cons, List.take_add_one, hinit, hget, ← hlast,
      ← List.take_add_one]
    exact List.take_length.symm

theorem looksLike_zero {ns w : List UInt8} : looksLike (0 :: ns) w ↔ (0 :: ns) <+: w := by
  rw [looksLike_iff, prefix_iff_last]
  refine and_congr_right' ⟨?_, fun h => ⟨_, h, ?_⟩⟩
  · rintro ⟨c, hc, hdiff⟩
    rw [hc, charToUint_injective (hdiff.trans (sub_zero _))]
  · exact (sub_zero _).symm

theorem looksLike_disjoint {n : UInt8} {ns w : List UInt8} (hn : n ≠ 0) (h : looksLike (n :: ns) w) :
    ¬ (n :: ns) <+: w := by
  intro hpre
  obtain ⟨-, c, hc, hdiff⟩ := looksLike_iff.1 h
  have hlast := (prefix_iff_last.1 hpre).2
  rw [hc] at hlast
  obtain rfl := Option.some.inj hlast
  exact hn (charToUint_injective (sub_eq_self.1 hdiff.symm))

theorem search_eq_none_of_first {n : UInt8} {ns haystack : List UInt8}
    (h : search [n] haystack = none) : search (n :: ns) haystack = none := by
  refine (search_eq_none_iff (List.cons_ne_nil _ _)).2 fun p hp => ?_
  have hfirst : At [n] haystack p := hp.prefix ⟨ns, rfl⟩
  exact (search_eq_none_iff (List.cons_ne_nil _ _)).1 h p hfirst

theorem not_at_before_first {n : UInt8} {ns haystack : List UInt8} {p : Nat}
    (h : search [n] haystack = some p) : ∀ q < p, ¬ At (n :: ns) haystack q := by
  intro q hq hat
  have hfirst : At [n] haystack q := hat.prefix ⟨ns, rfl⟩
  exact ((search_eq_some_iff (List.cons_ne_nil _ _)).1 h).2 q hq hfirst

/-- The search returns the first occurrence, or none where there is none, on these inputs
and on no others. -/
theorem findStr_eq_search_iff (bb : Committed) (str : List UInt8) (hne : str ≠ []) :
    bb.findStr str = search str bb ↔ SearchedRight bb str := by
  obtain ⟨n, ns, rfl⟩ := List.exists_cons_of_ne_nil hne
  unfold Committed.findStr SearchedRight
  rw [List.head?_cons, Option.some_inj, List.take_succ_cons, List.take_zero]
  cases hfirst : search [n] bb with
  | none =>
    have hnone := @search_eq_none_of_first n ns bb hfirst
    have hfound : fastStrstr bb (n :: ns) = none := by
      rw [search_singleton] at hfirst
      unfold fastStrstr
      simp only [hfirst]
    simp [hfound, hnone, (search_eq_none_iff hne).1 hnone]
  | some p =>
    rw [fastStrstr_eq (by rw [← search_singleton, hfirst])]
    have hbefore := @not_at_before_first n ns bb p hfirst
    by_cases hat : At (n :: ns) bb p
    · have hfound : search (n :: ns) bb = some p := (search_eq_some_iff hne).2 ⟨hat, hbefore⟩
      rw [if_pos (List.isPrefixOf_iff_prefix.2 hat), hfound]
      exact iff_of_true rfl (.inr (.inl ⟨p, rfl, hat⟩))
    · have hskip : search (n :: ns) bb = (search (n :: ns) (bb.drop (p + 1))).map (· + (p + 1)) := by
        refine search_skip hne fun q hq => ?_
        rcases Nat.lt_succ_iff_lt_or_eq.1 hq with hlt | rfl
        · exact hbefore q hlt
        · exact hat
      rw [if_neg (mt List.isPrefixOf_iff_prefix.1 hat)]
      by_cases hn : n = 0
      · subst hn
        have hsame : looksLike (0 :: ns) = ((0 :: ns).isPrefixOf ·) := by
          funext w
          rw [Bool.eq_iff_iff, looksLike_zero, List.isPrefixOf_iff_prefix]
        rw [hskip, hsame]
        exact iff_of_true rfl (.inl rfl)
      · constructor
        · intro heq
          refine .inr (.inr ?_)
          cases hlook : first (looksLike (n :: ns)) (bb.drop (p + 1)) with
          | some k =>
            rw [hlook, Option.map_some] at heq
            have hk := (first_eq_some_iff.1 hlook).2.1
            rw [List.drop_drop] at hk
            have hfound := ((search_eq_some_iff hne).1 heq.symm).1
            rw [Nat.add_comm] at hfound
            exact absurd hfound (looksLike_disjoint hn hk)
          | none =>
            rw [hlook, Option.map_none] at heq
            refine ⟨(search_eq_none_iff hne).1 heq.symm, ?_⟩
            rintro _ q ⟨rfl⟩ hq
            refine Bool.eq_false_iff.2 fun hlooks => ?_
            have hlt := looksLike_lt hlooks
            rw [List.length_drop] at hlt
            obtain ⟨k, rfl⟩ := Nat.exists_eq_add_of_le hq
            have hk := first_eq_none_iff.1 hlook k (by rw [List.length_drop]; omega)
            rw [List.drop_drop] at hk
            exact Bool.eq_false_iff.1 hk hlooks
        · rintro (hzero | ⟨_, ⟨rfl⟩, hthere⟩ | ⟨hnever, hlook⟩)
          · exact absurd hzero hn
          · exact absurd hthere hat
          · have hnone : first (looksLike (n :: ns)) (bb.drop (p + 1)) = none := by
              refine first_eq_none_iff.2 fun k _ => ?_
              rw [List.drop_drop]
              exact hlook p _ rfl (by omega)
            rw [hnone, (search_eq_none_iff hne).2 hnever]
            rfl

/-- CRLF behind a lone LF is found; behind a lone CR it is not. -/
theorem findStr_eq_search_iff_crlf :
    Committed.findStr [lf, cr, lf, cr] crlf = search crlf [lf, cr, lf, cr] ∧
      Committed.findStr [cr, cr, lf] crlf ≠ search crlf [cr, cr, lf] := by
  have hcrlf : crlf ≠ [] := by decide
  constructor
  · apply (findStr_eq_search_iff [lf, cr, lf, cr] crlf hcrlf).2
    exact .inr (.inl ⟨1, by decide, by decide⟩)
  · intro heq
    rcases (findStr_eq_search_iff [cr, cr, lf] crlf hcrlf).1 heq with
      hzero | ⟨p, hp, hat⟩ | ⟨hnever, -⟩
    · exact absurd hzero (by decide)
    · have hfirst : search (crlf.take 1) [cr, cr, lf] = some 0 := by decide
      obtain rfl := Option.some.inj (hfirst.symm.trans hp)
      exact absurd hat (by decide)
    · exact hnever 1 (by decide)

/-- A lone CR before the first CRLF hides it. -/
theorem not_findStr_eq_search : ¬ ∀ (bb : Committed) (str : List UInt8), str ≠ [] →
    bb.findStr str = search str bb := by
  intro h
  have hlone := h [cr, cr, lf] crlf (by decide)
  have hcode : Committed.findStr [cr, cr, lf] crlf = none := by decide
  have hfirst : search crlf [cr, cr, lf] = some 1 := by decide
  rw [hcode, hfirst] at hlone
  cases hlone

end KjRedis
