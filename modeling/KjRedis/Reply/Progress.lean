import KjRedis.Reply.Consumption
import KjRedis.Reply.Extension
import KjRedis.Reply.Nesting

/-! A call of the parser ends, on every block and whatever the builders hold: its loops
take bytes off the block, and its recursion goes down the reply built so far. -/
namespace KjRedis.Reply

mutual

def RedisReply.height : RedisReply → Nat
  | ⟨_, _, _, _, _, arrval, _, _⟩ => RedisReply.arrayHeight arrval

def RedisReply.arrayHeight : Option (List RedisReply) → Nat
  | none => 0
  | some elems => RedisReply.heights elems + 1

def RedisReply.heights : List RedisReply → Nat
  | [] => 0
  | r :: rs => max r.height (RedisReply.heights rs)

end

open RedisReply

variable {fuel fuel' size : Nat} {rrp rrp' : RedisReplyParser} {bb : Committed} {r r' : RedisReply}
  {step step' : Step} {o : Out} {elems : List RedisReply}

theorem height_eq (r : RedisReply) : r.height = arrayHeight r.arrval := by
  cases r
  rfl

theorem height_none (h : r.arrval = none) : r.height = 0 := by
  rw [height_eq, h, arrayHeight]

theorem height_some (h : r.arrval = some elems) : r.height = heights elems + 1 := by
  rw [height_eq, h, arrayHeight]

theorem height_le_heights (h : r ∈ elems) : r.height ≤ heights elems := by
  induction elems with
  | nil => cases h
  | cons r' elems ih =>
    rw [heights]
    rcases List.mem_cons.1 h with rfl | h
    · exact Nat.le_max_left _ _
    · exact Nat.le_trans (ih h) (Nat.le_max_right _ _)

theorem heights_snoc : heights (elems ++ [r]) = max (heights elems) r.height := by
  induction elems with
  | nil => simp [heights]
  | cons r' elems ih => rw [List.cons_append, heights, heights, ih, max_assoc]

theorem heights_set (index : Nat) : heights (elems.set index r) ≤ max (heights elems) r.height := by
  induction elems generalizing index with
  | nil => exact Nat.zero_le _
  | cons r' elems ih =>
    cases index with
    | zero =>
      rw [List.set_cons_zero, heights, heights]
      omega
    | succ index =>
      have := ih index
      rw [List.set_cons_succ, heights, heights]
      omega

/-- What a call has before it: rounds for every byte, and levels of the reply. -/
def load (bb : Committed) (r : RedisReply) : Nat := 2 * bb.length + r.height

/-- The block loses bytes off its front, as many as are counted, and the reply grows by
fewer levels than bytes are gone. -/
structure Advances (rrp : RedisReplyParser) (bb : Committed) (r : RedisReply) (o : Out) : Prop where
  shrinks : o.bb.length ≤ bb.length
  parsed : o.rrp.parsed + o.bb.length = rrp.parsed + bb.length
  state : o.rrp.state = rrp.state
  load : load o.bb o.r ≤ load bb r

/-- A step that ends wherever block and reply are within `size`. -/
def EndsWithin (size : Nat) (step : Step) : Prop :=
  ∀ rrp bb r, load bb r ≤ size → ∃ o, step rrp bb r = some o ∧ Advances rrp bb r o ∧
    o.rc ≠ .again

/-- The same of one round of a builder's loop, which goes on only as a measure falls. -/
def RoundsWithin (size : Nat) (m : RedisReplyParser → Committed → Nat) (step : Step) : Prop :=
  ∀ rrp bb r, load bb r ≤ size → ∃ o, step rrp bb r = some o ∧ Advances rrp bb r o ∧
    (o.rc = .again → m o.rrp o.bb < m rrp bb)

/-- Nothing taken. -/
theorem advances_still (hbb : o.bb = bb) (hparsed : o.rrp.parsed = rrp.parsed)
    (hstate : o.rrp.state = rrp.state) (hr : o.r.height ≤ r.height) : Advances rrp bb r o :=
  ⟨by rw [hbb], by rw [hbb, hparsed], hstate, by unfold Reply.load; rw [hbb]; omega⟩

/-- `n` bytes taken. -/
theorem advances_decommit {n : Nat} (hpos : 0 < n) (hn : n ≤ bb.length) (hbb : o.bb = bb.decommit n)
    (hparsed : o.rrp.parsed = rrp.parsed + n) (hstate : o.rrp.state = rrp.state)
    (hr : o.r.height ≤ r.height + 1) : Advances rrp bb r o := by
  have hlen : o.bb.length = bb.length - n := by
    rw [hbb, Committed.decommit_eq_drop, List.length_drop]
  exact ⟨by omega, by omega, hstate, by unfold Reply.load; omega⟩

theorem Advances.trans {o' : Out} (h : Advances rrp bb r o) (h' : Advances o.rrp o.bb o.r o') :
    Advances rrp bb r o' :=
  ⟨Nat.le_trans h'.shrinks h.shrinks, h'.parsed.trans h.parsed, h'.state.trans h.state,
    Nat.le_trans h'.load h.load⟩

theorem Advances.from (h : Advances rrp bb r o) (hparsed : rrp.parsed = rrp'.parsed)
    (hstate : rrp.state = rrp'.state) : Advances rrp' bb r o :=
  ⟨h.shrinks, hparsed ▸ h.parsed, h.state.trans hstate, h.load⟩

theorem rrbLoop_ends {m : RedisReplyParser → Committed → Nat}
    (hstep : RoundsWithin size m step) (hsize : load bb r ≤ size) (hfuel : m rrp bb < fuel) :
    ∃ o, rrbLoop step fuel rrp bb r = some o ∧ Advances rrp bb r o ∧ o.rc ≠ .again := by
  induction fuel generalizing rrp bb r with
  | zero => exact absurd hfuel (Nat.not_lt_zero _)
  | succ fuel ih =>
    obtain ⟨o, hrun, hadv, hagain⟩ := hstep rrp bb r hsize
    rw [rrbLoop, hrun]
    simp only
    split
    · next hrc =>
      have hless := hagain hrc
      obtain ⟨o', hrest, hadv', hrc'⟩ := @ih o.rrp o.bb o.r (Nat.le_trans hadv.load hsize) (by omega)
      exact ⟨o', hrest, hadv.trans hadv', hrc'⟩
    · next hrc => exact ⟨o, rfl, hadv, hrc⟩

namespace RedisReplyParser

theorem stackAlloc_keeps (rrp : RedisReplyParser) (depth : Nat) :
    (rrp.stackAllocReplyBuilder depth).2.parsed = rrp.parsed ∧
      (rrp.stackAllocReplyBuilder depth).2.state = rrp.state := by
  unfold stackAllocReplyBuilder
  simp only
  split <;> exact ⟨rfl, rfl⟩

theorem stackPop_keeps (h : rrp.stackPopReplyBuilder = some rrp') :
    rrp'.parsed = rrp.parsed ∧ rrp'.state = rrp.state := by
  unfold stackPopReplyBuilder at h
  split at h
  · cases h
  · split at h
    · obtain rfl := Option.some.inj h
      exact ⟨rfl, rfl⟩
    · split at h
      · obtain rfl := Option.some.inj h
        exact ⟨rfl, rfl⟩
      · split at h
        · obtain rfl := Option.some.inj h
          exact ⟨rfl, rfl⟩
        · cases h

end RedisReplyParser

open RedisReplyParser

theorem withBuilder_ends {m : Nat → RedisReplyParser → Committed → Nat} {depth : Nat}
    {step : Nat → Step} (hstep : ∀ rrb, RoundsWithin size (m rrb) (step rrb))
    (hfuel : ∀ rrb rrp bb, 2 * bb.length ≤ size → m rrb rrp bb < fuel) :
    EndsWithin size (withBuilder fuel depth step) := by
  intro rrp bb r hsize
  obtain ⟨hparsed, hstate⟩ := rrp.stackAlloc_keeps depth
  unfold withBuilder
  generalize rrp.stackAllocReplyBuilder depth = opened at hparsed hstate
  obtain ⟨rrb, rrp₁⟩ := opened
  obtain ⟨o, hloop, hadv, hrc⟩ :=
    rrbLoop_ends (hstep rrb) hsize (hfuel rrb rrp₁ bb (by unfold load at hsize; omega))
  have hadv := hadv.from hparsed hstate
  simp only [hloop]
  split
  · split
    · next rrp₂ hpop =>
      obtain ⟨hparsed', hstate'⟩ := stackPop_keeps hpop
      refine ⟨_, rfl, ?_, hrc⟩
      exact ⟨hadv.shrinks, hparsed' ▸ hadv.parsed, hstate'.trans hadv.state, hadv.load⟩
    · exact ⟨_, rfl, ⟨hadv.shrinks, hadv.parsed, hadv.state, hadv.load⟩, nofun⟩
  · exact ⟨o, rfl, hadv, hrc⟩

theorem rBuildInteger_advances {v : Option Int} {bb' : Committed}
    (h : rBuildInteger rrp bb = (v, rrp', bb')) :
    match v with
    | none => rrp' = rrp ∧ bb' = bb
    | some _ => ∃ n, 0 < n ∧ n ≤ bb.length ∧ bb' = bb.decommit n ∧
        rrp' = { rrp with parsed := rrp.parsed + n } := by
  unfold rBuildInteger at h
  split at h
  · cases h
    exact ⟨rfl, rfl⟩
  · next v' n hread =>
    cases h
    obtain ⟨hpos, hn⟩ := redisReplyReadInteger_length hread
    exact ⟨n, by omega, hn, rfl, rfl⟩

theorem rBuildIntval_ends : EndsWithin size rBuildIntval := by
  intro rrp bb r _
  unfold rBuildIntval
  generalize hread : rBuildInteger rrp bb = res
  obtain ⟨v, rrp', bb'⟩ := res
  have hadv := rBuildInteger_advances hread
  cases v with
  | none =>
    obtain ⟨rfl, rfl⟩ := hadv
    exact ⟨_, rfl, advances_still rfl rfl rfl (Nat.le_refl _), nofun⟩
  | some v =>
    obtain ⟨n, hpos, hn, rfl, rfl⟩ := hadv
    exact ⟨_, rfl, advances_decommit hpos hn rfl rfl rfl (by simp [height_eq]), nofun⟩

/-- A string's builder goes on once, as it starts. -/
def starting (rrb : Nat) (rrp : RedisReplyParser) (_ : Committed) : Nat :=
  if (rrp.builders rrb).state < 2 then 1 else 0

theorem starting_write {rrb : Nat} {b : RedisReplyBuilder} (hb : 2 ≤ b.state) (bb' : Committed)
    (h : (rrp.builders rrb).state < 2) (hrrp : rrp'.builders rrb = b) :
    starting rrb rrp' bb' < starting rrb rrp bb := by
  unfold starting
  rw [if_pos h, hrrp, if_neg (by omega)]
  exact Nat.one_pos

theorem starting_lt {rrb : Nat} (hfuel : 2 ≤ fuel) : starting rrb rrp bb < fuel := by
  unfold starting
  split <;> omega

theorem buildSimpleStringPlain_ends (rrb : Nat) : EndsWithin size (buildSimpleStringPlain rrb) := by
  intro rrp bb r _
  unfold buildSimpleStringPlain
  split
  · exact ⟨_, rfl, advances_still rfl rfl rfl (Nat.le_refl _), nofun⟩
  · next hlong =>
    generalize hfound : bb.findStr crlf = found
    simp only
    split
    · exact ⟨_, rfl, advances_still rfl rfl rfl (Nat.le_refl _), nofun⟩
    · cases found with
      | some p =>
        have hle := findStr_le hfound
        exact ⟨_, rfl, advances_decommit (Nat.succ_pos _) hle rfl rfl rfl (by simp [height_eq]), nofun⟩
      | none =>
        by_cases hcr : bb.getLast? = some cr
        · simp only [if_pos hcr]
          exact ⟨_, rfl, advances_decommit (by omega) (Nat.sub_le _ _) rfl rfl rfl
            (by simp [height_eq]), nofun⟩
        · simp only [if_neg hcr]
          exact ⟨_, rfl, advances_decommit (by omega) (Nat.le_refl _) rfl rfl rfl
            (by simp [height_eq]), nofun⟩

theorem EndsWithin.rounds {m : RedisReplyParser → Committed → Nat} (h : EndsWithin size step) :
    RoundsWithin size m step := by
  intro rrp bb r hsize
  obtain ⟨o, hrun, hadv, hrc⟩ := h rrp bb r hsize
  exact ⟨o, hrun, hadv, fun hagain => absurd hagain hrc⟩

theorem invalidRrbState_ends :
    EndsWithin size fun rrp bb r => some { rc := .invalidRrbState, rrp, bb, r } :=
  fun _ _ _ _ => ⟨_, rfl, advances_still rfl rfl rfl (Nat.le_refl _), nofun⟩

theorem rBuildSimpleString_ends (rrb : Nat) (hfuel : 2 ≤ fuel) :
    EndsWithin size (rBuildSimpleString fuel rrb) := by
  have hinit : ∀ {subRrb rrp} {bb : Committed} {r}, (rrp.builders subRrb).state < 2 →
      ∃ o, buildSimpleStringInit subRrb rrp bb r = some o ∧ Advances rrp bb r o ∧
        (o.rc = .again → starting subRrb o.rrp o.bb < starting subRrb rrp bb) := by
    intro subRrb rrp bb r hstate
    refine ⟨_, rfl, advances_still rfl rfl rfl (by simp [height_eq]), fun _ => ?_⟩
    exact starting_write (Nat.le_refl 2) bb hstate (Function.update_self ..)
  intro rrp bb r hsize
  refine withBuilder_ends (m := starting) (fun subRrb rrp bb r hsize => ?_) (fun _ _ _ _ => starting_lt hfuel) rrp bb r hsize
  split
  · next h => exact hinit (by omega)
  · next h => exact hinit (by omega)
  · exact (buildSimpleStringPlain_ends subRrb).rounds rrp bb r hsize
  · exact invalidRrbState_ends.rounds rrp bb r hsize

theorem buildBulkStringStoreLen_rounds {rrb : Nat} (hstate : (rrp.builders rrb).state < 2) :
    ∃ o, buildBulkStringStoreLen rrb rrp bb r = some o ∧ Advances rrp bb r o ∧
      (o.rc = .again → starting rrb o.rrp o.bb < starting rrb rrp bb) := by
  unfold buildBulkStringStoreLen
  generalize hread : rBuildInteger rrp bb = res
  obtain ⟨v, rrp', bb'⟩ := res
  have hadv := rBuildInteger_advances hread
  cases v with
  | none =>
    obtain ⟨rfl, rfl⟩ := hadv
    exact ⟨_, rfl, advances_still rfl rfl rfl (Nat.le_refl _), nofun⟩
  | some len =>
    obtain ⟨n, hpos, hn, rfl, rfl⟩ := hadv
    simp only
    split
    · refine ⟨_, rfl, advances_decommit hpos hn rfl rfl rfl (by simp [height_eq]), fun _ => ?_⟩
      exact starting_write (Nat.le_refl 2) _ hstate (Function.update_self ..)
    · exact ⟨_, rfl, advances_decommit hpos hn rfl rfl rfl (by simp [height_eq]), nofun⟩

theorem buildBulkStringPlain_ends (rrb : Nat) : EndsWithin size (buildBulkStringPlain rrb) := by
  intro rrp bb r _
  have took : ∀ {n rc} {r' : RedisReply}, n ≤ bb.length → r'.height ≤ r.height →
      Advances rrp bb r ⟨rc, { rrp with parsed := rrp.parsed + n }, bb.decommit n, r'⟩ := by
    intro n rc r' hn hr
    rcases Nat.eq_zero_or_pos n with rfl | hpos
    · exact advances_still (by simp) rfl rfl hr
    · exact advances_decommit hpos hn rfl rfl rfl (Nat.le_succ_of_le hr)
  unfold buildBulkStringPlain
  split
  · exact ⟨_, rfl, advances_still rfl rfl rfl (Nat.le_refl _), nofun⟩
  · next b hlast =>
    simp only
    split
    · exact ⟨_, rfl, advances_still rfl rfl rfl (Nat.le_refl _), nofun⟩
    · split
      · split
        · exact ⟨_, rfl, advances_still rfl rfl rfl (Nat.le_refl _), nofun⟩
        · split
          · exact ⟨_, rfl, advances_still rfl rfl rfl (by simp [height_eq]), nofun⟩
          · exact ⟨_, rfl, took (Nat.min_le_left _ _) (by simp [height_eq]), nofun⟩
      · exact ⟨_, rfl, took (Nat.min_le_left _ _) (by simp [height_eq]), nofun⟩

theorem rBuildBulkString_ends (rrb : Nat) (hfuel : 2 ≤ fuel) :
    EndsWithin size (rBuildBulkString fuel rrb) := by
  intro rrp bb r hsize
  refine withBuilder_ends (m := starting) (fun subRrb rrp bb r hsize => ?_) (fun _ _ _ _ => starting_lt hfuel) rrp bb r hsize
  split
  · next h => exact buildBulkStringStoreLen_rounds (by omega)
  · next h => exact buildBulkStringStoreLen_rounds (by omega)
  · exact (buildBulkStringPlain_ends subRrb).rounds rrp bb r hsize
  · exact invalidRrbState_ends.rounds rrp bb r hsize

/-- An array's builder: a round for the length, and two for each element, of which the
first takes a byte. -/
def remaining (rrb : Nat) (rrp : RedisReplyParser) (bb : Committed) : Nat :=
  2 * bb.length + if (rrp.builders rrb).state = 3 then 1 else 0

theorem remaining_lt {rrb : Nat} {bb' : Committed} (h : bb'.length < bb.length) :
    remaining rrb rrp' bb' < remaining rrb rrp bb := by
  unfold remaining
  split <;> split <;> omega

theorem length_decommit_lt {n : Nat} (hpos : 0 < n) (hn : n ≤ bb.length) :
    (bb.decommit n).length < bb.length := by
  rw [Committed.decommit_eq_drop, List.length_drop]
  omega

theorem buildArrayLen_rounds (rrb : Nat) : RoundsWithin size (remaining rrb) (buildArrayLen rrb) := by
  intro rrp bb r _
  unfold buildArrayLen
  generalize hread : rBuildInteger rrp bb = res
  obtain ⟨v, rrp', bb'⟩ := res
  have hadv := rBuildInteger_advances hread
  cases v with
  | none =>
    obtain ⟨rfl, rfl⟩ := hadv
    exact ⟨_, rfl, advances_still rfl rfl rfl (Nat.le_refl _), nofun⟩
  | some len =>
    obtain ⟨n, hpos, hn, rfl, rfl⟩ := hadv
    simp only
    split
    · refine ⟨_, rfl, advances_decommit hpos hn rfl rfl rfl ?_, fun _ => ?_⟩
      · rw [height_some rfl, heights]
        omega
      · exact remaining_lt (length_decommit_lt hpos hn)
    · refine ⟨_, rfl, advances_decommit hpos hn rfl rfl rfl ?_, nofun⟩
      rw [height_none rfl]
      exact Nat.zero_le _

theorem leading_pos {leading : UInt8} (h : redisReplyReadLeading bb = some leading) :
    1 ≤ bb.length := by
  cases bb with
  | nil => cases h
  | cons => exact Nat.succ_pos _

theorem buildArrayElementType_rounds (rrb : Nat) :
    RoundsWithin size (remaining rrb) (buildArrayElementType rrb) := by
  intro rrp bb r _
  unfold buildArrayElementType
  split
  · exact ⟨_, rfl, advances_still rfl rfl rfl (Nat.le_refl _), nofun⟩
  · next leading hread =>
    have hn := leading_pos hread
    split
    · exact ⟨_, rfl, advances_still rfl rfl rfl (Nat.le_refl _), nofun⟩
    · refine ⟨_, rfl, advances_decommit Nat.one_pos hn rfl rfl rfl (by simp [height_eq]), fun _ => ?_⟩
      exact remaining_lt (length_decommit_lt Nat.one_pos hn)

theorem buildByType_ends {rBuildArray : Nat → Step} (rrb : Nat)
    (harray : EndsWithin size (rBuildArray rrb)) (hfuel : 2 ≤ fuel) :
    EndsWithin size (buildByType rBuildArray fuel rrb) := by
  intro rrp bb r hsize
  unfold buildByType
  split
  · exact rBuildSimpleString_ends rrb hfuel rrp bb r hsize
  · exact rBuildSimpleString_ends rrb hfuel rrp bb r hsize
  · exact rBuildIntval_ends rrp bb r hsize
  · exact rBuildBulkString_ends rrb hfuel rrp bb r hsize
  · exact harray rrp bb r hsize
  · exact ⟨_, rfl, advances_still rfl rfl rfl (Nat.le_refl _), nofun⟩

/-- Behind an element the array's builder waits for the type of the next. -/
theorem buildArrayElementEnd_rounds {rrb : Nat} (hrc : o.rc ≠ .again) (r : RedisReply) :
    (buildArrayElementEnd rrb r o).bb = o.bb ∧ (buildArrayElementEnd rrb r o).r = r ∧
      (buildArrayElementEnd rrb r o).rrp.parsed = o.rrp.parsed ∧
      (buildArrayElementEnd rrb r o).rrp.state = o.rrp.state ∧
      ((buildArrayElementEnd rrb r o).rc = .again →
        ((buildArrayElementEnd rrb r o).rrp.builders rrb).state = 2) := by
  unfold buildArrayElementEnd
  split
  · next hover =>
    simp only
    split
    · exact ⟨rfl, rfl, rfl, rfl, nofun⟩
    · split
      · refine ⟨rfl, rfl, rfl, rfl, fun _ => ?_⟩
        change (Function.update o.rrp.builders rrb _ rrb).state = 2
        rw [Function.update_self]
      · exact ⟨rfl, rfl, rfl, rfl, fun hagain => absurd hagain hrc⟩
  · exact ⟨rfl, rfl, rfl, rfl, fun hagain => absurd hagain hrc⟩

/-- The element's reply is a level below the array's. -/
theorem buildArrayElement_rounds {rBuildArray : Nat → Step} (rrb : Nat)
    (harray : ∀ size', size' < size → EndsWithin size' (rBuildArray rrb)) (hfuel : 2 ≤ fuel)
    (hstate : (rrp.builders rrb).state = 3) (hsize : load bb r ≤ size) :
    ∃ o, buildArrayElement rBuildArray fuel rrb rrp bb r = some o ∧ Advances rrp bb r o ∧
      (o.rc = .again → remaining rrb o.rrp o.bb < remaining rrb rrp bb) := by
  unfold buildArrayElement
  split
  · exact ⟨_, rfl, advances_still rfl rfl rfl (Nat.le_refl _), nofun⟩
  · next elems helems =>
    have hheight := height_some helems
    simp only
    split
    · exact ⟨_, rfl, advances_still rfl rfl rfl (Nat.le_refl _), nofun⟩
    · generalize hmore : (if elems.length ≤ (rrp.builders rrb).arridx then
        elems ++ [{ RedisReply.init with type := r.elemtype }] else elems) = elems'
      have hsame : heights elems' = heights elems := by
        rw [← hmore]
        split
        · rw [heights_snoc, height_none rfl, Nat.max_zero]
        · rfl
      split
      · exact ⟨_, rfl, advances_still rfl rfl rfl (Nat.le_refl _), nofun⟩
      · next r2 hr2 =>
        have hle := height_le_heights (List.mem_of_getElem? hr2)
        have hload : load bb r2 + 1 ≤ load bb r := by
          unfold load
          omega
        obtain ⟨o, hbuild, hadv, hrc⟩ :=
          buildByType_ends rrb (harray (load bb r2) (by omega)) hfuel rrp bb r2 (Nat.le_refl _)
        rw [hbuild]
        set index := min (rrp.builders rrb).arridx (elems'.length - 1)
        set r' : RedisReply := { r with arrval := some (elems'.set index o.r) }
        have hset : r'.height ≤ max (heights elems') o.r.height + 1 := by
          rw [height_some rfl]
          exact Nat.succ_le_succ (heights_set _)
        obtain ⟨hbb, hr, hparsed, hstate', hagain⟩ := @buildArrayElementEnd_rounds o rrb hrc r'
        have hshrinks := hadv.shrinks
        have hfits := hadv.load
        refine ⟨buildArrayElementEnd rrb r' o, rfl, ⟨by rw [hbb]; exact hshrinks,
          by rw [hbb, hparsed]; exact hadv.parsed, hstate'.trans hadv.state, ?_⟩, fun hrc' => ?_⟩
        · rw [hbb, hr]
          unfold load at *
          omega
        · unfold remaining
          rw [hbb, hagain hrc', if_neg (by decide), if_pos hstate]
          omega

theorem rBuildArray_ends (rrb : Nat) (hfuel : size + 3 ≤ fuel) :
    EndsWithin size (rBuildArray fuel rrb) := by
  induction fuel generalizing size rrb with
  | zero => exact absurd hfuel (by omega)
  | succ fuel ih =>
    have hremaining : ∀ {rrb rrp} {bb : Committed}, 2 * bb.length ≤ size →
        remaining rrb rrp bb < fuel := by
      intro rrb rrp bb hbb
      unfold remaining
      split <;> omega
    intro rrp bb r hsize
    rw [rBuildArray]
    refine withBuilder_ends (m := remaining) (fun subRrb rrp bb r hsize => ?_)
      (fun _ _ _ hbb => hremaining hbb) rrp bb r hsize
    split
    · exact buildArrayLen_rounds subRrb rrp bb r hsize
    · exact buildArrayLen_rounds subRrb rrp bb r hsize
    · exact buildArrayElementType_rounds subRrb rrp bb r hsize
    · next hstate =>
      exact buildArrayElement_rounds subRrb (fun size' hlt => ih subRrb (by omega)) (by omega)
        hstate hsize
    · exact invalidRrbState_ends.rounds rrp bb r hsize

theorem zeroHead_height (r : RedisReply) : r.zeroHead.height = r.height := by
  rw [height_eq, height_eq]
  rfl

def unread (_ : RedisReplyParser) (bb : Committed) : Nat := bb.length

theorem buildReplyType_rounds (rrb : Nat) : RoundsWithin size unread (buildReplyType rrb) := by
  intro rrp bb r _
  unfold buildReplyType
  split
  · exact ⟨_, rfl, advances_still rfl rfl rfl (Nat.le_refl _), nofun⟩
  · next leading hread =>
    have hn := leading_pos hread
    split
    · exact ⟨_, rfl, advances_still rfl rfl rfl (Nat.le_refl _), nofun⟩
    · refine ⟨_, rfl, advances_decommit Nat.one_pos hn rfl rfl rfl (by simp [height_eq]), fun _ => ?_⟩
      exact length_decommit_lt Nat.one_pos hn

theorem replyStep_takes (rrb : Nat) : Takes (replyStep fuel rrb) := by
  intro rrp bb r o h
  unfold replyStep at h
  split at h
  · exact buildReplyType_takes rrb rrp bb r o h
  · exact buildReplyType_takes rrb rrp bb r o h
  · exact buildByType_takes rBuildArray_takes rrb rrp bb r o h
  · cases h
    exact took_self (by simp)

theorem replyStep_rounds (rrb : Nat) (hfuel : size + 3 ≤ fuel) :
    RoundsWithin size unread (replyStep fuel rrb) := by
  have htwo : 2 ≤ fuel := by omega
  intro rrp bb r hsize
  unfold replyStep
  split
  · exact buildReplyType_rounds rrb rrp bb r hsize
  · exact buildReplyType_rounds rrb rrp bb r hsize
  · exact (buildByType_ends rrb (rBuildArray_ends rrb hfuel) htwo).rounds rrp bb r hsize
  · exact invalidRrbState_ends.rounds rrp bb r hsize

/-- What a call makes of a reply without a type: it takes a byte, or the reply stays so. -/
def Types (bb : Committed) (o : Out) : Prop :=
  o.bb.length < bb.length ∨ o.r.type = .unknown ∧ o.rc ≠ .over ∧ o.rc ≠ .again

theorem replyStep_types {rrb : Nat} (h : replyStep fuel rrb rrp bb r = some o)
    (htype : r.type = .unknown) : Types bb o := by
  have hreply : buildReplyType rrb rrp bb r = some o → Types bb o := by
    intro hrun
    obtain ⟨o', hrun', -, hless⟩ := buildReplyType_rounds rrb rrp bb r (Nat.le_refl _)
    obtain rfl := Option.some.inj (hrun.symm.trans hrun')
    unfold buildReplyType at hrun
    split at hrun
    · cases hrun
      exact .inr ⟨htype, nofun, nofun⟩
    · split at hrun
      · cases hrun
        exact .inr ⟨htype, nofun, nofun⟩
      · cases hrun
        exact .inl (hless rfl)
  unfold replyStep at h
  split at h
  · exact hreply h
  · exact hreply h
  · simp only [buildReplyContent, buildByType, htype] at h
    cases h
    exact .inr ⟨htype, by simp, by simp⟩
  · cases h
    exact .inr ⟨htype, by simp, by simp⟩

theorem replyLoop_types {rrb rounds : Nat} (h : rrbLoop (replyStep fuel rrb) rounds rrp bb r = some o)
    (htype : r.type = .unknown) : Types bb o := by
  cases rounds with
  | zero => cases h
  | succ rounds =>
    rw [rrbLoop] at h
    split at h
    · cases h
    · next o₁ hstep =>
      have htyped := replyStep_types hstep htype
      split at h
      · next hagain =>
        have hrest := (rrbLoop_takes (replyStep_takes rrb) _ _ _ _ h).suffix.length_le
        exact .inl (Nat.lt_of_le_of_lt hrest (htyped.resolve_right fun hnot => hnot.2.2 hagain))
      · obtain rfl := Option.some.inj h
        exact htyped

/-- A builder's call is its loop and what closes it. -/
theorem withBuilder_run {depth : Nat} {step : Nat → Step}
    (h : withBuilder fuel depth step rrp bb r = some o) :
    ∃ rrb rrp₁ o₁, rrp.stackAllocReplyBuilder depth = (rrb, rrp₁) ∧
      rrbLoop (step rrb) fuel rrp₁ bb r = some o₁ ∧ o₁.close = some o := by
  cases hopened : rrp.stackAllocReplyBuilder depth with
  | mk rrb rrp₁ =>
    cases hloop : rrbLoop (step rrb) fuel rrp₁ bb r with
    | none =>
      unfold withBuilder at h
      rw [hopened] at h
      simp only [hloop] at h
      cases h
    | some o₁ => exact ⟨rrb, rrp₁, o₁, rfl, hloop, (withBuilder_of_run hopened hloop).symm.trans h⟩

theorem close_types {o₁ : Out} (h : o₁.close = some o) (htypes : Types bb o₁) : Types bb o := by
  unfold Out.close at h
  split at h
  · next hrc =>
    have hless := htypes.resolve_right fun hnot => hnot.2.1 hrc
    split at h
    · obtain rfl := Option.some.inj h
      exact .inl hless
    · obtain rfl := Option.some.inj h
      exact .inl hless
  · obtain rfl := Option.some.inj h
    exact htypes

/-- The call for one reply ends. -/
theorem rBuildReply_ends (hfuel : load bb rrp.r + 3 ≤ fuel) :
    ∃ o, rBuildReply fuel rrp bb = some o ∧ Advances rrp bb rrp.r o ∧ o.rc ≠ .again ∧
      (rrp.r.type = .unknown → Types bb o) := by
  have hends : EndsWithin (load bb rrp.r) (withBuilder fuel 0 (replyStep fuel)) :=
    withBuilder_ends (m := fun _ => unread) (fun rrb => replyStep_rounds rrb hfuel)
      fun _ _ bb hbb => by unfold unread; omega
  obtain ⟨o, hrun, hadv, hrc⟩ := hends rrp bb rrp.r (Nat.le_refl _)
  have htypes : rrp.r.type = .unknown → Types bb o := by
    intro htype
    obtain ⟨rrb, rrp₁, o₁, -, hloop, hclose⟩ := withBuilder_run hrun
    exact close_types hclose (replyLoop_types hloop htype)
  rw [rBuildReply_of_run hrun]
  split
  · refine ⟨_, rfl, ⟨hadv.shrinks, hadv.parsed, hadv.state, ?_⟩, hrc, fun htype => ?_⟩
    · have := hadv.load
      unfold load at *
      simp only [zeroHead_height]
      exact this
    · exact (htypes htype).imp id fun hnot => ⟨rfl, hnot.2⟩
  · exact ⟨o, rfl, hadv, hrc, htypes⟩

/-- The bytes each reply a call hands to `r_cb` took, `since` of them in the calls before,
and those taken since the last of these replies. -/
def takenBy (fuel : Nat) : Nat → Rc → RedisReplyParser → Committed → Nat → List Nat × Nat
  | 0, _, _, _, since => ([], since)
  | rounds + 1, rc, rrp, bb, since =>
    if rrp.state ≠ .over ∧ (rc = .again ∨ rc = .over) then
      match rBuildReply fuel rrp bb with
      | none => ([], since)
      | some o =>
        let since := since + (bb.length - o.bb.length)
        if o.rc = .over then
          let (taken, left) := takenBy fuel rounds .over { o.rrp with r := .init } o.bb 0
          (since :: taken, left)
        else takenBy fuel rounds o.rc { o.rrp with r := o.r } o.bb since
    else ([], since)

/-- What a call that ends leaves. -/
structure Parsed (rrp : RedisReplyParser) (bb : Committed) (taken : List Nat × Nat)
    (out : ParseOut) : Prop where
  notOver : out.rc ≠ .over
  again : out.rc ≠ .again
  suffix : out.bb <:+ bb
  parsed : out.rrp.parsed + out.bb.length = rrp.parsed + bb.length
  state : out.rrp.state = rrp.state
  delivered : taken.1.length = out.delivered.length
  pos : ∀ n ∈ taken.1, 1 ≤ n
  since : out.rrp.r.type ≠ .unknown → 1 ≤ taken.2

theorem parseLoop_ends {rounds since : Nat} {rc : Rc} (hstate : rrp.state ≠ .over)
    (hrc : rc = .again ∨ rc = .over) (hsince : rrp.r.type ≠ .unknown → 1 ≤ since)
    (hfuel : load bb rrp.r + 3 ≤ fuel)
    (hrounds : bb.length + (if rrp.r.type = .unknown then 0 else 1) + 2 ≤ rounds) :
    ∃ out, parseLoop (fun _ => 0) fuel rounds rc rrp bb = some out ∧
      Parsed rrp bb (takenBy fuel rounds rc rrp bb since) out := by
  induction rounds generalizing rc rrp bb since with
  | zero => exact absurd hrounds (by omega)
  | succ rounds ih =>
    obtain ⟨o, hbuild, hadv, hagain, htypes⟩ := rBuildReply_ends hfuel
    have htook := (rBuildReply_took hbuild).suffix
    have hload := hadv.load
    have hparsed := hadv.parsed
    have hsince' : o.r.type ≠ .unknown ∨ o.rc = .over → 1 ≤ since + (bb.length - o.bb.length) := by
      intro h
      by_cases htype : rrp.r.type = .unknown
      · have := (htypes htype).resolve_right fun hnot => h.elim (fun h => h hnot.1) hnot.2.1
        omega
      · have := hsince htype
        omega
    rw [parseLoop, takenBy, if_pos ⟨hstate, hrc⟩, if_pos ⟨hstate, hrc⟩, hbuild]
    simp only
    by_cases hrc' : o.rc = .over
    · have hless : o.bb.length + 2 ≤ rounds := by
        split at hrounds
        · next htype =>
          have := (htypes htype).resolve_right fun hnot => hnot.2.1 hrc'
          omega
        · have := htook.length_le
          omega
      have hload' : load o.bb .init + 3 ≤ fuel := by
        have : RedisReply.init.height = 0 := height_none rfl
        unfold load at *
        omega
      obtain ⟨out, hrun, hout⟩ := @ih { o.rrp with r := .init } o.bb 0 .over (hadv.state ▸ hstate)
        (.inr rfl) (fun h => absurd rfl h) hload' hless
      simp only [if_pos hrc', if_true, hrun]
      refine ⟨_, rfl, ⟨hout.notOver, hout.again, hout.suffix.trans htook, ?_, ?_, ?_, ?_, hout.since⟩⟩
      · exact hout.parsed.trans hparsed
      · exact hout.state.trans hadv.state
      · exact congrArg Nat.succ hout.delivered
      · intro n hn
        rcases List.mem_cons.1 hn with rfl | hn
        · exact hsince' (.inr hrc')
        · exact hout.pos n hn
    · obtain ⟨rounds, rfl⟩ : ∃ m, rounds = m + 1 := ⟨rounds - 1, by omega⟩
      have hstop : ¬ (o.rrp.state ≠ .over ∧ (o.rc = .again ∨ o.rc = .over)) :=
        fun hgo => hgo.2.elim hagain hrc'
      rw [if_neg hrc', if_neg hrc', parseLoop, takenBy, if_neg hstop, if_neg hstop]
      exact ⟨_, rfl, hrc', hagain, htook, hparsed, hadv.state, rfl,
        fun n hn => absurd hn List.not_mem_nil, fun h => hsince' (.inl h)⟩

/-- `step'` does what `step` does where it ends. -/
def Grows (step step' : Step) : Prop :=
  ∀ rrp bb r o, step rrp bb r = some o → step' rrp bb r = some o

theorem Grows.refl (step : Step) : Grows step step := fun _ _ _ _ h => h

/-- The parsers `redis_reply_parse_once` leaves, call by call, with a callback that returns
0 and no step outside the parser's objects, and the bytes taken since the last reply
delivered. -/
inductive Reached : RedisReplyParser → Nat → Prop
  | created : Reached createReplyParser 0
  | called {rrp : RedisReplyParser} {since fuel : Nat} {bb : Committed} {out : ParseOut}
      (h : Reached rrp since) (hfuel : load bb rrp.r + 3 ≤ fuel)
      (hrun : parseLoop (fun _ => 0) fuel fuel .again rrp bb = some out) (hrc : out.rc ≠ .stray) :
      Reached out.rrp (takenBy fuel fuel .again rrp bb since).2

variable {since : Nat}

/-- One call, on any fuel from what its block and its reply ask for on. -/
theorem parseLoop_parsed (hstate : rrp.state ≠ .over) (hsince : rrp.r.type ≠ .unknown → 1 ≤ since)
    (hfuel : load bb rrp.r + 3 ≤ fuel) :
    ∃ out, parseLoop (fun _ => 0) fuel fuel .again rrp bb = some out ∧
      Parsed rrp bb (takenBy fuel fuel .again rrp bb since) out := by
  refine parseLoop_ends hstate (.inl rfl) hsince hfuel ?_
  unfold load at hfuel
  split <;> omega

theorem Reached.typed (h : Reached rrp since) :
    rrp.state ≠ .over ∧ (rrp.r.type ≠ .unknown → 1 ≤ since) := by
  induction h with
  | created => exact ⟨nofun, fun h => absurd rfl h⟩
  | called h hfuel hrun hrc ih =>
    obtain ⟨out', hrun', hout⟩ := parseLoop_parsed ih.1 ih.2 hfuel
    obtain rfl := Option.some.inj (hrun.symm.trans hrun')
    exact ⟨hout.state ▸ ih.1, hout.since⟩

end KjRedis.Reply
