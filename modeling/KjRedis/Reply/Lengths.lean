import KjRedis.Reply.Nesting
import KjRedis.Reply.TextCopy

/-! Declared lengths. A length is read as an `int64_t` and kept in 32 bits: a bulk string's
buffer and what is wanted of it are counted there, and the elements of an array by an `int`. -/
namespace KjRedis.Reply

variable {rrp : RedisReplyParser} {r : RedisReply} {rest x : List UInt8} {n : Nat}

/-- What is left of a call on a bulk string's payload honours its declared length. -/
structure BulkHonoured (n : Nat) (rest : List UInt8) (o : Out) : Prop where
  allocated : ∃ b, o.r.vall = [b] ∧ b.size = n + 3
  outcome : o.rc = .premature ∨ o.rc = .invalidBulkString ∨
    o.rc = .over ∧ n + 2 ≤ rest.length ∧ o.bb = rest.drop (n + 2) ∧ o.r.bytes = n ∧
      chainText o.r.vall = (rest.take n).map some

/-- The builder of bulk strings honours the length `n`, whatever follows it. -/
def HonoursBulk (fuel rrb : Nat) (rrp : RedisReplyParser) (r : RedisReply) (n : Nat) : Prop :=
  ∀ x rest, IsInt64 x n → ∃ o, rBuildBulkString fuel rrb rrp (x ++ crlf ++ rest) r = some o ∧
    BulkHonoured n rest o

/-- The payload after a length that is kept whole. -/
theorem buildBulkStringPlain_honoured {rb : Nat} (hstore : (rrp.builders rb).storeLen = n)
    (hn : n < 2 ^ 32 - 3) (hvall : r.vall = [NxBuf.create (n + 3)]) :
    ∃ o, buildBulkStringPlain rb rrp rest r = some o ∧ BulkHonoured n rest o := by
  have hwant : ((n + 2) % 2 ^ 32 + 2 ^ 64) % 2 ^ 64 = n + 2 := by omega
  have hlen : ((rest.take (min rest.length (n + 2))).map some).length = min rest.length (n + 2) := by
    rw [List.length_map, List.length_take]
    omega
  rw [buildBulkStringPlain]
  simp only [hvall, List.getLast?_singleton, NxBuf.create, hstore, List.length_nil, Nat.sub_zero,
    hwant, List.nil_append, List.dropLast_singleton, hlen]
  rw [if_neg (by omega)]
  by_cases hwhole : n + 2 ≤ rest.length
  · rw [Nat.min_eq_right hwhole, if_pos rfl, if_neg (by omega)]
    split
    · exact ⟨_, rfl, ⟨_, rfl, rfl⟩, Or.inr (Or.inl rfl)⟩
    · refine ⟨_, rfl, ⟨_, rfl, rfl⟩, Or.inr (Or.inr ⟨rfl, hwhole, ?_, rfl, ?_⟩)⟩
      · exact Committed.decommit_eq_drop _ _
      · simp [chainText, ← List.map_take, List.take_take]
  · rw [if_neg (by omega)]
    exact ⟨_, rfl, ⟨_, rfl, rfl⟩, Or.inl rfl⟩

/-- Every way a payload can go on leaves the buffer it was given. -/
theorem buildBulkStringPlain_size {rb : Nat} {b : NxBuf} {o : Out} (hvall : r.vall = [b])
    (h : buildBulkStringPlain rb rrp rest r = some o) : ∃ b', o.r.vall = [b'] ∧ b'.size = b.size := by
  rw [buildBulkStringPlain] at h
  simp only [hvall, List.getLast?_singleton, List.dropLast_singleton, List.nil_append] at h
  split at h
  · cases h
    exact ⟨b, hvall, rfl⟩
  · split at h
    · split at h
      · cases h
        exact ⟨b, hvall, rfl⟩
      · split at h <;> cases h <;> exact ⟨_, rfl, rfl⟩
    · cases h
      exact ⟨_, rfl, rfl⟩

/-- Reading on in a payload moves nothing of the parser but its count. -/
theorem buildBulkStringPlain_step (rb : Nat) (rrp : RedisReplyParser) (rest : List UInt8)
    (r : RedisReply) : ∃ o, buildBulkStringPlain rb rrp rest r = some o ∧ o.rc ≠ .again ∧
      o.rrp = { rrp with parsed := o.rrp.parsed } := by
  rw [buildBulkStringPlain]
  split
  · exact ⟨_, rfl, Rc.noConfusion, rfl⟩
  · simp only
    split
    · exact ⟨_, rfl, Rc.noConfusion, rfl⟩
    · split
      · split
        · exact ⟨_, rfl, Rc.noConfusion, rfl⟩
        · split <;> exact ⟨_, rfl, Rc.noConfusion, rfl⟩
      · exact ⟨_, rfl, Rc.noConfusion, rfl⟩

/-- The call on a length and what follows is the call on what follows, with the length in 32 bits
and a buffer of three bytes more, in 32 bits too. -/
theorem rBuildBulkString_header {fuel rrb : Nat} (hopens : Opens rrp ((rrp.builders rrb).depth + 1))
    (hvall : r.vall = []) (hx : IsInt64 x n) :
    ∃ rb rrp' o' o, (rrp'.builders rb).storeLen = n % 2 ^ 32 ∧
      buildBulkStringPlain rb rrp' rest { r with vall := [NxBuf.create ((n % 2 ^ 32 + 3) % 2 ^ 32)] } =
        some o' ∧
      rBuildBulkString (fuel + 2) rrb rrp (x ++ crlf ++ rest) r = some o ∧
      o.rc = o'.rc ∧ o.bb = o'.bb ∧ o.r = o'.r := by
  obtain ⟨hfresh, hcloses⟩ := hopens
  generalize hdepth : (rrp.builders rrb).depth + 1 = depth at hfresh hcloses
  set sub := (rrp.stackAllocReplyBuilder depth).1 with hsub
  set rrp₁ := (rrp.stackAllocReplyBuilder depth).2 with hrrp₁
  have hstore : toUint32 (n : Int) = n % 2 ^ 32 := by
    rw [toUint32]
    omega
  set rrp₂ := RedisReplyParser.write { rrp₁ with parsed := rrp₁.parsed + (x.length + 2) } sub
    { rrp₁.builders sub with storeLen := n % 2 ^ 32, len := 1, state := 2 } with hrrp₂
  have hbuilder : rrp₂.builders sub =
      { rrp₁.builders sub with storeLen := n % 2 ^ 32, len := 1, state := 2 } := by
    rw [hrrp₂]
    simp [RedisReplyParser.write]
  set r₂ := { r with vall := [NxBuf.create ((n % 2 ^ 32 + 3) % 2 ^ 32)] } with hr₂
  have hfirst : bulkStep sub rrp₁ (x ++ crlf ++ rest) r = some ⟨.again, rrp₂, rest, r₂⟩ := by
    have hline : x ++ crlf ++ rest = x ++ cr :: lf :: rest := by simp [crlf]
    rw [bulkStep_len hfresh, buildBulkStringStoreLen, hline, rBuildInteger_line hx]
    simp only [hstore, Int.natCast_nonneg, if_true, hvall, List.nil_append]
    rfl
  obtain ⟨o', hplain, hstop, hparser⟩ := buildBulkStringPlain_step sub rrp₂ rest r₂
  have hsecond : bulkStep sub rrp₂ rest r₂ = some o' := by
    rw [bulkStep_plain (by rw [hbuilder]), hplain]
  have hcall : rBuildBulkString (fuel + 2) rrb rrp (x ++ crlf ++ rest) r =
      withBuilder (fuel + 2) depth bulkStep rrp (x ++ crlf ++ rest) r := by
    rw [← hdepth]
    rfl
  refine ⟨sub, rrp₂, o', ?_⟩
  rw [hcall, withBuilder]
  simp only
  rw [rrbLoop_again hfirst rfl, rrbLoop_stop hsecond hstop]
  by_cases hover : o'.rc = .over
  · have hpop : o'.rrp.stackPopReplyBuilder.isSome = true := by
      rw [← hcloses]
      apply pop_isSome_congr <;> rw [hparser] <;> rfl
    obtain ⟨rrp₃, hrrp₃⟩ := Option.isSome_iff_exists.1 hpop
    simp only [hover, if_true, hrrp₃]
    exact ⟨_, by rw [hbuilder], hplain, rfl, rfl, rfl, rfl⟩
  · simp only [hover, if_false]
    exact ⟨o', by rw [hbuilder], hplain, rfl, rfl, rfl, rfl⟩

theorem honoursBulk_iff {fuel rrb : Nat} (hopens : Opens rrp ((rrp.builders rrb).depth + 1))
    (hvall : r.vall = []) (hn : n < 2 ^ 63) :
    HonoursBulk (fuel + 2) rrb rrp r n ↔ n < 2 ^ 32 - 3 := by
  constructor
  · intro h
    have hx : IsInt64 (decimalInt n) n := decimalInt_isInt64 (by omega) (by omega)
    obtain ⟨o, hcall, ⟨b, hb, hsize⟩, -⟩ := h _ [] hx
    obtain ⟨rb, rrp', o', o₂, -, hplain, hcall₂, -, -, hr⟩ :=
      @rBuildBulkString_header rrp r [] _ n fuel rrb hopens hvall hx
    obtain rfl := Option.some.inj (hcall.symm.trans hcall₂)
    obtain ⟨b', hb', hsize'⟩ := buildBulkStringPlain_size rfl hplain
    rw [hr, hb'] at hb
    obtain rfl := List.singleton_injective hb
    rw [hsize', NxBuf.create] at hsize
    simp only at hsize
    omega
  · intro hlt x rest hx
    have hmod : n % 2 ^ 32 = n := Nat.mod_eq_of_lt (by omega)
    obtain ⟨rb, rrp', o', o, hstore, hplain, hcall, hrc, hbb, hr⟩ :=
      @rBuildBulkString_header rrp r rest x n fuel rrb hopens hvall hx
    rw [hmod] at hstore hplain
    rw [Nat.mod_eq_of_lt (by omega)] at hplain
    obtain ⟨o₂, hplain₂, hhonoured⟩ := @buildBulkStringPlain_honoured rrp'
      { r with vall := [NxBuf.create (n + 3)] } rest n rb hstore hlt rfl
    obtain rfl := Option.some.inj (hplain.symm.trans hplain₂)
    refine ⟨o, hcall, ?_, ?_⟩
    · rw [hr]
      exact hhonoured.allocated
    · rw [hrc, hbb, hr]
      exact hhonoured.outcome

section Arrays

variable {fuel rb k : Nat}

/-- Elements built one after another in the rounds of an array builder: the type of each is read,
its own builder is over and has left the array's as it was. -/
inductive Elements (fuel rb : Nat) : Nat → Out → Out → Prop
  | none (o : Out) : Elements fuel rb 0 o o
  | next {k : Nat} {o₀ o t e o' : Out} (hbefore : Elements fuel rb k o₀ o) (hagain : o.rc = .again)
      (htype : arrayStep (rBuildArray fuel) fuel rb o.rrp o.bb o.r = some t) (hgo : t.rc = .again)
      (helement : buildByType (rBuildArray fuel) fuel rb t.rrp t.bb
        { RedisReply.init with type := t.r.elemtype } = some e)
      (hover : e.rc = .over) (hown : e.rrp.builders rb = t.rrp.builders rb)
      (hround : arrayStep (rBuildArray fuel) fuel rb t.rrp t.bb t.r = some o') :
      Elements fuel rb (k + 1) o₀ o'

/-- The builder of arrays honours the length `n`: it has room for as many elements, and it is over
with the last of them and not before. -/
def HonoursArray (fuel rb : Nat) (rrp : RedisReplyParser) (r : RedisReply) (n : Nat) : Prop :=
  ∀ x rest, IsInt64 x n → ∃ o, arrayStep (rBuildArray fuel) fuel rb rrp (x ++ crlf ++ rest) r = some o ∧
    o.r.nalloc = n ∧ ∀ k o', Elements fuel rb (k + 1) o o' →
      o'.rc = (if k + 1 < n then .again else .over) ∧ o'.r.arrval.map List.length = some (k + 1)

/-- The builder of an array that awaits its next element, after `k`. -/
structure Counting (rb n k : Nat) (o : Out) : Prop where
  state : (o.rrp.builders rb).state = 2
  len : (o.rrp.builders rb).len = n
  arridx : (o.rrp.builders rb).arridx = k
  elems : o.r.arrval.map List.length = some k
  nalloc : o.r.nalloc = n

/-- The round that ends an element, which the builder of the array counts. -/
theorem elementRound {o t e : Out} (hc : Counting rb n k o) (hpos : 0 < n)
    (htype : arrayStep (rBuildArray fuel) fuel rb o.rrp o.bb o.r = some t) (hgo : t.rc = .again)
    (helement : buildByType (rBuildArray fuel) fuel rb t.rrp t.bb
      { RedisReply.init with type := t.r.elemtype } = some e)
    (hover : e.rc = .over) (hown : e.rrp.builders rb = t.rrp.builders rb) :
    ∃ o', arrayStep (rBuildArray fuel) fuel rb t.rrp t.bb t.r = some o' ∧ o'.bb = e.bb ∧
      if 2 ^ 31 ≤ k + 2 then o'.rc = .stray
      else o'.r.arrval.map List.length = some (k + 1) ∧
        if k + 2 ≤ n then o'.rc = .again ∧ Counting rb n (k + 1) o' else o'.rc = .over := by
  obtain ⟨elems, harr, hlen⟩ := Option.map_eq_some_iff.1 hc.elems
  obtain ⟨hbuilder, hr⟩ : t.rrp.builders rb = { o.rrp.builders rb with state := 3 } ∧
      t.r = { o.r with elemtype := t.r.elemtype } := by
    rw [arrayStep_type hc.state, buildArrayElementType] at htype
    split at htype
    · cases htype
      cases hgo
    · split at htype
      · cases htype
        cases hgo
      · cases htype
        exact ⟨by simp [RedisReplyParser.write], rfl⟩
  have hstate : (t.rrp.builders rb).state = 3 := by rw [hbuilder]
  have harridx : (t.rrp.builders rb).arridx = k := by rw [hbuilder, hc.arridx]
  have harrval : t.r.arrval = some elems := by rw [hr, harr]
  have hnalloc : t.r.nalloc = n := by rw [hr, hc.nalloc]
  have hget : (elems ++ [{ RedisReply.init with type := t.r.elemtype }])[k]? =
      some { RedisReply.init with type := t.r.elemtype } := by
    rw [← hlen]
    exact List.getElem?_concat_length
  have hmin : min k ((elems ++ [{ RedisReply.init with type := t.r.elemtype }]).length - 1) = k := by
    rw [List.length_append, List.length_singleton, hlen, Nat.add_sub_cancel, Nat.min_self]
  have hlength : ((elems ++ [{ RedisReply.init with type := t.r.elemtype }]).set k e.r).length =
      k + 1 := by
    rw [List.length_set, List.length_append, List.length_singleton, hlen]
  have hround : arrayStep (rBuildArray fuel) fuel rb t.rrp t.bb t.r =
      some (buildArrayElementEnd rb { t.r with
        arrval := some ((elems ++ [{ RedisReply.init with type := t.r.elemtype }]).set k e.r) } e) := by
    rw [arrayStep_element hstate, buildArrayElement]
    simp only [harrval, hnalloc, harridx]
    rw [if_neg (by omega), if_pos (Nat.le_of_eq hlen), hmin, hget]
    simp only
    rw [helement]
  refine ⟨_, hround, ?_⟩
  rw [buildArrayElementEnd, if_pos hover, hown, hbuilder]
  simp only [hc.arridx, hc.len]
  by_cases hfull : 2 ^ 31 ≤ k + 2
  · rw [if_pos (by omega), if_pos hfull]
    exact ⟨rfl, rfl⟩
  · rw [if_neg (by omega), if_neg hfull]
    by_cases hmore : k + 2 ≤ n
    · rw [if_pos (by omega), if_pos hmore]
      refine ⟨rfl, congrArg some hlength, rfl, ?_⟩
      constructor
      · simp [RedisReplyParser.write]
      · simp [RedisReplyParser.write]
      · simp [RedisReplyParser.write]
      · exact congrArg some hlength
      · exact hnalloc
    · rw [if_neg (by omega), if_neg hmore]
      exact ⟨rfl, congrArg some hlength, hover⟩

/-- The builder of an array after the line with its length. -/
theorem arrayStep_header (hstate : (rrp.builders rb).state = 0) (harridx : (rrp.builders rb).arridx = 0)
    (hpos : 0 < n) (hx : IsInt64 x n) :
    ∃ o, arrayStep (rBuildArray fuel) fuel rb rrp (x ++ crlf ++ rest) r = some o ∧ o.rc = .again ∧
      o.bb = rest ∧ Counting rb (n % 2 ^ 32) 0 o := by
  have hlen : toUint32 (n : Int) = n % 2 ^ 32 := by
    rw [toUint32]
    omega
  have hline : x ++ crlf ++ rest = x ++ cr :: lf :: rest := by simp [crlf]
  rw [arrayStep_len hstate, buildArrayLen, hline, rBuildInteger_line hx]
  simp only [hlen]
  rw [if_pos (by omega)]
  refine ⟨_, rfl, rfl, rfl, ?_⟩
  constructor
  · simp [RedisReplyParser.write]
  · simp [RedisReplyParser.write]
  · simpa [RedisReplyParser.write] using harridx
  · rfl
  · rfl

/-- Elements one after another, with a count that stays in an `int`. -/
theorem elements_counted {o o' : Out} (hc : Counting rb n 0 o) (hagain : o.rc = .again) (hpos : 0 < n)
    (hn : n < 2 ^ 31 - 1) (h : Elements fuel rb k o o') :
    k < n ∧ o'.rc = .again ∧ Counting rb n k o' ∨
      k = n ∧ o'.rc = .over ∧ o'.r.arrval.map List.length = some n := by
  induction h with
  | none => exact Or.inl ⟨hpos, hagain, hc⟩
  | @next k o₀ o t e o' _ hmore htype hgo helement hover hown hround ih =>
    rcases ih hc hagain with ⟨hlt, -, hcounting⟩ | ⟨-, hstop, -⟩
    · obtain ⟨o₂, hround₂, -, hresult⟩ := elementRound hcounting hpos htype hgo helement hover hown
      obtain rfl := Option.some.inj (hround.symm.trans hround₂)
      rw [if_neg (by omega)] at hresult
      obtain ⟨hlen, hrc⟩ := hresult
      by_cases hnext : k + 2 ≤ n
      · rw [if_pos hnext] at hrc
        exact Or.inl ⟨by omega, hrc⟩
      · rw [if_neg hnext] at hrc
        have hlast : k + 1 = n := by omega
        rw [hlast] at hlen
        exact Or.inr ⟨hlast, hrc, hlen⟩
    · rw [hmore] at hstop
      cases hstop

/-- `m` integers, as elements. -/
def ones (m : Nat) : List UInt8 := (List.replicate m [58, 49, cr, lf]).flatten

theorem ones_succ (m : Nat) : ones (m + 1) = 58 :: [49] ++ cr :: lf :: ones m := by
  rw [ones, List.replicate_succ, List.flatten_cons]
  rfl

/-- An integer is read as the next element. -/
theorem element_one {o : Out} {m : Nat} (hc : Counting rb n k o) (hbb : o.bb = ones (m + 1)) :
    ∃ t e, arrayStep (rBuildArray fuel) fuel rb o.rrp o.bb o.r = some t ∧ t.rc = .again ∧
      buildByType (rBuildArray fuel) fuel rb t.rrp t.bb
        { RedisReply.init with type := t.r.elemtype } = some e ∧
      e.rc = .over ∧ e.rrp.builders rb = t.rrp.builders rb ∧ e.bb = ones m := by
  have hone : IsInt64 (decimalInt 1) 1 := decimalInt_isInt64 (by omega) (by omega)
  obtain ⟨t, htype, hgo, hbb', helemtype⟩ : ∃ t,
      arrayStep (rBuildArray fuel) fuel rb o.rrp o.bb o.r = some t ∧ t.rc = .again ∧
        t.bb = decimalInt 1 ++ cr :: lf :: ones m ∧ t.r.elemtype = .integer := by
    rw [hbb, ones_succ, arrayStep_type hc.state]
    exact ⟨_, rfl, rfl, rfl, rfl⟩
  obtain ⟨e, helement, hover, hown, hbb''⟩ : ∃ e,
      rBuildIntval t.rrp t.bb { RedisReply.init with type := t.r.elemtype } = some e ∧
        e.rc = .over ∧ e.rrp.builders rb = t.rrp.builders rb ∧ e.bb = ones m := by
    rw [rBuildIntval, hbb', rBuildInteger_line hone]
    exact ⟨_, rfl, rfl, rfl, rfl⟩
  refine ⟨t, e, htype, hgo, ?_, hover, hown, hbb''⟩
  rw [buildByType]
  simp only [helemtype] at helement ⊢
  exact helement

/-- Integers one after another reach every count below that of the last `int`. -/
theorem elements_ones {o : Out} {m : Nat} (hc : Counting rb n 0 o) (hagain : o.rc = .again)
    (hn : 2 ^ 31 - 1 ≤ n) (hbb : o.bb = ones (k + m)) (hk : k + 1 < 2 ^ 31) :
    ∃ o', Elements fuel rb k o o' ∧ o'.rc = .again ∧ Counting rb n k o' ∧ o'.bb = ones m := by
  induction k generalizing m with
  | zero =>
    rw [Nat.zero_add] at hbb
    exact ⟨o, .none o, hagain, hc, hbb⟩
  | succ k ih =>
    rw [Nat.add_assoc, Nat.add_comm 1] at hbb
    obtain ⟨o₁, hbefore, hmore, hcounting, hbb₁⟩ := ih hbb (by omega)
    obtain ⟨t, e, htype, hgo, helement, hover, hown, hbb₂⟩ := element_one hcounting hbb₁
    obtain ⟨o₂, hround, hbb₃, hresult⟩ :=
      elementRound hcounting (by omega) htype hgo helement hover hown
    rw [if_neg (by omega)] at hresult
    obtain ⟨-, hrc⟩ := hresult
    rw [if_pos (by omega)] at hrc
    exact ⟨o₂, .next hbefore hmore htype hgo helement hover hown hround, hrc.1, hrc.2,
      hbb₃.trans hbb₂⟩

theorem honoursArray_iff (hstate : (rrp.builders rb).state = 0)
    (harridx : (rrp.builders rb).arridx = 0) (hpos : 0 < n) (hn : n < 2 ^ 63) :
    HonoursArray fuel rb rrp r n ↔ n < 2 ^ 31 - 1 := by
  have hx : IsInt64 (decimalInt n) n := decimalInt_isInt64 (by omega) (by omega)
  constructor
  · intro h
    by_contra hbig
    obtain ⟨o, hheader, hagain, hbb, hc⟩ := @arrayStep_header rrp r (ones (2 ^ 31 - 1)) _ n fuel rb
      hstate harridx hpos hx
    obtain ⟨o', hheader', hnalloc, helements⟩ := h _ (ones (2 ^ 31 - 1)) hx
    obtain rfl := Option.some.inj (hheader.symm.trans hheader')
    have hmod : n % 2 ^ 32 = n := hc.nalloc.symm.trans hnalloc
    rw [hmod] at hc
    obtain ⟨o₁, hbefore, hmore, hcounting, hbb₁⟩ :=
      @elements_ones n fuel rb (2 ^ 31 - 2) o 1 hc hagain (by omega) hbb (by omega)
    obtain ⟨t, e, htype, hgo, helement, hover, hown, -⟩ := element_one hcounting hbb₁
    obtain ⟨o₂, hround, -, hresult⟩ := elementRound hcounting hpos htype hgo helement hover hown
    rw [if_pos (by omega)] at hresult
    obtain ⟨hrc, -⟩ :=
      helements _ o₂ (.next hbefore hmore htype hgo helement hover hown hround)
    rw [hresult] at hrc
    split at hrc <;> cases hrc
  · intro hlt x rest hx'
    obtain ⟨o, hheader, hagain, hbb, hc⟩ := @arrayStep_header rrp r rest x n fuel rb hstate harridx
      hpos hx'
    rw [Nat.mod_eq_of_lt (by omega)] at hc
    refine ⟨o, hheader, hc.nalloc, ?_⟩
    intro k o' helements
    rcases elements_counted hc hagain hpos hlt helements with ⟨hmore, hrc, hcounting⟩ | ⟨hlast, hrc, hlen⟩
    · rw [if_pos hmore]
      exact ⟨hrc, hcounting.elems⟩
    · rw [if_neg (by omega), hlast]
      exact ⟨hrc, hlen⟩

end Arrays

/-- A declared length is honoured as long as it and what is counted with it stay in 32 bits: for a
bulk string three bytes more, for an array the count of its elements in an `int`. -/
theorem honoursLength_iff {fuel rrb rb : Nat} (hopens : Opens rrp ((rrp.builders rrb).depth + 1))
    (hvall : r.vall = []) (hstate : (rrp.builders rb).state = 0)
    (harridx : (rrp.builders rb).arridx = 0) (hn : n < 2 ^ 63) :
    (HonoursBulk (fuel + 2) rrb rrp r n ↔ n < 2 ^ 32 - 3) ∧
      (0 < n → (HonoursArray fuel rb rrp r n ↔ n < 2 ^ 31 - 1)) :=
  ⟨honoursBulk_iff hopens hvall hn, fun hpos => honoursArray_iff hstate harridx hpos hn⟩

theorem honoursLength_iff_three : let rrp := (typeRead.stackAllocReplyBuilder 1).2
    let rb := (typeRead.stackAllocReplyBuilder 1).1
    (Opens rrp ((rrp.builders rb).depth + 1) ∧ RedisReply.init.vall = [] ∧
      (rrp.builders rb).state = 0 ∧ (rrp.builders rb).arridx = 0 ∧ 3 < 2 ^ 63) ∧
    HonoursBulk 2 rb rrp .init 3 ∧ HonoursArray 0 rb rrp .init 3 ∧
      ¬ HonoursBulk 2 rb rrp .init (2 ^ 32) ∧ ¬ HonoursArray 0 rb rrp .init (2 ^ 31 - 1) := by
  intro rrp rb
  have hopens : Opens rrp ((rrp.builders rb).depth + 1) := ⟨rfl, rfl⟩
  have hiff := fun {n : Nat} (hn : n < 2 ^ 63) =>
    @honoursLength_iff rrp .init n 0 rb rb hopens rfl rfl rfl hn
  refine ⟨⟨hopens, rfl, rfl, rfl, by decide⟩, ?_, ?_, fun h => ?_, fun h => ?_⟩
  · exact (hiff (by decide)).1.2 (by decide)
  · exact ((hiff (by decide)).2 (by decide)).2 (by decide)
  · exact absurd ((hiff (by decide)).1.1 h) (by decide)
  · exact absurd (((hiff (by decide)).2 (by decide)).1 h) (by decide)

/-- Of a length of `2 ^ 32` nothing is left: an empty string is delivered, and the stream goes on
behind its line end. -/
theorem not_honoursLength : ¬ ∀ n < 2 ^ 63,
    HonoursBulk 2 (typeRead.stackRrb.slot 0) typeRead .init n ∧
      (0 < n → HonoursArray 0 (typeRead.stackRrb.slot 1) typeRead .init n) := by
  intro h
  have hbulk := (h (2 ^ 32) (by decide)).1
  have hlt := (@honoursBulk_iff typeRead .init (2 ^ 32) 0 (typeRead.stackRrb.slot 0)
    opens_typeRead rfl (by decide)).1 hbulk
  exact absurd hlt (by decide)

end KjRedis.Reply
