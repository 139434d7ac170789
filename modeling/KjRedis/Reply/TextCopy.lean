import KjRedis.Reply.CommandBuilder

/-! Simple strings of any length. The copy loop of `__build_simple_string_plain` starts
every buffer of the chain with the start of the text. -/
namespace KjRedis.Reply

/-- The first `n` characters read off a text that starts again after every `size`. -/
def restarted {α : Type*} (size : Nat) (text : List α) (n : Nat) : List (Option α) :=
  (List.range n).map fun i => text[i % size]?

section
variable {α : Type*} {size n : Nat} {text : List α}

theorem restarted_short (hsize : n ≤ size) (hn : n ≤ text.length) :
    restarted size text n = (text.take n).map some := by
  apply List.ext_getElem
  · simp [restarted, hn]
  · intro i hi _
    have hlt : i < n := by simpa [restarted] using hi
    simp [restarted, Nat.mod_eq_of_lt (Nat.lt_of_lt_of_le hlt hsize),
      List.getElem?_eq_getElem (Nat.lt_of_lt_of_le hlt hn)]

theorem restarted_add : restarted size text (size + n) =
    restarted size text size ++ restarted size text n := by
  unfold restarted
  rw [List.range_add, List.map_append, List.map_map]
  congr 1
  apply List.map_congr_left
  intro i _
  rw [Function.comp_apply, Nat.add_mod_left]

theorem restarted_append {tail : List α} (hn : n ≤ text.length) :
    restarted size (text ++ tail) n = restarted size text n := by
  apply List.map_congr_left
  intro i hi
  have hlt := Nat.mod_le i size
  have := List.mem_range.1 hi
  rw [List.getElem?_append_left (by omega)]

/-- A text is read as it is when every character is the one it is read for. -/
theorem restarted_eq_iff : restarted size text text.length = text.map some ↔
    ∀ i < text.length, text[i]? = text[i % size]? := by
  constructor
  · intro h i hi
    have hget := congrArg (fun l => l[i]?) h
    simp only [restarted, List.getElem?_map, List.getElem?_range hi, Option.map_some,
      List.getElem?_eq_getElem hi, Option.some_inj] at hget
    rw [hget, List.getElem?_eq_getElem hi]
  · intro h
    apply List.ext_getElem
    · simp [restarted]
    · intro i hi _
      have hlt : i < text.length := by simpa [restarted] using hi
      simp [restarted, ← h i hlt, List.getElem?_eq_getElem hlt]

end

theorem chainText_snoc (vall : List NxBuf) (b : NxBuf) :
    chainText (vall ++ [b]) = chainText vall ++ b.data := by
  simp [chainText]

/-- A buffer of the chain that has been filled. -/
def fullBuf (text : List UInt8) : NxBuf :=
  ⟨(text.take simpleStringTempBuffSize).map some, simpleStringTempBuffSize⟩

theorem fullBuf_full {text : List UInt8} (h : simpleStringTempBuffSize ≤ text.length) :
    (fullBuf text).size - (fullBuf text).data.length = 0 := by
  unfold fullBuf
  simp only
  rw [List.length_map, List.length_take, Nat.min_eq_left h, Nat.sub_self]

theorem fullBuf_data {text : List UInt8} (h : simpleStringTempBuffSize ≤ text.length) :
    (fullBuf text).data = restarted simpleStringTempBuffSize text simpleStringTempBuffSize :=
  (restarted_short (Nat.le_refl _) h).symm

/-- The loop from a full last buffer on. -/
theorem simpleStringAppend_full {text : List UInt8} {fuel n : Nat} {vall : List NxBuf}
    {rrb : RedisReplyBuilder} {b : NxBuf} (hlast : vall.getLast? = some b)
    (hfull : b.size - b.data.length = 0) (hn : n ≤ text.length) (hfuel : n ≤ fuel) :
    ∃ vall' rrb', simpleStringAppend text fuel n vall rrb = some (vall', rrb') ∧
      chainText vall' = chainText vall ++ restarted simpleStringTempBuffSize text n := by
  induction fuel generalizing n vall rrb b with
  | zero =>
    obtain rfl : n = 0 := Nat.le_zero.1 hfuel
    exact ⟨vall, rrb, rfl, (List.append_nil _).symm⟩
  | succ fuel ih =>
    cases n with
    | zero => exact ⟨vall, rrb, rfl, (List.append_nil _).symm⟩
    | succ n =>
      rw [simpleStringAppend]
      swap
      · omega
      simp only [hlast, if_pos hfull]
      unfold NxBuf.create
      rw [appendAtPos_nil]
      rcases Nat.le_total (n + 1) simpleStringTempBuffSize with hshort | hlong
      · rw [Nat.min_eq_right hshort, Nat.sub_self, simpleStringAppend]
        refine ⟨_, _, rfl, ?_⟩
        rw [chainText_snoc, restarted_short hshort hn]
      · obtain ⟨m, hm⟩ := Nat.exists_eq_add_of_le hlong
        have hwhole : simpleStringTempBuffSize ≤ text.length := hlong.trans hn
        have hpos : 0 < simpleStringTempBuffSize := by decide
        rw [Nat.min_eq_left hlong, hm, Nat.add_sub_cancel_left]
        obtain ⟨vall', rrb', hrun, hchain⟩ := @ih m (vall ++ [fullBuf text])
          { rrb with
            len := (rrb.len + 1) % 2 ^ 32
            storeLen := (rrb.storeLen + simpleStringTempBuffSize) % 2 ^ 32 } (fullBuf text)
          List.getLast?_concat (fullBuf_full hwhole) (by omega) (by omega)
        refine ⟨vall', rrb', hrun, ?_⟩
        rw [hchain, chainText_snoc, List.append_assoc, restarted_add, fullBuf_data hwhole]

/-- The loop over a reply's first buffer and those it adds. -/
theorem simpleStringAppend_init {text : List UInt8} {n : Nat} (rrb : RedisReplyBuilder)
    (hn : n ≤ text.length) :
    ∃ vall rrb', simpleStringAppend text n n [NxBuf.create simpleStringTempBuffSize] rrb =
        some (vall, rrb') ∧ chainText vall = restarted simpleStringTempBuffSize text n := by
  have hempty : chainText [NxBuf.create simpleStringTempBuffSize] = [] := rfl
  cases n with
  | zero => exact ⟨_, rrb, rfl, hempty⟩
  | succ n =>
    rw [simpleStringAppend]
    swap
    · omega
    unfold NxBuf.create
    have hsize : simpleStringTempBuffSize = 4096 := rfl
    simp only [List.getLast?_singleton, List.length_nil, Nat.sub_zero, List.dropLast_singleton,
      List.nil_append]
    rw [if_neg (by omega), appendAtPos_nil]
    rcases Nat.le_total (n + 1) simpleStringTempBuffSize with hshort | hlong
    · rw [Nat.min_eq_right hshort, Nat.sub_self, simpleStringAppend]
      refine ⟨_, _, rfl, ?_⟩
      rw [restarted_short hshort hn]
      simp [chainText]
    · obtain ⟨m, hm⟩ := Nat.exists_eq_add_of_le hlong
      have hwhole : simpleStringTempBuffSize ≤ text.length := hlong.trans hn
      rw [Nat.min_eq_left hlong, hm, Nat.add_sub_cancel_left]
      obtain ⟨vall, rrb', hrun, hchain⟩ := @simpleStringAppend_full text n m [fullBuf text]
        { rrb with storeLen := (rrb.storeLen + simpleStringTempBuffSize) % 2 ^ 32 } (fullBuf text)
        rfl (fullBuf_full hwhole) (by omega) (by omega)
      refine ⟨vall, rrb', hrun, ?_⟩
      rw [hchain, restarted_add, ← fullBuf_data hwhole]
      simp [chainText]

/-- The builder opened at a depth is a new one, and closing it clears memory of the parser's. -/
structure Opens (rrp : RedisReplyParser) (depth : Nat) : Prop where
  fresh : ((rrp.stackAllocReplyBuilder depth).2.builders (rrp.stackAllocReplyBuilder depth).1).state = 0
  closes : (rrp.stackAllocReplyBuilder depth).2.stackPopReplyBuilder.isSome

/-- What closing a builder comes to does not depend on what the builders hold. -/
theorem pop_isSome_congr {rrp rrp' : RedisReplyParser} (hstack : rrp'.stackRrb = rrp.stackRrb)
    (hpool : rrp'.pool = rrp.pool) (haddr : rrp'.rAddr = rrp.rAddr) :
    rrp'.stackPopReplyBuilder.isSome = rrp.stackPopReplyBuilder.isSome := by
  unfold RedisReplyParser.stackPopReplyBuilder
  rw [hstack, hpool, haddr]
  split
  · rfl
  · split
    · rfl
    · split
      · rfl
      · split <;> rfl

variable {rrp : RedisReplyParser} {r : RedisReply} {text rest : List UInt8}

/-- A builder that goes on once and is then over. -/
theorem withBuilder_over {fuel depth : Nat} {step : Nat → Step} {rrp rrp' : RedisReplyParser}
    {bb : Committed} {r : RedisReply} {o₁ o₂ : Out}
    (hfirst : step (rrp.stackAllocReplyBuilder depth).1 (rrp.stackAllocReplyBuilder depth).2 bb r =
      some o₁) (hagain : o₁.rc = .again)
    (hlast : step (rrp.stackAllocReplyBuilder depth).1 o₁.rrp o₁.bb o₁.r = some o₂)
    (hover : o₂.rc = .over) (hpop : o₂.rrp.stackPopReplyBuilder = some rrp') :
    withBuilder (fuel + 2) depth step rrp bb r = some { o₂ with rrp := rrp' } := by
  unfold withBuilder
  simp only
  rw [rrbLoop_again hfirst hagain, rrbLoop_stop hlast (by simp [hover])]
  simp only [hover, if_true, hpop]

/-- The text builder on a whole line: it is over, has taken the line, and has copied the
start of the text into every buffer. -/
theorem rBuildSimpleString_line (fuel rrb : Nat) (hopens : Opens rrp ((rrp.builders rrb).depth + 1))
    (hvall : r.vall = []) (hcr : cr ∉ text) :
    ∃ o, rBuildSimpleString (fuel + 2) rrb rrp (text ++ crlf ++ rest) r = some o ∧ o.rc = .over ∧
      o.bb = rest ∧
      redisReplyAsString o.r = restarted simpleStringTempBuffSize text text.length := by
  obtain ⟨hfresh, hcloses⟩ := hopens
  generalize hdepth : (rrp.builders rrb).depth + 1 = depth at hfresh hcloses
  set sub := (rrp.stackAllocReplyBuilder depth).1 with hsub
  set rrp₁ := (rrp.stackAllocReplyBuilder depth).2 with hrrp₁
  set rrp₂ := rrp₁.write sub { rrp₁.builders sub with storeLen := 0, len := 1, state := 2 } with hrrp₂
  have hlen : (text ++ crlf ++ rest).length = text.length + 2 + rest.length := by
    simp only [crlf, List.length_append, List.length_cons, List.length_nil]
  have hfind : Committed.findStr (text ++ crlf ++ rest) crlf = some text.length := by
    have := fastStrstr_line hcr rest
    rwa [show text ++ cr :: lf :: rest = text ++ crlf ++ rest by simp [crlf]] at this
  have hdrop : Committed.decommit (text ++ crlf ++ rest) (text.length + 2) = rest := by
    rw [Committed.decommit_eq_drop]
    exact List.drop_left' (by simp [crlf])
  have hstate : (rrp₂.builders sub).state = 2 := by
    rw [hrrp₂]
    simp [RedisReplyParser.write]
  have hinit : lineStep sub rrp₁ (text ++ crlf ++ rest) r =
      some ⟨.again, rrp₂, text ++ crlf ++ rest,
        { r with vall := [NxBuf.create simpleStringTempBuffSize] }⟩ := by
    rw [lineStep_init hfresh, buildSimpleStringInit, hvall]
    rfl
  obtain ⟨vall, b, happend, hchain⟩ := @simpleStringAppend_init (text ++ crlf ++ rest) text.length
    (rrp₂.builders sub) (by omega)
  obtain ⟨rrp₃, hrrp₃, hpopped⟩ : ∃ rrp₃, buildSimpleStringPlain sub rrp₂ (text ++ crlf ++ rest)
      { r with vall := [NxBuf.create simpleStringTempBuffSize] } =
        some ⟨.over, rrp₃, rest, { r with vall, bytes := b.storeLen }⟩ ∧
      rrp₃.stackPopReplyBuilder.isSome = rrp₁.stackPopReplyBuilder.isSome := by
    refine ⟨{ rrp₂.write sub b with parsed := rrp₂.parsed + (text.length + 2) }, ?_,
      pop_isSome_congr rfl rfl rfl⟩
    unfold buildSimpleStringPlain
    rw [if_neg (by omega)]
    simp only [hfind, happend, hdrop, Option.isSome_some, if_true]
    rfl
  have hplain := (@lineStep_plain rrp₂ { r with vall := [NxBuf.create simpleStringTempBuffSize] } sub
    hstate (text ++ crlf ++ rest)).trans hrrp₃
  obtain ⟨rrp₄, hrrp₄⟩ := Option.isSome_iff_exists.1 (hpopped.trans hcloses)
  have hcall := @withBuilder_over fuel depth lineStep rrp rrp₄ _ r _ _ hinit rfl hplain rfl hrrp₄
  have hbuild : rBuildSimpleString (fuel + 2) rrb rrp (text ++ crlf ++ rest) r =
      withBuilder (fuel + 2) depth lineStep rrp (text ++ crlf ++ rest) r := by
    rw [← hdepth]
    rfl
  refine ⟨_, hbuild.trans hcall, rfl, rfl, hchain.trans ?_⟩
  rw [List.append_assoc]
  exact restarted_append (Nat.le_refl _)

/-- A line is built right exactly if every character of it is the one the first buffer's
length before it, or there is none. -/
theorem rBuildSimpleString_text_iff (fuel rrb : Nat)
    (hopens : Opens rrp ((rrp.builders rrb).depth + 1)) (hvall : r.vall = [])
    (hcr : cr ∉ text) :
    (∃ o, rBuildSimpleString (fuel + 2) rrb rrp (text ++ crlf ++ rest) r = some o ∧ o.rc = .over ∧
      o.bb = rest ∧ redisReplyAsString o.r = text.map some) ↔
    ∀ i < text.length, text[i]? = text[i % 4096]? := by
  obtain ⟨o, hcall, hrc, hbb, hstring⟩ :=
    @rBuildSimpleString_line rrp r text rest fuel rrb hopens hvall hcr
  rw [← restarted_eq_iff]
  constructor
  · rintro ⟨o', hcall', -, -, hstring'⟩
    obtain rfl := Option.some.inj (hcall.symm.trans hcall')
    exact hstring.symm.trans hstring'
  · intro h
    exact ⟨o, hcall, hrc, hbb, hstring.trans h⟩

/-- A parser that has just read the leading character of a reply. -/
def typeRead : RedisReplyParser :=
  let (rrb, rrp) := createReplyParser.stackAllocReplyBuilder 0
  rrp.write rrb { rrp.builders rrb with state := 2 }

theorem opens_typeRead : Opens typeRead 1 := ⟨rfl, rfl⟩

theorem rBuildSimpleString_text_iff_ok : let text : List UInt8 := [79, 75]
    ∃ o, rBuildSimpleString 2 (typeRead.stackRrb.slot 0) typeRead (text ++ crlf ++ []) .init =
      some o ∧ o.rc = .over ∧ o.bb = [] ∧ redisReplyAsString o.r = text.map some :=
  (rBuildSimpleString_text_iff 0 (typeRead.stackRrb.slot 0) opens_typeRead rfl (by decide)).2 (by decide)

/-- The byte past the first buffer is lost. -/
theorem not_rBuildSimpleString_text : ¬ ∀ (fuel rrb : Nat) (rrp : RedisReplyParser) (r : RedisReply)
    (text rest : List UInt8), Opens rrp ((rrp.builders rrb).depth + 1) → r.vall = [] → cr ∉ text →
    lf ∉ text → ∃ o, rBuildSimpleString (fuel + 2) rrb rrp (text ++ crlf ++ rest) r = some o ∧
      o.rc = .over ∧ o.bb = rest ∧ redisReplyAsString o.r = text.map some := by
  intro h
  let text : List UInt8 := List.replicate simpleStringTempBuffSize 97 ++ [98]
  have hnot : ∀ {c : UInt8}, c ≠ 97 → c ≠ 98 → c ∉ text := by
    intro c ha hb hmem
    rcases List.mem_append.1 hmem with hmem | hmem
    · exact ha (List.eq_of_mem_replicate hmem)
    · exact hb (List.mem_singleton.1 hmem)
  have hcr : cr ∉ text := hnot (by decide) (by decide)
  obtain ⟨o, hcall, -, -, hstring⟩ := h 0 (typeRead.stackRrb.slot 0) typeRead .init text []
    opens_typeRead rfl hcr (hnot (by decide) (by decide))
  obtain ⟨o', hcall', -, -, hstring'⟩ := @rBuildSimpleString_line typeRead .init text [] 0
    (typeRead.stackRrb.slot 0) opens_typeRead rfl hcr
  obtain rfl := Option.some.inj (hcall.symm.trans hcall')
  have hsame := restarted_eq_iff.1 (hstring'.symm.trans hstring) simpleStringTempBuffSize
    (by simp [text])
  have hlast : text[simpleStringTempBuffSize]? = some 98 := by simp [text]
  have hfirst : text[0]? = some 97 := by
    have hpos : 0 < simpleStringTempBuffSize := by decide
    simp only [text]
    rw [List.getElem?_append_left (by rwa [List.length_replicate]), List.getElem?_replicate,
      if_pos hpos]
  rw [Nat.mod_self, hlast, hfirst] at hsame
  exact absurd (Option.some.inj hsame) (by decide)

end KjRedis.Reply
