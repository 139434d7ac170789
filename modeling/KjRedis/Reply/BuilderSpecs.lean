import KjRedis.Reply.Simulation

/-! One specification for each builder: from a part it holds or is about to open,
its call ends where the reader's run over the same bytes ends. -/
namespace KjRedis.Reply

open RedisReplyParser

variable {env : Envelope} {depth fuel : Nat} {rrp : RedisReplyParser} {r : RedisReply}
  {b : List UInt8}

theorem appendAtPos_nil (size : Nat) (text : List UInt8) :
    (NxBuf.mk [] size).appendAtPos text = ⟨text.map some, size⟩ := by
  unfold NxBuf.appendAtPos
  rw [List.nil_append, List.drop_eq_nil_of_le (by simp), List.append_nil]

/-- One round copies a whole text into a fresh buffer; an empty text leaves it alone. -/
theorem simpleStringAppend_one {acc x tail : List UInt8} {f : RedisReplyBuilder}
    (hempty : acc = [] ∨ x = []) (hlen : x.length ≤ simpleStringTempBuffSize)
    (hstore : f.storeLen = acc.length) :
    simpleStringAppend (x ++ tail) x.length x.length
        [⟨acc.map some, simpleStringTempBuffSize⟩] f =
      some ([⟨(acc ++ x).map some, simpleStringTempBuffSize⟩],
        { f with storeLen := (acc ++ x).length }) := by
  unfold simpleStringTempBuffSize at *
  cases x with
  | nil =>
    rw [List.append_nil, ← hstore]
    rfl
  | cons c x =>
    obtain rfl : acc = [] := by simpa using hempty
    rw [List.length_nil] at hstore
    rw [List.length_cons, simpleStringAppend]
    swap
    · omega
    simp only [List.map_nil, List.getLast?_singleton, List.length_nil, Nat.sub_zero,
      List.dropLast_singleton, List.nil_append]
    rw [List.length_cons] at hlen
    rw [if_neg (by decide), Nat.min_eq_right hlen, Nat.sub_self, appendAtPos_nil,
      List.take_left' (by simp), hstore, Nat.zero_add, Nat.mod_eq_of_lt (by omega)]
    rw [simpleStringAppend, List.length_cons]

/-- The switch of `r_build_simple_string`. -/
def lineStep (subRrb : Nat) : Step := fun rrp bb r =>
  match (rrp.builders subRrb).state with
  | 0 | 1 => buildSimpleStringInit subRrb rrp bb r
  | 2 => buildSimpleStringPlain subRrb rrp bb r
  | _ => some { rc := .invalidRrbState, rrp, bb, r }

theorem lineStep_init {sub : Nat} (h : (rrp.builders sub).state = 0) (bb : Committed) :
    lineStep sub rrp bb r = buildSimpleStringInit sub rrp bb r := by
  unfold lineStep
  rw [h]
  rfl

theorem lineStep_plain {sub : Nat} (h : (rrp.builders sub).state = 2) (bb : Committed) :
    lineStep sub rrp bb r = buildSimpleStringPlain sub rrp bb r := by
  unfold lineStep
  rw [h]
  rfl

section Copying

variable {rb : Nat} {isError : Bool} {acc x : List UInt8}

/-- A builder that has stored `acc`, once it has stored `x` too. -/
def RedisReplyParser.stored (rrp : RedisReplyParser) (rb : Nat) (text : List UInt8) (n : Nat) :
    RedisReplyParser :=
  { rrp.write rb { rrp.builders rb with storeLen := text.length } with parsed := rrp.parsed + n }

/-- A block that holds a piece of a line, without its CR. -/
theorem buildSimpleStringPlain_open (hstore : (rrp.builders rb).storeLen = acc.length)
    (hempty : acc = [] ∨ x = []) (hlen : x.length ≤ simpleStringTempBuffSize) (hx : cr ∉ x)
    (hlong : ¬ x.length < 2) :
    buildSimpleStringPlain rb rrp x (Part.draft (.text isError acc false)) =
      some ⟨.premature, rrp.stored rb (acc ++ x) x.length, [], Part.draft (.text isError (acc ++ x) false)⟩ := by
  have hlast : x.getLast? ≠ some cr := fun h => hx (List.mem_of_getLast? h)
  have happend := @simpleStringAppend_one acc x [] (rrp.builders rb) hempty hlen hstore
  rw [List.append_nil] at happend
  unfold buildSimpleStringPlain
  rw [if_neg hlong]
  simp only [Committed.findStr, fastStrstr_no_cr hx, if_neg hlast, Part.draft, happend,
    Option.isSome_none, Committed.decommit_eq_drop, List.drop_length]
  rfl

/-- A block that ends in the line's CR, which stays in the buffer. -/
theorem buildSimpleStringPlain_cr (hstore : (rrp.builders rb).storeLen = acc.length)
    (hempty : acc = [] ∨ x = []) (hlen : x.length ≤ simpleStringTempBuffSize) (hx : cr ∉ x)
    (hlong : ¬ (x ++ [cr]).length < 2) :
    buildSimpleStringPlain rb rrp (x ++ [cr]) (Part.draft (.text isError acc false)) =
      some ⟨.premature, rrp.stored rb (acc ++ x) x.length, [cr],
        Part.draft (.text isError (acc ++ x) false)⟩ := by
  have happend := @simpleStringAppend_one acc x [cr] (rrp.builders rb) hempty hlen hstore
  unfold buildSimpleStringPlain
  rw [if_neg hlong]
  simp only [Committed.findStr, fastStrstr_cr_last hx, List.getLast?_append, List.getLast?_singleton,
    Option.some_or, if_true, List.length_append, List.length_singleton, Nat.add_sub_cancel, Part.draft,
    happend, Option.isSome_none, Committed.decommit_eq_drop, List.drop_left, Bool.false_eq_true, if_false]
  rw [RedisReplyParser.stored, List.length_append]
  rfl

/-- A block that holds the line to its end. -/
theorem buildSimpleStringPlain_line (hstore : (rrp.builders rb).storeLen = acc.length)
    (hempty : acc = [] ∨ x = []) (hlen : x.length ≤ simpleStringTempBuffSize) (hx : cr ∉ x)
    (rest : List UInt8) :
    buildSimpleStringPlain rb rrp (x ++ cr :: lf :: rest) (Part.draft (.text isError acc false)) =
      some ⟨.over, rrp.stored rb (acc ++ x) (x.length + 2), rest,
        (Resp.text isError (acc ++ x)).render⟩ := by
  have happend := @simpleStringAppend_one acc x (cr :: lf :: rest) (rrp.builders rb) hempty hlen hstore
  have hlong : ¬ (x ++ cr :: lf :: rest).length < 2 := by
    simp only [List.length_append, List.length_cons]
    omega
  have hdrop : (x ++ cr :: lf :: rest).drop (x.length + 2) = rest := by
    rw [show x ++ cr :: lf :: rest = (x ++ [cr, lf]) ++ rest by simp]
    exact List.drop_left' (by simp)
  unfold buildSimpleStringPlain
  rw [if_neg hlong]
  simp only [Committed.findStr, fastStrstr_line hx, Part.draft, happend, Option.isSome_some, if_true,
    Committed.decommit_eq_drop, hdrop, Resp.render]
  rfl

end Copying

/-- Text that is settled has been copied to its end, or none of it has. -/
theorem text_settled {isError : Bool} {acc x : List UInt8}
    (hset : Part.Settled env (.text isError acc false) b) (hx : cr ∉ x)
    (hlen : x = [] ∨ (acc ++ x).length ≤ env.textMax)
    (hb : b = x ∨ b = x ++ [cr] ∨ ∃ rest, b = x ++ cr :: lf :: rest) : acc = [] ∨ x = [] := by
  rcases hset with h | h | h
  · exact .inl h
  · refine .inr ?_
    rcases hlen with h' | h'
    · exact h'
    · rw [List.length_append] at h'
      exact List.eq_nil_of_length_eq_zero (by omega)
  · refine .inr ?_
    cases x with
    | nil => rfl
    | cons c x =>
      exfalso
      apply hx
      rcases hb with rfl | rfl | ⟨rest, rfl⟩ <;>
        simp only [List.cons_append, List.head?_cons, Option.some.injEq] at h <;> simp [h]

/-- What is held for text once more of it is stored. -/
theorem held_text_written {isError : Bool} {acc acc' : List UInt8} (hfs : rrp.FirstStorage)
    (hheld : Held rrp depth (.text isError acc false)) (hfull : acc'.length ≤ simpleStringTempBuffSize)
    (n : Nat) :
    Held (rrp.stored (rrp.stackRrb.slot depth) acc' n) depth (.text isError acc' false) ∧
      Keeps depth rrp (rrp.stored (rrp.stackRrb.slot depth) acc' n) := by
  obtain ⟨-, hnelts, hdepth, ⟨hat, hstate⟩, -, -⟩ := hheld
  set f : RedisReplyBuilder := { rrp.frame depth with storeLen := acc'.length } with hf
  have hframe : (rrp.stored (rrp.stackRrb.slot depth) acc' n).frame depth = f :=
    (write_frame hfs depth depth f).trans (if_pos rfl)
  have hwrite := write_keeps hfs (Nat.le_refl depth) f
  refine ⟨⟨rfl, hnelts, hdepth, ⟨?_, ?_⟩, ?_, hfull⟩,
    ⟨hwrite.elts, hwrite.size, hwrite.nalloc, hwrite.rZeroed, hwrite.state, hwrite.frame⟩⟩
  · rw [hframe]
    exact hat
  · rw [hframe]
    exact hstate
  · rw [hframe]

/-- The text builder once it copies: the block holds a piece of the line, the line up
to its CR, or the line and what follows it. -/
theorem lineStep_outcome {isError : Bool} {acc : List UInt8} (henv : env.Shallow)
    (hfs : rrp.FirstStorage) (hheld : Held rrp depth (.text isError acc false))
    (hset : Part.Settled env (.text isError acc false) b)
    (hwild : Part.run env depth (.text isError acc false) b ≠ .wild) :
    ∃ o, lineStep (rrp.stackRrb.slot depth) rrp b (Part.draft (.text isError acc false)) = some o ∧
      o.rc ≠ .again ∧ Outcome env depth (depth + 1) (.text isError acc false) b rrp o := by
  have hwritten := fun acc' => @held_text_written _ _ isError acc acc' hfs hheld
  obtain ⟨-, hnelts, hdepth, ⟨hat, hstate⟩, hstore, hcap⟩ := hheld
  rw [lineStep_plain (show (rrp.builders (rrp.stackRrb.slot depth)).state = 2 from hstate)]
  obtain ⟨x, hx, hlen, hrunx, hcases⟩ := Part.run_text hwild
  by_cases hshort : b.length < 2
  · refine ⟨⟨.premature, rrp, b, _⟩, if_pos hshort, by simp, ?_⟩
    have hmore : ∃ q, Part.run env depth (.text isError acc false) b = .more q ∧ q.code = .premature := by
      rcases hcases with ⟨rfl, h⟩ | ⟨rfl, h⟩ | ⟨rest, rfl, h⟩
      · exact ⟨_, h, rfl⟩
      · exact ⟨_, h, rfl⟩
      · simp only [List.length_append, List.length_cons] at hshort
        omega
    obtain ⟨q, hq, hcode⟩ := hmore
    unfold Outcome
    rw [hq]
    exact ⟨hcode.symm, Keeps.refl _ _, .text isError acc false, rfl,
      ⟨rfl, hnelts, hdepth, ⟨hat, hstate⟩, hstore, hcap⟩, rfl, hq, .inl hset⟩
  have hempty : acc = [] ∨ x = [] := by
    refine text_settled hset hx hlen ?_
    rcases hcases with ⟨rfl, -⟩ | ⟨rfl, -⟩ | ⟨rest, rfl, -⟩
    · exact .inl rfl
    · exact .inr (.inl rfl)
    · exact .inr (.inr ⟨rest, rfl⟩)
  have hfull : (acc ++ x).length ≤ simpleStringTempBuffSize := by
    rcases hlen with rfl | h
    · rw [List.append_nil]
      exact hcap
    · exact h.trans henv.text
  have hxcap : x.length ≤ simpleStringTempBuffSize := by
    rw [List.length_append] at hfull
    omega
  rcases hcases with ⟨rfl, hrun⟩ | ⟨rfl, hrun⟩ | ⟨rest, rfl, hrun⟩
  · refine ⟨_, buildSimpleStringPlain_open hstore hempty hxcap hx hshort, by simp, ?_⟩
    unfold Outcome
    rw [hrun]
    refine ⟨rfl, (hwritten _ hfull _).2, _, rfl, (hwritten _ hfull _).1, rfl, rfl, .inr ⟨?_, rfl⟩⟩
    rw [List.length_append]
    omega
  · refine ⟨_, buildSimpleStringPlain_cr hstore hempty hxcap hx hshort, by simp, ?_⟩
    unfold Outcome
    rw [hrun]
    refine ⟨rfl, (hwritten _ hfull _).2, _, rfl, (hwritten _ hfull _).1, rfl, ?_, .inl (.inr (.inr rfl))⟩
    have := @Part.run_append env depth (.text isError acc false) x [cr]
    rw [hrunx, hrun] at this
    exact this.symm
  · refine ⟨_, buildSimpleStringPlain_line hstore hempty hxcap hx rest, by simp, ?_⟩
    unfold Outcome
    rw [hrun]
    exact ⟨rfl, (hwritten _ hfull _).2, hnelts, rfl, rfl⟩

theorem rBuildSimpleString_outcome {isError : Bool} {acc : List UInt8} (henv : env.Shallow)
    (hfs : rrp.FirstStorage) (hparent : (rrp.frame depth).depth = depth)
    (hentry : Entry rrp (depth + 1) (.text isError acc false) r)
    (hset : Part.Settled env (.text isError acc false) b)
    (hwild : Part.run env (depth + 1) (.text isError acc false) b ≠ .wild) (hfuel : 2 ≤ fuel) :
    ∃ o, rBuildSimpleString fuel (rrp.stackRrb.slot depth) rrp b r = some o ∧
      Outcome env (depth + 1) (depth + 1) (.text isError acc false) b rrp o := by
  obtain ⟨fuel, rfl⟩ : ∃ n, fuel = n + 2 := ⟨fuel - 2, by omega⟩
  unfold rBuildSimpleString
  rw [show (rrp.builders (rrp.stackRrb.slot depth)).depth = depth from hparent]
  rcases hentry with ⟨-, hheld, rfl⟩ | ⟨hnelts, rfl, hkind⟩
  · have hdepth := hheld.2.2.1
    have hnelts := hheld.2.1
    refine withBuilder_outcome lineStep hfs hdepth
      (alloc_at (by omega) (by unfold maxBuilder at hdepth; omega)) (Keeps.refl _ _) hwild ?_
    obtain ⟨o, hstep, hrc, hout⟩ := lineStep_outcome henv hfs hheld hset hwild
    exact ⟨o, rrbLoop_stop hstep hrc, hout⟩
  · obtain ⟨isError', hp, hdepth⟩ : ∃ isError', Part.text isError acc false = .text isError' [] false ∧
        depth + 1 ≤ maxBuilder := by
      rcases hkind with h | h | ⟨kind, h, -⟩
      · exact h
      · cases h
      · cases h
    cases hp
    obtain ⟨rrp₁, halloc, hk₁, hn₁, hf₁⟩ :=
      alloc_push hfs hnelts (by unfold maxBuilder at hdepth; omega)
    refine withBuilder_outcome lineStep hfs hdepth halloc hk₁ hwild ?_
    have hfs₁ := hk₁.firstStorage hfs
    rw [← hk₁.slot]
    set f := { rrp₁.frame (depth + 1) with storeLen := 0, len := 1, state := 2 } with hf
    have hinit : lineStep (rrp₁.stackRrb.slot (depth + 1)) rrp₁ b
        { RedisReply.init with type := textLeading isError } =
          some ⟨.again, rrp₁.write (rrp₁.stackRrb.slot (depth + 1)) f, b,
            Part.draft (.text isError [] false)⟩ := by
      rw [lineStep_init (by rw [show rrp₁.builders (rrp₁.stackRrb.slot (depth + 1)) = _ from hf₁]; rfl)]
      rfl
    have hk₂ := write_keeps hfs₁ (Nat.le_refl (depth + 1)) f
    have hframe := write_frame hfs₁ (depth + 1) (depth + 1) f
    rw [if_pos rfl] at hframe
    have hheld : Held (rrp₁.write (rrp₁.stackRrb.slot (depth + 1)) f) (depth + 1)
        (.text isError [] false) := by
      refine ⟨rfl, hn₁, hdepth, ⟨?_, ?_⟩, ?_, by simp⟩ <;> rw [hframe, hf]
      · rw [hf₁]
      · rfl
    obtain ⟨o, hstep, hrc, hout⟩ :=
      lineStep_outcome henv (hk₂.firstStorage hfs₁) hheld hset hwild
    rw [hk₂.slot] at hstep
    exact ⟨o, (rrbLoop_again hinit rfl).trans (rrbLoop_stop hstep hrc), hout.transfer rfl hk₂⟩

/-- A length's builder, held since an earlier call or allocated by this one. -/
theorem Entry.enter_num {kind : NumKind} (hfs : rrp.FirstStorage) (hkind : kind ≠ .int)
    (hentry : Entry rrp depth (.num kind []) r) :
    ∃ rrp₁, rrp.stackAllocReplyBuilder depth = (rrp.stackRrb.slot depth, rrp₁) ∧
      Keeps depth rrp rrp₁ ∧ depth ≤ maxBuilder ∧ Held rrp₁ depth (.num kind []) ∧
      r = Part.draft (.num kind []) := by
  have hheld : ∀ rrp' : RedisReplyParser, Held rrp' depth (.num kind []) ↔
      rrp'.stackRrb.nelts = depth + 1 ∧ depth ≤ maxBuilder ∧ rrp'.At depth 0 ∧
        (rrp'.frame depth).arridx = 0 := by
    intro rrp'
    cases kind with
    | int => exact absurd rfl hkind
    | _ => simp [Held]
  rcases hentry with ⟨-, h, rfl⟩ | ⟨hnelts, rfl, hopen⟩
  · have h' := (hheld rrp).1 h
    have hdepth := h'.2.1
    exact ⟨rrp, alloc_at (by omega) (by unfold maxBuilder at hdepth; omega), Keeps.refl _ _, hdepth,
      h, rfl⟩
  · have hdepth : depth ≤ maxBuilder := by
      rcases hopen with ⟨_, h, -⟩ | h | ⟨_, -, h⟩
      · cases h
      · exact absurd (Part.num.inj h).1 hkind
      · exact h
    obtain ⟨rrp₁, halloc, hk, hn, hf⟩ := alloc_push hfs hnelts (by unfold maxBuilder at hdepth; omega)
    refine ⟨rrp₁, halloc, hk, hdepth, (hheld rrp₁).2 ⟨hn, hdepth, ⟨?_, ?_⟩, ?_⟩, rfl⟩ <;> rw [hf] <;> rfl

/-- While no CRLF has arrived a number waits, and nothing is consumed. -/
theorem num_premature {kind : NumKind} (hheld : Held rrp depth (.num kind []))
    (hread : redisReplyReadInteger b = none)
    (hwild : Part.run env depth (.num kind []) b ≠ .wild) (top : Nat) :
    Outcome env depth top (.num kind []) b rrp
      ⟨.premature, rrp, b, Part.draft (.num kind [])⟩ := by
  have hrun : Part.run env depth (.num kind []) b = .more (.num kind b) :=
    @Part.run_num_none env depth kind [] b hread hwild
  unfold Outcome
  rw [hrun]
  exact ⟨rfl, Keeps.refl _ _, .num kind [], rfl, hheld, rfl, hrun, trivial⟩

theorem rBuildInteger_none (hread : redisReplyReadInteger b = none) :
    rBuildInteger rrp b = (none, rrp, b) := by
  unfold rBuildInteger
  rw [hread]

theorem rBuildInteger_some {v : Int} {n : Nat} (hread : redisReplyReadInteger b = some (v, n)) :
    rBuildInteger rrp b = (some v, { rrp with parsed := rrp.parsed + n }, b.drop n) := by
  unfold rBuildInteger
  rw [hread]
  simp only [Committed.decommit_eq_drop]

def bulkStep (subRrb : Nat) : Step := fun rrp bb r =>
  match (rrp.builders subRrb).state with
  | 0 | 1 => buildBulkStringStoreLen subRrb rrp bb r
  | 2 => buildBulkStringPlain subRrb rrp bb r
  | _ => some { rc := .invalidRrbState, rrp, bb, r }

theorem bulkStep_len {rb : Nat} (h : (rrp.builders rb).state = 0) :
    bulkStep rb rrp = buildBulkStringStoreLen rb rrp := by
  funext b r
  rw [bulkStep, h]
  rfl

theorem bulkStep_plain {rb : Nat} (h : (rrp.builders rb).state = 2) :
    bulkStep rb rrp = buildBulkStringPlain rb rrp := by
  funext b r
  rw [bulkStep, h]
  rfl

/-- The bytes a payload still wants, as the 64-bit difference of the source. -/
theorem wantSize_eq {len n : Nat} (hlen : len < 2 ^ 32 - 3) (hn : n ≤ len + 2) :
    ((len + 2) % 2 ^ 32 + (2 ^ 64 - n)) % 2 ^ 64 = len + 2 - n := by
  omega

theorem drop_map_crlf {data : List UInt8} {n : Nat} :
    (data.map some).drop n ≠ crlf.map some ↔ data.drop n ≠ crlf := by
  rw [← List.map_drop, Ne, Ne, (List.map_injective_iff.2 (Option.some_injective UInt8)).eq_iff]

section Payload

variable {rb len : Nat} {acc : List UInt8}

/-- A block that ends inside the payload. -/
theorem buildBulkStringPlain_short (hstore : (rrp.builders rb).storeLen = len) (hlen : len < 2 ^ 32 - 3)
    (hshort : (acc ++ b).length < len + 2) :
    buildBulkStringPlain rb rrp b (Part.draft (.payload len acc)) =
      some ⟨.premature, { rrp with parsed := rrp.parsed + b.length }, [],
        Part.draft (.payload len (acc ++ b))⟩ := by
  rw [List.length_append] at hshort
  have hwant := wantSize_eq hlen (show acc.length ≤ len + 2 by omega)
  unfold buildBulkStringPlain
  simp only [Part.draft, List.getLast?_singleton, hstore, List.length_map, hwant,
    List.dropLast_singleton, List.nil_append, Committed.decommit_eq_drop, ← List.map_append]
  rw [Nat.min_eq_left (by omega), List.take_length, List.drop_length, List.length_append,
    if_neg (by omega), if_neg (by omega)]

/-- A block that holds the payload to its end: the last two bytes are looked at together. -/
theorem buildBulkStringPlain_full {w : List UInt8} (hstore : (rrp.builders rb).storeLen = len)
    (hlen : len < 2 ^ 32 - 3) (hacc : acc.length < len + 2) (hdata : (acc ++ w).length = len + 2)
    (rest : List UInt8) :
    buildBulkStringPlain rb rrp (w ++ rest) (Part.draft (.payload len acc)) =
      some (if (acc ++ w).drop len = crlf then
        ⟨.over, { rrp with parsed := rrp.parsed + w.length }, rest,
          (Resp.bulk ((acc ++ w).take len)).render⟩
      else ⟨.invalidBulkString, rrp, w ++ rest, Part.draft (.badPayload len (acc ++ w))⟩) := by
  have hwant := wantSize_eq hlen (Nat.le_of_lt hacc)
  have hw : w.length = len + 2 - acc.length := by
    rw [List.length_append] at hdata
    omega
  have hmin : min (w ++ rest).length (len + 2 - acc.length) = w.length := by
    rw [List.length_append]
    omega
  unfold buildBulkStringPlain
  simp only [Part.draft, List.getLast?_singleton, hstore, List.length_map, hwant,
    List.dropLast_singleton, List.nil_append, Committed.decommit_eq_drop, ← List.map_append,
    drop_map_crlf, ← List.map_take]
  rw [hmin, List.take_left, List.drop_left, hdata, Nat.add_sub_cancel, if_neg (by omega), if_pos hw,
    if_neg (by omega)]
  by_cases hcrlf : (acc ++ w).drop len = crlf
  · rw [if_neg (not_not.2 hcrlf), if_pos hcrlf, Resp.render, List.length_take, hdata,
      Nat.min_eq_left (by omega)]
  · rw [if_pos hcrlf, if_neg hcrlf]

end Payload

theorem payload_outcome {len : Nat} {acc : List UInt8}
    (hheld : Held rrp depth (.payload len acc)) :
    ∃ o, bulkStep (rrp.stackRrb.slot depth) rrp b (Part.draft (.payload len acc)) = some o ∧
      o.rc ≠ .again ∧ Outcome env depth (depth + 1) (.payload len acc) b rrp o := by
  obtain ⟨hnelts, hdepth, hat, hstore, hlen, hacc⟩ := hheld
  rw [bulkStep_plain hat.2]
  by_cases hshort : (acc ++ b).length < len + 2
  · refine ⟨_, buildBulkStringPlain_short hstore hlen hshort, by simp, ?_⟩
    unfold Outcome
    rw [Part.run_payload_short hshort]
    exact ⟨rfl, ⟨rfl, rfl, rfl, rfl, rfl, fun _ _ => rfl⟩, .payload len (acc ++ b), rfl,
      ⟨hnelts, hdepth, hat, hstore, hlen, hshort⟩, rfl, rfl, trivial⟩
  · obtain ⟨w, rest, rfl, hdata⟩ : ∃ w rest, b = w ++ rest ∧ (acc ++ w).length = len + 2 := by
      refine ⟨b.take (len + 2 - acc.length), b.drop (len + 2 - acc.length),
        (List.take_append_drop _ _).symm, ?_⟩
      rw [List.length_append] at hshort
      rw [List.length_append, List.length_take]
      omega
    have hrun := @Part.run_payload_full env depth len acc w rest hacc hdata
    refine ⟨_, buildBulkStringPlain_full hstore hlen hacc hdata rest, ?_⟩
    unfold Outcome
    rw [hrun]
    by_cases hcrlf : (acc ++ w).drop len = crlf
    · rw [if_pos hcrlf, if_pos hcrlf]
      exact ⟨by simp, rfl, ⟨rfl, rfl, rfl, rfl, rfl, fun _ _ => rfl⟩, hnelts, rfl, rfl⟩
    · rw [if_neg hcrlf, if_neg hcrlf]
      exact ⟨by simp, rfl, Keeps.refl _ _, .badPayload len (acc ++ w), rfl,
        ⟨hnelts, hdepth, hat, hstore, hlen, hdata, hcrlf⟩, rfl, Part.run_badPayload _ _ _, trivial⟩

theorem badPayload_outcome {len : Nat} {acc : List UInt8}
    (hheld : Held rrp depth (.badPayload len acc)) :
    ∃ o, bulkStep (rrp.stackRrb.slot depth) rrp b (Part.draft (.badPayload len acc)) = some o ∧
      o.rc ≠ .again ∧ Outcome env depth (depth + 1) (.badPayload len acc) b rrp o := by
  have hheld' := hheld
  obtain ⟨-, -, hat, hstore, hlen, hacc, hbad⟩ := hheld
  rw [bulkStep_plain hat.2]
  have hwant := wantSize_eq hlen (Nat.le_of_eq hacc)
  have hstore' : (rrp.builders (rrp.stackRrb.slot depth)).storeLen = len := hstore
  unfold buildBulkStringPlain
  simp only [Part.draft, List.getLast?_singleton, hstore', List.length_map, hwant,
    List.dropLast_singleton, List.nil_append, ← List.map_append, drop_map_crlf]
  rw [hacc, Nat.sub_self, Nat.min_zero, List.take_zero, List.append_nil, hacc, if_neg (by omega),
    if_pos rfl, if_neg (by omega), Nat.add_sub_cancel, if_pos hbad]
  refine ⟨_, rfl, by simp, ?_⟩
  unfold Outcome
  rw [Part.run_badPayload]
  exact ⟨rfl, Keeps.refl _ _, .badPayload len acc, rfl, hheld', rfl, Part.run_badPayload _ _ _,
    trivial⟩

/-- After a number's line the reader goes on where the parser does. -/
theorem run_num_line {kind : NumKind} {v : Int} {n : Nat}
    (hread : redisReplyReadInteger b = some (v, n))
    (hwild : Part.run env depth (.num kind []) b ≠ .wild) :
    Part.run env depth (.num kind []) b =
      match Part.ofNum kind v with
      | .part p => p.run env depth (b.drop n)
      | .value w => .done w (b.drop n)
      | .wild => .wild :=
  Part.run_num_some (by rfl) hread hwild

theorem bulkLen_loop (hfs : rrp.FirstStorage) (hheld : Held rrp depth (.num .bulkLen []))
    (hwild : Part.run env depth (.num .bulkLen []) b ≠ .wild) :
    ∃ o, rrbLoop (bulkStep (rrp.stackRrb.slot depth)) (fuel + 2) rrp b
        (Part.draft (.num .bulkLen [])) = some o ∧
      Outcome env depth (depth + 1) (.num .bulkLen []) b rrp o := by
  have hheld' := hheld
  obtain ⟨-, hnelts, hdepth, hat, harr⟩ := hheld
  have hstep := congrFun (bulkStep_len hat.2) b
  cases hread : redisReplyReadInteger b with
  | none =>
    refine ⟨⟨.premature, rrp, b, Part.draft (.num .bulkLen [])⟩, rrbLoop_stop ?_ (by simp),
      num_premature hheld' hread hwild _⟩
    rw [hstep]
    unfold buildBulkStringStoreLen
    rw [rBuildInteger_none hread]
  | some vn =>
    obtain ⟨v, n⟩ := vn
    have hline := run_num_line hread hwild
    rcases lt_or_ge v 0 with hneg | hpos
    · refine ⟨⟨.over, { rrp with parsed := rrp.parsed + n }, b.drop n, Resp.nullBulk.render⟩,
        rrbLoop_stop ?_ (by simp), ?_⟩
      · rw [hstep]
        unfold buildBulkStringStoreLen
        rw [rBuildInteger_some hread]
        simp only [if_neg (not_le.2 hneg)]
        rfl
      · simp only [Part.ofNum, Part.bulkOfLen, if_pos hneg] at hline
        unfold Outcome
        rw [hline]
        exact ⟨rfl, ⟨rfl, rfl, rfl, rfl, rfl, fun _ _ => rfl⟩, hnelts, rfl, rfl⟩
    · have hlen : toUint32 v < 2 ^ 32 - 3 := by
        by_contra hlarge
        simp only [Part.ofNum, Part.bulkOfLen, if_neg (not_lt.2 hpos), if_neg hlarge] at hline
        exact hwild hline
      simp only [Part.ofNum, Part.bulkOfLen, if_neg (not_lt.2 hpos), if_pos hlen] at hline
      set f := { rrp.frame depth with storeLen := toUint32 v, len := 1, state := 2 } with hf
      set rrp₁ : RedisReplyParser := { rrp with parsed := rrp.parsed + n } with hrrp₁
      have hk₁ : Keeps depth rrp rrp₁ := ⟨rfl, rfl, rfl, rfl, rfl, fun _ _ => rfl⟩
      have hfs₁ := hk₁.firstStorage hfs
      have hk₂ := write_keeps hfs₁ (Nat.le_refl depth) f
      have hframe := write_frame hfs₁ depth depth f
      rw [if_pos rfl] at hframe
      have hagain : bulkStep (rrp.stackRrb.slot depth) rrp b (Part.draft (.num .bulkLen [])) =
          some ⟨.again, rrp₁.write (rrp₁.stackRrb.slot depth) f, b.drop n,
            Part.draft (.payload (toUint32 v) [])⟩ := by
        rw [hstep]
        unfold buildBulkStringStoreLen
        rw [rBuildInteger_some hread]
        simp only [if_pos hpos, Nat.mod_eq_of_lt (show toUint32 v + 3 < 2 ^ 32 by omega)]
        rfl
      have hpay : Held (rrp₁.write (rrp₁.stackRrb.slot depth) f) depth (.payload (toUint32 v) []) := by
        refine ⟨hnelts, hdepth, ⟨?_, ?_⟩, ?_, hlen, by simp⟩ <;> rw [hframe, hf]
        exact hat.1
      obtain ⟨o, hplain, hrc, hout⟩ := @payload_outcome env depth _ (b.drop n) (toUint32 v) [] hpay
      rw [hk₂.slot] at hplain
      exact ⟨o, (rrbLoop_again hagain rfl).trans (rrbLoop_stop hplain hrc),
        hout.transfer hline (hk₁.trans hk₂)⟩

theorem rBuildBulkString_outcome {p : Part} (hfs : rrp.FirstStorage)
    (hparent : (rrp.frame depth).depth = depth) (hlead : p.leading = .bulkString)
    (hentry : Entry rrp (depth + 1) p r) (hwild : p.run env (depth + 1) b ≠ .wild)
    (hfuel : 2 ≤ fuel) :
    ∃ o, rBuildBulkString fuel (rrp.stackRrb.slot depth) rrp b r = some o ∧
      Outcome env (depth + 1) (depth + 1) p b rrp o := by
  obtain ⟨fuel, rfl⟩ : ∃ n, fuel = n + 2 := ⟨fuel - 2, by omega⟩
  unfold rBuildBulkString
  rw [show (rrp.builders (rrp.stackRrb.slot depth)).depth = depth from hparent]
  have hheldCase : ∀ (hheld : Held rrp (depth + 1) p) (hnelts : rrp.stackRrb.nelts = depth + 1 + 1)
      (hdepth : depth + 1 ≤ maxBuilder)
      (hstep : ∃ o, bulkStep (rrp.stackRrb.slot (depth + 1)) rrp b p.draft = some o ∧
        o.rc ≠ .again ∧ Outcome env (depth + 1) (depth + 1 + 1) p b rrp o),
      ∃ o, withBuilder (fuel + 2) (depth + 1) bulkStep rrp b p.draft = some o ∧
        Outcome env (depth + 1) (depth + 1) p b rrp o := by
    intro hheld hnelts hdepth ⟨o, hstep, hrc, hout⟩
    exact withBuilder_outcome bulkStep hfs hdepth
      (alloc_at (by omega) (by unfold maxBuilder at hdepth; omega)) (Keeps.refl _ _) hwild
      ⟨o, rrbLoop_stop hstep hrc, hout⟩
  cases p with
  | num kind acc =>
    obtain rfl : kind = .bulkLen := by cases kind <;> simp [Part.leading, NumKind.leading] at hlead ⊢
    obtain rfl : acc = [] := by
      rcases hentry with ⟨-, h, -⟩ | ⟨-, -, ⟨_, h, -⟩ | h | ⟨_, h, -⟩⟩
      · exact h.1
      · cases h
      · cases h
      · exact (Part.num.inj h).2
    obtain ⟨rrp₁, halloc, hk, hdepth, hheld, rfl⟩ := hentry.enter_num hfs (by simp)
    refine withBuilder_outcome bulkStep hfs hdepth halloc hk hwild ?_
    rw [← hk.slot]
    exact bulkLen_loop (hk.firstStorage hfs) hheld hwild
  | payload len acc =>
    rcases hentry with ⟨-, hheld, rfl⟩ | ⟨-, -, ⟨_, h, -⟩ | h | ⟨_, h, -⟩⟩
    · exact hheldCase hheld hheld.1 hheld.2.1 (payload_outcome hheld)
    · cases h
    · cases h
    · cases h
  | badPayload len acc =>
    rcases hentry with ⟨-, hheld, rfl⟩ | ⟨-, -, ⟨_, h, -⟩ | h | ⟨_, h, -⟩⟩
    · exact hheldCase hheld hheld.1 hheld.2.1 (badPayload_outcome hheld)
    · cases h
    · cases h
    · cases h
  | text isError acc gotCr => cases isError <;> simp [Part.leading, textLeading] at hlead
  | _ => simp [Part.leading] at hlead

end KjRedis.Reply
