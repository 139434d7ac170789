import KjRedis.Reply.CallStack
import KjRedis.Reply.CommandBuilder
import KjRedis.Reply.Levels
import KjRedis.Reply.Progress

/-! A reply under construction: what its builders hold against what is there of it, for
each builder on its own and for all of them, one in the other. -/
namespace KjRedis.Reply

open RedisReplyParser

/-- No buffer of a chain is filled past its end. -/
def Fits (vall : List NxBuf) : Prop := ∀ b ∈ vall, b.data.length ≤ b.size

def LeadingType.isString : LeadingType → Bool
  | .simpleString | .errorString | .bulkString => true
  | _ => false

/-- `bytes` counts what the buffers of a string hold. -/
def RedisReply.Sized (r : RedisReply) : Prop :=
  r.type.isString → r.isNull = false → r.bytes = (redisReplyAsString r).length % 2 ^ 32 ∧ Fits r.vall

mutual

/-- A reply and all that it has for elements, level by level. -/
def RedisReply.parts : RedisReply → List RedisReply
  | ⟨type, isNull, vall, bytes, intval, arrval, nalloc, elemtype⟩ =>
    ⟨type, isNull, vall, bytes, intval, arrval, nalloc, elemtype⟩ :: RedisReply.arrayParts arrval

def RedisReply.arrayParts : Option (List RedisReply) → List RedisReply
  | none => []
  | some es => RedisReply.elementParts es

def RedisReply.elementParts : List RedisReply → List RedisReply
  | [] => []
  | e :: es => e.parts ++ RedisReply.elementParts es

end

theorem parts_eq (r : RedisReply) : r.parts = r :: RedisReply.arrayParts r.arrval := by
  cases r
  rfl

theorem mem_elementParts {s : RedisReply} {es : List RedisReply} :
    s ∈ RedisReply.elementParts es ↔ ∃ e ∈ es, s ∈ e.parts := by
  induction es with
  | nil => simp [RedisReply.elementParts]
  | cons e es ih => simp [RedisReply.elementParts, ih]

/-- Every string of a reply is sized. -/
def RedisReply.Sound (r : RedisReply) : Prop := ∀ s ∈ r.parts, s.Sized

theorem RedisReply.Sound.mk {r : RedisReply} (own : r.Sized)
    (elems : ∀ es, r.arrval = some es → ∀ e ∈ es, e.Sound) : r.Sound := by
  intro s hs
  rw [parts_eq] at hs
  rcases List.mem_cons.1 hs with rfl | hs
  · exact own
  · cases harr : r.arrval with
    | none =>
      rw [harr, RedisReply.arrayParts] at hs
      cases hs
    | some es =>
      rw [harr, RedisReply.arrayParts, mem_elementParts] at hs
      obtain ⟨e, he, hs⟩ := hs
      exact elems es harr e he s hs

/-- A reply nothing was read of but its type. -/
def RedisReply.Fresh (r : RedisReply) : Prop := r.vall = [] ∧ r.arrval = none

/-- A builder with no other open under it, and the reply it builds. -/
inductive Working (b : RedisReplyBuilder) (r : RedisReply) : Prop
  | begun (htype : r.type.isString ∨ r.type = .array) (hstate : b.state < 2) (hidx : b.arridx = 0)
      (hfresh : r.Fresh)
  | text (htype : r.type = .simpleString ∨ r.type = .errorString) (hstate : b.state = 2)
      (hne : r.vall ≠ []) (hlen : b.storeLen = (redisReplyAsString r).length % 2 ^ 32)
      (hfits : Fits r.vall) (hnone : r.arrval = none)
  | bulk {buf : NxBuf} (htype : r.type = .bulkString) (hstate : b.state = 2) (hvall : r.vall = [buf])
      (hfits : buf.data.length ≤ buf.size) (hwant : buf.data.length ≤ (b.storeLen + 2) % 2 ^ 32)
      (hlen : b.storeLen < 2 ^ 32) (hnone : r.arrval = none)
  | array {es : List RedisReply} (htype : r.type = .array) (hstate : b.state = 2 ∨ b.state = 3)
      (helems : r.arrval = some es) (hidx : b.arridx = es.length) (hsound : ∀ e ∈ es, e.Sound)

/-- The builders `f` from depth `d` on, up to `n`, and the reply they build: the last array
of each but the innermost is at the element the next one builds. -/
inductive Building (f : Nat → RedisReplyBuilder) (n : Nat) : Nat → RedisReply → Prop
  | unopened {d : Nat} {r : RedisReply} (hn : n = d) (hfresh : r.Fresh) : Building f n d r
  | opened {d : Nat} {r : RedisReply} (hn : n = d + 1) (h : Working (f d) r) : Building f n d r
  | element {d : Nat} {r r2 : RedisReply} {es : List RedisReply} (htype : r.type = .array)
      (hstate : (f d).state = 3) (helems : r.arrval = some (es ++ [r2])) (hidx : (f d).arridx = es.length)
      (hsound : ∀ e ∈ es, e.Sound) (h : Building f n (d + 1) r2) : Building f n d r

variable {f g : Nat → RedisReplyBuilder} {n d : Nat} {r : RedisReply} {vall : List NxBuf}

theorem Building.le (h : Building f n d r) : d ≤ n := by
  induction h with
  | unopened hn => omega
  | opened hn => omega
  | element _ _ _ _ _ _ ih => omega

theorem Building.congr (h : Building f n d r) (hfg : ∀ i, d ≤ i → g i = f i) : Building g n d r := by
  induction h with
  | unopened hn hfresh => exact .unopened hn hfresh
  | opened hn h =>
    refine .opened hn ?_
    rwa [hfg _ (Nat.le_refl _)]
  | element htype hstate helems hidx hsound _ ih =>
    rw [← hfg _ (Nat.le_refl _)] at hstate hidx
    exact .element htype hstate helems hidx hsound (ih fun i hi => hfg i (by omega))

theorem Building.unopened_of_eq (h : Building f d d r) : r.Fresh := by
  cases h with
  | unopened _ hfresh => exact hfresh
  | opened hn => omega
  | element _ _ _ _ _ h =>
    have := h.le
    omega

theorem sound_of_fresh (h : r.Fresh) (htype : r.type.isString = false) : r.Sound := by
  refine .mk (fun hs => ?_) fun es hes => ?_
  · rw [htype] at hs
    cases hs
  · rw [h.2] at hes
    cases hes

variable {rrp : RedisReplyParser} {bb : Committed} {rrb : Nat} {o : Out}

/-- The parser after a round that stores through `rrb` and counts the bytes taken. -/
def RedisReplyParser.store (rrp : RedisReplyParser) (rrb : Nat) (b : RedisReplyBuilder) (m : Nat) :
    RedisReplyParser :=
  { rrp.write rrb b with parsed := m }

theorem store_same (rrp : RedisReplyParser) (rrb m : Nat) :
    { rrp with parsed := m } = rrp.store rrb (rrp.builders rrb) m := by
  rw [store, write, Function.update_eq_self]

/-- A round that opens no builder leaves a sound reply or goes on building it. -/
def Worked (rrb : Nat) (rrp : RedisReplyParser) (r : RedisReply) (o : Out) : Prop :=
  o.rc ≠ .stray → ∃ b m, o.rrp = rrp.store rrb b m ∧ b.depth = (rrp.builders rrb).depth ∧
    b.arridx = (rrp.builders rrb).arridx ∧ o.r.type = r.type ∧
    if o.rc = .over then o.r.Sound else Working b o.r

theorem worked_still {rc : Rc} (h : Working (rrp.builders rrb) r) (hrc : rc ≠ .over) (bb : Committed) :
    Worked rrb rrp r ⟨rc, rrp, bb, r⟩ := by
  refine fun _ => ⟨_, rrp.parsed, store_same rrp rrb rrp.parsed, rfl, rfl, rfl, ?_⟩
  rw [if_neg hrc]
  exact h

theorem length_appendAtPos (b : NxBuf) (text : List UInt8) :
    (b.appendAtPos text).data.length = b.data.length + text.length := by
  simp only [NxBuf.appendAtPos, List.length_append, List.length_map, List.length_drop,
    List.length_replicate]
  omega

theorem fits_snoc {b : NxBuf} (h : Fits vall) (hb : b.data.length ≤ b.size) : Fits (vall ++ [b]) := by
  intro b' hb'
  rcases List.mem_append.1 hb' with hb' | hb'
  · exact h b' hb'
  · obtain rfl := List.mem_singleton.1 hb'
    exact hb

/-- What the loop that appends a text counts. -/
theorem simpleStringAppend_counts {text : List UInt8} {fuel remainSize : Nat} {b b' : RedisReplyBuilder}
    {vall' : List NxBuf} (h : simpleStringAppend text fuel remainSize vall b = some (vall', b'))
    (hle : remainSize ≤ text.length) (hlen : b.storeLen = (chainText vall).length % 2 ^ 32)
    (hfits : Fits vall) (hne : vall ≠ []) :
    b'.storeLen = (chainText vall').length % 2 ^ 32 ∧ Fits vall' ∧ vall' ≠ [] ∧ b'.depth = b.depth ∧
      b'.state = b.state ∧ b'.arridx = b.arridx := by
  induction fuel generalizing remainSize vall b with
  | zero =>
    cases remainSize with
    | zero =>
      rw [simpleStringAppend] at h
      obtain ⟨rfl, rfl⟩ := Prod.mk.inj (Option.some.inj h)
      exact ⟨hlen, hfits, hne, rfl, rfl, rfl⟩
    | succ remainSize => cases h
  | succ fuel ih =>
    cases remainSize with
    | zero =>
      rw [simpleStringAppend] at h
      obtain ⟨rfl, rfl⟩ := Prod.mk.inj (Option.some.inj h)
      exact ⟨hlen, hfits, hne, rfl, rfl, rfl⟩
    | succ remainSize =>
      rw [simpleStringAppend] at h
      swap
      · exact Nat.succ_ne_zero _
      obtain ⟨front, last, rfl⟩ := List.eq_nil_or_concat' vall |>.resolve_left hne
      have hlast := hfits last (by simp)
      rw [chainText_snoc, List.length_append] at hlen
      simp only [List.getLast?_concat, List.dropLast_concat] at h
      have htake : ∀ room, (text.take (min room (remainSize + 1))).length = min room (remainSize + 1) := by
        intro room
        rw [List.length_take]
        omega
      split at h
      · have hsize := (length_appendAtPos (NxBuf.create simpleStringTempBuffSize) _).trans
          (congrArg _ (htake simpleStringTempBuffSize))
        obtain ⟨hlen', hfits', hne', hdepth, hstate, hidx⟩ := ih h (by omega)
          (by
            rw [chainText_snoc, chainText_snoc, List.length_append, List.length_append, hsize]
            simp only [hlen, NxBuf.create, List.length_nil]
            omega)
          (fits_snoc hfits (by
            rw [hsize]
            exact (Nat.zero_add _).trans_le (Nat.min_le_left _ _)))
          (by simp)
        exact ⟨hlen', hfits', hne', hdepth, hstate, hidx⟩
      · have hsize := (length_appendAtPos last _).trans
          (congrArg _ (htake (last.size - last.data.length)))
        obtain ⟨hlen', hfits', hne', hdepth, hstate, hidx⟩ := ih h (by omega)
          (by
            rw [chainText_snoc, List.length_append, hsize]
            simp only [hlen]
            omega)
          (fits_snoc (fun buf hbuf => hfits buf (List.mem_append_left _ hbuf)) (by
            rw [hsize]
            show _ ≤ last.size
            omega))
          (by simp)
        exact ⟨hlen', hfits', hne', hdepth, hstate, hidx⟩

/-- A text builder past its start. -/
theorem Working.text_parts {b : RedisReplyBuilder} (h : Working b r) (hstate : b.state = 2)
    (htype : r.type = .simpleString ∨ r.type = .errorString) :
    r.vall ≠ [] ∧ b.storeLen = (chainText r.vall).length % 2 ^ 32 ∧ Fits r.vall ∧ r.arrval = none := by
  cases h with
  | begun _ hlt => omega
  | text _ _ hne hlen hfits hnone => exact ⟨hne, hlen, hfits, hnone⟩
  | bulk hbulk => rcases htype with htype | htype <;> rw [htype] at hbulk <;> cases hbulk
  | array harray => rcases htype with htype | htype <;> rw [htype] at harray <;> cases harray

/-- A bulk string's builder past its start: one buffer, with room for the line's end. -/
theorem Working.bulk_parts {b : RedisReplyBuilder} (h : Working b r) (hstate : b.state = 2)
    (htype : r.type = .bulkString) : ∃ buf, r.vall = [buf] ∧ buf.data.length ≤ buf.size ∧
      buf.data.length ≤ (b.storeLen + 2) % 2 ^ 32 ∧ b.storeLen < 2 ^ 32 ∧ r.arrval = none := by
  cases h with
  | begun _ hlt => omega
  | text htext => rcases htext with htext | htext <;> rw [htype] at htext <;> cases htext
  | bulk _ _ hvall hfits hwant hlen hnone => exact ⟨_, hvall, hfits, hwant, hlen, hnone⟩
  | array harray => rw [htype] at harray; cases harray

theorem buildSimpleStringPlain_worked (hstate : (rrp.builders rrb).state = 2)
    (h : Working (rrp.builders rrb) r) (htype : r.type = .simpleString ∨ r.type = .errorString)
    (hrun : buildSimpleStringPlain rrb rrp bb r = some o) : Worked rrb rrp r o := by
  obtain ⟨hne, hlen, hfits, hnone⟩ := h.text_parts hstate htype
  unfold buildSimpleStringPlain at hrun
  split at hrun
  · obtain rfl := Option.some.inj hrun
    exact worked_still h (by simp) bb
  · generalize hfound : bb.findStr crlf = found at hrun
    simp only at hrun
    split at hrun
    · obtain rfl := Option.some.inj hrun
      exact fun hrc => absurd rfl hrc
    · next vall b happend =>
      obtain ⟨hlen', hfits', hne', hdepth, hstate', hidx⟩ := simpleStringAppend_counts happend
        (by
          cases found with
          | none =>
            simp only
            split <;> simp
          | some p2 =>
            have := findStr_le hfound
            simp only
            omega)
        hlen hfits hne
      split at hrun
      · obtain rfl := Option.some.inj hrun
        refine fun _ => ⟨b, _, rfl, hdepth, hidx, rfl, ?_⟩
        rw [if_pos rfl]
        refine .mk (fun _ _ => ⟨hlen', hfits'⟩) fun es hes => ?_
        rw [hnone] at hes
        cases hes
      · obtain rfl := Option.some.inj hrun
        refine fun _ => ⟨b, _, rfl, hdepth, hidx, rfl, ?_⟩
        rw [if_neg (by simp)]
        exact .text htype (hstate'.trans hstate) hne' hlen' hfits' hnone

theorem lineStep_worked (h : Working (rrp.builders rrb) r)
    (htype : r.type = .simpleString ∨ r.type = .errorString) (hrun : lineStep rrb rrp bb r = some o) :
    Worked rrb rrp r o := by
  have hinit : (rrp.builders rrb).state < 2 → buildSimpleStringInit rrb rrp bb r = some o →
      Worked rrb rrp r o := by
    intro hlt hrun
    obtain rfl := Option.some.inj hrun
    cases h with
    | begun _ _ _ hfresh =>
      refine fun _ => ⟨_, rrp.parsed, rfl, rfl, rfl, rfl, ?_⟩
      rw [if_neg nofun, hfresh.1]
      refine .text htype rfl (by simp) rfl ?_ hfresh.2
      intro b hb
      obtain rfl := List.mem_singleton.1 hb
      exact Nat.zero_le _
    | text _ hstate => omega
    | bulk _ hstate => omega
    | array _ hstate => omega
  unfold lineStep at hrun
  split at hrun
  · next hstate => exact hinit (by omega) hrun
  · next hstate => exact hinit (by omega) hrun
  · next hstate => exact buildSimpleStringPlain_worked hstate h htype hrun
  · obtain rfl := Option.some.inj hrun
    exact worked_still h (by simp) bb

theorem toUint32_lt (v : Int) : toUint32 v < 2 ^ 32 := by
  unfold toUint32
  omega

theorem rBuildInteger_parsed {v : Option Int} {rrp' : RedisReplyParser} {bb' : Committed}
    (h : rBuildInteger rrp bb = (v, rrp', bb')) : ∃ m, rrp' = { rrp with parsed := m } := by
  have hadv := rBuildInteger_advances h
  cases v with
  | none => exact ⟨rrp.parsed, hadv.1⟩
  | some v =>
    obtain ⟨n, -, -, -, hrrp⟩ := hadv
    exact ⟨_, hrrp⟩

theorem buildBulkStringStoreLen_worked (hlt : (rrp.builders rrb).state < 2)
    (h : Working (rrp.builders rrb) r) (htype : r.type = .bulkString)
    (hrun : buildBulkStringStoreLen rrb rrp bb r = some o) : Worked rrb rrp r o := by
  have hfresh : r.Fresh := by
    cases h with
    | begun _ _ _ hfresh => exact hfresh
    | text _ hstate => omega
    | bulk _ hstate => omega
    | array _ hstate => omega
  unfold buildBulkStringStoreLen at hrun
  generalize hread : rBuildInteger rrp bb = res at hrun
  obtain ⟨v, rrp', bb'⟩ := res
  obtain ⟨m, rfl⟩ := rBuildInteger_parsed hread
  have hsame := store_same rrp rrb m
  cases v with
  | none =>
    obtain rfl := Option.some.inj hrun
    exact fun _ => ⟨_, m, hsame, rfl, rfl, rfl, h⟩
  | some len =>
    simp only at hrun
    split at hrun
    · obtain rfl := Option.some.inj hrun
      refine fun _ => ⟨_, m, rfl, rfl, rfl, rfl, ?_⟩
      rw [if_neg (by simp), hfresh.1]
      exact .bulk htype rfl rfl (Nat.zero_le _) (Nat.zero_le _) (toUint32_lt len) hfresh.2
    · obtain rfl := Option.some.inj hrun
      refine fun _ => ⟨_, m, hsame, rfl, rfl, rfl, ?_⟩
      rw [if_pos rfl]
      refine .mk (fun _ hnull => ?_) fun es hes => ?_
      · cases hnull
      · rw [hfresh.2] at hes
        cases hes

theorem buildBulkStringPlain_worked (hstate : (rrp.builders rrb).state = 2)
    (h : Working (rrp.builders rrb) r) (htype : r.type = .bulkString)
    (hrun : buildBulkStringPlain rrb rrp bb r = some o) : Worked rrb rrp r o := by
  obtain ⟨buf, hvall, hfits, hwant, hlen, hnone⟩ := h.bulk_parts hstate htype
  unfold buildBulkStringPlain at hrun
  simp only [hvall, List.getLast?_singleton, List.dropLast_singleton, List.nil_append] at hrun
  set storeLen := (rrp.builders rrb).storeLen with hstore
  have hsize : ((storeLen + 2) % 2 ^ 32 + (2 ^ 64 - buf.data.length)) % 2 ^ 64 =
      (storeLen + 2) % 2 ^ 32 - buf.data.length := by omega
  rw [hsize] at hrun
  set want := (storeLen + 2) % 2 ^ 32 - buf.data.length with hwantdef
  set data := buf.data ++ (bb.take (min bb.length want)).map some with hdata
  have hlength : data.length = buf.data.length + min bb.length want := by
    rw [hdata, List.length_append, List.length_map, List.length_take]
    omega
  have hworking : ∀ r' : RedisReply, r'.type = r.type → r'.vall = [{ buf with data }] →
      r'.arrval = r.arrval → data.length ≤ buf.size → Working (rrp.builders rrb) r' :=
    fun r' htype' hvall' harr' hroom =>
      .bulk (htype'.trans htype) hstate hvall' hroom (by rw [hlength]; omega) hlen (harr'.trans hnone)
  split at hrun
  · obtain rfl := Option.some.inj hrun
    exact fun hrc => absurd rfl hrc
  · next hroom =>
    split at hrun
    · next hall =>
      split at hrun
      · obtain rfl := Option.some.inj hrun
        exact fun hrc => absurd rfl hrc
      · next htwo =>
        split at hrun
        · obtain rfl := Option.some.inj hrun
          refine fun _ => ⟨_, rrp.parsed, store_same rrp rrb rrp.parsed, rfl, rfl, rfl, ?_⟩
          rw [if_neg (by simp)]
          exact hworking _ rfl rfl rfl (by omega)
        · obtain rfl := Option.some.inj hrun
          refine fun _ => ⟨_, _, store_same rrp rrb _, rfl, rfl, rfl, ?_⟩
          rw [if_pos rfl]
          have htrim : (data.take (data.length - 2)).length = storeLen := by
            rw [List.length_take]
            omega
          refine .mk (fun _ _ => ⟨?_, ?_⟩) fun es hes => ?_
          · show storeLen = (chainText [_]).length % 2 ^ 32
            rw [chainText, List.map_singleton, List.flatten_singleton, htrim, Nat.mod_eq_of_lt hlen]
          · intro b hb
            obtain rfl := List.mem_singleton.1 hb
            exact (List.length_take_le _ _).trans (show _ ≤ buf.size by omega)
          · rw [hnone] at hes
            cases hes
    · obtain rfl := Option.some.inj hrun
      refine fun _ => ⟨_, _, store_same rrp rrb _, rfl, rfl, rfl, ?_⟩
      rw [if_neg (by simp)]
      exact hworking _ rfl rfl rfl (by omega)

theorem bulkStep_worked (h : Working (rrp.builders rrb) r) (htype : r.type = .bulkString)
    (hrun : bulkStep rrb rrp bb r = some o) : Worked rrb rrp r o := by
  unfold bulkStep at hrun
  split at hrun
  · next hstate => exact buildBulkStringStoreLen_worked (by omega) h htype hrun
  · next hstate => exact buildBulkStringStoreLen_worked (by omega) h htype hrun
  · next hstate => exact buildBulkStringPlain_worked hstate h htype hrun
  · obtain rfl := Option.some.inj hrun
    exact worked_still h (by simp) bb

theorem buildArrayLen_worked (hlt : (rrp.builders rrb).state < 2) (h : Working (rrp.builders rrb) r)
    (htype : r.type = .array) (hrun : buildArrayLen rrb rrp bb r = some o) : Worked rrb rrp r o := by
  obtain ⟨hidx, hfresh⟩ : (rrp.builders rrb).arridx = 0 ∧ r.Fresh := by
    cases h with
    | begun _ _ hidx hfresh => exact ⟨hidx, hfresh⟩
    | text _ hstate => omega
    | bulk _ hstate => omega
    | array _ hstate => omega
  unfold buildArrayLen at hrun
  generalize hread : rBuildInteger rrp bb = res at hrun
  obtain ⟨v, rrp', bb'⟩ := res
  obtain ⟨m, rfl⟩ := rBuildInteger_parsed hread
  have hsame := store_same rrp rrb m
  cases v with
  | none =>
    obtain rfl := Option.some.inj hrun
    exact fun _ => ⟨_, m, hsame, rfl, rfl, rfl, h⟩
  | some len =>
    simp only at hrun
    split at hrun
    · obtain rfl := Option.some.inj hrun
      refine fun _ => ⟨_, m, rfl, rfl, rfl, rfl, ?_⟩
      rw [if_neg (by simp)]
      exact .array htype (.inl rfl) rfl hidx nofun
    · obtain rfl := Option.some.inj hrun
      refine fun _ => ⟨_, m, hsame, rfl, rfl, rfl, ?_⟩
      rw [if_pos rfl]
      refine .mk (fun hs => ?_) nofun
      rw [show LeadingType.isString _ = _ from congrArg _ htype] at hs
      cases hs

theorem buildArrayElementType_worked (hstate : (rrp.builders rrb).state = 2)
    (h : Working (rrp.builders rrb) r) (htype : r.type = .array)
    (hrun : buildArrayElementType rrb rrp bb r = some o) : Worked rrb rrp r o := by
  obtain ⟨es, helems, hidx, hsound⟩ : ∃ es, r.arrval = some es ∧
      (rrp.builders rrb).arridx = es.length ∧ ∀ e ∈ es, e.Sound := by
    cases h with
    | begun _ hlt => omega
    | text htext => rcases htext with htext | htext <;> rw [htype] at htext <;> cases htext
    | bulk hbulk => rw [htype] at hbulk; cases hbulk
    | array _ _ helems hidx hsound => exact ⟨_, helems, hidx, hsound⟩
  unfold buildArrayElementType at hrun
  split at hrun
  · obtain rfl := Option.some.inj hrun
    exact worked_still h (by simp) bb
  · split at hrun
    · obtain rfl := Option.some.inj hrun
      exact worked_still h (by simp) bb
    · obtain rfl := Option.some.inj hrun
      refine fun _ => ⟨_, _, rfl, rfl, rfl, rfl, ?_⟩
      rw [if_neg (by simp)]
      exact .array htype (.inr rfl) helems hidx hsound

theorem arrayStep_worked {recArray : Nat → Step} {fuel : Nat} (h : Working (rrp.builders rrb) r)
    (htype : r.type = .array) (hstate : (rrp.builders rrb).state ≠ 3)
    (hrun : arrayStep recArray fuel rrb rrp bb r = some o) : Worked rrb rrp r o := by
  unfold arrayStep at hrun
  split at hrun
  · next hstate => exact buildArrayLen_worked (by omega) h htype hrun
  · next hstate => exact buildArrayLen_worked (by omega) h htype hrun
  · next hstate => exact buildArrayElementType_worked hstate h htype hrun
  · next hthree => exact absurd hthree hstate
  · obtain rfl := Option.some.inj hrun
    exact worked_still h (by simp) bb

theorem getD_append_self (es : List RedisReply) (e e' : RedisReply) : (es ++ [e]).getD es.length e' = e := by
  rw [List.getD_eq_getElem?_getD, List.getElem?_append_right (Nat.le_refl _), Nat.sub_self]
  rfl

/-- An array at an element has those before it, and perhaps this one. -/
theorem Building.current (h : Building f n d r) (hd : d < n) (htype : r.type = .array)
    (hstate : (f d).state = 3) :
    ∃ es, (∀ e ∈ es, e.Sound) ∧ (f d).arridx = es.length ∧
      Building f n (d + 1) (currentElement (f d) r) ∧
      (r.arrval = some es ∧ currentElement (f d) r = { RedisReply.init with type := r.elemtype } ∨
        r.arrval = some (es ++ [currentElement (f d) r])) := by
  cases h with
  | unopened hn => omega
  | opened hn h =>
    cases h with
    | begun _ hlt => omega
    | text htext => rcases htext with htext | htext <;> rw [htype] at htext <;> cases htext
    | bulk hbulk => rw [htype] at hbulk; cases hbulk
    | @array es _ _ helems hidx hsound =>
      have hcur : currentElement (f d) r = { RedisReply.init with type := r.elemtype } := by
        rw [currentElement, helems, hidx, Option.getD_some, List.getD_eq_getElem?_getD,
          List.getElem?_eq_none (Nat.le_refl _), Option.getD_none]
      refine ⟨es, hsound, hidx, ?_, .inl ⟨helems, hcur⟩⟩
      rw [hcur]
      exact .unopened hn ⟨rfl, rfl⟩
  | @element _ _ r2 es _ _ helems hidx hsound h =>
    have hcur : currentElement (f d) r = r2 := by
      rw [currentElement, helems, hidx, Option.getD_some, getD_append_self]
    rw [hcur]
    exact ⟨es, hsound, hidx, h, .inr helems⟩

/-- `__build_array_element` builds the element the array is at. -/
theorem buildArrayElement_run {recArray : Nat → Step} {fuel : Nat} {es : List RedisReply}
    (hidx : (rrp.builders rrb).arridx = es.length)
    (helems : r.arrval = some es ∧
        currentElement (rrp.builders rrb) r = { RedisReply.init with type := r.elemtype } ∨
      r.arrval = some (es ++ [currentElement (rrp.builders rrb) r]))
    (hrun : buildArrayElement recArray fuel rrb rrp bb r = some o) : o.rc = .stray ∨
    ∃ o₁, buildByType recArray fuel rrb rrp bb (currentElement (rrp.builders rrb) r) = some o₁ ∧
      o = buildArrayElementEnd rrb { r with arrval := some (es ++ [o₁.r]) } o₁ := by
  set e := currentElement (rrp.builders rrb) r with he
  have hget : (es ++ [e])[es.length]? = some e := by
    rw [List.getElem?_append_right (Nat.le_refl _), Nat.sub_self]
    rfl
  have hlast : min es.length ((es ++ [e]).length - 1) = es.length := by
    rw [List.length_append, List.length_singleton]
    omega
  have hset : ∀ x, (es ++ [e]).set es.length x = es ++ [x] := by
    intro x
    rw [List.set_append_right _ _ (Nat.le_refl _), Nat.sub_self]
    rfl
  unfold buildArrayElement at hrun
  rcases helems with ⟨helems, hnew⟩ | helems
  · simp only [helems, hidx, Nat.le_refl, true_and, if_true, ← hnew, hlast, hget, hset] at hrun
    split at hrun
    · obtain rfl := Option.some.inj hrun
      exact .inl rfl
    · split at hrun
      · cases hrun
      · next o₁ hbuild => exact .inr ⟨o₁, hbuild, (Option.some.inj hrun).symm⟩
  · have hroom : ¬ (es ++ [e]).length ≤ es.length := by simp
    simp only [helems, hidx, hroom, false_and, if_false, hlast, hget, hset] at hrun
    split at hrun
    · cases hrun
    · next o₁ hbuild => exact .inr ⟨o₁, hbuild, (Option.some.inj hrun).symm⟩

end KjRedis.Reply
