import KjRedis.Reply.Grammar
import KjRedis.Reply.Storage

/-! What a reply asks of the builder stack. Over one block the parser follows the reader
for as long as no builder leaves the stack's memory, whatever storage the stack is on. -/
namespace KjRedis.Reply

open RedisReplyParser

/-- How often the stack has grown, and whether a pop has cleared the reply's head. -/
structure StackUse where
  grown : Nat
  cleared : Bool
  deriving DecidableEq, Repr

/-- A builder's depth is a `uint8_t`. -/
def StackUse.enter (depth : Nat) (u : StackUse) : Option StackUse :=
  if depth < 2 ^ 8 then some { u with grown := grow u.grown depth } else none

def StackUse.leave (depth : Nat) (u : StackUse) : Option StackUse :=
  (popClears u.grown (depth + 1)).map fun c => { u with cleared := u.cleared || c }

mutual

/-- The builders a reply opens at `depth` and below it. An integer needs none. -/
def Resp.stackUse : Resp → Nat → StackUse → Option StackUse
  | .int _, _, u => some u
  | .text _ _, depth, u => (u.enter depth).bind (StackUse.leave depth)
  | .nullBulk, depth, u => (u.enter depth).bind (StackUse.leave depth)
  | .bulk _, depth, u => (u.enter depth).bind (StackUse.leave depth)
  | .nullArray, depth, u => (u.enter depth).bind (StackUse.leave depth)
  | .array elems, depth, u =>
    (u.enter depth).bind fun u =>
      (Resp.stackUseAll elems (depth + 1) u).bind (StackUse.leave depth)

def Resp.stackUseAll : List Resp → Nat → StackUse → Option StackUse
  | [], _, u => some u
  | v :: vs, depth, u => (v.stackUse depth u).bind (Resp.stackUseAll vs depth)

end

/-- The builders of a reply that is still open. -/
def Part.stackUse : Part → Nat → StackUse → Option StackUse
  | .type, _, u => some u
  | .badType, _, u => some u
  | .num .int _, _, u => some u
  | .num .bulkLen _, depth, u => u.enter depth
  | .num .arrayLen _, depth, u => u.enter depth
  | .text _ _ _, depth, u => u.enter depth
  | .payload _ _, depth, u => u.enter depth
  | .badPayload _ _, depth, u => u.enter depth
  | .array _ done cur, depth, u =>
    (u.enter depth).bind fun u =>
      (Resp.stackUseAll done (depth + 1) u).bind (cur.stackUse (depth + 1))

/-- What a reply asks of the stack once its own builder is there. -/
def Resp.innerUse : Resp → Nat → StackUse → Option StackUse
  | .array elems, depth, u => Resp.stackUseAll elems (depth + 1) u
  | _, _, u => some u

def Part.innerUse : Part → Nat → StackUse → Option StackUse
  | .array _ done cur, depth, u => (Resp.stackUseAll done (depth + 1) u).bind (cur.stackUse (depth + 1))
  | _, _, u => some u

theorem Resp.stackUse_eq {v : Resp} (h : v.leading ≠ .integer) (n : Nat) (u : StackUse) :
    v.stackUse n u = (u.enter n).bind fun u => (v.innerUse n u).bind (StackUse.leave n) := by
  cases v with
  | int v => exact absurd rfl h
  | _ => rfl

theorem Part.stackUse_eq {q : Part} (h : q.leading ≠ .integer) (hknown : q.leading ≠ .unknown) (n : Nat)
    (u : StackUse) : q.stackUse n u = (u.enter n).bind (q.innerUse n) := by
  cases q with
  | type => exact absurd rfl hknown
  | badType => exact absurd rfl hknown
  | array len done cur => rfl
  | num kind acc =>
    cases kind with
    | int => exact absurd rfl h
    | _ => exact (Option.bind_fun_some _).symm
  | _ => exact (Option.bind_fun_some _).symm

theorem Resp.stackUseAll_append (vs ws : List Resp) (n : Nat) (u : StackUse) :
    Resp.stackUseAll (vs ++ ws) n u = (Resp.stackUseAll vs n u).bind (Resp.stackUseAll ws n) := by
  induction vs generalizing u with
  | nil => rfl
  | cons v vs ih =>
    rw [List.cons_append, Resp.stackUseAll, Resp.stackUseAll, Option.bind_assoc]
    exact congrArg _ (funext ih)

/-- An array keeps the elements it has. -/
theorem Part.run_array_prefix {env : Envelope} {n len : Nat} {done : List Resp} {cur : Part}
    (bs : List UInt8) :
    match run env n (.array len done cur) bs with
    | .more q => ∃ vs cur', q = .array len (done ++ vs) cur'
    | .done w _ => ∃ vs, w = .array (done ++ vs)
    | .wild => True := by
  induction bs generalizing done cur with
  | nil => exact ⟨[], cur, by rw [List.append_nil]⟩
  | cons b bs ih =>
    cases hs : step env (n + 1) cur b with
    | part cur' =>
      have hstep : step env n (.array len done cur) b = .part (.array len done cur') := by
        simp only [step, hs]
      rw [run_cons_part hstep]
      exact ih
    | wild =>
      rw [run_cons_wild (by simp only [step, hs])]
      trivial
    | value v =>
      have hstep : step env n (.array len done cur) b = arrayNext len (done ++ [v]) := by
        simp only [step, hs]
      rw [arrayNext] at hstep
      split_ifs at hstep with hint hnext
      · rw [run_cons_wild hstep]
        trivial
      · have hih := @ih (done ++ [v]) .type
        rw [run_cons_part hstep]
        cases hr : run env n (.array len (done ++ [v]) .type) bs with
        | wild => trivial
        | more q =>
          rw [hr] at hih
          obtain ⟨vs, cur', rfl⟩ := hih
          exact ⟨v :: vs, cur', by rw [List.append_assoc, List.singleton_append]⟩
        | done w rest =>
          rw [hr] at hih
          obtain ⟨vs, rfl⟩ := hih
          exact ⟨v :: vs, by rw [List.append_assoc, List.singleton_append]⟩
      · rw [run_cons_value hstep]
        exact ⟨[v], rfl⟩

/-- Lines of text fit one buffer. The builder at the depth 256 is taken for the main one, so
that no text is opened there, and no array whose length looks like a reply. -/
structure Envelope.Bounded (env : Envelope) : Prop where
  text : env.textMax ≤ simpleStringTempBuffSize
  wraps : ∀ {type : LeadingType}, env.opens (2 ^ 8) type → type ≠ .simpleString ∧ type ≠ .errorString
  digits : env.opens (2 ^ 8) .array → ∀ {d : UInt8}, env.numOk .arrayLen [d] → leadingType d = none

/-- The code of a call whose stack has failed: a pop outside the parser's memory or, where
the envelope goes that deep, the main builder taken for another. -/
def Envelope.Fails (env : Envelope) (rc : Rc) : Prop :=
  rc = .stray ∨ (∃ type, env.opens (2 ^ 8) type) ∧ rc ≠ .over ∧ rc ≠ .again

theorem Envelope.Fails.stops {env : Envelope} {rc : Rc} (h : env.Fails rc) : rc ≠ .over ∧ rc ≠ .again := by
  rcases h with rfl | ⟨-, h⟩
  · exact ⟨by simp, by simp⟩
  · exact h

variable {env : Envelope} {rrp : RedisReplyParser} {k n fuel : Nat} {z : Bool} {b rest : List UInt8}
  {r v : RedisReply}

/-- A call that completes `v` with `n` builders left, every builder below an address as
it was; or, the stack having failed, a call that ends in an error. -/
def Landed (env : Envelope) (u : Option StackUse) (k addr n : Nat) (rest : List UInt8) (v : RedisReply)
    (rrp : RedisReplyParser) (o : Out) : Prop :=
  match u with
  | some u =>
    o.rc = .over ∧ o.bb = rest ∧ o.r = v ∧ StackAt o.rrp u.grown n u.cleared ∧
      Below addr rrp o.rrp ∧ k ≤ u.grown
  | none => env.Fails o.rc

/-- What a call leaves where the reader's run ends: the reply, with the stack as its
builders leave it, or the code of what is still open. -/
def Lands (env : Envelope) (run : Run) (use : Resp → Option StackUse) (inside : Part → Option StackUse)
    (k addr n : Nat) (rrp : RedisReplyParser) (o : Out) : Prop :=
  match run with
  | .done v rest => Landed env (use v) k addr n rest v.render rrp o
  | .more q => (inside q).elim (env.Fails o.rc) fun _ => o.rc = q.code
  | .wild => True

theorem Lands.stops {run : Run} {use : Resp → Option StackUse} {inside : Part → Option StackUse}
    {k addr n : Nat} {o : Out} (h : Lands env run use inside k addr n rrp o) (hwild : run ≠ .wild) :
    o.rc ≠ .again := by
  cases run with
  | wild => exact absurd rfl hwild
  | more q =>
    rw [Lands] at h
    cases hu : inside q with
    | none =>
      rw [hu] at h
      exact h.stops.2
    | some u =>
      rw [hu, Option.elim_some] at h
      rw [h]
      exact q.code_ne.1
  | done v rest =>
    rw [Lands] at h
    cases hu : use v with
    | none =>
      rw [hu] at h
      exact h.stops.2
    | some u =>
      rw [hu] at h
      rw [h.1]
      simp

/-- A step before the call that keeps the builders below the address. -/
theorem Lands.after {run : Run} {use : Resp → Option StackUse} {inside : Part → Option StackUse}
    {k addr n : Nat} {rrp₀ : RedisReplyParser} {o : Out} (h : Lands env run use inside k addr n rrp o)
    (hbelow : Below addr rrp₀ rrp) : Lands env run use inside k addr n rrp₀ o := by
  cases run with
  | wild => trivial
  | more q => exact h
  | done v rest =>
    rw [Lands] at h ⊢
    cases hu : use v with
    | none =>
      rw [hu] at h
      exact h
    | some u =>
      rw [hu] at h
      obtain ⟨hrc, hbb, hr, hat, hbelow', hgrown⟩ := h
      exact ⟨hrc, hbb, hr, hat, hbelow.trans hbelow' (Nat.le_refl _), hgrown⟩

/-- A call on a storage the stack has grown into since. -/
theorem Lands.mono {run : Run} {use : Resp → Option StackUse} {inside : Part → Option StackUse}
    {k₀ k addr n : Nat} {o : Out} (h : Lands env run use inside k addr n rrp o) (hk : k₀ ≤ k) :
    Lands env run use inside k₀ addr n rrp o := by
  cases run with
  | wild => trivial
  | more q => exact h
  | done v rest =>
    rw [Lands] at h ⊢
    cases hu : use v with
    | none =>
      rw [hu] at h
      exact h
    | some u =>
      rw [hu] at h
      obtain ⟨hrc, hbb, hr, hat, hbelow, hgrown⟩ := h
      exact ⟨hrc, hbb, hr, hat, hbelow, hk.trans hgrown⟩

/-- What closing a builder's scope makes of the call's outcome. -/
def Out.close (o : Out) : Option Out :=
  if o.rc = .over then
    match o.rrp.stackPopReplyBuilder with
    | some rrp => some { o with rrp }
    | none => some { o with rc := .stray }
  else some o

theorem withBuilder_of_run {depth rrb : Nat} {step : Nat → Step} {rrp₁ : RedisReplyParser} {o : Out}
    (halloc : rrp.stackAllocReplyBuilder depth = (rrb, rrp₁))
    (hrun : rrbLoop (step rrb) fuel rrp₁ b r = some o) :
    withBuilder fuel depth step rrp b r = o.close := by
  rw [withBuilder, halloc]
  simp only [hrun]
  rfl

/-- A reply of a builder of its own, from what the loop of the builder makes of it. -/
theorem withBuilder_lands {p : Part} (step : Nat → Step) (hstarted : p.started)
    (hlead : p.leading ≠ .integer) (hwild : p.run env n b ≠ .wild) (h : StackAt rrp k n z) (hpos : 0 < n)
    (hn : n < 2 ^ 8)
    (hloop : ∀ rrp₁, StackAt rrp₁ (grow k n) (n + 1) z →
      rrp₁.builders (slotOf (grow k n) n) = { RedisReplyBuilder.zero with depth := n } →
      ∃ o, rrbLoop (step (slotOf (grow k n) n)) fuel rrp₁ b r = some o ∧
        Lands env (p.run env n b) (fun v => v.innerUse n ⟨grow k n, z⟩) (fun q => q.innerUse n ⟨grow k n, z⟩)
          (grow k n) (slotOf (grow k n) n) (n + 1) rrp₁ o) :
    ∃ o, withBuilder fuel n step rrp b r = some o ∧
      Lands env (p.run env n b) (fun v => v.stackUse n ⟨k, z⟩) (fun q => q.stackUse n ⟨k, z⟩) k (slotOf k n) n
        rrp o := by
  obtain ⟨rb, rrp₁, halloc, hat, rfl, hzero, hbelow⟩ := h.alloc hpos hn
  obtain ⟨o, hrun, hland⟩ := hloop rrp₁ hat hzero
  have hle := slotOf_le (le_grow k n) hat.grown n
  have henter : StackUse.enter n ⟨k, z⟩ = some ⟨grow k n, z⟩ := if_pos hn
  rw [withBuilder_of_run halloc hrun, Out.close]
  cases hr : p.run env n b with
  | wild => exact absurd hr hwild
  | more q =>
    have hknown : q.leading ≠ .unknown := by
      rw [run_more_leading hstarted hr]
      cases p with
      | text isError acc gotCr => cases isError <;> simp [Part.leading, textLeading]
      | num kind acc => cases kind <;> simp [Part.leading, NumKind.leading]
      | type => simp [Part.started] at hstarted
      | badType => simp [Part.started] at hstarted
      | _ => simp [Part.leading]
    have huse := Part.stackUse_eq (by rw [run_more_leading hstarted hr]; exact hlead) hknown n ⟨k, z⟩
    rw [henter, Option.bind_some] at huse
    rw [hr, Lands] at hland
    have hover : o.rc ≠ .over := by
      cases hu : q.innerUse n ⟨grow k n, z⟩ with
      | none =>
        rw [hu] at hland
        exact hland.stops.1
      | some u =>
        rw [hu, Option.elim_some] at hland
        rw [hland]
        exact q.code_ne.2
    refine ⟨o, if_neg hover, ?_⟩
    rw [Lands, huse]
    exact hland
  | done v rest =>
    have huse := Resp.stackUse_eq (by rw [run_done_leading hstarted hr]; exact hlead) n ⟨k, z⟩
    rw [henter, Option.bind_some] at huse
    rw [hr, Lands] at hland
    simp only [Lands, huse]
    cases hu : v.innerUse n ⟨grow k n, z⟩ with
    | none =>
      rw [hu, Landed] at hland
      exact ⟨o, if_neg hland.stops.1, hland⟩
    | some u =>
      rw [hu, Landed] at hland
      obtain ⟨hrc, hbb, hr, hat', hbelow', hgrown⟩ := hland
      rw [if_pos hrc, Option.bind_some, StackUse.leave]
      have hpop := hat'.pop
      cases hc : popClears u.grown (n + 1) with
      | none =>
        rw [hc] at hpop
        simp only at hpop
        rw [hpop]
        exact ⟨_, rfl, .inl rfl⟩
      | some c =>
        rw [hc] at hpop
        obtain ⟨rrp₂, hpop, hat₂, hbelow₂⟩ := hpop
        rw [hpop]
        have hslot := slotOf_le hgrown hat'.grown n
        have hnext : slotOf u.grown n ≤ slotOf u.grown (n + 1) := by
          rw [slotOf_eq hat'.grown, slotOf_eq hat'.grown]
          omega
        refine ⟨_, rfl, hrc, hbb, hr, hat₂, ?_, (le_grow k n).trans hgrown⟩
        exact hbelow.trans (hbelow'.trans hbelow₂ (hslot.trans hnext)) hle

/-- At depth 256 the main builder is taken for the new one. -/
theorem withBuilder_wraps (step : Nat → Step) (h : StackAt rrp k (2 ^ 8) z) {o : Out}
    (hstep : step (slotOf k 0) rrp b r = some o) (hagain : o.rc ≠ .again) (hover : o.rc ≠ .over) :
    withBuilder (fuel + 1) (2 ^ 8) step rrp b r = some o := by
  rw [withBuilder_of_run h.alloc_wraps (rrbLoop_stop hstep hagain), Out.close, if_neg hover]

/-- A number is read without a builder. -/
theorem rBuildIntval_lands (h : StackAt rrp k n z) (hwild : Part.run env n (.num .int []) b ≠ .wild) :
    ∃ o, rBuildIntval rrp b { RedisReply.init with type := .integer } = some o ∧
      Lands env (Part.run env n (.num .int []) b) (fun v => v.stackUse n ⟨k, z⟩)
        (fun q => q.stackUse n ⟨k, z⟩) k (slotOf k n) n rrp o := by
  rw [rBuildIntval]
  cases hread : redisReplyReadInteger b with
  | none =>
    have hrun : Part.run env n (.num .int []) b = .more (.num .int b) :=
      @Part.run_num_none env n .int [] b hread hwild
    rw [rBuildInteger_none hread]
    refine ⟨_, rfl, ?_⟩
    rw [hrun]
    rfl
  | some vm =>
    obtain ⟨v, m⟩ := vm
    have hline := run_num_line hread hwild
    rw [rBuildInteger_some hread]
    refine ⟨_, rfl, ?_⟩
    rw [hline]
    exact ⟨rfl, rfl, rfl, h.parsed _, ⟨fun _ _ => rfl, rfl⟩, Nat.le_refl _⟩

theorem RedisReplyParser.StackAt.stored (h : StackAt rrp k n z) {rb : Nat} (hrb : rb ≠ slotOf k 0)
    (text : List UInt8) (m : Nat) : StackAt (rrp.stored rb text m) k n z := (h.write hrb _).parsed _

theorem RedisReplyParser.below_stored (rrp : RedisReplyParser) (rb : Nat) (text : List UInt8) (m : Nat) :
    Below rb rrp (rrp.stored rb text m) where
  builders _ ha := (write_builders _ _ _ _).trans (if_neg (Nat.ne_of_lt ha))
  state := rfl

/-- The text builder on a line of which nothing is stored yet. -/
theorem lineStep_lands {isError : Bool} (henv : env.Bounded) {rb : Nat} (hrb : rb ≠ slotOf k 0)
    (h : StackAt rrp k n z) (hstate : (rrp.builders rb).state = 2)
    (hstore : (rrp.builders rb).storeLen = 0) {depth : Nat}
    (hwild : Part.run env depth (.text isError [] false) b ≠ .wild) :
    ∃ o, lineStep rb rrp b (Part.draft (.text isError [] false)) = some o ∧
      Lands env (Part.run env depth (.text isError [] false) b) (fun v => v.innerUse depth ⟨k, z⟩)
        (fun q => q.innerUse depth ⟨k, z⟩) k rb n rrp o := by
  rw [lineStep_plain hstate]
  obtain ⟨x, hx, hlen, -, hcases⟩ := Part.run_text hwild
  have hcap : x.length ≤ simpleStringTempBuffSize := by
    rcases hlen with rfl | hlen
    · exact Nat.zero_le _
    · exact hlen.trans henv.text
  by_cases hshort : b.length < 2
  · refine ⟨⟨.premature, rrp, b, _⟩, if_pos hshort, ?_⟩
    rcases hcases with ⟨rfl, hrun⟩ | ⟨rfl, hrun⟩ | ⟨rest, rfl, -⟩
    · rw [hrun]
      rfl
    · rw [hrun]
      rfl
    · simp only [List.length_append, List.length_cons] at hshort
      omega
  rcases hcases with ⟨rfl, hrun⟩ | ⟨rfl, hrun⟩ | ⟨rest, rfl, hrun⟩
  · refine ⟨_, buildSimpleStringPlain_open hstore (.inl rfl) hcap hx hshort, ?_⟩
    rw [hrun]
    rfl
  · refine ⟨_, buildSimpleStringPlain_cr hstore (.inl rfl) hcap hx hshort, ?_⟩
    rw [hrun]
    rfl
  · refine ⟨_, buildSimpleStringPlain_line hstore (.inl rfl) hcap hx rest, ?_⟩
    rw [hrun]
    exact ⟨rfl, rfl, rfl, h.stored hrb _ _, below_stored _ _ _ _, Nat.le_refl _⟩

theorem rBuildSimpleString_lands {isError : Bool} {rb : Nat} (henv : env.Bounded) (h : StackAt rrp k n z)
    (hpos : 0 < n) (hn : n < 2 ^ 8) (hdepth : (rrp.builders rb).depth + 1 = n)
    (hwild : Part.run env n (.text isError [] false) b ≠ .wild) (hfuel : 2 ≤ fuel) :
    ∃ o, rBuildSimpleString fuel rb rrp b { RedisReply.init with type := textLeading isError } = some o ∧
      Lands env (Part.run env n (.text isError [] false) b) (fun v => v.stackUse n ⟨k, z⟩)
        (fun q => q.stackUse n ⟨k, z⟩) k (slotOf k n) n rrp o := by
  obtain ⟨fuel, rfl⟩ : ∃ m, fuel = m + 2 := ⟨fuel - 2, by omega⟩
  unfold rBuildSimpleString
  rw [hdepth]
  have hlead : (Part.text isError [] false).leading ≠ .integer := by
    cases isError <;> simp [Part.leading, textLeading]
  refine withBuilder_lands lineStep rfl hlead hwild h hpos hn fun rrp₁ hat hzero => ?_
  set rb := slotOf (grow k n) n with hrb
  have hslot := slotOf_eq hat.grown
  have hne : rb ≠ slotOf (grow k n) 0 := by
    rw [hrb, hslot, hslot]
    omega
  set f : RedisReplyBuilder := { RedisReplyBuilder.zero with depth := n, len := 1, state := 2 } with hf
  have hown : (rrp₁.write rb f).builders rb = f := (write_builders _ _ _ _).trans (if_pos rfl)
  have hinit : lineStep rb rrp₁ b { RedisReply.init with type := textLeading isError } =
      some ⟨.again, rrp₁.write rb f, b, Part.draft (.text isError [] false)⟩ := by
    rw [lineStep_init (by rw [hzero]; rfl), buildSimpleStringInit, hzero]
    rfl
  obtain ⟨o, hstep, hland⟩ := lineStep_lands henv hne (hat.write hne f) (by rw [hown]) (by rw [hown]; rfl) hwild
  refine ⟨o, (rrbLoop_again hinit rfl).trans (rrbLoop_stop hstep (hland.stops hwild)), ?_⟩
  exact hland.after (Below.write (Nat.le_refl _) _)

/-- The bulk builder on a payload of which nothing is stored yet. -/
theorem buildBulkStringPlain_lands {rb len depth : Nat} (h : StackAt rrp k n z)
    (hstore : (rrp.builders rb).storeLen = len) (hlen : len < 2 ^ 32 - 3) :
    ∃ o, buildBulkStringPlain rb rrp b (Part.draft (.payload len [])) = some o ∧
      Lands env (Part.run env depth (.payload len []) b) (fun v => v.innerUse depth ⟨k, z⟩)
        (fun q => q.innerUse depth ⟨k, z⟩) k rb n rrp o := by
  have hacc : ([] : List UInt8).length < len + 2 := Nat.succ_pos _
  by_cases hshort : ([] ++ b).length < len + 2
  · refine ⟨_, buildBulkStringPlain_short hstore hlen hshort, ?_⟩
    rw [Part.run_payload_short hshort]
    rfl
  · obtain ⟨w, rest, rfl, hdata⟩ : ∃ w rest, b = w ++ rest ∧ ([] ++ w).length = len + 2 := by
      refine ⟨b.take (len + 2), b.drop (len + 2), (List.take_append_drop _ _).symm, ?_⟩
      rw [List.nil_append] at hshort
      rw [List.nil_append, List.length_take]
      omega
    refine ⟨_, buildBulkStringPlain_full hstore hlen hacc hdata rest, ?_⟩
    rw [Part.run_payload_full hacc hdata]
    by_cases hcrlf : ([] ++ w).drop len = crlf
    · rw [if_pos hcrlf, if_pos hcrlf]
      exact ⟨rfl, rfl, rfl, h.parsed _, ⟨fun _ _ => rfl, rfl⟩, Nat.le_refl _⟩
    · rw [if_neg hcrlf, if_neg hcrlf]
      rfl

theorem rBuildBulkString_lands {rb : Nat} (h : StackAt rrp k n z) (hpos : 0 < n) (hn : n < 2 ^ 8)
    (hdepth : (rrp.builders rb).depth + 1 = n)
    (hwild : Part.run env n (.num .bulkLen []) b ≠ .wild) (hfuel : 2 ≤ fuel) :
    ∃ o, rBuildBulkString fuel rb rrp b { RedisReply.init with type := .bulkString } = some o ∧
      Lands env (Part.run env n (.num .bulkLen []) b) (fun v => v.stackUse n ⟨k, z⟩)
        (fun q => q.stackUse n ⟨k, z⟩) k (slotOf k n) n rrp o := by
  obtain ⟨fuel, rfl⟩ : ∃ m, fuel = m + 2 := ⟨fuel - 2, by omega⟩
  unfold rBuildBulkString
  rw [hdepth]
  refine withBuilder_lands bulkStep rfl (by simp [Part.leading, NumKind.leading]) hwild h hpos hn
    fun rrp₁ hat hzero => ?_
  set rb := slotOf (grow k n) n with hrb
  have hslot := slotOf_eq hat.grown
  have hne : rb ≠ slotOf (grow k n) 0 := by
    rw [hrb, hslot, hslot]
    omega
  have hstep := congrFun (congrFun (@bulkStep_len rrp₁ rb (by rw [hzero]; rfl)) b)
    { RedisReply.init with type := .bulkString }
  rw [buildBulkStringStoreLen] at hstep
  cases hread : redisReplyReadInteger b with
  | none =>
    have hrun : Part.run env n (.num .bulkLen []) b = .more (.num .bulkLen b) :=
      @Part.run_num_none env n .bulkLen [] b hread hwild
    rw [rBuildInteger_none hread] at hstep
    refine ⟨_, rrbLoop_stop hstep (by simp), ?_⟩
    rw [hrun]
    rfl
  | some vm =>
    obtain ⟨v, m⟩ := vm
    have hline := run_num_line hread hwild
    rw [rBuildInteger_some hread] at hstep
    rcases lt_or_ge v 0 with hneg | hnonneg
    · simp only [if_neg (not_le.2 hneg)] at hstep
      simp only [Part.ofNum, Part.bulkOfLen, if_pos hneg] at hline
      refine ⟨_, rrbLoop_stop hstep (by simp), ?_⟩
      rw [hline]
      exact ⟨rfl, rfl, rfl, hat.parsed _, ⟨fun _ _ => rfl, rfl⟩, Nat.le_refl _⟩
    · have hlen : toUint32 v < 2 ^ 32 - 3 := by
        by_contra hlarge
        simp only [Part.ofNum, Part.bulkOfLen, if_neg (not_lt.2 hnonneg), if_neg hlarge] at hline
        exact hwild hline
      simp only [if_pos hnonneg, hzero, Nat.mod_eq_of_lt (show toUint32 v + 3 < 2 ^ 32 by omega)] at hstep
      simp only [Part.ofNum, Part.bulkOfLen, if_neg (not_lt.2 hnonneg), if_pos hlen] at hline
      set f : RedisReplyBuilder :=
        { RedisReplyBuilder.zero with depth := n, storeLen := toUint32 v, len := 1, state := 2 } with hf
      set rrp₂ := RedisReplyParser.write { rrp₁ with parsed := rrp₁.parsed + m } rb f with hrrp₂
      have hown : rrp₂.builders rb = f := (write_builders _ _ _ _).trans (if_pos rfl)
      have hat₂ : StackAt rrp₂ (grow k n) (n + 1) z := (hat.parsed _).write hne f
      obtain ⟨o, hplain, hland⟩ := @buildBulkStringPlain_lands env rrp₂ (grow k n) (n + 1) z (b.drop m) rb
        (toUint32 v) n hat₂ (by rw [hown]) hlen
      rw [← hline] at hland
      rw [← @bulkStep_plain rrp₂ rb (by rw [hown])] at hplain
      have hbelow : Below rb rrp₁ rrp₂ :=
        ⟨fun a ha => (write_builders _ _ _ _).trans (if_neg (Nat.ne_of_lt ha)), rfl⟩
      exact ⟨o, (rrbLoop_again hstep rfl).trans (rrbLoop_stop hplain (hland.stops hwild)),
        hland.after hbelow⟩

/-- The array builder inside its elements: `i` of them are there. -/
def inElements (n len i : Nat) : RedisReplyBuilder :=
  { depth := n, state := 2, storeLen := 0, len, arridx := i }

theorem opened_leading {type : LeadingType} {p : Part} (htype : type ≠ .unknown)
    (h : Part.opened env n type = .part p) : p.leading = type ∧ p.started := by
  cases type with
  | unknown => exact absurd rfl htype
  | integer =>
    obtain rfl := Next.part.inj h
    exact ⟨rfl, rfl⟩
  | _ =>
    rw [Part.opened] at h
    split_ifs at h
    obtain rfl := Next.part.inj h
    exact ⟨rfl, rfl⟩

/-- What the switch over a reply's type makes of a reply just opened at a depth. -/
def TypeLands (env : Envelope) (fuel n : Nat) : Prop :=
  ∀ {rrp : RedisReplyParser} {k : Nat} {z : Bool} {rb : Nat} {type : LeadingType} {p : Part}
    {b : List UInt8}, StackAt rrp k n z → (rrp.builders rb).depth + 1 = n → type ≠ .unknown →
    Part.opened env n type = .part p → p.run env n b ≠ .wild → b.length + 3 ≤ fuel →
    ∃ o, buildByType (rBuildArray fuel) fuel rb rrp b { RedisReply.init with type } = some o ∧
      Lands env (p.run env n b) (fun v => v.stackUse n ⟨k, z⟩) (fun q => q.stackUse n ⟨k, z⟩) k (slotOf k n)
        n rrp o

/-- What the array builder's round on an element leaves: `done` were there before. -/
def ElementLands (env : Envelope) (run : Run) (n len : Nat) (done : List Resp) (k addr : Nat) (z : Bool)
    (rrp : RedisReplyParser) (o : Out) : Prop :=
  match run with
  | .more q => (q.stackUse (n + 1) ⟨k, z⟩).elim (env.Fails o.rc) fun _ => o.rc = q.code
  | .done v rest =>
    (v.stackUse (n + 1) ⟨k, z⟩).elim (env.Fails o.rc) fun u =>
      o.bb = rest ∧ o.r = arrayReply len (done ++ [v]) [] (lastLeading (done ++ [v])) ∧
        StackAt o.rrp u.grown (n + 1) u.cleared ∧ Below addr rrp o.rrp ∧ k ≤ u.grown ∧
        if done.length + 1 < len then
          o.rc = .again ∧ o.rrp.builders addr = inElements n len (done.length + 1)
        else o.rc = .over
  | .wild => True

/-- The end of an element's round, from what its reply's builder leaves. -/
theorem elementEnd_lands {k₀ len : Nat} {done : List Resp} {run : Run} {type : LeadingType} {o : Out}
    {f : RedisReplyBuilder} (hf : f = { inElements n len done.length with state := 3 })
    (hown : rrp.builders (slotOf k₀ n) = f) (hk : k₀ ≤ k) (hcap : n < capacity k₀) (hpos : 0 < n)
    (hrun : ∀ v rest, run = .done v rest → v.leading = type ∧ done.length + 2 < 2 ^ 31)
    (hland : Lands env run (fun v => v.stackUse (n + 1) ⟨k, z⟩) (fun q => q.stackUse (n + 1) ⟨k, z⟩) k
      (slotOf k (n + 1)) (n + 1) rrp o) :
    ElementLands env run n len done k (slotOf k₀ n) z rrp
      (buildArrayElementEnd (slotOf k₀ n) (arrayReply len done [o.r] type) o) := by
  cases run with
  | wild => trivial
  | more q =>
    rw [Lands] at hland
    rw [ElementLands]
    cases hu : q.stackUse (n + 1) ⟨k, z⟩ with
    | none =>
      rw [hu] at hland
      rw [buildArrayElementEnd, if_neg hland.stops.1]
      exact hland
    | some u =>
      rw [hu, Option.elim_some] at hland
      rw [buildArrayElementEnd, if_neg (by rw [hland]; exact q.code_ne.2)]
      exact hland
  | done v rest =>
    obtain ⟨hlead, hint⟩ := hrun v rest rfl
    rw [Lands] at hland
    rw [ElementLands]
    cases hu : v.stackUse (n + 1) ⟨k, z⟩ with
    | none =>
      rw [hu] at hland
      rw [buildArrayElementEnd, if_neg hland.stops.1]
      exact hland
    | some u =>
      rw [hu] at hland
      obtain ⟨hrc, hbb, hr, hat, hbelow, hgrown⟩ := hland
      have htop : slotOf k₀ n < slotOf k (n + 1) := by
        have hkk := hgrown.trans hat.grown
        have := slotOf_le hk hkk (n + 1)
        rw [slotOf_eq (hk.trans hkk)] at this ⊢
        omega
      have hb : o.rrp.builders (slotOf k₀ n) = f := (hbelow.builders _ htop).trans hown
      have hne := slotOf_ne (hk.trans hgrown) hat.grown hcap (Nat.ne_of_gt hpos)
      have hbelow' : Below (slotOf k₀ n) rrp o.rrp :=
        ⟨fun a ha => hbelow.builders a (by omega), hbelow.state⟩
      have hreply : arrayReply len done [o.r] type =
          arrayReply len (done ++ [v]) [] (lastLeading (done ++ [v])) := by
        rw [hr, lastLeading_snoc, hlead, arrayReply, arrayReply, List.map_append, List.append_nil]
        rfl
      rw [buildArrayElementEnd, if_pos hrc, hreply]
      simp only [hb, Option.elim_some]
      rw [if_neg (by rw [hf]; simp only [inElements]; omega)]
      by_cases hmore : done.length + 1 < len
      · rw [if_pos (by rw [hf]; exact hmore), if_pos hmore]
        exact ⟨hbb, rfl, hat.write hne _, hbelow'.trans (Below.write (Nat.le_refl _) _) (Nat.le_refl _),
          hgrown, rfl, (write_builders _ _ _ _).trans (by rw [if_pos rfl, hf]; rfl)⟩
      · rw [if_neg (by rw [hf]; exact hmore), if_neg hmore]
        exact ⟨hbb, rfl, hat.write hne _, hbelow'.trans (Below.write (Nat.le_refl _) _) (Nat.le_refl _),
          hgrown, hrc⟩

/-- The two rounds of one element. -/
private theorem element_rounds {k₀ len : Nat} {done : List Resp} {elemtype type : LeadingType} {c : UInt8}
    {p : Part} (hchild : TypeLands env fuel (n + 1)) (hk : k₀ ≤ k) (hcap : n < capacity k₀) (hpos : 0 < n)
    (h : StackAt rrp k (n + 1) z) (hown : rrp.builders (slotOf k₀ n) = inElements n len done.length)
    (hlt : done.length < len) (hc : leadingType c = some type)
    (hopen : Part.opened env (n + 1) type = .part p) (hwild : p.run env (n + 1) b ≠ .wild)
    (hint : ∀ v rest, p.run env (n + 1) b = .done v rest → done.length + 2 < 2 ^ 31)
    (hfuel : b.length + 3 ≤ fuel) :
    ∃ rrp₁ o, arrayStep (rBuildArray fuel) fuel (slotOf k₀ n) rrp (c :: b)
          (arrayReply len done [] elemtype) = some ⟨.again, rrp₁, b, arrayReply len done [] type⟩ ∧
      arrayStep (rBuildArray fuel) fuel (slotOf k₀ n) rrp₁ b (arrayReply len done [] type) = some o ∧
      ElementLands env (p.run env (n + 1) b) n len done k (slotOf k₀ n) z rrp o := by
  have hne := slotOf_ne hk h.grown hcap (Nat.ne_of_gt hpos)
  have htype := leadingType_ne_unknown hc
  obtain ⟨hlead, hstarted⟩ := opened_leading htype hopen
  set f : RedisReplyBuilder := { inElements n len done.length with state := 3 } with hf
  set rrp₁ : RedisReplyParser := { rrp.write (slotOf k₀ n) f with parsed := rrp.parsed + 1 } with hrrp₁
  have hf₁ : rrp₁.builders (slotOf k₀ n) = f := (write_builders _ _ _ _).trans (if_pos rfl)
  have hbelow : Below (slotOf k₀ n) rrp rrp₁ :=
    ⟨fun a ha => (write_builders _ _ _ _).trans (if_neg (Nat.ne_of_lt ha)), rfl⟩
  obtain ⟨o, hrun, hland⟩ := hchild ((h.write hne f).parsed (rrp.parsed + 1))
    (show (rrp₁.builders (slotOf k₀ n)).depth + 1 = n + 1 by rw [hf₁]; rfl) htype hopen hwild hfuel
  have hbuild := @buildArrayElement_eq fuel rrp₁ b (rBuildArray fuel) (slotOf k₀ n) len done type [] _
    (by rw [hf₁]; rfl) hlt (.inl ⟨rfl, rfl⟩)
  rw [hrun, Option.map_some] at hbuild
  have hend := elementEnd_lands hf hf₁ hk hcap hpos
    (fun v rest hdone => ⟨(run_done_leading hstarted hdone).trans hlead, hint v rest hdone⟩) hland
  refine ⟨rrp₁, _, ?_, (congrFun (congrFun (arrayStep_element (by rw [hf₁])) _) _).trans hbuild, ?_⟩
  · rw [arrayStep_type (by rw [hown]; rfl)]
    simp only [buildArrayElementType, redisReplyReadLeading, List.head?_cons, hc,
      Committed.decommit_eq_drop, List.drop_one, List.tail_cons, hown]
    rfl
  · cases hr : p.run env (n + 1) b with
    | wild => trivial
    | more q =>
      rw [hr] at hend
      exact hend
    | done v rest =>
      rw [hr, ElementLands] at hend
      rw [ElementLands]
      cases hu : v.stackUse (n + 1) ⟨k, z⟩ with
      | none =>
        rw [hu] at hend
        exact hend
      | some u =>
        rw [hu] at hend
        obtain ⟨hbb, hr, hat, hbelow', hgrown, hnext⟩ := hend
        exact ⟨hbb, hr, hat, hbelow.trans hbelow' (Nat.le_refl _), hgrown, hnext⟩

theorem array_render {vs : List Resp} (hne : vs ≠ []) :
    (Resp.array vs).render = arrayReply vs.length vs [] (lastLeading vs) := by
  rw [Resp.render, if_neg (by rwa [List.length_eq_zero_iff]), arrayReply, Resp.renderAll_eq_map,
    List.append_nil]

theorem opened_part {type : LeadingType} (h : Part.opened env n type ≠ .wild) :
    ∃ p, Part.opened env n type = .part p := by
  cases type with
  | unknown => exact ⟨_, rfl⟩
  | integer => exact ⟨_, rfl⟩
  | _ =>
    rw [Part.opened] at h ⊢
    split_ifs at h ⊢
    exacts [⟨_, rfl⟩, absurd rfl h]

/-- A failed stack has failed for every array that goes on from there. -/
theorem Envelope.Fails.lands {len addr m : Nat} {done : List Resp} {cur : Part} {u₀ : StackUse} {o : Out}
    (h : env.Fails o.rc) (hused : Resp.stackUseAll done (n + 1) u₀ = none) :
    Lands env (Part.run env n (.array len done cur) b) (fun v => v.innerUse n u₀) (fun q => q.innerUse n u₀)
      k addr m rrp o := by
  have hprefix := @Part.run_array_prefix env n len done cur b
  cases hr : Part.run env n (.array len done cur) b with
  | wild => trivial
  | more q =>
    rw [hr] at hprefix
    obtain ⟨vs, cur', rfl⟩ := hprefix
    simp only [Lands, Part.innerUse, Resp.stackUseAll_append, hused, Option.bind_none, Option.elim_none]
    exact h
  | done w rest =>
    rw [hr] at hprefix
    obtain ⟨vs, rfl⟩ := hprefix
    simp only [Lands, Resp.innerUse, Resp.stackUseAll_append, hused, Option.bind_none]
    exact h

/-- The reader on an element's leading character. -/
theorem run_element {len : Nat} {done : List Resp} {c : UInt8} {type : LeadingType} {p : Part}
    (hc : leadingType c = some type) (hopen : Part.opened env (n + 1) type = .part p) :
    Part.run env n (.array len done .type) (c :: b) = Part.run env n (.array len done p) b := by
  have hstep : Part.step env (n + 1) .type c = .part p := by
    rw [Part.step, hc]
    exact hopen
  rw [Part.run_array, Part.run_cons_part hstep, ← Part.run_array]

/-- An element that the reader answers for, in an array whose elements an `int` counts. -/
theorem element_defined {len : Nat} {done : List Resp} {c : UInt8} {type : LeadingType}
    (hc : leadingType c = some type)
    (hwild : Part.run env n (.array len done .type) (c :: b) ≠ .wild) :
    ∃ p, Part.opened env (n + 1) type = .part p ∧ p.run env (n + 1) b ≠ .wild ∧
      ∀ v rest, p.run env (n + 1) b = .done v rest → done.length + 2 < 2 ^ 31 := by
  have hopen : Part.opened env (n + 1) type ≠ .wild := by
    intro hopen
    have hbad : Part.step env (n + 1) .type c = .wild := by
      rw [Part.step, hc]
      exact hopen
    exact hwild (by rw [Part.run_array, Part.run_cons_wild hbad])
  obtain ⟨p, hopen⟩ := opened_part hopen
  rw [run_element hc hopen, Part.run_array] at hwild
  refine ⟨p, hopen, fun hw => ?_, fun v rest hdone => ?_⟩
  · rw [hw] at hwild
    exact hwild rfl
  · rw [hdone] at hwild
    by_contra hlarge
    have hnext : Part.arrayNext len (done ++ [v]) = .wild := by
      rw [Part.arrayNext, if_pos (by rw [List.length_append, List.length_singleton]; omega)]
    simp only [hnext] at hwild
    exact hwild rfl

/-- The loop of the array builder over the elements left. -/
theorem elements_land {k₀ len : Nat} {u₀ : StackUse} (hchild : TypeLands env fuel (n + 1))
    (hcap : n < capacity k₀) (hpos : 0 < n) (rounds : Nat) {done : List Resp} (hk : k₀ ≤ k)
    (h : StackAt rrp k (n + 1) z) (hown : rrp.builders (slotOf k₀ n) = inElements n len done.length)
    (hlt : done.length < len) (hused : Resp.stackUseAll done (n + 1) u₀ = some ⟨k, z⟩)
    (hwild : Part.run env n (.array len done .type) b ≠ .wild) (hfuel : b.length + 2 ≤ fuel)
    (hrounds : b.length + 1 ≤ rounds) :
    ∃ o, rrbLoop (arrayStep (rBuildArray fuel) fuel (slotOf k₀ n)) rounds rrp b
        (arrayReply len done [] (lastLeading done)) = some o ∧
      Lands env (Part.run env n (.array len done .type) b) (fun v => v.innerUse n u₀)
        (fun q => q.innerUse n u₀) k (slotOf k₀ n) (n + 1) rrp o := by
  induction rounds using Nat.strong_induction_on generalizing rrp k z b done with
  | _ rounds ih =>
  have hstep := @arrayStep_type fuel rrp (slotOf k₀ n) (rBuildArray fuel) (by rw [hown]; rfl)
  cases b with
  | nil =>
    obtain ⟨rounds, rfl⟩ : ∃ m, rounds = m + 1 := ⟨rounds - 1, by omega⟩
    refine ⟨⟨.premature, rrp, [], _⟩, rrbLoop_stop ((congrFun (congrFun hstep _) _).trans rfl) (by simp), ?_⟩
    simp only [Lands, Part.run_nil, Part.innerUse, hused]
    rfl
  | cons c b =>
    rw [List.length_cons] at hfuel hrounds
    obtain ⟨rounds, rfl⟩ : ∃ m, rounds = m + 2 := ⟨rounds - 2, by omega⟩
    cases hc : leadingType c with
    | none =>
      have hrun : Part.run env n (.array len done .type) (c :: b) = .more (.array len done .badType) := by
        rw [Part.run_array, Part.run_cons_part (by rw [Part.step, hc]; rfl), Part.run_badType]
      have hbad : arrayStep (rBuildArray fuel) fuel (slotOf k₀ n) rrp (c :: b)
          (arrayReply len done [] (lastLeading done)) =
          some ⟨.invalidLeadingChar, rrp, c :: b, arrayReply len done [] (lastLeading done)⟩ := by
        rw [hstep, buildArrayElementType]
        simp only [redisReplyReadLeading, List.head?_cons, hc]
      refine ⟨_, rrbLoop_stop hbad (by simp), ?_⟩
      rw [hrun]
      simp only [Lands, Part.innerUse, hused]
      rfl
    | some type =>
      obtain ⟨p, hopen, hwild', hint⟩ := element_defined hc hwild
      rw [run_element hc hopen, Part.run_array] at hwild ⊢
      obtain ⟨rrp₁, o, hagain, helem, hland⟩ := @element_rounds env rrp k n fuel z b k₀ len done
        (lastLeading done) type c p hchild hk hcap hpos h hown hlt hc hopen hwild' hint (by omega)
      have hfirst := @rrbLoop_again _ (rounds + 1) _ _ _ _ hagain rfl
      simp only at hfirst
      cases hr : p.run env (n + 1) b with
      | wild => exact absurd hr hwild'
      | more q =>
        rw [hr, ElementLands] at hland
        have hrc : o.rc ≠ .again := by
          cases hu : q.stackUse (n + 1) ⟨k, z⟩ with
          | none =>
            rw [hu] at hland
            exact hland.stops.2
          | some u =>
            rw [hu, Option.elim_some] at hland
            rw [hland]
            exact q.code_ne.1
        refine ⟨o, hfirst.trans (rrbLoop_stop helem hrc), ?_⟩
        simp only [Lands, Part.innerUse, hused, Option.bind_some]
        exact hland
      | done v rest =>
        have hint' := hint v rest hr
        have hshort := Part.run_done_length hr
        have hsnoc : Resp.stackUseAll (done ++ [v]) (n + 1) u₀ = v.stackUse (n + 1) ⟨k, z⟩ := by
          rw [Resp.stackUseAll_append, hused, Option.bind_some, Resp.stackUseAll]
          exact Option.bind_fun_some _
        have hcount : (done ++ [v]).length = done.length + 1 := by
          rw [List.length_append, List.length_singleton]
        rw [hr, ElementLands] at hland
        rw [hr] at hwild
        simp only [Part.arrayNext, hcount, if_neg (show ¬ 2 ^ 31 ≤ done.length + 1 + 1 by omega)]
          at hwild ⊢
        cases hu : v.stackUse (n + 1) ⟨k, z⟩ with
        | none =>
          rw [hu] at hland hsnoc
          refine ⟨o, hfirst.trans (rrbLoop_stop helem hland.stops.2), ?_⟩
          by_cases hmore : done.length + 1 + 1 ≤ len
          · rw [if_pos hmore]
            exact Envelope.Fails.lands hland hsnoc
          · rw [if_neg hmore]
            simp only [Lands, Resp.innerUse, hsnoc]
            exact hland
        | some u =>
          rw [hu] at hland hsnoc
          obtain ⟨hbb, hr, hat, hbelow, hgrown, hnext⟩ := hland
          by_cases hmore : done.length + 1 < len
          · rw [if_pos hmore] at hnext
            rw [if_pos (show done.length + 1 + 1 ≤ len by omega)] at hwild ⊢
            obtain ⟨o', hloop, hland⟩ := ih rounds (by omega) (hk.trans hgrown) hat
              (by rw [hnext.2, hcount]) (by rw [hcount]; exact hmore) hsnoc hwild (by omega) (by omega)
            rw [← hbb, ← hr] at hloop
            refine ⟨o', (hfirst.trans (rrbLoop_again helem hnext.1)).trans hloop, ?_⟩
            exact (hland.after hbelow).mono hgrown
          · rw [if_neg hmore] at hnext
            rw [if_neg (show ¬ done.length + 1 + 1 ≤ len by omega)]
            have hfull : (Resp.array (done ++ [v])).render =
                arrayReply len (done ++ [v]) [] (lastLeading (done ++ [v])) := by
              rw [array_render (by simp), hcount, show done.length + 1 = len by omega]
            refine ⟨o, hfirst.trans (rrbLoop_stop helem (by rw [hnext]; simp)), ?_⟩
            simp only [Lands, Resp.innerUse, hsnoc]
            exact ⟨hnext, hbb, hr.trans hfull.symm, hat, hbelow, hgrown⟩

/-- The array builder's loop, from the array's length on. -/
theorem array_loop_lands (hchild : TypeLands env fuel (n + 1)) (hpos : 0 < n)
    (h : StackAt rrp k (n + 1) z)
    (hzero : rrp.builders (slotOf k n) = { RedisReplyBuilder.zero with depth := n })
    (hwild : Part.run env n (.num .arrayLen []) b ≠ .wild) (hfuel : b.length + 2 ≤ fuel) :
    ∃ o, rrbLoop (arrayStep (rBuildArray fuel) fuel (slotOf k n)) fuel rrp b
        { RedisReply.init with type := .array } = some o ∧
      Lands env (Part.run env n (.num .arrayLen []) b) (fun v => v.innerUse n ⟨k, z⟩)
        (fun q => q.innerUse n ⟨k, z⟩) k (slotOf k n) (n + 1) rrp o := by
  obtain ⟨rounds, rfl⟩ : ∃ m, fuel = m + 1 := ⟨fuel - 1, by omega⟩
  have hstep := congrFun (congrFun
    (@arrayStep_len (rounds + 1) rrp (slotOf k n) (rBuildArray (rounds + 1)) (by rw [hzero]; rfl)) b)
    { RedisReply.init with type := .array }
  rw [buildArrayLen] at hstep
  cases hread : redisReplyReadInteger b with
  | none =>
    have hrun : Part.run env n (.num .arrayLen []) b = .more (.num .arrayLen b) :=
      @Part.run_num_none env n .arrayLen [] b hread hwild
    rw [rBuildInteger_none hread] at hstep
    refine ⟨_, rrbLoop_stop hstep (by simp), ?_⟩
    rw [hrun]
    rfl
  | some vm =>
    obtain ⟨v, m⟩ := vm
    have hline := run_num_line hread hwild
    obtain ⟨hm, hlen⟩ := redisReplyReadInteger_length hread
    rw [rBuildInteger_some hread] at hstep
    simp only [Part.ofNum, Part.arrayOfLen] at hline
    rcases lt_trichotomy v 0 with hneg | rfl | hv
    · simp only [if_neg (not_lt.2 hneg.le), decide_eq_true hneg] at hstep
      rw [if_pos hneg] at hline
      refine ⟨_, rrbLoop_stop hstep (by simp), ?_⟩
      rw [hline]
      exact ⟨rfl, rfl, rfl, h.parsed _, ⟨fun _ _ => rfl, rfl⟩, Nat.le_refl _⟩
    · refine ⟨_, rrbLoop_stop hstep (by simp), ?_⟩
      rw [hline]
      exact ⟨rfl, rfl, rfl, h.parsed _, ⟨fun _ _ => rfl, rfl⟩, Nat.le_refl _⟩
    · have hsmall : toUint32 v ≠ 0 := by
        intro hz
        rw [if_neg (by omega), if_neg (by omega), if_pos hz] at hline
        exact hwild hline
      simp only [if_pos hv, hzero] at hstep
      rw [if_neg (by omega), if_neg (by omega), if_neg hsmall] at hline
      have hcap : n < capacity k := h.within
      have hne := slotOf_ne (Nat.le_refl _) h.grown hcap (Nat.ne_of_gt hpos)
      set rrp₁ := RedisReplyParser.write { rrp with parsed := rrp.parsed + m } (slotOf k n)
        (inElements n (toUint32 v) 0) with hrrp₁
      have hown : rrp₁.builders (slotOf k n) = inElements n (toUint32 v) 0 :=
        (write_builders _ _ _ _).trans (if_pos rfl)
      have hbelow : Below (slotOf k n) rrp rrp₁ :=
        ⟨fun a ha => (write_builders _ _ _ _).trans (if_neg (Nat.ne_of_lt ha)), rfl⟩
      rw [hline] at hwild
      have hdrop : (b.drop m).length + 2 ≤ b.length := by
        rw [List.length_drop]
        omega
      obtain ⟨o, hloop, hland⟩ := @elements_land env rrp₁ k n (rounds + 1) z (b.drop m) k (toUint32 v) ⟨k, z⟩
        hchild hcap hpos rounds [] (Nat.le_refl _) ((h.parsed _).write hne _) hown (by simp only [List.length_nil]; omega)
        rfl hwild (by omega) (by omega)
      rw [hline]
      exact ⟨o, (rrbLoop_again hstep rfl).trans hloop, hland.after hbelow⟩

/-- An array at the depth that wraps: its length's digits are no leading character. -/
theorem array_wraps {recArray : Nat → Step} {rounds : Nat} (henv : env.Bounded)
    (h : StackAt rrp k (2 ^ 8) z) (hopens : env.opens (2 ^ 8) .array)
    (hwild : Part.run env (2 ^ 8) (.num .arrayLen []) b ≠ .wild) (r : RedisReply) :
    ∃ o, withBuilder (rounds + 1) (2 ^ 8) (arrayStep recArray fuel) rrp b r = some o ∧
      env.Fails o.rc := by
  have hfails : ∀ {rc : Rc}, rc ≠ .over → rc ≠ .again → env.Fails rc :=
    fun hover hagain => .inr ⟨⟨.array, hopens⟩, hover, hagain⟩
  have hstep := @arrayStep_type fuel rrp (slotOf k 0) recArray h.main
  cases b with
  | nil =>
    have hfail : arrayStep recArray fuel (slotOf k 0) rrp [] r = some ⟨.premature, rrp, [], r⟩ := by
      rw [hstep]
      rfl
    exact ⟨_, withBuilder_wraps _ h hfail (by simp) (by simp), hfails (by simp) (by simp)⟩
  | cons d b =>
    have hdigit : leadingType d = none := by
      apply henv.digits hopens
      by_contra hbad
      exact hwild (Part.run_cons_wild (by rw [Part.step, Part.stepNum, List.nil_append, if_neg hbad]) b)
    have hfail : arrayStep recArray fuel (slotOf k 0) rrp (d :: b) r =
        some ⟨.invalidLeadingChar, rrp, d :: b, r⟩ := by
      rw [hstep, buildArrayElementType]
      simp only [redisReplyReadLeading, List.head?_cons, hdigit]
    exact ⟨_, withBuilder_wraps _ h hfail (by simp) (by simp), hfails (by simp) (by simp)⟩

/-- No builder fits at the depth that wraps. -/
theorem Lands.wraps {p : Part} {addr m : Nat} {u : StackUse} {o : Out} (hstarted : p.started)
    (hlead : p.leading ≠ .integer) (hknown : p.leading ≠ .unknown) (h : env.Fails o.rc) :
    Lands env (p.run env n b) (fun v => v.stackUse (2 ^ 8) u) (fun q => q.stackUse (2 ^ 8) u) k addr m rrp
      o := by
  have henter : StackUse.enter (2 ^ 8) u = none := if_neg (by decide)
  cases hr : p.run env n b with
  | wild => trivial
  | more q =>
    have hq := run_more_leading hstarted hr
    rw [Lands, Part.stackUse_eq (by rwa [hq]) (by rwa [hq]), henter]
    exact h
  | done v rest =>
    have hv := run_done_leading hstarted hr
    rw [Lands, Resp.stackUse_eq (by rwa [hv]), henter]
    exact h

/-- The switch over a reply's type, at every depth a builder can have. -/
theorem typeLands (henv : env.Bounded) (fuel : Nat) {n : Nat} (hpos : 0 < n) (hn : n ≤ 2 ^ 8) :
    TypeLands env fuel n := by
  induction fuel generalizing n with
  | zero =>
    intro rrp k z rb type p b _ _ _ _ _ hfuel
    omega
  | succ fuel ih =>
    intro rrp k z rb type p b h hdepth htype hopen hwild hfuel
    cases type with
    | unknown => exact absurd rfl htype
    | integer =>
      obtain rfl := Next.part.inj hopen
      exact rBuildIntval_lands h hwild
    | simpleString =>
      rw [Part.opened] at hopen
      split_ifs at hopen with hopens
      obtain rfl := Next.part.inj hopen
      have hlt : n < 2 ^ 8 := Nat.lt_of_le_of_ne hn fun heq => (henv.wraps (heq ▸ hopens)).1 rfl
      exact rBuildSimpleString_lands henv h hpos hlt hdepth hwild (by omega)
    | errorString =>
      rw [Part.opened] at hopen
      split_ifs at hopen with hopens
      obtain rfl := Next.part.inj hopen
      have hlt : n < 2 ^ 8 := Nat.lt_of_le_of_ne hn fun heq => (henv.wraps (heq ▸ hopens)).2 rfl
      exact rBuildSimpleString_lands henv h hpos hlt hdepth hwild (by omega)
    | bulkString =>
      rw [Part.opened] at hopen
      split_ifs at hopen with hopens
      obtain rfl := Next.part.inj hopen
      rcases Nat.lt_or_eq_of_le hn with hlt | rfl
      · exact rBuildBulkString_lands h hpos hlt hdepth hwild (by omega)
      · have hstray : bulkStep (slotOf k 0) rrp b { RedisReply.init with type := .bulkString } =
            some ⟨.stray, rrp, b, { RedisReply.init with type := .bulkString }⟩ := by
          rw [bulkStep_plain h.main]
          rfl
        rw [buildByType, rBuildBulkString, hdepth]
        exact ⟨_, withBuilder_wraps bulkStep h hstray (by simp) (by simp),
          Lands.wraps rfl (by simp [Part.leading, NumKind.leading]) (by simp [Part.leading, NumKind.leading])
            (.inl rfl)⟩
    | array =>
      rw [Part.opened] at hopen
      split_ifs at hopen with hopens
      obtain rfl := Next.part.inj hopen
      rw [buildByType, rBuildArray_succ, hdepth]
      rcases Nat.lt_or_eq_of_le hn with hlt | rfl
      · exact withBuilder_lands _ rfl (by simp [Part.leading, NumKind.leading]) hwild h hpos hlt
          fun rrp₁ hat hzero => array_loop_lands (ih (Nat.succ_pos n) hlt) hpos hat hzero hwild (by omega)
      · obtain ⟨fuel, rfl⟩ : ∃ m, fuel = m + 1 := ⟨fuel - 1, by omega⟩
        obtain ⟨o, hrun, hfails⟩ := array_wraps henv h hopens hwild { RedisReply.init with type := .array }
        exact ⟨o, hrun, Lands.wraps rfl (by simp [Part.leading, NumKind.leading])
          (by simp [Part.leading, NumKind.leading]) hfails⟩

/-- The stack of a parser that awaits a reply: nothing is on it, on its storage `k`. -/
structure RedisReplyParser.IdleAt (rrp : RedisReplyParser) (k : Nat) : Prop where
  stack : rrp.stackRrb = { (storage k).1 with nelts := 0 }
  pool : rrp.pool = (storage k).2
  rAddr : rrp.rAddr = createReplyParser.rAddr
  grown : k ≤ 9
  running : rrp.state ≠ .over
  untouched : rrp.rZeroed = false
  reply : rrp.r = .init

theorem fresh_idleAt : IdleAt createReplyParser 0 :=
  ⟨rfl, rfl, rfl, by decide, by simp [createReplyParser], rfl, rfl⟩

/-- Only the builder that awaits the next reply's leading character is left, if any. -/
def RedisReplyParser.StackIdle (rrp : RedisReplyParser) : Prop :=
  rrp.stackRrb.nelts = 0 ∨ rrp.stackRrb.nelts = 1 ∧ (rrp.frame 0).state = 0

theorem rBuildReply_of_run {o : Out}
    (h : withBuilder fuel 0 (replyStep fuel) rrp b rrp.r = some o) :
    rBuildReply fuel rrp b =
      if o.rrp.rZeroed then
        some { o with rrp := { o.rrp with rZeroed := false }, r := o.r.zeroHead }
      else some o := by
  rw [rBuildReply_eq, h, Option.map_some, Out.stored]
  exact apply_ite some _ _ _

/-- A call of `r_build_reply` whose loop ends without a reply. -/
theorem rBuildReply_stops {rb : Nat} {rrp₁ : RedisReplyParser} {o : Out}
    (halloc : rrp.stackAllocReplyBuilder 0 = (rb, rrp₁))
    (hrun : rrbLoop (replyStep fuel rb) fuel rrp₁ b rrp.r = some o) (hrc : o.rc ≠ .over) :
    ∃ o', rBuildReply fuel rrp b = some o' ∧ o'.rc = o.rc := by
  have hbuild : withBuilder fuel 0 (replyStep fuel) rrp b rrp.r = some o := by
    rw [withBuilder_of_run halloc hrun, Out.close, if_neg hrc]
  rw [rBuildReply_of_run hbuild]
  split
  · exact ⟨_, rfl, rfl⟩
  · exact ⟨_, rfl, rfl⟩

/-- A round of the main builder with nothing to read. -/
theorem rBuildReply_idle (h : IdleAt rrp k) :
    ∃ o, rBuildReply (fuel + 1) rrp [] = some o ∧ o.rc = .premature ∧ o.bb = [] ∧ o.rrp.StackIdle := by
  obtain ⟨rrp₁, halloc, hrrp₁, hzero⟩ := alloc_main h.grown h.stack
  have hstep : replyStep (fuel + 1) (slotOf k 0) rrp₁ [] rrp.r = some ⟨.premature, rrp₁, [], rrp.r⟩ := by
    rw [replyStep, hzero]
    rfl
  have hrun : withBuilder (fuel + 1) 0 (replyStep (fuel + 1)) rrp [] rrp.r =
      some ⟨.premature, rrp₁, [], rrp.r⟩ := by
    exact withBuilder_of_run halloc (rrbLoop_stop hstep (show Rc.premature ≠ .again by simp))
  refine ⟨⟨.premature, rrp₁, [], rrp.r⟩, ?_, rfl, rfl, .inr ⟨?_, ?_⟩⟩
  · rw [rBuildReply_of_run hrun]
    exact if_neg (by simp [hrrp₁, h.untouched])
  · rw [hrrp₁]
  · have hslot : rrp₁.stackRrb.slot 0 = slotOf k 0 := by
      rw [hrrp₁]
      rfl
    rw [frame, hslot, hzero]
    rfl

/-- What the main builder makes of a block that begins a reply. -/
def ReplyLands (env : Envelope) (run : Run) (k : Nat) (o : Out) : Prop :=
  match run with
  | .more q => (q.stackUse 1 ⟨k, false⟩).elim (env.Fails o.rc) fun _ => o.rc = q.code
  | .done v rest =>
    (v.stackUse 1 ⟨k, false⟩).elim (env.Fails o.rc) fun u =>
      o.rc = .over ∧ o.bb = rest ∧ o.r = (if u.cleared then v.render.zeroHead else v.render) ∧
        IdleAt { o.rrp with r := .init } u.grown
  | .wild => True

/-- The end of the call, once the reply's builders have landed. -/
theorem rBuildReply_landed {run : Run} {rrp₀ rrp₁ : RedisReplyParser} {o : Out} (h : IdleAt rrp k)
    (halloc : rrp.stackAllocReplyBuilder 0 = (slotOf k 0, rrp₀))
    (hloop : rrbLoop (replyStep fuel (slotOf k 0)) fuel rrp₀ b rrp.r = some o)
    (hstate : rrp₁.state = rrp.state) (hwild : run ≠ .wild)
    (hland : Lands env run (fun v => v.stackUse 1 ⟨k, false⟩) (fun q => q.stackUse 1 ⟨k, false⟩) k
      (slotOf k 1) 1 rrp₁ o) :
    ∃ o, rBuildReply fuel rrp b = some o ∧ ReplyLands env run k o := by
  cases run with
  | wild => exact absurd rfl hwild
  | more q =>
    rw [Lands] at hland
    cases hu : q.stackUse 1 ⟨k, false⟩ with
    | none =>
      rw [hu] at hland
      obtain ⟨o', hreply, hrc⟩ := rBuildReply_stops halloc hloop hland.stops.1
      refine ⟨o', hreply, ?_⟩
      rw [ReplyLands, hu, hrc]
      exact hland
    | some u =>
      rw [hu, Option.elim_some] at hland
      obtain ⟨o', hreply, hrc⟩ := rBuildReply_stops halloc hloop (by rw [hland]; exact q.code_ne.2)
      refine ⟨o', hreply, ?_⟩
      rw [ReplyLands, hu, hrc]
      exact hland
  | done v rest =>
    rw [Lands] at hland
    cases hu : v.stackUse 1 ⟨k, false⟩ with
    | none =>
      rw [hu] at hland
      obtain ⟨o', hreply, hrc⟩ := rBuildReply_stops halloc hloop hland.stops.1
      refine ⟨o', hreply, ?_⟩
      rw [ReplyLands, hu, hrc]
      exact hland
    | some u =>
      rw [hu] at hland
      obtain ⟨hrc, hbb, hr, hat', hbelow, -⟩ := hland
      have hpop := hat'.pop
      have hclears : popClears u.grown 1 = some false :=
        if_pos (Nat.lt_of_lt_of_le (by decide) (capacity_pos _ hat'.grown))
      rw [Nat.zero_add, hclears] at hpop
      obtain ⟨rrp₂, hpop, hat₂, hbelow₂⟩ := hpop
      have hrun : withBuilder fuel 0 (replyStep fuel) rrp b rrp.r = some { o with rrp := rrp₂ } := by
        rw [withBuilder_of_run halloc hloop, Out.close, if_pos hrc, hpop]
      have hrunning : rrp₂.state ≠ .over := by
        rw [hbelow₂.state, hbelow.state, hstate]
        exact h.running
      have hcleared : rrp₂.rZeroed = u.cleared := hat₂.cleared.trans (Bool.or_false _)
      simp only [ReplyLands, hu, Option.elim_some]
      rw [rBuildReply_of_run hrun]
      cases hc : u.cleared with
      | true =>
        rw [if_pos (by rw [hcleared, hc])]
        exact ⟨_, rfl, hrc, hbb, by rw [hr]; rfl,
          hat₂.stack, hat₂.pool, hat₂.rAddr, hat₂.grown, hrunning, rfl, rfl⟩
      | false =>
        rw [if_neg (by rw [hcleared, hc]; simp)]
        exact ⟨_, rfl, hrc, hbb, by rw [hr]; rfl,
          hat₂.stack, hat₂.pool, hat₂.rAddr, hat₂.grown, hrunning, hcleared.trans hc, rfl⟩

/-- What a call of `r_build_reply` makes of a block that begins a reply. -/
theorem rBuildReply_lands (henv : env.Bounded) (h : IdleAt rrp k) (hwild : Part.run env 1 .type b ≠ .wild)
    (hfuel : b.length + 3 ≤ fuel) :
    ∃ o, rBuildReply fuel rrp b = some o ∧ ReplyLands env (Part.run env 1 .type b) k o := by
  obtain ⟨rounds, rfl⟩ : ∃ m, fuel = m + 2 := ⟨fuel - 2, by omega⟩
  cases b with
  | nil =>
    obtain ⟨o, hrun, hrc, -⟩ := @rBuildReply_idle rrp k (rounds + 1) h
    exact ⟨o, hrun, hrc⟩
  | cons c b =>
    rw [List.length_cons] at hfuel
    obtain ⟨rrp₀, halloc, hrrp₀, hzero⟩ := alloc_main h.grown h.stack
    have hstep := show replyStep (rounds + 2) (slotOf k 0) rrp₀ (c :: b) rrp.r =
        buildReplyType (slotOf k 0) rrp₀ (c :: b) rrp.r by rw [replyStep, hzero]; rfl
    cases hc : leadingType c with
    | none =>
      have hrun : Part.run env 1 .type (c :: b) = .more .badType := by
        rw [Part.run_cons_part (by rw [Part.step, hc]; rfl), Part.run_badType]
      have hbad : replyStep (rounds + 2) (slotOf k 0) rrp₀ (c :: b) rrp.r =
          some ⟨.invalidLeadingChar, rrp₀, c :: b, rrp.r⟩ := by
        rw [hstep, buildReplyType]
        simp only [redisReplyReadLeading, List.head?_cons, hc]
      obtain ⟨o, hreply, hrc⟩ := rBuildReply_stops halloc (rrbLoop_stop hbad (by simp)) (by simp)
      refine ⟨o, hreply, ?_⟩
      rw [hrun]
      exact hrc
    | some type =>
      have hopen : Part.opened env 1 type ≠ .wild := by
        intro hopen
        exact hwild (Part.run_cons_wild (by rw [Part.step, hc]; exact hopen) b)
      obtain ⟨p, hopen⟩ := opened_part hopen
      rw [Part.run_cons_part (show Part.step env 1 .type c = .part p by rw [Part.step, hc]; exact hopen)]
        at hwild ⊢
      set rrp₁ : RedisReplyParser :=
        { rrp₀.write (slotOf k 0) { RedisReplyBuilder.zero with state := 2 } with
          parsed := rrp₀.parsed + 1 } with hrrp₁
      have hmain : rrp₁.builders (slotOf k 0) = { RedisReplyBuilder.zero with state := 2 } :=
        (write_builders rrp₀ (slotOf k 0) (slotOf k 0) _).trans (if_pos rfl)
      have hat : StackAt rrp₁ k 1 false :=
        ⟨by rw [hrrp₁, hrrp₀]; rfl, by rw [hrrp₁, hrrp₀]; exact h.pool, by rw [hrrp₁, hrrp₀]; exact h.rAddr,
          h.grown, Nat.le_trans (by decide) (capacity_pos k h.grown), by rw [hmain],
          by rw [hrrp₁, hrrp₀]; exact h.untouched⟩
      have hagain : replyStep (rounds + 2) (slotOf k 0) rrp₀ (c :: b) rrp.r =
          some ⟨.again, rrp₁, b, { RedisReply.init with type }⟩ := by
        rw [hstep, buildReplyType, h.reply]
        simp only [redisReplyReadLeading, List.head?_cons, hc, Committed.decommit_eq_drop,
          List.drop_one, List.tail_cons, hzero]
        rfl
      obtain ⟨o, hchild, hland⟩ := typeLands henv (rounds + 2) Nat.one_pos (by decide) hat
        (show (rrp₁.builders (slotOf k 0)).depth + 1 = 1 by rw [hmain]; rfl) (leadingType_ne_unknown hc)
        hopen hwild (by omega)
      have hcontent : replyStep (rounds + 2) (slotOf k 0) rrp₁ b { RedisReply.init with type } = some o := by
        rw [replyStep, hmain]
        exact hchild
      exact rBuildReply_landed h halloc
        ((rrbLoop_again hagain rfl).trans (rrbLoop_stop hcontent (hland.stops hwild)))
        (by rw [hrrp₁, hrrp₀]; rfl) hwild hland

/-- What the replies of a stream, and then one that is still open, ask of the stack. A reply
is whole only while no pop has cleared its head. -/
def streamUse : List Resp → Part → Nat → Option StackUse
  | [], q, k => q.stackUse 1 ⟨k, false⟩
  | v :: vs, q, k => (v.stackUse 1 ⟨k, false⟩).bind fun u => if u.cleared then none else streamUse vs q u.grown

theorem Resp.leading_ne (v : Resp) : v.leading ≠ .unknown := by
  cases v with
  | text isError bytes => cases isError <;> simp [Resp.leading, textLeading]
  | _ => simp [Resp.leading]

/-- A reply whose head has been cleared is not the reply. -/
theorem zeroHead_ne (v : Resp) : v.render.zeroHead ≠ v.render := by
  intro h
  have htype := congrArg RedisReply.type h
  rw [Resp.render_type] at htype
  exact v.leading_ne htype.symm

/-- What a call makes of a block: all of its replies and the reader's code, or other replies,
or a stack that fails under the reply still open. -/
def StreamLands (env : Envelope) (out : List Resp) (q : Part) (k : Nat) (res : ParseOut) : Prop :=
  (streamUse out q k).elim (res.delivered ≠ out.map Resp.render ∨ q ≠ .type ∧ env.Fails res.rc) fun _ =>
    res.rc = q.code ∧ res.delivered = out.map Resp.render ∧
      (q = .type → res.bb = [] ∧ res.rrp.StackIdle)

theorem parseLoop_stops {rounds : Nat} {rc : Rc} (hagain : rc ≠ .again) (hover : rc ≠ .over) :
    parseLoop (fun _ => 0) fuel (rounds + 1) rc rrp b = some ⟨rrp, b, rc, []⟩ := by
  rw [parseLoop, if_neg (by simp [hagain, hover])]

theorem parseLoop_lands (henv : env.Bounded) (rounds : Nat) {q : Part} {out : List Resp} {rc : Rc}
    (h : IdleAt rrp k) (hrun : (reader env).run .type b = some (q, out)) (hrc : rc = .again ∨ rc = .over)
    (hfuel : b.length + 3 ≤ fuel) (hrounds : b.length + 2 ≤ rounds) :
    ∃ res, parseLoop (fun _ => 0) fuel rounds rc rrp b = some res ∧ StreamLands env out q k res := by
  induction rounds generalizing rrp k b out rc with
  | zero => omega
  | succ rounds ih =>
    obtain ⟨rounds, rfl⟩ : ∃ m, rounds = m + 1 := ⟨rounds - 1, by omega⟩
    have hstop : ∀ {o : Out}, rBuildReply fuel rrp b = some o → o.rc ≠ .over → o.rc ≠ .again →
        parseLoop (fun _ => 0) fuel (rounds + 1 + 1) rc rrp b =
          some ⟨{ o.rrp with r := o.r }, o.bb, o.rc, []⟩ := by
      intro o hreply hover hagain
      rw [parseLoop, if_pos ⟨h.running, hrc⟩, hreply]
      simp only [if_neg hover]
      exact parseLoop_stops hagain hover
    rcases reader_run_cases hrun with ⟨hmore, rfl⟩ | ⟨v, rest, out', hdone, hrest, rfl⟩
    · obtain ⟨o, hreply, hland⟩ := rBuildReply_lands henv h (by rw [hmore]; simp) hfuel
      rw [hmore, ReplyLands] at hland
      simp only [StreamLands, streamUse]
      cases hu : q.stackUse 1 ⟨k, false⟩ with
      | none =>
        rw [hu] at hland
        refine ⟨_, hstop hreply hland.stops.1 hland.stops.2, .inr ⟨?_, hland⟩⟩
        rintro rfl
        cases hu
      | some u =>
        rw [hu, Option.elim_some] at hland
        have hne := q.code_ne
        refine ⟨_, hstop hreply (by rw [hland]; exact hne.2) (by rw [hland]; exact hne.1), hland, rfl, ?_⟩
        rintro rfl
        obtain ⟨-, rfl⟩ := run_more_type hmore
        obtain ⟨fuel, rfl⟩ : ∃ m, fuel = m + 1 := ⟨fuel - 1, by omega⟩
        obtain ⟨o', hidle, -, hbb, hstack⟩ := @rBuildReply_idle rrp k fuel h
        obtain rfl := Option.some.inj (hidle.symm.trans hreply)
        exact ⟨hbb, hstack⟩
    · obtain ⟨o, hreply, hland⟩ := rBuildReply_lands henv h (by rw [hdone]; simp) hfuel
      have hshort := Part.run_done_length hdone
      rw [hdone, ReplyLands] at hland
      simp only [StreamLands, streamUse]
      cases hu : v.stackUse 1 ⟨k, false⟩ with
      | none =>
        rw [hu] at hland
        exact ⟨_, hstop hreply hland.stops.1 hland.stops.2, .inl (List.cons_ne_nil _ _).symm⟩
      | some u =>
        rw [hu, Option.elim_some] at hland
        obtain ⟨hover, rfl, hr, hidle⟩ := hland
        obtain ⟨res, hloop, hstream⟩ := ih hidle hrest (.inr rfl) (by omega) (by omega)
        have hall : parseLoop (fun _ => 0) fuel (rounds + 1 + 1) rc rrp b =
            some { res with delivered := o.r :: res.delivered } := by
          rw [parseLoop, if_pos ⟨h.running, hrc⟩, hreply]
          simp only [if_pos hover, if_true]
          rw [hloop]
        refine ⟨_, hall, ?_⟩
        rw [Option.bind_some]
        cases hc : u.cleared with
        | true =>
          rw [hc, if_pos rfl] at hr
          refine .inl ?_
          rw [List.map_cons, hr]
          exact fun heq => zeroHead_ne v (List.cons.inj heq).1
        | false =>
          rw [hc, if_neg Bool.false_ne_true] at hr
          rw [if_neg Bool.false_ne_true]
          rw [StreamLands] at hstream
          cases hs : streamUse out' q u.grown with
          | none =>
            rw [hs] at hstream
            rcases hstream with hne | hfails
            · exact .inl fun heq => hne (List.cons.inj heq).2
            · exact .inr hfails
          | some w =>
            rw [hs, Option.elim_some] at hstream
            obtain ⟨hcode, hdel, hend⟩ := hstream
            exact ⟨hcode, by rw [List.map_cons, hr, hdel], hend⟩

/-- A fresh parser over one block. -/
theorem redisReplyParseOnce_lands (henv : env.Bounded) {q : Part} {out : List Resp}
    (hrun : (reader env).run .type b = some (q, out)) :
    ∃ res, redisReplyParseOnce (fun _ => 0) createReplyParser b = some res ∧ StreamLands env out q 0 res :=
  parseLoop_lands henv _ fresh_idleAt hrun (.inl rfl) (Nat.le_succ _) (Nat.le_add_right _ 2)

end KjRedis.Reply
