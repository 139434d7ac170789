import KjRedis.Reply.ArraySpec

/-! `redis_reply_parse_once` against the stream reader: a call delivers the replies the
reader completes over the same bytes, and leaves a parser that stands where it stands. -/
namespace KjRedis.Reply

open RedisReplyParser

variable {env : Envelope} {fuel : Nat} {rrp : RedisReplyParser} {b : List UInt8}

/-- What the parser holds between calls for the reply it is reading. -/
structure TopHeld (rrp : RedisReplyParser) (p : Part) : Prop where
  firstStorage : rrp.FirstStorage
  running : rrp.state ≠ .over
  main : (p.started ∧ rrp.At 0 2 ∧ Held rrp 1 p) ∨
    (p = .type ∧ (rrp.stackRrb.nelts = 0 ∨ rrp.stackRrb.nelts = 1 ∧ rrp.At 0 0))
  reply : rrp.r = p.draft

def replyStep (fuel rrb : Nat) : Step := fun rrp bb r =>
  match (rrp.builders rrb).state with
  | 0 | 1 => buildReplyType rrb rrp bb r
  | 2 => buildReplyContent fuel rrb rrp bb r
  | _ => some { rc := .invalidRrbState, rrp, bb, r }

/-- The main builder's content round ends its loop. -/
private theorem content_round (rounds : Nat) {p : Part} {r : RedisReply}
    (henv : env.Shallow) (hfs : rrp.FirstStorage) (hat : rrp.At 0 2)
    (hentry : Entry rrp 1 p r) (hset : p.Settled env b) (hwild : p.run env 1 b ≠ .wild)
    (hfuel : p.height + b.length + 3 ≤ fuel) :
    ∃ o, rrbLoop (replyStep fuel (rrp.stackRrb.slot 0)) (rounds + 1) rrp b r = some o ∧
      Outcome env 1 1 p b rrp o := by
  have hfuel₂ : 2 ≤ fuel := by omega
  obtain ⟨o, hchild, hout⟩ := buildByType_outcome henv (rBuildArray_spec henv fuel) hfs hat.1 hentry
    hset hwild hfuel₂ hfuel
  have hrc : o.rc ≠ .again := by
    rw [Outcome] at hout
    cases hrun : p.run env 1 b with
    | wild => exact absurd hrun hwild
    | more q =>
      rw [hrun] at hout
      rw [hout.1]
      exact q.code_ne.1
    | done v rest =>
      rw [hrun] at hout
      rw [hout.1]
      simp
  refine ⟨o, rrbLoop_stop ?_ hrc, hout⟩
  rw [replyStep, show (rrp.builders (rrp.stackRrb.slot 0)).state = 2 from hat.2]
  exact hchild

/-- What a call of `r_build_reply` leaves, with the reply it stores. -/
def ReplyOutcome (env : Envelope) (p : Part) (b : List UInt8) (o : Out) : Prop :=
  match p.run env 1 b with
  | .more q =>
    o.rc = q.code ∧ ∃ p', TopHeld { o.rrp with r := o.r } p' ∧ p'.run env 1 o.bb = .more q ∧
      p'.Copied env o.bb
  | .done v rest =>
    o.rc = .over ∧ o.r = v.render ∧ o.bb = rest ∧ TopHeld { o.rrp with r := .init } .type
  | .wild => True

/-- Closing the main builder's scope. -/
private theorem reply_close {p : Part} {o : Out} (hfs : rrp.FirstStorage)
    (hrunning : rrp.state ≠ .over) (hat : rrp.At 0 2) (hwild : p.run env 1 b ≠ .wild)
    (hout : Outcome env 1 1 p b rrp o) :
    ∃ o', (if o.rc = .over then
        match o.rrp.stackPopReplyBuilder with
        | some rrp => some { o with rrp }
        | none => some { o with rc := .stray }
      else some o) = some o' ∧ o'.rrp.rZeroed = false ∧ ReplyOutcome env p b o' := by
  rw [Outcome] at hout
  cases hrun : p.run env 1 b with
  | wild => exact absurd hrun hwild
  | more q =>
    rw [hrun] at hout
    obtain ⟨hrc, hk, p', hstarted, hheld, hr, hrun', hset⟩ := hout
    have hfs' := hk.firstStorage hfs
    have hown := hk.frame 0 (by omega)
    refine ⟨o, if_neg (by rw [hrc]; exact q.code_ne.2), hfs'.rZeroed, ?_⟩
    rw [ReplyOutcome, hrun]
    refine ⟨hrc, p', ⟨⟨hfs'.size, hfs'.nalloc, hfs'.rZeroed⟩, ?_, .inl ⟨hstarted, ?_, ?_⟩, hr⟩, hrun', hset⟩
    · show o.rrp.state ≠ .over
      rw [hk.state]
      exact hrunning
    · show o.rrp.At 0 2
      rw [RedisReplyParser.At, hown]
      exact hat
    · exact @Held.congr o.rrp { o.rrp with r := o.r } 1 p' rfl (fun _ _ => rfl) hheld
  | done v rest =>
    rw [hrun] at hout
    obtain ⟨hrc, hk, hnelts, hbb, hr⟩ := hout
    obtain ⟨rrp', hpop, hk', hnelts'⟩ := pop_keeps (hk.firstStorage hfs) hnelts (Nat.zero_le _)
    have hfs' := hk'.firstStorage (hk.firstStorage hfs)
    refine ⟨{ o with rrp := rrp' }, ?_, hfs'.rZeroed, ?_⟩
    · rw [if_pos hrc, hpop]
    · rw [ReplyOutcome, hrun]
      refine ⟨hrc, hr, hbb, ⟨hfs'.size, hfs'.nalloc, hfs'.rZeroed⟩, ?_, .inr ⟨rfl, .inl hnelts'⟩, rfl⟩
      show rrp'.state ≠ .over
      rw [hk'.state, hk.state]
      exact hrunning

/-- The reply as the call stores it. -/
def Out.stored (o : Out) : Out :=
  if o.rrp.rZeroed then { o with rrp := { o.rrp with rZeroed := false }, r := o.r.zeroHead } else o

theorem rBuildReply_eq (fuel : Nat) (rrp : RedisReplyParser) (bb : List UInt8) :
    rBuildReply fuel rrp bb =
      (withBuilder fuel 0 (replyStep fuel) rrp bb rrp.r).map Out.stored := by
  unfold rBuildReply
  split
  · next hrun =>
    have hrun : withBuilder fuel 0 (replyStep fuel) rrp bb rrp.r = none := hrun
    rw [hrun, Option.map_none]
  · next o hrun =>
    have hrun : withBuilder fuel 0 (replyStep fuel) rrp bb rrp.r = some o := hrun
    rw [hrun, Option.map_some, Out.stored]
    exact (apply_ite some _ _ _).symm

theorem rBuildReply_of_withBuilder {o : Out}
    (h : withBuilder fuel 0 (replyStep fuel) rrp b rrp.r = some o) (hz : o.rrp.rZeroed = false) :
    rBuildReply fuel rrp b = some o := by
  rw [rBuildReply_eq, h, Option.map_some, Out.stored, if_neg (by simp [hz])]

/-- The main builder is opened, or found where it has read nothing. -/
theorem main_opens (hfs : rrp.FirstStorage)
    (hnelts : rrp.stackRrb.nelts = 0 ∨ rrp.stackRrb.nelts = 1 ∧ rrp.At 0 0) :
    ∃ rrp₁, rrp.stackAllocReplyBuilder 0 = (rrp.stackRrb.slot 0, rrp₁) ∧ Keeps 0 rrp rrp₁ ∧
      rrp₁.stackRrb.nelts = 1 ∧ rrp₁.At 0 0 := by
  rcases hnelts with h | ⟨h, hat⟩
  · obtain ⟨rrp₁, halloc, hk, hn, hf⟩ := alloc_push hfs h (by omega)
    refine ⟨rrp₁, halloc, hk, hn, ?_⟩
    rw [RedisReplyParser.At, hf]
    exact ⟨rfl, rfl⟩
  · exact ⟨rrp, alloc_at (by omega) (by omega), Keeps.refl _ _, h, hat⟩

theorem rBuildReply_outcome {p : Part} (henv : env.Shallow) (htop : TopHeld rrp p)
    (hset : p.Settled env b) (hwild : p.run env 1 b ≠ .wild)
    (hfuel : p.height + b.length + 4 ≤ fuel) :
    ∃ o, rBuildReply fuel rrp b = some o ∧ ReplyOutcome env p b o := by
  obtain ⟨hfs, hrunning, hmain, hreply⟩ := htop
  obtain ⟨rounds, rfl⟩ : ∃ n, fuel = n + 2 := ⟨fuel - 2, by omega⟩
  rcases hmain with ⟨hstarted, hat, hheld⟩ | ⟨rfl, hnelts⟩
  · have hpos : 0 < rrp.stackRrb.nelts := by
      have := hheld.height_le
      omega
    have hfuel' : p.height + b.length + 3 ≤ rounds + 2 := by omega
    obtain ⟨o, hloop, hout⟩ := content_round (rounds + 1) henv hfs hat
      (.inl ⟨hstarted, hheld, hreply⟩) hset hwild hfuel'
    obtain ⟨o', hclose, hz, hres⟩ := reply_close hfs hrunning hat hwild hout
    refine ⟨o', rBuildReply_of_withBuilder ?_ hz, hres⟩
    rw [withBuilder, alloc_at hpos (by omega)]
    simp only [hloop]
    exact hclose
  · obtain ⟨rrp₁, halloc, hk, hn₁, hat⟩ := main_opens hfs hnelts
    have hfs₁ := hk.firstStorage hfs
    have hrunning₁ : rrp₁.state ≠ .over := by
      rw [hk.state]
      exact hrunning
    have hstep : replyStep (rounds + 2) (rrp.stackRrb.slot 0) rrp₁ b =
        buildReplyType (rrp.stackRrb.slot 0) rrp₁ b := by
      funext r
      rw [← hk.slot, replyStep, show (rrp₁.builders (rrp₁.stackRrb.slot 0)).state = 0 from hat.2]
      rfl
    have hstay : ∀ rc, rc ≠ .again → rc ≠ .over →
        replyStep (rounds + 2) (rrp.stackRrb.slot 0) rrp₁ b rrp.r = some ⟨rc, rrp₁, b, rrp.r⟩ →
        (∀ q, Part.run env 1 .type b = .more q → rc = q.code) →
        (∃ q, Part.run env 1 .type b = .more q) →
        ∃ o, rBuildReply (rounds + 2) rrp b = some o ∧ ReplyOutcome env .type b o := by
      rintro rc hrc hrc' h hcode ⟨q, hq⟩
      refine ⟨⟨rc, rrp₁, b, rrp.r⟩, rBuildReply_of_withBuilder ?_ hfs₁.rZeroed, ?_⟩
      · rw [withBuilder, halloc]
        simp only [rrbLoop_stop h hrc, if_neg hrc']
      · rw [ReplyOutcome, hq]
        exact ⟨hcode q hq, .type, ⟨⟨hfs₁.size, hfs₁.nalloc, hfs₁.rZeroed⟩, hrunning₁,
          .inr ⟨rfl, .inr ⟨hn₁, hat⟩⟩, hreply⟩, hq, trivial⟩
    cases b with
    | nil =>
      refine hstay .premature (by simp) (by simp) (by rw [hstep]; rfl) ?_ ⟨_, rfl⟩
      rintro q hq
      obtain rfl := Run.more.inj hq
      rfl
    | cons c b =>
      cases hc : leadingType c with
      | none =>
        have hrun : Part.run env 1 .type (c :: b) = .more .badType := by
          rw [Part.run_cons_part (by rw [Part.step, hc]; rfl), Part.run_badType]
        refine hstay .invalidLeadingChar (by simp) (by simp) ?_ ?_ ⟨_, hrun⟩
        · rw [hstep, buildReplyType]
          simp only [redisReplyReadLeading, List.head?_cons, hc]
        · rintro q hq
          rw [hrun] at hq
          obtain rfl := Run.more.inj hq
          rfl
      | some type =>
        have hwild' : Part.step env 1 .type c ≠ .wild := by
          intro h
          exact hwild (Part.run_cons_wild h b)
        obtain ⟨p, hstep₁, hlead, hheight, hopened, hsettled⟩ := opened_cases henv hc hn₁ hwild'
        set f := { rrp₁.frame 0 with state := 2 } with hf
        set rrp₂ : RedisReplyParser := { rrp₁.write (rrp₁.stackRrb.slot 0) f with
          parsed := rrp₁.parsed + 1 } with hrrp₂
        have hk₂ : Keeps 0 rrp₁ rrp₂ :=
          have hw := write_keeps hfs₁ (Nat.le_refl 0) f
          ⟨hw.elts, hw.size, hw.nalloc, hw.rZeroed, hw.state, hw.frame⟩
        have hframe : rrp₂.frame 0 = f := (write_frame hfs₁ 0 0 f).trans (if_pos rfl)
        have hat₂ : rrp₂.At 0 2 := ⟨by rw [hframe]; exact hat.1, by rw [hframe]⟩
        have hagain : replyStep (rounds + 2) (rrp.stackRrb.slot 0) rrp₁ (c :: b) rrp.r =
            some ⟨.again, rrp₂, b, { RedisReply.init with type }⟩ := by
          rw [hstep, buildReplyType, ← hk.slot, hreply]
          simp only [redisReplyReadLeading, List.head?_cons, hc, Committed.decommit_eq_drop,
            List.drop_one, List.tail_cons]
          rfl
        have hrun : Part.run env 1 .type (c :: b) = p.run env 1 b := Part.run_cons_part hstep₁ b
        have hrunning₂ : rrp₂.state ≠ .over := hrunning₁
        simp only [List.length_cons] at hfuel
        have hfuel' : p.height + b.length + 3 ≤ rounds + 2 := by omega
        obtain ⟨o, hloop, hout⟩ := content_round rounds henv
          (hk₂.firstStorage hfs₁) hat₂ (.inr hopened) (hsettled b) (hrun ▸ hwild) hfuel'
        obtain ⟨o', hclose, hz, hres⟩ :=
          reply_close (hk₂.firstStorage hfs₁) hrunning₂ hat₂ (hrun ▸ hwild) hout
        refine ⟨o', rBuildReply_of_withBuilder ?_ hz, ?_⟩
        · rw [withBuilder, halloc]
          rw [hk₂.slot, hk.slot] at hloop
          simp only [(rrbLoop_again hagain rfl).trans hloop]
          exact hclose
        · rw [ReplyOutcome, hrun]
          exact hres

/-- The loop of `redis_reply_parse_once` over replies the reader completes. -/
theorem parseLoop_outcome (henv : env.Shallow) (rounds : Nat) {p q : Part} {rc : Rc}
    {out : List Resp} (htop : TopHeld rrp p) (hset : p.Settled env b)
    (hrun : (reader env).run p b = some (q, out)) (hrc : rc = .again ∨ rc = .over)
    (hfuel : p.height + b.length + 4 ≤ fuel) (hrounds : b.length + 2 ≤ rounds) :
    ∃ res, parseLoop (fun _ => 0) fuel rounds rc rrp b = some res ∧ res.rc = q.code ∧
      res.delivered = out.map Resp.render ∧
      ∃ p', TopHeld res.rrp p' ∧ p'.run env 1 res.bb = .more q ∧
        p'.Copied env res.bb := by
  induction rounds generalizing p rc rrp b out with
  | zero => omega
  | succ rounds ih =>
    have hwild : p.run env 1 b ≠ .wild := by
      intro h
      rcases reader_run_cases hrun with ⟨h', -⟩ | ⟨_, _, _, h', -⟩ <;> rw [h] at h' <;> cases h'
    obtain ⟨o, hreply, hout⟩ := rBuildReply_outcome henv htop hset hwild hfuel
    rw [ReplyOutcome] at hout
    rw [parseLoop, if_pos ⟨htop.running, hrc⟩, hreply]
    simp only
    rcases reader_run_cases hrun with ⟨hmore, rfl⟩ | ⟨v, rest, out', hdone, hrest, rfl⟩
    · rw [hmore] at hout
      obtain ⟨hcode, p', htop', hrun', hset'⟩ := hout
      have hne := q.code_ne
      rw [if_neg (by rw [hcode]; exact hne.2)]
      obtain ⟨rounds, rfl⟩ : ∃ n, rounds = n + 1 := ⟨rounds - 1, by omega⟩
      rw [parseLoop, if_neg (by rw [hcode]; simp [hne])]
      exact ⟨_, rfl, hcode, rfl, p', htop', hrun', hset'⟩
    · rw [hdone] at hout
      obtain ⟨hover, hr, hbb, htop'⟩ := hout
      have hshort := Part.run_done_length hdone
      rw [if_pos hover, if_pos trivial, hbb]
      obtain ⟨res, hres, hcode, hdel, hheld⟩ := ih htop' trivial hrest (.inr rfl)
        (by simp only [Part.height]; omega) (by omega)
      rw [hres]
      exact ⟨_, rfl, hcode, by rw [hdel, hr, List.map_cons], hheld⟩

theorem TopHeld.height_le {p : Part} (h : TopHeld rrp p) : p.height ≤ rrp.stackRrb.nelts := by
  rcases h.main with ⟨-, -, hheld⟩ | ⟨rfl, -⟩
  · have := hheld.height_le
    omega
  · exact Nat.zero_le _

/-- One call over everything committed. -/
theorem redisReplyParseOnce_outcome (henv : env.Shallow) {p q : Part} {out : List Resp}
    (htop : TopHeld rrp p) (hset : p.Settled env b)
    (hrun : (reader env).run p b = some (q, out)) :
    ∃ res, redisReplyParseOnce (fun _ => 0) rrp b = some res ∧ res.rc = q.code ∧
      res.delivered = out.map Resp.render ∧
      ∃ p', TopHeld res.rrp p' ∧ p'.run env 1 res.bb = .more q ∧
        p'.Copied env res.bb := by
  have hheight := htop.height_le
  exact parseLoop_outcome henv _ htop hset hrun (.inl rfl) (by rw [parseFuel]; omega)
    (by rw [parseFuel]; omega)

theorem fresh_topHeld : TopHeld fresh.1 .type where
  firstStorage := ⟨rfl, rfl, rfl⟩
  running := by simp [fresh, createReplyParser]
  main := .inr ⟨rfl, .inl rfl⟩
  reply := rfl

theorem Settled.append {p : Part} {bs : List UInt8} (h : p.Settled env bs) (cs : List UInt8) :
    p.Settled env (bs ++ cs) := by
  induction p with
  | text isError acc gotCr =>
    rcases h with h | h | h
    · exact .inl h
    · exact .inr (.inl h)
    · refine .inr (.inr ?_)
      rw [List.head?_append, h, Option.some_or]
  | array len done cur ih => exact ih h
  | _ => trivial

/-- A parser and its buffer that stand where the reader stands after the same bytes. -/
def Stands (env : Envelope) (st : RedisReplyParser × Committed) (q : Part) : Prop :=
  ∃ p, TopHeld st.1 p ∧ p.run env 1 st.2 = .more q ∧ p.Settled env st.2

theorem fresh_stands : Stands env fresh .type := ⟨.type, fresh_topHeld, rfl, trivial⟩

/-- With lines of text of at most two bytes every chunk leaves the parser settled, so
it follows the reader over any number of chunks. -/
theorem feed_tracks (henv : env.Shallow) (htext : env.textMax ≤ 2) :
    Incremental.Tracks (reader env) feed (Stands env) Resp.render Part.code := by
  rintro ⟨rrp, bb⟩ q chunk q' out ⟨p, htop, hrun, hset⟩ hread
  have hrun' : (reader env).run p (bb ++ chunk) = some (q', out) :=
    Incremental.Machine.run_append (reader_run_more hrun) hread
  obtain ⟨res, hres, hcode, hdel, p', htop', hmore, hset'⟩ :=
    redisReplyParseOnce_outcome henv htop (Settled.append hset chunk) hrun'
  refine ⟨(res.rrp, res.bb), ?_, p', htop', hmore, hset'.settled htext⟩
  rw [feed, Committed.commit]
  simp only [hres, hcode, hdel]

end KjRedis.Reply
