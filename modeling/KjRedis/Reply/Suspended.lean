import KjRedis.Reply.Building

/-! What a builder's call leaves when it is over and when it is suspended, down to the
builders that the calls under it were at. -/
namespace KjRedis.Reply

open RedisReplyParser

/-- The builders of the calls, from depth `d` on, were on the stack as their rounds began. -/
def Anchored : Nat → List OpenCall → Prop
  | _, [] => True
  | d, c :: calls => c.rrb = c.rrp.stackRrb.slot d ∧ Anchored (d + 1) calls

instance decidableAnchored : ∀ d calls, Decidable (Anchored d calls)
  | _, [] => isTrue trivial
  | d, _ :: calls => @instDecidableAnd _ _ _ (decidableAnchored (d + 1) calls)

/-- No call is at a depth past those a `uint8_t` counts. -/
def Shallow (d : Nat) (chains : List (List OpenCall)) : Prop :=
  ∀ calls ∈ chains, d + calls.length ≤ 2 ^ 8

instance (d : Nat) (chains : List (List OpenCall)) : Decidable (Shallow d chains) :=
  inferInstanceAs (Decidable (∀ calls ∈ chains, _))

/-- The calls from depth `d` on find on the stack, each at its depth, the builder they left,
and there are no builders past them. -/
def Rests (rrp : RedisReplyParser) (k n : Nat) : Nat → List OpenCall → Prop
  | d, [] => n = d
  | d, c :: calls => rrp.builders c.rrb = rrp.live k d ∧ Rests rrp k n (d + 1) calls

/-- What holds of a builder's frames, of how many there are and of its reply. -/
abbrev Shape := (Nat → RedisReplyBuilder) → Nat → RedisReply → Prop

variable {B : Shape} {f g : Nat → RedisReplyBuilder} {d k k' n rrb fuel : Nat}
  {rrp rrp' : RedisReplyParser} {bb : Committed} {r : RedisReply} {o : Out}
  {chains inner : List (List OpenCall)} {calls : List OpenCall}

/-- A shape of the builders from depth `d` on: the ones below are there, and one newly
opened keeps it. -/
structure Layer (d : Nat) (B : Shape) : Prop where
  le : ∀ {f n r}, B f n r → d ≤ n
  opens : ∀ {f g r}, B f d r → g d = { RedisReplyBuilder.zero with depth := d } → B g (d + 1) r

/-- What a call at depth `d` leaves. -/
structure Returned (B : Shape) (d k addr : Nat) (rrp : RedisReplyParser)
    (chains : List (List OpenCall)) (o : Out) : Prop where
  again : o.rc ≠ .again
  ended : o.rc = .over → ∃ k', Leveled o.rrp k' d ∧ Spares addr d k k' rrp o.rrp ∧ o.r.Sound
  suspended : o.rc ≠ .over → o.rc ≠ .stray → ∀ calls, chains.getLast? = some calls →
    ∃ k' n', Leveled o.rrp k' n' ∧ Spares addr d k k' rrp o.rrp ∧
      (Anchored d calls → B (o.rrp.live k') n' o.r) ∧
      (o.rc = .premature → (Rests o.rrp k' n' d calls ↔ Anchored d calls))

/-- The builders as the call at depth `d` sees them, its own through its pointer. -/
def seen (rrp : RedisReplyParser) (k d rrb : Nat) : Nat → RedisReplyBuilder :=
  Function.update (rrp.live k) d (rrp.builders rrb)

/-- A call at depth `d` between two rounds. A builder left behind by the stack has gone on
to a further element since. -/
structure Inside (B : Shape) (d rrb k n : Nat) (rrp : RedisReplyParser) (r : RedisReply) : Prop where
  leveled : Leveled rrp k n
  pointer : Pointer k d rrb
  kept : rrb = slotOf k d ∨ (rrp.live k d).arridx < (rrp.builders rrb).arridx
  depth : (rrp.builders rrb).depth = d
  room : d < n
  shape : B (seen rrp k d rrb) n r

/-- What one round of a call at depth `d` leaves; the calls it opens are the `inner` ones. -/
structure RoundLeft (B : Shape) (d rrb k : Nat) (rrp : RedisReplyParser)
    (inner : List (List OpenCall)) (o : Out) : Prop where
  again : o.rc = .again → ∃ k' n', Inside B d rrb k' n' o.rrp o.r ∧ Spares rrb d k k' rrp o.rrp
  ended : o.rc = .over → ∃ k', Leveled o.rrp k' (d + 1) ∧ Spares rrb d k k' rrp o.rrp ∧ o.r.Sound
  suspended : o.rc ≠ .again → o.rc ≠ .over → o.rc ≠ .stray → ∀ calls, inner.getLast? = some calls →
    ∃ k' n', Leveled o.rrp k' n' ∧ Spares rrb d k k' rrp o.rrp ∧
      (Anchored d (⟨rrb, rrp⟩ :: calls) → B (o.rrp.live k') n' o.r) ∧
      (o.rc = .premature →
        (Rests o.rrp k' n' d (⟨rrb, rrp⟩ :: calls) ↔ Anchored d (⟨rrb, rrp⟩ :: calls)))

theorem seen_self : seen rrp k d rrb d = rrp.builders rrb := Function.update_self ..

theorem seen_of_ne {i : Nat} (h : i ≠ d) : seen rrp k d rrb i = rrp.live k i :=
  Function.update_of_ne h ..

/-- A call whose builder is on the stack sees what is there. -/
theorem seen_live (h : rrp.builders rrb = rrp.live k d) : seen rrp k d rrb = rrp.live k := by
  rw [seen, h, Function.update_eq_self]

/-- A call's own builder is what the stack has at its depth as long as it is on the stack. -/
theorem Inside.live_iff (h : Inside B d rrb k n rrp r) :
    rrp.builders rrb = rrp.live k d ↔ rrb = rrp.stackRrb.slot d := by
  rw [h.leveled.slot]
  refine ⟨fun heq => h.kept.resolve_right fun hlt => ?_, fun heq => congrArg _ heq⟩
  rw [heq] at hlt
  exact Nat.lt_irrefl _ hlt

theorem store_self (b : RedisReplyBuilder) (m : Nat) : (rrp.store rrb b m).builders rrb = b :=
  (write_builders rrp rrb rrb b).trans (if_pos rfl)

theorem Inside.store_leveled {b : RedisReplyBuilder} (h : Inside B d rrb k n rrp r)
    (hdepth : b.depth = (rrp.builders rrb).depth) (m : Nat) : Leveled (rrp.store rrb b m) k n :=
  (h.leveled.write h.pointer (hdepth.trans h.depth)).parsed m

theorem Inside.spares {b : RedisReplyBuilder} (h : Inside B d rrb k n rrp r) (m : Nat) :
    Spares rrb d k k rrp (rrp.store rrb b m) :=
  (h.pointer.spares h.leveled.grown (Nat.le_refl rrb)).trans (Spares.parsed m) (Nat.le_refl rrb)

/-- Storing through the call's pointer. -/
theorem Inside.write {b : RedisReplyBuilder} {r' : RedisReply} (h : Inside B d rrb k n rrp r)
    (hdepth : b.depth = (rrp.builders rrb).depth) (hidx : (rrp.builders rrb).arridx ≤ b.arridx) (m : Nat)
    (hB : B (seen (rrp.store rrb b m) k d rrb) n r') : Inside B d rrb k n (rrp.store rrb b m) r' := by
  refine ⟨h.store_leveled hdepth m, h.pointer, ?_, ?_, h.room, hB⟩
  · rw [store_self]
    by_cases heq : rrb = slotOf k d
    · exact .inl heq
    · have hlive : (rrp.store rrb b m).live k d = rrp.live k d :=
        (write_builders rrp rrb _ b).trans (if_neg fun h => heq h.symm)
      rw [hlive]
      exact .inr (Nat.lt_of_lt_of_le (h.kept.resolve_left heq) hidx)
  · rw [store_self]
    exact hdepth.trans h.depth

theorem loopStacks_ne_nil {step : Step} {inner : Stacks} (h : ∀ rrp bb r, inner rrp bb r ≠ [])
    (fuel : Nat) : loopStacks step inner rrb fuel rrp bb r ≠ [] := by
  cases fuel with
  | zero => exact nofun
  | succ fuel =>
    rw [loopStacks]
    exact List.append_ne_nil_of_left_ne_nil (by simpa using h rrp bb r) _

theorem Shallow.below (h : Shallow d (inner.map (⟨rrb, rrp⟩ :: ·) ++ chains)) : Shallow (d + 1) inner := by
  intro calls hcalls
  have := h _ (List.mem_append_left _ (List.mem_map_of_mem hcalls))
  simp only [List.length_cons] at this
  omega

theorem Shallow.rest (h : Shallow d (inner ++ chains)) : Shallow d chains :=
  fun calls hcalls => h calls (List.mem_append_right _ hcalls)

theorem rrbLoop_left {step : Step} {inner : Stacks} (hne : ∀ rrp bb r, inner rrp bb r ≠ [])
    (hround : ∀ {k n rrp bb r o}, Inside B d rrb k n rrp r → step rrp bb r = some o →
      Shallow (d + 1) (inner rrp bb r) → RoundLeft B d rrb k rrp (inner rrp bb r) o)
    (hin : Inside B d rrb k n rrp r) (hrun : rrbLoop step fuel rrp bb r = some o)
    (hshallow : Shallow d (loopStacks step inner rrb fuel rrp bb r)) :
    o.rc ≠ .again ∧
    (o.rc = .over → ∃ k', Leveled o.rrp k' (d + 1) ∧ Spares rrb d k k' rrp o.rrp ∧ o.r.Sound) ∧
    (o.rc ≠ .over → o.rc ≠ .stray → ∀ calls,
      (loopStacks step inner rrb fuel rrp bb r).getLast? = some calls →
      ∃ k' n', Leveled o.rrp k' n' ∧ Spares rrb d k k' rrp o.rrp ∧
        (Anchored d calls → B (o.rrp.live k') n' o.r) ∧
        (o.rc = .premature → (Rests o.rrp k' n' d calls ↔ Anchored d calls))) := by
  induction fuel generalizing k n rrp bb r with
  | zero => cases hrun
  | succ fuel ih =>
    rw [rrbLoop] at hrun
    rw [loopStacks] at hshallow ⊢
    split at hrun
    · cases hrun
    · next o₁ hstep =>
      simp only [hstep] at hshallow ⊢
      have hleft := hround hin hstep hshallow.below
      split at hrun
      · next hrc =>
        rw [if_pos hrc] at hshallow ⊢
        obtain ⟨k₁, n₁, hin₁, hspares⟩ := hleft.again hrc
        obtain ⟨hagain, hover, hsusp⟩ := ih hin₁ hrun hshallow.rest
        refine ⟨hagain, fun hrc' => ?_, fun hrc' hstray calls hlast => ?_⟩
        · obtain ⟨k₂, hat, hspares', hsound⟩ := hover hrc'
          exact ⟨k₂, hat, hspares.trans hspares' (Nat.le_refl _), hsound⟩
        · obtain ⟨last, hlast'⟩ := Option.isSome_iff_exists.1
            (List.getLast?_isSome.2 (@loopStacks_ne_nil rrb o₁.rrp o₁.bb o₁.r step inner hne fuel))
          rw [List.getLast?_append, hlast', Option.some_or] at hlast
          rw [← Option.some.inj hlast]
          obtain ⟨k₂, n₂, hat, hspares', hB, hrests⟩ := hsusp hrc' hstray last hlast'
          exact ⟨k₂, n₂, hat, hspares.trans hspares' (Nat.le_refl _), hB, hrests⟩
      · next hrc =>
        obtain rfl := Option.some.inj hrun
        rw [if_neg hrc, List.append_nil, List.getLast?_map]
        refine ⟨hrc, hleft.ended, fun hrc' hstray calls hlast => ?_⟩
        obtain ⟨under, hunder, rfl⟩ := Option.map_eq_some_iff.1 hlast
        exact hleft.suspended hrc hrc' hstray under hunder

/-- The builder a call begins with. -/
theorem Layer.enter (hlayer : Layer d B) (h : Leveled rrp k n) (hB : B (rrp.live k) n r)
    (hd : d < 2 ^ 8) (halloc : rrp.stackAllocReplyBuilder d = (rrb, rrp')) :
    ∃ k' n', Inside B d rrb k' n' rrp' r ∧ Spares (slotOf k d) d k k' rrp rrp' ∧ slotOf k d ≤ rrb := by
  rcases Nat.lt_or_eq_of_le (hlayer.le hB) with hlt | rfl
  · obtain ⟨rfl, rfl⟩ := Prod.mk.inj ((h.alloc_at hlt hd).symm.trans halloc)
    have hseen : seen rrp k d (slotOf k d) = rrp.live k := seen_live rfl
    refine ⟨k, n, ⟨h, .self (Nat.lt_of_lt_of_le hlt h.within), .inl rfl, h.depth d hlt, hlt, ?_⟩,
      Spares.refl _ _ _ _, Nat.le_refl _⟩
    rw [hseen]
    exact hB
  · obtain ⟨rrp₁, halloc₁, hat, hnew, hspares⟩ := h.alloc_new hd
    obtain ⟨rfl, rfl⟩ := Prod.mk.inj (halloc₁.symm.trans halloc)
    refine ⟨grow k d, d + 1, ⟨hat, .self hat.within, .inl rfl, hat.depth d (Nat.lt_succ_self d),
      Nat.lt_succ_self d, ?_⟩,
      hspares, slotOf_le (le_grow k d) hat.grown d⟩
    exact hlayer.opens hB (seen_self.trans hnew)

theorem Shallow.depth_lt {step : Step} {inner : Stacks} (hne : inner rrp bb r ≠ [])
    (h : Shallow d (loopStacks step inner rrb (fuel + 1) rrp bb r)) : d < 2 ^ 8 := by
  obtain ⟨calls, hcalls⟩ := List.exists_mem_of_ne_nil _ hne
  rw [loopStacks] at h
  have := h.below calls hcalls
  omega

/-- A builder's call, from what its rounds do. -/
theorem withBuilder_returned {step : Nat → Step} {inner : Nat → Stacks} (hlayer : Layer d B)
    (hne : ∀ rrb rrp bb r, inner rrb rrp bb r ≠ [])
    (hround : ∀ {rrb k n rrp bb r o}, Inside B d rrb k n rrp r → step rrb rrp bb r = some o →
      Shallow (d + 1) (inner rrb rrp bb r) → RoundLeft B d rrb k rrp (inner rrb rrp bb r) o)
    (h : Leveled rrp k n) (hB : B (rrp.live k) n r) (hrun : withBuilder fuel d step rrp bb r = some o)
    (hshallow : Shallow d (builderStacks fuel d step inner rrp bb r)) :
    Returned B d k (slotOf k d) rrp (builderStacks fuel d step inner rrp bb r) o := by
  obtain ⟨rrb, rrp₁, o₁, halloc, hloop, hclose⟩ := withBuilder_run hrun
  have hchains : builderStacks fuel d step inner rrp bb r =
      loopStacks (step rrb) (inner rrb) rrb fuel rrp₁ bb r := by
    rw [builderStacks, halloc]
  rw [hchains] at hshallow ⊢
  cases fuel with
  | zero => cases hloop
  | succ fuel =>
    obtain ⟨k₁, n₁, hin, hspares, hle⟩ := hlayer.enter h hB (hshallow.depth_lt (hne rrb rrp₁ bb r)) halloc
    obtain ⟨hagain, hover, hsusp⟩ := rrbLoop_left (hne rrb) hround hin hloop hshallow
    unfold Out.close at hclose
    split at hclose
    · next hrc =>
      obtain ⟨k₂, hat, hspares₁, hsound⟩ := hover hrc
      split at hclose
      · next rrp₂ hpop =>
        obtain rfl := Option.some.inj hclose
        have hlt := (hin.pointer.mono hspares₁.grows).lt hat.grown
        obtain ⟨hat', hspares₂⟩ := hat.pop hpop (Nat.le_of_lt hlt)
        exact ⟨hagain, fun _ => ⟨k₂, hat', (hspares.trans hspares₁ hle).trans hspares₂ hle, hsound⟩,
          fun hnot => absurd hrc hnot⟩
      · obtain rfl := Option.some.inj hclose
        exact ⟨by simp, fun hrc => by simp at hrc, fun _ hstray => absurd rfl hstray⟩
    · next hrc =>
      obtain rfl := Option.some.inj hclose
      refine ⟨hagain, fun hrc' => absurd hrc' hrc, fun hrc' hstray calls hlast => ?_⟩
      obtain ⟨k₂, n₂, hat, hspares₁, hB', hrests⟩ := hsusp hrc' hstray calls hlast
      exact ⟨k₂, n₂, hat, hspares.trans hspares₁ hle, hB', hrests⟩

/-- A round that opens no builder. -/
theorem Worked.roundLeft (h : Worked rrb rrp r o) (hin : Inside B d rrb k (d + 1) rrp r)
    (hB : ∀ {f r'}, Working (f d) r' → r'.type = r.type → B f (d + 1) r') :
    RoundLeft B d rrb k rrp [[]] o := by
  have hshape : ∀ {b m}, Working b o.r → o.r.type = r.type →
      B (seen (rrp.store rrb b m) k d rrb) (d + 1) o.r := by
    intro b m hwork htype
    refine hB ?_ htype
    rw [seen_self, store_self]
    exact hwork
  refine ⟨fun hrc => ?_, fun hrc => ?_, fun _ hover hstray calls hlast => ?_⟩
  · obtain ⟨b, m, hrrp, hdepth, hidx, htype, hwork⟩ := h (by rw [hrc]; simp)
    rw [if_neg (by rw [hrc]; simp)] at hwork
    rw [hrrp]
    exact ⟨k, d + 1, hin.write hdepth (Nat.le_of_eq hidx.symm) m (hshape hwork htype), hin.spares m⟩
  · obtain ⟨b, m, hrrp, hdepth, -, -, hwork⟩ := h (by rw [hrc]; simp)
    rw [if_pos hrc] at hwork
    rw [hrrp]
    exact ⟨k, hin.store_leveled hdepth m, hin.spares m, hwork⟩
  · obtain ⟨b, m, hrrp, hdepth, hidx, htype, hwork⟩ := h hstray
    rw [if_neg hover] at hwork
    have hin' := hin.write hdepth (Nat.le_of_eq hidx.symm) m (hshape hwork htype)
    have hcalls : [] = calls := Option.some.inj hlast
    subst hcalls
    rw [hrrp]
    refine ⟨k, d + 1, hin'.leveled, hin.spares m, fun hanch => ?_, fun _ => ?_⟩
    · rw [← seen_live (hin'.live_iff.2 hanch.1)]
      exact hin'.shape
    · exact and_congr hin'.live_iff (iff_of_true rfl trivial)

/-- The reply that a builder of some types builds from depth `d` on. -/
def Builds (T : LeadingType → Prop) (d : Nat) : Shape := fun f n r => Building f n d r ∧ T r.type

theorem layer_builds {T : LeadingType → Prop} (hT : ∀ {t}, T t → t.isString ∨ t = .array) (d : Nat) :
    Layer d (Builds T d) where
  le h := h.1.le
  opens h hzero := by
    refine ⟨.opened rfl (.begun (hT h.2) ?_ ?_ h.1.unopened_of_eq), h.2⟩
    · rw [hzero]
      exact Nat.two_pos
    · rw [hzero]
      rfl

/-- A builder that is not at an array's element has no other open under it. -/
theorem Building.working (h : Building f n d r) (hd : d < n)
    (hstate : r.type = .array → (f d).state ≠ 3) : n = d + 1 ∧ Working (f d) r := by
  cases h with
  | unopened hn => omega
  | opened hn h => exact ⟨hn, h⟩
  | element htype hthree => exact absurd hthree (hstate htype)

theorem worked_builds {T : LeadingType → Prop} (hin : Inside (Builds T d) d rrb k n rrp r)
    (hstate : r.type = .array → (rrp.builders rrb).state ≠ 3)
    (hworked : Working (rrp.builders rrb) r → Worked rrb rrp r o) :
    RoundLeft (Builds T d) d rrb k rrp [[]] o := by
  obtain ⟨rfl, hwork⟩ := hin.shape.1.working hin.room fun ht => by rw [seen_self]; exact hstate ht
  rw [seen_self] at hwork
  exact (hworked hwork).roundLeft hin fun hw ht => ⟨.opened rfl hw, by rw [ht]; exact hin.shape.2⟩

theorem noCall_ne_nil : noCall rrp bb r ≠ [] := List.cons_ne_nil _ _

theorem builderStacks_ne_nil {step : Nat → Step} {inner : Nat → Stacks}
    (h : ∀ rrb rrp bb r, inner rrb rrp bb r ≠ []) : builderStacks fuel d step inner rrp bb r ≠ [] := by
  rw [builderStacks]
  exact loopStacks_ne_nil (h _) fuel

theorem byTypeStacks_ne_nil {recArray : Nat → Stacks} (h : recArray rrb rrp bb r ≠ []) :
    byTypeStacks recArray fuel rrb rrp bb r ≠ [] := by
  unfold byTypeStacks
  split
  · exact builderStacks_ne_nil fun _ _ _ _ => noCall_ne_nil
  · exact builderStacks_ne_nil fun _ _ _ _ => noCall_ne_nil
  · exact builderStacks_ne_nil fun _ _ _ _ => noCall_ne_nil
  · exact h
  · exact nofun
  · exact nofun

theorem elementStacks_ne_nil {recArray : Nat → Stacks} (h : ∀ r, recArray rrb rrp bb r ≠ []) :
    elementStacks recArray fuel rrb rrp bb r ≠ [] := by
  unfold elementStacks
  split
  · exact byTypeStacks_ne_nil (h _)
  · exact nofun

theorem arrayStacks_ne_nil : arrayStacks fuel rrb rrp bb r ≠ [] := by
  induction fuel generalizing rrb rrp bb r with
  | zero => exact noCall_ne_nil
  | succ fuel ih => exact builderStacks_ne_nil fun _ _ _ _ => elementStacks_ne_nil fun _ => ih

/-- What a step that builds the reply at depth `d` is owed, and leaves. -/
def Leaves (d : Nat) (T : LeadingType → Prop) (rrb : Nat) (step : Step) (chains : Stacks) : Prop :=
  ∀ {k n rrp bb r o}, Leveled rrp k n → (rrp.builders rrb).depth + 1 = d → Building (rrp.live k) n d r →
    T r.type → step rrp bb r = some o → Shallow d (chains rrp bb r) →
    Returned (fun f n r => Building f n d r) d k (slotOf k d) rrp (chains rrp bb r) o

theorem Returned.building {T : LeadingType → Prop} {addr : Nat}
    (h : Returned (Builds T d) d k addr rrp chains o) :
    Returned (fun f n r => Building f n d r) d k addr rrp chains o := by
  refine ⟨h.again, h.ended, fun hover hstray calls hlast => ?_⟩
  obtain ⟨k', n', hat, hspares, hB, hrests⟩ := h.suspended hover hstray calls hlast
  exact ⟨k', n', hat, hspares, fun hanch => (hB hanch).1, hrests⟩

/-- The builders of strings. -/
theorem string_leaves {T : LeadingType → Prop} {step : Nat → Step}
    (hT : ∀ {t}, T t → t.isString = true)
    (hstep : ∀ {sub rrp bb r o}, T r.type → Working (rrp.builders sub) r → step sub rrp bb r = some o →
      Worked sub rrp r o) (rrb : Nat) :
    Leaves d T rrb (fun rrp => withBuilder fuel ((rrp.builders rrb).depth + 1) step rrp)
      (fun rrp => builderStacks fuel ((rrp.builders rrb).depth + 1) step (fun _ => noCall) rrp) := by
  intro k n rrp bb r o h hdepth hbuild htype hrun hshallow
  simp only [hdepth] at hrun hshallow ⊢
  refine (withBuilder_returned (layer_builds (fun ht => .inl (hT ht)) d) (fun _ _ _ _ => noCall_ne_nil)
    (fun {sub k n rrp bb r o} hin hrun _ => ?_) h ⟨hbuild, htype⟩ hrun hshallow).building
  refine worked_builds hin (fun harray => ?_) fun hwork => hstep hin.shape.2 hwork hrun
  have := hT hin.shape.2
  rw [harray] at this
  cases this

/-- A reply whose builder is none has none. -/
theorem Building.unopened_of_type (h : Building f n d r) (hstring : r.type.isString = false)
    (harray : r.type ≠ .array) : n = d ∧ r.Fresh := by
  cases h with
  | unopened hn hfresh => exact ⟨hn, hfresh⟩
  | opened hn h =>
    cases h with
    | begun htype =>
      rw [hstring] at htype
      rcases htype with htype | htype
      · cases htype
      · exact absurd htype harray
    | text htype => rcases htype with htype | htype <;> rw [htype] at hstring <;> cases hstring
    | bulk htype => rw [htype] at hstring; cases hstring
    | array htype => exact absurd htype harray
  | element htype => exact absurd htype harray

theorem rBuildIntval_returned (h : Leveled rrp k n) (hbuild : Building (rrp.live k) n d r)
    (htype : r.type = .integer) (hrun : rBuildIntval rrp bb r = some o) :
    Returned (fun f n r => Building f n d r) d k (slotOf k d) rrp [[]] o := by
  obtain ⟨rfl, hfresh⟩ := hbuild.unopened_of_type (by rw [htype]; rfl) (by rw [htype]; simp)
  unfold rBuildIntval at hrun
  generalize hread : rBuildInteger rrp bb = res at hrun
  obtain ⟨v, rrp', bb'⟩ := res
  obtain ⟨m, rfl⟩ := rBuildInteger_parsed hread
  cases v with
  | none =>
    obtain rfl := Option.some.inj hrun
    refine ⟨by simp, fun hrc => by simp at hrc, fun _ _ calls hlast => ?_⟩
    obtain rfl := Option.some.inj hlast
    exact ⟨k, n, h.parsed m, Spares.parsed m, fun _ => hbuild, fun _ => iff_of_true rfl trivial⟩
  | some v =>
    obtain rfl := Option.some.inj hrun
    refine ⟨by simp, fun _ => ⟨k, h.parsed m, Spares.parsed m, ?_⟩, fun hover => absurd rfl hover⟩
    exact sound_of_fresh hfresh (show LeadingType.isString _ = _ from (congrArg _ htype).trans rfl)

theorem buildByType_leaves {recArray : Nat → Step} {recStacks : Nat → Stacks}
    (hrec : Leaves d (· = .array) rrb (recArray rrb) (recStacks rrb)) :
    Leaves d (fun _ => True) rrb (buildByType recArray fuel rrb) (byTypeStacks recStacks fuel rrb) := by
  intro k n rrp bb r o h hdepth hbuild _ hrun hshallow
  have htext : r.type = .simpleString ∨ r.type = .errorString → _ := fun ht =>
    @string_leaves d fuel (fun t => t = .simpleString ∨ t = .errorString) lineStep
      (by rintro t (rfl | rfl) <;> rfl) (fun ht hwork hrun => lineStep_worked hwork ht hrun) rrb
      k n rrp bb r o h hdepth hbuild ht
  unfold buildByType at hrun
  unfold byTypeStacks at hshallow ⊢
  cases htype : r.type with
  | simpleString =>
    simp only [htype] at hrun hshallow ⊢
    exact htext (.inl htype) hrun hshallow
  | errorString =>
    simp only [htype] at hrun hshallow ⊢
    exact htext (.inr htype) hrun hshallow
  | integer =>
    simp only [htype] at hrun ⊢
    exact rBuildIntval_returned h hbuild htype hrun
  | bulkString =>
    simp only [htype] at hrun hshallow ⊢
    exact @string_leaves d fuel (· = .bulkString) bulkStep (by rintro t rfl; rfl)
      (fun ht hwork hrun => bulkStep_worked hwork ht hrun) rrb k n rrp bb r o h hdepth hbuild htype
      hrun hshallow
  | array =>
    simp only [htype] at hrun hshallow ⊢
    exact hrec h hdepth hbuild htype hrun hshallow
  | unknown =>
    simp only [htype] at hrun ⊢
    obtain ⟨rfl, -⟩ := hbuild.unopened_of_type (by rw [htype]; rfl) (by rw [htype]; simp)
    obtain rfl := Option.some.inj hrun
    refine ⟨by simp, fun hrc => by simp at hrc, fun _ _ calls hlast => ?_⟩
    obtain rfl := Option.some.inj hlast
    exact ⟨k, n, h, Spares.refl _ _ _ _, fun _ => hbuild, fun _ => iff_of_true rfl trivial⟩

theorem sound_array {es : List RedisReply} (htype : r.type = .array) (h : ∀ e ∈ es, e.Sound) :
    { r with arrval := some es }.Sound := by
  refine .mk (fun hs => ?_) fun es' hes' => ?_
  · rw [show LeadingType.isString _ = _ from congrArg _ htype] at hs
    cases hs
  · obtain rfl := Option.some.inj hes'
    exact h

theorem sound_snoc {es : List RedisReply} {e : RedisReply} (h : ∀ e ∈ es, e.Sound) (he : e.Sound) :
    ∀ e' ∈ es ++ [e], e'.Sound := by
  intro e' he'
  rcases List.mem_append.1 he' with he' | he'
  · exact h e' he'
  · obtain rfl := List.mem_singleton.1 he'
    exact he

/-- The round of an array at an element, from what the element's call leaves. -/
theorem elementEnd_left {es : List RedisReply} {o₁ : Out}
    (hin : Inside (Builds (· = .array) d) d rrb k n rrp r) (hthree : (rrp.builders rrb).state = 3)
    (hidx : (rrp.builders rrb).arridx = es.length) (hsound : ∀ e ∈ es, e.Sound)
    (hret : Returned (fun f n r => Building f n (d + 1) r) (d + 1) k (slotOf k (d + 1)) rrp chains o₁) :
    RoundLeft (Builds (· = .array) d) d rrb k rrp chains
      (buildArrayElementEnd rrb { r with arrval := some (es ++ [o₁.r]) } o₁) := by
  have hlt := hin.pointer.lt hin.leveled.grown
  have htype : r.type = .array := hin.shape.2
  unfold buildArrayElementEnd
  split
  · next hover =>
    obtain ⟨k₁, hat, hspares, hsound₁⟩ := hret.ended hover
    -- the call under this one left its builder alone, wherever the stack is now
    have hself : o₁.rrp.builders rrb = rrp.builders rrb := hspares.below rrb hlt
    have hpointer := hin.pointer.mono hspares.grows
    have hdepth : (o₁.rrp.builders rrb).depth = d := by
      rw [hself]
      exact hin.depth
    have hwrite : ∀ {b : RedisReplyBuilder}, Spares rrb d k k₁ rrp (o₁.rrp.write rrb b) := fun {b} =>
      (hspares.mono (Nat.le_of_lt hlt) (Nat.le_succ d)).trans
        (hpointer.spares (b := b) hat.grown (Nat.le_refl rrb)) (Nat.le_refl rrb)
    simp only
    split
    · exact ⟨fun h => by simp at h, fun h => by simp at h, fun _ _ h => absurd rfl h⟩
    · split
      · refine ⟨fun _ => ⟨k₁, d + 1, ⟨hat.write hpointer hdepth, hpointer, ?_, ?_, Nat.lt_succ_self d, ?_,
          htype⟩, hwrite⟩, fun h => by simp at h, fun h => absurd rfl h⟩
        · by_cases heq : rrb = slotOf k₁ d
          · exact .inl heq
          · have hlive : (rrp.live k d).arridx ≤ (rrp.builders rrb).arridx := by
              rcases hin.kept with heq | hlt
              · exact Nat.le_of_eq (congrArg (fun a => (rrp.builders a).arridx) heq.symm)
              · exact Nat.le_of_lt hlt
            rw [RedisReplyParser.live, write_builders, write_builders, if_pos rfl,
              if_neg fun h => heq h.symm, hself]
            rw [← hspares.live d (Nat.lt_succ_self d)] at hlive
            exact .inr (Nat.lt_succ_of_le hlive)
        · rw [write_builders, if_pos rfl]
          exact hdepth
        · refine .opened rfl (.array htype (.inl ?_) rfl ?_ (sound_snoc hsound hsound₁))
          · rw [seen_self, write_builders, if_pos rfl]
          · rw [seen_self, write_builders, if_pos rfl, hself, List.length_append, List.length_singleton]
            exact congrArg (· + 1) hidx
      · refine ⟨fun h => ?_, fun _ => ?_, fun _ h => absurd hover h⟩
        · exact absurd (hover.symm.trans h) (by simp)
        · exact ⟨k₁, hat.write hpointer hdepth, hwrite, sound_array htype (sound_snoc hsound hsound₁)⟩
  · next hover =>
    refine ⟨fun h => absurd h hret.again, fun h => absurd h hover, fun _ _ hstray calls hlast => ?_⟩
    obtain ⟨k₁, n₁, hat, hspares, hbuild, hrests⟩ := hret.suspended hover hstray calls hlast
    have hlive := hspares.live d (Nat.lt_succ_self d)
    refine ⟨k₁, n₁, hat, hspares.mono (Nat.le_of_lt hlt) (Nat.le_succ d), fun hanch => ⟨?_, htype⟩,
      fun hrc => and_congr ?_ (hrests hrc)⟩
    · rw [← hin.live_iff.2 hanch.1] at hlive
      exact .element htype (by rw [hlive]; exact hthree) rfl (by rw [hlive]; exact hidx) hsound
        (hbuild hanch.2)
    · rw [hspares.below rrb hlt, hlive]
      exact hin.live_iff

theorem arrayStep_left {recArray : Nat → Step} {recStacks : Nat → Stacks}
    (hrec : ∀ rrb, Leaves (d + 1) (· = .array) rrb (recArray rrb) (recStacks rrb))
    (hin : Inside (Builds (· = .array) d) d rrb k n rrp r)
    (hrun : arrayStep recArray fuel rrb rrp bb r = some o)
    (hshallow : Shallow (d + 1) (elementStacks recStacks fuel rrb rrp bb r)) :
    RoundLeft (Builds (· = .array) d) d rrb k rrp (elementStacks recStacks fuel rrb rrp bb r) o := by
  unfold elementStacks at hshallow ⊢
  by_cases hthree : (rrp.builders rrb).state = 3
  · rw [if_pos hthree] at hshallow ⊢
    rw [arrayStep_element hthree] at hrun
    obtain ⟨es, hsound, hidx, hbuild, helems⟩ := hin.shape.1.current hin.room hin.shape.2
      (by rw [seen_self]; exact hthree)
    rw [seen_self] at hidx hbuild helems
    have hbuild' := hbuild.congr (g := rrp.live k) fun i hi => (seen_of_ne (by omega)).symm
    rcases buildArrayElement_run hidx helems hrun with hstray | ⟨o₁, hrun₁, rfl⟩
    · exact ⟨fun h => by simp [hstray] at h, fun h => by simp [hstray] at h, fun _ _ h => absurd hstray h⟩
    · have hret := buildByType_leaves (hrec rrb) hin.leveled (congrArg (· + 1) hin.depth) hbuild' trivial
        hrun₁ hshallow
      exact elementEnd_left hin hthree hidx hsound hret
  · rw [if_neg hthree]
    exact worked_builds hin (fun _ => hthree) fun hwork => arrayStep_worked hwork hin.shape.2 hthree hrun

theorem rBuildArray_leaves (fuel d rrb : Nat) :
    Leaves d (· = .array) rrb (rBuildArray fuel rrb) (arrayStacks fuel rrb) := by
  induction fuel generalizing d rrb with
  | zero =>
    intro k n rrp bb r o _ _ _ _ hrun
    cases hrun
  | succ fuel ih =>
    intro k n rrp bb r o h hdepth hbuild htype hrun hshallow
    rw [rBuildArray_succ, hdepth] at hrun
    simp only [arrayStacks, hdepth] at hshallow ⊢
    exact (withBuilder_returned (layer_builds (fun ht => .inr ht) d)
      (fun _ _ _ _ => elementStacks_ne_nil fun _ => arrayStacks_ne_nil)
      (fun hin hrun hshallow => arrayStep_left (fun rrb => ih (d + 1) rrb) hin hrun hshallow)
      h ⟨hbuild, htype⟩ hrun hshallow).building

/-- The main builder and those under it, with the reply of the parser. A pop that clears the
reply's head leaves a reply of no type. -/
inductive Top : Shape
  | idle {f : Nat → RedisReplyBuilder} {r : RedisReply} (hfresh : r.Fresh) : Top f 0 r
  | begun {f : Nat → RedisReplyBuilder} {r : RedisReply} (hstate : (f 0).state < 2) (hfresh : r.Fresh) :
    Top f 1 r
  | content {f : Nat → RedisReplyBuilder} {n : Nat} {r : RedisReply} (hpos : 0 < n)
    (hstate : (f 0).state = 2) (h : r.type = .unknown ∨ Building f n 1 r) : Top f n r

theorem layer_top : Layer 0 Top where
  le _ := Nat.zero_le _
  opens h hzero := by
    cases h with
    | idle hfresh =>
      refine .begun ?_ hfresh
      rw [hzero]
      exact Nat.two_pos
    | content hpos => exact absurd hpos (Nat.lt_irrefl 0)

/-- A round of the main builder that changes nothing. -/
theorem top_still {rc : Rc} (hin : Inside Top 0 rrb k n rrp r) (hrc : rc ≠ .again) (hover : rc ≠ .over)
    (hone : rc = .premature → n = 1) : RoundLeft Top 0 rrb k rrp [[]] ⟨rc, rrp, bb, r⟩ := by
  refine ⟨fun h => absurd h hrc, fun h => absurd h hover, fun _ _ _ calls hlast => ?_⟩
  have hcalls : [] = calls := Option.some.inj hlast
  subst hcalls
  refine ⟨k, n, hin.leveled, Spares.refl _ _ _ _, fun hanch => ?_, fun h => ?_⟩
  · rw [← seen_live (hin.live_iff.2 hanch.1)]
    exact hin.shape
  · exact and_congr hin.live_iff (iff_of_true (hone h) trivial)

theorem buildReplyType_left (hin : Inside Top 0 rrb k n rrp r) (hlt : (rrp.builders rrb).state < 2)
    (hrun : buildReplyType rrb rrp bb r = some o) : RoundLeft Top 0 rrb k rrp [[]] o := by
  obtain ⟨rfl, hfresh⟩ : n = 1 ∧ r.Fresh := by
    cases hin.shape with
    | idle => exact absurd hin.room (Nat.lt_irrefl 0)
    | begun _ hfresh => exact ⟨rfl, hfresh⟩
    | content _ hstate =>
      rw [seen_self] at hstate
      omega
  unfold buildReplyType at hrun
  split at hrun
  · obtain rfl := Option.some.inj hrun
    exact top_still hin (by simp) (by simp) fun _ => rfl
  · split at hrun
    · obtain rfl := Option.some.inj hrun
      exact top_still hin (by simp) (by simp) fun _ => rfl
    · next type _ =>
      obtain rfl := Option.some.inj hrun
      have htyped : Top (seen (rrp.store rrb { rrp.builders rrb with state := 2 } (rrp.parsed + 1)) k 0 rrb)
          1 { r with type } := by
        refine .content Nat.one_pos ?_ (.inr (.unopened rfl hfresh))
        rw [seen_self, store_self]
      have hin' := hin.write (b := { rrp.builders rrb with state := 2 }) rfl (Nat.le_refl _) _ htyped
      exact ⟨fun _ => ⟨k, 1, hin', hin.spares _⟩, fun h => by simp at h, fun h => absurd rfl h⟩

theorem replyStep_left (hin : Inside Top 0 rrb k n rrp r) (hrun : replyStep fuel rrb rrp bb r = some o)
    (hshallow : Shallow 1 (contentStacks fuel rrb rrp bb r)) :
    RoundLeft Top 0 rrb k rrp (contentStacks fuel rrb rrp bb r) o := by
  unfold replyStep at hrun
  unfold contentStacks at hshallow ⊢
  split at hrun
  · next hstate =>
    rw [if_neg (by omega)]
    exact buildReplyType_left hin (by omega) hrun
  · next hstate =>
    rw [if_neg (by omega)]
    exact buildReplyType_left hin (by omega) hrun
  · next hstate =>
    rw [if_pos hstate] at hshallow ⊢
    have hlt := hin.pointer.lt hin.leveled.grown
    obtain ⟨hpos, hcontent⟩ : 0 < n ∧ (r.type = .unknown ∨ Building (seen rrp k 0 rrb) n 1 r) := by
      cases hin.shape with
      | idle => exact absurd hin.room (Nat.lt_irrefl 0)
      | begun hlt =>
        rw [seen_self] at hlt
        omega
      | content hpos _ h => exact ⟨hpos, h⟩
    rcases hcontent with hunknown | hbuild
    · unfold buildReplyContent buildByType at hrun
      unfold byTypeStacks
      simp only [hunknown] at hrun ⊢
      obtain rfl := Option.some.inj hrun
      exact top_still hin (by simp) (by simp) fun h => by simp at h
    · have hbuild' := hbuild.congr (g := rrp.live k) fun i hi => (seen_of_ne (by omega)).symm
      have hret := buildByType_leaves (rBuildArray_leaves fuel 1 rrb) hin.leveled
        (congrArg (· + 1) hin.depth) hbuild' trivial hrun hshallow
      refine ⟨fun h => absurd h hret.again, fun h => ?_, fun _ hover hstray calls hlast => ?_⟩
      · obtain ⟨k₁, hat, hspares, hsound⟩ := hret.ended h
        exact ⟨k₁, hat, hspares.mono (Nat.le_of_lt hlt) (Nat.zero_le 1), hsound⟩
      · obtain ⟨k₁, n₁, hat, hspares, hbuild₁, hrests⟩ := hret.suspended hover hstray calls hlast
        have hlive := hspares.live 0 Nat.one_pos
        refine ⟨k₁, n₁, hat, hspares.mono (Nat.le_of_lt hlt) (Nat.zero_le 1), fun hanch => ?_,
          fun hrc => and_congr ?_ (hrests hrc)⟩
        · rw [← hin.live_iff.2 hanch.1] at hlive
          have hbuild₂ := hbuild₁ hanch.2
          exact .content hbuild₂.le (by rw [hlive]; exact hstate) (.inr hbuild₂)
        · rw [hspares.below rrb hlt, hlive]
          exact hin.live_iff
  · next hzero hone htwo =>
    have hstate : (rrp.builders rrb).state = 0 ∨ (rrp.builders rrb).state = 1 ∨
        (rrp.builders rrb).state = 2 := by
      cases hin.shape with
      | idle => exact absurd hin.room (Nat.lt_irrefl 0)
      | begun hlt =>
        rw [seen_self] at hlt
        omega
      | content _ htwo =>
        rw [seen_self] at htwo
        omega
    rcases hstate with h | h | h
    · exact absurd h hzero
    · exact absurd h hone
    · exact absurd h htwo

end KjRedis.Reply
