import KjRedis.Rdb.Builders

/-! The builders' stack: a builder on slot `d` leaves the builders under it, and one that
waits leaves its own too. -/
namespace KjRedis.Rdb

open Resumption

/-- All a builder goes by but its strings. -/
def RdbObjectBuilder.control (b : RdbObjectBuilder) : Nat × Nat × Nat × Nat × Nat :=
  (b.depth, b.state, b.storeLen, b.cLen, b.len)

structure Stacked (k : Nat) (rp : RdbParser) : Prop where
  room : k ≤ rp.nelts
  depths : ∀ i < rp.nelts, (rp.slots i).depth = i

/-- The builders under `m` have not moved. -/
structure Frame (m : Nat) (rp rp' : RdbParser) : Prop where
  state : rp'.state = rp.state
  type : 0 < m → rp'.o.type = rp.o.type
  walked : 0 < m → rp'.walked = rp.walked
  control : ∀ i < m, (rp'.slots i).control = (rp.slots i).control

/-- Nor has the stack grown or shrunk. -/
structure Kept (m : Nat) (rp rp' : RdbParser) : Prop extends Frame m rp rp' where
  nelts : rp'.nelts = rp.nelts
  depths : ∀ i, (rp'.slots i).depth = (rp.slots i).depth

section Frames

variable {m n k ob : Nat} {rp rp' rp'' : RdbParser} {b : RdbObjectBuilder}

theorem Stacked.le (h : Stacked n rp) (hle : m ≤ n) : Stacked m rp :=
  ⟨Nat.le_trans hle h.room, h.depths⟩

theorem Frame.refl (m : Nat) (rp : RdbParser) : Frame m rp rp :=
  ⟨rfl, fun _ => rfl, fun _ => rfl, fun _ _ => rfl⟩

theorem Frame.trans (h : Frame m rp rp') (h' : Frame m rp' rp'') : Frame m rp rp'' where
  state := h'.state.trans h.state
  type hm := (h'.type hm).trans (h.type hm)
  walked hm := (h'.walked hm).trans (h.walked hm)
  control i hi := (h'.control i hi).trans (h.control i hi)

theorem Frame.le (h : Frame n rp rp') (hle : m ≤ n) : Frame m rp rp' where
  state := h.state
  type hm := h.type (Nat.lt_of_lt_of_le hm hle)
  walked hm := h.walked (Nat.lt_of_lt_of_le hm hle)
  control i hi := h.control i (Nat.lt_of_lt_of_le hi hle)

/-- Two states that come from one. -/
theorem Frame.join (h : Frame m rp rp') (h' : Frame m rp rp'') : Frame m rp' rp'' where
  state := h'.state.trans h.state.symm
  type hm := (h'.type hm).trans (h.type hm).symm
  walked hm := (h'.walked hm).trans (h.walked hm).symm
  control i hi := (h'.control i hi).trans (h.control i hi).symm

theorem frame_zero (hstate : rp'.state = rp.state) : Frame 0 rp rp' :=
  ⟨hstate, fun h => absurd h (Nat.lt_irrefl 0), fun h => absurd h (Nat.lt_irrefl 0),
    fun i hi => absurd hi (Nat.not_lt_zero i)⟩

theorem Kept.refl (m : Nat) (rp : RdbParser) : Kept m rp rp :=
  ⟨Frame.refl m rp, rfl, fun _ => rfl⟩

theorem Kept.trans (h : Kept m rp rp') (h' : Kept m rp' rp'') : Kept m rp rp'' where
  toFrame := h.toFrame.trans h'.toFrame
  nelts := h'.nelts.trans h.nelts
  depths i := (h'.depths i).trans (h.depths i)

theorem Kept.le (h : Kept n rp rp') (hle : m ≤ n) : Kept m rp rp' :=
  ⟨h.toFrame.le hle, h.nelts, h.depths⟩

theorem Stacked.kept (h : Stacked k rp) (hkept : Kept m rp rp') : Stacked k rp' where
  room := hkept.nelts ▸ h.room
  depths i hi := (hkept.depths i).trans (h.depths i (hkept.nelts ▸ hi))

theorem kept_write (hle : m ≤ ob) (hdepth : b.depth = (rp.slots ob).depth) :
    Kept m rp (rp.write ob b) where
  state := rfl
  type _ := rfl
  walked _ := rfl
  control i hi := by
    have hne : i ≠ ob := Nat.ne_of_lt (Nat.lt_of_lt_of_le hi hle)
    simp only [RdbParser.write, Function.update_of_ne hne]
  nelts := rfl
  depths i := by
    by_cases hi : i = ob
    · simp only [RdbParser.write, hi, Function.update_self, hdepth]
    · simp only [RdbParser.write, Function.update_of_ne hi]

/-- Writing the strings of a builder. -/
theorem kept_strings (hcontrol : b.control = (rp.slots ob).control) :
    Kept m rp (rp.write ob b) where
  state := rfl
  type _ := rfl
  walked _ := rfl
  control i _ := by
    by_cases hi : i = ob
    · simp only [RdbParser.write, hi, Function.update_self, hcontrol]
    · simp only [RdbParser.write, Function.update_of_ne hi]
  nelts := rfl
  depths i := by
    have hdepth : b.depth = (rp.slots ob).depth := congrArg Prod.fst hcontrol
    by_cases hi : i = ob
    · simp only [RdbParser.write, hi, Function.update_self, hdepth]
    · simp only [RdbParser.write, Function.update_of_ne hi]

theorem kept_object {o : RdbObject} (htype : 0 < m → o.type = rp.o.type) : Kept m rp { rp with o } :=
  ⟨⟨rfl, htype, fun _ => rfl, fun _ _ => rfl⟩, rfl, fun _ => rfl⟩

theorem kept_calcCrc (bytes : Nat) : Kept m rp (rp.calcCrc bytes) :=
  ⟨⟨rfl, fun _ => rfl, fun _ => rfl, fun _ _ => rfl⟩, rfl, fun _ => rfl⟩

theorem kept_setStr (s : NxStr) (val : StrRef) : Kept m rp (rp.setStr s val) := by
  cases val with
  | auxKey | auxVal | objectKey | objectVal => exact kept_object fun _ => rfl
  | tmpKey | tmpVal => exact kept_strings rfl

theorem kept_setState (hle : m ≤ ob) (state : Nat) : Kept m rp (rp.setState ob state) :=
  kept_write hle rfl

theorem kept_write_calcCrc (hle : m ≤ ob) (hdepth : b.depth = (rp.slots ob).depth) (bytes : Nat) :
    Kept m rp ((rp.write ob b).calcCrc bytes) :=
  (kept_write hle hdepth).trans (kept_calcCrc bytes)

/-- What a builder is chosen by. -/
theorem Frame.chosen (h : Frame (ob + 1) rp rp') :
    (rp'.slots ob).state = (rp.slots ob).state ∧ (rp'.slots ob).storeLen = (rp.slots ob).storeLen ∧
      (rp'.slots ob).len = (rp.slots ob).len ∧ rp'.o.type = rp.o.type := by
  have hcontrol := h.control ob (Nat.lt_succ_self ob)
  exact ⟨congrArg (fun c => c.2.1) hcontrol, congrArg (fun c => c.2.2.1) hcontrol,
    congrArg (fun c => c.2.2.2.2) hcontrol, h.type (Nat.succ_pos ob)⟩

end Frames

/-- What is read takes no look at what follows. -/
def Prefixed {α : Type} (read : List UInt8 → Option (Nat × α)) : Prop :=
  ∀ bb n v, read bb = some (n, v) → n ≤ bb.length ∧ ∀ more, read (bb ++ more) = some (n, v)

theorem prefixed_readStoreLen : Prefixed rdbObjectReadStoreLen := by
  intro bb n v h
  cases bb with
  | nil => cases h
  | cons p rest =>
    simp only [rdbObjectReadStoreLen, List.cons_append, List.length_cons] at h ⊢
    split at h
    · cases h
      exact ⟨by omega, fun _ => rfl⟩
    · cases rest with
      | nil => cases h
      | cons q rest =>
        cases h
        exact ⟨by simp, fun _ => rfl⟩
    · split at h
      · cases h
      · next hlen =>
        cases h
        refine ⟨by omega, fun more => ?_⟩
        rw [if_neg (by rw [List.length_append]; omega), List.take_append_of_le_length (by omega)]
    · cases h
      exact ⟨by omega, fun _ => rfl⟩

theorem prefixed_readInt (enc : Nat) : Prefixed fun bb => rdbObjectReadInt bb enc := by
  intro bb n v h
  have hmore : ∀ k more, ¬bb.length < k →
      ¬(bb ++ more).length < k ∧ (bb ++ more).take k = bb.take k := by
    intro k more hk
    rw [List.length_append]
    exact ⟨by omega, List.take_append_of_le_length (by omega)⟩
  simp only [rdbObjectReadInt] at h ⊢
  split at h
  · cases h
  · next h1 =>
    split at h
    · next h8 =>
      cases h
      refine ⟨by omega, fun more => ?_⟩
      rw [if_neg (hmore 1 more h1).1, if_pos h8, (hmore 1 more h1).2]
    · next h8 =>
      split at h
      · next h16 =>
        split at h
        · cases h
        · next h2 =>
          cases h
          refine ⟨by omega, fun more => ?_⟩
          rw [if_neg (hmore 1 more h1).1, if_neg h8, if_pos h16, if_neg (hmore 2 more h2).1,
            (hmore 2 more h2).2]
      · next h16 =>
        split at h
        · cases h
        · next h4 =>
          cases h
          refine ⟨by omega, fun more => ?_⟩
          rw [if_neg (hmore 1 more h1).1, if_neg h8, if_neg h16, if_neg (hmore 4 more h4).1,
            (hmore 4 more h4).2]

theorem prefixed_readType : Prefixed rdbObjectReadType := by
  intro bb n v h
  cases bb with
  | nil => cases h
  | cons p rest =>
    cases h
    exact ⟨by simp, fun _ => rfl⟩

/-- What a builder on slot `k - 1` may do to the others. -/
abbrev LawfulAt (k : Nat) (p : Builder) : Prop :=
  Lawful Rc.premature (Stacked k) (Frame (k - 1)) (Frame k) p

section Combinators

variable {k m d : Nat} {p : Builder}

/-- A step that takes off what it reads, or has nothing done yet. -/
theorem lawful_read {α : Type} {f : Step} (read : RdbParser → List UInt8 → Option (Nat × α))
    (act : Nat → α → RdbParser → Rc × RdbParser) (hread : ∀ rp, Prefixed (read rp))
    (hcode : ∀ n v rp, (act n v rp).1 ≠ .premature) (hkept : ∀ n v rp, Kept (k - 1) rp (act n v rp).2)
    (hf : ∀ rp bb, f rp bb = match read rp bb with
      | none => (.premature, rp, bb)
      | some (n, v) => ((act n v rp).1, (act n v rp).2, bb.drop n)) :
    LawfulAt k (ofStep f) := by
  have hwait : ∀ rp bb, (f rp bb).1 = .premature → f rp bb = (.premature, rp, bb) := by
    intro rp bb h
    rw [hf] at h ⊢
    cases hr : read rp bb with
    | none => rfl
    | some nv =>
      rw [hr] at h
      exact absurd h (hcode nv.1 nv.2 rp)
  have hafter : ∀ rp bb, Kept (k - 1) rp (f rp bb).2.1 := by
    intro rp bb
    rw [hf]
    cases read rp bb with
    | none => exact Kept.refl _ _
    | some nv => exact hkept nv.1 nv.2 rp
  apply Lawful.step
  · intro rp bb h
    exact h.kept (hafter rp bb)
  · intro rp bb _
    exact (hafter rp bb).toFrame
  · intro rp bb _ h
    rw [hwait rp bb h]
    exact Frame.refl _ _
  · intro rp bb more _ h
    cases hr : read rp bb with
    | none =>
      rw [hf, hr] at h
      exact absurd rfl h
    | some nv =>
      obtain ⟨hle, hmore⟩ := hread rp bb nv.1 nv.2 hr
      rw [hf, hf, hr, hmore more]
      simp only [List.drop_append_of_le_length hle]
  · intro rp bb more _ h
    rw [hwait rp bb h]

theorem lawful_andThen (h : LawfulAt k p) {g : Rc → RdbParser → Rc × RdbParser}
    (hwait : ∀ rp, g .premature rp = (.premature, rp))
    (hcode : ∀ rc rp, rc ≠ .premature → (g rc rp).1 ≠ .premature)
    (hkept : ∀ rc rp, Kept (k - 1) rp (g rc rp).2) : LawfulAt k (andThen p g) :=
  h.andThen hwait hcode (fun rc rp hrp => hrp.kept (hkept rc rp))
    fun rc _ rp' _ hframe => hframe.trans (hkept rc rp').toFrame

theorem lawful_dispatch {select : RdbParser → Builder} (h : ∀ rp, LawfulAt k (select rp))
    (hsame : ∀ rp rp', Frame k rp rp' → select rp' = select rp) : LawfulAt k (dispatch select) :=
  Lawful.dispatch h fun rp rp' _ => hsame rp rp'

theorem stackAllocObjectBuilder_of_lt {rp : RdbParser} (hd : d < 2 ^ 8) (hlt : d < rp.nelts) :
    rp.stackAllocObjectBuilder d = (d, rp) := by
  simp only [RdbParser.stackAllocObjectBuilder, Nat.mod_eq_of_lt hd, if_pos hlt]

theorem stackAllocObjectBuilder_of_eq {rp : RdbParser} (hd : d < 2 ^ 8) (heq : rp.nelts = d) :
    rp.stackAllocObjectBuilder d =
      (d, { rp.write d { RdbObjectBuilder.zero with depth := d } with nelts := d + 1 }) := by
  simp only [RdbParser.stackAllocObjectBuilder, Nat.mod_eq_of_lt hd, heq, Nat.lt_irrefl, if_false,
    RdbParser.stackPushObjectBuilder, RdbParser.write, Function.update_self, Function.update_idem]

/-- The slot is there afterwards, and those under it are as they were. -/
theorem stackAllocObjectBuilder_spec {rp : RdbParser} (hd : d < 2 ^ 8) (h : Stacked d rp) :
    (rp.stackAllocObjectBuilder d).1 = d ∧ Stacked (d + 1) (rp.stackAllocObjectBuilder d).2 ∧
      Frame d rp (rp.stackAllocObjectBuilder d).2 := by
  rcases Nat.lt_or_eq_of_le h.room with hlt | heq
  · rw [stackAllocObjectBuilder_of_lt hd hlt]
    exact ⟨rfl, ⟨hlt, h.depths⟩, Frame.refl _ _⟩
  · rw [stackAllocObjectBuilder_of_eq hd heq.symm]
    refine ⟨rfl, ⟨Nat.le_refl _, ?_⟩, ⟨rfl, fun _ => rfl, fun _ => rfl, ?_⟩⟩
    · intro i hi
      rcases Nat.lt_succ_iff_lt_or_eq.1 hi with hi | rfl
      · simp only [RdbParser.write, Function.update_of_ne (Nat.ne_of_lt hi)]
        exact h.depths i (heq ▸ hi)
      · simp only [RdbParser.write, Function.update_self]
    · intro i hi
      simp only [RdbParser.write, Function.update_of_ne (Nat.ne_of_lt hi)]

theorem stacked_popOver {rp : RdbParser} (rc : Rc) (h : Stacked (d + 1) rp) :
    Stacked d (popOver d rc rp).2 ∧ Frame (d - 1) rp (popOver d rc rp).2 := by
  by_cases hover : rc = .over
  · have hroom := h.room
    simp only [popOver, if_pos hover, RdbParser.stackPopObjectBuilder, RdbParser.write]
    refine ⟨⟨Nat.le_sub_of_add_le hroom, ?_⟩, ⟨rfl, fun _ => rfl, fun _ => rfl, ?_⟩⟩
    · intro i hi
      have hi : i < rp.nelts - 1 := hi
      simp only [Function.update_of_ne (show i ≠ rp.nelts by omega)]
      exact h.depths i (by omega)
    · intro i hi
      simp only [Function.update_of_ne (show i ≠ rp.nelts by omega)]
  · simp only [popOver, if_neg hover]
    exact ⟨h.le (Nat.le_succ d), Frame.refl _ _⟩

/-- The loop of a builder on its slot, as the builder under it sees it. -/
theorem lawful_obLoop {depth : RdbParser → Nat} {body : Nat → Builder}
    {finish : Nat → Rc → RdbParser → Rc × RdbParser} (hd : d < 2 ^ 8)
    (hdepth : ∀ rp, Stacked d rp → depth rp = d) (hbody : LawfulAt (d + 1) (body d))
    (hwait : ∀ rp, finish d .premature rp = (.premature, rp))
    (hcode : ∀ rc rp, rc ≠ .premature → (finish d rc rp).1 ≠ .premature)
    (hstacked : ∀ rc rp, Stacked (d + 1) rp → Stacked d (finish d rc rp).2)
    (hframe : ∀ rc rp, Stacked (d + 1) rp → Frame (d - 1) rp (finish d rc rp).2) :
    LawfulAt d (obLoop depth body finish) := by
  have hloop : Lawful Rc.premature (Stacked (d + 1)) (Frame d) (Frame d)
      (loop (fun rc _ => rc = .again) (body d)) :=
    hbody.loop (fun _ => rfl) fun _ _ _ h h' => h.trans h'
  refine Lawful.enclose (f := fun rp => rp.stackAllocObjectBuilder (depth rp))
    (q := fun ob => loop (fun rc _ => rc = .again) (body ob)) (g := finish) hloop ?_ ?_ hwait hcode
    hstacked ?_ ?_
  · intro rp hrp
    rw [hdepth rp hrp]
    obtain ⟨hob, hrp', -⟩ := stackAllocObjectBuilder_spec hd hrp
    exact ⟨hob, hrp'⟩
  · intro rp hrp
    rw [hdepth rp (hrp.le (Nat.le_succ d)), stackAllocObjectBuilder_of_lt hd hrp.room]
  · intro rc rp rp' hrp hrp' hany
    rw [hdepth rp hrp] at hany
    have hout := (stackAllocObjectBuilder_spec hd hrp).2.2.trans hany
    exact (hout.le (Nat.sub_le d 1)).trans (hframe rc rp' hrp')
  · intro rp rp' hrp hany
    rw [hdepth rp hrp] at hany
    exact (stackAllocObjectBuilder_spec hd hrp).2.2.trans hany

theorem lawful_fail {rc : Rc} (h : rc ≠ .premature) : LawfulAt k (ofStep (fail rc)) := by
  apply Lawful.step
  · exact fun _ _ hrp => hrp
  · exact fun rp _ _ => Frame.refl _ rp
  · exact fun rp _ _ _ => Frame.refl _ rp
  · exact fun _ _ _ _ _ => rfl
  · exact fun _ _ _ _ hcode => absurd hcode h

/-- A builder's loop that is popped when it is over. -/
theorem lawful_popOver {ob : Nat} {body : Nat → Builder} (hob : ob + 1 < 2 ^ 8)
    (hbody : LawfulAt (ob + 2) (body (ob + 1))) : LawfulAt (ob + 1) (obLoop (subDepth ob) body popOver) := by
  apply lawful_obLoop hob ?_ hbody
  · exact fun _ => rfl
  · intro rc rp hrc
    by_cases hover : rc = .over
    · simp only [popOver, if_pos hover]
      exact hrc
    · simp only [popOver, if_neg hover]
      exact hrc
  · intro rc rp hrp
    exact (stacked_popOver rc hrp).1
  · intro rc rp hrp
    exact (stacked_popOver rc hrp).2
  · intro rp hrp
    simp only [subDepth, hrp.depths ob hrp.room]

end Combinators

end KjRedis.Rdb
