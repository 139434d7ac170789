import KjRedis.Rdb.StringReader

/-! The builders of values follow the readers of values. -/
namespace KjRedis.Rdb

open Resumption

/-- The builder of a container of `n` elements that has `k` of them. -/
def filler (d state n k : Nat) (tmpKey tmpVal : NxStr) : RdbObjectBuilder :=
  { depth := d, state, storeLen := n, cLen := 0, len := k, tmpKey, tmpVal }

/-- What has become of the parser `rp` when the container on slot `d` has the links `kvs`. -/
structure Filling (d state n : Nat) (key val : NxStr) (kvs : List RdbKv) (rp rp' : RdbParser) :
    Prop where
  nelts : rp'.nelts = d + 1
  slot : rp'.slots d = filler d state n kvs.length key val
  same : Same d { rp with o := rp.o.linked kvs } rp'

/-- And when it has all of them. -/
structure Filled (d : Nat) (kvs : List RdbKv) (rp rp' : RdbParser) : Prop where
  nelts : rp'.nelts = d + 1
  same : Same d { rp with o := rp.o.filled kvs } rp'

section Fillings

variable {ob d n state : Nat} {kvs : List RdbKv} {key val s : NxStr} {rp rp₁ rp₂ : RdbParser}

theorem Filling.atTop (h : Filling (ob + 1) state n key val kvs rp rp₁) (htop : AtTop ob rp) :
    AtTop (ob + 1) rp₁ := by
  refine ⟨h.nelts, fun i hi => ?_⟩
  rcases Nat.lt_or_eq_of_le hi with hlt | rfl
  · rw [h.same.slots i hlt]
    exact htop.depths i (Nat.le_of_lt_succ hlt)
  · rw [h.slot]
    rfl

theorem Filling.frame (h : Filling d state n key val kvs rp rp₁) : Frame d rp rp₁ :=
  ⟨h.same.state, h.same.frame.type, fun _ => h.same.walked, h.same.frame.control⟩

theorem Filled.frame (h : Filled d kvs rp rp₁) : Frame d rp rp₁ :=
  ⟨h.same.state, h.same.frame.type, fun _ => h.same.walked, h.same.frame.control⟩

/-- A key waits in the builder. -/
theorem Filling.withKey (h : Filling d state n key val kvs rp rp₁) (hnelts : rp₂.nelts = d + 1)
    (hsame : Same (d + 1) (rp₁.setStr s (.tmpKey d)) rp₂) : Filling d state n s val kvs rp rp₂ where
  nelts := hnelts
  slot := by
    rw [hsame.slots d (Nat.lt_succ_self d)]
    simp only [RdbParser.setStr, RdbParser.write, Function.update_self, h.slot]
    rfl
  same := (h.same.trans (same_write (Nat.le_refl d) _)).trans (hsame.le (Nat.le_succ d))

theorem Filling.withVal (h : Filling d state n key val kvs rp rp₁) (hnelts : rp₂.nelts = d + 1)
    (hsame : Same (d + 1) (rp₁.setStr s (.tmpVal d)) rp₂) : Filling d state n key s kvs rp rp₂ where
  nelts := hnelts
  slot := by
    rw [hsame.slots d (Nat.lt_succ_self d)]
    simp only [RdbParser.setStr, RdbParser.write, Function.update_self, h.slot]
    rfl
  same := (h.same.trans (same_write (Nat.le_refl d) _)).trans (hsame.le (Nat.le_succ d))

theorem Filling.setState (h : Filling d state n key val kvs rp rp₁) (next : Nat) :
    Filling d next n key val kvs rp (rp₁.setState d next) where
  nelts := h.nelts
  slot := by
    simp only [RdbParser.setState, RdbParser.write, Function.update_self, h.slot]
    rfl
  same := h.same.trans (same_write (Nat.le_refl d) _)

/-- What waits in the builder becomes the last link. -/
theorem Filling.link (h : Filling d state n key val kvs rp rp₁) (again : Nat) (hlt : kvs.length + 1 < n) :
    ∃ rp₂, linkElement again d .over rp₁ = (.again, rp₂) ∧ rp₂.parsed = rp₁.parsed ∧
      Filling d again n none none (kvs ++ [⟨key, val⟩]) rp rp₂ := by
  refine ⟨{ rp₁ with o := rp₁.o.linked [⟨key, val⟩] }.write d
    (filler d again n (kvs.length + 1) none none), ?_, rfl, h.nelts, ?_, ?_⟩
  · simp only [linkElement, h.slot, filler, if_true, if_pos hlt, RdbObject.linked]
  · simp only [RdbParser.write, Function.update_self, List.length_append, List.length_singleton]
  · apply Same.trans ?_ (same_write (Nat.le_refl d) _)
    refine { h.same with o := ?_ }
    simp only [h.same.o, RdbObject.linked, List.append_assoc]

theorem Filling.link_last (h : Filling d state n key val kvs rp rp₁) (again : Nat)
    (hlast : kvs.length + 1 = n) :
    ∃ rp₂, linkElement again d .over rp₁ = (.over, rp₂) ∧ rp₂.parsed = rp₁.parsed ∧
      Filled d (kvs ++ [⟨key, val⟩]) rp rp₂ := by
  subst hlast
  refine ⟨{ rp₁.write d (filler d state (kvs.length + 1) (kvs.length + 1) none none) with
    o := { rp₁.o.linked [⟨key, val⟩] with size := kvs.length + 1 } }, ?_, rfl, h.nelts, ?_⟩
  · simp only [linkElement, h.slot, filler, if_true, if_neg (Nat.lt_irrefl _), RdbObject.linked]
    rfl
  · have hsame := h.same.trans (same_write (Nat.le_refl d)
      (filler d state (kvs.length + 1) (kvs.length + 1) none none))
    refine { hsame with o := ?_ }
    simp only [h.same.o, RdbObject.filled, RdbObject.linked, List.append_assoc, List.length_append,
      List.length_singleton]

end Fillings

section Elements

variable {α : Type} {ob d n state again : Nat} {kvs : List RdbKv} {key val : NxStr}
  {body : Nat → Builder} {element : List UInt8 → Read RdbKv} {rp rp₁ : RdbParser}
  {bb rest : List UInt8} {Done : α → RdbParser → Prop}

/-- What the loop does when a round has linked an element. -/
def Linked (body : Nat → Builder) (d : Nat) (rc : Rc) (rp : RdbParser) (rest : List UInt8)
    (Done : α → RdbParser → Prop) (r : Read α) : Prop :=
  if rc = .again then Follows (d + 1) d (builderLoop body d) rp rest Done r
  else rc = .over ∧ ∃ x, r = .done x rest ∧ Done x rp

theorem Linked.follows {rc : Rc} {rp₂ : RdbParser} {r : Read α}
    (h : Linked body d rc rp₂ rest Done r) (hround : Runs (body d) rp₁ bb (rc, rp₂, rest))
    (hparsed : rp₂.parsed + rest.length = rp₁.parsed + bb.length) (hframe : Frame d rp₁ rp₂) :
    Follows (d + 1) d (builderLoop body d) rp₁ bb Done r := by
  rw [Linked] at h
  split at h
  · next hagain =>
    subst hagain
    exact FollowsBy.round hround hparsed hframe h
  · obtain ⟨rfl, x, rfl, hx⟩ := h
    exact ⟨rp₂, hround.last rfl, hparsed, hx⟩

/-- The rounds on an element: they do as it is read, and link it. -/
def Member (body : Nat → Builder) (again ob : Nat) (element : List UInt8 → Read RdbKv) : Prop :=
  ∀ {α : Type} {n : Nat} {kvs : List RdbKv} {rp rp₁ : RdbParser} {bb : List UInt8}
    {Done : α → RdbParser → Prop} {F : RdbKv → List UInt8 → Read α}, AtTop ob rp → kvs.length < n →
    Filling (ob + 1) again n none none kvs rp rp₁ →
    (∀ kv rest rc rp₂,
      (rc = .again ∧ kvs.length + 1 < n ∧ Filling (ob + 1) again n none none (kvs ++ [kv]) rp rp₂ ∨
        rc = .over ∧ kvs.length + 1 = n ∧ Filled (ob + 1) (kvs ++ [kv]) rp rp₂) →
      Linked body (ob + 1) rc rp₂ rest Done (F kv rest)) →
    Follows (ob + 2) (ob + 1) (builderLoop body (ob + 1)) rp₁ bb Done ((element bb).bind F)

/-- Element after element, in the order of the stream. -/
theorem elements_follow (hmember : Member body again ob element) (htop : AtTop ob rp) {j : Nat}
    (hj : kvs.length + (j + 1) = n) (h : Filling (ob + 1) again n none none kvs rp rp₁) :
    Follows (ob + 2) (ob + 1) (builderLoop body (ob + 1)) rp₁ bb
      (fun kvs' rp' => Filled (ob + 1) kvs' rp rp') (readElements element (j + 1) kvs bb) := by
  induction j generalizing kvs rp₁ bb with
  | zero =>
    apply hmember htop (by omega) h
    rintro kv rest rc rp₂ (⟨-, hlt, -⟩ | ⟨rfl, -, hfilled⟩)
    · omega
    · exact ⟨rfl, kvs ++ [kv], rfl, hfilled⟩
  | succ j ih =>
    apply hmember htop (by omega) h
    rintro kv rest rc rp₂ (⟨rfl, -, hfilling⟩ | ⟨-, hlast, -⟩)
    · refine ih ?_ hfilling
      rw [List.length_append, List.length_singleton]
      omega
    · omega

/-- The string of an element that is linked when it is over. -/
theorem link_follows {F : NxStr → List UInt8 → Read α} (htop : AtTop ob rp) (hob : ob + 3 < 2 ^ 8)
    (hlt : kvs.length < n) (h : Filling (ob + 1) state n key none kvs rp rp₁)
    (hbody : ∀ rp', Frame (ob + 2) rp₁ rp' → ∀ bb out, Runs (body (ob + 1)) rp' bb out ↔
      Runs (andThen (buildStringValue (.tmpVal (ob + 1)) (ob + 1)) (linkElement again (ob + 1))) rp' bb
        out)
    (hnext : ∀ val rest rc rp₂,
      (rc = .again ∧ kvs.length + 1 < n ∧
          Filling (ob + 1) again n none none (kvs ++ [⟨key, val⟩]) rp rp₂ ∨
        rc = .over ∧ kvs.length + 1 = n ∧ Filled (ob + 1) (kvs ++ [⟨key, val⟩]) rp rp₂) →
      Linked body (ob + 1) rc rp₂ rest Done (F val rest)) :
    Follows (ob + 2) (ob + 1) (builderLoop body (ob + 1)) rp₁ bb Done ((readString bb).bind F) := by
  have htop₁ := h.atTop htop
  apply (string_follows htop₁ hob (show (StrRef.tmpVal (ob + 1)).Under (ob + 1) from
    Nat.le_refl _)).bind htop₁.stacked (Nat.le_succ _)
  · intro rp' _ hframe
    apply begins_loop.trans
    apply (begins_congr (hbody rp' hframe)).trans
    exact begins_andThen fun _ _ hrc => if_neg hrc
  · rintro val rest rp₂ - hrun hparsed ⟨hnelts, hsame⟩
    have hwith := h.withVal hnelts hsame
    by_cases hmore : kvs.length + 1 < n
    · obtain ⟨rp₃, hlink, hparsed₃, hfilling⟩ := hwith.link again hmore
      refine (hnext val rest .again rp₃ (Or.inl ⟨rfl, hmore, hfilling⟩)).follows ?_ ?_
        (h.frame.join hfilling.frame)
      · exact (hbody rp₁ (Frame.refl _ _) _ _).2 (runs_andThen.2 ⟨.over, rp₂, hrun, hlink⟩)
      · rw [hparsed₃]
        exact hparsed
    · have hlast : kvs.length + 1 = n := by omega
      obtain ⟨rp₃, hlink, hparsed₃, hfilled⟩ := hwith.link_last again hlast
      refine (hnext val rest .over rp₃ (Or.inr ⟨rfl, hlast, hfilled⟩)).follows ?_ ?_
        (h.frame.join hfilled.frame)
      · exact (hbody rp₁ (Frame.refl _ _) _ _).2 (runs_andThen.2 ⟨.over, rp₂, hrun, hlink⟩)
      · rw [hparsed₃]
        exact hparsed

end Elements

section Bodies

variable {ob d : Nat} {rp : RdbParser} {bb : List UInt8} {out : Rc × RdbParser × List UInt8}

theorem listOrSetBody_idle (h : (rp.slots d).state = 0) :
    Runs (listOrSetBody d) rp bb out ↔ containerStoreLen buildListOrSetLoopVal d rp bb = out := by
  rw [listOrSetBody, runs_dispatch]
  simp only [h, buildListOrSetIdle, true_or, if_true]
  exact runs_ofStep

theorem runs_nextElement {state : Nat} {element : Builder}
    (h : (rp.slots d).len < (rp.slots d).storeLen) :
    Runs (nextElement state element d) rp bb out ↔ Runs element rp bb out := by
  rw [nextElement, runs_dispatch]
  simp only [if_pos h]

theorem nextElement_spins {state : Nat} {element : Builder}
    (h : ¬ (rp.slots d).len < (rp.slots d).storeLen) :
    Runs (nextElement state element d) rp bb (.again, rp.setState d state, bb) := by
  rw [nextElement, runs_dispatch]
  simp only [if_neg h]
  exact runs_ofStep.2 rfl

theorem listOrSetBody_loopVal (h : (rp.slots d).state = buildListOrSetLoopVal) :
    Runs (listOrSetBody d) rp bb out ↔ Runs (listOrSetLoopVal d) rp bb out := by
  rw [listOrSetBody, runs_dispatch]
  simp only [h]
  exact Iff.rfl

theorem hashOrZsetBody_idle (h : (rp.slots d).state = 0) :
    Runs (hashOrZsetBody d) rp bb out ↔ containerStoreLen buildHashOrZsetLoopKey d rp bb = out := by
  rw [hashOrZsetBody, runs_dispatch]
  simp only [h, buildHashOrZsetIdle, true_or, if_true]
  exact runs_ofStep

theorem hashOrZsetBody_loopKey (h : (rp.slots d).state = buildHashOrZsetLoopKey) :
    Runs (hashOrZsetBody d) rp bb out ↔ Runs (hashOrZsetLoopKey d) rp bb out := by
  rw [hashOrZsetBody, runs_dispatch]
  simp only [h]
  exact Iff.rfl

theorem hashOrZsetBody_loopVal (h : (rp.slots d).state = buildHashOrZsetLoopVal) :
    Runs (hashOrZsetBody d) rp bb out ↔ Runs (hashOrZsetLoopVal d) rp bb out := by
  rw [hashOrZsetBody, runs_dispatch]
  simp only [h]
  exact Iff.rfl

/-- The parser is where the one before it was: it enters the same state, with as much to do. -/
theorem Filling.chosen {state n : Nat} {key val : NxStr} {kvs : List RdbKv} {rp₁ rp' : RdbParser}
    (h : Filling d state n key val kvs rp rp₁) (hframe : Frame (d + 1) rp₁ rp') :
    (rp'.slots d).state = state ∧ (rp'.slots d).storeLen = n ∧ (rp'.slots d).len = kvs.length := by
  obtain ⟨hstate, hstoreLen, hlen, -⟩ := hframe.chosen
  rw [hstate, hstoreLen, hlen, h.slot]
  exact ⟨rfl, rfl, rfl⟩

theorem member_listOrSet (hob : ob + 3 < 2 ^ 8) :
    Member listOrSetBody buildListOrSetLoopVal ob readMember := by
  intro α n kvs rp rp₁ bb Done F htop hlt h hnext
  rw [readMember, Read.map, Read.bind_bind]
  apply link_follows htop hob hlt h
  · intro rp' hframe bb out
    obtain ⟨hstate, hstoreLen, hlen⟩ := h.chosen hframe
    rw [listOrSetBody_loopVal hstate, listOrSetLoopVal, runs_nextElement (by rw [hlen, hstoreLen]; exact hlt)]
  · exact fun val rest rc rp₂ hlinked => hnext ⟨none, val⟩ rest rc rp₂ hlinked

/-- A pair takes two strings, and the key waits in the builder for the value. -/
theorem member_hashOrZset (hob : ob + 3 < 2 ^ 8) :
    Member hashOrZsetBody buildHashOrZsetLoopKey ob readPair := by
  intro α n kvs rp rp₁ bb Done F htop hlt h hnext
  have htop₁ := h.atTop htop
  have hbody : ∀ rp', Frame (ob + 2) rp₁ rp' → ∀ bb out, Runs (hashOrZsetBody (ob + 1)) rp' bb out ↔
      Runs (andThen (buildStringValue (.tmpKey (ob + 1)) (ob + 1))
        (thenState buildHashOrZsetLoopVal (ob + 1))) rp' bb out := by
    intro rp' hframe bb out
    obtain ⟨hstate, hstoreLen, hlen⟩ := h.chosen hframe
    rw [hashOrZsetBody_loopKey hstate, hashOrZsetLoopKey, runs_nextElement (by rw [hlen, hstoreLen]; exact hlt)]
  rw [readPair, Read.bind_bind]
  apply (string_follows htop₁ hob (show (StrRef.tmpKey (ob + 1)).Under (ob + 1) from
    Nat.le_refl _)).bind htop₁.stacked (Nat.le_succ _)
  · intro rp' _ hframe
    apply begins_loop.trans
    apply (begins_congr (hbody rp' hframe)).trans
    exact begins_andThen fun _ _ hrc => if_neg hrc
  · rintro key rest rp₂ - hrun hparsed ⟨hnelts, hsame⟩
    have hkey := (h.withKey hnelts hsame).setState buildHashOrZsetLoopVal
    have hround : Runs (hashOrZsetBody (ob + 1)) rp₁ bb
        (.again, rp₂.setState (ob + 1) buildHashOrZsetLoopVal, rest) :=
      (hbody rp₁ (Frame.refl _ _) _ _).2 (runs_andThen.2 ⟨.over, rp₂, hrun, rfl⟩)
    refine FollowsBy.round hround hparsed (h.frame.join hkey.frame) ?_
    rw [Read.map, Read.bind_bind]
    apply link_follows htop hob hlt hkey
    · intro rp' hframe bb out
      obtain ⟨hstate, hstoreLen, hlen⟩ := hkey.chosen hframe
      rw [hashOrZsetBody_loopVal hstate, hashOrZsetLoopVal,
        runs_nextElement (by rw [hlen, hstoreLen]; exact hlt)]
    · exact fun val rest rc rp₂ hlinked => hnext ⟨key, val⟩ rest rc rp₂ hlinked

theorem listOrSet_spins (hstate : (rp.slots d).state = buildListOrSetLoopVal)
    (hlen : ¬ (rp.slots d).len < (rp.slots d).storeLen) :
    ¬ Runs (builderLoop listOrSetBody d) rp bb out := by
  apply loop_spins (fun rp _ => (rp.slots d).state = buildListOrSetLoopVal ∧
    ¬ (rp.slots d).len < (rp.slots d).storeLen)
  · rintro rp bb ⟨hstate, hlen⟩
    refine ⟨.again, _, bb, (listOrSetBody_loopVal hstate).2 (nextElement_spins hlen), rfl, ?_⟩
    simp only [RdbParser.setState, RdbParser.write, Function.update_self]
    exact ⟨trivial, hlen⟩
  · exact ⟨hstate, hlen⟩

theorem hashOrZset_spins
    (hstate : (rp.slots d).state = buildHashOrZsetLoopKey ∨ (rp.slots d).state = buildHashOrZsetLoopVal)
    (hlen : ¬ (rp.slots d).len < (rp.slots d).storeLen) :
    ¬ Runs (builderLoop hashOrZsetBody d) rp bb out := by
  apply loop_spins (fun rp _ => ((rp.slots d).state = buildHashOrZsetLoopKey ∨
    (rp.slots d).state = buildHashOrZsetLoopVal) ∧ ¬ (rp.slots d).len < (rp.slots d).storeLen)
  · rintro rp bb ⟨hstate, hlen⟩
    have hround : Runs (hashOrZsetBody d) rp bb (.again, rp.setState d buildHashOrZsetLoopVal, bb) := by
      rcases hstate with hkey | hval
      · exact (hashOrZsetBody_loopKey hkey).2 (nextElement_spins hlen)
      · exact (hashOrZsetBody_loopVal hval).2 (nextElement_spins hlen)
    refine ⟨.again, _, bb, hround, rfl, ?_⟩
    simp only [RdbParser.setState, RdbParser.write, Function.update_self]
    exact ⟨Or.inr trivial, hlen⟩
  · exact ⟨hstate, hlen⟩

/-- A container: one of no elements is never built. -/
theorem container_follows {body : Nat → Builder} {again : Nat} {element : List UInt8 → Read RdbKv}
    (hstart : ∀ {rp bb out}, (rp.slots (ob + 1)).state = 0 →
      (Runs (body (ob + 1)) rp bb out ↔ containerStoreLen again (ob + 1) rp bb = out))
    (hspins : ∀ {rp bb out}, (rp.slots (ob + 1)).state = again →
      ¬ (rp.slots (ob + 1)).len < (rp.slots (ob + 1)).storeLen →
      ¬ Runs (builderLoop body (ob + 1)) rp bb out)
    (hmember : Member body again ob element) (htop : AtTop ob rp) (hob : ob + 1 < 2 ^ 8) :
    Follows (ob + 1) (ob + 1) (obLoop (subDepth ob) body popOver) rp bb
      (fun kvs rp' => rp'.nelts = ob + 1 ∧ Same (ob + 1) { rp with o := rp.o.filled kvs } rp')
      (readContainer element bb) := by
  have hslot := pushed_slot (ob + 1) rp
  apply Follows.popOver (fun kvs rp' => Filled (ob + 1) kvs rp rp') htop hob
  · apply follows_readLen (fun n len => ((pushed (ob + 1) rp).write (ob + 1)
      (filler (ob + 1) again len.2 0 none none)).calcCrc n)
    · intro out
      rw [hstart (by rw [hslot]; rfl), containerStoreLen, hslot]
      cases rdbObjectReadStoreLen bb <;> exact Iff.rfl
    · exact fun _ _ => rfl
    · intro n len
      apply Kept.toFrame
      apply kept_write_calcCrc (Nat.le_refl _)
      rw [hslot]
      rfl
    · intro n len
      have hfilling : Filling (ob + 1) again len.2 none none [] rp
          (((pushed (ob + 1) rp).write (ob + 1) (filler (ob + 1) again len.2 0 none none)).calcCrc n) := by
        refine ⟨rfl, ?_, ?_⟩
        · simp only [RdbParser.calcCrc, RdbParser.write, Function.update_self, List.length_nil]
        · have hsame := ((same_pushed (ob + 1) rp).trans
            (same_write (Nat.le_refl _) (filler (ob + 1) again len.2 0 none none))).calcCrc n
          refine { hsame with o := ?_ }
          simp only [RdbObject.linked, List.append_nil]
          rfl
      by_cases hzero : len.2 = 0
      · rw [if_pos hzero]
        intro out
        apply hspins
        · rw [hfilling.slot]
          rfl
        · rw [hfilling.slot]
          show ¬ 0 < len.2
          omega
      · obtain ⟨j, hj⟩ := Nat.exists_eq_succ_of_ne_zero hzero
        rw [if_neg hzero, hj]
        rw [hj] at hfilling
        exact elements_follow hmember htop (Nat.zero_add _) hfilling
  · rintro kvs rp' hfilled
    obtain ⟨hpop, hnelts⟩ := pop_same rp' hfilled.nelts
    exact ⟨hnelts, hfilled.same.trans hpop⟩

end Bodies

section Values

variable {ob : Nat} {rp : RdbParser} {bb : List UInt8}

theorem compact_follows (load : NxStr → Option (List RdbKv)) (htop : AtTop ob rp)
    (hob : ob + 2 < 2 ^ 8) :
    Follows (ob + 1) (ob + 1) (buildCompactValue load ob) rp bb
      (fun kvs rp' => rp'.nelts = ob + 1 ∧ (rp'.slots ob).control = (rp.slots ob).control ∧
        Same ob { rp with o := rp.o.filled kvs } rp') (readCompact load bb) := by
  apply (string_follows htop hob (show (StrRef.tmpVal ob).Under ob from Nat.le_refl _)).bind
    htop.stacked (Nat.le_refl _)
  · exact fun _ _ _ => begins_andThen fun _ _ hrc => if_neg hrc
  · rintro s rest rp₁ - hrun hparsed ⟨hnelts, hsame⟩
    have hslot : rp₁.slots ob = { rp.slots ob with tmpVal := s } := by
      rw [hsame.slots ob (Nat.lt_succ_self ob)]
      simp only [RdbParser.setStr, RdbParser.write, Function.update_self]
    have ho : rp₁.o = rp.o := hsame.o
    cases hload : load s with
    | none =>
      refine ⟨rp₁, rest, runs_andThen.2 ⟨.over, rp₁, hrun, ?_⟩⟩
      simp only [loadElements, hslot, hload, if_true]
    | some kvs =>
      refine ⟨{ rp₁ with o := rp.o.filled kvs }.write ob { rp₁.slots ob with tmpVal := none },
        runs_andThen.2 ⟨.over, rp₁, hrun, ?_⟩, hparsed, hnelts, ?_, ?_⟩
      · simp only [loadElements, hslot, hload, ho, RdbObject.filled, RdbObject.linked, if_true]
      · simp only [RdbParser.write, Function.update_self, hslot]
        rfl
      · apply Same.trans ?_ (same_write (Nat.le_refl ob) _)
        have hstring := (same_write (Nat.le_refl ob) { rp.slots ob with tmpVal := s }).trans
          (hsame.le (Nat.le_succ ob))
        exact { hstring with o := rfl }

/-- What a value leaves: the builder under it may have lost its strings. -/
structure ValueDone (ob : Nat) (rp : RdbParser) (f : RdbObject → RdbObject) (rp' : RdbParser) : Prop where
  nelts : rp'.nelts = ob + 1
  control : (rp'.slots ob).control = (rp.slots ob).control
  same : Same ob { rp with o := f rp.o } rp'

theorem ValueDone.of_same {f : RdbObject → RdbObject} {rp' : RdbParser} (hnelts : rp'.nelts = ob + 1)
    (hsame : Same (ob + 1) { rp with o := f rp.o } rp') : ValueDone ob rp f rp' :=
  ⟨hnelts, congrArg _ (hsame.slots ob (Nat.lt_succ_self ob)), hsame.le (Nat.le_succ ob)⟩

/-- The types of values in one string, with what takes them apart. -/
inductive Loads : UInt8 → (NxStr → Option (List RdbKv)) → Prop
  | zipmap : Loads rdbTypeHashZipmap loadZipmap
  | list : Loads rdbTypeListZiplist loadZiplistListOrSet
  | intset : Loads rdbTypeSetIntset loadIntset
  | zset : Loads rdbTypeZsetZiplist loadZiplistHashOrZset
  | hash : Loads rdbTypeHashZiplist loadZiplistHashOrZset

theorem loads_of_loaderOf {type : UInt8} {load : NxStr → Option (List RdbKv)}
    (h : loaderOf type = some load) : Loads type load := by
  rw [loaderOf] at h
  split at h
  · next htype =>
    cases h
    exact htype ▸ .zipmap
  · split at h
    · next htype =>
      cases h
      exact htype ▸ .list
    · split at h
      · next htype =>
        cases h
        exact htype ▸ .intset
      · split at h
        · next htype =>
          cases h
          rcases htype with rfl | rfl
          · exact .zset
          · exact .hash
        · cases h

theorem kvValOf_compact {type : UInt8} {load : NxStr → Option (List RdbKv)}
    (h : loaderOf type = some load) (ob : Nat) : kvValOf type ob = buildCompactValue load ob := by
  cases loads_of_loaderOf h with
  | zipmap | list | intset | zset | hash => rfl

theorem readKvVal_compact {type : UInt8} {load : NxStr → Option (List RdbKv)}
    (h : loaderOf type = some load) (bb : List UInt8) :
    readKvVal type bb = (readCompact load bb).map RdbObject.filled := by
  cases loads_of_loaderOf h with
  | zipmap | list | intset | zset | hash => rfl

theorem kvValOf_none {type : UInt8} (hstring : type ≠ rdbTypeString)
    (hlist : ¬ (type = rdbTypeList ∨ type = rdbTypeSet))
    (hhash : ¬ (type = rdbTypeZset ∨ type = rdbTypeHash)) (h : loaderOf type = none) (ob : Nat) :
    kvValOf type ob = ofStep (fail .invalidNbType) := by
  have hzipmap : type ≠ rdbTypeHashZipmap := by
    rintro rfl
    cases h
  have hziplist : type ≠ rdbTypeListZiplist := by
    rintro rfl
    cases h
  have hintset : type ≠ rdbTypeSetIntset := by
    rintro rfl
    cases h
  have hpairs : ¬ (type = rdbTypeZsetZiplist ∨ type = rdbTypeHashZiplist) := by
    rintro (rfl | rfl) <;> cases h
  rw [kvValOf, if_neg hstring, if_neg hlist, if_neg hhash, if_neg hzipmap, if_neg hziplist,
    if_neg hintset, if_neg hpairs]

theorem kvValOf_follows (type : UInt8) (htop : AtTop ob rp) (hob : ob + 3 < 2 ^ 8) :
    Follows (ob + 1) (ob + 1) (kvValOf type ob) rp bb (ValueDone ob rp) (readKvVal type bb) := by
  have hob₂ : ob + 2 < 2 ^ 8 := Nat.lt_of_succ_lt hob
  have hob₁ : ob + 1 < 2 ^ 8 := Nat.lt_of_succ_lt hob₂
  rw [readKvVal]
  by_cases hstring : type = rdbTypeString
  · rw [if_pos hstring, kvValOf, if_pos hstring]
    refine (string_follows htop hob₂ (show StrRef.objectVal.Under ob from trivial)).map ?_
    rintro s rp' ⟨hnelts, hsame⟩
    exact ValueDone.of_same hnelts hsame
  rw [if_neg hstring]
  by_cases hlist : type = rdbTypeList ∨ type = rdbTypeSet
  · rw [if_pos hlist, kvValOf, if_neg hstring, if_pos hlist]
    refine (container_follows listOrSetBody_idle listOrSet_spins (member_listOrSet hob) htop hob₁).map ?_
    rintro kvs rp' ⟨hnelts, hsame⟩
    exact ValueDone.of_same hnelts hsame
  rw [if_neg hlist]
  by_cases hhash : type = rdbTypeZset ∨ type = rdbTypeHash
  · rw [if_pos hhash, kvValOf, if_neg hstring, if_neg hlist, if_pos hhash]
    refine (container_follows hashOrZsetBody_idle (fun h => hashOrZset_spins (Or.inl h))
      (member_hashOrZset hob) htop hob₁).map ?_
    rintro kvs rp' ⟨hnelts, hsame⟩
    exact ValueDone.of_same hnelts hsame
  rw [if_neg hhash]
  cases hloader : loaderOf type with
  | some load =>
    rw [kvValOf_compact hloader]
    refine (compact_follows load htop hob₂).map ?_
    rintro kvs rp' ⟨hnelts, hcontrol, hsame⟩
    exact ⟨hnelts, hcontrol, hsame⟩
  | none =>
    rw [kvValOf_none hstring hlist hhash hloader]
    have hrun : ∀ bb, Runs (ofStep (fail .invalidNbType)) rp bb (.invalidNbType, rp, bb) :=
      fun bb => runs_ofStep.2 rfl
    exact ⟨rp, hrun bb, rfl, htop.stacked, Frame.refl _ _, fun _ => hrun _⟩

/-- A value is built as it is read. -/
theorem value_follows (htop : AtTop ob rp) (hob : ob + 3 < 2 ^ 8) :
    Follows (ob + 1) (ob + 1) (buildObjectDetailKvVal ob) rp bb (ValueDone ob rp)
      (readKvVal rp.o.type bb) := by
  have hchosen : ∀ rp', rp'.o.type = rp.o.type → ∀ bb out,
      Runs (buildObjectDetailKvVal ob) rp' bb out ↔ Runs (kvValOf rp.o.type ob) rp' bb out := by
    intro rp' htype bb out
    rw [buildObjectDetailKvVal, runs_dispatch, htype]
  rw [← (readKvVal rp.o.type bb).bind_done]
  apply (kvValOf_follows rp.o.type htop hob).bind htop.stacked (Nat.le_refl _)
  · intro rp' _ hframe
    exact begins_congr (hchosen rp' hframe.chosen.2.2.2)
  · intro f rest rp' _ hrun hparsed hdone
    exact ⟨rp', (hchosen rp rfl _ _).2 hrun, hparsed, hdone⟩

end Values

end KjRedis.Rdb
