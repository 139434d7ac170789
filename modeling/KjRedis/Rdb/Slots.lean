import KjRedis.Rdb.Suspension

/-! Builders on slots of their own: what they leave alone, and what a pop leaves of them. -/
namespace KjRedis.Rdb

open Resumption

/-- The parsers are the same but for the slots from `m` on, their number and what has been parsed. -/
structure Same (m : Nat) (rp rp' : RdbParser) : Prop where
  slots : ∀ i < m, rp'.slots i = rp.slots i
  o : rp'.o = rp.o
  walked : rp'.walked = rp.walked
  state : rp'.state = rp.state
  version : rp'.version = rp.version

/-- The builder on slot `ob` is the last one. -/
structure AtTop (ob : Nat) (rp : RdbParser) : Prop where
  nelts : rp.nelts = ob + 1
  depths : ∀ i ≤ ob, (rp.slots i).depth = i

section Slots

variable {m ob d : Nat} {rp rp' rp'' : RdbParser} {b : RdbObjectBuilder} {bb rest : List UInt8}

theorem Same.refl (m : Nat) (rp : RdbParser) : Same m rp rp :=
  ⟨fun _ _ => rfl, rfl, rfl, rfl, rfl⟩

theorem Same.trans (h : Same m rp rp') (h' : Same m rp' rp'') : Same m rp rp'' where
  slots i hi := (h'.slots i hi).trans (h.slots i hi)
  o := h'.o.trans h.o
  walked := h'.walked.trans h.walked
  state := h'.state.trans h.state
  version := h'.version.trans h.version

theorem Same.le {n : Nat} (h : Same n rp rp') (hle : m ≤ n) : Same m rp rp' :=
  { h with slots := fun i hi => h.slots i (Nat.lt_of_lt_of_le hi hle) }

theorem Same.calcCrc (h : Same m rp rp') (n : Nat) : Same m rp (rp'.calcCrc n) :=
  ⟨h.slots, h.o, h.walked, h.state, h.version⟩

theorem Same.frame (h : Same m rp rp') : Frame m rp rp' where
  state := h.state
  type _ := congrArg RdbObject.type h.o
  walked _ := h.walked
  control i hi := congrArg RdbObjectBuilder.control (h.slots i hi)

theorem same_write (hle : m ≤ d) (b : RdbObjectBuilder) : Same m rp (rp.write d b) where
  slots i hi := by
    simp only [RdbParser.write, Function.update_of_ne (Nat.ne_of_lt (Nat.lt_of_lt_of_le hi hle))]
  o := rfl
  walked := rfl
  state := rfl
  version := rfl

theorem same_nelts (n : Nat) : Same m rp { rp with nelts := n } :=
  ⟨fun _ _ => rfl, rfl, rfl, rfl, rfl⟩

theorem AtTop.stacked (h : AtTop ob rp) : Stacked (ob + 1) rp where
  room := Nat.le_of_eq h.nelts.symm
  depths i hi := by
    rw [h.nelts] at hi
    exact h.depths i (Nat.le_of_lt_succ hi)

/-- What `stack_alloc_object_builder` leaves when it pushes on slot `d`. -/
def pushed (d : Nat) (rp : RdbParser) : RdbParser :=
  { rp.write d { RdbObjectBuilder.zero with depth := d } with nelts := d + 1 }

theorem pushed_slot (d : Nat) (rp : RdbParser) :
    (pushed d rp).slots d = { RdbObjectBuilder.zero with depth := d } := by
  simp [pushed, RdbParser.write]

theorem same_pushed (d : Nat) (rp : RdbParser) : Same d rp (pushed d rp) :=
  (same_write (Nat.le_refl d) _).trans (same_nelts _)

theorem AtTop.pushed (h : AtTop ob rp) : AtTop (ob + 1) (pushed (ob + 1) rp) where
  nelts := rfl
  depths i hi := by
    rcases Nat.lt_or_eq_of_le hi with hlt | rfl
    · rw [(same_pushed (ob + 1) rp).slots i hlt]
      exact h.depths i (Nat.le_of_lt_succ hlt)
    · rw [pushed_slot]

theorem pop_same (rp : RdbParser) (hnelts : rp.nelts = ob + 2) :
    Same (ob + 1) rp rp.stackPopObjectBuilder ∧ rp.stackPopObjectBuilder.nelts = ob + 1 := by
  constructor
  · refine (same_write ?_ _).trans (same_nelts _)
    omega
  · rw [RdbParser.stackPopObjectBuilder, hnelts]
    rfl

/-- A builder's loop over a slot that it pushes and pops. -/
theorem runs_popOver {body : Nat → Builder} {rc : Rc} (htop : AtTop ob rp) (hob : ob + 1 < 2 ^ 8)
    (hloop : Runs (loop (fun rc _ => rc = .again) (body (ob + 1))) (pushed (ob + 1) rp) bb
      (rc, rp', rest)) :
    Runs (obLoop (subDepth ob) body popOver) rp bb
      ((popOver (ob + 1) rc rp').1, (popOver (ob + 1) rc rp').2, rest) := by
  have halloc : rp.stackAllocObjectBuilder (subDepth ob rp) = (ob + 1, pushed (ob + 1) rp) := by
    rw [subDepth, htop.depths ob (Nat.le_refl ob)]
    exact stackAllocObjectBuilder_of_eq hob htop.nelts
  rw [obLoop, runs_after, halloc, runs_andThen]
  exact ⟨rc, rp', hloop, rfl⟩

end Slots

/-- The string is not one of the slots over `ob`. -/
def StrRef.Under (ob : Nat) : StrRef → Prop
  | tmpKey o => o ≤ ob
  | tmpVal o => o ≤ ob
  | _ => True

section StrRefs

variable {ob d : Nat} {val : StrRef} {rp rp' : RdbParser}

theorem same_setStr (hval : val.Under ob) (h : Same (ob + 1) rp rp') (s : NxStr) :
    Same (ob + 1) (rp.setStr s val) (rp'.setStr s val) := by
  cases val with
  | auxKey | auxVal | objectKey | objectVal =>
    refine { h with o := ?_ }
    simp only [RdbParser.setStr, h.o]
  | tmpKey o | tmpVal o =>
    refine { h with slots := ?_ }
    intro i hi
    simp only [RdbParser.setStr, RdbParser.write, Function.update_apply, h.slots i hi,
      h.slots o (Nat.lt_succ_of_le hval)]

theorem same_str (hval : val.Under ob) (h : Same (ob + 1) rp rp') : rp'.str val = rp.str val := by
  cases val with
  | auxKey | auxVal | objectKey | objectVal => simp only [RdbParser.str, h.o]
  | tmpKey o | tmpVal o => simp only [RdbParser.str, h.slots o (Nat.lt_succ_of_le hval)]

theorem StrRef.Under.succ (hval : val.Under ob) : val.Under (ob + 1) := by
  cases val with
  | auxKey | auxVal | objectKey | objectVal => trivial
  | tmpKey o | tmpVal o => exact Nat.le_succ_of_le hval

theorem slots_setStr (hval : val.Under ob) (hd : ob < d) (s : NxStr) :
    (rp.setStr s val).slots d = rp.slots d := by
  cases val with
  | auxKey | auxVal | objectKey | objectVal => rfl
  | tmpKey o | tmpVal o =>
    have ho : o ≤ ob := hval
    simp only [RdbParser.setStr, RdbParser.write, Function.update_of_ne (show d ≠ o by omega)]

theorem nelts_setStr (s : NxStr) : (rp.setStr s val).nelts = rp.nelts := by
  cases val <;> rfl

theorem parsed_setStr (s : NxStr) : (rp.setStr s val).parsed = rp.parsed := by
  cases val <;> rfl

end StrRefs

end KjRedis.Rdb
