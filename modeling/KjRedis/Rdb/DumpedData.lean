import KjRedis.Lib.Refill
import KjRedis.Rdb.DumpReader
import KjRedis.Rdb.Values

/-! `rdb_parse_dumped_data`: a dump goes through the buffer of the parser. -/
namespace KjRedis.Rdb

open Resumption

/-- The version and the checksum at the end of a dump. -/
def dumpTrailerSize : Nat := 10

/-- All but the trailer of `s`, which is no shorter than one, is copied into the buffer, as much as it has
room for, before each call. Where there is nothing to copy no call is made, and `rc` is not initialised. -/
def rdbParseDumpedData (cb : List RdbObject → Bool) (fuel : Nat) (rp : RdbParser) (s : List UInt8) :
    Option (Option Rc × RdbParser) :=
  let remain := s.length - dumpTrailerSize
  if 0 < remain then
    ((refills .stray rdbParserInputBipbufSize (rdbParseDumpedDataOnce cb)).run fuel
      ⟨resetRdbParser rp, [], remain⟩ s).map fun (rc, feed, _) => (some rc, feed.state)
  else some (none, resetRdbParser rp)

section Calls

variable (cb : List RdbObject → Bool) {rp : RdbParser} {bb : List UInt8}

theorem awaits_resetRdbParser (rp : RdbParser) : Awaits (resetRdbParser rp) := ⟨rfl, Or.inl rfl⟩

/-- A call comes back on no other code than these, with next to nothing left. -/
theorem dumpedDataOnce_codes {g : Origin} (h : g.Stands rp) (hstate : rp.state ≠ .over) {code : Rc}
    {t : RdbParser} {left : List UInt8} (hrun : Runs (rdbParseDumpedDataOnce cb) rp bb (code, t, left)) :
    (code = .premature ∧ left.length < 9 ∧ ∃ left', readDumps cb g bb = .more left') ∨ code = .stray := by
  have hanswers := @dumps_answer cb rp bb g h hstate
  cases hread : readDumps cb g bb with
  | done x rest => exact x.elim
  | more left' =>
    rw [hread] at hanswers
    obtain ⟨t', hrun', hleft⟩ := hanswers
    cases hrun.unique hrun'
    exact Or.inl ⟨rfl, hleft, left, rfl⟩
  | stray =>
    rw [hread] at hanswers
    obtain ⟨t', left', hrun'⟩ := hanswers
    cases hrun.unique hrun'
    exact Or.inr rfl
  | fail | endless =>
    rw [hread] at hanswers
    exact absurd hrun (hanswers _)

theorem dumpedDataOnce_waits_iff {g : Origin} (h : g.Stands rp) (hstate : rp.state ≠ .over) :
    (∃ t left, Runs (rdbParseDumpedDataOnce cb) rp bb (.premature, t, left)) ↔
      ∃ left, readDumps cb g bb = .more left := by
  constructor
  · rintro ⟨t, left, hrun⟩
    rcases dumpedDataOnce_codes cb h hstate hrun with ⟨-, -, hread⟩ | hstray
    · exact hread
    · cases hstray
  · rintro ⟨left, hread⟩
    have hanswers := @dumps_answer cb rp bb g h hstate
    rw [hread] at hanswers
    obtain ⟨t, hrun, -⟩ := hanswers
    exact ⟨t, left, hrun⟩

end Calls

section Payloads

variable (cb : List RdbObject → Bool) (rp : RdbParser) {s : List UInt8}

/-- What a call on all of the payload comes to, the calls on its parts do. -/
theorem rdbParseDumpedData_ends (hlen : dumpTrailerSize < s.length) {t : RdbParser} {left : List UInt8}
    (hwhole : Runs (rdbParseDumpedDataOnce cb) (resetRdbParser rp) (s.take (s.length - dumpTrailerSize))
      (.premature, t, left)) : ∃ fuel, rdbParseDumpedData cb fuel rp s = some (some .premature, t) := by
  have hpos : 0 < s.length - dumpTrailerSize := Nat.sub_pos_of_lt hlen
  have hawaits := awaits_resetRdbParser rp
  have hstands : (Origin.start rp.walked).Stands (resetRdbParser rp) := ⟨hawaits, rfl⟩
  have hroom : ∀ bytes t' left', Runs (rdbParseDumpedDataOnce cb) (resetRdbParser rp) bytes
      (.premature, t', left') → left'.length < rdbParserInputBipbufSize := by
    intro bytes t' left' hrun
    rcases dumpedDataOnce_codes cb hstands ParseRdb.noConfusion hrun with ⟨-, hleft, -⟩ | hstray
    · exact Nat.lt_trans hleft (by decide)
    · cases hstray
  obtain ⟨fuel, hfuel⟩ := (lawful_rdbParseDumpedDataOnce cb).refills_ends hawaits.stacked
    (show Rc.premature ≠ Rc.stray from Rc.noConfusion) hroom
    (Lawful.caught_start _ _ (s.length - dumpTrailerSize)) (Nat.succ_pos 4095) hpos hwhole
  refine ⟨fuel, ?_⟩
  rw [rdbParseDumpedData]
  dsimp only
  rw [if_pos hpos, hfuel]
  rfl

/-- And nothing else. -/
theorem of_rdbParseDumpedData (hlen : dumpTrailerSize < s.length) {fuel : Nat} {rc : Option Rc}
    {t : RdbParser} (hrun : rdbParseDumpedData cb fuel rp s = some (rc, t)) (hrc : rc ≠ some .stray) :
    rc = some .premature ∧ ∃ left, Runs (rdbParseDumpedDataOnce cb) (resetRdbParser rp)
      (s.take (s.length - dumpTrailerSize)) (.premature, t, left) := by
  have hpos : 0 < s.length - dumpTrailerSize := Nat.sub_pos_of_lt hlen
  have hawaits := awaits_resetRdbParser rp
  have hstands : (Origin.start rp.walked).Stands (resetRdbParser rp) := ⟨hawaits, rfl⟩
  have hcodes : ∀ bytes code t' left', Runs (rdbParseDumpedDataOnce cb) (resetRdbParser rp) bytes
      (code, t', left') → code = .premature ∨ code = .stray := by
    intro bytes code t' left' hrun
    exact (dumpedDataOnce_codes cb hstands ParseRdb.noConfusion hrun).imp_left And.left
  rw [rdbParseDumpedData] at hrun
  dsimp only at hrun
  rw [if_pos hpos] at hrun
  obtain ⟨⟨code, feed, rest⟩, hfuel, heq⟩ := Option.map_eq_some_iff.1 hrun
  cases heq
  obtain ⟨hcode, hwhole⟩ := (lawful_rdbParseDumpedDataOnce cb).of_refills hawaits.stacked hcodes
    (Lawful.caught_start _ _ (s.length - dumpTrailerSize)) ⟨fuel, hfuel⟩ fun h => hrc (congrArg some h)
  exact ⟨congrArg some hcode, feed.buffer, hwhole⟩

theorem rdbParseDumpedData_nothing (hlen : s.length = dumpTrailerSize) (fuel : Nat) :
    rdbParseDumpedData cb fuel rp s = some (none, resetRdbParser rp) := by
  rw [rdbParseDumpedData]
  dsimp only
  rw [hlen, Nat.sub_self, if_neg (Nat.lt_irrefl 0)]

/-- It returns if the payload is value after value, the last one of them cut short anywhere. -/
theorem dumpedData_returns_iff (hlen : dumpTrailerSize ≤ s.length) :
    (∃ fuel rc t, rdbParseDumpedData cb fuel rp s = some (rc, t) ∧ rc ≠ some .stray) ↔
      ∃ left, readDumps cb (.start rp.walked) (s.take (s.length - dumpTrailerSize)) = .more left := by
  have hstands : (Origin.start rp.walked).Stands (resetRdbParser rp) := ⟨awaits_resetRdbParser rp, rfl⟩
  rcases Nat.eq_or_lt_of_le hlen with hlen | hlen
  · constructor
    · intro _
      refine ⟨[], ?_⟩
      rw [← hlen, Nat.sub_self, List.take_zero, readDumps_eq]
      rfl
    · intro _
      exact ⟨0, none, _, rdbParseDumpedData_nothing cb rp hlen.symm 0, nofun⟩
  · rw [← dumpedDataOnce_waits_iff cb hstands ParseRdb.noConfusion]
    constructor
    · rintro ⟨fuel, rc, t, hrun, hrc⟩
      obtain ⟨-, left, hwhole⟩ := of_rdbParseDumpedData cb rp hlen hrun hrc
      exact ⟨t, left, hwhole⟩
    · rintro ⟨t, left, hwhole⟩
      obtain ⟨fuel, hrun⟩ := rdbParseDumpedData_ends cb rp hlen hwhole
      exact ⟨fuel, _, t, hrun, by decide⟩

end Payloads

def dumpTrailer : List UInt8 := [6, 0, 0, 0, 0, 0, 0, 0, 0, 0]

/-- The string `a`. -/
theorem dumpedData_returns_iff_string :
    (∃ fuel rc t, rdbParseDumpedData (fun _ => true) fuel createRdbParser ([0, 1, 97] ++ dumpTrailer) =
      some (rc, t) ∧ rc ≠ some .stray) ↔
        ∃ left, readDumps (fun _ => true) (.start []) [0, 1, 97] = .more left :=
  dumpedData_returns_iff (fun _ => true) createRdbParser (by decide)

/-- A type that is not supported. -/
theorem not_dumpedData_returns : ¬ ∀ (cb : List RdbObject → Bool) (rp : RdbParser) (s : List UInt8),
    dumpTrailerSize ≤ s.length →
    ∃ fuel rc t, rdbParseDumpedData cb fuel rp s = some (rc, t) ∧ rc ≠ some .stray := by
  intro h
  obtain ⟨fuel, rc, t, hrun, hrc⟩ := h (fun _ => true) createRdbParser (14 :: dumpTrailer) (by decide)
  obtain ⟨-, left, hwhole⟩ := of_rdbParseDumpedData (fun _ => true) createRdbParser (by decide) hrun hrc
  have hread : readDumps (fun _ => true) (.start []) [14] = .fail .invalidNbType [] := by
    rw [readDumps_eq]
    rfl
  have hanswers := @dumps_answer (fun _ => true) (resetRdbParser createRdbParser) [14] (.start [])
    ⟨awaits_resetRdbParser _, rfl⟩ ParseRdb.noConfusion
  rw [hread] at hanswers
  exact hanswers _ hwhole

section Outcome

variable (v : RdbValue) (rp : RdbParser)

/-- The value that is not whole is not handed out. -/
theorem dumpedDataOnce_short (cb : List RdbObject → Bool) {n : Nat} (hn : n < v.encode.length) :
    ∃ t left, Runs (rdbParseDumpedDataOnce cb) (resetRdbParser rp) (v.type :: v.encode.take n)
      (.premature, t, left) ∧ t.walked = rp.walked := by
  obtain ⟨rp₁, hentered⟩ := (awaits_resetRdbParser rp).enter
  have htop : AtTop 0 (typed v.type rp₁) := hentered.top.typed v.type
  have hvalue := @value_follows 0 (typed v.type rp₁) (v.encode ++ []) htop (by decide)
  have hread : readKvVal (typed v.type rp₁).o.type (v.encode ++ []) = _ := readKvVal_encode v []
  rw [hread, List.append_nil] at hvalue
  obtain ⟨t₁, hrun, -, -⟩ := hvalue
  have hlaw := @lawful_buildObjectDetailKvVal 0 (by decide)
  obtain ⟨t, left, hshort⟩ := hlaw.waits_before htop.stacked hrun hn
  have hbody : Runs (dumpedDataBody cb 0) (typed v.type rp₁) (v.encode.take n) (.premature, t, left) := by
    rw [dumpedDataBody_val cb (by rw [typed_slot])]
    exact runs_andThen.2 ⟨.premature, t, hshort, rfl⟩
  have hfirst : Runs (dumpedDataBody cb 0) rp₁ (v.type :: v.encode.take n)
      (.again, typed v.type rp₁, v.encode.take n) := (dumpedDataBody_idle cb hentered.builder).2 rfl
  have hloop : Runs (builderLoop (dumpedDataBody cb) 0) rp₁ (v.type :: v.encode.take n)
      (.premature, t, left) := hfirst.more rfl (hbody.last rfl)
  refine ⟨t, left, ?_, ?_⟩
  · rw [runs_dumpedDataOnce cb ParseRdb.noConfusion]
    exact (buildDumpedData_runs cb hentered.alloc Rc.noConfusion hloop).last rfl
  · exact ((hlaw.waits htop.stacked hshort).walked Nat.one_pos).trans hentered.same.walked

/-- What the caller is told of a payload of `v`, cut behind `n` bytes: of the whole value that it is
over, of less of it that it is not. -/
def Told (trailer : List UInt8) (n : Nat) : Prop :=
  ∃ fuel rc t, rdbParseDumpedData (fun _ => true) fuel rp ((v.type :: v.encode).take n ++ trailer) =
    some (rc, t) ∧
    if n = (v.type :: v.encode).length then
      rc = some .over ∧ t.walked = rp.walked ++ [v.object { RdbObject.init with type := v.type }]
    else t.walked = rp.walked ∧ ∃ code, rc = some code ∧ code ≠ .over

theorem length_payload {trailer : List UInt8} (htrailer : trailer.length = dumpTrailerSize) {n : Nat}
    (hn : n ≤ (v.type :: v.encode).length) :
    ((v.type :: v.encode).take n ++ trailer).length = n + dumpTrailerSize := by
  rw [List.length_append, List.length_take, Nat.min_eq_left hn, htrailer]

/-- Behind the whole value the call waits for another one. -/
theorem not_told_whole {trailer : List UInt8} (htrailer : trailer.length = dumpTrailerSize) :
    ¬ Told v rp trailer (v.type :: v.encode).length := by
  rintro ⟨fuel, rc, t, hrun, htold⟩
  rw [if_pos rfl] at htold
  have hlong : dumpTrailerSize <
      ((v.type :: v.encode).take (v.type :: v.encode).length ++ trailer).length := by
    rw [length_payload v htrailer (Nat.le_refl _)]
    exact Nat.lt_add_of_pos_left (Nat.succ_pos _)
  have hrc : rc ≠ some .stray := by
    rw [htold.1]
    decide
  have hcode := (of_rdbParseDumpedData _ rp hlong hrun hrc).1
  rw [htold.1] at hcode
  cases hcode

/-- A payload that is cut behind its first byte, and no other. -/
theorem told_iff {trailer : List UInt8} (htrailer : trailer.length = dumpTrailerSize) {n : Nat}
    (hn : n ≤ (v.type :: v.encode).length) :
    Told v rp trailer n ↔ 0 < n ∧ n < (v.type :: v.encode).length := by
  have hlength := length_payload v htrailer hn
  constructor
  · intro htold
    refine ⟨Nat.pos_of_ne_zero ?_, Nat.lt_of_le_of_ne hn ?_⟩
    · rintro rfl
      obtain ⟨fuel, rc, t, hrun, htold⟩ := htold
      rw [if_neg (show 0 ≠ (v.type :: v.encode).length from (Nat.succ_ne_zero _).symm)] at htold
      rw [rdbParseDumpedData_nothing _ rp hlength] at hrun
      obtain ⟨-, code, hcode, -⟩ := htold
      cases hrun
      cases hcode
    · rintro rfl
      exact not_told_whole v rp htrailer htold
  · rintro ⟨hpos, hlt⟩
    obtain ⟨k, rfl⟩ := Nat.exists_eq_add_one_of_ne_zero (Nat.ne_of_gt hpos)
    have hk : k < v.encode.length := Nat.lt_of_succ_lt_succ hlt
    obtain ⟨t, left, hrun, hwalked⟩ := dumpedDataOnce_short v rp (fun _ => true) hk
    have hpayload : ((v.type :: v.encode).take (k + 1) ++ trailer).take
        (((v.type :: v.encode).take (k + 1) ++ trailer).length - dumpTrailerSize) =
          v.type :: v.encode.take k := by
      rw [hlength, Nat.add_sub_cancel, List.take_left' (List.length_take_of_le hn), List.take_succ_cons]
    have hlong : dumpTrailerSize < ((v.type :: v.encode).take (k + 1) ++ trailer).length := by
      rw [hlength]
      exact Nat.lt_add_of_pos_left hpos
    rw [← hpayload] at hrun
    obtain ⟨fuel, hfuel⟩ := rdbParseDumpedData_ends (fun _ => true) rp hlong hrun
    refine ⟨fuel, some .premature, t, hfuel, ?_⟩
    rw [if_neg (Nat.ne_of_lt hlt)]
    exact ⟨hwalked, .premature, rfl, Rc.noConfusion⟩

theorem told_iff_letter : Told (.string letter) createRdbParser dumpTrailer 2 :=
  (told_iff (.string letter) createRdbParser (by decide) (by decide)).2 (by decide)

theorem not_told : ¬ ∀ (v : RdbValue) (rp : RdbParser) (trailer : List UInt8) (n : Nat),
    trailer.length = dumpTrailerSize → n ≤ (v.type :: v.encode).length → Told v rp trailer n :=
  fun h => not_told_whole (.string letter) createRdbParser (by decide)
    (h (.string letter) createRdbParser dumpTrailer 3 (by decide) (by decide))

end Outcome

end KjRedis.Rdb
