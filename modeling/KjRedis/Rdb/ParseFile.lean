import KjRedis.Rdb.FileReader

/-! `rdb_parse_file`: a file goes through the buffer of the parser. -/
namespace KjRedis.Rdb

open Resumption

/-- What the loop goes by. `broke` is set by its `break`. -/
structure FileFeed where
  rp : RdbParser
  inBb : List UInt8
  isEof : Bool
  broke : Bool

/-- What `bip_buf_reserve` grants in the parser's buffer. -/
def reserved (inBb : List UInt8) : Nat := rdbParserInputBipbufSize - inBb.length

/-- A round reads as much of the file as the buffer has room for. -/
def fileRound (cb : List RdbObject → Bool) : Proc Rc FileFeed UInt8 where
  run fuel feed file :=
    let bytes := file.take (reserved feed.inBb)
    if reserved feed.inBb = 0 then some (.premature, { feed with broke := true }, file)
    else if bytes = [] then some (.premature, { feed with isEof := true, broke := true }, file)
    else
      ((rdbParseObjectOnce cb).run fuel feed.rp (feed.inBb ++ bytes)).map fun (rc, rp, inBb) =>
        (rc, { rp, inBb, isEof := bytes.length < reserved feed.inBb, broke := false },
          file.drop (reserved feed.inBb))
  mono h := by
    dsimp only at h ⊢
    split at h
    · next hfull =>
      rw [if_pos hfull]
      exact h
    · next hfull =>
      rw [if_neg hfull]
      split at h
      · next hend =>
        rw [if_pos hend]
        exact h
      · next hend =>
        rw [if_neg hend]
        obtain ⟨mid, hmid, rfl⟩ := Option.map_eq_some_iff.1 h
        exact Option.map_eq_some_iff.2 ⟨mid, (rdbParseObjectOnce cb).mono hmid, rfl⟩

/-- A call that leaves its memory is the last one. -/
def fileGoesOn (rc : Rc) (feed : FileFeed) : Bool :=
  !feed.broke && !feed.isEof && feed.rp.state ≠ .over && rc ≠ .stray

section Rounds

variable (cb : List RdbObject → Bool) {feed feed' : FileFeed} {file rest : List UInt8} {rc : Rc}

/-- The buffer is full, or the file is at its end. -/
theorem runs_fileRound_break (h : reserved feed.inBb = 0 ∨ file = []) :
    ∃ feed', Runs (fileRound cb) feed file (.premature, feed', file) ∧ feed'.broke = true := by
  by_cases hfull : reserved feed.inBb = 0
  · exact ⟨{ feed with broke := true }, ⟨0, if_pos hfull⟩, rfl⟩
  · obtain rfl := h.resolve_left hfull
    refine ⟨{ feed with isEof := true, broke := true }, ⟨0, ?_⟩, rfl⟩
    exact (if_neg hfull).trans (if_pos List.take_nil)

theorem runs_fileRound (h : ¬ (reserved feed.inBb = 0 ∨ file = [])) :
    Runs (fileRound cb) feed file (rc, feed', rest) ↔
      ∃ rp' left, Runs (rdbParseObjectOnce cb) feed.rp (feed.inBb ++ file.take (reserved feed.inBb))
          (rc, rp', left) ∧
        feed' = ⟨rp', left, file.length < reserved feed.inBb, false⟩ ∧
        rest = file.drop (reserved feed.inBb) := by
  rw [not_or] at h
  have hbytes : file.take (reserved feed.inBb) ≠ [] := by
    rw [ne_eq, List.take_eq_nil_iff, not_or]
    exact h
  have hshort : (decide ((file.take (reserved feed.inBb)).length < reserved feed.inBb)) =
      decide (file.length < reserved feed.inBb) := by
    rw [List.length_take, decide_eq_decide]
    omega
  have hrun : ∀ fuel, (fileRound cb).run fuel feed file =
      ((rdbParseObjectOnce cb).run fuel feed.rp (feed.inBb ++ file.take (reserved feed.inBb))).map
        fun (rc, rp, inBb) => (rc, ⟨rp, inBb, file.length < reserved feed.inBb, false⟩,
          file.drop (reserved feed.inBb)) := by
    intro fuel
    rw [← hshort]
    exact (if_neg h.1).trans (if_neg hbytes)
  constructor
  · rintro ⟨fuel, hfuel⟩
    rw [hrun] at hfuel
    obtain ⟨⟨rc', rp', left⟩, honce, heq⟩ := Option.map_eq_some_iff.1 hfuel
    cases heq
    exact ⟨rp', left, ⟨fuel, honce⟩, rfl, rfl⟩
  · rintro ⟨rp', left, ⟨fuel, honce⟩, rfl, rfl⟩
    refine ⟨fuel, ?_⟩
    rw [hrun, honce]
    rfl

end Rounds

section Aborts

variable (cb : List RdbObject → Bool)

def Origin.walked : Origin → List RdbObject
  | start walked => walked
  | refused walked _ => walked

end Aborts

section Errors

variable (cb : List RdbObject → Bool) {rc : Rc} {rp : RdbParser} {left : List UInt8}

/-- An error that every further call meets again. -/
def Stuck (rc : Rc) (rp : RdbParser) (left : List UInt8) : Prop :=
  rc.isError = true ∧ ∀ more, Runs (rdbParseObjectOnce cb) rp (left ++ more) (rc, rp, left ++ more)

theorem Stuck.state (h : Stuck cb rc rp left) : rp.state ≠ .over := by
  intro hover
  cases (h.2 []).unique (runs_of_over cb hover).1
  cases h.1

theorem Stuck.goesOn (h : Stuck cb rc rp left) (inBb : List UInt8) (isEof : Bool) :
    fileGoesOn rc ⟨rp, inBb, isEof, false⟩ = !isEof := by
  have hstray : rc ≠ .stray := by
    rintro rfl
    cases h.1
  simp [fileGoesOn, h.state, hstray]

/-- It is what the loop ends with if what is left of the file is no more than goes into the buffer at
once, and not nothing. -/
theorem Stuck.ends (h : Stuck cb rc rp left) {file : List UInt8} (hpos : 0 < file.length)
    (hshort : file.length < reserved left) :
    Runs (fileRound cb) ⟨rp, left, false, false⟩ file (rc, ⟨rp, left ++ file, true, false⟩, []) := by
  have hbreak : ¬ (reserved left = 0 ∨ file = []) := by
    rintro (hzero | rfl)
    · omega
    · exact absurd hpos (Nat.lt_irrefl 0)
  refine (runs_fileRound cb hbreak).2 ⟨rp, left ++ file, ?_, ?_, ?_⟩
  · rw [List.take_of_length_le (Nat.le_of_lt hshort)]
    exact h.2 file
  · rw [decide_eq_true hshort]
  · rw [List.drop_of_length_le (Nat.le_of_lt hshort)]

/-- Otherwise it ends without one. -/
theorem Stuck.lost (h : Stuck cb rc rp left) {file : List UInt8}
    (hlong : ¬ (0 < file.length ∧ file.length < reserved left)) :
    ∃ feed rest, Runs (loop fileGoesOn (fileRound cb)) ⟨rp, left, false, false⟩ file
      (.premature, feed, rest) := by
  have hbroken : ∀ {feed : FileFeed} {file : List UInt8}, reserved feed.inBb = 0 ∨ file = [] →
      ∃ feed' rest, Runs (loop fileGoesOn (fileRound cb)) feed file (.premature, feed', rest) := by
    intro feed file hbreak
    obtain ⟨feed', hrun, hbroke⟩ := runs_fileRound_break cb hbreak
    refine ⟨feed', file, hrun.last ?_⟩
    simp [fileGoesOn, hbroke]
  by_cases hbreak : reserved left = 0 ∨ file = []
  · exact hbroken hbreak
  · rw [not_or] at hbreak
    have hfull : ¬ file.length < reserved left :=
      fun hshort => hlong ⟨List.length_pos_iff.2 hbreak.2, hshort⟩
    have hround : Runs (fileRound cb) ⟨rp, left, false, false⟩ file
        (rc, ⟨rp, left ++ file.take (reserved left), false, false⟩, file.drop (reserved left)) := by
      refine (runs_fileRound cb (not_or.2 hbreak)).2 ⟨rp, _, h.2 _, ?_, rfl⟩
      rw [decide_eq_false hfull]
    have hroom : reserved (left ++ file.take (reserved left)) = 0 := by
      have hsize : reserved left = rdbParserInputBipbufSize - left.length := rfl
      rw [reserved, List.length_append, List.length_take]
      omega
    obtain ⟨feed', rest, hrun⟩ := @hbroken ⟨rp, left ++ file.take (reserved left), false, false⟩
      (file.drop (reserved left)) (Or.inl hroom)
    exact ⟨feed', rest, hround.more (h.goesOn cb _ false) hrun⟩

end Errors

section Runs

variable (cb : List RdbObject → Bool)

variable {feed feed' : FileFeed} {file rest : List UInt8} {rc : Rc}

section Round

variable {rp t : RdbParser} {left left' : List UInt8}

end Round

theorem Fresh.at {rp : RdbParser} (h : Fresh rp) (inBb : List UInt8) :
    Reading.At cb (.within (.start rp.walked) inBb) rp inBb :=
  ⟨rp, h.holds, fun _ _ => Iff.rfl⟩

end Runs

end KjRedis.Rdb
