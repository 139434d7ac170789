import KjRedis.Reply.ChunkInvariance
import KjRedis.Reply.Lines
import Mathlib.Data.List.Forall2
import Mathlib.Algebra.Order.BigOperators.Group.List

/-! `CRedisCommandBuilder` and what the reply parser makes of the commands it builds. -/
namespace KjRedis.Reply

/-- What `Build` writes to: the single command, all commands and their number. -/
structure Built where
  sOutSingleCommand : List UInt8
  sOutAllCommands : List UInt8
  nOutBuiltNum : Nat

def star : UInt8 := 42
def dollar : UInt8 := 36

def buildPiece (piece : List UInt8) : List UInt8 :=
  dollar :: (decimal piece.length ++ crlf ++ piece ++ crlf)

def buildCommand (vPiece : List (List UInt8)) : List UInt8 :=
  vPiece.foldl (fun sOutSingleCommand piece => sOutSingleCommand ++ buildPiece piece)
    (star :: (decimal vPiece.length ++ crlf))

def build (vPiece : List (List UInt8)) (out : Built) : Built :=
  let sOutSingleCommand := buildCommand vPiece
  { sOutSingleCommand, sOutAllCommands := out.sOutAllCommands ++ sOutSingleCommand
    nOutBuiltNum := out.nOutBuiltNum + 1 }

def buildAll (cmds : List (List (List UInt8))) : Built :=
  cmds.foldl (fun out vPiece => build vPiece out) ⟨[], [], 0⟩

/-- The bytes of a chain of buffers. -/
def chainText (vall : List NxBuf) : List (Option UInt8) := (vall.map NxBuf.data).flatten

/-- `redis_reply_as_string`: the buffers of the chain, one after the other. -/
def redisReplyAsString (r : RedisReply) : List (Option UInt8) := chainText r.vall

def RedisReply.elements (r : RedisReply) : List RedisReply := r.arrval.getD []

/-- An array reply whose elements are bulk strings with the bytes of the pieces. -/
def IsCommand (vPiece : List (List UInt8)) (r : RedisReply) : Prop :=
  r.type = .array ∧ r.isNull = false ∧
    List.Forall₂ (fun piece e => e.type = .bulkString ∧ e.isNull = false ∧
      e.bytes = piece.length ∧ redisReplyAsString e = piece.map some) vPiece r.elements

/-- Commands, pieces and bytes together. -/
def totalSize (cmds : List (List (List UInt8))) : Nat :=
  (cmds.map fun c => 1 + (c.map fun piece => 1 + piece.length).sum).sum

def commandResp (vPiece : List (List UInt8)) : Resp := .array (vPiece.map .bulk)

theorem render_commandResp (vPiece : List (List UInt8)) :
    IsCommand vPiece (commandResp vPiece).render := by
  have helem : (commandResp vPiece).render.elements = vPiece.map fun p => (Resp.bulk p).render := by
    cases vPiece with
    | nil => rfl
    | cons p ps =>
      simp [commandResp, Resp.render, RedisReply.elements, Resp.renderAll_eq_map]
  refine ⟨Resp.render_type _, ?_, ?_⟩
  · rw [commandResp, Resp.render]
    split <;> rfl
  · rw [helem, List.forall₂_map_right_iff]
    refine List.forall₂_same.2 fun piece _ => ⟨rfl, rfl, rfl, ?_⟩
    simp [Resp.render, redisReplyAsString, chainText]

theorem buildCommand_eq (vPiece : List (List UInt8)) :
    buildCommand vPiece =
      star :: (decimal vPiece.length ++ crlf ++ vPiece.flatMap buildPiece) := by
  have hfold : ∀ (acc : List UInt8) (ps : List (List UInt8)),
      ps.foldl (fun s piece => s ++ buildPiece piece) acc = acc ++ ps.flatMap buildPiece := by
    intro acc ps
    induction ps generalizing acc with
    | nil => simp
    | cons p ps ih => rw [List.foldl_cons, ih, List.flatMap_cons, List.append_assoc]
  rw [buildCommand, hfold, List.cons_append]

theorem buildAll_eq (cmds : List (List (List UInt8))) :
    (buildAll cmds).sOutAllCommands = cmds.flatMap buildCommand ∧
      (buildAll cmds).nOutBuiltNum = cmds.length := by
  have hfold : ∀ (out : Built) (cs : List (List (List UInt8))),
      (cs.foldl (fun out vPiece => build vPiece out) out).sOutAllCommands =
          out.sOutAllCommands ++ cs.flatMap buildCommand ∧
        (cs.foldl (fun out vPiece => build vPiece out) out).nOutBuiltNum =
          out.nOutBuiltNum + cs.length := by
    intro out cs
    induction cs generalizing out with
    | nil => simp
    | cons c cs ih =>
      obtain ⟨h₁, h₂⟩ := ih (build c out)
      rw [List.foldl_cons, h₁, h₂, List.flatMap_cons, List.length_cons]
      refine ⟨?_, ?_⟩
      · rw [build, List.append_assoc]
      · show out.nOutBuiltNum + 1 + cs.length = _
        omega
  obtain ⟨h₁, h₂⟩ := hfold ⟨[], [], 0⟩ cmds
  exact ⟨h₁, h₂.trans (Nat.zero_add _)⟩

private theorem run_length_line {depth n : Nat} {kind : NumKind} (h : n < 2 ^ 31) (rest : List UInt8) :
    Part.run shortTexts depth (.num kind []) (decimal n ++ crlf ++ rest) =
      match Part.ofNum kind (n : Int) with
      | .part p => p.run shortTexts depth rest
      | .value w => .done w rest
      | .wild => .wild := by
  rw [List.append_assoc]
  exact run_number_line (decimal_isNumber n) (by omega) (by omega) (fun _ _ => rfl) rest

theorem toUint32_natCast {n : Nat} (h : n < 2 ^ 32) : toUint32 (n : Int) = n := by
  rw [toUint32]
  omega

theorem run_buildPiece {depth : Nat} (hdepth : depth ≤ maxBuilder) {piece : List UInt8}
    (hlen : piece.length < 2 ^ 31) (rest : List UInt8) :
    Part.run shortTexts depth .type (buildPiece piece ++ rest) = .done (.bulk piece) rest := by
  have hopen : Part.step shortTexts depth .type dollar = .part (.num .bulkLen []) := by
    show Part.opened shortTexts depth .bulkString = _
    exact if_pos (decide_eq_true hdepth)
  have hlen' : Part.ofNum .bulkLen (piece.length : Int) = .part (.payload piece.length []) := by
    rw [Part.ofNum, Part.bulkOfLen, if_neg (by omega), toUint32_natCast (by omega), if_pos (by omega)]
  have hbytes : buildPiece piece ++ rest =
      dollar :: (decimal piece.length ++ crlf ++ (piece ++ crlf ++ rest)) := by
    simp [buildPiece]
  rw [hbytes, Part.run_cons_part hopen, run_length_line hlen, hlen']
  simp only
  rw [Part.run_payload_full (by simp) (by simp [crlf])]
  simp

theorem run_pieces {depth len : Nat} (hdepth : depth + 1 ≤ maxBuilder) (hlen : len < 2 ^ 31 - 1)
    {ps : List (List UInt8)} (hps : ∀ p ∈ ps, p.length < 2 ^ 31) (hne : ps ≠ []) {done : List Resp}
    (hcount : done.length + ps.length = len) (rest : List UInt8) :
    Part.run shortTexts depth (.array len done .type) (ps.flatMap buildPiece ++ rest) =
      .done (.array (done ++ ps.map .bulk)) rest := by
  induction ps generalizing done with
  | nil => exact absurd rfl hne
  | cons p ps ih =>
    simp only [List.length_cons] at hcount
    rw [List.flatMap_cons, List.append_assoc, Part.run_array,
      run_buildPiece hdepth (hps p (by simp))]
    simp only [Part.arrayNext, List.length_append, List.length_singleton]
    rw [if_neg (by omega)]
    cases ps with
    | nil =>
      rw [List.length_nil] at hcount
      rw [if_neg (by omega)]
      rfl
    | cons p' ps =>
      simp only [List.length_cons] at hcount
      rw [if_pos (by omega)]
      simp only
      rw [ih (fun q hq => hps q (by simp [hq])) (by simp)
        (by simp only [List.length_append, List.length_cons, List.length_nil]; omega)]
      simp

theorem run_buildCommand {vPiece : List (List UInt8)} (hcount : vPiece.length < 2 ^ 31 - 1)
    (hps : ∀ p ∈ vPiece, p.length < 2 ^ 31) (rest : List UInt8) :
    Part.run shortTexts 1 .type (buildCommand vPiece ++ rest) = .done (commandResp vPiece) rest := by
  have hopen : Part.step shortTexts 1 .type star = .part (.num .arrayLen []) := rfl
  rw [buildCommand_eq, List.cons_append, Part.run_cons_part hopen, List.append_assoc,
    run_length_line (by omega)]
  cases vPiece with
  | nil => rfl
  | cons p ps =>
    have hpos : Part.ofNum .arrayLen (((p :: ps).length : Nat) : Int) =
        .part (.array (p :: ps).length [] .type) := by
      rw [Part.ofNum, Part.arrayOfLen, if_neg (by omega), if_neg (by simp; omega),
        toUint32_natCast (by omega), if_neg (by simp)]
    rw [hpos]
    simp only
    rw [run_pieces (by decide) hcount hps (by simp) (by simp)]
    rfl

theorem reader_buildCommands {cmds : List (List (List UInt8))}
    (hcount : ∀ c ∈ cmds, c.length < 2 ^ 31 - 1) (hps : ∀ c ∈ cmds, ∀ p ∈ c, p.length < 2 ^ 31) :
    (reader shortTexts).run .type (cmds.flatMap buildCommand) =
      some (.type, cmds.map commandResp) := by
  induction cmds with
  | nil => rfl
  | cons c cmds ih =>
    rw [List.flatMap_cons]
    exact reader_run_done (run_buildCommand (hcount c (by simp)) (hps c (by simp)) _)
      (ih (fun d hd => hcount d (by simp [hd])) fun d hd => hps d (by simp [hd]))

/-- The reader awaits a reply only when it has read everything. -/
theorem run_more_type {env : Envelope} {depth : Nat} {p : Part} {bs : List UInt8}
    (h : p.run env depth bs = .more .type) : p = .type ∧ bs = [] := by
  have hstep : ∀ (p p' : Part) (c : UInt8), p.step env depth c = .part p' → p' ≠ .type := by
    intro p p' c hs
    by_cases hstarted : p.started
    · have := @step_leading env depth p c hstarted
      rw [hs] at this
      rintro rfl
      exact absurd this.2 (by simp [Part.started])
    cases p with
    | type =>
      simp only [Part.step] at hs
      cases hl : (leadingType c).getD .unknown <;> rw [hl] at hs <;> simp only [Part.opened] at hs
      all_goals try split_ifs at hs
      all_goals (cases hs; simp)
    | badType =>
      cases hs
      simp
    | _ => exact absurd rfl hstarted
  induction bs generalizing p with
  | nil => exact ⟨Run.more.inj h, rfl⟩
  | cons c bs ih =>
    cases hs : p.step env depth c with
    | part p' =>
      rw [Part.run_cons_part hs] at h
      exact absurd (ih h).1 (hstep p p' c hs)
    | value v =>
      rw [Part.run_cons_value hs] at h
      cases h
    | wild =>
      rw [Part.run_cons_wild hs] at h
      cases h

theorem totalSize_bounds {cmds : List (List (List UInt8))} (h : totalSize cmds < 2 ^ 31) :
    (∀ c ∈ cmds, c.length < 2 ^ 31 - 1) ∧ ∀ c ∈ cmds, ∀ p ∈ c, p.length < 2 ^ 31 := by
  have hcmd : ∀ c ∈ cmds, 1 + (c.map fun piece => 1 + piece.length).sum < 2 ^ 31 := by
    intro c hc
    refine lt_of_le_of_lt ?_ h
    exact List.single_le_sum (by simp) _ (List.mem_map_of_mem hc)
  refine ⟨fun c hc => ?_, fun c hc p hp => ?_⟩
  · have hlen : c.length ≤ (c.map fun piece => 1 + piece.length).sum := by
      rw [← List.length_map (f := fun piece : List UInt8 => 1 + piece.length)]
      refine List.length_le_sum_of_one_le _ ?_
      intro n hn
      obtain ⟨p, -, rfl⟩ := List.mem_map.1 hn
      omega
    have := hcmd c hc
    omega
  · have hp' : 1 + p.length ≤ (c.map fun piece => 1 + piece.length).sum :=
      List.single_le_sum (by simp) _ (List.mem_map_of_mem hp)
    have := hcmd c hc
    omega

/-- Whatever commands are built and however their bytes are cut, the reply parser
delivers them back, piece by piece, and keeps no byte. -/
theorem parse_buildAll (cmds : List (List (List UInt8))) (hsize : totalSize cmds < 2 ^ 31) :
    (buildAll cmds).nOutBuiltNum = cmds.length ∧
      ∀ chunks : List (List UInt8), chunks.flatten = (buildAll cmds).sOutAllCommands →
        ∃ rrp log rc, Incremental.feedAll feed fresh chunks = some ((rrp, []), log, rc) ∧
          List.Forall₂ IsCommand cmds log := by
  obtain ⟨hall, hnum⟩ := buildAll_eq cmds
  refine ⟨hnum, fun chunks hchunks => ?_⟩
  obtain ⟨hcount, hps⟩ := totalSize_bounds hsize
  have hrun := reader_buildCommands hcount hps
  rw [← hall, ← hchunks] at hrun
  obtain ⟨⟨rrp, bb⟩, hfeed, p, -, hmore, -⟩ :=
    (feed_tracks shortTexts_shallow (Nat.le_refl 2)).feedAll fresh_stands hrun
  obtain ⟨-, rfl⟩ := run_more_type hmore
  refine ⟨rrp, _, _, hfeed, ?_⟩
  rw [List.map_map, List.forall₂_map_right_iff]
  exact List.forall₂_same.2 fun c _ => render_commandResp c

/-- `SET k "\r\n"` and a command without pieces. -/
theorem parse_buildAll_set :
    (buildAll [[[83, 69, 84], [107], [13, 10]], []]).nOutBuiltNum = 2 ∧
      ∀ chunks : List (List UInt8),
        chunks.flatten = (buildAll [[[83, 69, 84], [107], [13, 10]], []]).sOutAllCommands →
          ∃ rrp log rc, Incremental.feedAll feed fresh chunks = some ((rrp, []), log, rc) ∧
            List.Forall₂ IsCommand [[[83, 69, 84], [107], [13, 10]], []] log :=
  parse_buildAll [[[83, 69, 84], [107], [13, 10]], []] (by decide)

end KjRedis.Reply
