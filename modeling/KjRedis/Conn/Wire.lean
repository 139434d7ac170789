import KjRedis.Reply.Encoding
import KjRedis.Conn.ReplyBuilder

/-! Replies on the wire: a stream of plain replies comes out of `KjReplyBuilder` as these
replies, in chunks that cut no line of text where its pieces would overlap. -/
namespace KjRedis.Conn

open KjRedis.Reply
open KjRedis.Reply.Part

/-- Texts of at most one buffer. -/
def wholeTexts : Envelope where
  textMax := simpleStringTempBuffSize
  textOk _ := true
  numOk _ _ := true
  opens depth _ := depth ≤ maxBuilder

mutual

/-- A reply the parser delivers as it is: lines of text are no longer than one buffer and
hold no CR, no builder opens beyond the stack's first storage, and lengths are counted
without loss. `depth` is that of the reply's builder. -/
def plain : Resp → Nat → Bool
  | .text _ bytes, depth => depth ≤ maxBuilder && bytes.length ≤ simpleStringTempBuffSize && !bytes.contains cr
  | .int v, _ => -2 ^ 63 ≤ v && v < 2 ^ 63
  | .nullBulk, depth => depth ≤ maxBuilder
  | .bulk bytes, depth => depth ≤ maxBuilder && bytes.length < 2 ^ 32 - 3
  | .nullArray, depth => depth ≤ maxBuilder
  | .array elems, depth =>
    depth ≤ maxBuilder && elems.length < 2 ^ 31 - 1 && allPlain elems (depth + 1)

def allPlain : List Resp → Nat → Bool
  | [], _ => true
  | v :: vs, depth => plain v depth && allPlain vs depth

end

theorem wholeTexts_shallow : wholeTexts.Shallow where
  text := Nat.le_refl _
  opens h := of_decide_eq_true h

theorem wholeTexts_admitsLine (kind : NumKind) (v : Int) : wholeTexts.AdmitsLine kind v := fun _ _ => rfl

mutual

theorem plain_admitted : ∀ (v : Resp) {depth : Nat}, plain v depth → v.Admitted wholeTexts depth
  | .text isError bytes, depth, h => by
    simp only [plain, Bool.and_eq_true, decide_eq_true_eq, Bool.not_eq_true'] at h
    refine ⟨decide_eq_true h.1.1, h.1.2, fun c hc => ⟨?_, rfl⟩⟩
    rintro rfl
    rw [List.contains_iff_mem.2 hc] at h
    cases h.2
  | .int v, depth, h => by
    rw [plain, Bool.and_eq_true, decide_eq_true_eq, decide_eq_true_eq] at h
    exact ⟨h, wholeTexts_admitsLine _ _⟩
  | .nullBulk, depth, h => ⟨h, wholeTexts_admitsLine _ _⟩
  | .bulk bytes, depth, h => by
    rw [plain, Bool.and_eq_true] at h
    exact ⟨h.1, of_decide_eq_true h.2, wholeTexts_admitsLine _ _⟩
  | .nullArray, depth, h => ⟨h, wholeTexts_admitsLine _ _⟩
  | .array elems, depth, h => by
    rw [plain, Bool.and_eq_true, Bool.and_eq_true] at h
    exact ⟨h.1.1, of_decide_eq_true h.1.2, wholeTexts_admitsLine _ _, allPlain_admitted elems h.2⟩

theorem allPlain_admitted : ∀ (vs : List Resp) {depth : Nat}, allPlain vs depth →
    Resp.AllAdmitted wholeTexts vs depth
  | [], _, _ => trivial
  | v :: vs, depth, h => by
    rw [allPlain, Bool.and_eq_true] at h
    exact ⟨plain_admitted v h.1, allPlain_admitted vs h.2⟩

end

/-- The reader gets through a stream of plain replies, and takes it for these. -/
theorem reader_plain {vs : List Resp} (h : ∀ v ∈ vs, plain v 1) :
    (reader wholeTexts).run .type (Resp.encodeAll vs) = some (.type, vs) :=
  reader_encodeAll fun v hv => plain_admitted v (h v hv)

mutual

/-- A reply as a `CRedisReply`. -/
def toCRedisReply : Resp → CRedisReply
  | .text isError bytes => .ofString (bytes.map some) (if isError then .error else .simpleString)
  | .int v => .ofInt v
  | .nullBulk => .null
  | .bulk bytes => .ofString (bytes.map some) .bulkString
  | .nullArray => .null
  | .array elems => .ofRows (toCRedisReplies elems)

def toCRedisReplies : List Resp → List CRedisReply
  | [] => []
  | v :: vs => toCRedisReply v :: toCRedisReplies vs

end

/-- A whole reply as a connection is given it: `PushReply` makes an empty array of a null
one. -/
def received : Resp → CRedisReply
  | .nullArray => .ofRows []
  | v => toCRedisReply v

theorem replyString_render {bytes : List UInt8} {r : RedisReply} {size : Nat}
    (hvall : r.vall = [⟨bytes.map some, size⟩]) (hbytes : r.bytes = bytes.length) :
    replyString r = bytes.map some := by
  have htext : redisReplyAsString r = bytes.map some := by
    rw [redisReplyAsString, chainText, hvall]
    simp
  rw [replyString, htext, hbytes, List.length_map, List.drop_replicate, Nat.sub_self,
    List.replicate_zero, List.append_nil]

mutual

theorem setReply_render : ∀ v : Resp, setReply v.render = some (toCRedisReply v)
  | .text isError bytes => by
    have htext : replyString ⟨textLeading isError, false, [⟨bytes.map some, simpleStringTempBuffSize⟩],
        bytes.length, 0, none, 0, .unknown⟩ = bytes.map some := replyString_render rfl rfl
    cases isError with
    | true => exact congrArg (fun text => some (CRedisReply.ofString text .error)) htext
    | false => exact congrArg (fun text => some (CRedisReply.ofString text .simpleString)) htext
  | .int _ => rfl
  | .nullBulk => rfl
  | .bulk bytes => by
    have htext : replyString ⟨.bulkString, false, [⟨bytes.map some, bytes.length + 3⟩], bytes.length, 0,
        none, 0, .unknown⟩ = bytes.map some := replyString_render rfl rfl
    exact congrArg (fun text => some (CRedisReply.ofString text .bulkString)) htext
  | .nullArray => rfl
  | .array [] => rfl
  | .array (v :: vs) => by
    rw [Resp.render, if_neg (by simp)]
    show (setReplies (Resp.renderAll (v :: vs))).map CRedisReply.ofRows = _
    rw [setReplies_render (v :: vs)]
    rfl

theorem setReplies_render : ∀ vs : List Resp,
    setReplies (Resp.renderAll vs) = some (toCRedisReplies vs)
  | [] => rfl
  | v :: vs => by
    rw [Resp.renderAll, setReplies, setReply_render v, setReplies_render vs]
    rfl

end

theorem pushReply_render (v : Resp) : pushReply v.render = some (received v) := by
  have hset : ∀ w : Resp, received w = toCRedisReply w → pushReply w.render = setReply w.render →
      pushReply w.render = some (received w) := by
    intro w hw hpush
    rw [hpush, hw, setReply_render]
  cases v with
  | text isError bytes => cases isError <;> exact hset _ rfl rfl
  | array elems => cases elems <;> exact hset _ rfl rfl
  | nullArray => rfl
  | _ => exact hset _ rfl rfl

theorem pushReplies_render (vs : List Resp) :
    pushReplies (vs.map Resp.render) = some (vs.map received) := by
  induction vs with
  | nil => rfl
  | cons v vs ih =>
    rw [List.map_cons, pushReplies, pushReply_render, ih]
    rfl

/-- A chunk that ends here, before `rest`, leaves no piece of a line of text in the
parser's buffer that the next piece would be copied over: of a text that goes on, at most
one byte has come. -/
def Uncut : Part → List UInt8 → Prop
  | .text _ acc _, rest => acc.length ≤ 1 ∨ rest.head? = some cr
  | .array _ _ cur, rest => Uncut cur rest
  | _, _ => True

theorem settled_of_copied {env : Envelope} {p : Part} {bs : List UInt8} (h : p.Copied env bs)
    (hne : bs ≠ []) : p.Settled env bs := by
  induction p with
  | text isError acc gotCr => exact h.resolve_right fun hnil => hne hnil.2
  | array len done cur ih => exact ih h
  | _ => trivial

theorem settled_of_uncut {env : Envelope} {p : Part} {rest : List UInt8} (h : p.Copied env [])
    (huncut : Uncut p rest) : p.Settled env rest := by
  induction p with
  | text isError acc gotCr =>
    rcases h with (h | h | h) | ⟨hlen, -⟩
    · exact .inl h
    · exact .inr (.inl h)
    · cases h
    · exact .inr (.inr (huncut.resolve_left (Nat.not_le_of_lt hlen)))
  | array len done cur ih => exact ih h huncut
  | _ => trivial

/-- The parser and its buffer stand where the reader stands, and the bytes that follow
can be read as they come. -/
def StandsBefore (st : RedisReplyParser × Committed) (q : Part) (rest : List UInt8) : Prop :=
  ∃ p, TopHeld st.1 p ∧ p.run wholeTexts 1 st.2 = .more q ∧ p.Settled wholeTexts (st.2 ++ rest)

theorem fresh_standsBefore (rest : List UInt8) : StandsBefore fresh .type rest :=
  ⟨.type, fresh_topHeld, rfl, trivial⟩

theorem settled_take {env : Envelope} {p : Part} {bs : List UInt8} {n : Nat} (hn : 0 < n)
    (h : p.Settled env bs) : p.Settled env (bs.take n) := by
  induction p with
  | text isError acc gotCr =>
    rcases h with h | h | h
    · exact .inl h
    · exact .inr (.inl h)
    · refine .inr (.inr ?_)
      rw [List.head?_take, if_neg (Nat.ne_of_gt hn)]
      exact h
  | array len done cur ih => exact ih h
  | _ => trivial

/-- `ProcessInput` on a chunk of a stream of plain replies. -/
theorem processInput_stands {st : RedisReplyParser × Committed} {q q' : Part}
    {chunk rest : List UInt8} {out out' : List Resp} (hst : StandsBefore st q (chunk ++ rest))
    (hne : chunk ≠ []) (hchunk : (reader wholeTexts).run q chunk = some (q', out))
    (hrest : (reader wholeTexts).run q' rest = some (.type, out')) (huncut : Uncut q' rest) :
    ∃ st', processInput st chunk = some (st', out.map received, false) ∧
      StandsBefore st' q' rest := by
  obtain ⟨p, htop, hrun, hset⟩ := hst
  have hcode : q'.code = .premature := by
    by_contra hbad
    rcases reader_run_cases hrest with ⟨hmore, -⟩ | ⟨v, rest', out', hdone, -⟩
    · rw [run_of_bad hbad rest] at hmore
      obtain rfl := Run.more.inj hmore
      exact hbad rfl
    · rw [run_of_bad hbad rest] at hdone
      cases hdone
  have hpos : 0 < (st.2 ++ chunk).length := by
    rw [List.length_append]
    exact Nat.add_pos_right _ (List.length_pos_of_ne_nil hne)
  have hset' : p.Settled wholeTexts (st.2 ++ chunk) := by
    have htake := settled_take hpos hset
    rwa [← List.append_assoc, List.take_left] at htake
  have hread : (reader wholeTexts).run p (st.2 ++ chunk) = some (q', out) :=
    Incremental.Machine.run_append (reader_run_more hrun) hchunk
  obtain ⟨res, hres, hrc, hdelivered, p', htop', hmore, hcopied⟩ :=
    redisReplyParseOnce_outcome wholeTexts_shallow htop hset' hread
  have hfeed : feed st chunk = some ((res.rrp, res.bb), out.map Resp.render, q'.code) := by
    rw [feed, Committed.commit]
    simp only [hres, hrc, hdelivered]
  refine ⟨(res.rrp, res.bb), ?_, p', htop', hmore, ?_⟩
  · rw [processInput, Committed.commit, if_neg (Nat.ne_of_gt hpos)]
    simp only [hfeed, pushReplies_render, Option.map_some, hcode, ne_eq, not_true_eq_false,
      decide_false]
  · by_cases hbb : res.bb = []
    · rw [hbb] at hmore hcopied ⊢
      obtain rfl := Run.more.inj hmore
      exact settled_of_uncut hcopied huncut
    · exact Settled.append (settled_of_copied hcopied hbb) rest

end KjRedis.Conn
