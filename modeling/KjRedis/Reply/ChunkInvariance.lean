import KjRedis.Reply.ParserSpec

/-! Cutting the input of the reply parser: two cuttings of one byte string deliver the
same replies and end with the same code, unless a line of text is long enough to be
copied twice. -/
namespace KjRedis.Reply

/-- Texts of at most two bytes: the parser copies such a text whole, or not yet. -/
def shortTexts : Envelope where
  textMax := 2
  textOk _ := true
  numOk _ _ := true
  opens depth _ := depth ≤ maxBuilder

theorem shortTexts_shallow : shortTexts.Shallow where
  text := by decide
  opens h := of_decide_eq_true h

/-- Nothing in the input makes the parser's reading depend on its chunks: every line of
text has at most two bytes and ends at its first CR, no length loses its meaning in 32
bits, and no builder is opened beyond the stack's first storage. -/
def Tame (s : List UInt8) : Prop := ((reader shortTexts).run .type s).isSome

instance (s : List UInt8) : Decidable (Tame s) := inferInstanceAs (Decidable (_ = _))

/-- Any two cuttings of `s`, fed to fresh parsers, deliver the same replies and end
with the same code. -/
def ChunkInvariant (s : List UInt8) : Prop :=
  ∀ cs cs' : List (List UInt8), cs.flatten = s → cs'.flatten = s → cs ≠ [] → cs' ≠ [] →
    ∃ st st' log rc, Incremental.feedAll feed fresh cs = some (st, log, some rc) ∧
      Incremental.feedAll feed fresh cs' = some (st', log, some rc)

theorem chunkInvariant_of_tame {s : List UInt8} (h : Tame s) : ChunkInvariant s := by
  intro cs cs' hcut hcut' hne hne'
  obtain ⟨⟨q, out⟩, hrun⟩ := Option.isSome_iff_exists.1 h
  rw [← hcut] at hrun
  obtain ⟨⟨st, h₁⟩, ⟨st', h₂⟩⟩ := (feed_tracks shortTexts_shallow (Nat.le_refl 2)).cutting_invariant fresh_stands
    (hcut.trans hcut'.symm) hne hne' hrun
  exact ⟨st, st', _, _, h₁, h₂⟩

/-- `*2\r\n$3\r\nab\n\r\n+OK\r\n:` is tame: a payload, a short text and a number still open. -/
theorem chunkInvariant_of_tame_array :
    ChunkInvariant [42, 50, 13, 10, 36, 51, 13, 10, 97, 98, 10, 13, 10, 43, 79, 75, 13, 10, 58] :=
  chunkInvariant_of_tame (by decide)

/-- The strings of the replies some chunks deliver. -/
def deliveredStrings (cs : List (List UInt8)) : Option (List (List NxBuf)) :=
  (Incremental.feedAll feed fresh cs).map fun res => res.2.1.map RedisReply.vall

/-- `+abc\r\n` whole, and cut after `+ab`: the second copy overwrites the first. -/
theorem not_chunkInvariant_text : ¬ ChunkInvariant [43, 97, 98, 99, 13, 10] := by
  intro h
  obtain ⟨st, st', log, rc, h₁, h₂⟩ :=
    h [[43, 97, 98, 99, 13, 10]] [[43, 97, 98], [99, 13, 10]] rfl rfl (by simp) (by simp)
  have heq : deliveredStrings [[43, 97, 98, 99, 13, 10]] =
      deliveredStrings [[43, 97, 98], [99, 13, 10]] := by
    rw [deliveredStrings, deliveredStrings, h₁, h₂]
    rfl
  exact absurd heq (by decide)

end KjRedis.Reply
