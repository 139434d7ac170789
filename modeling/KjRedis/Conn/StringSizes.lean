import KjRedis.Conn.ReplyBuilder
import KjRedis.Reply.Stability

/-! The room `SetReply` makes for a string is what `redis_reply_as_string` fills, on every
string of every reply that is delivered while the builders stay on the stack. -/
namespace KjRedis.Conn

open KjRedis.Reply Transition

/-- A string counts the bytes of its buffers, which are all in their buffers; so the copy fills
the destination to the byte. -/
structure SizedExactly (r : RedisReply) : Prop where
  bytes : r.bytes = (r.vall.map fun b => b.data.length).sum
  buffers : Fits r.vall
  copied : replyString r = redisReplyAsString r
  length : (redisReplyAsString r).length = r.bytes

/-- The strings of the replies that a call delivers. -/
def DeliversSized (st : RedisReplyParser × Committed) (chunk : List UInt8) : Prop :=
  match parseOnce st.1 (st.2.commit chunk) with
  | none => True
  | some out => ∀ r ∈ out.delivered, ∀ s ∈ r.parts, s.type.isString → s.isNull = false →
      (s.vall.map fun b => b.data.length).sum < 2 ^ 32 → SizedExactly s

/-- No builder of the call is too deep, and those it is suspended in were on the stack as
their last rounds began. -/
def SafeCall (st : RedisReplyParser × Committed) (chunk : List UInt8) : Prop :=
  ShallowCall st chunk ∧ AnchoredCall st chunk

instance (r : RedisReply) : Decidable (SizedExactly r) :=
  decidable_of_iff (r.bytes = (r.vall.map fun b => b.data.length).sum ∧
      (∀ b ∈ r.vall, b.data.length ≤ b.size) ∧ replyString r = redisReplyAsString r ∧
      (redisReplyAsString r).length = r.bytes)
    ⟨fun h => ⟨h.1, h.2.1, h.2.2.1, h.2.2.2⟩, fun h => ⟨h.bytes, h.buffers, h.copied, h.length⟩⟩

theorem deliversSized_iff {st : RedisReplyParser × Committed} {chunk : List UInt8} :
    DeliversSized st chunk ↔ ∀ out ∈ parseOnce st.1 (st.2.commit chunk), ∀ r ∈ out.delivered,
      ∀ s ∈ r.parts, s.type.isString → s.isNull = false →
      (s.vall.map fun b => b.data.length).sum < 2 ^ 32 → SizedExactly s := by
  rw [DeliversSized]
  cases parseOnce st.1 (st.2.commit chunk) with
  | none => simp
  | some out => simp

instance (st : RedisReplyParser × Committed) (chunk : List UInt8) : Decidable (DeliversSized st chunk) :=
  decidable_of_iff _ deliversSized_iff.symm

instance (st : RedisReplyParser × Committed) (chunk : List UInt8) : Decidable (SafeCall st chunk) :=
  inferInstanceAs (Decidable (_ ∧ _))

theorem length_redisReplyAsString (r : RedisReply) :
    (redisReplyAsString r).length = (r.vall.map fun b => b.data.length).sum := by
  rw [redisReplyAsString, chainText, List.length_flatten, List.map_map]
  rfl

theorem sizedExactly_of_sized {r : RedisReply} (h : r.Sized) (hstring : r.type.isString)
    (hnull : r.isNull = false) (hlen : (r.vall.map fun b => b.data.length).sum < 2 ^ 32) :
    SizedExactly r := by
  obtain ⟨hbytes, hfits⟩ := h hstring hnull
  rw [length_redisReplyAsString, Nat.mod_eq_of_lt hlen] at hbytes
  have hlength := (length_redisReplyAsString r).trans hbytes.symm
  refine ⟨hbytes, hfits, ?_, hlength⟩
  rw [replyString, hlength, List.drop_replicate, Nat.sub_self, List.replicate_zero, List.append_nil]

/-- One call, from a parser that the calls before left as they should. -/
theorem deliversSized_call {st : RedisReplyParser × Committed} {chunk : List UInt8} (hstand : Standing st.1)
    (hshallow : ShallowCall st chunk) : DeliversSized st chunk := by
  unfold DeliversSized
  split
  · trivial
  · next out hrun =>
    intro r hr s hs hstring hnull hlen
    exact sizedExactly_of_sized ((parseOnce_left hstand hrun hshallow).1 r hr s hs) hstring hnull hlen

/-- In a run of safe calls every string delivered is sized to the byte. -/
theorem deliversSized_of_safe (chunks : List (List UInt8)) (h : replyCalls.Meets SafeCall fresh chunks) :
    replyCalls.Meets DeliversSized fresh chunks := by
  refine (@System.meets_congr _ _ replyCalls SafeCall fresh chunks (fun st => Standing st.1) _
    (fun _ _ => True) (fun st chunk hstand hcall => ?_) (fun st chunk st' hstand hcall _ hnext => ?_)
    standing_created h).2 (System.meets_of_forall fun _ _ _ => trivial)
  · exact iff_of_true (deliversSized_call hstand hcall.1) trivial
  · exact standing_next hstand hcall.1 hcall.2 hnext

/-- Two strings in arrays, cut inside each of them. -/
theorem deliversSized_of_safe_cut :
    replyCalls.Meets DeliversSized fresh [[42, 50, 13, 10, 42, 49, 13, 10, 36, 51, 13, 10, 97],
      [98, 99, 13, 10, 43, 79], [75, 13, 10]] :=
  deliversSized_of_safe _ (by decide +kernel)

/-- Past the move of the stack an element is begun anew on the buffers it has, and they hold
more than it counts. -/
theorem not_deliversSized_moved : ¬ ∀ chunks, replyCalls.Meets DeliversSized fresh chunks := by
  intro h
  exact absurd (h [(List.replicate 15 [42, 50, 13, 10]).flatten ++ [36, 49, 13, 10, 97, 13, 10],
    [36, 45, 49, 13, 10] ++ [36, 49, 49, 51, 13, 10] ++ List.replicate 113 98 ++ [13, 10] ++
      (List.replicate 15 [58, 55, 13, 10]).flatten])
    (by decide +kernel)

end KjRedis.Conn
