import KjRedis.Lib.PowerOfTwo
import KjRedis.Queue.Consumer

/-! Every interleaving of the producer's and the consumer's steps shows what a queue shows
whose calls take effect at one moment each. -/
namespace KjRedis.Queue

open AtomicQueue (Label)
open PowerOfTwo

variable {T : Type} {M m n size : Nat} {s s' : Threads T} {a : AtomicQueue.State T} {h : List (Label T)}

theorem ceilToPow2_eq {x : Nat} (hpos : 0 < x) (hx : x ≤ 2 ^ 63) : ceilToPow2 x = 2 ^ (x - 1).size := by
  have hlt : x < UInt64.size := show x < 2 ^ 64 by omega
  have hsub : (UInt64.ofNat x - 1).toNat = x - 1 := by
    rw [UInt64.toNat_sub_of_le]
    · rw [UInt64.toNat_ofNat_of_lt' hlt]
      rfl
    · rw [UInt64.le_iff_toNat_le, UInt64.toNat_ofNat_of_lt' hlt]
      exact hpos
  have hsize : (x - 1).size ≤ 63 := Nat.size_le.2 (by omega)
  have hpow : 2 ^ (x - 1).size ≤ 2 ^ 63 := Nat.pow_le_pow_right (by decide) hsize
  have hone : 1 ≤ 2 ^ (x - 1).size := Nat.one_le_two_pow
  have hsmear := (smeared_self (x - 1)).double.double.double.double.double.double.eq (by omega)
  unfold ceilToPow2
  simp only [UInt64.toNat_add, UInt64.toNat_or, UInt64.toNat_shiftRight, hsub]
  have hbits := congrArg (fun y => (y + 1) % 2 ^ 64) hsmear
  refine Eq.trans hbits ?_
  omega

/-- The sizes the constructor asserts, and under which a `size_t` does not wrap. -/
structure Sizes (maxBlockSize maxSize : Nat) : Prop where
  maxSize_pos : 0 < maxSize
  maxSize_lt : maxSize < 2 ^ 63
  maxBlockSize : ∃ k, 1 ≤ k ∧ maxBlockSize = 2 ^ k

theorem Sizes.largest (h : Sizes M m) :
    (∃ k, 1 ≤ k ∧ ceilToPow2 (m + 1) = 2 ^ k) ∧ m < ceilToPow2 (m + 1) := by
  have hmax := h.maxSize_lt
  have hpos := h.maxSize_pos
  rw [ceilToPow2_eq (Nat.add_pos_right m Nat.one_pos) (by omega), Nat.add_sub_cancel]
  refine ⟨⟨m.size, Nat.succ_le_of_lt (Nat.size_pos.2 hpos), rfl⟩, Nat.lt_size_self m⟩

/-- The blocks of the loop: each one's next is the one made after it, the last one's the
first. -/
theorem blocks_ringOfBlocks (size n : Nat) {b : Nat} (hb : b < n) :
    (ringOfBlocks size n : ReaderWriterQueue T).blocks b =
      (newBlock size).setNext (if b + 1 = n then 0 else b + 1) := by
  induction n with
  | zero => exact absurd hb (Nat.not_lt_zero b)
  | succ n ih =>
    have hmade : (ringOfBlocks size n : ReaderWriterQueue T).made = n := by
      clear ih hb
      induction n with
      | zero => rfl
      | succ n ih =>
        unfold ringOfBlocks
        simp only
        split
        · exact congrArg (· + 1) ih
        · exact congrArg (· + 1) ih
    have hadd : ∀ c, c < n → ((ringOfBlocks size n : ReaderWriterQueue T).addBlock
        ((newBlock size).setNext 0)).blocks c = (ringOfBlocks size n).blocks c := fun c hc =>
      Function.update_of_ne (by omega) _ _
    have hself : ((ringOfBlocks size n : ReaderWriterQueue T).addBlock
        ((newBlock size).setNext 0)).blocks n = (newBlock size).setNext 0 := by
      show Function.update _ (ringOfBlocks size n).made _ n = _
      rw [hmade]
      exact Function.update_self _ _ _
    unfold ringOfBlocks
    simp only
    split
    · next h0 =>
      subst h0
      obtain rfl : b = 0 := by omega
      rw [hself]
      rfl
    · next h0 =>
      rcases Nat.lt_trichotomy b (n - 1) with hlt | heq | hgt
      · rw [blocks_modify_of_ne _ (Nat.ne_of_lt hlt), hadd b (by omega), ih (by omega),
          if_neg (by omega), if_neg (by omega)]
      · subst heq
        rw [blocks_modify_self, hadd _ (by omega), ih (by omega), if_pos (by omega), if_neg (by omega),
          Nat.sub_add_cancel (Nat.pos_of_ne_zero h0)]
        rfl
      · obtain rfl : b = n := by omega
        rw [blocks_modify_of_ne _ (by omega), hself, if_pos rfl]

theorem made_ringOfBlocks (size n : Nat) : (ringOfBlocks size n : ReaderWriterQueue T).made = n ∧
    (ringOfBlocks size n : ReaderWriterQueue T).frontBlock = 0 ∧
    (ringOfBlocks size n : ReaderWriterQueue T).tailBlock = 0 ∧
    (ringOfBlocks size n : ReaderWriterQueue T).largestBlockSize = size := by
  induction n with
  | zero => exact ⟨rfl, rfl, rfl, rfl⟩
  | succ n ih =>
    obtain ⟨hmade, hfront, htail, hsize⟩ := ih
    unfold ringOfBlocks
    simp only
    split
    · exact ⟨congrArg (· + 1) hmade, hfront, htail, hsize⟩
    · exact ⟨congrArg (· + 1) hmade, hfront, htail, hsize⟩

/-- Nothing is in any block, and all but the first are spare. -/
def emptyLayout (T : Type) (n : Nat) : Layout T :=
  { contents := fun _ => [], live := [0], spare := List.range' 1 (n - 1) }

theorem ring_emptyLayout (hn : 0 < n) : (emptyLayout T n).ring = List.range n := by
  obtain ⟨n, rfl⟩ := Nat.exists_eq_add_of_lt hn
  rw [List.range_eq_range']
  simp [emptyLayout, Layout.ring, List.range'_succ]

theorem shape_ringOfBlocks (hn : 0 < n) (hsize : ∃ k, 1 ≤ k ∧ size = 2 ^ k) :
    Shape (emptyLayout T n) (ringOfBlocks size n) (fun _ => false) fun _ => none := by
  obtain ⟨hmade, hfront, htail, -⟩ := @made_ringOfBlocks T size n
  obtain ⟨k, hk, rfl⟩ := hsize
  have hpow : 2 ≤ 2 ^ k := Nat.pow_le_pow_right (n := 2) (by decide) hk
  have hblock : ∀ b ∈ (emptyLayout T n).ring, (ringOfBlocks (2 ^ k) n : ReaderWriterQueue T).blocks b =
      (newBlock (2 ^ k)).setNext (if b + 1 = n then 0 else b + 1) := fun b hb =>
    blocks_ringOfBlocks _ n (List.mem_range.1 (ring_emptyLayout hn ▸ hb))
  have hsz : ∀ next, ∃ j, ((newBlock (2 ^ k) : Block T).setNext next).sizeMask + 1 = 2 ^ j := fun _ =>
    ⟨k, Nat.sub_add_cancel (by omega)⟩
  have hholds : ∀ next, ((newBlock (2 ^ k) : Block T).setNext next).Holds [] false none := fun next =>
    { size := hsz next
      front_le := Nat.zero_le _
      length_le := Nat.zero_le _
      tail_eq := (Block.wrap_of_le (hsz next) (Nat.zero_le _)).symm
      slots := fun i _ => (by simp [slotAt] : none = slotAt [] false none i) }
  have hzero : (0 : Nat) ∈ (emptyLayout T n).ring := List.mem_append_left _ List.mem_cons_self
  refine ⟨⟨?_, ?_, ?_, ?_⟩, fun b hb => ?_, fun b hb => ?_, fun b hb => ?_, fun b hb => ?_, ?_, ?_⟩
  · rw [← Layout.ring, ring_emptyLayout hn]
    exact List.nodup_range
  · rw [hfront]
    rfl
  · rw [htail]
    rfl
  · rw [← Layout.ring, ring_emptyLayout hn, hfront, List.isChain_iff_getElem]
    intro i hi
    have hi' : i < n := by simpa using hi
    rw [List.getElem_append_left (by simpa using hi'), List.getElem_range, blocks_ringOfBlocks _ n hi']
    show (if i + 1 = n then 0 else i + 1) = _
    split
    · next heq =>
      rw [List.getElem_append_right (by simp [heq])]
      simp [heq]
    · next hne =>
      rw [List.getElem_append_left (by rw [List.length_range]; omega), List.getElem_range]
  · rw [hmade]
    exact List.mem_range.1 (ring_emptyLayout hn ▸ hb)
  · rw [hblock b hb]
    exact hholds _
  · exact absurd hb List.not_mem_nil
  · exact absurd hb List.not_mem_nil
  · rw [hfront, hblock 0 hzero]
    exact ⟨0, Nat.le_refl 0, Nat.le_refl 0, (Block.wrap_of_le (hsz _) (Nat.zero_le _)).symm⟩
  · rw [htail, hblock 0 hzero]
    exact ⟨Nat.zero_le _, 0, Nat.zero_le _, (Block.wrap_of_le (hsz _) (Nat.zero_le _)).symm⟩

theorem sizeMask_ringOfBlocks {b : Nat} (hb : b < n) :
    ((ringOfBlocks size n : ReaderWriterQueue T).blocks b).sizeMask = size - 1 := by
  rw [blocks_ringOfBlocks size n hb]
  rfl

theorem holding_ringOfBlocks (hn : 0 < n) (hsize : ∃ k, 1 ≤ k ∧ size = 2 ^ k)
    (henough : m < size ∨ M ≤ size ∧ m ≤ (n - 1) * (size - 1)) :
    Holding M m (emptyLayout T n) (AtomicQueue.empty T) ⟨ringOfBlocks size n, .idle, .idle⟩ := by
  obtain ⟨hmade, -, -, hlargest⟩ := @made_ringOfBlocks T size n
  have hmask : ∀ b < (ringOfBlocks size n : ReaderWriterQueue T).made,
      ((ringOfBlocks size n : ReaderWriterQueue T).blocks b).sizeMask = size - 1 := fun b hb =>
    sizeMask_ringOfBlocks (hmade ▸ hb)
  have hall : (ringOfBlocks size n : ReaderWriterQueue T).made = (emptyLayout T n).ring.length + 0 := by
    rw [hmade, ring_emptyLayout hn, List.length_range, Nat.add_zero]
  refine ⟨shape_ringOfBlocks hn hsize, fun _ _ => rfl, ⟨by rw [hlargest]; exact hsize, ?_⟩, hall,
    Nat.le_refl 0, rfl, rfl, rfl⟩
  rw [hlargest, ring_emptyLayout hn, List.length_range]
  rcases henough with hlt | ⟨hle, hsum⟩
  · refine .inl ⟨hlt, fun b hb => ?_⟩
    rw [hmask b hb]
    exact Nat.le_sub_one_of_lt hlt
  · exact .inr ⟨hle, hmask, hsum⟩

/-- A queue made for `maxSize` elements has room for them without one of its blocks. -/
theorem related_started (hs : Sizes M m) : Related M m (AtomicQueue.empty T) (started T M m) := by
  obtain ⟨hpow, hlt⟩ := hs.largest
  unfold started construct
  simp only
  split
  · next hbig =>
    obtain ⟨k, hk, hM⟩ := hs.maxBlockSize
    have hM2 : 2 ≤ M := hM ▸ Nat.pow_le_pow_right (n := 2) (by decide) hk
    have hcount : m ≤ ((m + M * 2 - 3) / (M - 1) - 1) * (M - 1) := by
      have hdiv := Nat.div_add_mod (m + M * 2 - 3) (M - 1)
      have hmod := Nat.mod_lt (m + M * 2 - 3) (show 0 < M - 1 by omega)
      rw [Nat.sub_mul, Nat.one_mul, Nat.mul_comm ((m + M * 2 - 3) / (M - 1))]
      have hpos := hs.maxSize_pos
      omega
    refine ⟨_, holding_ringOfBlocks (Nat.div_pos ?_ (by omega)) ⟨k, hk, hM⟩ (.inr ⟨Nat.le_refl M, hcount⟩)⟩
    have hpos := hs.maxSize_pos
    omega
  · exact ⟨_, holding_ringOfBlocks Nat.one_pos hpow (.inl hlt)⟩

theorem simulates (hm : 0 < m) :
    History.Simulates (AtomicQueue.system T) (threads T M) (Related M m) := by
  intro a s e out s' hrel hnext
  obtain ⟨ℓ, hholding⟩ := hrel
  obtain ⟨q, p, c⟩ := s
  simp only [threads, Threads.next] at hnext
  cases e with
  | enqueue mode x =>
    cases p with
    | idle =>
      cases hnext
      refine ⟨_, .one (e := .enqueue x) ?_, ℓ, hholding.startEnqueue mode x⟩
      have hidle : a.producer = .idle := hholding.producer
      simp only [AtomicQueue.system, AtomicQueue.State.next, hidle]
    | inside mode' x' pc => cases hnext
  | producer malloc =>
    cases p with
    | idle => cases hnext
    | inside mode x pc =>
      have hfollows := hholding.enqueueStep malloc hm
      obtain ⟨since, hcall, -⟩ := hholding.producerAt
      simp only at hnext
      rcases hstep : q.enqueueStep M mode x malloc pc with ⟨q', pc' | ok⟩
      · rw [hstep] at hnext hfollows
        cases hnext
        exact ⟨a, .refl a, hfollows⟩
      · rw [hstep] at hnext hfollows
        cases hnext
        exact ⟨_, AtomicQueue.runs_returned hcall ok, hfollows⟩
  | tryDequeue =>
    cases c with
    | idle =>
      cases hnext
      refine ⟨_, .one (e := .dequeue) ?_, ℓ, hholding.startDequeue⟩
      have hidle : a.consumer = .idle := hholding.consumer
      simp only [AtomicQueue.system, AtomicQueue.State.next, hidle]
    | inside pc => cases hnext
  | consumer =>
    cases c with
    | idle => cases hnext
    | inside pc =>
      have hfollows := hholding.dequeueStep
      simp only at hnext
      rcases hstep : q.dequeueStep pc with ⟨q', pc' | r⟩
      · rw [hstep] at hnext hfollows
        cases hnext
        exact hfollows
      · rw [hstep] at hnext hfollows
        cases hnext
        exact hfollows

theorem related_of_runs (hs : Sizes M m) (hrun : (threads T M).Runs (started T M m) h s) :
    ∃ a, (AtomicQueue.system T).Runs (AtomicQueue.empty T) h a ∧ Related M m a s :=
  (simulates hs.maxSize_pos).run (related_started hs) hrun

end KjRedis.Queue
