import KjRedis.Queue.Linearizability

/-! The destructor of `ReaderWriterQueue`, which no thread may overlap with. -/
namespace KjRedis.Queue

variable {T : Type} {M m : Nat} {ℓ : Layout T} {q : ReaderWriterQueue T} {s : Threads T}
  {a : AtomicQueue.State T} {h : List (AtomicQueue.Label T)}

/-- The slots whose objects the inner loop of the destructor destroys, from `i` on; `none`
where the loop has not come to `tail` in `fuel` rounds. -/
def Block.destroyed (b : Block T) : Nat → Nat → Option (List (Option T))
  | 0, _ => none
  | fuel + 1, i =>
    if i ≠ b.tail then do
      let more ← b.destroyed fuel (b.wrap (i + 1))
      return b.data i :: more
    else some []

/-- What the destructor destroys, and the blocks it frees, from `block` on. -/
def ReaderWriterQueue.destroyFrom (q : ReaderWriterQueue T) :
    Nat → Nat → Option (List (Option T) × List Nat)
  | 0, _ => none
  | fuel + 1, block => do
    let nextBlock := (q.blocks block).next
    let elements ← (q.blocks block).destroyed ((q.blocks block).sizeMask + 1) (q.blocks block).front
    if nextBlock ≠ q.frontBlock then
      let (more, freed) ← q.destroyFrom fuel nextBlock
      return (elements ++ more, block :: freed)
    else return (elements, [block])

def ReaderWriterQueue.destroy (q : ReaderWriterQueue T) : Option (List (Option T) × List Nat) :=
  q.destroyFrom q.made q.frontBlock

theorem Block.Holds.destroyed_drop {b : Block T} {xs : List T} (hb : b.Holds xs false none) {fuel i : Nat}
    (hi : i ≤ xs.length) (hfuel : xs.length - i < fuel) :
    b.destroyed fuel (b.wrap (b.front + i)) = some ((xs.drop i).map some) := by
  induction fuel generalizing i with
  | zero => exact absurd hfuel (Nat.not_lt_zero _)
  | succ fuel ih =>
    unfold Block.destroyed
    by_cases heq : i = xs.length
    · subst heq
      rw [if_neg (not_not.2 hb.tail_eq.symm), List.drop_length]
      rfl
    · have hlt : i < xs.length := Nat.lt_of_le_of_ne hi heq
      have hne : b.wrap (b.front + i) ≠ b.tail := by
        rw [hb.tail_eq]
        exact fun hw => heq (Block.wrap_injective hb.size (hi.trans hb.length_le) hb.length_le hw)
      have hslot : b.data (b.wrap (b.front + i)) = some xs[i] := by
        rw [hb.slots i (hi.trans hb.length_le), slotAt, if_pos hlt]
        simp [List.getElem?_eq_getElem hlt]
      rw [if_pos hne, Block.wrap_wrap hb.size, Nat.add_assoc, ih hlt (by omega), hslot,
        List.drop_eq_getElem_cons hlt]
      rfl

/-- Every object of a block is destroyed once, and no raw memory is taken for one. -/
theorem Block.Holds.destroyed {b : Block T} {xs : List T} (hb : b.Holds xs false none) :
    b.destroyed (b.sizeMask + 1) b.front = some (xs.map some) := by
  have hdrop : b.destroyed (b.sizeMask + 1) (b.wrap (b.front + 0)) = some ((xs.drop 0).map some) :=
    hb.destroyed_drop (Nat.zero_le xs.length) (Nat.lt_succ_of_le hb.length_le)
  rw [hb.front_eq] at hdrop
  exact hdrop

theorem destroyFrom_chain {contents : Nat → List T} {block : Nat} {blocks : List Nat} {fuel : Nat}
    (hchain : (block :: blocks ++ [q.frontBlock]).IsChain fun b c => (q.blocks b).next = c)
    (hfront : q.frontBlock ∉ blocks)
    (hholds : ∀ b ∈ block :: blocks, (q.blocks b).Holds (contents b) false none)
    (hfuel : blocks.length < fuel) :
    q.destroyFrom fuel block = some (((block :: blocks).flatMap contents).map some, block :: blocks) := by
  induction blocks generalizing block fuel with
  | nil =>
    obtain ⟨fuel, rfl⟩ := Nat.exists_eq_succ_of_ne_zero (Nat.ne_zero_of_lt hfuel)
    have hnext : (q.blocks block).next = q.frontBlock := by simpa using hchain
    unfold ReaderWriterQueue.destroyFrom
    simp [(hholds block List.mem_cons_self).destroyed, hnext]
  | cons next blocks ih =>
    obtain ⟨fuel, rfl⟩ := Nat.exists_eq_succ_of_ne_zero (Nat.ne_zero_of_lt hfuel)
    obtain ⟨hnext, hrest⟩ := List.isChain_cons_cons.1 hchain
    have hne : next ≠ q.frontBlock := fun heq => hfront (heq ▸ List.mem_cons_self)
    have htail := ih hrest (fun hmem => hfront (List.mem_cons_of_mem next hmem))
      (fun b hb => hholds b (List.mem_cons_of_mem block hb)) (Nat.lt_of_succ_lt_succ hfuel)
    unfold ReaderWriterQueue.destroyFrom
    simp [(hholds block List.mem_cons_self).destroyed, hnext, hne, htail]

theorem Holding.ring_perm (hh : Holding M m ℓ a s) (hp : s.producer = .idle) :
    ℓ.ring.Perm (List.range s.queue.made) := by
  have hlen : s.queue.made = ℓ.ring.length := by
    have hall := hh.all
    rw [hp] at hall
    exact hall
  refine List.Subperm.perm_of_length_le ?_ (by rw [List.length_range, hlen])
  exact hh.shape.ring.nodup.subperm fun b hb => List.mem_range.2 (hh.shape.made b hb)

/-- Outside all calls the destructor destroys what is in the queue. -/
theorem Holding.destroy (hh : Holding M m ℓ a s) (hp : s.producer = .idle) (hc : s.consumer = .idle) :
    s.queue.destroy = some (a.items.map some, ℓ.ring) := by
  obtain ⟨more, hring⟩ : ∃ more, ℓ.ring = s.queue.frontBlock :: more := by
    obtain ⟨b, rest, hlive⟩ := List.exists_cons_of_ne_nil (List.ne_nil_of_mem hh.shape.ring.front_mem)
    have hhead := hh.shape.ring.head
    rw [hlive] at hhead
    rw [Layout.ring, hlive, Option.some.inj hhead]
    exact ⟨_, rfl⟩
  have hholds : ∀ b ∈ ℓ.ring, (s.queue.blocks b).Holds (ℓ.contents b) false none := by
    have hholds := hh.shape.holds
    rw [hp, hc] at hholds
    exact hholds
  have hnot : s.queue.frontBlock ∉ more := by
    have hnodup : ℓ.ring.Nodup := hh.shape.ring.nodup
    rw [hring] at hnodup
    exact (List.nodup_cons.1 hnodup).1
  have hchain := hh.shape.ring.chain
  rw [← Layout.ring, hring] at hchain
  have hitems : ℓ.ring.flatMap ℓ.contents = a.items := by
    have hspare : ℓ.spare.flatMap ℓ.contents = [] := by
      refine List.flatMap_eq_nil_iff.2 fun b hb => ?_
      rw [hh.ahead b hb, hp]
      rfl
    rw [Layout.ring, List.flatMap_append, hspare, List.append_nil, hh.items]
    rfl
  have hfuel : more.length < s.queue.made := by
    have hlen := (hh.ring_perm hp).length_eq
    rw [hring, List.length_range] at hlen
    exact hlen ▸ Nat.lt_succ_self _
  rw [ReaderWriterQueue.destroy, destroyFrom_chain hchain hnot (hring ▸ hholds) hfuel, ← hring, hitems]

end KjRedis.Queue
