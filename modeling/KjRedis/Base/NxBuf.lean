import KjRedis.Base.NxArray
import KjRedis.Lib.Memory

/-! `nx_pool` as `nx_buf.c` has it: a chain of blocks of one size, the allocations too
large for a block, and a `malloc` behind both. -/
namespace KjRedis.NxBuf

open Memory

/-- `malloc`: where, given the regions the pool holds, a request is put. -/
structure Malloc where
  alloc : List Region → Nat → Option Nat
  fresh : ∀ {live size addr}, alloc live size = some addr →
    ∀ r ∈ live, r.Apart ⟨addr, size⟩
  aligned : ∀ {live size addr}, alloc live size = some addr → 16 ∣ addr
  bounded : ∀ {live size addr}, alloc live size = some addr →
    0 < addr ∧ addr + size ≤ 2 ^ 64

/-- What an expression of type `size_t` holds. -/
def sizeT (n : Int) : Nat := (n % 2 ^ 64).toNat

/-- `nx_pool_data_t` at `addr`, its `next` left to the list of blocks. -/
structure Block where
  addr : Nat
  last : Nat
  endAddr : Nat
  failed : Nat
  deriving DecidableEq, Repr

/-- `nx_pool_t`: its own `d`, the blocks after it, the position of `current` among them
all, and the entries of `large` with the regions `alloc` points to. -/
structure Pool where
  d : Block
  nexts : List Block
  max : Nat
  current : Nat
  large : List (Option Region)
  deriving DecidableEq, Repr

def sizeofPoolData : Nat := 32

namespace Block

def region (b : Block) : Region := ⟨b.addr, b.endAddr - b.addr⟩

/-- The part of the block that has been handed out, its header with it. -/
def used (b : Block) : Region := ⟨b.addr, b.last - b.addr⟩

/-- Where `nx_palloc_small` tries the block. -/
def free (b : Block) (align : Bool) : Nat := if align then nxAlign b.last else b.last

end Block

namespace Pool

def blocks (p : Pool) : List Block := p.d :: p.nexts

def setBlocks (p : Pool) : List Block → Pool
  | [] => p
  | d :: nexts => { p with d, nexts }

def larges (p : Pool) : List Region := p.large.filterMap id

def regions (p : Pool) : List Region := p.larges ++ p.blocks.map Block.region

end Pool

/-- `nx_create_pool`. -/
def createPool (malloc : Malloc) (size : Nat) : Option Pool :=
  (malloc.alloc [] size).map fun p =>
    { d := { addr := p, last := p + NxPool.sizeofPool, endAddr := p + size, failed := 0 }
      nexts := []
      max := min (sizeT (size - NxPool.sizeofPool)) NxPool.maxAllocFromPool
      current := 0
      large := [] }

/-- The loop of `nx_palloc_small`, which leaves out the blocks before `current`. -/
def scan (align : Bool) (size : Nat) : Nat → List Block → Option (Nat × List Block)
  | _, [] => none
  | skip + 1, b :: bs => (scan align size skip bs).map fun (m, bs) => (m, b :: bs)
  | 0, b :: bs =>
    let m := b.free align
    if size ≤ sizeT (b.endAddr - m) then some (m, { b with last := m + size } :: bs)
    else (scan align size 0 bs).map fun (m, bs) => (m, b :: bs)

/-- The loop of `nx_palloc_block`, from the block at position `i` on: the blocks from
`start` on that have one after them, and where `current` ends up. -/
def countFailed (start : Nat) : Nat → Nat → List Block → Nat × List Block
  | i, current, b :: b' :: bs =>
    if i < start then
      let (current, rest) := countFailed start (i + 1) current (b' :: bs)
      (current, b :: rest)
    else
      let (current, rest) :=
        countFailed start (i + 1) (if 4 < b.failed then i + 1 else current) (b' :: bs)
      (current, { b with failed := b.failed + 1 } :: rest)
  | _, current, bs => (current, bs)

/-- `nx_palloc_block`. -/
def pallocBlock (malloc : Malloc) (p : Pool) (size : Nat) : Option (Nat × Pool) :=
  let psize := p.d.endAddr - p.d.addr
  (malloc.alloc p.regions psize).map fun new =>
    let m := nxAlign (new + sizeofPoolData)
    let b : Block := { addr := new, last := m + size, endAddr := new + psize, failed := 0 }
    let (current, blocks) := countFailed p.current 0 p.current p.blocks
    (m, { p.setBlocks (blocks ++ [b]) with current })

/-- `nx_palloc_small`. -/
def pallocSmall (malloc : Malloc) (p : Pool) (size : Nat) (align : Bool) : Option (Nat × Pool) :=
  match scan align size p.current p.blocks with
  | some (m, blocks) => some (m, p.setBlocks blocks)
  | none => pallocBlock malloc p size

/-- The loop of `nx_palloc_large`: the first of five entries that has been freed takes
the allocation. -/
def reuse (r : Region) : Nat → List (Option Region) → Option (List (Option Region))
  | _, [] => none
  | _, none :: large => some (some r :: large)
  | n, some l :: large => if 3 < n then none else (reuse r (n + 1) large).map (some l :: ·)

/-- What `nx_palloc_large` and `nx_pmemalign` end with: a new entry for the allocation,
which is live while the entry gets its memory. -/
def linkLarge (malloc : Malloc) (p : Pool) (r : Region) : Option (Nat × Pool) :=
  (pallocSmall malloc { p with large := some r :: p.large } NxPool.sizeofPoolLarge true).map
    fun (_, p) => (r.addr, p)

/-- `nx_palloc_large`. -/
def pallocLarge (malloc : Malloc) (p : Pool) (size : Nat) : Option (Nat × Pool) :=
  match malloc.alloc p.regions size with
  | none => none
  | some addr =>
    match reuse ⟨addr, size⟩ 0 p.large with
    | some large => some (addr, { p with large })
    | none => linkLarge malloc p ⟨addr, size⟩

def palloc (malloc : Malloc) (p : Pool) (size : Nat) : Option (Nat × Pool) :=
  if size ≤ p.max then pallocSmall malloc p size true else pallocLarge malloc p size

def pnalloc (malloc : Malloc) (p : Pool) (size : Nat) : Option (Nat × Pool) :=
  if size ≤ p.max then pallocSmall malloc p size false else pallocLarge malloc p size

/-- `nx_pmemalign`, whose `nx_memalign` forgets the alignment. -/
def pmemalign (malloc : Malloc) (p : Pool) (size : Nat) : Option (Nat × Pool) :=
  match malloc.alloc p.regions size with
  | none => none
  | some addr => linkLarge malloc p ⟨addr, size⟩

structure Block.Fine (b : Block) : Prop where
  start : 0 < b.addr
  header : b.addr < b.last
  room : b.last ≤ b.endAddr
  word : 8 ∣ b.endAddr
  bounded : b.endAddr ≤ 2 ^ 64

namespace Pool

structure Valid (p : Pool) : Prop where
  fine : ∀ b ∈ p.blocks, b.Fine
  apart : p.regions.Pairwise Region.Apart
  bounded : ∀ r ∈ p.larges, 0 < r.addr ∧ r.limit ≤ 2 ^ 64
  words : 8 ∣ p.d.region.len
  size : p.max + NxPool.sizeofPool ≤ p.d.region.len

/-- The region lies in memory the pool has handed out. -/
def Used (p : Pool) (r : Region) : Prop :=
  (∃ x ∈ p.larges, r.Within x) ∨ ∃ b ∈ p.blocks, r.Within b.used

/-- The pool goes to `p'` as it hands out `r`: what it had handed out stays so, and `r`
shares nothing with it. -/
structure Grants (p : Pool) (r : Region) (p' : Pool) : Prop where
  valid : p'.Valid
  used : p'.Used r
  keeps : ∀ x, p.Used x → p'.Used x
  apart : ∀ x, p.Used x → x.Apart r

end Pool

open Pool

variable {malloc : Malloc} {p p' : Pool} {b : Block} {bs bs' : List Block} {r x : Region}
  {m n size addr : Nat} {align : Bool}

theorem sizeT_of_lt (h : n < 2 ^ 64) : sizeT n = n := by
  unfold sizeT
  omega

theorem Block.Fine.used_within (h : b.Fine) : b.used.Within b.region := by
  have := h.room
  have := h.header
  simp only [Region.Within, Region.limit, used, region]
  omega

theorem Block.Fine.le_free (h : b.Fine) : b.last ≤ b.free align ∧ b.free align ≤ b.endAddr := by
  have := h.room
  have := h.word
  unfold Block.free nxAlign
  cases align <;> simp only [Bool.false_eq_true, if_true, if_false] <;> omega

/-- One of the blocks hands out `size` bytes at `m`, and the others stay. -/
def Served (size m : Nat) (bs bs' : List Block) : Prop :=
  ∃ l b l', bs = l ++ b :: l' ∧ bs' = l ++ { b with last := m + size } :: l' ∧
    b.last ≤ m ∧ m + size ≤ b.endAddr

theorem Served.cons (h : Served size m bs bs') : Served size m (b :: bs) (b :: bs') := by
  obtain ⟨l, c, l', rfl, rfl, hm⟩ := h
  exact ⟨b :: l, c, l', rfl, rfl, hm⟩

theorem scan_served {skip : Nat} (hfine : ∀ b ∈ bs, b.Fine)
    (h : scan align size skip bs = some (m, bs')) : Served size m bs bs' := by
  induction bs generalizing skip bs' with
  | nil => cases skip <;> cases h
  | cons b bs ih =>
    have hpassed : ∀ {skip}, ((scan align size skip bs).map fun (m, bs) => (m, b :: bs)) =
        some (m, bs') → Served size m (b :: bs) bs' := by
      intro skip h
      obtain ⟨⟨m', bs''⟩, hscan, heq⟩ := Option.map_eq_some_iff.1 h
      obtain ⟨rfl, rfl⟩ := Prod.mk.inj heq
      exact (ih (fun b hb => hfine b (List.mem_cons_of_mem _ hb)) hscan).cons
    cases skip with
    | succ skip => exact hpassed h
    | zero =>
      simp only [scan] at h
      split at h
      · next hsize =>
        obtain ⟨rfl, rfl⟩ := Prod.mk.inj (Option.some.inj h)
        have hb := hfine b List.mem_cons_self
        obtain ⟨hlast, hend⟩ := @Block.Fine.le_free b align hb
        have := hb.bounded
        have := hb.header
        rw [← Nat.cast_sub hend, sizeT_of_lt (by omega)] at hsize
        exact ⟨[], b, bs, rfl, rfl, hlast, by omega⟩
      · exact hpassed h

/-- The block as `nx_palloc_block`'s loop leaves it, up to the count of failures. -/
def Block.aged (b : Block) : Block := { b with failed := 0 }

theorem countFailed_aged (start i current : Nat) :
    (countFailed start i current bs).2.map Block.aged = bs.map Block.aged := by
  induction bs generalizing i current with
  | nil => rfl
  | cons b bs ih =>
    cases bs with
    | nil => rfl
    | cons b' bs =>
      unfold countFailed
      split
      · exact congrArg (b.aged :: ·) (ih (i + 1) current)
      · exact congrArg (b.aged :: ·) (ih (i + 1) _)

section
variable (h : bs.map Block.aged = bs'.map Block.aged)
include h

theorem map_of_aged {β : Type} {f : Block → β} (hf : ∀ b, f b.aged = f b) :
    bs.map f = bs'.map f := by
  have hmap : ∀ l : List Block, l.map f = (l.map Block.aged).map f := fun l => by
    rw [List.map_map]
    exact List.map_congr_left fun b _ => (hf b).symm
  rw [hmap bs, hmap bs', h]

theorem fine_of_aged (hfine : ∀ b ∈ bs', b.Fine) : ∀ b ∈ bs, b.Fine := by
  intro b hb
  have hmem : b.aged ∈ bs'.map Block.aged := h ▸ List.mem_map_of_mem hb
  obtain ⟨c, hc, heq⟩ := List.mem_map.1 hmem
  obtain ⟨hstart, hheader, hroom, hword, hbounded⟩ := hfine c hc
  simp only [Block.aged, Block.mk.injEq] at heq
  obtain ⟨haddr, hlast, hend, -⟩ := heq
  rw [haddr] at hstart
  rw [haddr, hlast] at hheader
  rw [hlast, hend] at hroom
  rw [hend] at hword hbounded
  exact ⟨hstart, hheader, hroom, hword, hbounded⟩

end

theorem setBlocks_blocks (h : bs ≠ []) : (p.setBlocks bs).blocks = bs := by
  cases bs with
  | nil => exact absurd rfl h
  | cons => rfl

@[simp] theorem setBlocks_larges : (p.setBlocks bs).larges = p.larges := by
  cases bs <;> rfl

@[simp] theorem setBlocks_max : (p.setBlocks bs).max = p.max := by
  cases bs <;> rfl

theorem Pool.Valid.of_regions (hp : p.Valid) (hfine : ∀ b ∈ p'.blocks, b.Fine)
    (hblocks : p'.blocks.map Block.region = p.blocks.map Block.region)
    (hlarges : p'.larges = p.larges) (hmax : p'.max = p.max) : p'.Valid := by
  have hregion : p'.d.region = p.d.region := (List.cons.inj hblocks).1
  refine ⟨hfine, ?_, hlarges ▸ hp.bounded, hregion ▸ hp.words, ?_⟩
  · unfold regions
    rw [hlarges, hblocks]
    exact hp.apart
  · rw [hmax, hregion]
    exact hp.size

/-- What is used lies in one of the regions. -/
theorem Pool.Valid.within (hp : p.Valid) (hx : p.Used x) : ∃ y ∈ p.regions, x.Within y := by
  rcases hx with ⟨y, hy, hxy⟩ | ⟨b, hb, hxb⟩
  · exact ⟨y, List.mem_append_left _ hy, hxy⟩
  · exact ⟨b.region, List.mem_append_right _ (List.mem_map_of_mem hb),
      hxb.trans (hp.fine b hb).used_within⟩

theorem Pool.Valid.used_bounded (hp : p.Valid) (hx : p.Used x) : 0 < x.addr ∧ x.limit ≤ 2 ^ 64 := by
  rcases hx with ⟨y, hy, hxy⟩ | ⟨b, hb, hxb⟩
  · obtain ⟨hstart, hlimit⟩ := hp.bounded y hy
    exact ⟨Nat.lt_of_lt_of_le hstart hxy.1, Nat.le_trans hxy.2 hlimit⟩
  · obtain ⟨hstart, hheader, hroom, -, hbounded⟩ := hp.fine b hb
    simp only [Region.Within, Region.limit, Block.used] at hxb
    simp only [Region.limit]
    omega

/-- What is used is used of one block or lies apart from it. -/
theorem Pool.Valid.used_cases {l l' : List Block} (hp : p.Valid) (hblocks : p.blocks = l ++ b :: l')
    (hx : p.Used x) : x.Within b.used ∨ x.Apart b.region := by
  have hperm : p.regions.Perm (b.region :: (p.larges ++ (l ++ l').map Block.region)) := by
    unfold regions
    rw [hblocks, List.map_append, List.map_cons, List.map_append, ← List.append_assoc,
      ← List.append_assoc]
    exact List.perm_middle
  have hothers := (List.pairwise_cons.1 ((hperm.pairwise_iff Region.Apart.symm).1 hp.apart)).1
  rcases hx with ⟨y, hy, hxy⟩ | ⟨c, hc, hxc⟩
  · exact .inr ((hothers y (List.mem_append_left _ hy)).symm.within hxy)
  · have hother : c ∈ l ++ l' → x.Apart b.region := fun hc =>
      (hothers c.region (List.mem_append_right _ (List.mem_map_of_mem hc))).symm.within
        (hxc.trans (hp.fine c (by rw [hblocks]; simp at hc ⊢; tauto)).used_within)
    rw [hblocks] at hc
    rcases List.mem_append.1 hc with hc | hc
    · exact .inr (hother (List.mem_append_left _ hc))
    · rcases List.mem_cons.1 hc with rfl | hc
      · exact .inl hxc
      · exact .inr (hother (List.mem_append_right _ hc))

theorem grants_room (hp : p.Valid) (h : Served size m p.blocks bs) :
    p.Grants ⟨m, size⟩ (p.setBlocks bs) := by
  obtain ⟨l, b, l', hblocks, rfl, hlast, hend⟩ := h
  have hb := hp.fine b (by rw [hblocks]; simp)
  have hheader := hb.header
  set b' : Block := { b with last := m + size } with hb'
  have hbs : (p.setBlocks (l ++ b' :: l')).blocks = l ++ b' :: l' := setBlocks_blocks (by simp)
  have hmem : ∀ c ∈ l ++ b' :: l', c = b' ∨ c ∈ p.blocks := by
    intro c hc
    rw [hblocks]
    simp only [List.mem_append, List.mem_cons] at hc ⊢
    tauto
  refine ⟨hp.of_regions ?_ ?_ setBlocks_larges setBlocks_max, ?_, fun x hx => ?_, fun x hx => ?_⟩
  · intro c hc
    rcases hmem c (hbs ▸ hc) with rfl | hc
    · exact ⟨hb.start, by simp only [hb']; omega, hend, hb.word, hb.bounded⟩
    · exact hp.fine c hc
  · rw [hbs, hblocks, List.map_append, List.map_append]
    rfl
  · refine .inr ⟨b', by rw [hbs]; simp, ?_⟩
    simp only [hb', Region.Within, Region.limit, Block.used]
    omega
  · rcases hx with ⟨y, hy, hxy⟩ | ⟨c, hc, hxc⟩
    · exact .inl ⟨y, by rwa [setBlocks_larges], hxy⟩
    · rw [hblocks] at hc
      by_cases hcb : c = b
      · refine .inr ⟨b', by rw [hbs]; simp, hxc.trans ?_⟩
        subst hcb
        simp only [hb', Region.Within, Region.limit, Block.used]
        omega
      · refine .inr ⟨c, ?_, hxc⟩
        rw [hbs]
        simp only [List.mem_append, List.mem_cons] at hc ⊢
        tauto
  · rcases hp.used_cases hblocks hx with hin | hapart
    · have := hb.room
      simp only [Region.Within, Region.limit, Block.used] at hin
      simp only [Region.Apart, Region.limit]
      omega
    · refine (hapart.symm.within ?_).symm
      simp only [Region.Within, Region.limit, Block.region]
      omega

/-- What `malloc` gives lies apart from all that is used. -/
theorem Pool.Valid.fresh (hp : p.Valid) (h : malloc.alloc p.regions size = some addr)
    (hx : p.Used x) : x.Apart ⟨addr, size⟩ := by
  obtain ⟨y, hy, hxy⟩ := hp.within hx
  exact (malloc.fresh h y hy).within hxy

theorem Pool.Valid.extended (hp : p.Valid) (hfine : ∀ b ∈ p'.blocks, b.Fine)
    (hregions : p'.regions.Perm (r :: p.regions)) (hfresh : ∀ y ∈ p.regions, y.Apart r)
    (hbounded : ∀ y ∈ p'.larges, 0 < y.addr ∧ y.limit ≤ 2 ^ 64)
    (hd : p'.d.region = p.d.region) (hmax : p'.max = p.max) : p'.Valid := by
  refine ⟨hfine, ?_, hbounded, hd ▸ hp.words, by rw [hd, hmax]; exact hp.size⟩
  rw [hregions.pairwise_iff Region.Apart.symm, List.pairwise_cons]
  exact ⟨fun y hy => (hfresh y hy).symm, hp.apart⟩

theorem pallocBlock_grants (hp : p.Valid) (hsize : size + 40 ≤ p.d.region.len)
    (h : pallocBlock malloc p size = some (m, p')) : p.Grants ⟨m, size⟩ p' := by
  obtain ⟨new, hnew, heq⟩ := Option.map_eq_some_iff.1 h
  obtain ⟨rfl, rfl⟩ := Prod.mk.inj heq
  change malloc.alloc p.regions p.d.region.len = some new at hnew
  have haligned := malloc.aligned hnew
  obtain ⟨hstart, hbounded⟩ := malloc.bounded hnew
  have hwords := hp.words
  have hm : nxAlign (new + sizeofPoolData) = new + 32 := by
    unfold nxAlign sizeofPoolData
    omega
  have haged := @countFailed_aged p.blocks p.current 0 p.current
  generalize countFailed p.current 0 p.current p.blocks = counted at haged ⊢
  obtain ⟨current, bs⟩ := counted
  simp only [hm] at haged ⊢
  change p.Grants _ { p.setBlocks (bs ++ [⟨new, new + 32 + size, new + p.d.region.len, 0⟩])
    with current }
  set b : Block := ⟨new, new + 32 + size, new + p.d.region.len, 0⟩ with hb
  set p' : Pool := { p.setBlocks (bs ++ [b]) with current } with hp'
  have hblocks : p'.blocks = bs ++ [b] := setBlocks_blocks (p := p) (by simp)
  have hlarges : p'.larges = p.larges := setBlocks_larges (p := p)
  have hregion : b.region = ⟨new, p.d.region.len⟩ := by simp [hb, Block.region]
  have hmap : bs.map Block.region = p.blocks.map Block.region := map_of_aged haged fun _ => rfl
  have hused : bs.map Block.used = p.blocks.map Block.used := map_of_aged haged fun _ => rfl
  have hfine := fine_of_aged haged hp.fine
  refine ⟨hp.extended (r := b.region) ?_ ?_ ?_ ?_ ?_ ?_, ?_, fun x hx => ?_, fun x hx => ?_⟩
  · intro c hc
    rw [hblocks] at hc
    rcases List.mem_append.1 hc with hc | hc
    · exact hfine c hc
    · obtain rfl := List.mem_singleton.1 hc
      exact ⟨hstart, by simp only [hb]; omega, by simp only [hb]; omega,
        by simp only [hb]; omega, hbounded⟩
  · unfold regions
    rw [hlarges, hblocks, List.map_append, hmap, ← List.append_assoc]
    exact List.perm_append_singleton _ _
  · rw [hregion]
    exact malloc.fresh hnew
  · rw [hlarges]
    exact hp.bounded
  · have heads := congrArg (List.map Block.region) hblocks
    rw [List.map_append, hmap] at heads
    exact (List.cons.inj heads).1
  · exact setBlocks_max (p := p)
  · refine .inr ⟨b, by rw [hblocks]; simp, ?_⟩
    simp only [hb, Region.Within, Region.limit, Block.used]
    omega
  · rcases hx with ⟨y, hy, hxy⟩ | ⟨c, hc, hxc⟩
    · exact .inl ⟨y, hlarges ▸ hy, hxy⟩
    · have hmem : c.used ∈ bs.map Block.used := hused ▸ List.mem_map_of_mem hc
      obtain ⟨c', hc', heq⟩ := List.mem_map.1 hmem
      exact .inr ⟨c', by rw [hblocks]; exact List.mem_append_left _ hc', heq ▸ hxc⟩
  · refine ((hp.fresh hnew hx).symm.within ?_).symm
    simp only [Region.Within, Region.limit]
    omega

/-- A region of its own: one more among `large`. -/
theorem grants_large (hp : p.Valid) (h : malloc.alloc p.regions size = some addr)
    (hd : p'.d = p.d) (hnexts : p'.nexts = p.nexts) (hmax : p'.max = p.max)
    (hlarges : p'.larges.Perm (⟨addr, size⟩ :: p.larges)) : p.Grants ⟨addr, size⟩ p' := by
  have hblocks : p'.blocks = p.blocks := by
    unfold blocks
    rw [hd, hnexts]
  refine ⟨hp.extended (r := ⟨addr, size⟩) ?_ ?_ (malloc.fresh h) ?_ (hd ▸ rfl) hmax, ?_,
    fun x hx => ?_, fun x hx => hp.fresh h hx⟩
  · rw [hblocks]
    exact hp.fine
  · unfold regions
    rw [hblocks]
    exact hlarges.append_right _
  · intro y hy
    rcases List.mem_cons.1 (hlarges.mem_iff.1 hy) with rfl | hy
    · exact malloc.bounded h
    · exact hp.bounded y hy
  · exact .inl ⟨_, hlarges.mem_iff.2 List.mem_cons_self, Region.Within.refl _⟩
  · rcases hx with ⟨y, hy, hxy⟩ | ⟨b, hb, hxb⟩
    · exact .inl ⟨y, hlarges.mem_iff.2 (List.mem_cons_of_mem _ hy), hxy⟩
    · exact .inr ⟨b, hblocks ▸ hb, hxb⟩

theorem pallocSmall_grants (hp : p.Valid) (hsize : size + 40 ≤ p.d.region.len)
    (h : pallocSmall malloc p size align = some (m, p')) : p.Grants ⟨m, size⟩ p' := by
  unfold pallocSmall at h
  split at h
  · next m' bs hscan =>
    obtain ⟨rfl, rfl⟩ := Prod.mk.inj (Option.some.inj h)
    exact grants_room hp (scan_served hp.fine hscan)
  · exact pallocBlock_grants hp hsize h

theorem linkLarge_grants (hp : p.Valid) (halloc : malloc.alloc p.regions size = some addr)
    (h : linkLarge malloc p ⟨addr, size⟩ = some (m, p')) :
    m = addr ∧ p.Grants ⟨addr, size⟩ p' := by
  obtain ⟨⟨header, p''⟩, hsmall, heq⟩ := Option.map_eq_some_iff.1 h
  obtain ⟨rfl, rfl⟩ := Prod.mk.inj heq
  have hlarge : p.Grants ⟨addr, size⟩ { p with large := some ⟨addr, size⟩ :: p.large } :=
    grants_large hp halloc rfl rfl rfl (List.Perm.refl _)
  have hentry := pallocSmall_grants hlarge.valid
    (by have := hlarge.valid.size; unfold NxPool.sizeofPool NxPool.sizeofPoolLarge at *; omega)
    hsmall
  exact ⟨rfl, hentry.valid, hentry.keeps _ hlarge.used,
    fun x hx => hentry.keeps x (hlarge.keeps x hx), hlarge.apart⟩

theorem reuse_perm {large large' : List (Option Region)} {n : Nat}
    (h : reuse r n large = some large') :
    (large'.filterMap id).Perm (r :: large.filterMap id) := by
  induction large generalizing n large' with
  | nil => cases h
  | cons entry large ih =>
    cases entry with
    | none =>
      obtain rfl := Option.some.inj h
      exact List.Perm.refl _
    | some l =>
      simp only [reuse] at h
      split at h
      · cases h
      · obtain ⟨large'', hrest, rfl⟩ := Option.map_eq_some_iff.1 h
        exact ((ih hrest).cons l).trans (List.Perm.swap r l _)

theorem pallocLarge_grants (hp : p.Valid) (h : pallocLarge malloc p size = some (m, p')) :
    p.Grants ⟨m, size⟩ p' := by
  unfold pallocLarge at h
  split at h
  · cases h
  · next addr halloc =>
    split at h
    · next large hreuse =>
      obtain ⟨rfl, rfl⟩ := Prod.mk.inj (Option.some.inj h)
      exact grants_large hp halloc rfl rfl rfl (reuse_perm hreuse)
    · obtain ⟨rfl, hgrants⟩ := linkLarge_grants hp halloc h
      exact hgrants

theorem pmemalign_grants (hp : p.Valid) (h : pmemalign malloc p size = some (m, p')) :
    p.Grants ⟨m, size⟩ p' := by
  unfold pmemalign at h
  split at h
  · cases h
  · next addr halloc =>
    obtain ⟨rfl, hgrants⟩ := linkLarge_grants hp halloc h
    exact hgrants

/-- `nx_palloc` and `nx_pnalloc`. -/
theorem poolAlloc_grants (hp : p.Valid)
    (h : (if size ≤ p.max then pallocSmall malloc p size align else pallocLarge malloc p size) =
      some (m, p')) : p.Grants ⟨m, size⟩ p' := by
  split at h
  · next hle =>
    refine pallocSmall_grants hp ?_ h
    have := hp.size
    unfold NxPool.sizeofPool at this
    omega
  · exact pallocLarge_grants hp h

theorem palloc_grants (hp : p.Valid) (h : palloc malloc p size = some (m, p')) :
    p.Grants ⟨m, size⟩ p' := poolAlloc_grants hp h

theorem pnalloc_grants (hp : p.Valid) (h : pnalloc malloc p size = some (m, p')) :
    p.Grants ⟨m, size⟩ p' := poolAlloc_grants hp h

theorem createPool_valid (hwords : 8 ∣ size) (hsize : NxPool.sizeofPool ≤ size)
    (h : createPool malloc size = some p) : p.Valid := by
  obtain ⟨addr, halloc, rfl⟩ := Option.map_eq_some_iff.1 h
  have haligned := malloc.aligned halloc
  obtain ⟨hstart, hbounded⟩ := malloc.bounded halloc
  unfold NxPool.sizeofPool at *
  refine ⟨?_, ?_, ?_, ?_, ?_⟩
  · intro b hb
    obtain rfl := List.mem_singleton.1 hb
    exact ⟨hstart, by simp only; omega, by simp only; omega, by simp only; omega, hbounded⟩
  · exact List.pairwise_singleton _ _
  · exact fun r hr => absurd hr List.not_mem_nil
  · simpa [Block.region] using hwords
  · simp only [Block.region, Nat.add_sub_cancel_left, NxPool.sizeofPool]
    rw [← Nat.cast_sub hsize, sizeT_of_lt (by omega)]
    omega

end KjRedis.NxBuf
