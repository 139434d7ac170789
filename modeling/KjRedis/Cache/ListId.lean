import KjRedis.Cache.ListProxy

/-! The key of a list, and the proxy that `SplitIdList` makes of it. -/
namespace KjRedis.Cache

open KjRedis.Conn

def colon : UInt8 := 58

/-- The bytes from an offset to the first NUL. -/
def cString (ptr : Bytes) (offset : Nat) : Bytes := (ptr.drop offset).takeWhile (· != 0)

/-- The entries of `av` are offsets in `ptr`, which the loop writes to. -/
structure SplitState where
  ptr : Bytes
  i : Nat
  j : Nat
  av : List Nat
  deriving DecidableEq

/-- The loop, with what is left of `str_len`. -/
def splitLoop (avMax : Nat) (c : UInt8) : Nat → SplitState → SplitState
  | 0, st => st
  | n + 1, st =>
    if st.av.length < avMax then
      if st.ptr.getD st.i 0 ≠ c then splitLoop avMax c n { st with i := st.i + 1 }
      else
        splitLoop avMax c n
          { ptr := st.ptr.set st.i 0, i := st.i + 1, j := st.i + 1, av := st.av ++ [st.j] }
    else st

/-- `__split`. -/
def split (str : Bytes) (strLen avMax : Nat) (c : UInt8) : SplitState :=
  let strLen := if strLen = 0 then (cString str 0).length else strLen
  let st := splitLoop avMax c strLen { ptr := str, i := 0, j := 0, av := [] }
  if st.j < st.i then { st with av := st.av ++ [st.j] } else st

/-- Where there are fewer than three parts, what `out` holds stays. -/
def splitIdList (sIdList : Bytes) (out : Bytes × Bytes × Bytes) : Bytes × Bytes × Bytes :=
  let st := split sIdList sIdList.length 8 colon
  match st.av with
  | a :: b :: c :: _ => (cString st.ptr a, cString st.ptr b, cString st.ptr c)
  | _ => out

/-- The proxy that is made of the key of a list. -/
def CRedisListProxy.ofIdList (sIdList : Bytes) : CRedisListProxy :=
  let out := splitIdList sIdList ([], [], [])
  { sModuleName := out.1, sMainId := out.2.1, sSubid := out.2.2 }

/-- A proxy that was made of a key: it goes on to use that key as it is for the list, and the
marks and the channel that belong to its parts. -/
structure KeyedProxy where
  sIdList : Bytes
  parts : CRedisListProxy

def keyedProxy (sIdList : Bytes) : KeyedProxy := { sIdList, parts := .ofIdList sIdList }

/-- What a key is made of, without separators and NULs. -/
structure CRedisListProxy.Plain (p : CRedisListProxy) : Prop where
  sModuleName : colon ∉ p.sModuleName ∧ 0 ∉ p.sModuleName
  sMainId : colon ∉ p.sMainId ∧ 0 ∉ p.sMainId
  sSubid : colon ∉ p.sSubid ∧ 0 ∉ p.sSubid

namespace CRedisListProxy

variable {p q : CRedisListProxy}

@[simp] theorem sIdList_inj : p.sIdList = q.sIdList ↔ p.name = q.name := List.append_left_inj _

@[simp] theorem sIdHashOfCAS_inj : p.sIdHashOfCAS = q.sIdHashOfCAS ↔ p.name = q.name :=
  List.append_left_inj _

@[simp] theorem sIdList_ne_hash : p.sIdList ≠ q.sIdHashOfCAS := by
  intro h
  have := congrArg List.reverse h
  simp [sIdList, sIdHashOfCAS, ascii] at this

end CRedisListProxy

variable {avMax : Nat} {c : UInt8} {st : SplitState}

theorem splitLoop_add (m n : Nat) :
    splitLoop avMax c (m + n) st = splitLoop avMax c n (splitLoop avMax c m st) := by
  induction m generalizing st with
  | zero => rw [Nat.zero_add, splitLoop]
  | succ m ih =>
    rw [Nat.succ_add, splitLoop, splitLoop]
    split
    · split
      · exact ih
      · exact ih
    · next hfull =>
      cases n with
      | zero => rfl
      | succ n => rw [splitLoop, if_neg hfull]

/-- A part that ends at a separator. -/
theorem splitLoop_part {pre part rest : Bytes} {i : Nat} (hi : pre.length = i) (hpart : c ∉ part)
    {j : Nat} {av : List Nat} (hav : av.length < avMax) :
    splitLoop avMax c (part.length + 1)
      { ptr := pre ++ (part ++ c :: rest), i := i, j := j, av := av } =
      { ptr := pre ++ (part ++ 0 :: rest), i := i + part.length + 1, j := i + part.length + 1,
        av := av ++ [j] } := by
  subst hi
  induction part generalizing pre with
  | nil => simp [splitLoop, hav]
  | cons b part ih =>
    rw [List.mem_cons, not_or] at hpart
    have hb : (pre ++ (b :: part ++ c :: rest)).getD pre.length 0 ≠ c := by simpa using Ne.symm hpart.1
    rw [List.length_cons, splitLoop, if_pos hav, if_pos hb]
    have hnext := @ih (pre ++ [b]) hpart.2
    simp only [List.append_assoc, List.cons_append, List.nil_append, List.length_append,
      List.length_singleton] at hnext ⊢
    rw [hnext]
    simp only [SplitState.mk.injEq, true_and, and_true]
    omega

/-- The loop leaves what it has passed, and adds to the parts at their end. -/
theorem splitLoop_passed (n : Nat) {k : Nat} (hk : k ≤ st.i) :
    (splitLoop avMax c n st).ptr.take k = st.ptr.take k ∧
      st.av <+: (splitLoop avMax c n st).av := by
  induction n generalizing st with
  | zero => exact ⟨rfl, List.prefix_refl _⟩
  | succ n ih =>
    rw [splitLoop]
    split
    · split
      · exact @ih { st with i := st.i + 1 } (Nat.le_succ_of_le hk)
      · obtain ⟨hptr, hav⟩ := @ih
          { ptr := st.ptr.set st.i 0, i := st.i + 1, j := st.i + 1, av := st.av ++ [st.j] }
          (Nat.le_succ_of_le hk)
        refine ⟨hptr.trans (List.take_set_of_le hk), ?_⟩
        exact (List.prefix_append st.av [st.j]).trans hav
    · exact ⟨rfl, List.prefix_refl _⟩

theorem takeWhile_part (part rest : Bytes) :
    (part ++ 0 :: rest).takeWhile (· != 0) = part.takeWhile (· != 0) := by
  induction part with
  | nil => rfl
  | cons b part ih => rw [List.cons_append, List.takeWhile_cons, List.takeWhile_cons, ih]

/-- What is read of a part once the loop has passed its separator. -/
theorem cString_part {pre part rest ptr : Bytes} {k : Nat} (hk : pre.length = k)
    (hptr : pre ++ (part ++ 0 :: rest) <+: ptr) : cString ptr k = part.takeWhile (· != 0) := by
  obtain ⟨more, rfl⟩ := hptr
  rw [cString, ← hk, List.append_assoc, List.drop_left, List.append_assoc, List.cons_append,
    takeWhile_part]

theorem split_loop {str : Bytes} {strLen : Nat} (h : strLen ≠ 0) :
    (split str strLen avMax c).ptr =
      (splitLoop avMax c strLen { ptr := str, i := 0, j := 0, av := [] }).ptr ∧
    (splitLoop avMax c strLen { ptr := str, i := 0, j := 0, av := [] }).av <+:
      (split str strLen avMax c).av := by
  simp only [split, if_neg h]
  split
  · exact ⟨rfl, List.prefix_append _ _⟩
  · exact ⟨rfl, List.prefix_refl _⟩

/-- The loop is past three parts. -/
def threeParts (a b d rest : Bytes) : SplitState :=
  { ptr := a ++ 0 :: (b ++ 0 :: (d ++ 0 :: rest))
    i := a.length + 1 + b.length + 1 + d.length + 1
    j := a.length + 1 + b.length + 1 + d.length + 1
    av := [0, a.length + 1, a.length + 1 + b.length + 1] }

theorem splitLoop_three {a b d rest : Bytes} (ha : colon ∉ a) (hb : colon ∉ b) (hd : colon ∉ d) :
    splitLoop 8 colon (a ++ colon :: (b ++ colon :: (d ++ colon :: rest))).length
      { ptr := a ++ colon :: (b ++ colon :: (d ++ colon :: rest)), i := 0, j := 0, av := [] } =
    splitLoop 8 colon rest.length (threeParts a b d rest) := by
  have hfirst := @splitLoop_part 8 colon [] a (b ++ colon :: (d ++ colon :: rest)) 0 rfl ha 0 []
    (by decide)
  have hsecond := @splitLoop_part 8 colon (a ++ [0]) b (d ++ colon :: rest) (a.length + 1) (by simp) hb
    (a.length + 1) [0] (by simp)
  have hthird := @splitLoop_part 8 colon (a ++ 0 :: (b ++ [0])) d rest (a.length + 1 + b.length + 1)
    (by simp; omega) hd (a.length + 1 + b.length + 1) [0, a.length + 1] (by simp)
  simp only [List.append_assoc, List.cons_append, List.nil_append, Nat.zero_add] at hfirst hsecond hthird
  have hlength : (a ++ colon :: (b ++ colon :: (d ++ colon :: rest))).length =
      (a.length + 1) + ((b.length + 1) + ((d.length + 1) + rest.length)) := by
    simp only [List.length_append, List.length_cons]
    omega
  rw [hlength, splitLoop_add, hfirst, splitLoop_add, hsecond, splitLoop_add, hthird,
    threeParts]

theorem splitIdList_eq {a b d rest : Bytes} (ha : colon ∉ a) (hb : colon ∉ b) (hd : colon ∉ d)
    (out : Bytes × Bytes × Bytes) :
    splitIdList (a ++ colon :: (b ++ colon :: (d ++ colon :: rest))) out =
      (a.takeWhile (· != 0), b.takeWhile (· != 0), d.takeWhile (· != 0)) := by
  have hlen : (a ++ colon :: (b ++ colon :: (d ++ colon :: rest))).length ≠ 0 := by simp
  obtain ⟨hptr, more, hmore⟩ := @split_loop 8 colon (a ++ colon :: (b ++ colon :: (d ++ colon :: rest)))
    _ hlen
  rw [splitLoop_three ha hb hd] at hptr hmore
  obtain ⟨htake, hav⟩ := @splitLoop_passed 8 colon (threeParts a b d rest) rest.length _ (Nat.le_refl _)
  obtain ⟨others, hav⟩ := hav.trans ⟨more, hmore⟩
  have hread : a ++ 0 :: (b ++ 0 :: (d ++ [0])) <+: (splitLoop 8 colon rest.length
      (threeParts a b d rest)).ptr := by
    have hparts : (threeParts a b d rest).ptr.take (threeParts a b d rest).i =
        a ++ 0 :: (b ++ 0 :: (d ++ [0])) := by
      have hsplit : (threeParts a b d rest).ptr = (a ++ 0 :: (b ++ 0 :: (d ++ [0]))) ++ rest := by
        simp [threeParts]
      have hlen : (threeParts a b d rest).i = (a ++ 0 :: (b ++ 0 :: (d ++ [0]))).length := by
        simp only [threeParts, List.length_append, List.length_cons, List.length_nil]
        omega
      rw [hsplit, hlen, List.take_left]
    rw [← hparts, ← htake]
    exact List.take_prefix _ _
  rw [splitIdList, ← hav, hptr]
  have hfirst : cString (splitLoop 8 colon rest.length (threeParts a b d rest)).ptr 0 =
      a.takeWhile (· != 0) := @cString_part [] a _ _ 0 rfl hread
  have hsecond : cString (splitLoop 8 colon rest.length (threeParts a b d rest)).ptr (a.length + 1) =
      b.takeWhile (· != 0) := by
    refine @cString_part (a ++ [0]) b (d ++ [0]) _ _ (by simp) ?_
    simpa using hread
  have hthird : cString (splitLoop 8 colon rest.length (threeParts a b d rest)).ptr
      (a.length + 1 + b.length + 1) = d.takeWhile (· != 0) := by
    refine @cString_part (a ++ 0 :: (b ++ [0])) d [] _ _ ?_ ?_
    · simp only [List.length_append, List.length_cons, List.length_nil]
      omega
    · simpa using hread
  simp only [threeParts, List.cons_append, List.nil_append] at hfirst hsecond hthird ⊢
  rw [hfirst, hsecond, hthird]

namespace CRedisListProxy

variable {p q : CRedisListProxy}

theorem sIdList_eq : p.sIdList =
    p.sModuleName ++ colon :: (p.sMainId ++ colon :: (p.sSubid ++ colon :: [76])) := by
  simp [sIdList, name, ascii, colon]

theorem name_eq : p.name = p.sModuleName ++ colon :: (p.sMainId ++ colon :: p.sSubid) := by
  simp [name, ascii, colon]

theorem Plain.ofIdList (h : p.Plain) : ofIdList p.sIdList = p := by
  have hall : ∀ {l : Bytes}, 0 ∉ l → l.takeWhile (· != 0) = l := by
    intro l hl
    refine List.takeWhile_eq_self_iff.2 fun b hb => bne_iff_ne.2 ?_
    rintro rfl
    exact hl hb
  have hsplit := @splitIdList_eq _ _ _ [76] h.sModuleName.1 h.sMainId.1 h.sSubid.1 ([], [], [])
  rw [CRedisListProxy.ofIdList, sIdList_eq, hsplit, hall h.sModuleName.2, hall h.sMainId.2,
    hall h.sSubid.2]

theorem part_plain {l : Bytes} (h : colon ∉ l) :
    colon ∉ l.takeWhile (· != 0) ∧ 0 ∉ l.takeWhile (· != 0) := by
  constructor
  · intro hmem
    exact h ((List.takeWhile_sublist _).subset hmem)
  · intro hmem
    have := List.mem_takeWhile_imp hmem
    cases this

/-- Parts without separators and NULs, whatever the key was made of. -/
theorem ofIdList_plain : (ofIdList p.sIdList).Plain := by
  have hcut : ∀ l : Bytes, 0 < l.count colon →
      ∃ a rest, l = a ++ colon :: rest ∧ colon ∉ a ∧ l.count colon = rest.count colon + 1 := by
    intro l hl
    obtain ⟨a, rest, rfl, ha⟩ := List.eq_append_cons_of_mem (List.count_pos_iff.1 hl)
    refine ⟨a, rest, rfl, ha, ?_⟩
    rw [List.count_append, List.count_eq_zero_of_not_mem ha, List.count_cons_self, Nat.zero_add]
  have hcount : 2 < p.sIdList.count colon := by
    rw [sIdList_eq]
    simp only [List.count_append, List.count_cons_self]
    omega
  obtain ⟨a, l, ha, hna, hl⟩ := hcut p.sIdList (by omega)
  obtain ⟨b, l', hb, hnb, hl'⟩ := hcut l (by omega)
  obtain ⟨d, rest, hd, hnd, -⟩ := hcut l' (by omega)
  have hsplit := @splitIdList_eq a b d rest hna hnb hnd ([], [], [])
  rw [CRedisListProxy.ofIdList, ha, hb, hd, hsplit]
  exact ⟨part_plain hna, part_plain hnb, part_plain hnd⟩

/-- The separators in a name tell if its parts have any. -/
theorem Plain.of_name (h : q.Plain) (hname : q.name = p.name) : p.Plain := by
  have hcount : q.name.count colon = 2 := by
    simp only [name_eq, List.count_append, List.count_cons_self,
      List.count_eq_zero_of_not_mem h.sModuleName.1, List.count_eq_zero_of_not_mem h.sMainId.1,
      List.count_eq_zero_of_not_mem h.sSubid.1]
  have hnul : 0 ∉ q.name := by
    simp [name_eq, h.sModuleName.2, h.sMainId.2, h.sSubid.2, colon]
  rw [hname, name_eq] at hcount hnul
  simp only [List.count_append, List.count_cons_self, List.mem_append, List.mem_cons, not_or] at hcount hnul
  exact ⟨⟨List.count_eq_zero.1 (by omega), hnul.1⟩, ⟨List.count_eq_zero.1 (by omega), hnul.2.2.1⟩,
    ⟨List.count_eq_zero.1 (by omega), hnul.2.2.2.2⟩⟩

/-- The key that a proxy was made of is the key its parts make if and only if they are plain. -/
theorem keyedProxy_sIdList_iff :
    (keyedProxy p.sIdList).sIdList = (keyedProxy p.sIdList).parts.sIdList ↔ p.Plain := by
  constructor
  · intro h
    exact ofIdList_plain.of_name (sIdList_inj.1 h).symm
  · intro h
    exact congrArg sIdList h.ofIdList.symm

/-- The proxy that is made of the key of a list has the marks of that list if and only if
the parts of the key are plain, and then it is the proxy itself. Two proxies of plain parts
have a list in common only if they are the same. -/
theorem ofIdList_iff : ((ofIdList p.sIdList).sIdHashOfCAS = p.sIdHashOfCAS ↔ p.Plain) ∧
    (ofIdList p.sIdList = p ↔ p.Plain) ∧
      ∀ q : CRedisListProxy, p.Plain → q.Plain → p.sIdList = q.sIdList → p = q := by
  refine ⟨⟨fun h => ?_, fun h => ?_⟩, ⟨fun h => ?_, Plain.ofIdList⟩, fun q hp hq h => ?_⟩
  · exact ofIdList_plain.of_name (sIdHashOfCAS_inj.1 h)
  · rw [h.ofIdList]
  · exact h ▸ ofIdList_plain
  · rw [← hp.ofIdList, h, hq.ofIdList]

end CRedisListProxy

end KjRedis.Cache
