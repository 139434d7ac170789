import KjRedis.Rdb.Ziplist
import KjRedis.Rdb.Zipmap

/-! What the loaders read of a blob. They are run on its bytes and no more, so that reading
outside them is seen. -/
namespace KjRedis.Rdb

open Reply

variable {b bs : List UInt8} {p n : Nat}

/-- Nothing outside the memory is read. -/
def Inside {α : Type} (x : Loaded α) : Prop := x ≠ .error .outside

theorem inside_ok {α : Type} (a : α) : Inside (.ok a) := fun h => by cases h

theorem inside_bind {α β : Type} {x : Loaded α} {f : α → Loaded β} :
    Inside (x >>= f) ↔ x = .error .failed ∨ ∃ a, x = .ok a ∧ Inside (f a) := by
  cases x with
  | ok a =>
    constructor
    · intro h
      exact Or.inr ⟨a, rfl, h⟩
    · rintro (h | ⟨a', ha, h⟩)
      · cases h
      · cases ha
        exact h
  | error e =>
    cases e with
    | outside =>
      constructor
      · intro h
        exact absurd rfl h
      · rintro (h | ⟨a, ha, -⟩)
        · cases h
        · cases ha
    | failed =>
      constructor
      · intro
        exact Or.inl rfl
      · intro _ h
        cases h

theorem inside_of_bind {α β : Type} {x : Loaded α} {f : α → Loaded β} (h : Inside (x >>= f)) :
    Inside x := by
  intro hout
  rw [hout] at h
  exact h rfl

theorem inside_failed {α : Type} : Inside (.error .failed : Loaded α) := fun h => by cases h

theorem lies_map_iff : Lies (b.map some) p bs ↔ ∃ more, b.drop p = bs ++ more := by
  rw [Lies, ← List.map_drop]
  constructor
  · rintro ⟨rest, hrest⟩
    obtain ⟨xs, ys, heq, hxs, hys⟩ := List.map_eq_append_iff.1 hrest.symm
    obtain rfl := List.map_injective_iff.2 (Option.some_injective _) hxs
    exact ⟨ys, heq⟩
  · rintro ⟨more, hmore⟩
    rw [hmore, List.map_append]
    exact List.prefix_append _ _

theorem drop_of_append {s more : List UInt8} (h : b.drop p = s ++ more) :
    b.drop (p + s.length) = more := by
  rw [← List.drop_drop, h, List.drop_left]

theorem lies_of_drop {s more : List UInt8} (h : b.drop p = s ++ more) : Lies (b.map some) p s :=
  lies_map_iff.2 ⟨more, h⟩

theorem inside_byteAt (h : Inside (byteAt (b.map some) p)) :
    ∃ c more, byteAt (b.map some) p = .ok c ∧ b.drop p = c :: more := by
  cases hdrop : b.drop p with
  | nil =>
    have hle : b.length ≤ p := List.drop_eq_nil_iff.1 hdrop
    have hnone : (b.map some)[p]? = none := by
      rw [List.getElem?_eq_none_iff, List.length_map]
      exact hle
    rw [byteAt, hnone] at h
    exact absurd rfl h
  | cons c more => exact ⟨c, more, byteAt_eq_ok.2 (lies_of_drop (s := [c]) hdrop), rfl⟩

theorem inside_bytesAt (h : Inside (bytesAt (b.map some) p n)) :
    ∃ bs more, bytesAt (b.map some) p n = .ok bs ∧ bs.length = n ∧ b.drop p = bs ++ more := by
  induction n generalizing p with
  | zero => exact ⟨[], b.drop p, rfl, rfl, rfl⟩
  | succ n ih =>
    rw [bytesAt] at h ⊢
    rcases inside_bind.1 h with hfail | ⟨c, hc, hrest⟩
    · obtain ⟨c, _, hc, -⟩ := inside_byteAt (by rw [hfail]; exact inside_failed)
      rw [hfail] at hc
      cases hc
    · obtain ⟨more, hmore⟩ := lies_map_iff.1 (byteAt_eq_ok.1 hc)
      have hinside : Inside (bytesAt (b.map some) (p + 1) n) := by
        intro hout
        rw [hout] at hrest
        exact hrest rfl
      obtain ⟨bs, more', hbs, hlen, hdrop⟩ := ih hinside
      rw [hc, ok_bind, hbs]
      refine ⟨c :: bs, more', rfl, by rw [List.length_cons, hlen], ?_⟩
      have hstep := drop_of_append hmore
      rw [List.length_singleton, hdrop] at hstep
      rw [hmore, ← hstep]
      rfl

theorem inside_copyAt (h : Inside (copyAt (b.map some) p n)) :
    ∃ bs more, copyAt (b.map some) p n = .ok (bs.map some) ∧ bs.length = n ∧
      b.drop p = bs ++ more ∧ p ≤ b.length := by
  rw [copyAt] at h ⊢
  split at h
  · next hle =>
    rw [List.length_map] at hle
    refine ⟨(b.drop p).take n, (b.drop p).drop n, ?_, ?_, (List.take_append_drop _ _).symm, by omega⟩
    · rw [if_pos (by rwa [List.length_map]), List.map_take, List.map_drop]
    · rw [List.length_take, List.length_drop]
      omega
  · exact absurd rfl h

theorem byteAt_bind_inside {α : Type} {f : UInt8 → Loaded α}
    (h : Inside (byteAt (b.map some) p >>= f)) :
    ∃ c more, byteAt (b.map some) p = .ok c ∧ b.drop p = c :: more ∧ Inside (f c) := by
  obtain ⟨c, more, hc, hdrop⟩ := inside_byteAt (inside_of_bind h)
  rw [hc] at h
  exact ⟨c, more, hc, hdrop, h⟩

/-- What `__zipmap_entry_len_size` and `__zipmap_entry_strlen` make of the bytes at `p`. -/
theorem inside_zipmapEntry (h : Inside (zipmapEntry (b.map some) p)) :
    ∃ len n more, zipmapEntry (b.map some) p = .ok (len.length, n) ∧ b.drop p = len ++ more ∧
      (IsZmLength len n ∨ len = [] ∧ n = 0 ∧ ∃ c rest, 0xfd < c ∧ more = c :: rest) := by
  rw [zipmapEntry] at h ⊢
  obtain ⟨c, more, hc, hdrop, h⟩ := byteAt_bind_inside h
  rw [hc, ok_bind]
  split at h
  · next hlt =>
    rw [if_pos hlt]
    have hn : c.toNat < 0xfd := UInt8.lt_iff_toNat_lt.1 hlt
    have heq : UInt8.ofNat c.toNat = c := UInt8.ofNat_toNat
    have hlen := IsZmLength.byte hn
    rw [heq] at hlen
    exact ⟨[c], c.toNat, more, rfl, hdrop, Or.inl hlen⟩
  split at h
  · next hnot hmark =>
    rw [if_neg hnot, if_pos hmark]
    obtain ⟨bs, more', hbs, hlen, hdrop'⟩ := inside_bytesAt (inside_of_bind h)
    rw [hbs, ok_bind]
    have hmore := drop_of_append (s := [c]) hdrop
    rw [List.length_singleton, hdrop'] at hmore
    have hnat : leNat bs < 2 ^ 32 := by
      have := leNat_lt bs
      rwa [hlen] at this
    have hbytes : leBytes 4 (leNat bs) = bs := by rw [← hlen, leBytes_leNat]
    have hzm := IsZmLength.marked hnat
    rw [hbytes] at hzm
    refine ⟨0xfd :: bs, leNat bs, more', ?_, ?_, Or.inl hzm⟩
    · rw [List.length_cons, hlen]
      rfl
    · rw [hdrop, ← hmore, hmark]
      rfl
  · next hnot hmark =>
    rw [if_neg hnot, if_neg hmark]
    have hgt : 0xfd < c := by
      rcases UInt8.lt_or_eq_of_le (UInt8.not_lt.1 hnot) with hlt | heq
      · exact hlt
      · exact absurd heq.symm hmark
    exact ⟨[], 0, c :: more, rfl, hdrop, Or.inr ⟨rfl, rfl, c, more, hgt, rfl⟩⟩

theorem inside_copyInt (h : Inside (copyInt (b.map some) p n)) :
    n = 2 ^ 31 - 1 ∨ n + 1 < 2 ^ 31 ∧ p ≤ b.length ∧ ∃ bs more,
      copyInt (b.map some) p n = .ok (bs.map some) ∧ bs.length = n ∧ b.drop p = bs ++ more := by
  rw [copyInt] at h ⊢
  split at h
  · exact absurd rfl h
  split at h
  · exact Or.inl (by omega)
  · next hlarge hlast =>
    obtain ⟨bs, more, hcopy, hlen, hdrop, hp⟩ := inside_copyAt h
    refine Or.inr ⟨by omega, hp, bs, more, ?_, hlen, hdrop⟩
    rw [if_neg hlarge, if_neg hlast, hcopy]

theorem copyInt_last (mem : Memory) (p : Nat) : copyInt mem p (2 ^ 31 - 1) = .error .failed := by
  rw [copyInt, if_neg (by omega), if_pos (by omega)]

theorem zipmapEntry_none {mem : Memory} {zm : Nat} {c : UInt8} (h : Lies mem zm [c]) (hc : 0xfd < c) :
    zipmapEntry mem zm = .ok (0, 0) := by
  have hlt : ¬ c < 0xfd := fun h => absurd (UInt8.lt_trans h hc) (UInt8.lt_irrefl _)
  have hne : c ≠ 0xfd := fun h => absurd (h ▸ hc) (UInt8.lt_irrefl _)
  rw [zipmapEntry, byteAt_eq_ok.2 h, ok_bind, if_neg hlt, if_neg hne]
  rfl

/-- A round of the loop after the length of a key. -/
theorem zipmapLoop_round {mem : Memory} {zm fuel ksize klen : Nat} {c : UInt8} (hc : Lies mem zm [c])
    (hnotEnd : c ≠ 0xff) (hkey : zipmapEntry mem zm = .ok (ksize, klen)) :
    zipmapLoop mem (fuel + 1) zm = copyInt mem (zm + ksize) klen >>= fun key =>
      zipmapEntry mem (zm + ksize + klen) >>= fun (vsize, vlen) =>
        copyInt mem (zm + ksize + klen + vsize + 1) vlen >>= fun val =>
          zipmapLoop mem fuel (zm + ksize + klen + vsize + vlen + 1) >>= fun rest =>
            .ok (⟨some key, some val⟩ :: rest) := by
  rw [zipmapLoop, byteAt_eq_ok.2 hc, ok_bind, if_neg hnotEnd, hkey, ok_bind]
  rfl

theorem drop_drop_of_append {more more' : List UInt8} {q : Nat} (h : b.drop p = bs ++ more)
    (hq : q = p + bs.length) (h' : b.drop q = more') : b.drop p = bs ++ more' := by
  rw [h, ← drop_of_append h, ← hq, h']

theorem copyInt_nil {mem : Memory} {p : Nat} (hp : p ≤ mem.length) : copyInt mem p 0 = .ok [] :=
  @copyInt_lies mem p [] hp List.nil_prefix (by decide)

/-- A round on a key with a length. -/
theorem zipmapLoop_key {mem : Memory} {zm fuel : Nat} {keyLen key : List UInt8}
    (hkey : IsZmLength keyLen key.length) (hk : key.length + 1 < 2 ^ 31)
    (h : Lies mem zm (keyLen ++ key)) :
    zipmapLoop mem (fuel + 1) zm =
      zipmapEntry mem (zm + keyLen.length + key.length) >>= fun (vsize, vlen) =>
        copyInt mem (zm + keyLen.length + key.length + vsize + 1) vlen >>= fun val =>
          zipmapLoop mem fuel (zm + keyLen.length + key.length + vsize + vlen + 1) >>= fun rest =>
            .ok (⟨some (key.map some), some val⟩ :: rest) := by
  obtain ⟨hlen, hbytes⟩ := lies_append.1 h
  obtain ⟨c, tail, rfl, hnotEnd⟩ := isZmLength_head hkey
  have hc := (lies_cons.1 hlen).1
  have hle := hlen.length_le (Nat.le_of_lt hc.lt)
  rw [zipmapLoop_round hc hnotEnd (zipmapEntry_length hkey hlen), copyInt_lies hle hbytes hk, ok_bind]

end KjRedis.Rdb
