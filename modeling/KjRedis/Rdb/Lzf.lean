import KjRedis.Rdb.Strings

/-! LZF strings: what is delivered of any compressed bytes. -/
namespace KjRedis.Rdb

open BackReference Resumption

section Build

variable {val : StrRef} {d n : Nat} {rp : RdbParser} {cLen len compressed : List UInt8}

/-- The three rounds on a string that is whole. -/
theorem lzf_rounds (hcLen : IsRdbLength cLen compressed.length)
    (hlen : IsRdbLength len n) (hno : ¬ noBuffer compressed.length) :
    ∃ rp', Same (d + 1) rp rp' ∧ rp'.nelts = d + 2 ∧
      Runs (builderLoop (lzfBody val) (d + 1)) (pushed (d + 1) rp) (cLen ++ (len ++ compressed))
        (match decompressed (some (compressed.map some)) n with
          | .error rc => (rc, rp', [])
          | .ok s => (.over, rp'.setStr s val, [])) := by
  have hslot := pushed_slot (d + 1) rp
  set rp₁ := pushed (d + 1) rp with hrp₁
  set rp₂ := (rp₁.write (d + 1) { RdbObjectBuilder.zero with
    depth := d + 1, cLen := compressed.length, state := buildLzfStringRawLen,
    tmpVal := some [] }).calcCrc cLen.length with hrp₂
  have hslot₂ : rp₂.slots (d + 1) = { RdbObjectBuilder.zero with
      depth := d + 1, cLen := compressed.length, state := buildLzfStringRawLen, tmpVal := some [] } := by
    simp only [hrp₂, RdbParser.calcCrc, RdbParser.write, Function.update_self]
  set rp₃ := (rp₂.write (d + 1) { rp₂.slots (d + 1) with
    len := n, state := buildLzfStringLzf }).calcCrc len.length with hrp₃
  have hslot₃ : rp₃.slots (d + 1) = { RdbObjectBuilder.zero with
      depth := d + 1, cLen := compressed.length, state := buildLzfStringLzf, tmpVal := some [],
      len := n } := by
    simp only [hrp₃, RdbParser.calcCrc, RdbParser.write, Function.update_self, hslot₂]
  have hfirst : buildCompressLen (d + 1) rp₁ (cLen ++ (len ++ compressed)) =
      (.again, rp₂, len ++ compressed) := by
    rw [buildCompressLen, hslot, readStoreLen_length hcLen]
    simp only [List.drop_left]
    rfl
  have hsecond : buildRawLen (d + 1) rp₂ (len ++ compressed) = (.again, rp₃, compressed) := by
    rw [buildRawLen, readStoreLen_length hlen]
    simp only [List.drop_left]
    rfl
  have hthird := @buildLzf_fresh val (d + 1) compressed.length n rp₃ compressed (by rw [hslot₃])
    (by rw [hslot₃]) (by rw [hslot₃])
  rw [if_neg fun hstray => hno hstray.1] at hthird
  simp only [Nat.lt_irrefl, if_false, List.take_length, List.drop_length, Nat.min_self] at hthird
  set rp₄ := (rp₃.write (d + 1) { rp₃.slots (d + 1) with
    tmpVal := some (compressed.map some) }).calcCrc compressed.length with hrp₄
  have hsame : Same (d + 1) rp rp₄ :=
    ((((((same_pushed (d + 1) rp).trans (same_write (Nat.le_refl _) _)).calcCrc _).trans
      (same_write (Nat.le_refl _) _)).calcCrc _).trans (same_write (Nat.le_refl _) _)).calcCrc _
  refine ⟨rp₄, hsame, rfl, ?_⟩
  have hone : Runs (lzfBody val (d + 1)) rp₁ _ _ := (lzfBody_idle (by rw [hslot]; rfl)).2 hfirst
  have htwo : Runs (lzfBody val (d + 1)) rp₂ _ _ := (lzfBody_rawLen (by rw [hslot₂])).2 hsecond
  have hthree : Runs (lzfBody val (d + 1)) rp₃ _ _ := (lzfBody_lzf (by rw [hslot₃])).2 hthird
  refine hone.more rfl (htwo.more rfl ?_)
  cases hdata : decompressed (some (compressed.map some)) n with
  | ok s =>
    rw [hdata] at hthree
    exact hthree.last rfl
  | error rc =>
    rw [hdata] at hthree
    rcases decompressed_error hdata with rfl | rfl
    · exact hthree.last rfl
    · exact hthree.last rfl

/-- A buffer whose size wraps is written to. -/
def LzfStrays (compressed : List UInt8) (n : Nat) : Prop :=
  noBuffer compressed.length ∨ noBuffer n ∧ lzfWrites compressed

/-- The compressed bytes are no stream of tokens for fewer bytes than declared. -/
structure LzfFull (compressed : List UInt8) (n : Nat) : Prop where
  inside : ¬ LzfStrays compressed n
  full : ∀ raw, LzfExpands compressed raw → n ≤ raw.length

theorem LzfFull.of_decompress (hin : ¬ LzfStrays compressed n)
    (h : ∀ raw, lzfDecompress compressed n = some raw → n ≤ raw.length) : LzfFull compressed n := by
  refine ⟨hin, fun raw hexpands => ?_⟩
  by_contra hshort
  exact hshort (h raw (lzfDecompress_iff.2 ⟨by omega, hexpands⟩))

/-- How a call on the whole string ends. -/
theorem lzf_call (htop : AtTop d rp) (hd : d + 1 < 2 ^ 8) (hval : val.Under d)
    (hcLen : IsRdbLength cLen compressed.length) (hlen : IsRdbLength len n) :
    ∃ rc rp' rest, Runs (buildLzfStringValue val d) rp (cLen ++ (len ++ compressed)) (rc, rp', rest) ∧
      (LzfStrays compressed n ∧ rc = .stray ∨
        ¬ LzfStrays compressed n ∧ rest = [] ∧
          match lzfDecompress compressed n with
          | none => rc = .lzfDecompress ∧ rp'.str val = rp.str val
          | some raw => rc = .over ∧
            rp'.str val = some (raw.map some ++ List.replicate (n - raw.length) none)) := by
  by_cases hno : noBuffer compressed.length
  · have hne : compressed ≠ [] := by
      rintro rfl
      rw [noBuffer] at hno
      cases hno
    have hfollows := @lzf_follows val d rp (cLen ++ (len ++ compressed)) htop hd hval
    have hread : readLzf (cLen ++ (len ++ compressed)) = .stray := by
      rw [readLzf, readLen_length hcLen]
      simp only [Read.bind, readLen_length hlen]
      rw [readBytes, if_pos ⟨hno, hne⟩]
    rw [hread] at hfollows
    obtain ⟨rp', left, hrun⟩ := hfollows
    exact ⟨.stray, rp', left, hrun, .inl ⟨.inl hno, rfl⟩⟩
  · obtain ⟨rp', hsame, hnelts, hloop⟩ := @lzf_rounds val d n rp _ _ _ hcLen hlen hno
    by_cases hstray : noBuffer n ∧ lzfWrites compressed
    · have hdata : decompressed (some (compressed.map some)) n = .error .stray := by
        rw [decompressed]
        simp only [Option.getD_some, mapM_id_some, if_pos hstray]
      rw [hdata] at hloop
      exact ⟨_, _, _, runs_popOver htop hd hloop, .inl ⟨.inr hstray, rfl⟩⟩
    · have hin : ¬ LzfStrays compressed n := not_or.2 ⟨hno, hstray⟩
      cases hraw : lzfDecompress compressed n with
      | none =>
        have hdata : decompressed (some (compressed.map some)) n = .error .lzfDecompress := by
          rw [decompressed]
          simp only [Option.getD_some, mapM_id_some, if_neg hstray, hraw]
        rw [hdata] at hloop
        exact ⟨_, _, _, runs_popOver htop hd hloop, .inr ⟨hin, rfl, rfl, same_str hval hsame⟩⟩
      | some raw =>
        have hdata : decompressed (some (compressed.map some)) n =
            .ok (some (raw.map some ++ List.replicate (n - raw.length) none)) := by
          rw [decompressed]
          simp only [Option.getD_some, mapM_id_some, if_neg hstray, hraw]
        rw [hdata] at hloop
        refine ⟨_, _, _, runs_popOver htop hd hloop, .inr ⟨hin, rfl, rfl, ?_⟩⟩
        have hpop := (pop_same (rp'.setStr (some (raw.map some ++
          List.replicate (n - raw.length) none)) val) ((nelts_setStr _).trans hnelts)).1
        exact (same_str hval hpop).trans (str_setStr _ _ _)

/-- However what starts with the string is cut, the first call that does not run out of input ends
behind the string. Either it is over, and the value is what all of the compressed bytes make, as long
as declared; or they make nothing of that length, it is the decompressor's error, and the value is
what it was. -/
def FullyDecompressed (cLen len compressed : List UInt8) (n : Nat) (val : StrRef) (ob : Nat)
    (rp : RdbParser) : Prop :=
  ∀ (chunks : List (List UInt8)) (rest : List UInt8),
    chunks.flatten = cLen ++ (len ++ compressed) ++ rest →
    ∃ k < chunks.length, ∃ rc rp' rest', rest' ++ (chunks.drop (k + 1)).flatten = rest ∧
      Feeds (buildLzfStringValue val ob) rp [] (chunks.take (k + 1))
        (List.replicate k .premature ++ [rc]) rp' rest' ∧
      (rc = .over ∧ (∃ raw, LzfExpands compressed raw ∧ raw.length = n ∧
          rp'.str val = some (raw.map some)) ∨
        rc = .lzfDecompress ∧ (¬ ∃ raw, LzfExpands compressed raw ∧ raw.length = n) ∧
          rp'.str val = rp.str val)

theorem IsRdbLength.ne_nil {len : List UInt8} (h : IsRdbLength len n) : len ≠ [] := by
  cases h <;> exact List.cons_ne_nil _ _

/-- A string of fewer bytes than declared is taken for a whole one. -/
theorem FullyDecompressed.full (htop : AtTop d rp) (hd : d + 1 < 2 ^ 8) (hval : val.Under d)
    (hcLen : IsRdbLength cLen compressed.length) (hlen : IsRdbLength len n)
    (h : FullyDecompressed cLen len compressed n val d rp) : LzfFull compressed n := by
  obtain ⟨rc, rp', rest, hrun, hends⟩ := @lzf_call val d n rp _ _ _ htop hd hval hcLen hlen
  obtain ⟨k, hk, rc', rp'', rest', -, hfeeds, hcode⟩ := h [cLen ++ (len ++ compressed)] [] (by simp)
  obtain rfl : k = 0 := Nat.lt_one_iff.1 hk
  cases hfeeds with
  | cons hcall hnil =>
    cases hnil
    obtain ⟨rfl, heq⟩ := Prod.mk.inj (hrun.unique hcall)
    obtain ⟨rfl, -⟩ := Prod.mk.inj heq
    rcases hends with ⟨-, rfl⟩ | ⟨hin, -, hends⟩
    · rcases hcode with ⟨hrc, -⟩ | ⟨hrc, -⟩ <;> cases hrc
    · refine LzfFull.of_decompress hin fun raw hraw => ?_
      rw [hraw] at hends
      obtain ⟨rfl, hstr⟩ := hends
      rcases hcode with ⟨-, raw', -, hraw', hstr'⟩ | ⟨hrc, -⟩
      · -- a byte that was never written is none of the value's
        by_contra hshort
        have hsame := Option.some.inj (hstr.symm.trans hstr')
        have hnone : none ∈ raw'.map some := by
          rw [← hsame, List.mem_append, List.mem_replicate]
          exact .inr ⟨by omega, rfl⟩
        obtain ⟨x, -, hx⟩ := List.mem_map.1 hnone
        cases hx
      · cases hrc

/-- A string that is accepted is fully decompressed, and any other is refused, if and only if the
compressed bytes are no stream of tokens for fewer bytes than declared. -/
theorem fullyDecompressed_iff (htop : AtTop d rp) (hd : d + 1 < 2 ^ 8) (hval : val.Under d)
    (hcLen : IsRdbLength cLen compressed.length) (hlen : IsRdbLength len n) :
    FullyDecompressed cLen len compressed n val d rp ↔ LzfFull compressed n := by
  refine ⟨FullyDecompressed.full htop hd hval hcLen hlen, fun hfull chunks rest' hcut => ?_⟩
  obtain ⟨rc, rp', rest, hrun, hends⟩ := @lzf_call val d n rp _ _ _ htop hd hval hcLen hlen
  obtain ⟨hin, rfl, hend⟩ := hends.resolve_left fun hstray => hfull.inside hstray.1
  have hlaw := lawful_buildLzfStringValue val hd
  have hcode : rc ≠ .premature := by
    cases hraw : lzfDecompress compressed n with
    | none =>
      rw [hraw] at hend
      rw [hend.1]
      exact Rc.noConfusion
    | some raw =>
      rw [hraw] at hend
      rw [hend.1]
      exact Rc.noConfusion
  have hmore := hlaw.extend htop.stacked hrun hcode rest'
  have hne : chunks ≠ [] := by
    rintro rfl
    exact hcLen.ne_nil (List.append_eq_nil_iff.1 (List.append_eq_nil_iff.1 hcut.symm).1).1
  rw [← hcut, List.nil_append] at hmore
  change Runs _ rp ([] ++ chunks.flatten) _ at hmore
  obtain ⟨k, hk, left, hleft, hfeeds⟩ := hlaw.feeds_until htop.stacked hne hcode hmore
  refine ⟨k, hk, rc, rp', left, hleft, hfeeds, ?_⟩
  cases hraw : lzfDecompress compressed n with
  | none =>
    rw [hraw] at hend
    refine .inr ⟨hend.1, ?_, hend.2⟩
    rintro ⟨raw, hexpands, rfl⟩
    have hsome := hexpands.decompress
    rw [hraw] at hsome
    cases hsome
  | some raw =>
    rw [hraw] at hend
    obtain ⟨hle, hexpands⟩ := lzfDecompress_iff.1 hraw
    have hwhole : raw.length = n := Nat.le_antisymm hle (hfull.full raw hexpands)
    refine .inl ⟨hend.1, raw, hexpands, hwhole, ?_⟩
    rw [hend.2, hwhole, Nat.sub_self, List.replicate_zero, List.append_nil]

end Build

/-- The letter `a`, a literal run of one byte. -/
theorem fullyDecompressed_iff_a : FullyDecompressed [2] [1] [0, 97] 1 .objectKey 0 oneBuilder := by
  have hiff : FullyDecompressed [2] [1] [0, 97] 1 .objectKey 0 oneBuilder ↔ LzfFull [0, 97] 1 :=
    fullyDecompressed_iff atTop_oneBuilder (by decide) trivial (.six (by decide)) (.six (by decide))
  refine hiff.2 (.of_decompress (fun hstrays => ?_) fun raw hraw => ?_)
  · rcases hstrays with hwraps | ⟨hwraps, -⟩
    · exact absurd hwraps (by decide)
    · exact absurd hwraps (by decide)
  · have hout : lzfDecompress [0, 97] 1 = some [97] := by decide +kernel
    obtain rfl := Option.some.inj (hout.symm.trans hraw)
    exact Nat.le_refl 1

/-- Declared as two bytes it is accepted as well, and a byte of the value was never written. -/
theorem not_fullyDecompressed_short :
    (∃ rp', Runs (buildLzfStringValue .objectKey 0) oneBuilder [2, 2, 0, 97] (.over, rp', []) ∧
      rp'.str .objectKey = some [some 97, none]) ∧
      ¬ FullyDecompressed [2] [2] [0, 97] 2 .objectKey 0 oneBuilder := by
  have hcLen : IsRdbLength [2] 2 := .six (by decide)
  constructor
  · obtain ⟨rc, rp', rest, hrun, hends⟩ :=
      @lzf_call .objectKey 0 2 oneBuilder [2] [2] [0, 97] atTop_oneBuilder (by decide) trivial hcLen
        hcLen
    have hin : ¬ LzfStrays [0, 97] 2 := by
      rintro (hno | ⟨hno, -⟩) <;> cases hno
    obtain ⟨-, rfl, rfl, hstr⟩ := hends.resolve_left fun hstray => hin hstray.1
    exact ⟨rp', hrun, hstr⟩
  · intro h
    have hval : StrRef.objectKey.Under 0 := trivial
    have hfull := h.full atTop_oneBuilder (by decide) hval hcLen hcLen
    have htokens : LzfTokens [0, 97] [.literal [97]] :=
      @LzfTokens.literal 0 [97] [] [] (by decide) rfl .nil
    have hexpands : LzfExpands [0, 97] [97] := ⟨List.cons_ne_nil _ _, _, htokens, .literal (.nil _)⟩
    have hle := hfull.full [97] hexpands
    simp at hle

end KjRedis.Rdb
