import KjRedis.Reply.Reader

/-! What the reader makes of a whole block of bytes while it is inside one token: a
line of text, a number, or a payload. -/
namespace KjRedis.Reply

theorem redisReplyReadInteger_eq (bb : Committed) :
    redisReplyReadInteger bb =
      (fastStrstr bb crlf).map fun p => (toInteger (bb.take p), p + 2) := by
  unfold redisReplyReadInteger Committed.findStr
  split
  · next h =>
    cases hp : fastStrstr bb crlf with
    | none => rfl
    | some p =>
      have := (fastStrstr_take hp).1
      omega
  · cases fastStrstr bb crlf <;> rfl

theorem redisReplyReadInteger_append {bb : Committed} {v : Int} {n : Nat}
    (h : redisReplyReadInteger bb = some (v, n)) (tail : List UInt8) :
    redisReplyReadInteger (bb ++ tail) = some (v, n) := by
  rw [redisReplyReadInteger_eq, Option.map_eq_some_iff] at h
  obtain ⟨p, hp, heq⟩ := h
  obtain ⟨rfl, rfl⟩ := Prod.mk.inj heq
  have hle := (fastStrstr_take hp).1
  rw [redisReplyReadInteger_eq, fastStrstr_append hp, Option.map_some,
    List.take_append_of_le_length (by omega)]

theorem redisReplyReadInteger_length {bb : Committed} {v : Int} {n : Nat}
    (h : redisReplyReadInteger bb = some (v, n)) : 2 ≤ n ∧ n ≤ bb.length := by
  rw [redisReplyReadInteger_eq, Option.map_eq_some_iff] at h
  obtain ⟨p, hp, heq⟩ := h
  obtain ⟨rfl, rfl⟩ := Prod.mk.inj heq
  exact ⟨by omega, (fastStrstr_take hp).1⟩

theorem redisReplyReadInteger_snoc {bb : Committed} {b : UInt8} {v : Int} {n : Nat}
    (hnone : redisReplyReadInteger bb = none)
    (h : redisReplyReadInteger (bb ++ [b]) = some (v, n)) : n = bb.length + 1 := by
  rw [redisReplyReadInteger_eq, Option.map_eq_none_iff] at hnone
  rw [redisReplyReadInteger_eq, Option.map_eq_some_iff] at h
  obtain ⟨p, hp, heq⟩ := h
  obtain ⟨rfl, rfl⟩ := Prod.mk.inj heq
  exact fastStrstr_snoc hnone hp

namespace Part

variable {env : Envelope} {depth : Nat}

/-- While a number's line is open the reader waits, or meets a line it promises
nothing about. -/
theorem run_num_open {kind : NumKind} {acc bs : List UInt8}
    (hnone : redisReplyReadInteger (acc ++ bs) = none) :
    (∃ x, x <+: bs ∧ env.numOk kind (acc ++ x) = false ∧
        run env depth (.num kind acc) bs = .wild) ∨
      run env depth (.num kind acc) bs = .more (.num kind (acc ++ bs)) := by
  induction bs generalizing acc with
  | nil => exact .inr (by rw [List.append_nil, run_nil])
  | cons b bs ih =>
    have hassoc : ∀ x, acc ++ b :: x = acc ++ [b] ++ x := by simp
    have hsnoc : redisReplyReadInteger (acc ++ [b]) = none := by
      cases h : redisReplyReadInteger (acc ++ [b]) with
      | none => rfl
      | some vn =>
        have := redisReplyReadInteger_append h bs
        rw [← hassoc bs, hnone] at this
        cases this
    cases hok : env.numOk kind (acc ++ [b]) with
    | false =>
      exact .inl ⟨[b], ⟨bs, rfl⟩, hok, run_cons_wild (by simp [step, stepNum, hok]) bs⟩
    | true =>
      have hstep : step env depth (.num kind acc) b = .part (.num kind (acc ++ [b])) := by
        simp [step, stepNum, hok, hsnoc]
      rw [run_cons_part hstep, hassoc bs]
      rcases ih (by rw [← hassoc bs]; exact hnone) with ⟨x, hx, hbad, hrun⟩ | hrun
      · exact .inl ⟨b :: x, List.cons_prefix_cons.2 ⟨rfl, hx⟩, by rw [hassoc x]; exact hbad, hrun⟩
      · exact .inr hrun

theorem run_num_none {kind : NumKind} {acc bs : List UInt8}
    (hnone : redisReplyReadInteger (acc ++ bs) = none)
    (hwild : run env depth (.num kind acc) bs ≠ .wild) :
    run env depth (.num kind acc) bs = .more (.num kind (acc ++ bs)) := by
  rcases run_num_open hnone with ⟨-, -, -, h⟩ | h
  · exact absurd h hwild
  · exact h

/-- A number's line that is there to its CRLF is read to that point. -/
theorem run_num_closed {kind : NumKind} {acc bs : List UInt8} {v : Int} {n : Nat}
    (hacc : redisReplyReadInteger acc = none)
    (hsome : redisReplyReadInteger (acc ++ bs) = some (v, n)) :
    (∃ x, x <+: bs ∧ (acc ++ x).length ≤ n ∧ env.numOk kind (acc ++ x) = false ∧
        run env depth (.num kind acc) bs = .wild) ∨
      run env depth (.num kind acc) bs =
        match ofNum kind v with
        | .part p => run env depth p ((acc ++ bs).drop n)
        | .value w => .done w ((acc ++ bs).drop n)
        | .wild => .wild := by
  induction bs generalizing acc with
  | nil =>
    rw [List.append_nil, hacc] at hsome
    cases hsome
  | cons b bs ih =>
    have hassoc : ∀ x, acc ++ b :: x = acc ++ [b] ++ x := by simp
    have hlen : (acc ++ [b]).length ≤ n := by
      by_contra hlt
      rw [List.length_append, List.length_singleton] at hlt
      have hshort : n ≤ acc.length := by omega
      rw [redisReplyReadInteger_eq, Option.map_eq_some_iff] at hsome
      obtain ⟨p, hp, heq⟩ := hsome
      obtain ⟨rfl, rfl⟩ := Prod.mk.inj heq
      have htake := (fastStrstr_take hp).2 (acc.drop (p + 2))
      rw [List.take_append_of_le_length hshort, List.take_append_drop] at htake
      rw [redisReplyReadInteger_eq, htake] at hacc
      cases hacc
    cases hok : env.numOk kind (acc ++ [b]) with
    | false =>
      exact .inl ⟨[b], ⟨bs, rfl⟩, hlen, hok, run_cons_wild (by simp [step, stepNum, hok]) bs⟩
    | true =>
      cases hsnoc : redisReplyReadInteger (acc ++ [b]) with
      | none =>
        have hstep : step env depth (.num kind acc) b = .part (.num kind (acc ++ [b])) := by
          simp [step, stepNum, hok, hsnoc]
        rw [run_cons_part hstep, hassoc bs]
        rcases ih hsnoc (by rw [← hassoc bs]; exact hsome) with ⟨x, hx, hle, hbad, hrun⟩ | hrun
        · exact .inl ⟨b :: x, List.cons_prefix_cons.2 ⟨rfl, hx⟩, by rw [hassoc x]; exact hle,
            by rw [hassoc x]; exact hbad, hrun⟩
        · exact .inr hrun
      | some vn =>
        obtain ⟨v', n'⟩ := vn
        have heq := redisReplyReadInteger_append hsnoc bs
        rw [← hassoc bs, hsome] at heq
        obtain ⟨rfl, rfl⟩ := Prod.mk.inj (Option.some.inj heq)
        have hn := redisReplyReadInteger_snoc hacc hsnoc
        have hdrop : (acc ++ b :: bs).drop n = bs := by
          rw [hassoc, hn, List.drop_left' (by simp)]
        have hstep : step env depth (.num kind acc) b = ofNum kind v := by
          simp [step, stepNum, hok, hsnoc]
        rw [hdrop]
        refine .inr ?_
        cases h : ofNum kind v with
        | part p => exact run_cons_part (hstep.trans h) bs
        | value w => exact run_cons_value (hstep.trans h) bs
        | wild => exact run_cons_wild (hstep.trans h) bs

theorem run_num_some {kind : NumKind} {acc bs : List UInt8} {v : Int} {n : Nat}
    (hacc : redisReplyReadInteger acc = none)
    (hsome : redisReplyReadInteger (acc ++ bs) = some (v, n))
    (hwild : run env depth (.num kind acc) bs ≠ .wild) :
    run env depth (.num kind acc) bs =
      match ofNum kind v with
      | .part p => run env depth p ((acc ++ bs).drop n)
      | .value w => .done w ((acc ++ bs).drop n)
      | .wild => .wild := by
  rcases run_num_closed hacc hsome with ⟨-, -, -, -, h⟩ | h
  · exact absurd h hwild
  · exact h

/-- A line of text ends its block before a CR, at a CR or with its CRLF inside. -/
theorem run_text {isError : Bool} {acc bs : List UInt8}
    (hwild : run env depth (.text isError acc false) bs ≠ .wild) :
    ∃ x, cr ∉ x ∧ (x = [] ∨ (acc ++ x).length ≤ env.textMax) ∧
      run env depth (.text isError acc false) x = .more (.text isError (acc ++ x) false) ∧
      ((bs = x ∧ run env depth (.text isError acc false) bs = .more (.text isError (acc ++ x) false)) ∨
        (bs = x ++ [cr] ∧
          run env depth (.text isError acc false) bs = .more (.text isError (acc ++ x) true)) ∨
        ∃ rest, bs = x ++ cr :: lf :: rest ∧
          run env depth (.text isError acc false) bs = .done (.text isError (acc ++ x)) rest) := by
  induction bs generalizing acc with
  | nil => exact ⟨[], by simp, .inl rfl, by simp, .inl ⟨rfl, by simp⟩⟩
  | cons b bs ih =>
    by_cases hb : b = cr
    · subst hb
      have hstep : step env depth (.text isError acc false) cr = .part (.text isError acc true) := by
        simp [step, stepText]
      refine ⟨[], by simp, .inl rfl, by simp, ?_⟩
      rw [run_cons_part hstep] at hwild ⊢
      cases bs with
      | nil => exact .inr (.inl ⟨rfl, by simp⟩)
      | cons c bs =>
        by_cases hc : c = lf
        · subst hc
          exact .inr (.inr ⟨bs, rfl, by
            rw [List.append_nil]
            exact run_cons_value (by simp [step, stepText]) bs⟩)
        · exact absurd (run_cons_wild (by simp [step, stepText, hc]) bs) hwild
    · by_cases hok : acc.length < env.textMax ∧ env.textOk b = true
      · have hstep : step env depth (.text isError acc false) b =
            .part (.text isError (acc ++ [b]) false) := by
          simp [step, stepText, hb, hok]
        rw [run_cons_part hstep] at hwild
        obtain ⟨x, hx, hlen, hrun, hcases⟩ := ih hwild
        have hassoc : acc ++ b :: x = acc ++ [b] ++ x := by simp
        refine ⟨b :: x, ?_, .inr ?_, ?_, ?_⟩
        · simp only [List.mem_cons, not_or]
          exact ⟨fun h => hb h.symm, hx⟩
        · rw [hassoc]
          rcases hlen with rfl | hlen
          · simp only [List.append_nil, List.length_append, List.length_singleton]
            omega
          · exact hlen
        · rw [run_cons_part hstep, hassoc, hrun]
        · rw [run_cons_part hstep, hassoc]
          rcases hcases with ⟨rfl, h⟩ | ⟨rfl, h⟩ | ⟨rest, rfl, h⟩
          · exact .inl ⟨rfl, h⟩
          · exact .inr (.inl ⟨rfl, h⟩)
          · exact .inr (.inr ⟨rest, rfl, h⟩)
      · exact absurd (run_cons_wild (by simp [step, stepText, hb, hok]) bs) hwild

theorem run_payload_short {len : Nat} {acc bs : List UInt8}
    (h : (acc ++ bs).length < len + 2) :
    run env depth (.payload len acc) bs = .more (.payload len (acc ++ bs)) := by
  induction bs generalizing acc with
  | nil => rw [List.append_nil, run_nil]
  | cons b bs ih =>
    have hassoc : acc ++ b :: bs = acc ++ [b] ++ bs := by simp
    rw [hassoc] at h ⊢
    have hlt : (acc ++ [b]).length < len + 2 := by
      rw [List.length_append] at h
      omega
    have hstep : step env depth (.payload len acc) b = .part (.payload len (acc ++ [b])) := by
      simp only [step, stepPayload, if_pos hlt]
    rw [run_cons_part hstep, ih h]

theorem run_payload_full {len : Nat} {acc w rest : List UInt8} (hacc : acc.length < len + 2)
    (h : (acc ++ w).length = len + 2) :
    run env depth (.payload len acc) (w ++ rest) =
      if (acc ++ w).drop len = crlf then .done (.bulk ((acc ++ w).take len)) rest
      else .more (.badPayload len (acc ++ w)) := by
  obtain ⟨w, b, rfl⟩ : ∃ w' b, w = w' ++ [b] := by
    rcases List.eq_nil_or_concat w with rfl | ⟨w', b, rfl⟩
    · rw [List.append_nil] at h
      omega
    · exact ⟨w', b, by simp⟩
  have hshort : (acc ++ w).length < len + 2 := by
    simp only [List.length_append, List.length_singleton] at h ⊢
    omega
  rw [List.append_assoc, run_append, run_payload_short hshort, ← List.append_assoc] 
  simp only [List.singleton_append]
  have hge : ¬ (acc ++ w ++ [b]).length < len + 2 := by
    rw [List.append_assoc]
    omega
  by_cases hcrlf : (acc ++ w ++ [b]).drop len = crlf
  · rw [if_pos hcrlf]
    exact run_cons_value (by simp only [step, stepPayload, if_neg hge, if_pos hcrlf]) rest
  · rw [if_neg hcrlf]
    have hstep : step env depth (.payload len (acc ++ w)) b =
        .part (.badPayload len (acc ++ w ++ [b])) := by
      simp only [step, stepPayload, if_neg hge, if_neg hcrlf]
    rw [run_cons_part hstep, run_badPayload]

end Part

end KjRedis.Reply
