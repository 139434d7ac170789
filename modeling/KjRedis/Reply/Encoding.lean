import KjRedis.Reply.Grammar

/-! The canonical encoding of a reply. The reader takes it for the reply, where its envelope
admits the lines and the builders. -/
namespace KjRedis.Reply

def Resp.char : Resp → UInt8
  | .text isError _ => textChar isError
  | .int _ => NumKind.int.char
  | .nullBulk => NumKind.bulkLen.char
  | .bulk _ => NumKind.bulkLen.char
  | .nullArray => NumKind.arrayLen.char
  | .array _ => NumKind.arrayLen.char

def decimalInt (v : Int) : List UInt8 :=
  if v < 0 then minus :: decimal v.natAbs else decimal v.natAbs

mutual

/-- The encoding after its leading character. -/
def Resp.body : Resp → List UInt8
  | .text _ bytes => bytes ++ crlf
  | .int v => decimalInt v ++ cr :: lf :: []
  | .nullBulk => decimalInt (-1) ++ cr :: lf :: []
  | .bulk bytes => decimalInt bytes.length ++ cr :: lf :: (bytes ++ crlf)
  | .nullArray => decimalInt (-1) ++ cr :: lf :: []
  | .array elems => decimalInt elems.length ++ cr :: lf :: Resp.encodeAll elems

def Resp.encodeAll : List Resp → List UInt8
  | [] => []
  | v :: vs => v.char :: (v.body ++ Resp.encodeAll vs)

end

def Resp.encode (v : Resp) : List UInt8 := v.char :: v.body

theorem decimalInt_isInt64 {v : Int} (hlow : -2 ^ 63 ≤ v) (hhigh : v < 2 ^ 63) :
    IsInt64 (decimalInt v) v := by
  obtain ⟨neg, ds, hne, hds, heq, hval⟩ := decimal_isNumber v.natAbs
  refine ⟨?_, hlow, hhigh⟩
  rw [decimalInt]
  by_cases hneg : v < 0
  · obtain ⟨ds', hds', hne', hall, hnat⟩ := decimalAux_spec (Nat.lt_succ_self v.natAbs) []
    rw [if_pos hneg, decimal, hds', List.append_nil]
    refine ⟨true, ds', hne', hall, rfl, ?_⟩
    rw [hnat, if_pos rfl]
    omega
  · rw [if_neg hneg]
    have h := decimal_isNumber v.natAbs
    rwa [show ((v.natAbs : Nat) : Int) = v by omega] at h

theorem rBuildInteger_line {rrp : RedisReplyParser} {x tail : List UInt8} {v : Int} (hx : IsInt64 x v) :
    rBuildInteger rrp (x ++ cr :: lf :: tail) =
      (some v, { rrp with parsed := rrp.parsed + (x.length + 2) }, tail) := by
  rw [rBuildInteger_some (redisReplyReadInteger_line hx.1 hx.2.1 hx.2.2 tail)]
  have hdrop : (x ++ cr :: lf :: tail).drop (x.length + 2) = tail := by
    rw [List.drop_append, List.drop_of_length_le (by omega)]
    simp
  rw [hdrop]

theorem decimalInt_head (n : Nat) : ∃ d ds, decimalInt n = d :: ds ∧ leadingType d = none := by
  obtain ⟨ds, hds, hne, hall, -⟩ := decimalAux_spec (Nat.lt_succ_self n) []
  obtain ⟨d, ds, rfl⟩ := List.exists_cons_of_ne_nil hne
  have hd : isDigit d = true := hall d (by simp)
  refine ⟨d, ds, ?_, ?_⟩
  · rw [decimalInt, if_neg (by omega), Int.natAbs_natCast, decimal, hds, List.append_nil]
  · have hne : ∀ c : UInt8, isDigit c = false → ¬ d = c := by
      rintro c hc rfl
      rw [hc] at hd
      cases hd
    rw [leadingType, if_neg (hne _ (by decide)), if_neg (hne _ (by decide)), if_neg (hne _ (by decide)),
      if_neg (hne _ (by decide)), if_neg (hne _ (by decide))]

theorem leadingType_char (v : Resp) : leadingType v.char = some v.leading := by
  cases v with
  | text isError bytes => cases isError <;> rfl
  | _ => rfl

theorem encode_cons (v : Resp) (rest : List UInt8) :
    v.encode ++ rest = v.char :: (v.body ++ rest) := by
  rw [Resp.encode, List.cons_append]

theorem encodeAll_append (vs ws : List Resp) :
    Resp.encodeAll (vs ++ ws) = Resp.encodeAll vs ++ Resp.encodeAll ws := by
  induction vs with
  | nil => rfl
  | cons v vs ih =>
    rw [List.cons_append, Resp.encodeAll, Resp.encodeAll, ih, List.cons_append, List.append_assoc]

/-- The envelope admits a number's line, as far as it has come. -/
def Envelope.AdmitsLine (env : Envelope) (kind : NumKind) (v : Int) : Prop :=
  ∀ y, y <+: decimalInt v ++ [cr, lf] → env.numOk kind y = true

mutual

/-- The envelope admits a reply whose builder is at `depth`. -/
def Resp.Admitted (env : Envelope) : Resp → Nat → Prop
  | .text isError bytes, depth =>
    env.opens depth (textLeading isError) ∧ bytes.length ≤ env.textMax ∧ ∀ c ∈ bytes, c ≠ cr ∧ env.textOk c
  | .int v, _ => (-2 ^ 63 ≤ v ∧ v < 2 ^ 63) ∧ env.AdmitsLine .int v
  | .nullBulk, depth => env.opens depth .bulkString ∧ env.AdmitsLine .bulkLen (-1)
  | .bulk bytes, depth =>
    env.opens depth .bulkString ∧ bytes.length < 2 ^ 32 - 3 ∧ env.AdmitsLine .bulkLen bytes.length
  | .nullArray, depth => env.opens depth .array ∧ env.AdmitsLine .arrayLen (-1)
  | .array elems, depth =>
    env.opens depth .array ∧ elems.length < 2 ^ 31 - 1 ∧ env.AdmitsLine .arrayLen elems.length ∧
      Resp.AllAdmitted env elems (depth + 1)

def Resp.AllAdmitted (env : Envelope) : List Resp → Nat → Prop
  | [], _ => True
  | v :: vs, depth => v.Admitted env depth ∧ Resp.AllAdmitted env vs depth

end

open Part

variable {env : Envelope} {depth : Nat}

/-- A reply's leading character, where its builder is opened. -/
theorem run_char {v : Resp} {p : Part} (h : opened env depth v.leading = .part p) (rest : List UInt8) :
    run env depth .type (v.char :: rest) = run env depth p rest := by
  apply run_cons_part
  rw [step, leadingType_char]
  exact h

theorem run_text_line {isError : Bool} {bytes acc : List UInt8} (hok : ∀ c ∈ bytes, c ≠ cr ∧ env.textOk c)
    (hlen : (acc ++ bytes).length ≤ env.textMax) (rest : List UInt8) :
    run env depth (.text isError acc false) (bytes ++ cr :: lf :: rest) =
      .done (.text isError (acc ++ bytes)) rest := by
  induction bytes generalizing acc with
  | nil =>
    have hcr : step env depth (.text isError acc false) cr = .part (.text isError acc true) := by
      simp [step, stepText]
    have hlf : step env depth (.text isError acc true) lf = .value (.text isError acc) := by
      simp [step, stepText]
    rw [List.nil_append, run_cons_part hcr, run_cons_value hlf, List.append_nil]
  | cons b bytes ih =>
    obtain ⟨⟨hb, hbok⟩, hok⟩ := List.forall_mem_cons.1 hok
    have hassoc : acc ++ b :: bytes = acc ++ [b] ++ bytes := by simp
    rw [hassoc] at hlen ⊢
    have hstep : step env depth (.text isError acc false) b = .part (.text isError (acc ++ [b]) false) := by
      have hshort : acc.length < env.textMax := by
        simp only [List.length_append, List.length_singleton] at hlen
        omega
      simp [step, stepText, hb, hshort, hbok]
    rw [List.cons_append, run_cons_part hstep]
    exact ih hok hlen

/-- A line with a number, after the leading character that asks for it. -/
theorem run_decimal {kind : NumKind} {v : Int} (hlow : -2 ^ 63 ≤ v) (hhigh : v < 2 ^ 63)
    (hline : env.AdmitsLine kind v) (rest : List UInt8) :
    run env depth (.num kind []) (decimalInt v ++ cr :: lf :: rest) =
      match ofNum kind v with
      | .part p => p.run env depth rest
      | .value w => .done w rest
      | .wild => .wild :=
  run_number_line (decimalInt_isInt64 hlow hhigh).1 hlow hhigh hline rest

/-- The elements after the first of an array read its rest. -/
theorem run_elements {len : Nat} {vs done : List Resp} (hlen : len < 2 ^ 31 - 1)
    (hne : vs ≠ []) (hcount : done.length + vs.length = len)
    (hvs : ∀ v ∈ vs, ∀ rest, run env (depth + 1) .type (v.encode ++ rest) = .done v rest)
    (rest : List UInt8) :
    run env depth (.array len done .type) (Resp.encodeAll vs ++ rest) =
      .done (.array (done ++ vs)) rest := by
  induction vs generalizing done with
  | nil => exact absurd rfl hne
  | cons v vs ih =>
    rw [List.length_cons] at hcount
    have hfirst := hvs v List.mem_cons_self (Resp.encodeAll vs ++ rest)
    rw [encode_cons] at hfirst
    rw [Resp.encodeAll, List.cons_append, List.append_assoc, run_array, hfirst]
    simp only [arrayNext, List.length_append, List.length_singleton]
    rw [if_neg (by omega)]
    cases vs with
    | nil =>
      rw [List.length_nil] at hcount
      rw [if_neg (by omega)]
      rfl
    | cons w vs =>
      rw [List.length_cons] at hcount
      rw [if_pos (by omega)]
      simp only
      have hcount' : (done ++ [v]).length + (w :: vs).length = len := by
        rw [List.length_append, List.length_singleton, List.length_cons]
        omega
      rw [ih (List.cons_ne_nil w vs) hcount' fun u hu => hvs u (List.mem_cons_of_mem v hu),
        List.append_assoc]
      rfl

mutual

/-- The reader takes the encoding of an admitted reply for that reply. -/
theorem run_encode : ∀ (v : Resp) {depth : Nat}, v.Admitted env depth → ∀ rest,
    run env depth .type (v.encode ++ rest) = .done v rest
  | .text isError bytes, depth, ⟨hopens, hlen, hok⟩, rest => by
    have hopen : opened env depth (textLeading isError) = .part (.text isError [] false) := by
      cases isError <;> exact if_pos hopens
    rw [encode_cons, run_char hopen, Resp.body, List.append_assoc]
    exact @run_text_line env depth isError bytes [] hok hlen rest
  | .int v, depth, ⟨⟨hlow, hhigh⟩, hline⟩, rest => by
    have hopen : opened env depth (Resp.leading (.int v)) = .part (.num .int []) := rfl
    rw [encode_cons, run_char hopen, Resp.body, List.append_assoc]
    exact run_decimal hlow hhigh hline rest
  | .nullBulk, depth, ⟨hopens, hline⟩, rest => by
    have hopen : opened env depth (Resp.leading .nullBulk) = .part (.num .bulkLen []) := if_pos hopens
    rw [encode_cons, run_char hopen, Resp.body, List.append_assoc]
    exact run_decimal (by decide) (by decide) hline rest
  | .bulk bytes, depth, ⟨hopens, hlen, hline⟩, rest => by
    have hopen : opened env depth (Resp.leading (.bulk bytes)) = .part (.num .bulkLen []) := if_pos hopens
    have hof : ofNum .bulkLen (bytes.length : Int) = .part (.payload bytes.length []) := by
      rw [ofNum, bulkOfLen, if_neg (by omega), toUint32_natCast (by omega), if_pos (by omega)]
    have hpayload : run env depth (.payload bytes.length []) (bytes ++ crlf ++ rest) =
        .done (.bulk bytes) rest := by
      rw [run_payload_full (by simp) (by simp [crlf])]
      simp [crlf]
    have hread := @run_decimal env depth .bulkLen bytes.length (by omega) (by omega) hline
      (bytes ++ crlf ++ rest)
    rw [hof] at hread
    rw [encode_cons, run_char hopen, Resp.body, List.append_assoc]
    exact hread.trans hpayload
  | .nullArray, depth, ⟨hopens, hline⟩, rest => by
    have hopen : opened env depth (Resp.leading .nullArray) = .part (.num .arrayLen []) := if_pos hopens
    rw [encode_cons, run_char hopen, Resp.body, List.append_assoc]
    exact run_decimal (by decide) (by decide) hline rest
  | .array elems, depth, ⟨hopens, hlen, hline, helems⟩, rest => by
    have hopen : opened env depth (Resp.leading (.array elems)) = .part (.num .arrayLen []) := if_pos hopens
    have hread := @run_decimal env depth .arrayLen elems.length (by omega) (by omega) hline
      (Resp.encodeAll elems ++ rest)
    rw [encode_cons, run_char hopen, Resp.body, List.append_assoc]
    refine hread.trans ?_
    cases elems with
    | nil => rfl
    | cons v vs =>
      have hpos : 0 < (v :: vs).length := List.length_pos_of_ne_nil (List.cons_ne_nil v vs)
      have hof : ofNum .arrayLen ((v :: vs).length : Int) = .part (.array (v :: vs).length [] .type) := by
        rw [ofNum, arrayOfLen, if_neg (by omega), if_neg (by omega), toUint32_natCast (by omega),
          if_neg (by omega)]
      rw [hof]
      exact run_elements hlen (List.cons_ne_nil v vs) (Nat.zero_add _) (run_encodeAll _ helems) rest

theorem run_encodeAll : ∀ (vs : List Resp) {depth : Nat}, Resp.AllAdmitted env vs depth → ∀ v ∈ vs, ∀ rest,
    run env depth .type (v.encode ++ rest) = .done v rest
  | [], _, _ => fun _ hv => absurd hv List.not_mem_nil
  | v :: vs, _, ⟨hv, hvs⟩ => List.forall_mem_cons.2 ⟨run_encode v hv, run_encodeAll vs hvs⟩

end

/-- The reader gets through a stream of admitted replies, and takes it for these. -/
theorem reader_encodeAll {vs : List Resp} (h : ∀ v ∈ vs, v.Admitted env 1) :
    (reader env).run .type (Resp.encodeAll vs) = some (.type, vs) := by
  induction vs with
  | nil => rfl
  | cons v vs ih =>
    have hv := run_encode v (h v List.mem_cons_self) (Resp.encodeAll vs)
    rw [encode_cons] at hv
    exact reader_run_done hv (ih fun w hw => h w (List.mem_cons_of_mem v hw))

end KjRedis.Reply
