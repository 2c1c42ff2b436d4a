import ValidcTools.Checkenc.Utf8
import ValidcTools.Chgenc.Resync

/-! What `chgenc` writes for any input, and conversions one after the other. -/
namespace ValidcTools.Chgenc

open ValidcTools.Checkenc Computability

/-! ## Every decoder gives scalar values -/

theorem isScalar_replacement : IsScalar 0xFFFD := ⟨by decide, by decide⟩

theorem unitLe_lt (b0 b1 : Byte) : unitLe b0 b1 < 0x10000 := by
  have h0 := b0.toNat_lt
  have h1 := b1.toNat_lt
  rw [unitLe, Nat.or_comm, shiftLeft_or b1.toNat h0]
  omega

theorem unitBe_lt (b0 b1 : Byte) : unitBe b0 b1 < 0x10000 := by
  have h0 := b0.toNat_lt
  have h1 := b1.toNat_lt
  rw [unitBe, shiftLeft_or b0.toNat h1]
  omega

theorem isScalar_above {hi lo : ℕ} (hhi : hi < 2 ^ 10) (hlo : lo < 2 ^ 10) : IsScalar (0x10000 + (hi * 2 ^ 10 + lo)) := by
  unfold IsScalar
  omega

/-- A pair of surrogates is a character above the first plane. -/
theorem isScalar_pair {u u2 : ℕ} (hu : 0xD800 ≤ u ∧ u ≤ 0xDBFF) (hu2 : ¬ (u2 < 0xDC00 ∨ u2 > 0xDFFF)) :
    IsScalar (0x10000 + ((u - 0xD800) <<< 10 ||| (u2 - 0xDC00))) := by
  have hfields : u - 0xD800 < 2 ^ 10 ∧ u2 - 0xDC00 < 2 ^ 10 := by omega
  rw [shiftLeft_or _ hfields.2]
  exact isScalar_above hfields.1 hfields.2

theorem isScalar_unit {u : ℕ} (hlt : u < 0x10000) (hhigh : ¬ (0xD800 ≤ u ∧ u ≤ 0xDBFF))
    (hlow : ¬ (0xDC00 ≤ u ∧ u ≤ 0xDFFF)) : IsScalar u := by
  unfold IsScalar
  omega

theorem isScalar_decodeUtf16 {unit : Byte → Byte → ℕ} (hunit : ∀ b0 b1, unit b0 b1 < 0x10000) (s : List Byte) :
    ∀ cp ∈ decodeUtf16 unit s, IsScalar (cp.getD 0xFFFD) := by
  fun_induction decodeUtf16 unit s with
  | case1 b0 b1 u hu b2 b3 s u2 ih =>
    rw [List.forall_mem_cons]
    refine ⟨?_, ih⟩
    split_ifs with hu2
    · exact isScalar_replacement
    · rw [Option.getD_some]
      exact isScalar_pair hu hu2
  | case2 b0 b1 s u hu hshort =>
    rw [List.forall_mem_singleton]
    exact isScalar_replacement
  | case3 b0 b1 s u hu hlow ih =>
    rw [List.forall_mem_cons]
    exact ⟨isScalar_replacement, ih⟩
  | case4 b0 b1 s u hu hlow ih =>
    rw [List.forall_mem_cons]
    refine ⟨?_, ih⟩
    exact isScalar_unit (hunit b0 b1) hu hlow
  | case5 s hshort => exact fun cp hcp => nomatch hcp

theorem isScalar_decodeUtf32 (word : Byte → Byte → Byte → Byte → ℕ) (s : List Byte) :
    ∀ cp ∈ decodeUtf32 word s, IsScalar (cp.getD 0xFFFD) := by
  fun_induction decodeUtf32 word s with
  | case1 b0 b1 b2 b3 s cp ih =>
    rw [List.forall_mem_cons]
    refine ⟨?_, ih⟩
    split_ifs with hcp
    · exact isScalar_replacement
    · rw [not_or] at hcp
      exact ⟨Nat.le_of_not_lt hcp.1, hcp.2⟩
  | case2 s hshort => exact fun cp hcp => nomatch hcp

theorem isScalar_decodeLoop (enc : Encoding) (s : List Byte) : ∀ cp ∈ enc.decodeLoop s, IsScalar (cp.getD 0xFFFD) := by
  cases enc with
  | utf8 | utf8Bom =>
    intro cp hcp
    exact isScalar_of_mem_decoded s _ (List.mem_map_of_mem hcp)
  | utf16Le | utf16LeBom => exact isScalar_decodeUtf16 unitLe_lt s
  | utf16Be | utf16BeBom => exact isScalar_decodeUtf16 unitBe_lt s
  | utf32Le | utf32LeBom => exact isScalar_decodeUtf32 wordLe s
  | utf32Be | utf32BeBom => exact isScalar_decodeUtf32 wordBe s

/-- Whatever a file holds, it is decoded to scalar values. -/
theorem isScalar_of_decode {b : List Byte} {enc : Encoding} {cps : List ℕ} (h : decode b enc = some cps) :
    cps ≠ [] ∧ ∀ c ∈ cps, IsScalar c := by
  obtain ⟨rfl, hne⟩ := buffer_eq_some_iff.mp h
  refine ⟨hne, ?_⟩
  rw [List.forall_mem_map]
  exact isScalar_decodeLoop enc _

/-! ## What is written -/

/-- The output is the text of the input, in bytes. -/
theorem convert_eq_some_iff {inEnc outEnc : Encoding} {b out : List Byte} :
    convert inEnc outEnc b = some out ↔ ∃ cps, decode b inEnc = some cps ∧ out = outEnc.bytes cps := by
  rw [convert, Option.bind_eq_some_iff]
  apply exists_congr
  intro cps
  rw [and_congr_right_iff]
  intro hdecode
  obtain ⟨hne, hscalar⟩ := isScalar_of_decode hdecode
  rw [outEnc.encode_eq, buffer_eq_some_iff, eq_comm]
  exact and_iff_left fun hnil => hne (outEnc.eq_nil_of_bytes_eq_nil hscalar hnil)

/-- The mark of the output is read as a character where it is not skipped. -/
theorem decodeLoop_bytes (enc : Encoding) {cps : List ℕ} (h : ∀ c ∈ cps, IsScalar c) :
    enc.decodeLoop (enc.bytes cps) = ((if enc.hasMark then [0xFEFF] else []) ++ cps).map some := by
  unfold Encoding.bytes
  cases enc.hasMark with
  | false => exact enc.decodeLoop_encode h
  | true =>
    rw [if_pos rfl, if_pos rfl, enc.mark_eq, enc.decodeLoop_encodeOne ⟨by decide, by decide⟩, enc.decodeLoop_encode h]
    rfl

/-- Whatever bytes the input had, no decoder of the output has to push a U+FFFD of its own, and UTF-8 is written as
RFC 3629 has it. -/
theorem output_is_clean {inEnc outEnc : Encoding} {b out : List Byte} (h : convert inEnc outEnc b = some out) :
    none ∉ outEnc.decodeLoop out ∧ (outEnc = .utf8 ∨ outEnc = .utf8Bom → out ∈ wellFormed∗) := by
  obtain ⟨cps, hdecode, rfl⟩ := convert_eq_some_iff.mp h
  have hclean : none ∉ outEnc.decodeLoop (outEnc.bytes cps) := by
    rw [decodeLoop_bytes outEnc (isScalar_of_decode hdecode).2]
    simp
  refine ⟨hclean, ?_⟩
  rintro (rfl | rfl)
  · exact (decodeUtf8_iff _).mp hclean
  · exact (decodeUtf8_iff _).mp hclean

/-- A lone lead byte and a lone surrogate -/
theorem output_is_clean_malformed :
    none ∉ Encoding.utf16Be.decodeLoop [0x00, 0x41, 0xFF, 0xFD] ∧ [0xEF, 0xBF, 0xBD] ∈ wellFormed∗ :=
  ⟨(output_is_clean (show convert .utf8 .utf16Be [0x41, 0xE2, 0x82] = some [0x00, 0x41, 0xFF, 0xFD] by decide)).1,
    (output_is_clean (show convert .utf16Le .utf8 [0x00, 0xD8] = some [0xEF, 0xBF, 0xBD] by decide)).2 (.inl rfl)⟩

/-! ## One conversion after another -/

theorem encode_inj {enc : Encoding} {cps cps' : List ℕ} (h : ∀ c ∈ cps, IsScalar c) (h' : ∀ c ∈ cps', IsScalar c)
    (hne : cps ≠ []) : (buffer cps').bind (encode · enc) = encode cps enc ↔ cps' = cps := by
  constructor
  · intro heq
    by_cases hnil : cps' = []
    · subst hnil
      rw [enc.encode_eq] at heq
      exact absurd (buffer_eq_some_iff.mpr ⟨rfl, fun hbytes => hne (enc.eq_nil_of_bytes_eq_nil h hbytes)⟩) (heq ▸ nofun)
    · rw [buffer, if_neg hnil, Option.bind_some, enc.encode_eq, enc.encode_eq,
        buffer, if_neg fun hbytes => hnil (enc.eq_nil_of_bytes_eq_nil h' hbytes),
        buffer, if_neg fun hbytes => hne (enc.eq_nil_of_bytes_eq_nil h hbytes)] at heq
      exact enc.bytes_injective h' h (Option.some.inj heq)
  · rintro rfl
    rw [buffer, if_neg hne, Option.bind_some]

theorem convert_convert {inEnc mid outEnc : Encoding} {b : List Byte} {cps : List ℕ} (h : decode b inEnc = some cps) :
    (convert inEnc mid b).bind (convert mid outEnc) = (buffer (mid.stripped cps)).bind (encode · outEnc) := by
  have hscalar := (isScalar_of_decode h).2
  have hmid : convert inEnc mid b = some (mid.bytes cps) := convert_eq_some_iff.mpr ⟨cps, h, rfl⟩
  rw [hmid, Option.bind_some, convert, mid.decode_bytes hscalar]

/-- Two conversions do what one does, on every input, unless the encoding between them has no mark of its own and
takes a U+FEFF that the text begins with for one. -/
theorem convert_through_iff (inEnc mid outEnc : Encoding) (b : List Byte) :
    (convert inEnc mid b).bind (convert mid outEnc) = convert inEnc outEnc b ↔
      mid.hasMark = true ∨ (decode b inEnc).bind List.head? ≠ some 0xFEFF := by
  cases hdecode : decode b inEnc with
  | none => simp [convert, hdecode]
  | some cps =>
    obtain ⟨hne, hscalar⟩ := isScalar_of_decode hdecode
    have hstripped : ∀ c ∈ mid.stripped cps, IsScalar c := fun c hc => hscalar c ((mid.stripped_suffix cps).subset hc)
    have hone : convert inEnc outEnc b = encode cps outEnc := by rw [convert, hdecode, Option.bind_some]
    rw [convert_convert hdecode, hone, encode_inj hscalar hstripped hne, Option.bind_some, Encoding.stripped]
    by_cases hstrip : mid.hasMark = false ∧ cps.head? = some 0xFEFF
    · rw [if_pos hstrip]
      refine iff_of_false (fun heq => ?_) (by simp [hstrip])
      have hlen := congrArg List.length heq
      have hpos := List.length_pos_iff.mpr hne
      rw [List.length_tail] at hlen
      omega
    · rw [if_neg hstrip]
      refine iff_of_true rfl ?_
      rwa [not_and_or, Bool.not_eq_false] at hstrip

end ValidcTools.Chgenc
