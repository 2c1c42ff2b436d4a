import ValidcTools.Checkenc.Utf8
import ValidcTools.Chgenc.Composition

/-! What `checkenc` says of a file, and what it says of the files that `chgenc` writes. -/
namespace ValidcTools.Checkenc

open ValidcTools.Chgenc PrefixCode Computability

/-! ## The names -/

/-- What is printed -/
inductive Answer
  | ascii
  | utf8 | utf8Bom
  | utf16Le | utf16Be | utf16LeBom | utf16BeBom
  | utf32Le | utf32Be | utf32LeBom | utf32BeBom
  | other
deriving DecidableEq

def Answer.text : Answer → String
  | ascii => "ASCII"
  | utf8 => "UTF-8"
  | utf8Bom => "UTF-8-BOM"
  | utf16Le => "UTF-16-LE"
  | utf16Be => "UTF-16-BE"
  | utf16LeBom => "UTF-16-LE-BOM"
  | utf16BeBom => "UTF-16-BE-BOM"
  | utf32Le => "UTF-32-LE"
  | utf32Be => "UTF-32-BE"
  | utf32LeBom => "UTF-32-LE-BOM"
  | utf32BeBom => "UTF-32-BE-BOM"
  | other => "OTHER"

/-- `parse_encoding` of `chgenc`; its `starts_with` compares whole strings. -/
def parseEncoding (s : String) : Option Encoding :=
  if s = "UTF-8" then some .utf8
  else if s = "UTF-8-BOM" then some .utf8Bom
  else if s = "UTF-16-LE" then some .utf16Le
  else if s = "UTF-16-BE" then some .utf16Be
  else if s = "UTF-16-LE-BOM" then some .utf16LeBom
  else if s = "UTF-16-BE-BOM" then some .utf16BeBom
  else if s = "UTF-32-LE" then some .utf32Le
  else if s = "UTF-32-BE" then some .utf32Be
  else if s = "UTF-32-LE-BOM" then some .utf32LeBom
  else if s = "UTF-32-BE-BOM" then some .utf32BeBom
  else none

/-! ## The tests -/

/-- The groups of four bytes that pass a test -/
def hits32 (hit : Byte → Byte → Byte → Byte → Bool) : List Byte → ℕ
  | b0 :: b1 :: b2 :: b3 :: s => (if hit b0 b1 b2 b3 then 1 else 0) + hits32 hit s
  | _ => 0

def le32 (b0 b1 b2 b3 : Byte) : Bool := b1 = 0 ∧ b2 = 0 ∧ b3 = 0 ∧ b0 ≠ 0

def be32 (b0 b1 b2 b3 : Byte) : Bool := b0 = 0 ∧ b1 = 0 ∧ b2 = 0 ∧ b3 ≠ 0

/-- The pairs of bytes that pass a test -/
def hits16 (hit : Byte → Byte → Bool) : List Byte → ℕ
  | a :: b :: s => (if hit a b then 1 else 0) + hits16 hit s
  | _ => 0

def le16 (a b : Byte) : Bool := b = 0 ∧ a ≠ 0

def be16 (a b : Byte) : Bool := a = 0 ∧ b ≠ 0

/-- The size of `buf` -/
def sampleSize : ℕ := 8192

/-- `main`, for a file that can be read -/
def checkenc (file : List Byte) : Answer :=
  let buf := file.take sampleSize
  let n := buf.length
  if [0xEF, 0xBB, 0xBF] <+: buf then .utf8Bom
  else if [0xFF, 0xFE, 0x00, 0x00] <+: buf then .utf32LeBom
  else if [0x00, 0x00, 0xFE, 0xFF] <+: buf then .utf32BeBom
  else if [0xFF, 0xFE] <+: buf then .utf16LeBom
  else if [0xFE, 0xFF] <+: buf then .utf16BeBom
  else if file.length = 0 then .ascii
  else if ∀ b ∈ buf, b < 0x80 then .ascii
  else if 8 ≤ n ∧ n / 16 < hits32 le32 buf then .utf32Le
  else if 8 ≤ n ∧ n / 16 < hits32 be32 buf then .utf32Be
  else if 4 ≤ n ∧ n / 8 < hits16 le16 buf then .utf16Le
  else if 4 ≤ n ∧ n / 8 < hits16 be16 buf then .utf16Be
  else if isValidUtf8 buf = true then .utf8
  else .other

/-- A test that asks for a zero byte fails on a file without one. -/
theorem hits32_eq_zero {hit : Byte → Byte → Byte → Byte → Bool} (hhit : ∀ b0 b1 b2 b3, hit b0 b1 b2 b3 = true → b0 = 0 ∨ b1 = 0)
    {l : List Byte} (hl : 0 ∉ l) : hits32 hit l = 0 := by
  fun_induction hits32 hit l with
  | case1 b0 b1 b2 b3 s ih =>
    simp only [List.mem_cons, not_or] at hl
    have hmiss : ¬ hit b0 b1 b2 b3 = true := by
      intro h
      rcases hhit _ _ _ _ h with h0 | h1
      · exact hl.1 h0.symm
      · exact hl.2.1 h1.symm
    rw [if_neg hmiss, ih hl.2.2.2.2]
  | case2 => rfl

theorem hits16_eq_zero {hit : Byte → Byte → Bool} (hhit : ∀ a b, hit a b = true → a = 0 ∨ b = 0)
    {l : List Byte} (hl : 0 ∉ l) : hits16 hit l = 0 := by
  fun_induction hits16 hit l with
  | case1 a b s ih =>
    simp only [List.mem_cons, not_or] at hl
    have hmiss : ¬ hit a b = true := by
      intro h
      rcases hhit _ _ h with ha | hb
      · exact hl.1 ha.symm
      · exact hl.2.1 hb.symm
    rw [if_neg hmiss, ih hl.2.2]
  | case2 => rfl

/-- A file without a zero byte is told by its bytes above 0x7F. -/
theorem checkenc_of_zero_notMem {file : List Byte} (hzero : 0 ∉ file) (hmark : ¬ [0xEF, 0xBB, 0xBF] <+: file)
    (hle : ¬ [0xFF, 0xFE] <+: file) (hbe : ¬ [0xFE, 0xFF] <+: file) (hfits : file.length ≤ sampleSize) :
    checkenc file = if ∀ b ∈ file, b < 0x80 then .ascii else if isValidUtf8 file = true then .utf8 else .other := by
  have h32 : ¬ [0xFF, 0xFE, 0x00, 0x00] <+: file := fun h => hzero (h.subset (by simp))
  have h32' : ¬ [0x00, 0x00, 0xFE, 0xFF] <+: file := fun h => hzero (h.subset (by simp))
  have hits1 : hits32 le32 file = 0 := hits32_eq_zero (by simp +contextual [le32]) hzero
  have hits2 : hits32 be32 file = 0 := hits32_eq_zero (by simp +contextual [be32]) hzero
  have hits3 : hits16 le16 file = 0 := hits16_eq_zero (by simp +contextual [le16]) hzero
  have hits4 : hits16 be16 file = 0 := hits16_eq_zero (by simp +contextual [be16]) hzero
  rw [checkenc, List.take_of_length_le hfits]
  rw [if_neg hmark, if_neg h32, if_neg h32', if_neg hle, if_neg hbe, hits1, hits2, hits3, hits4]
  simp only [Nat.not_lt_zero, and_false, if_false]
  by_cases hempty : file.length = 0
  · rw [if_pos hempty, List.eq_nil_of_length_eq_zero hempty]
    simp
  · rw [if_neg hempty]

/-! ## Files with a mark -/

section

variable {inEnc outEnc : Encoding} {b out : List Byte} {cps : List ℕ}

/-- Two bytes 0 come first in UTF-16-LE when the first character is U+0000. -/
theorem zeros_prefix_iff (h : ∀ c ∈ cps, IsScalar c) :
    [0, 0] <+: cps.flatMap (encodeUtf16 unitBytesLe) ↔ cps.head? = some 0 := by
  constructor
  · rintro ⟨s, hs⟩
    have hread := Encoding.utf16Le.decodeLoop_encode h
    change decodeUtf16 unitLe (cps.flatMap (encodeUtf16 unitBytesLe)) = cps.map some at hread
    have hzero : decodeUtf16 unitLe ([0, 0] ++ s) = some 0 :: decodeUtf16 unitLe s :=
      decodeUtf16_encodeUtf16 (c := 0) readsUnits_le ⟨by decide, by decide⟩ s
    rw [← hs, hzero] at hread
    cases cps with
    | nil => cases hread
    | cons c cps => exact (List.cons.inj hread).1 ▸ rfl
  · intro hhead
    cases cps with
    | nil => cases hhead
    | cons c cps =>
      obtain rfl := Option.some.inj hhead
      rw [List.flatMap_cons]
      exact List.prefix_append _ _

/-- What `checkenc` prints of a file that `chgenc` wrote with a mark is the name that `chgenc` takes for it. Only a
UTF-16-LE text whose first character is U+0000 is taken for UTF-32-LE. -/
theorem checkenc_marked (h : convert inEnc outEnc b = some out) (hmark : outEnc.hasMark = true) :
    parseEncoding (checkenc out).text =
      if outEnc = .utf16LeBom ∧ (decode b inEnc).bind List.head? = some 0 then some .utf32LeBom else some outEnc := by
  obtain ⟨cps, hdecode, rfl⟩ := convert_eq_some_iff.mp h
  obtain ⟨hne, hscalar⟩ := isScalar_of_decode hdecode
  rw [hdecode, Option.bind_some, Encoding.bytes, if_pos hmark]
  cases outEnc with
  | utf8 | utf16Le | utf16Be | utf32Le | utf32Be => cases hmark
  | utf8Bom | utf16BeBom | utf32LeBom | utf32BeBom =>
    simp [checkenc, Encoding.mark, sampleSize, List.prefix_take_iff, Answer.text, parseEncoding]
  | utf16LeBom =>
    have hzeros := zeros_prefix_iff hscalar
    by_cases hhead : cps.head? = some 0
    · simp [checkenc, Encoding.mark, sampleSize, List.prefix_take_iff, Answer.text, parseEncoding, Encoding.encodeOne,
        hzeros, hhead]
    · simp [checkenc, Encoding.mark, sampleSize, List.prefix_take_iff, Answer.text, parseEncoding, Encoding.encodeOne,
        hzeros, hhead]

/-- A character of U+0000 with a mark before it, and a text that is told by its mark -/
theorem checkenc_marked_zero : parseEncoding (checkenc [0xFF, 0xFE, 0x00, 0x00]).text = some .utf32LeBom ∧
    parseEncoding (checkenc [0xFF, 0xFE, 0x41, 0x00]).text = some .utf16LeBom :=
  ⟨(checkenc_marked (show convert .utf8 .utf16LeBom [0x00] = some [0xFF, 0xFE, 0x00, 0x00] by decide) rfl).trans (by decide),
    (checkenc_marked (show convert .utf8 .utf16LeBom [0x41] = some [0xFF, 0xFE, 0x41, 0x00] by decide) rfl).trans (by decide)⟩

/-! ## UTF-8 without a mark -/

/-- The first byte of a character tells its length. -/
theorem width_encodeUtf8 {c : ℕ} (hc : IsScalar c) :
    ∃ a v, encodeUtf8 c = a :: v ∧ width a = (a :: v).length ∧ (a < 0x80 ↔ c < 0x80) := by
  obtain ⟨hmax, hsurrogate⟩ := hc
  unfold encodeUtf8
  by_cases h1 : c ≤ 0x7F
  · have hbyte : UInt8.ofNat c < 0x80 := by
      rw [UInt8.lt_iff_toNat_lt, toNat_ofNat (by omega)]
      change c < 128
      omega
    rw [if_pos h1]
    exact ⟨_, _, rfl, width_one hbyte, iff_of_true hbyte (by omega)⟩
  rw [if_neg h1]
  by_cases h2 : c ≤ 0x7FF
  · have hlead : c >>> 6 < 0x20 := by
      rw [Nat.shiftRight_eq_div_pow]
      omega
    obtain ⟨hascii, htwo, -⟩ := lead2 hlead
    rw [if_pos h2]
    exact ⟨_, _, rfl, width_two hascii htwo, iff_of_false hascii (by omega)⟩
  rw [if_neg h2]
  by_cases h3 : c ≤ 0xFFFF
  · have hlead : c >>> 12 < 0x10 := by
      rw [Nat.shiftRight_eq_div_pow]
      omega
    obtain ⟨hascii, htwo, hthree, -⟩ := lead3 hlead
    rw [if_pos h3, replaceSurrogate, if_neg hsurrogate]
    exact ⟨_, _, rfl, width_three hascii htwo hthree, iff_of_false hascii (by omega)⟩
  have hlead : c >>> 18 < 0x08 := by
    rw [Nat.shiftRight_eq_div_pow]
    omega
  obtain ⟨hascii, htwo, hthree, hfour, -⟩ := lead4 hlead
  rw [if_neg h3, if_pos hmax]
  exact ⟨_, _, rfl, width_four hascii htwo hthree hfour, iff_of_false hascii (by omega)⟩

theorem wellFormed_encodeUtf8 {c : ℕ} (hc : IsScalar c) : WellFormed (encodeUtf8 c) := by
  have hmem : encodeUtf8 c ∈ wellFormed∗ := by
    rw [← decodeUtf8_iff, ← List.append_nil (encodeUtf8 c), decodeUtf8_encodeUtf8 hc]
    simp [decodeUtf8]
  obtain ⟨a, v, heq, hwidth, -⟩ := width_encodeUtf8 hc
  rw [heq, byHead_wellFormed.cons_mem_kstar_iff, hwidth, List.take_length] at hmem
  rw [heq]
  exact hmem.1

/-- A character is a byte below 0x80, or none of its bytes is one. -/
theorem bytes_of_wellFormed {w : List Byte} (h : WellFormed w) :
    (∃ a, w = [a] ∧ a < 0x80) ∨ ∀ x ∈ w, 0x80 ≤ x ∧ x < 0xFE := by
  cases h with
  | one ha => exact .inl ⟨_, rfl, by grind⟩
  | two | e0 | e1ToEc | ed | eeToEf | f0 | f1ToF3 | f4 =>
    refine .inr ?_
    simp only [List.forall_mem_cons, List.not_mem_nil, false_implies, implies_true, and_true]
    unfold IsTail at *
    grind

theorem lead4_eq_f0_iff {x : ℕ} (hx : x < 0x08) : UInt8.ofNat (0xF0 ||| x) = 0xF0 ↔ x = 0 := by
  revert x
  decide

theorem continuation_ge_a0_iff {x : ℕ} (hx : x < 0x40) :
    (0xA0 ≤ UInt8.ofNat (0x80 ||| x) ∧ UInt8.ofNat (0x80 ||| x) ≤ 0xBF) ↔ 0x20 ≤ x := by
  revert x
  decide

/-- The characters that `is_valid_utf8` refuses -/
theorem refused_encodeUtf8_iff {c : ℕ} (hc : IsScalar c) : Refused (encodeUtf8 c) ↔ 0x20000 ≤ c ∧ c ≤ 0x3FFFF := by
  have hlength {w : List Byte} (hw : Refused w) : w.length = 4 := by
    cases hw
    rfl
  unfold encodeUtf8
  by_cases h1 : c ≤ 0x7F
  · rw [if_pos h1]
    exact iff_of_false (fun h => nomatch hlength h) (by omega)
  by_cases h2 : c ≤ 0x7FF
  · rw [if_neg h1, if_pos h2]
    exact iff_of_false (fun h => nomatch hlength h) (by omega)
  by_cases h3 : c ≤ 0xFFFF
  · rw [if_neg h1, if_neg h2, if_pos h3]
    exact iff_of_false (fun h => nomatch hlength h) (by omega)
  rw [if_neg h1, if_neg h2, if_neg h3, if_pos hc.1, refused_iff]
  have hlead : c >>> 18 < 0x08 := by
    rw [Nat.shiftRight_eq_div_pow]
    have := hc.1
    omega
  have htail (n : ℕ) : IsTail (.ofNat (0x80 ||| n &&& 0x3F)) := by
    rw [← isContinuation_iff, and_63]
    exact (continuation (mod_64_lt n)).1
  have hsecond : c >>> 12 &&& 0x3F < 0x40 := by
    rw [and_63]
    exact mod_64_lt _
  rw [lead4_eq_f0_iff hlead, continuation_ge_a0_iff hsecond, and_63, Nat.shiftRight_eq_div_pow, Nat.shiftRight_eq_div_pow]
  have hc' := hc.1
  constructor
  · rintro ⟨h0, h20, -⟩
    omega
  · intro h
    exact ⟨by omega, by omega, htail _, htail _⟩

theorem zero_mem_encodeUtf8 {c : ℕ} (hc : IsScalar c) (h : 0 ∈ encodeUtf8 c) : c = 0 := by
  rcases bytes_of_wellFormed (wellFormed_encodeUtf8 hc) with ⟨a, heq, -⟩ | hhigh
  · rw [heq] at h
    obtain rfl := List.mem_singleton.mp h
    have hread := decodeUtf8_encodeUtf8 hc []
    rw [heq, List.append_nil] at hread
    have hzero : decodeUtf8 [0] = [some 0] := by decide
    rw [hzero] at hread
    exact (Option.some.inj (List.cons.inj hread).1).symm
  · exact absurd (hhigh 0 h).1 (by decide)

theorem lt_of_mem_utf8 (h : ∀ c ∈ cps, IsScalar c) : ∀ x ∈ cps.flatMap encodeUtf8, x < 0xFE := by
  intro x hx
  obtain ⟨c, hc, hx⟩ := List.mem_flatMap.mp hx
  rcases bytes_of_wellFormed (wellFormed_encodeUtf8 (h c hc)) with ⟨a, heq, ha⟩ | hhigh
  · rw [heq] at hx
    obtain rfl := List.mem_singleton.mp hx
    exact UInt8.lt_trans ha (by decide)
  · exact (hhigh x hx).2

/-- The text is ASCII when its bytes are. -/
theorem ascii_utf8_iff (h : ∀ c ∈ cps, IsScalar c) :
    (∀ x ∈ cps.flatMap encodeUtf8, x < 0x80) ↔ ∀ c ∈ cps, c < 0x80 := by
  simp only [List.mem_flatMap, forall_exists_index, and_imp]
  rw [forall_comm]
  refine forall_congr' fun c => ?_
  rw [forall_comm]
  refine forall_congr' fun hc => ?_
  obtain ⟨a, v, heq, -, hascii⟩ := width_encodeUtf8 (h c hc)
  rw [← hascii]
  constructor
  · intro hall
    exact hall a (by rw [heq]; exact List.mem_cons_self ..)
  · intro ha x hx
    rcases bytes_of_wellFormed (wellFormed_encodeUtf8 (h c hc)) with ⟨a', heq', ha'⟩ | hhigh
    · rw [heq'] at hx
      obtain rfl := List.mem_singleton.mp hx
      exact ha'
    · have hfirst := (hhigh a (by rw [heq]; exact List.mem_cons_self ..)).1
      exact absurd ha (UInt8.not_lt.mpr hfirst)

theorem isValidUtf8_utf8_iff (h : ∀ c ∈ cps, IsScalar c) :
    isValidUtf8 (cps.flatMap encodeUtf8) = true ↔ ¬ ∃ c ∈ cps, 0x20000 ≤ c ∧ c ≤ 0x3FFFF := by
  have hwords : ∀ w ∈ cps.map encodeUtf8, w ∈ sequences := by
    intro w hw
    obtain ⟨c, hc, rfl⟩ := List.mem_map.mp hw
    exact .inl (wellFormed_encodeUtf8 (h c hc))
  rw [isValidUtf8_iff, List.flatMap_def, flatten_mem_kstar_iff byHead_sequences.uniquelyDecodable accepted_le hwords,
    List.forall_mem_map]
  push Not
  refine forall₂_congr fun c hc => ?_
  rw [mem_accepted_iff (.inl (wellFormed_encodeUtf8 (h c hc))), refused_encodeUtf8_iff (h c hc), not_and, not_le]

/-- What `checkenc` prints of a file that `chgenc` wrote in UTF-8, without a U+0000 in it and not longer than the sample -/
theorem checkenc_utf8 (hdecode : decode b inEnc = some cps) (h : convert inEnc .utf8 b = some out) (hnul : 0 ∉ cps)
    (hfits : out.length ≤ sampleSize) :
    checkenc out = if cps.head? = some 0xFEFF then .utf8Bom else if ∀ c ∈ cps, c < 0x80 then .ascii
      else if ∃ c ∈ cps, 0x20000 ≤ c ∧ c ≤ 0x3FFFF then .other else .utf8 := by
  obtain ⟨cps', hdecode', rfl⟩ := convert_eq_some_iff.mp h
  obtain rfl := Option.some.inj (hdecode'.symm.trans hdecode)
  obtain ⟨-, hscalar⟩ := isScalar_of_decode hdecode
  have hout : Encoding.utf8.bytes cps' = cps'.flatMap encodeUtf8 := rfl
  have hmark := Encoding.utf8.mark_prefix_iff hscalar
  change [0xEF, 0xBB, 0xBF] <+: cps'.flatMap encodeUtf8 ↔ _ at hmark
  rw [hout] at hfits ⊢
  by_cases hhead : cps'.head? = some 0xFEFF
  · rw [if_pos hhead, checkenc, List.take_of_length_le hfits, if_pos (hmark.mpr hhead)]
  have hzero : 0 ∉ cps'.flatMap encodeUtf8 := by
    intro hmem
    obtain ⟨c, hc, hmem⟩ := List.mem_flatMap.mp hmem
    exact hnul (zero_mem_encodeUtf8 (hscalar c hc) hmem ▸ hc)
  have hhigh := lt_of_mem_utf8 hscalar
  rw [checkenc_of_zero_notMem hzero (hmark.not.mpr hhead)
    (fun hle => absurd (hhigh 0xFF (hle.subset (by simp))) (by decide))
    (fun hbe => absurd (hhigh 0xFF (hbe.subset (by simp))) (by decide)) hfits, if_neg hhead]
  simp only [ascii_utf8_iff hscalar, isValidUtf8_utf8_iff hscalar, ite_not]

/-- A letter with an accent -/
theorem checkenc_utf8_accent : checkenc [0xC3, 0xA9] = .utf8 :=
  (checkenc_utf8 (show decode [0x00, 0xE9] .utf16Be = some [0xE9] by decide) (by decide) (by decide) (by decide)).trans (by decide)

end

end ValidcTools.Checkenc
