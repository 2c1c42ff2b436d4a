import ValidcTools.Chgenc.Codec

/-! What `chgenc` writes, it reads back: one character, then a text, then a text with its mark. -/
namespace ValidcTools.Chgenc

/-- A Unicode scalar value. -/
def IsScalar (c : ℕ) : Prop := c ≤ 0x10FFFF ∧ ¬ (0xD800 ≤ c ∧ c ≤ 0xDFFF)

theorem isScalar_toNat (c : Char) : IsScalar c.toNat := by
  have hc : c.toNat < 0xD800 ∨ (0xDFFF < c.toNat ∧ c.toNat < 0x110000) := c.valid
  unfold IsScalar
  omega

/-! ## Bit fields -/

theorem shiftLeft_or {b i : ℕ} (a : ℕ) (hb : b < 2 ^ i) : a <<< i ||| b = a * 2 ^ i + b := by
  rw [← Nat.shiftLeft_add_eq_or_of_lt hb, Nat.shiftLeft_eq]

theorem three_fields (a : ℕ) {b c : ℕ} (hb : b < 2 ^ 6) (hc : c < 2 ^ 6) :
    a <<< 12 ||| b <<< 6 ||| c = (a * 2 ^ 6 + b) * 2 ^ 6 + c := by
  have hshift : a <<< 12 = a <<< 6 <<< 6 := (Nat.shiftLeft_add a 6 6).symm ▸ rfl
  rw [hshift, ← Nat.shiftLeft_or_distrib, shiftLeft_or _ hc, shiftLeft_or _ hb]

theorem four_fields (a : ℕ) {b c d : ℕ} (hb : b < 2 ^ 6) (hc : c < 2 ^ 6) (hd : d < 2 ^ 6) :
    a <<< 18 ||| b <<< 12 ||| c <<< 6 ||| d = ((a * 2 ^ 6 + b) * 2 ^ 6 + c) * 2 ^ 6 + d := by
  have hshift : a <<< 18 ||| b <<< 12 = (a <<< 6 ||| b) <<< 12 := by
    rw [Nat.shiftLeft_or_distrib, ← Nat.shiftLeft_add]
  rw [hshift, three_fields _ hc hd, shiftLeft_or _ hb]

theorem and_63 (c : ℕ) : c &&& 0x3F = c % 64 := Nat.and_two_pow_sub_one_eq_mod c 6

theorem mod_64_lt (n : ℕ) : n % 64 < 2 ^ 6 := Nat.mod_lt n (by decide)

theorem and_255 (c : ℕ) : c &&& 0xFF = c % 256 := Nat.and_two_pow_sub_one_eq_mod c 8

theorem and_1023 (c : ℕ) : c &&& 0x3FF = c % 1024 := Nat.and_two_pow_sub_one_eq_mod c 10

theorem lead2 {x : ℕ} (hx : x < 0x20) : let b : Byte := .ofNat (0xC0 ||| x)
    ¬ b < 0x80 ∧ b &&& 0xE0 = 0xC0 ∧ (b &&& 0x1F).toNat = x := by
  revert x
  decide

theorem lead3 {x : ℕ} (hx : x < 0x10) : let b : Byte := .ofNat (0xE0 ||| x)
    ¬ b < 0x80 ∧ b &&& 0xE0 ≠ 0xC0 ∧ b &&& 0xF0 = 0xE0 ∧ (b &&& 0x0F).toNat = x := by
  revert x
  decide

theorem lead4 {x : ℕ} (hx : x < 0x08) : let b : Byte := .ofNat (0xF0 ||| x)
    ¬ b < 0x80 ∧ b &&& 0xE0 ≠ 0xC0 ∧ b &&& 0xF0 ≠ 0xE0 ∧ b &&& 0xF8 = 0xF0 ∧ (b &&& 0x07).toNat = x := by
  revert x
  decide

theorem continuation {x : ℕ} (hx : x < 0x40) :
    isContinuation (.ofNat (0x80 ||| x)) = true ∧ (UInt8.ofNat (0x80 ||| x) &&& 0x3F).toNat = x := by
  revert x
  decide

/-! ## One character -/

theorem twoBytes_encode {c : ℕ} (hlo : 0x80 ≤ c) (hhi : c ≤ 0x7FF) :
    twoBytes (.ofNat (0xC0 ||| c >>> 6)) (.ofNat (0x80 ||| c &&& 0x3F)) = some c := by
  have hc : c >>> 6 < 0x20 := by
    rw [Nat.shiftRight_eq_div_pow]
    omega
  obtain ⟨-, -, hlead⟩ := lead2 hc
  obtain ⟨h1, hbits⟩ := continuation (x := c &&& 0x3F) (by rw [and_63]; omega)
  have hvalue : c >>> 6 <<< 6 ||| c &&& 0x3F = c := by
    rw [and_63, shiftLeft_or _ (mod_64_lt _), Nat.shiftRight_eq_div_pow]
    omega
  unfold twoBytes
  rw [hlead, hbits, hvalue, h1]
  simp only [Bool.true_eq_false, if_false]
  rw [if_neg (by omega)]

theorem threeBytes_encode {c : ℕ} (hlo : 0x800 ≤ c) (hhi : c ≤ 0xFFFF)
    (hc : ¬ (0xD800 ≤ c ∧ c ≤ 0xDFFF)) :
    threeBytes (.ofNat (0xE0 ||| c >>> 12)) (.ofNat (0x80 ||| c >>> 6 &&& 0x3F))
      (.ofNat (0x80 ||| c &&& 0x3F)) = some c := by
  have h0 : c >>> 12 < 0x10 := by
    rw [Nat.shiftRight_eq_div_pow]
    omega
  obtain ⟨-, -, -, hlead⟩ := lead3 h0
  obtain ⟨h1, hbits1⟩ := continuation (x := c >>> 6 &&& 0x3F) (by rw [and_63]; omega)
  obtain ⟨h2, hbits2⟩ := continuation (x := c &&& 0x3F) (by rw [and_63]; omega)
  have hvalue : c >>> 12 <<< 12 ||| (c >>> 6 &&& 0x3F) <<< 6 ||| c &&& 0x3F = c := by
    simp only [and_63, Nat.shiftRight_eq_div_pow]
    rw [three_fields _ (mod_64_lt _) (mod_64_lt _)]
    omega
  unfold threeBytes
  rw [hlead, hbits1, hbits2, hvalue, h1, h2]
  simp only [Bool.true_eq_false, or_self, if_false]
  rw [if_neg (by omega)]

theorem fourBytes_encode {c : ℕ} (hlo : 0x10000 ≤ c) (hhi : c ≤ 0x10FFFF) :
    fourBytes (.ofNat (0xF0 ||| c >>> 18)) (.ofNat (0x80 ||| c >>> 12 &&& 0x3F))
      (.ofNat (0x80 ||| c >>> 6 &&& 0x3F)) (.ofNat (0x80 ||| c &&& 0x3F)) = some c := by
  have h0 : c >>> 18 < 0x08 := by
    rw [Nat.shiftRight_eq_div_pow]
    omega
  obtain ⟨-, -, -, -, hlead⟩ := lead4 h0
  obtain ⟨h1, hbits1⟩ := continuation (x := c >>> 12 &&& 0x3F) (by rw [and_63]; omega)
  obtain ⟨h2, hbits2⟩ := continuation (x := c >>> 6 &&& 0x3F) (by rw [and_63]; omega)
  obtain ⟨h3, hbits3⟩ := continuation (x := c &&& 0x3F) (by rw [and_63]; omega)
  have hvalue : c >>> 18 <<< 18 ||| (c >>> 12 &&& 0x3F) <<< 12 ||| (c >>> 6 &&& 0x3F) <<< 6 ||| c &&& 0x3F =
      c := by
    simp only [and_63, Nat.shiftRight_eq_div_pow]
    rw [four_fields _ (mod_64_lt _) (mod_64_lt _) (mod_64_lt _)]
    omega
  unfold fourBytes
  rw [hlead, hbits1, hbits2, hbits3, hvalue, h1, h2, h3]
  simp only [Bool.true_eq_false, or_self, if_false]
  rw [if_neg (by omega)]

theorem decodeUtf8_one {c : Byte} (h : c < 0x80) (s : List Byte) :
    decodeUtf8 (c :: s) = some c.toNat :: decodeUtf8 s := by
  conv_lhs => unfold decodeUtf8
  exact if_pos h

theorem decodeUtf8_two {c : Byte} (h1 : ¬ c < 0x80) (h2 : c &&& 0xE0 = 0xC0) (c1 : Byte) (s : List Byte) :
    decodeUtf8 (c :: c1 :: s) = twoBytes c c1 :: decodeUtf8 s := by
  conv_lhs => unfold decodeUtf8
  exact (if_neg h1).trans (if_pos h2)

theorem decodeUtf8_three {c : Byte} (h1 : ¬ c < 0x80) (h2 : c &&& 0xE0 ≠ 0xC0) (h3 : c &&& 0xF0 = 0xE0)
    (c1 c2 : Byte) (s : List Byte) :
    decodeUtf8 (c :: c1 :: c2 :: s) = threeBytes c c1 c2 :: decodeUtf8 s := by
  conv_lhs => unfold decodeUtf8
  exact (if_neg h1).trans ((if_neg h2).trans (if_pos h3))

theorem decodeUtf8_four {c : Byte} (h1 : ¬ c < 0x80) (h2 : c &&& 0xE0 ≠ 0xC0) (h3 : c &&& 0xF0 ≠ 0xE0)
    (h4 : c &&& 0xF8 = 0xF0) (c1 c2 c3 : Byte) (s : List Byte) :
    decodeUtf8 (c :: c1 :: c2 :: c3 :: s) = fourBytes c c1 c2 c3 :: decodeUtf8 s := by
  conv_lhs => unfold decodeUtf8
  exact (if_neg h1).trans ((if_neg h2).trans ((if_neg h3).trans (if_pos h4)))

theorem decodeUtf8_encodeUtf8 {c : ℕ} (hc : IsScalar c) (s : List Byte) :
    decodeUtf8 (encodeUtf8 c ++ s) = some c :: decodeUtf8 s := by
  obtain ⟨hmax, hsurrogate⟩ := hc
  unfold encodeUtf8
  by_cases h1 : c ≤ 0x7F
  · have hbyte : UInt8.ofNat c < 0x80 ∧ (UInt8.ofNat c).toNat = c := by
      rw [UInt8.lt_iff_toNat_lt, UInt8.toNat_ofNat']
      have hmod : c % 2 ^ 8 = c := Nat.mod_eq_of_lt (by omega)
      rw [hmod]
      exact ⟨by change c < 128; omega, rfl⟩
    rw [if_pos h1, List.singleton_append, decodeUtf8_one hbyte.1, hbyte.2]
  rw [if_neg h1]
  by_cases h2 : c ≤ 0x7FF
  · have hc : c >>> 6 < 0x20 := by
      rw [Nat.shiftRight_eq_div_pow]
      omega
    obtain ⟨hascii, htwo, -⟩ := lead2 hc
    rw [if_pos h2]
    exact (decodeUtf8_two hascii htwo _ s).trans (by rw [twoBytes_encode (by omega) h2])
  rw [if_neg h2]
  by_cases h3 : c ≤ 0xFFFF
  · have hc : c >>> 12 < 0x10 := by
      rw [Nat.shiftRight_eq_div_pow]
      omega
    obtain ⟨hascii, htwo, hthree, -⟩ := lead3 hc
    rw [if_pos h3, replaceSurrogate, if_neg hsurrogate]
    exact (decodeUtf8_three hascii htwo hthree _ _ s).trans
      (by rw [threeBytes_encode (by omega) h3 hsurrogate])
  rw [if_neg h3, if_pos hmax]
  have hc : c >>> 18 < 0x08 := by
    rw [Nat.shiftRight_eq_div_pow]
    omega
  obtain ⟨hascii, htwo, hthree, hfour, -⟩ := lead4 hc
  exact (decodeUtf8_four hascii htwo hthree hfour _ _ _ s).trans (by rw [fourBytes_encode (by omega) hmax])

theorem toNat_ofNat {x : ℕ} (hx : x < 256) : (UInt8.ofNat x).toNat = x := by
  rw [UInt8.toNat_ofNat']
  exact Nat.mod_eq_of_lt hx

/-- The bytes of a unit are read back as the unit. -/
def ReadsUnits (unit : Byte → Byte → ℕ) (bytes : ℕ → List Byte) : Prop :=
  ∀ u < 65536, ∃ b0 b1, bytes u = [b0, b1] ∧ unit b0 b1 = u

theorem readsUnits_le : ReadsUnits unitLe unitBytesLe := by
  intro u hu
  refine ⟨_, _, rfl, ?_⟩
  unfold unitLe
  rw [and_255, and_255, Nat.shiftRight_eq_div_pow, toNat_ofNat (by omega), toNat_ofNat (by omega), Nat.lor_comm,
    shiftLeft_or _ (by omega)]
  omega

theorem readsUnits_be : ReadsUnits unitBe unitBytesBe := by
  intro u hu
  refine ⟨_, _, rfl, ?_⟩
  unfold unitBe
  rw [and_255, and_255, Nat.shiftRight_eq_div_pow, toNat_ofNat (by omega), toNat_ofNat (by omega),
    shiftLeft_or _ (by omega)]
  omega

theorem decodeUtf16_encodeUtf16 {unit : Byte → Byte → ℕ} {bytes : ℕ → List Byte}
    (h : ReadsUnits unit bytes) {c : ℕ} (hc : IsScalar c) (s : List Byte) :
    decodeUtf16 unit (encodeUtf16 bytes c ++ s) = some c :: decodeUtf16 unit s := by
  obtain ⟨hmax, hsurrogate⟩ := hc
  unfold encodeUtf16
  by_cases hbmp : c ≤ 0xFFFF
  · obtain ⟨b0, b1, hbytes, hunit⟩ := h c (by omega)
    rw [if_pos hbmp, replaceSurrogate, if_neg hsurrogate, hbytes]
    conv_lhs => unfold decodeUtf16
    dsimp only [List.cons_append, List.nil_append]
    rw [hunit, if_neg (by omega), if_neg (by omega)]
  · have hhi : (0xD800 + ((c - 0x10000) >>> 10) % 65536) % 65536 = 0xD800 + (c - 0x10000) / 1024 := by
      rw [Nat.shiftRight_eq_div_pow]
      omega
    have hlo : (0xDC00 + ((c - 0x10000) &&& 0x3FF)) % 65536 = 0xDC00 + (c - 0x10000) % 1024 := by
      rw [and_1023]
      omega
    obtain ⟨b0, b1, hbytes, hunit⟩ := h (0xD800 + (c - 0x10000) / 1024) (by omega)
    obtain ⟨b2, b3, hbytes2, hunit2⟩ := h (0xDC00 + (c - 0x10000) % 1024) (by omega)
    rw [if_neg hbmp]
    dsimp only
    rw [hhi, hlo, hbytes, hbytes2]
    conv_lhs => unfold decodeUtf16
    dsimp only [List.cons_append, List.nil_append]
    have hlow : (c - 0x10000) % 1024 < 2 ^ 10 := Nat.mod_lt _ (by decide)
    rw [hunit, if_pos (by omega), hunit2, if_neg (by omega), Nat.add_sub_cancel_left, Nat.add_sub_cancel_left,
      shiftLeft_or _ hlow]
    have hvalue : 0x10000 + ((c - 0x10000) / 1024 * 2 ^ 10 + (c - 0x10000) % 1024) = c := by omega
    rw [hvalue]

/-- The bytes of a word are read back as the word. -/
def ReadsWords (word : Byte → Byte → Byte → Byte → ℕ) (bytes : ℕ → List Byte) : Prop :=
  ∀ c ≤ 0x10FFFF, ∃ b0 b1 b2 b3, bytes c = [b0, b1, b2, b3] ∧ word b0 b1 b2 b3 = c

theorem four_bytes (a : ℕ) {b c d : ℕ} (hb : b < 2 ^ 8) (hc : c < 2 ^ 8) (hd : d < 2 ^ 8) :
    a <<< 24 ||| b <<< 16 ||| c <<< 8 ||| d = ((a * 2 ^ 8 + b) * 2 ^ 8 + c) * 2 ^ 8 + d := by
  have hshift : a <<< 24 ||| b <<< 16 ||| c <<< 8 = ((a <<< 8 ||| b) <<< 8 ||| c) <<< 8 := by
    rw [Nat.shiftLeft_or_distrib, Nat.shiftLeft_or_distrib, Nat.shiftLeft_or_distrib, ← Nat.shiftLeft_add,
      ← Nat.shiftLeft_add, ← Nat.shiftLeft_add]
  rw [hshift, shiftLeft_or _ hd, shiftLeft_or _ hc, shiftLeft_or _ hb]

theorem readsWords_be : ReadsWords wordBe encodeUtf32Be := by
  intro c hc
  refine ⟨_, _, _, _, rfl, ?_⟩
  unfold wordBe
  simp only [and_255, Nat.shiftRight_eq_div_pow]
  rw [toNat_ofNat (by omega), toNat_ofNat (by omega), toNat_ofNat (by omega), toNat_ofNat (by omega),
    four_bytes _ (by omega) (by omega) (by omega)]
  omega

theorem wordLe_eq (b0 b1 b2 b3 : Byte) : wordLe b0 b1 b2 b3 = wordBe b3 b2 b1 b0 := by
  unfold wordLe wordBe
  rw [Nat.lor_comm b0.toNat, Nat.lor_comm _ (b2.toNat <<< 16), ← Nat.lor_assoc, Nat.lor_comm _ (b3.toNat <<< 24),
    ← Nat.lor_assoc, ← Nat.lor_assoc]

theorem readsWords_le : ReadsWords wordLe encodeUtf32Le := by
  intro c hc
  obtain ⟨b0, b1, b2, b3, hbytes, hword⟩ := readsWords_be c hc
  refine ⟨b3, b2, b1, b0, ?_, by rw [wordLe_eq, hword]⟩
  calc encodeUtf32Le c = (encodeUtf32Be c).reverse := rfl
    _ = [b3, b2, b1, b0] := by rw [hbytes]; rfl

theorem decodeUtf32_encodeUtf32 {word : Byte → Byte → Byte → Byte → ℕ} {bytes : ℕ → List Byte}
    (h : ReadsWords word bytes) {c : ℕ} (hc : IsScalar c) (s : List Byte) :
    decodeUtf32 word (bytes c ++ s) = some c :: decodeUtf32 word s := by
  obtain ⟨hmax, hsurrogate⟩ := hc
  obtain ⟨b0, b1, b2, b3, hbytes, hword⟩ := h c hmax
  rw [hbytes]
  conv_lhs => unfold decodeUtf32
  dsimp only [List.cons_append, List.nil_append]
  rw [hword, if_neg (by omega)]

namespace Encoding

variable (enc : Encoding)

theorem decodeLoop_encodeOne {c : ℕ} (hc : IsScalar c) (s : List Byte) :
    enc.decodeLoop (enc.encodeOne c ++ s) = some c :: enc.decodeLoop s := by
  cases enc with
  | utf8 | utf8Bom => exact decodeUtf8_encodeUtf8 hc s
  | utf16Le | utf16LeBom => exact decodeUtf16_encodeUtf16 readsUnits_le hc s
  | utf16Be | utf16BeBom => exact decodeUtf16_encodeUtf16 readsUnits_be hc s
  | utf32Le | utf32LeBom => exact decodeUtf32_encodeUtf32 readsWords_le hc s
  | utf32Be | utf32BeBom => exact decodeUtf32_encodeUtf32 readsWords_be hc s

theorem decodeLoop_nil : enc.decodeLoop [] = [] := by
  cases enc <;> rfl

/-- A text without its mark is read back. -/
theorem decodeLoop_encode {cps : List ℕ} (h : ∀ c ∈ cps, IsScalar c) :
    enc.decodeLoop (cps.flatMap enc.encodeOne) = cps.map some := by
  induction cps with
  | nil => exact enc.decodeLoop_nil
  | cons c cps ih =>
    rw [List.flatMap_cons, enc.decodeLoop_encodeOne (h c List.mem_cons_self), List.map_cons,
      ih fun d hd => h d (List.mem_cons_of_mem c hd)]

/-- The mark is the character U+FEFF. -/
theorem mark_eq : enc.mark = enc.encodeOne 0xFEFF := by
  cases enc <;> decide

/-! ## A text with its mark -/

/-- The bytes that `encode` emits. -/
def bytes (cps : List ℕ) : List Byte := (if enc.hasMark then enc.mark else []) ++ cps.flatMap enc.encodeOne

/-- What is left of a text when it is read back: a mark that is not the encoding's own is taken for
one. -/
def stripped (cps : List ℕ) : List ℕ :=
  if enc.hasMark = false ∧ cps.head? = some 0xFEFF then cps.tail else cps

theorem mark_prefix_iff {cps : List ℕ} (h : ∀ c ∈ cps, IsScalar c) :
    enc.mark <+: cps.flatMap enc.encodeOne ↔ cps.head? = some 0xFEFF := by
  have hmark : IsScalar 0xFEFF := ⟨by decide, by decide⟩
  constructor
  · rintro ⟨s, hs⟩
    have hread := enc.decodeLoop_encode h
    rw [← hs, enc.mark_eq, enc.decodeLoop_encodeOne hmark] at hread
    cases cps with
    | nil => cases hread
    | cons c cps => exact congrArg some (Option.some.inj (List.cons.inj hread).1).symm
  · intro hhead
    cases cps with
    | nil => cases hhead
    | cons c cps =>
      obtain rfl := Option.some.inj hhead
      rw [List.flatMap_cons, ← enc.mark_eq]
      exact List.prefix_append _ _

theorem decode_bytes {cps : List ℕ} (h : ∀ c ∈ cps, IsScalar c) :
    decode (enc.bytes cps) enc = buffer (enc.stripped cps) := by
  have hread {l : List ℕ} (hl : ∀ c ∈ l, IsScalar c) :
      ((enc.decodeLoop (l.flatMap enc.encodeOne)).map fun cp => cp.getD 0xFFFD) = l := by
    rw [enc.decodeLoop_encode hl, List.map_map]
    exact List.map_id l
  unfold decode bytes stripped
  cases hmark : enc.hasMark with
  | true =>
    simp only [if_true, List.prefix_append, List.drop_left, Bool.true_eq_false, false_and, if_false, hread h]
  | false =>
    simp only [Bool.false_eq_true, if_false, List.nil_append, true_and, enc.mark_prefix_iff h]
    split_ifs with hhead
    · cases cps with
      | nil => cases hhead
      | cons c cps =>
        obtain rfl := Option.some.inj hhead
        rw [List.flatMap_cons, ← enc.mark_eq, List.drop_left, hread fun d hd => h d (List.mem_cons_of_mem _ hd)]
        rfl
    · rw [hread h]

theorem encode_eq (cps : List ℕ) : encode cps enc = buffer (enc.bytes cps) := rfl

theorem bytes_injective {cps cps' : List ℕ} (h : ∀ c ∈ cps, IsScalar c) (h' : ∀ c ∈ cps', IsScalar c)
    (heq : enc.bytes cps = enc.bytes cps') : cps = cps' := by
  have hbody := List.append_cancel_left heq
  have hread := enc.decodeLoop_encode h
  rw [hbody, enc.decodeLoop_encode h'] at hread
  exact (List.map_injective_iff.mpr (Option.some_injective _) hread).symm

theorem eq_nil_of_bytes_eq_nil {cps : List ℕ} (h : ∀ c ∈ cps, IsScalar c) (hnil : enc.bytes cps = []) :
    cps = [] := by
  have hread := enc.decodeLoop_encode h
  rw [(List.append_eq_nil_iff.mp hnil).2, enc.decodeLoop_nil] at hread
  exact List.map_eq_nil_iff.mp hread.symm

theorem stripped_suffix (cps : List ℕ) : enc.stripped cps <:+ cps := by
  unfold stripped
  split_ifs
  · exact List.tail_suffix cps
  · exact List.suffix_rfl

end Encoding

theorem buffer_eq_some_iff {α : Type} {out out' : List α} :
    buffer out = some out' ↔ out = out' ∧ out ≠ [] := by
  unfold buffer
  split_ifs with h
  · simp [h]
  · simp [h]

/-- A text is given back by `decode` after `encode`. -/
def RoundTrips (cps : List Char) (enc : Encoding) : Prop :=
  (encode (cps.map Char.toNat) enc).bind (decode · enc) = some (cps.map Char.toNat)

/-- A text in one encoding is given back by a conversion to another one and back. -/
def ConvertsBack (cps : List Char) (enc enc' : Encoding) : Prop :=
  ∃ b b', encode (cps.map Char.toNat) enc = some b ∧ convert enc enc' b = some b' ∧
    convert enc' enc b' = some b

/-- The text is not empty, and an encoding without a mark does not find one in it. -/
def Encoding.Keeps (enc : Encoding) (cps : List Char) : Prop :=
  cps ≠ [] ∧ (enc.hasMark = true ∨ cps.head? ≠ some '\uFEFF')

section

variable (cps : List Char) (enc enc' : Encoding)

theorem isScalar_map : ∀ c ∈ cps.map Char.toNat, IsScalar c := by
  intro c hc
  obtain ⟨d, -, rfl⟩ := List.mem_map.mp hc
  exact isScalar_toNat d

theorem head?_map_eq_iff : (cps.map Char.toNat).head? = some 0xFEFF ↔ cps.head? = some '\uFEFF' := by
  cases cps with
  | nil => simp
  | cons c cps =>
    have hmark : (0xFEFF : ℕ) = ('\uFEFF' : Char).toNat := rfl
    simp only [List.map_cons, List.head?_cons, Option.some.injEq, hmark]
    exact Char.toNat_inj

theorem keeps_iff : enc.Keeps cps ↔ cps ≠ [] ∧ enc.stripped (cps.map Char.toNat) = cps.map Char.toNat := by
  unfold Encoding.Keeps Encoding.stripped
  simp only [head?_map_eq_iff]
  by_cases hnil : cps = []
  · simp [hnil]
  by_cases hstrip : enc.hasMark = false ∧ cps.head? = some '\uFEFF'
  · have hne : (cps.map Char.toNat).tail ≠ cps.map Char.toNat := by
      intro heq
      have hlen := congrArg List.length heq
      rw [List.length_tail, List.length_map] at hlen
      have hpos := List.length_pos_iff.mpr hnil
      omega
    rw [if_pos hstrip]
    simp [hstrip.1, hstrip.2, hne]
  · rw [if_neg hstrip]
    refine ⟨fun h => ⟨h.1, rfl⟩, fun h => ⟨h.1, ?_⟩⟩
    by_contra hno
    rw [not_or, not_not] at hno
    exact hstrip ⟨Bool.eq_false_of_not_eq_true hno.1, hno.2⟩

theorem encode_of_ne_nil (hne : cps ≠ []) :
    encode (cps.map Char.toNat) enc = some (enc.bytes (cps.map Char.toNat)) := by
  rw [enc.encode_eq, buffer_eq_some_iff]
  refine ⟨rfl, fun hnil => hne ?_⟩
  exact List.map_eq_nil_iff.mp (enc.eq_nil_of_bytes_eq_nil (isScalar_map cps) hnil)

theorem roundTrips_iff_keeps : RoundTrips cps enc ↔ enc.Keeps cps := by
  have hread := enc.decode_bytes (isScalar_map cps)
  rw [keeps_iff]
  unfold RoundTrips
  constructor
  · intro h
    obtain ⟨b, hencode, hdecode⟩ := Option.bind_eq_some_iff.mp h
    rw [enc.encode_eq, buffer_eq_some_iff] at hencode
    rw [← hencode.1, hread, buffer_eq_some_iff] at hdecode
    refine ⟨?_, hdecode.1⟩
    rintro rfl
    exact hdecode.2 hdecode.1
  · rintro ⟨hne, hkept⟩
    have hmap : cps.map Char.toNat ≠ [] := by simpa using hne
    rw [encode_of_ne_nil cps enc hne, Option.bind_some, hread, buffer_eq_some_iff, hkept]
    exact ⟨rfl, hmap⟩

/-- Two conversions strip at most, so what they give back has not been stripped. -/
theorem convertsBack_iff_keeps : ConvertsBack cps enc enc' ↔ enc.Keeps cps ∧ enc'.Keeps cps := by
  have hscalar := isScalar_map cps
  have hread := enc.decode_bytes hscalar
  constructor
  · rintro ⟨b, b', hencode, hthere, hback⟩
    rw [enc.encode_eq, buffer_eq_some_iff] at hencode
    obtain ⟨l, hl, hb'⟩ := Option.bind_eq_some_iff.mp hthere
    obtain ⟨l', hl', hb⟩ := Option.bind_eq_some_iff.mp hback
    rw [← hencode.1, hread, buffer_eq_some_iff] at hl
    have hsuffix : l <:+ cps.map Char.toNat := hl.1 ▸ enc.stripped_suffix _
    have hscalar1 : ∀ c ∈ l, IsScalar c := fun c hc => hscalar c (hsuffix.subset hc)
    rw [enc'.encode_eq, buffer_eq_some_iff] at hb'
    rw [← hb'.1, enc'.decode_bytes hscalar1, buffer_eq_some_iff] at hl'
    have hsuffix' : l' <:+ l := hl'.1 ▸ enc'.stripped_suffix l
    rw [enc.encode_eq, buffer_eq_some_iff] at hb
    have hsame : l' = cps.map Char.toNat :=
      enc.bytes_injective (fun c hc => hscalar1 c (hsuffix'.subset hc)) hscalar (hb.1.trans hencode.1.symm)
    have hmiddle : l = cps.map Char.toNat := hsuffix.eq_of_length_le (hsame ▸ hsuffix'.length_le)
    have hne : cps ≠ [] := by
      rintro rfl
      exact hl.2 (hl.1.trans hmiddle)
    rw [keeps_iff, keeps_iff]
    refine ⟨⟨hne, hl.1.trans hmiddle⟩, hne, ?_⟩
    rw [← hmiddle, hl'.1, hsame, hmiddle]
  · rintro ⟨hkeeps, hkeeps'⟩
    have hne := hkeeps.1
    have hmap : cps.map Char.toNat ≠ [] := by simpa using hne
    have hdecode : ∀ e : Encoding, e.Keeps cps →
        decode (e.bytes (cps.map Char.toNat)) e = some (cps.map Char.toNat) := by
      intro e he
      rw [e.decode_bytes hscalar, buffer_eq_some_iff]
      exact ⟨((keeps_iff cps e).mp he).2, ((keeps_iff cps e).mp he).2.symm ▸ hmap⟩
    refine ⟨_, enc'.bytes (cps.map Char.toNat), encode_of_ne_nil cps enc hne, ?_, ?_⟩
    · unfold convert
      rw [hdecode enc hkeeps, Option.bind_some]
      exact encode_of_ne_nil cps enc' hne
    · unfold convert
      rw [hdecode enc' hkeeps', Option.bind_some]
      exact encode_of_ne_nil cps enc hne

/-- What is preserved, by one encoding and between two. -/
theorem preserves_iff_keeps :
    (RoundTrips cps enc ↔ enc.Keeps cps) ∧ (ConvertsBack cps enc enc' ↔ enc.Keeps cps ∧ enc'.Keeps cps) :=
  ⟨roundTrips_iff_keeps cps enc, convertsBack_iff_keeps cps enc enc'⟩

end

/-- Neither the empty text nor a text that begins with U+FEFF is given back. -/
theorem not_roundTrips : ¬RoundTrips [] .utf8 ∧ ¬RoundTrips ['\uFEFF', 'a'] .utf8 := by
  unfold RoundTrips
  exact ⟨by decide, by decide⟩

end ValidcTools.Chgenc
