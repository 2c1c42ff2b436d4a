import ValidcTools.Smoltar.Sha256

/-! The header of an entry: octal fields, the layout, and the checksum. -/
namespace ValidcTools.Smoltar

/-! ## Octal fields -/

/-- `'0' + (value & 7)` -/
def octalDigit (value : ℕ) : Byte := (('0' : Char) : Byte) + UInt8.ofNat (value &&& 7)

/-- The `n` lowest octal digits of a value, the highest first. -/
def octalDigits : ℕ → ℕ → List Byte
  | 0, _ => []
  | n + 1, value => octalDigits n (value >>> 3) ++ [octalDigit value]

/-- `format_octal`, for a field of at least two bytes. -/
def formatOctal (value size : ℕ) : List Byte :=
  let rest := value >>> (3 * (size - 2))
  (if rest > 7 then List.replicate (size - 1) (('7' : Char) : Byte)
    else octalDigit rest :: octalDigits (size - 2) value) ++ [0]

def isOctalDigit (b : Byte) : Bool := '0' ≤ b ∧ b ≤ '7'

/-- `parse_octal`; `unsigned long` has 64 bits. -/
def parseOctal (str : List Byte) (size : ℕ) : ℕ :=
  ((str.take size).takeWhile isOctalDigit).foldl
    (fun result b => (result <<< 3 ||| (b - '0').toNat) % 2 ^ 64) 0

/-! ## The layout -/

/-- `struct tar_header`, by its 512 bytes. -/
structure TarHeader where
  bytes : List Byte
  length_bytes : bytes.length = 512

namespace TarHeader

variable (header : TarHeader)

def field (offset size : ℕ) : List Byte := (header.bytes.drop offset).take size

def name : List Byte := header.field 0 100

def size : List Byte := header.field 124 12

def chksum : List Byte := header.field 148 8

def linkname : List Byte := header.field 157 100

def magic : List Byte := header.field 257 6

/-- What a string function reads at `header->name`: it does not stop at the end of the field. -/
def string : CString := .ofBytes header.bytes

end TarHeader

/-- `calculate_checksum` -/
def calculateChecksum (bytes : List Byte) : ℕ :=
  ((bytes.take 148).map UInt8.toNat).sum + 8 * (' ' : Char).toNat + ((bytes.drop 156).map UInt8.toNat).sum

/-- A field of zeros into which `l` is copied. -/
def zeroFilled (l : List Byte) (size : ℕ) : List Byte := l ++ List.replicate (size - l.length) 0

/-- The fields before the checksum. -/
def fieldsBefore (filename : CString) (filesize now : ℕ) : List Byte :=
  zeroFilled (filename.bytes.take 99) 100 ++ (formatOctal 0o644 8 ++ formatOctal 0 8 ++ formatOctal 0 8) ++
    formatOctal filesize 12 ++ formatOctal now 12

/-- The fields after the checksum. -/
def fieldsAfter (sha256Hex : List Byte) : List Byte :=
  (('0' : Char) : Byte) :: zeroFilled (sha256Hex.take 99) 100 ++
    ("ustar".toList.map Char.toUInt8 ++ [0] ++ "00".toList.map Char.toUInt8) ++ List.replicate 247 0

def checksumField (checksum : ℕ) : List Byte := (formatOctal checksum 8).take 7 ++ [(' ' : Char).toUInt8]

def hasSeparator (name : List Byte) : Bool := (('/' : Char) : Byte) ∈ name ∨ (('\\' : Char) : Byte) ∈ name

/-! ## Lengths and values -/

theorem length_octalDigits (n value : ℕ) : (octalDigits n value).length = n := by
  induction n generalizing value with
  | zero => rfl
  | succ n ih => rw [octalDigits, List.length_append, ih, List.length_singleton]

theorem length_formatOctal (value : ℕ) {size : ℕ} (hsize : 2 ≤ size) : (formatOctal value size).length = size := by
  unfold formatOctal
  dsimp only
  split_ifs with h
  · rw [List.length_append, List.length_replicate, List.length_singleton]
    omega
  · rw [List.length_append, List.length_cons, length_octalDigits, List.length_singleton]
    omega

theorem length_zeroFilled {l : List Byte} {size : ℕ} (h : l.length ≤ size) : (zeroFilled l size).length = size := by
  unfold zeroFilled
  rw [List.length_append, List.length_replicate]
  omega

theorem length_fieldsBefore (filename : CString) (filesize now : ℕ) :
    (fieldsBefore filename filesize now).length = 148 := by
  have hname : (filename.bytes.take 99).length ≤ 100 := (List.length_take_le 99 _).trans (by decide)
  unfold fieldsBefore
  simp only [List.length_append, length_zeroFilled hname, length_formatOctal _ (show 2 ≤ 8 by decide),
    length_formatOctal _ (show 2 ≤ 12 by decide)]

theorem length_fieldsAfter (sha256Hex : List Byte) : (fieldsAfter sha256Hex).length = 356 := by
  have hhex : (sha256Hex.take 99).length ≤ 100 := (List.length_take_le 99 _).trans (by decide)
  unfold fieldsAfter
  simp only [List.length_append, List.length_cons, length_zeroFilled hhex, List.length_replicate,
    List.length_map]
  rfl

theorem length_checksumField (checksum : ℕ) : (checksumField checksum).length = 8 := by
  unfold checksumField
  rw [List.length_append, List.length_take, length_formatOctal checksum (by decide)]
  rfl

theorem length_layout (filename : CString) (filesize now checksum : ℕ) (sha256Hex : List Byte) :
    (fieldsBefore filename filesize now ++ checksumField checksum ++ fieldsAfter sha256Hex).length = 512 := by
  rw [List.length_append, List.length_append, length_fieldsBefore, length_checksumField, length_fieldsAfter]

/-- `init_header`; `none` is the `exit` for a path separator. -/
def initHeader (filename : CString) (filesize : ℕ) (sha256Hex : List Byte) (now : ℕ) : Option TarHeader :=
  if hasSeparator filename.bytes then none
  else
    let blank := fieldsBefore filename filesize now ++ List.replicate 8 ((' ' : Char) : Byte) ++ fieldsAfter sha256Hex
    some ⟨_, length_layout filename filesize now (calculateChecksum blank) sha256Hex⟩

/-! ## What an octal field says -/

theorem octalDigit_spec (value : ℕ) :
    isOctalDigit (octalDigit value) = true ∧ (octalDigit value - '0').toNat = value % 8 := by
  have hfacts : ∀ d < 8, isOctalDigit (octalDigit d) = true ∧ (octalDigit d - '0').toNat = d := by decide
  have hmod : octalDigit value = octalDigit (value % 8) := by
    unfold octalDigit
    rw [Nat.and_two_pow_sub_one_eq_mod value 3, Nat.and_two_pow_sub_one_eq_mod (value % 8) 3, Nat.mod_mod]
  rw [hmod]
  exact hfacts _ (Nat.mod_lt _ (by decide))

theorem isOctalDigit_of_mem {n value : ℕ} : ∀ b ∈ octalDigits n value, isOctalDigit b = true := by
  induction n generalizing value with
  | zero => exact fun b hb => (List.not_mem_nil hb).elim
  | succ n ih =>
    intro b hb
    rcases List.mem_append.mp hb with hb | hb
    · exact ih b hb
    · rw [List.mem_singleton.mp hb]
      exact (octalDigit_spec value).1

/-- The loop of `parse_octal` on one digit. -/
def octalStep (result : ℕ) (b : Byte) : ℕ := (result <<< 3 ||| (b - '0').toNat) % 2 ^ 64

theorem octalStep_octalDigit (result value : ℕ) :
    octalStep result (octalDigit value) = (result * 8 + value % 8) % 2 ^ 64 := by
  have hdigit : value % 8 < 2 ^ 3 := Nat.mod_lt _ (by decide)
  unfold octalStep
  rw [(octalDigit_spec value).2, ← Nat.shiftLeft_add_eq_or_of_lt hdigit, Nat.shiftLeft_eq]

theorem foldl_octalDigits (n value : ℕ) {result : ℕ} (h : result < 2 ^ 64) :
    (octalDigits n value).foldl octalStep result = (result * 8 ^ n + value % 8 ^ n) % 2 ^ 64 := by
  induction n generalizing value with
  | zero =>
    rw [octalDigits, List.foldl_nil, pow_zero, Nat.mod_one, mul_one, add_zero, Nat.mod_eq_of_lt h]
  | succ n ih =>
    have hmod : value % 8 ^ (n + 1) = value / 8 % 8 ^ n * 8 + value % 8 := by
      rw [pow_succ', Nat.mod_mul, Nat.mul_comm, Nat.add_comm]
    rw [octalDigits, List.foldl_append, ih, List.foldl_cons, List.foldl_nil, octalStep_octalDigit,
      Nat.shiftRight_eq_div_pow, hmod]
    rw [Nat.add_mod, Nat.mod_mul_mod, ← Nat.add_mod]
    congr 1
    ring

theorem replicate_seven (n : ℕ) : List.replicate n (('7' : Char) : Byte) = octalDigits n (8 ^ n - 1) := by
  induction n with
  | zero => rfl
  | succ n ih =>
    have hpos : 0 < 8 ^ n := by positivity
    have hshift : (8 ^ (n + 1) - 1) >>> 3 = 8 ^ n - 1 := by
      rw [Nat.shiftRight_eq_div_pow, pow_succ]
      omega
    have hdigit : octalDigit (8 ^ (n + 1) - 1) = (('7' : Char) : Byte) := by
      have hmod : (8 ^ (n + 1) - 1) % 8 = 7 := by
        rw [pow_succ]
        omega
      unfold octalDigit
      rw [Nat.and_two_pow_sub_one_eq_mod _ 3, hmod]
      rfl
    rw [octalDigits, hshift, ← ih, hdigit, List.replicate_succ']

/-- The digits that `format_octal` writes. -/
theorem formatOctal_eq (value n : ℕ) :
    ∃ ds, formatOctal value (n + 2) = ds ++ [0] ∧ ds.length = n + 1 ∧ (∀ b ∈ ds, isOctalDigit b = true) ∧
      ds.foldl octalStep 0 = min value (8 ^ (n + 1) - 1) % 2 ^ 64 := by
  have hpow : (8 : ℕ) ^ (n + 1) = 8 * 8 ^ n := pow_succ' 8 n
  have hpos : 0 < 8 ^ n := by positivity
  have hrest : value >>> (3 * n) = value / 8 ^ n := by
    rw [Nat.shiftRight_eq_div_pow, pow_mul]
    rfl
  have hsplit : value / 8 ^ n * 8 ^ n + value % 8 ^ n = value := Nat.div_add_mod' value (8 ^ n)
  have hlt : value % 8 ^ n < 8 ^ n := Nat.mod_lt _ hpos
  unfold formatOctal
  simp only [Nat.add_sub_cancel, hrest]
  split_ifs with hbig
  · have hle : 8 ^ (n + 1) ≤ value := by
      have h8 : 8 * 8 ^ n ≤ value / 8 ^ n * 8 ^ n := Nat.mul_le_mul_right _ hbig
      omega
    refine ⟨_, rfl, List.length_replicate, ?_, ?_⟩
    · intro b hb
      rw [List.eq_of_mem_replicate hb]
      decide
    · have hn : n + 2 - 1 = n + 1 := rfl
      rw [hn, replicate_seven, foldl_octalDigits _ _ (by positivity), zero_mul, zero_add,
        Nat.mod_eq_of_lt (Nat.sub_one_lt (by positivity)), min_eq_right (by omega)]
  · have hsmall : value / 8 ^ n ≤ 7 := Nat.not_lt.mp hbig
    have hle : value / 8 ^ n * 8 ^ n ≤ 7 * 8 ^ n := Nat.mul_le_mul_right _ hsmall
    refine ⟨_, rfl, ?_, ?_, ?_⟩
    · rw [List.length_cons, length_octalDigits]
    · intro b hb
      rcases List.mem_cons.mp hb with rfl | hb
      · exact (octalDigit_spec _).1
      · exact isOctalDigit_of_mem b hb
    · have hfirst : octalStep 0 (octalDigit (value / 8 ^ n)) = value / 8 ^ n := by
        rw [octalStep_octalDigit, zero_mul, zero_add, Nat.mod_eq_of_lt (a := value / 8 ^ n) (by omega),
          Nat.mod_eq_of_lt (by omega)]
      rw [List.foldl_cons, hfirst, foldl_octalDigits _ _ (by omega), hsplit, min_eq_left (by omega)]

theorem parseOctal_append {ds l : List Byte} {b : Byte} {size : ℕ} (hds : ∀ d ∈ ds, isOctalDigit d = true)
    (hb : isOctalDigit b = false) (hlen : ds.length < size) :
    parseOctal (ds ++ b :: l) size = ds.foldl octalStep 0 := by
  have htake : (ds ++ b :: l).take size = ds ++ b :: l.take (size - ds.length - 1) := by
    obtain ⟨m, hm⟩ : ∃ m, size - ds.length = m + 1 := ⟨size - ds.length - 1, by omega⟩
    rw [List.take_append, List.take_of_length_le hlen.le, hm, List.take_succ_cons, Nat.add_sub_cancel]
  unfold parseOctal
  rw [htake, List.takeWhile_append_of_pos hds, List.takeWhile_cons, hb, if_neg Bool.false_ne_true, List.append_nil]
  rfl

/-- An octal field is read back, unless its value is too large for it. -/
theorem parseOctal_formatOctal (value : ℕ) {size : ℕ} (hsize : 2 ≤ size) :
    parseOctal (formatOctal value size) size = min value (8 ^ (size - 1) - 1) % 2 ^ 64 := by
  obtain ⟨n, rfl⟩ := Nat.exists_eq_add_of_le' hsize
  obtain ⟨ds, hds, hlen, hall, hvalue⟩ := formatOctal_eq value n
  rw [hds, parseOctal_append hall (by decide) (by omega), hvalue]
  rfl

theorem parseOctal_checksumField {checksum : ℕ} (h : checksum < 8 ^ 7) :
    parseOctal (checksumField checksum) 8 = checksum := by
  obtain ⟨ds, hds, hlen, hall, hvalue⟩ := formatOctal_eq checksum 6
  have hfield : checksumField checksum = ds ++ [(' ' : Char).toUInt8] := by
    unfold checksumField
    rw [hds, List.take_left' hlen]
  rw [hfield, parseOctal_append hall (by decide) (by omega), hvalue, min_eq_left (Nat.le_sub_one_of_lt h),
    Nat.mod_eq_of_lt (h.trans (by decide))]

/-! ## The header that is written -/

theorem calculateChecksum_append {l chksum m : List Byte} (hl : l.length = 148) (hchksum : chksum.length = 8) :
    calculateChecksum (l ++ chksum ++ m) =
      (l.map UInt8.toNat).sum + 8 * (' ' : Char).toNat + (m.map UInt8.toNat).sum := by
  have htake : (l ++ chksum ++ m).take 148 = l := by
    rw [List.append_assoc, ← hl, List.take_left]
  have hdrop : (l ++ chksum ++ m).drop 156 = m := by
    have hlen : (l ++ chksum).length = 156 := by rw [List.length_append, hl, hchksum]
    rw [← hlen, List.drop_left]
  unfold calculateChecksum
  rw [htake, hdrop]

theorem sum_toNat_le (l : List Byte) : (l.map UInt8.toNat).sum ≤ 255 * l.length := by
  induction l with
  | nil => exact le_rfl
  | cons b l ih =>
    have hb := b.toNat_lt
    rw [List.map_cons, List.sum_cons, List.length_cons]
    omega

theorem field_append {header : TarHeader} {l f m : List Byte} (h : header.bytes = l ++ f ++ m) :
    header.field l.length f.length = f := by
  unfold TarHeader.field
  rw [h, List.append_assoc, List.drop_left, List.take_left]

theorem initHeader_eq_some {filename : CString} {filesize now : ℕ} {sha256Hex : List Byte} {header : TarHeader}
    (h : initHeader filename filesize sha256Hex now = some header) :
    hasSeparator filename.bytes = false ∧ ∃ checksum, checksum < 8 ^ 7 ∧
      calculateChecksum header.bytes = checksum ∧
      header.bytes = fieldsBefore filename filesize now ++ checksumField checksum ++ fieldsAfter sha256Hex := by
  unfold initHeader at h
  split_ifs at h with hsep
  have hbytes := congrArg TarHeader.bytes (Option.some.inj h)
  dsimp only at hbytes
  rw [calculateChecksum_append (length_fieldsBefore _ _ _) List.length_replicate] at hbytes
  refine ⟨Bool.eq_false_of_not_eq_true hsep, _, ?_, ?_, hbytes.symm⟩
  · have hbefore := sum_toNat_le (fieldsBefore filename filesize now)
    have hafter := sum_toNat_le (fieldsAfter sha256Hex)
    rw [length_fieldsBefore] at hbefore
    rw [length_fieldsAfter] at hafter
    have hspaces : 8 * (' ' : Char).toNat = 256 := rfl
    omega
  · rw [← hbytes, calculateChecksum_append (length_fieldsBefore _ _ _) (length_checksumField _)]

section

variable {filename : CString} {filesize now : ℕ} {sha256Hex : List Byte} {header : TarHeader}
  (h : initHeader filename filesize sha256Hex now = some header)

include h

theorem checksum_initHeader : parseOctal header.chksum 8 = calculateChecksum header.bytes := by
  obtain ⟨-, checksum, hlt, hsum, hbytes⟩ := initHeader_eq_some h
  have hfield := field_append hbytes
  rw [length_fieldsBefore, length_checksumField] at hfield
  unfold TarHeader.chksum
  rw [hfield, hsum, parseOctal_checksumField hlt]

theorem size_initHeader : parseOctal header.size 12 = min filesize (8 ^ 11 - 1) := by
  obtain ⟨-, checksum, -, -, hbytes⟩ := initHeader_eq_some h
  have hname : (filename.bytes.take 99).length ≤ 100 := (List.length_take_le 99 _).trans (by decide)
  have hlen : (zeroFilled (filename.bytes.take 99) 100 ++
      (formatOctal 0o644 8 ++ formatOctal 0 8 ++ formatOctal 0 8)).length = 124 := by
    simp only [List.length_append, length_zeroFilled hname, length_formatOctal _ (show 2 ≤ 8 by decide)]
  unfold fieldsBefore at hbytes
  rw [List.append_assoc (_ ++ _), List.append_assoc, List.append_assoc, ← List.append_assoc _ (formatOctal _ _)]
    at hbytes
  have hfield := field_append hbytes
  rw [hlen, length_formatOctal _ (by decide)] at hfield
  unfold TarHeader.size
  rw [hfield, parseOctal_formatOctal _ (by decide)]
  exact Nat.mod_eq_of_lt (lt_of_le_of_lt (min_le_right _ _) (by decide))

theorem linkname_initHeader (hlen : sha256Hex.length = 64) : header.linkname.take 64 = sha256Hex := by
  obtain ⟨-, checksum, -, -, hbytes⟩ := initHeader_eq_some h
  have htake : sha256Hex.take 99 = sha256Hex := List.take_of_length_le (by omega)
  have hbefore : (fieldsBefore filename filesize now ++ checksumField checksum ++ [(('0' : Char) : Byte)]).length = 157 := by
    simp only [List.length_append, length_fieldsBefore, length_checksumField, List.length_singleton]
  have hfilled : (zeroFilled sha256Hex 100).length = 100 := length_zeroFilled (by omega)
  have hsplit : header.bytes =
      (fieldsBefore filename filesize now ++ checksumField checksum ++ [(('0' : Char) : Byte)]) ++ zeroFilled sha256Hex 100 ++
        (("ustar".toList.map Char.toUInt8 ++ [0] ++ "00".toList.map Char.toUInt8) ++ List.replicate 247 0) := by
    rw [hbytes, fieldsAfter, htake]
    simp only [List.append_assoc, List.nil_append, List.cons_append]
  have hfield := field_append hsplit
  rw [hbefore, hfilled] at hfield
  unfold TarHeader.linkname
  rw [hfield, zeroFilled, ← hlen, List.take_left]

theorem magic_initHeader : header.magic.take 5 = "ustar".toList.map Char.toUInt8 := by
  obtain ⟨-, checksum, -, -, hbytes⟩ := initHeader_eq_some h
  have hhex : (sha256Hex.take 99).length ≤ 100 := (List.length_take_le 99 _).trans (by decide)
  have hlen : (fieldsBefore filename filesize now ++ checksumField checksum ++
      (('0' : Char) : Byte) :: zeroFilled (sha256Hex.take 99) 100).length = 257 := by
    simp only [List.length_append, length_fieldsBefore, length_checksumField, List.length_cons, length_zeroFilled hhex]
  have hsplit : header.bytes =
      (fieldsBefore filename filesize now ++ checksumField checksum ++
        (('0' : Char) : Byte) :: zeroFilled (sha256Hex.take 99) 100) ++ ("ustar".toList.map Char.toUInt8 ++ [0]) ++
          ("00".toList.map Char.toUInt8 ++ List.replicate 247 0) := by
    rw [hbytes, fieldsAfter]
    simp only [List.append_assoc, List.cons_append]
  have hfield := field_append hsplit
  rw [hlen] at hfield
  have hmagic : header.magic = "ustar".toList.map Char.toUInt8 ++ [0] := hfield
  rw [hmagic]
  rfl

theorem string_initHeader : header.string.bytes = filename.bytes.take 99 := by
  obtain ⟨-, checksum, -, -, hbytes⟩ := initHeader_eq_some h
  have hpos : 100 - (filename.bytes.take 99).length = 100 - (filename.bytes.take 99).length - 1 + 1 := by
    have hle := List.length_take_le 99 filename.bytes
    omega
  have hname : zeroFilled (filename.bytes.take 99) 100 = filename.bytes.take 99 ++
      0 :: List.replicate (100 - (filename.bytes.take 99).length - 1) 0 := by
    rw [zeroFilled, hpos, List.replicate_succ]
    rfl
  have hsplit : ∃ rest, header.bytes = filename.bytes.take 99 ++ 0 :: rest := by
    rw [hbytes, fieldsBefore, hname]
    simp only [List.append_assoc, List.cons_append]
    exact ⟨_, rfl⟩
  obtain ⟨rest, hrest⟩ := hsplit
  have hnonzero : ∀ b ∈ filename.bytes.take 99, decide (b ≠ 0) = true := fun b hb =>
    decide_eq_true (ne_of_mem_of_not_mem (List.mem_of_mem_take hb) filename.nulFree)
  unfold TarHeader.string CString.ofBytes
  dsimp only
  rw [hrest, List.takeWhile_append_of_pos hnonzero, List.takeWhile_cons, if_neg (by decide), List.append_nil]

end

/-- A field is read back as its value, or as the largest number it has room for, and the checksum of a header is the
one that is read back from it. -/
theorem octalFields_readBack (value : UInt64) {size : ℕ} (hsize : 2 ≤ size) :
    parseOctal (formatOctal value.toNat size) size = min value.toNat (8 ^ (size - 1) - 1) ∧
      ∀ (filename : CString) (filesize now : ℕ) (sha256Hex : List Byte) (header : TarHeader),
        initHeader filename filesize sha256Hex now = some header →
          parseOctal header.chksum 8 = calculateChecksum header.bytes := by
  refine ⟨?_, fun filename filesize now sha256Hex header h => checksum_initHeader h⟩
  rw [parseOctal_formatOctal value.toNat hsize]
  exact Nat.mod_eq_of_lt ((min_le_left _ _).trans_lt value.toNat_lt)

theorem octalFields_readBack_12 :
    parseOctal (formatOctal (UInt64.toNat 0o7777777777777) 12) 12 = 0o77777777777 ∧
      ∀ (filename : CString) (filesize now : ℕ) (sha256Hex : List Byte) (header : TarHeader),
        initHeader filename filesize sha256Hex now = some header →
          parseOctal header.chksum 8 = calculateChecksum header.bytes := by
  refine ⟨(octalFields_readBack 0o7777777777777 (by decide)).1.trans ?_, (octalFields_readBack 0 (le_refl 2)).2⟩
  decide

end ValidcTools.Smoltar
