import ValidcTools.CString

/-! `chgenc` from bytes to code points and back. A code point is a number below 2^32. -/
namespace ValidcTools.Chgenc

/-- `Encoding`, without `ENC_UNKNOWN`, which `main` refuses. -/
inductive Encoding
  | utf8 | utf8Bom
  | utf16Le | utf16Be | utf16LeBom | utf16BeBom
  | utf32Le | utf32Be | utf32LeBom | utf32BeBom
deriving DecidableEq

/-! ## Decoding -/

/-- `(b & 0xC0) == 0x80` -/
def isContinuation (b : Byte) : Bool := b &&& 0xC0 = 0x80

/-- `none` is a U+FFFD that is pushed for bytes that are no character. -/
abbrev Pushed := Option ℕ

def twoBytes (c c1 : Byte) : Pushed :=
  if isContinuation c1 = false then none
  else
    let cp := (c &&& 0x1F).toNat <<< 6 ||| (c1 &&& 0x3F).toNat
    if cp < 0x80 then none else some cp

def threeBytes (c c1 c2 : Byte) : Pushed :=
  if isContinuation c1 = false ∨ isContinuation c2 = false then none
  else
    let cp := (c &&& 0x0F).toNat <<< 12 ||| (c1 &&& 0x3F).toNat <<< 6 ||| (c2 &&& 0x3F).toNat
    if cp < 0x800 ∨ (0xD800 ≤ cp ∧ cp ≤ 0xDFFF) then none else some cp

def fourBytes (c c1 c2 c3 : Byte) : Pushed :=
  if isContinuation c1 = false ∨ isContinuation c2 = false ∨ isContinuation c3 = false then none
  else
    let cp := (c &&& 0x07).toNat <<< 18 ||| (c1 &&& 0x3F).toNat <<< 12 ||| (c2 &&& 0x3F).toNat <<< 6 |||
      (c3 &&& 0x3F).toNat
    if cp < 0x10000 ∨ cp > 0x10FFFF then none else some cp

/-- The loop for UTF-8. -/
def decodeUtf8 : List Byte → List Pushed
  | [] => []
  | c :: s =>
    if c < 0x80 then some c.toNat :: decodeUtf8 s
    else if c &&& 0xE0 = 0xC0 then
      match s with
      | c1 :: s => twoBytes c c1 :: decodeUtf8 s
      | _ => [none]
    else if c &&& 0xF0 = 0xE0 then
      match s with
      | c1 :: c2 :: s => threeBytes c c1 c2 :: decodeUtf8 s
      | _ => [none]
    else if c &&& 0xF8 = 0xF0 then
      match s with
      | c1 :: c2 :: c3 :: s => fourBytes c c1 c2 c3 :: decodeUtf8 s
      | _ => [none]
    else none :: decodeUtf8 s

/-- The loops for UTF-16, which differ in how they read a unit. -/
def decodeUtf16 (unit : Byte → Byte → ℕ) : List Byte → List Pushed
  | b0 :: b1 :: s =>
    let u := unit b0 b1
    if 0xD800 ≤ u ∧ u ≤ 0xDBFF then
      match s with
      | b2 :: b3 :: s =>
        let u2 := unit b2 b3
        (if u2 < 0xDC00 ∨ u2 > 0xDFFF then none
          else some (0x10000 + ((u - 0xD800) <<< 10 ||| (u2 - 0xDC00)))) :: decodeUtf16 unit s
      | _ => [none]
    else if 0xDC00 ≤ u ∧ u ≤ 0xDFFF then none :: decodeUtf16 unit s
    else some u :: decodeUtf16 unit s
  | _ => []

def unitLe (b0 b1 : Byte) : ℕ := b0.toNat ||| b1.toNat <<< 8

def unitBe (b0 b1 : Byte) : ℕ := b0.toNat <<< 8 ||| b1.toNat

/-- The loops for UTF-32, which differ in how they read a code point. -/
def decodeUtf32 (word : Byte → Byte → Byte → Byte → ℕ) : List Byte → List Pushed
  | b0 :: b1 :: b2 :: b3 :: s =>
    let cp := word b0 b1 b2 b3
    (if cp > 0x10FFFF ∨ (0xD800 ≤ cp ∧ cp ≤ 0xDFFF) then none else some cp) :: decodeUtf32 word s
  | _ => []

def wordLe (b0 b1 b2 b3 : Byte) : ℕ :=
  b0.toNat ||| b1.toNat <<< 8 ||| b2.toNat <<< 16 ||| b3.toNat <<< 24

def wordBe (b0 b1 b2 b3 : Byte) : ℕ :=
  b0.toNat <<< 24 ||| b1.toNat <<< 16 ||| b2.toNat <<< 8 ||| b3.toNat

namespace Encoding

/-- The byte order mark of an encoding, which is skipped on input. -/
def mark : Encoding → List Byte
  | utf8 | utf8Bom => [0xEF, 0xBB, 0xBF]
  | utf16Le | utf16LeBom => [0xFF, 0xFE]
  | utf16Be | utf16BeBom => [0xFE, 0xFF]
  | utf32Le | utf32LeBom => [0xFF, 0xFE, 0x00, 0x00]
  | utf32Be | utf32BeBom => [0x00, 0x00, 0xFE, 0xFF]

def decodeLoop : Encoding → List Byte → List Pushed
  | utf8 | utf8Bom => decodeUtf8
  | utf16Le | utf16LeBom => decodeUtf16 unitLe
  | utf16Be | utf16BeBom => decodeUtf16 unitBe
  | utf32Le | utf32LeBom => decodeUtf32 wordLe
  | utf32Be | utf32BeBom => decodeUtf32 wordBe

def hasMark : Encoding → Bool
  | utf8Bom | utf16LeBom | utf16BeBom | utf32LeBom | utf32BeBom => true
  | _ => false

end Encoding

/-- A buffer that has been pushed to: it is allocated by the first push, and `NULL` before. -/
def buffer {α : Type} (out : List α) : Option (List α) := if out = [] then none else some out

/-- `decode` -/
def decode (b : List Byte) (enc : Encoding) : Option (List ℕ) :=
  let b := if enc.mark <+: b then b.drop enc.mark.length else b
  buffer ((enc.decodeLoop b).map fun cp => cp.getD 0xFFFD)

/-! ## Encoding -/

def replaceSurrogate (c : ℕ) : ℕ := if 0xD800 ≤ c ∧ c ≤ 0xDFFF then 0xFFFD else c

def encodeUtf8 (c : ℕ) : List Byte :=
  if c ≤ 0x7F then [.ofNat c]
  else if c ≤ 0x7FF then [.ofNat (0xC0 ||| c >>> 6), .ofNat (0x80 ||| c &&& 0x3F)]
  else if c ≤ 0xFFFF then
    let c := replaceSurrogate c
    [.ofNat (0xE0 ||| c >>> 12), .ofNat (0x80 ||| c >>> 6 &&& 0x3F), .ofNat (0x80 ||| c &&& 0x3F)]
  else if c ≤ 0x10FFFF then
    [.ofNat (0xF0 ||| c >>> 18), .ofNat (0x80 ||| c >>> 12 &&& 0x3F), .ofNat (0x80 ||| c >>> 6 &&& 0x3F),
      .ofNat (0x80 ||| c &&& 0x3F)]
  else [0xEF, 0xBB, 0xBF, 0xEF, 0xBF, 0xBD]

/-- The two branches for UTF-16, which differ in how they write a unit. -/
def encodeUtf16 (unit : ℕ → List Byte) (c : ℕ) : List Byte :=
  if c ≤ 0xFFFF then unit (replaceSurrogate c)
  else
    let c := c - 0x10000
    unit ((0xD800 + (c >>> 10) % 65536) % 65536) ++ unit ((0xDC00 + (c &&& 0x3FF)) % 65536)

def unitBytesLe (u : ℕ) : List Byte := [.ofNat (u &&& 0xFF), .ofNat (u >>> 8 &&& 0xFF)]

def unitBytesBe (u : ℕ) : List Byte := [.ofNat (u >>> 8 &&& 0xFF), .ofNat (u &&& 0xFF)]

def encodeUtf32Le (c : ℕ) : List Byte :=
  [.ofNat (c &&& 0xFF), .ofNat (c >>> 8 &&& 0xFF), .ofNat (c >>> 16 &&& 0xFF), .ofNat (c >>> 24 &&& 0xFF)]

def encodeUtf32Be (c : ℕ) : List Byte :=
  [.ofNat (c >>> 24 &&& 0xFF), .ofNat (c >>> 16 &&& 0xFF), .ofNat (c >>> 8 &&& 0xFF), .ofNat (c &&& 0xFF)]

def Encoding.encodeOne : Encoding → ℕ → List Byte
  | utf8 | utf8Bom => encodeUtf8
  | utf16Le | utf16LeBom => encodeUtf16 unitBytesLe
  | utf16Be | utf16BeBom => encodeUtf16 unitBytesBe
  | utf32Le | utf32LeBom => encodeUtf32Le
  | utf32Be | utf32BeBom => encodeUtf32Be

/-- `encode` -/
def encode (cps : List ℕ) (enc : Encoding) : Option (List Byte) :=
  buffer ((if enc.hasMark then enc.mark else []) ++ cps.flatMap enc.encodeOne)

/-- `main`, from the bytes of the input file to those of the output file. -/
def convert (inEnc outEnc : Encoding) (b : List Byte) : Option (List Byte) :=
  (decode b inEnc).bind fun cps => encode cps outEnc

end ValidcTools.Chgenc
