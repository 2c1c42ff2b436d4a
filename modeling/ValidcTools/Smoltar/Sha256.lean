import ValidcTools.CString

/-! SHA-256 as `smoltar` computes it, from the bytes of a file to the hexadecimal string. -/
namespace ValidcTools.Smoltar

abbrev Word := UInt32

def rotRight (a b : Word) : Word := a >>> b ||| a <<< (32 - b)

def ch (x y z : Word) : Word := (x &&& y) ^^^ (~~~x &&& z)

def maj (x y z : Word) : Word := (x &&& y) ^^^ (x &&& z) ^^^ (y &&& z)

def ep0 (x : Word) : Word := rotRight x 2 ^^^ rotRight x 13 ^^^ rotRight x 22

def ep1 (x : Word) : Word := rotRight x 6 ^^^ rotRight x 11 ^^^ rotRight x 25

def sig0 (x : Word) : Word := rotRight x 7 ^^^ rotRight x 18 ^^^ x >>> 3

def sig1 (x : Word) : Word := rotRight x 17 ^^^ rotRight x 19 ^^^ x >>> 10

def k : List Word := [
  0x428a2f98, 0x71374491, 0xb5c0fbcf, 0xe9b5dba5, 0x3956c25b, 0x59f111f1, 0x923f82a4, 0xab1c5ed5,
  0xd807aa98, 0x12835b01, 0x243185be, 0x550c7dc3, 0x72be5d74, 0x80deb1fe, 0x9bdc06a7, 0xc19bf174,
  0xe49b69c1, 0xefbe4786, 0x0fc19dc6, 0x240ca1cc, 0x2de92c6f, 0x4a7484aa, 0x5cb0a9dc, 0x76f988da,
  0x983e5152, 0xa831c66d, 0xb00327c8, 0xbf597fc7, 0xc6e00bf3, 0xd5a79147, 0x06ca6351, 0x14292967,
  0x27b70a85, 0x2e1b2138, 0x4d2c6dfc, 0x53380d13, 0x650a7354, 0x766a0abb, 0x81c2c92e, 0x92722c85,
  0xa2bfe8a1, 0xa81a664b, 0xc24b8b70, 0xc76c51a3, 0xd192e819, 0xd6990624, 0xf40e3585, 0x106aa070,
  0x19a4c116, 0x1e376c08, 0x2748774c, 0x34b0bcb5, 0x391c0cb3, 0x4ed8aa4a, 0x5b9cca4f, 0x682e6ff3,
  0x748f82ee, 0x78a5636f, 0x84c87814, 0x8cc70208, 0x90befffa, 0xa4506ceb, 0xbef9a3f7, 0xc67178f2]

/-- `ctx->state` -/
structure Sha256State where
  a : Word
  b : Word
  c : Word
  d : Word
  e : Word
  f : Word
  g : Word
  h : Word

/-- `SHA256_CTX`; `datalen` is the length of `data`. -/
structure Sha256Ctx where
  data : List Byte
  bitlen : UInt64
  state : Sha256State

/-- The first words of `m`, the latest first. -/
def inputWords (data : List Byte) : ℕ → List Word
  | 0 => []
  | i + 1 =>
    let byte := fun j => (data.getD (4 * i + j) 0).toUInt32
    (byte 0 <<< 24 ||| byte 1 <<< 16 ||| byte 2 <<< 8 ||| byte 3) :: inputWords data i

/-- `n` further words of `m`, which holds the words before them, the latest first. -/
def extendWords : ℕ → List Word → List Word
  | 0, m => m
  | n + 1, m =>
    extendWords n ((sig1 (m.getD 1 0) + m.getD 6 0 + sig0 (m.getD 14 0) + m.getD 15 0) :: m)

def sha256Round (s : Sha256State) (ki mi : Word) : Sha256State :=
  let t1 := s.h + ep1 s.e + ch s.e s.f s.g + ki + mi
  let t2 := ep0 s.a + maj s.a s.b s.c
  ⟨t1 + t2, s.a, s.b, s.c, s.d + t1, s.e, s.f, s.g⟩

def sha256Transform (s : Sha256State) (data : List Byte) : Sha256State :=
  let m := (extendWords 48 (inputWords data 16)).reverse
  let t := (k.zip m).foldl (fun t km => sha256Round t km.1 km.2) s
  ⟨s.a + t.a, s.b + t.b, s.c + t.c, s.d + t.d, s.e + t.e, s.f + t.f, s.g + t.g, s.h + t.h⟩

def sha256Init : Sha256Ctx where
  data := []
  bitlen := 0
  state := ⟨0x6a09e667, 0xbb67ae85, 0x3c6ef372, 0xa54ff53a, 0x510e527f, 0x9b05688c, 0x1f83d9ab, 0x5be0cd19⟩

/-- One byte of `sha256_update`. -/
def sha256Byte (ctx : Sha256Ctx) (b : Byte) : Sha256Ctx :=
  let data := ctx.data ++ [b]
  if data.length = 64 then ⟨[], ctx.bitlen + 512, sha256Transform ctx.state data⟩
  else { ctx with data }

def sha256Update (ctx : Sha256Ctx) (data : List Byte) : Sha256Ctx := data.foldl sha256Byte ctx

/-- The `n` lowest bytes of a number, the highest first. -/
def bigEndian : ℕ → ℕ → List Byte
  | 0, _ => []
  | n + 1, w => .ofNat (w >>> (8 * n)) :: bigEndian n w

def sha256Final (ctx : Sha256Ctx) : List Byte :=
  let padded := ctx.data ++ [0x80]
  let state :=
    if ctx.data.length < 56 then ctx.state
    else sha256Transform ctx.state (padded ++ List.replicate (64 - padded.length) 0)
  let data :=
    if ctx.data.length < 56 then padded ++ List.replicate (56 - padded.length) 0 else List.replicate 56 0
  let bitlen := ctx.bitlen + .ofNat (ctx.data.length * 8)
  let s := sha256Transform state (data ++ bigEndian 8 bitlen.toNat)
  [s.a, s.b, s.c, s.d, s.e, s.f, s.g, s.h].flatMap fun w => bigEndian 4 w.toNat

/-- `compute_file_sha256`, up to the digest. -/
def sha256 (content : List Byte) : List Byte := sha256Final (sha256Update sha256Init content)

/-- `hexchars` -/
def hexDigit (n : ℕ) : Byte := "0123456789abcdef".toList.getD n '0'

def sha256ToHex (digest : List Byte) : List Byte :=
  digest.flatMap fun (b : Byte) => [hexDigit (b >>> 4).toNat, hexDigit (b &&& 0x0f).toNat]

/-! ## The string -/

theorem length_bigEndian (n w : ℕ) : (bigEndian n w).length = n := by
  induction n with
  | zero => rfl
  | succ n ih => exact congrArg Nat.succ ih

theorem length_sha256 (content : List Byte) : (sha256 content).length = 32 := by
  simp [sha256, sha256Final, length_bigEndian]

theorem hexDigit_ne_zero {n : ℕ} (hn : n < 16) : hexDigit n ≠ 0 := by
  revert n
  decide

theorem hexDigit_injOn {m n : ℕ} (hm : m < 16) (hn : n < 16) (h : hexDigit m = hexDigit n) : m = n := by
  have hall : ∀ m < 16, ∀ n < 16, hexDigit m = hexDigit n → m = n := by decide
  exact hall m hm n hn h

theorem nibbles_lt : ∀ b : Byte, (b >>> 4).toNat < 16 ∧ (b &&& 0x0f).toNat < 16 :=
  forall_byte (by decide)

theorem nibbles_toNat : ∀ b : Byte, (b >>> 4).toNat * 16 + (b &&& 0x0f).toNat = b.toNat :=
  forall_byte (by decide)

theorem eq_of_nibbles {b c : Byte} (hhigh : (b >>> 4).toNat = (c >>> 4).toNat)
    (hlow : (b &&& 0x0f).toNat = (c &&& 0x0f).toNat) : b = c := by
  rw [← UInt8.toNat_inj, ← nibbles_toNat b, ← nibbles_toNat c, hhigh, hlow]

theorem zero_notMem_sha256ToHex (digest : List Byte) : (0 : Byte) ∉ sha256ToHex digest := by
  intro h
  obtain ⟨b, -, hb⟩ := List.mem_flatMap.mp h
  have hdigit := nibbles_lt b
  rcases List.mem_cons.mp hb with h0 | hb
  · exact hexDigit_ne_zero hdigit.1 h0.symm
  · exact hexDigit_ne_zero hdigit.2 (List.mem_singleton.mp hb).symm

theorem length_sha256ToHex (digest : List Byte) : (sha256ToHex digest).length = 2 * digest.length := by
  induction digest with
  | nil => rfl
  | cons b digest ih =>
    have hcons : sha256ToHex (b :: digest) =
        hexDigit (b >>> 4).toNat :: hexDigit (b &&& 0x0f).toNat :: sha256ToHex digest := rfl
    rw [hcons, List.length_cons, List.length_cons, List.length_cons, ih]
    omega

theorem sha256ToHex_injective : Function.Injective sha256ToHex := by
  intro d
  induction d with
  | nil =>
    intro d' h
    cases d' with
    | nil => rfl
    | cons b d' => cases h
  | cons b d ih =>
    intro d' h
    cases d' with
    | nil => cases h
    | cons c d' =>
      obtain ⟨hhigh, htail⟩ := List.cons.inj h
      obtain ⟨hlow, hrest⟩ := List.cons.inj htail
      have hb := nibbles_lt b
      have hc := nibbles_lt c
      rw [eq_of_nibbles (hexDigit_injOn hb.1 hc.1 hhigh) (hexDigit_injOn hb.2 hc.2 hlow), ih hrest]

end ValidcTools.Smoltar
