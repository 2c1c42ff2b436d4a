import ValidcTools.Lib.Blocks
import ValidcTools.Smoltar.Sha256

/-! The digest of a file is that of its padded content, block by block, however the file was read, and two files have
one digest only where `sha256_transform` collides. -/
namespace ValidcTools.Smoltar

open Blocks

/-! ## The digest of a message -/

/-- The words of the message schedule -/
def schedule (block : List Byte) (t : ℕ) : Word :=
  if t < 16 then
    let byte := fun j => (block.getD (4 * t + j) 0).toUInt32
    byte 0 <<< 24 ||| byte 1 <<< 16 ||| byte 2 <<< 8 ||| byte 3
  else sig1 (schedule block (t - 2)) + schedule block (t - 7) + sig0 (schedule block (t - 15)) + schedule block (t - 16)

/-- The 64 rounds on a block, added to the state before them -/
def compress (s : Sha256State) (block : List Byte) : Sha256State :=
  let t := (List.range 64).foldl (fun t i => sha256Round t (k.getD i 0) (schedule block i)) s
  ⟨s.a + t.a, s.b + t.b, s.c + t.c, s.d + t.d, s.e + t.e, s.f + t.f, s.g + t.g, s.h + t.h⟩

/-- What is put behind a message of `n` bytes: a one bit, zeros up to eight bytes before the end of a block, and the
number of its bits -/
def padding (n : ℕ) : List Byte := 0x80 :: (List.replicate ((119 - n % 64) % 64) 0 ++ bigEndian 8 (8 * n))

/-- The blocks of a padded message -/
def messageBlocks (message : List Byte) : List (List Byte) := whole 64 (message ++ padding message.length)

def Sha256State.words (s : Sha256State) : List Word := [s.a, s.b, s.c, s.d, s.e, s.f, s.g, s.h]

def digest (message : List Byte) : List Byte :=
  ((messageBlocks message).foldl compress sha256Init.state).words.flatMap fun w => bigEndian 4 w.toNat

/-! ## One block -/

theorem inputWords_eq (data : List Byte) {n : ℕ} (hn : n ≤ 16) :
    inputWords data n = ((List.range n).map (schedule data)).reverse := by
  induction n with
  | zero => rfl
  | succ n ih =>
    have hword : schedule data n = let byte := fun j => (data.getD (4 * n + j) 0).toUInt32
        byte 0 <<< 24 ||| byte 1 <<< 16 ||| byte 2 <<< 8 ||| byte 3 := by
      rw [schedule, if_pos (by omega)]
    rw [List.range_succ, List.map_append, List.reverse_append, List.map_singleton, List.reverse_singleton,
      List.singleton_append, hword, ← ih (by omega)]
    rfl

/-- The words before the `j`-th, the latest first -/
theorem getD_reverse_schedule (data : List Byte) {i j : ℕ} (h : i < j) :
    ((List.range j).map (schedule data)).reverse.getD i 0 = schedule data (j - 1 - i) := by
  have hlength : ((List.range j).map (schedule data)).length = j := by rw [List.length_map, List.length_range]
  rw [List.getD_eq_getElem?_getD, List.getElem?_reverse (by rwa [hlength]), hlength, List.getElem?_map,
    List.getElem?_range (by omega)]
  rfl

theorem extendWords_eq (data : List Byte) (n : ℕ) {j : ℕ} (hj : 16 ≤ j) :
    extendWords n ((List.range j).map (schedule data)).reverse = ((List.range (j + n)).map (schedule data)).reverse := by
  induction n generalizing j with
  | zero => rfl
  | succ n ih =>
    have hword : schedule data j =
        sig1 (schedule data (j - 2)) + schedule data (j - 7) + sig0 (schedule data (j - 15)) + schedule data (j - 16) := by
      rw [schedule, if_neg (by omega)]
    have hnext : ((List.range (j + 1)).map (schedule data)).reverse =
        schedule data j :: ((List.range j).map (schedule data)).reverse := by
      rw [List.range_succ, List.map_append, List.reverse_append, List.map_singleton, List.reverse_singleton,
        List.singleton_append]
    unfold extendWords
    rw [getD_reverse_schedule data (by omega), getD_reverse_schedule data (by omega),
      getD_reverse_schedule data (by omega), getD_reverse_schedule data (by omega),
      show j - 1 - 1 = j - 2 by omega, show j - 1 - 6 = j - 7 by omega, show j - 1 - 14 = j - 15 by omega,
      show j - 1 - 15 = j - 16 by omega, ← hword, ← hnext, ih (by omega), Nat.add_right_comm, Nat.add_assoc]

theorem k_eq : k = (List.range 64).map fun i => k.getD i 0 := by decide

theorem sha256Transform_eq (s : Sha256State) (data : List Byte) : sha256Transform s data = compress s data := by
  have hwords : (extendWords 48 (inputWords data 16)).reverse = (List.range 64).map (schedule data) := by
    rw [inputWords_eq data le_rfl, extendWords_eq data 48 le_rfl, List.reverse_reverse]
  have hzip : k.zip ((List.range 64).map (schedule data)) =
      (List.range 64).map fun i => (k.getD i 0, schedule data i) := by
    rw [show k.zip ((List.range 64).map (schedule data)) =
      ((List.range 64).map fun i => k.getD i 0).zip ((List.range 64).map (schedule data)) from
        congrArg (List.zip · _) k_eq, List.zip_map']
  unfold sha256Transform compress
  dsimp only
  rw [hwords, hzip, List.foldl_map]

/-! ## The buffer -/

/-- `sha256_transform` on a full buffer, and its bits counted -/
def countBlock (s : Sha256State × UInt64) (block : List Byte) : Sha256State × UInt64 :=
  (sha256Transform s.1 block, s.2 + 512)

def Sha256Ctx.buffer (ctx : Sha256Ctx) : Buffer Byte (Sha256State × UInt64) := ⟨ctx.data, ctx.state, ctx.bitlen⟩

theorem buffer_sha256Byte (ctx : Sha256Ctx) (b : Byte) :
    (sha256Byte ctx b).buffer = ctx.buffer.push 64 countBlock b := by
  unfold sha256Byte Buffer.push
  by_cases hfull : (ctx.data ++ [b]).length = 64
  · have hfull' : (ctx.buffer.pending ++ [b]).length = 64 := hfull
    rw [if_pos hfull']
    simp only [hfull, if_true]
    rfl
  · have hfull' : ¬(ctx.buffer.pending ++ [b]).length = 64 := hfull
    rw [if_neg hfull']
    simp only [hfull, if_false]
    rfl

theorem buffer_sha256Update (ctx : Sha256Ctx) (data : List Byte) :
    (sha256Update ctx data).buffer = data.foldl (Buffer.push 64 countBlock) ctx.buffer := by
  induction data generalizing ctx with
  | nil => rfl
  | cons b data ih =>
    rw [List.foldl_cons, ← buffer_sha256Byte, ← ih]
    rfl

theorem foldl_countBlock (blocks : List (List Byte)) (s : Sha256State) (n : UInt64) :
    blocks.foldl countBlock (s, n) = (blocks.foldl compress s, n + .ofNat (512 * blocks.length)) := by
  induction blocks generalizing s n with
  | nil => simp
  | cons b blocks ih =>
    rw [List.foldl_cons, List.foldl_cons, countBlock, sha256Transform_eq, ih, List.length_cons, Nat.mul_add, Nat.mul_one,
      UInt64.ofNat_add, UInt64.add_assoc, UInt64.add_comm (.ofNat (512 * blocks.length))]
    rfl

/-- The context after a message -/
theorem sha256Update_init (message : List Byte) :
    sha256Update sha256Init message =
      ⟨rest 64 message, .ofNat (512 * (message.length / 64)), (whole 64 message).foldl compress sha256Init.state⟩ := by
  have hbuffer := buffer_sha256Update sha256Init message
  rw [foldl_push (by decide) countBlock message (show sha256Init.buffer.pending.length < 64 by decide)] at hbuffer
  have hpending : sha256Init.buffer.pending ++ message = message := rfl
  have hstate : sha256Init.buffer.state = (sha256Init.state, 0) := rfl
  have hlength : (whole 64 message).length = message.length / 64 := by rw [whole, List.length_map, List.length_range]
  rw [hpending, hstate, foldl_countBlock, hlength, UInt64.zero_add] at hbuffer
  injection hbuffer with hdata hpair
  injection hpair with hstate hbits
  generalize sha256Update sha256Init message = ctx at hdata hstate hbits
  obtain ⟨data, bits, state⟩ := ctx
  obtain rfl := hdata
  obtain rfl := hstate
  obtain rfl := hbits
  rfl

/-! ## The padding -/

theorem bigEndian_mod {n m : ℕ} (h : n ≤ m) (w : ℕ) : bigEndian n (w % 2 ^ (8 * m)) = bigEndian n w := by
  induction n with
  | zero => rfl
  | succ n ih =>
    unfold bigEndian
    congr 1
    · refine UInt8.toNat_inj.mp (Nat.eq_of_testBit_eq fun i => ?_)
      rw [UInt8.toNat_ofNat', UInt8.toNat_ofNat', Nat.testBit_mod_two_pow, Nat.testBit_mod_two_pow, Nat.testBit_shiftRight,
        Nat.testBit_shiftRight, Nat.testBit_mod_two_pow]
      by_cases hi : i < 8
      · simp [show 8 * n + i < 8 * m by omega]
      · simp [hi]
    · exact ih (by omega)

theorem mod_of_bigEndian {n w w' : ℕ} (h : bigEndian n w = bigEndian n w') : w % 2 ^ (8 * n) = w' % 2 ^ (8 * n) := by
  induction n with
  | zero => rw [Nat.mul_zero, pow_zero, Nat.mod_one, Nat.mod_one]
  | succ n ih =>
    obtain ⟨hhead, htail⟩ := List.cons.inj h
    have hbyte := congrArg UInt8.toNat hhead
    rw [UInt8.toNat_ofNat', UInt8.toNat_ofNat', Nat.shiftRight_eq_div_pow, Nat.shiftRight_eq_div_pow] at hbyte
    rw [Nat.mul_succ, pow_add, Nat.mod_mul, Nat.mod_mul, ih htail, hbyte]

theorem length_padding (n : ℕ) : (padding n).length = 9 + (119 - n % 64) % 64 := by
  rw [padding, List.length_cons, List.length_append, List.length_replicate, length_bigEndian]
  omega

theorem dvd_length_padded (message : List Byte) : 64 ∣ (message ++ padding message.length).length := by
  rw [List.length_append, length_padding]
  omega

/-- The padding of what is behind the whole blocks is that of the message. -/
theorem messageBlocks_eq (message : List Byte) :
    messageBlocks message = whole 64 message ++ whole 64 (rest 64 message ++ padding message.length) :=
  whole_append (by decide) _ _

/-- As many zeros as there is room for before the length -/
theorem lastBlocks_eq {data : List Byte} {n : ℕ} (hdata : data.length = n % 64) :
    whole 64 (data ++ padding n) =
      if data.length < 56 then [data ++ [0x80] ++ List.replicate (55 - data.length) 0 ++ bigEndian 8 (8 * n)]
      else [data ++ [0x80] ++ List.replicate (63 - data.length) 0, List.replicate 56 0 ++ bigEndian 8 (8 * n)] := by
  have hlt : data.length < 64 := by omega
  have hcons (z : List Byte) : data ++ 0x80 :: z = data ++ [0x80] ++ z := by
    rw [List.append_assoc, List.singleton_append]
  by_cases hroom : data.length < 56
  · have hzeros : (119 - n % 64) % 64 = 55 - data.length := by omega
    rw [if_pos hroom, padding, hzeros, hcons, ← List.append_assoc]
    have hlength : (data ++ [0x80] ++ List.replicate (55 - data.length) 0 ++ bigEndian 8 (8 * n)).length = 64 := by
      simp only [List.length_append, List.length_singleton, List.length_replicate, length_bigEndian]
      omega
    rw [whole_block (by decide) hlength]
  · have hzeros : (119 - n % 64) % 64 = (63 - data.length) + 56 := by omega
    rw [if_neg hroom, padding, hzeros, hcons, List.replicate_add, List.append_assoc (List.replicate _ _), ← List.append_assoc]
    have hlength : (data ++ [0x80] ++ List.replicate (63 - data.length) 0).length = 64 := by
      simp only [List.length_append, List.length_singleton, List.length_replicate]
      omega
    have hlast : (List.replicate 56 0 ++ bigEndian 8 (8 * n)).length = 64 := by
      rw [List.length_append, List.length_replicate, length_bigEndian]
    rw [whole_append_block (by decide) hlength, whole_block (by decide) hlast]

/-- The bits that are counted are those of the message, up to 64 bits of their number. -/
theorem bigEndian_bitlen (n : ℕ) :
    bigEndian 8 (UInt64.ofNat (512 * (n / 64)) + .ofNat (n % 64 * 8)).toNat = bigEndian 8 (8 * n) := by
  have hsum : 512 * (n / 64) + n % 64 * 8 = 8 * n := by omega
  rw [← UInt64.ofNat_add, hsum, UInt64.toNat_ofNat']
  exact bigEndian_mod le_rfl (8 * n)

theorem sha256_eq_digest (message : List Byte) : sha256 message = digest message := by
  have hrest : (rest 64 message).length = message.length % 64 := length_rest message
  unfold sha256 sha256Final digest
  rw [sha256Update_init]
  dsimp only
  rw [messageBlocks_eq, List.foldl_append, lastBlocks_eq hrest, hrest, bigEndian_bitlen, ← hrest, List.length_append,
    List.length_singleton]
  by_cases hroom : (rest 64 message).length < 56
  · rw [if_pos hroom, if_pos hroom, if_pos hroom, sha256Transform_eq,
      show 56 - ((rest 64 message).length + 1) = 55 - (rest 64 message).length by omega]
    rfl
  · rw [if_neg hroom, if_neg hroom, if_neg hroom, sha256Transform_eq, sha256Transform_eq,
      show 64 - ((rest 64 message).length + 1) = 63 - (rest 64 message).length by omega]
    rfl

theorem sha256Update_append (ctx : Sha256Ctx) (data data' : List Byte) :
    sha256Update ctx (data ++ data') = sha256Update (sha256Update ctx data) data' := List.foldl_append

theorem foldl_sha256Update (chunks : List (List Byte)) (ctx : Sha256Ctx) :
    chunks.foldl sha256Update ctx = sha256Update ctx chunks.flatten := by
  induction chunks generalizing ctx with
  | nil => rfl
  | cons c chunks ih => rw [List.foldl_cons, ih, List.flatten_cons, sha256Update_append]

/-- `compute_file_sha256` of a file that `fread` delivers in these parts -/
def computeFileSha256 (reads : List (List Byte)) : List Byte :=
  sha256ToHex (sha256Final (reads.foldl sha256Update sha256Init))

theorem computeFileSha256_eq (reads : List (List Byte)) : computeFileSha256 reads = sha256ToHex (sha256 reads.flatten) := by
  unfold computeFileSha256
  rw [foldl_sha256Update]
  rfl

/-- The digest of a file is that of its padded content, wherever `fread` has cut it. -/
theorem computeFileSha256_digest (reads : List (List Byte)) :
    computeFileSha256 reads = sha256ToHex (digest reads.flatten) := by
  rw [computeFileSha256_eq, sha256_eq_digest]

/-! ## Collisions -/

theorem words_injective : Function.Injective Sha256State.words := by
  rintro ⟨a, b, c, d, e, f, g, h⟩ ⟨a', b', c', d', e', f', g', h'⟩ hwords
  simpa [Sha256State.words] using hwords

theorem flatMap_bigEndian_injective {ws ws' : List Word} (hlength : ws.length = ws'.length)
    (h : ws.flatMap (fun w => bigEndian 4 w.toNat) = ws'.flatMap fun w => bigEndian 4 w.toNat) : ws = ws' := by
  induction ws generalizing ws' with
  | nil => exact (List.eq_nil_of_length_eq_zero hlength.symm).symm
  | cons w ws ih =>
    cases ws' with
    | nil => cases hlength
    | cons w' ws' =>
      rw [List.flatMap_cons, List.flatMap_cons] at h
      obtain ⟨hhead, htail⟩ := List.append_inj h (by rw [length_bigEndian, length_bigEndian])
      have hw := mod_of_bigEndian hhead
      rw [Nat.mod_eq_of_lt w.toNat_lt, Nat.mod_eq_of_lt w'.toNat_lt] at hw
      rw [UInt32.toNat_inj.mp hw, ih (Nat.succ.inj hlength) htail]

theorem state_of_digest {m m' : List Byte} (h : digest m = digest m') :
    (messageBlocks m).foldl compress sha256Init.state = (messageBlocks m').foldl compress sha256Init.state := by
  unfold digest at h
  exact words_injective (flatMap_bigEndian_injective rfl h)

/-- The last block of a message ends with its length. -/
theorem exists_lastBlock (message : List Byte) :
    ∃ blocks block, messageBlocks message = blocks ++ [block] ∧ block.drop 56 = bigEndian 8 (8 * message.length) := by
  have hrest : (rest 64 message).length = message.length % 64 := length_rest message
  rw [messageBlocks_eq, lastBlocks_eq hrest]
  split_ifs with hroom
  · refine ⟨_, _, rfl, List.drop_left' ?_⟩
    simp only [List.length_append, List.length_singleton, List.length_replicate]
    omega
  · refine ⟨whole 64 message ++ [_], _, (List.append_assoc _ [_] [_]).symm, List.drop_left' ?_⟩
    rw [List.length_replicate]

theorem length_messageBlocks (message : List Byte) : (messageBlocks message).length = (message.length + 72) / 64 := by
  rw [messageBlocks, whole, List.length_map, List.length_range, List.length_append, length_padding]
  omega

theorem length_eq_of_bits {m m' : List Byte} (hm : m.length < 2 ^ 61) (hm' : m'.length < 2 ^ 61)
    (h : bigEndian 8 (8 * m.length) = bigEndian 8 (8 * m'.length)) : m.length = m'.length := by
  have hbits := mod_of_bigEndian h
  rw [Nat.mod_eq_of_lt (by omega), Nat.mod_eq_of_lt (by omega)] at hbits
  omega

theorem messageBlocks_injective {m m' : List Byte} (hlength : m.length = m'.length)
    (h : messageBlocks m = messageBlocks m') : m = m' := by
  have hflat (message : List Byte) : (messageBlocks message).flatten = message ++ padding message.length := by
    have hrest : rest 64 (message ++ padding message.length) = [] :=
      List.eq_nil_of_length_eq_zero ((length_rest _).trans (Nat.mod_eq_zero_of_dvd (dvd_length_padded message)))
    have hall := flatten_whole_append_rest (show 0 < 64 by decide) (message ++ padding message.length)
    rwa [hrest, List.append_nil] at hall
  exact (List.append_inj ((hflat m).symm.trans ((congrArg List.flatten h).trans (hflat m'))) hlength).1

end ValidcTools.Smoltar
