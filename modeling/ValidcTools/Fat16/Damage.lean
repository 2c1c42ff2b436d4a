import ValidcTools.Lib.ShiftRegister
import ValidcTools.Fat16.Durability

/-! A flash that is damaged in one place after a flush: the check sum sees it, and the next mount restores the flush
before. -/
namespace ValidcTools.Fat16

open Bytes Memory ShiftRegister

/-! ## The check sum, bit by bit -/

/-- The taps of `crc32` -/
def POLYNOMIAL : BitVec 32 := 0xEDB88320#32

/-- The bits of a byte, the lowest first -/
def bitsOf (b : Byte) : List Bool := (List.range 8).map b.toNat.testBit

theorem msb_POLYNOMIAL : POLYNOMIAL.msb = true := by decide

theorem crcStep_eq (c : UInt32) : (crcStep c).toBitVec = shift POLYNOMIAL c.toBitVec := by
  have hlow : c &&& 1 ≠ 0 ↔ c.toBitVec.getLsbD 0 = true := by
    rw [Ne, ← UInt32.toBitVec_inj, UInt32.toBitVec_and]
    have hone : c.toBitVec &&& (1 : UInt32).toBitVec = bit 32 (c.toBitVec.getLsbD 0) := by
      refine BitVec.eq_of_getLsbD_eq fun i hi => ?_
      rw [getLsbD_bit (by decide), BitVec.getLsbD_and, show (1 : UInt32).toBitVec = 1#32 from rfl, BitVec.getLsbD_one]
      cases i <;> simp
    rw [hone]
    cases c.toBitVec.getLsbD 0 <;> decide
  unfold crcStep
  by_cases h : c &&& 1 ≠ 0
  · rw [if_pos h, shift_of_odd (hlow.mp h), UInt32.toBitVec_xor, BitVec.xor_comm]
    rfl
  · rw [if_neg h, shift_of_even (Bool.eq_false_iff.mpr (mt hlow.mpr h))]
    rfl

theorem crcTable_eq (c : UInt32) : (crcTable c).toBitVec = (shift POLYNOMIAL)^[8] c.toBitVec := by
  unfold crcTable
  simp only [crcStep_eq]
  rfl

theorem length_bitsOf (b : Byte) : (bitsOf b).length = 8 := by
  rw [bitsOf, List.length_map, List.length_range]

theorem word_bitsOf (b : Byte) : word 32 (bitsOf b) = b.toUInt32.toBitVec := by
  refine BitVec.eq_of_getLsbD_eq fun i hi => ?_
  have hbyte : b.toUInt32.toBitVec.getLsbD i = b.toNat.testBit i := by
    rw [← BitVec.testBit_toNat]
    rfl
  rw [getLsbD_word (by rw [length_bitsOf]; decide), hbyte]
  by_cases h : i < 8
  · rw [bitsOf, List.getD_eq_getElem _ _ (by rwa [List.length_map, List.length_range])]
    simp
  · rw [List.getD_eq_default _ _ (by rw [length_bitsOf]; omega), Nat.testBit_lt_two_pow]
    exact b.toNat_lt.trans_le (Nat.pow_le_pow_right (by decide) (by omega))

/-- A step with the table is eight steps. -/
theorem crcByte_eq (crc : UInt32) (b : Byte) :
    (crcTable ((crc ^^^ b.toUInt32) &&& 0xFF) ^^^ (crc >>> 8)).toBitVec = feed POLYNOMIAL crc.toBitVec (bitsOf b) := by
  have hmask : ∀ i, ((0xFF : UInt32).toBitVec).getLsbD i = (decide (i < 8) && decide (i < 32)) := by
    intro i
    by_cases hi : i < 32
    · revert i
      decide
    · rw [BitVec.getLsbD_of_ge _ _ (by omega)]
      simp [hi]
  have hbyte : b.toUInt32.toBitVec >>> 8 = 0#32 := by
    rw [← word_bitsOf]
    refine BitVec.eq_of_getLsbD_eq fun i hi => ?_
    rw [BitVec.getLsbD_ushiftRight, getLsbD_word (by rw [length_bitsOf]; decide),
      List.getD_eq_default _ _ (by rw [length_bitsOf]; omega), BitVec.getLsbD_zero]
  rw [feed_eq_iterate (by rw [length_bitsOf]; decide), length_bitsOf, word_bitsOf, ← UInt32.toBitVec_xor,
    iterate_shift_table _ _ hmask, UInt32.toBitVec_xor, crcTable_eq, UInt32.toBitVec_and, UInt32.toBitVec_xor,
    BitVec.ushiftRight_xor_distrib, hbyte, BitVec.xor_zero]
  rfl

theorem crc32_eq (data : List Byte) :
    (crc32 data).toBitVec = feed POLYNOMIAL 0xFFFFFFFF#32 (data.flatMap bitsOf) ^^^ 0xFFFFFFFF#32 := by
  have hfold (crc : UInt32) :
      (data.foldl (fun (crc : UInt32) b => crcTable ((crc ^^^ b.toUInt32) &&& 0xFF) ^^^ (crc >>> 8)) crc).toBitVec =
        feed POLYNOMIAL crc.toBitVec (data.flatMap bitsOf) := by
    induction data generalizing crc with
    | nil => rfl
    | cons b data ih => rw [List.foldl_cons, ih, crcByte_eq, List.flatMap_cons, feed_append]
  unfold crc32
  rw [UInt32.toBitVec_xor, hfold]
  rfl

/-! ## Bits of a memory -/

/-- A bit of a memory, by its place in it -/
def bitAt (mem : ℕ → Byte) (p : ℕ) : Bool := (mem (p / 8)).toNat.testBit (p % 8)

theorem flatMap_bytesAt (mem : ℕ → Byte) (a n : ℕ) :
    (bytesAt mem a n).flatMap bitsOf = (List.range (8 * n)).map fun q => bitAt mem (8 * a + q) := by
  induction n with
  | zero => rfl
  | succ n ih =>
    have hbytes : bytesAt mem a (n + 1) = bytesAt mem a n ++ [mem (a + n)] := by
      rw [bytesAt, List.range_succ, List.map_append]
      rfl
    rw [hbytes, List.flatMap_append, ih, Nat.mul_succ, List.range_add, List.map_append, List.map_map, List.flatMap_singleton,
      bitsOf]
    refine congrArg _ (List.map_congr_left fun q hq => ?_)
    have hlt := List.mem_range.mp hq
    rw [Function.comp_apply, bitAt, show (8 * a + (8 * n + q)) / 8 = a + n by omega,
      show (8 * a + (8 * n + q)) % 8 = q by omega]

theorem eq_of_bitAt {mem mem' : ℕ → Byte} {k : ℕ} (h : ∀ q, q / 8 = k → bitAt mem' q = bitAt mem q) : mem' k = mem k := by
  refine UInt8.toNat_inj.mp (Nat.eq_of_testBit_eq fun i => ?_)
  by_cases hi : i < 8
  · have hbit := h (8 * k + i) (by omega)
    rwa [bitAt, bitAt, show (8 * k + i) / 8 = k by omega, show (8 * k + i) % 8 = i by omega] at hbit
  · have hsmall (b : Byte) : b.toNat.testBit i = false :=
      Nat.testBit_lt_two_pow (b.toNat_lt.trans_le (Nat.pow_le_pow_right (by decide) (by omega)))
    rw [hsmall, hsmall]

/-- A row of bits in front of a burst, in it and behind it -/
theorem range_burst (f : ℕ → Bool) {a n m p : ℕ} (hlow : a ≤ p) (hhigh : p + m ≤ a + n) :
    (List.range n).map (fun q => f (a + q)) = (List.range (p - a)).map (fun q => f (a + q)) ++
      ((List.range m).map (fun q => f (p + q)) ++ (List.range (a + n - (p + m))).map fun q => f (p + m + q)) := by
  obtain ⟨d, rfl⟩ := Nat.exists_eq_add_of_le hlow
  obtain ⟨e, he⟩ := Nat.exists_eq_add_of_le hhigh
  obtain rfl : n = d + (m + e) := by omega
  rw [he, Nat.add_sub_cancel_left, Nat.add_sub_cancel_left, List.range_add, List.range_add, List.map_append, List.map_append,
    List.map_append, List.map_map, List.map_map, List.map_map]
  simp only [Function.comp_def, Nat.add_assoc]

/-! ## Damage -/

/-- Two flashes differ, and only in 32 consecutive bits of the payload of an image. -/
def Damaged (i : ℕ) (flash flash' : ℕ → Byte) : Prop :=
  ∃ p, 8 * (i * FLASH_SIZE + HEADER_SIZE) ≤ p ∧ p + 32 ≤ 8 * ((i + 1) * FLASH_SIZE) ∧
    (∀ q, q < p ∨ p + 32 ≤ q → bitAt flash' q = bitAt flash q) ∧ ∃ q, bitAt flash' q ≠ bitAt flash q

section
variable {i j : ℕ} {flash flash' : ℕ → Byte}

/-- Bytes in which there is no bit of the burst -/
theorem Damaged.same_outside (h : Damaged i flash flash') {k : ℕ}
    (hk : k < i * FLASH_SIZE + HEADER_SIZE ∨ (i + 1) * FLASH_SIZE ≤ k) : flash' k = flash k := by
  obtain ⟨p, hlow, hhigh, hsame, -⟩ := h
  refine eq_of_bitAt fun q hq => hsame q ?_
  omega

theorem Damaged.sameImage (h : Damaged i flash flash') (hij : j ≠ i) : SameImage (imageAt flash' j) (imageAt flash j) := by
  intro k hk
  refine h.same_outside ?_
  rcases Nat.lt_or_gt_of_ne hij with hlt | hlt
  · have hbelow := Nat.mul_le_mul_right FLASH_SIZE (show j + 1 ≤ i from hlt)
    rw [Nat.succ_mul] at hbelow
    omega
  · have habove := Nat.mul_le_mul_right FLASH_SIZE (show i + 1 ≤ j from hlt)
    omega

theorem Damaged.load_header (h : Damaged i flash flash') {a n : ℕ} (ha : a + n ≤ HEADER_SIZE) :
    load (imageAt flash' i) a n = load (imageAt flash i) a n :=
  load_congr fun k hk => h.same_outside (.inl (by omega))

theorem payload_bits (flash : ℕ → Byte) (i : ℕ) : (bytesAt (imageAt flash i) HEADER_SIZE (FLASH_SIZE - HEADER_SIZE)).flatMap bitsOf =
    (List.range (8 * (FLASH_SIZE - HEADER_SIZE))).map fun q => bitAt flash (8 * (i * FLASH_SIZE + HEADER_SIZE) + q) := by
  have hbytes : bytesAt (imageAt flash i) HEADER_SIZE (FLASH_SIZE - HEADER_SIZE) =
      bytesAt flash (i * FLASH_SIZE + HEADER_SIZE) (FLASH_SIZE - HEADER_SIZE) := by
    refine List.map_congr_left fun k _ => ?_
    rw [imageAt, Nat.add_assoc]
  rw [hbytes, flatMap_bytesAt]

/-- The check sum of a damaged image is not the one that it had. -/
theorem Damaged.imageCrc_ne (h : Damaged i flash flash') : imageCrc (imageAt flash' i) ≠ imageCrc (imageAt flash i) := by
  obtain ⟨p, hlow, hhigh, hsame, q, hq⟩ := h
  intro hcrc
  have hend : 8 * (i * FLASH_SIZE + HEADER_SIZE) + 8 * (FLASH_SIZE - HEADER_SIZE) = 8 * ((i + 1) * FLASH_SIZE) := by
    have hnext : (i + 1) * FLASH_SIZE = i * FLASH_SIZE + FLASH_SIZE := Nat.succ_mul i FLASH_SIZE
    have hsize : HEADER_SIZE ≤ FLASH_SIZE := by decide
    omega
  have hfeed := congrArg UInt32.toBitVec (UInt32.toNat_inj.mp hcrc)
  rw [crc32_eq, crc32_eq, BitVec.xor_left_inj, payload_bits, payload_bits, range_burst (bitAt flash') hlow (hhigh.trans_eq hend.symm),
    range_burst (bitAt flash) hlow (hhigh.trans_eq hend.symm)] at hfeed
  have hfront := List.map_congr_left (l := List.range (p - 8 * (i * FLASH_SIZE + HEADER_SIZE))) fun q hq =>
    hsame (8 * (i * FLASH_SIZE + HEADER_SIZE) + q) (.inl (by have := List.mem_range.mp hq; omega))
  have hback := List.map_congr_left (l := List.range (8 * (i * FLASH_SIZE + HEADER_SIZE) + 8 * (FLASH_SIZE - HEADER_SIZE) - (p + 32)))
    fun q _ => hsame (p + 32 + q) (.inr (by omega))
  rw [hfront, hback] at hfeed
  have hburst := feed_burst msb_POLYNOMIAL (by simp) (by simp) hfeed
  have hinside : p ≤ q ∧ q < p + 32 := by
    by_contra hout
    exact hq (hsame q (by omega))
  have hbit := List.map_inj_left.mp hburst (q - p) (List.mem_range.mpr (by omega))
  rw [show p + (q - p) = q by omega] at hbit
  exact hq hbit

end

/-- One bit of the first byte of a payload -/
theorem damaged_flip (i : ℕ) (flash : ℕ → Byte) :
    Damaged i flash fun k => if k = i * FLASH_SIZE + HEADER_SIZE then flash k ^^^ 1 else flash k := by
  refine ⟨8 * (i * FLASH_SIZE + HEADER_SIZE), le_rfl, ?_, fun q hq => ?_, 8 * (i * FLASH_SIZE + HEADER_SIZE), ?_⟩
  · have hnext : (i + 1) * FLASH_SIZE = i * FLASH_SIZE + FLASH_SIZE := Nat.succ_mul i FLASH_SIZE
    have hsize : HEADER_SIZE + 4 ≤ FLASH_SIZE := by decide
    omega
  · rw [bitAt, if_neg (by omega), bitAt]
  · have hflip : ∀ b : Byte, (b ^^^ 1).toNat.testBit 0 ≠ b.toNat.testBit 0 := forall_byte (by decide)
    rw [bitAt, bitAt, Nat.mul_div_cancel_left _ (by decide), Nat.mul_mod_right, if_pos rfl]
    exact hflip _

/-! ## The next mount -/

section
variable {w v : World} {saved : FAT16VFS} {unused flash : ℕ → Byte} {written i : ℕ}

/-- With the newer image damaged, and the older one as it was mounted, the older one is selected. -/
theorem selected_damaged {image flash' : ℕ → Byte} (h : Mounted w saved) (hmagic : headerMagic image = MAGIC)
    (hsound : Sound image) (hsequence : w.vfs.sequence < headerSequence image)
    (hdamage : Damaged (other w.vfs.activeBuffer) (writeImage w.flash (other w.vfs.activeBuffer) image FLASH_SIZE) flash') :
    selected flash' = some w.vfs.activeBuffer ∧
      SameImage (imageAt flash' w.vfs.activeBuffer) (imageAt w.flash w.vfs.activeBuffer) := by
  obtain ⟨hlt, hne, htwice⟩ := other_of_lt h.lt
  have hwritten : selected (writeImage w.flash (other w.vfs.activeBuffer) image FLASH_SIZE) = some (other w.vfs.activeBuffer) :=
    selected_written h.lt hmagic hsound (by rwa [h.sequence])
  have himage : SameImage (imageAt (writeImage w.flash (other w.vfs.activeBuffer) image FLASH_SIZE) (other w.vfs.activeBuffer))
      image := by
    rw [imageAt_writeImage]
    exact torn_all le_rfl
  have hkept : SameImage (imageAt flash' w.vfs.activeBuffer) (imageAt w.flash w.vfs.activeBuffer) := fun k hk =>
    (hdamage.sameImage (Ne.symm hne) k hk).trans (imageAt_writeImage_of_ne w.flash image hne le_rfl k hk)
  have hbroken : ¬Sound (imageAt flash' (other w.vfs.activeBuffer)) := by
    have hcrc := hdamage.imageCrc_ne
    have hheader : headerCrc (imageAt flash' (other w.vfs.activeBuffer)) = headerCrc image :=
      (hdamage.load_header (by decide)).trans himage.headerCrc_eq
    rw [himage.payload.imageCrc_eq, hsound] at hcrc
    rw [Sound, hheader]
    exact hcrc
  refine ⟨selected_eq_some_iff.mpr ⟨hkept.sound_iff.mpr (selected_eq_some_iff.mp h.selected).1, .inr ⟨_, ?_, hbroken, htwice.symm⟩⟩,
    hkept⟩
  refine (preferred_eq_some_iff hlt).mpr ⟨?_, fun _ => ?_⟩
  · exact (hdamage.load_header (by decide)).trans (himage.headerMagic_eq.trans hmagic)
  · have hnew : headerSequence (imageAt flash' (other w.vfs.activeBuffer)) = headerSequence image :=
      (hdamage.load_header (by decide)).trans himage.headerSequence_eq
    rw [htwice, hnew, hkept.headerSequence_eq, h.sequence]
    split
    · exact hsequence
    · exact hsequence.le

/-- In a connected session, whatever has been changed since the last mount or flush: when the image of a completed flush
is damaged, the next mount restores the flush before. -/
theorem mount_after_damage (h : Session Connected flash w saved) (hflush : Connected (.flush unused written) w)
    (hdirty : w.vfs.dirty = true) (hv : Damaged (other w.vfs.activeBuffer) (vfs_flush unused written w).1.flash v.flash) :
    SameContent (vfs_mount v).1.vfs saved ∧ (vfs_mount v).1.vfs.sequence = w.vfs.sequence := by
  obtain ⟨hwritten, hfile, hsequence⟩ := hflush
  have hmounted := h.mounted hfile
  have hgrows := hsequence hdirty
  have hnew := headerSequence_newImage w.vfs unused hgrows
  rw [vfs_flush_of_dirty hdirty hfile hwritten] at hv
  obtain ⟨hselected, hkept⟩ := selected_damaged hmounted (headerMagic_newImage w.vfs unused) (sound_newImage w.vfs unused)
    (by rw [hnew]; exact Nat.lt_succ_self _) hv
  obtain ⟨hcontent, hnumber⟩ := vfs_mount_content hselected
  refine ⟨hcontent.trans ((hkept.payload.loadImage _ v.vfs).trans (hmounted.content v.vfs)), ?_⟩
  rw [hnumber, hkept.headerSequence_eq, hmounted.sequence]

/-- A bit that flips after the flush of a new directory -/
theorem mount_after_damage_a : ∃ w saved v, Session Connected formatted w saved ∧ w.vfs.dirty = true ∧
    Damaged (other w.vfs.activeBuffer) (vfs_flush (fun _ => 0) FLASH_SIZE w).1.flash v.flash ∧
    SameContent (vfs_mount v).1.vfs saved ∧ (vfs_mount v).1.vfs.sequence = w.vfs.sequence := by
  obtain ⟨w, saved, hsession, hfile, hdirty, hsequence, -, -, -⟩ := exists_mkdir_formatted
  have hflip := damaged_flip (other w.vfs.activeBuffer) (vfs_flush (fun _ => 0) FLASH_SIZE w).1.flash
  refine ⟨w, saved, { w with flash := _ }, hsession, hdirty, hflip, mount_after_damage hsession ⟨le_rfl, hfile, fun _ => ?_⟩ hdirty hflip⟩
  rw [hsequence]
  decide

end

end ValidcTools.Fat16
