import ValidcTools.Fat16.Flash

/-! What is in the images on flash, and which one is loaded. -/
namespace ValidcTools.Fat16

open Bytes Memory

/-! ## One image -/

/-- The check sum in the header is that of the image. -/
def Sound (image : ℕ → Byte) : Prop := imageCrc image = headerCrc image

instance (image : ℕ → Byte) : Decidable (Sound image) := inferInstanceAs (Decidable (_ = _))

/-- The bytes behind the header -/
def SamePayload (image image' : ℕ → Byte) : Prop := ∀ k, HEADER_SIZE ≤ k → k < FLASH_SIZE → image k = image' k

theorem SamePayload.imageCrc_eq {image image' : ℕ → Byte} (h : SamePayload image image') : imageCrc image = imageCrc image' := by
  refine congrArg (fun data => (crc32 data).toNat) (bytesAt_congr fun k hk => h _ (Nat.le_add_right ..) ?_)
  simp only [HEADER_SIZE, FLASH_SIZE] at hk ⊢
  omega

/-- Images with the same bytes -/
def SameImage (image image' : ℕ → Byte) : Prop := ∀ k < FLASH_SIZE, image k = image' k

section
variable {image image' : ℕ → Byte}

theorem SameImage.payload (h : SameImage image image') : SamePayload image image' := fun k _ => h k

theorem SameImage.load_eq {a n : ℕ} (ha : a + n ≤ FLASH_SIZE) (h : SameImage image image') : load image a n = load image' a n :=
  load_congr fun k hk => h _ (by omega)

theorem SameImage.headerMagic_eq (h : SameImage image image') : headerMagic image = headerMagic image' := h.load_eq (by decide)

theorem SameImage.headerCrc_eq (h : SameImage image image') : headerCrc image = headerCrc image' := h.load_eq (by decide)

theorem SameImage.headerSequence_eq (h : SameImage image image') : headerSequence image = headerSequence image' :=
  h.load_eq (by decide)

theorem SameImage.sound_iff (h : SameImage image image') : Sound image ↔ Sound image' := by
  rw [Sound, Sound, h.payload.imageCrc_eq, h.headerCrc_eq]

end

/-! ## The image that is written -/

section
variable (crc sequence : ℕ) (buffer : ℕ → Byte)

theorem withHeader_payload : SamePayload (withHeader crc sequence buffer) buffer := by
  intro k hk _
  refine (store_of_outside (.inr ?_)).trans (clear_of_outside (.inr ?_))
  · refine le_trans ?_ hk
    simp [HEADER_SIZE]
  · exact (Nat.zero_add _).trans_le hk

theorem load_withHeader {a w : ℕ} (h : a + w ≤ 17) : load (withHeader crc sequence buffer) a w =
    numAt (ofNat 4 MAGIC ++ (ofNat 4 crc ++ (ofNat 8 sequence ++ [1]))) a w := by
  rw [withHeader, List.append_assoc, List.append_assoc, ← Nat.zero_add a, load_store_numAt (by simpa using h), Nat.zero_add]

theorem headerMagic_withHeader : headerMagic (withHeader crc sequence buffer) = MAGIC := by
  rw [headerMagic, load_withHeader _ _ _ (by decide), numAt_ofNat]
  decide

theorem headerCrc_withHeader : headerCrc (withHeader crc sequence buffer) = crc % 256 ^ 4 := by
  rw [headerCrc, load_withHeader _ _ _ (by decide), numAt_ofNat_append le_rfl, numAt_ofNat]

theorem headerSequence_withHeader : headerSequence (withHeader crc sequence buffer) = sequence % 256 ^ 8 := by
  rw [headerSequence, load_withHeader _ _ _ (by decide), numAt_ofNat_append (by decide), numAt_ofNat_append (by decide),
    numAt_ofNat]

end

theorem imageCrc_lt (image : ℕ → Byte) : imageCrc image < 256 ^ 4 :=
  (UInt32.toNat_lt _).trans_eq (by norm_num)

section
variable (vfs : FAT16VFS) (unused : ℕ → Byte)

theorem newImage_payload : SamePayload (newImage vfs unused) (payload vfs unused) := withHeader_payload _ _ _

theorem headerMagic_newImage : headerMagic (newImage vfs unused) = MAGIC := headerMagic_withHeader ..

theorem headerSequence_newImage (h : vfs.sequence + 1 < 2 ^ 64) : headerSequence (newImage vfs unused) = vfs.sequence + 1 := by
  rw [newImage, headerSequence_withHeader, Nat.mod_eq_of_lt h, Nat.mod_eq_of_lt (h.trans_eq (by norm_num))]

theorem sound_newImage : Sound (newImage vfs unused) := by
  rw [Sound, (newImage_payload vfs unused).imageCrc_eq, newImage, headerCrc_withHeader, Nat.mod_eq_of_lt (imageCrc_lt _)]

end

/-! ## What an image restores -/

/-- The table, the root and the data -/
def SameContent (vfs vfs' : FAT16VFS) : Prop :=
  (∀ c < NUM_CLUSTERS, vfs.fat c = vfs'.fat c) ∧ ∀ k < MEM_SIZE, vfs.mem k = vfs'.mem k

theorem SameContent.refl (vfs : FAT16VFS) : SameContent vfs vfs := ⟨fun _ _ => rfl, fun _ _ => rfl⟩

theorem SameContent.symm {v v' : FAT16VFS} (h : SameContent v v') : SameContent v' v :=
  ⟨fun c hc => (h.1 c hc).symm, fun k hk => (h.2 k hk).symm⟩

theorem SameContent.trans {v v' v'' : FAT16VFS} (h : SameContent v v') (h' : SameContent v' v'') : SameContent v v'' :=
  ⟨fun c hc => (h.1 c hc).trans (h'.1 c hc), fun k hk => (h.2 k hk).trans (h'.2 k hk)⟩

/-- Only the payload of an image is loaded. -/
theorem SamePayload.loadImage {image image' : ℕ → Byte} (h : SamePayload image image') (v v' : FAT16VFS) :
    SameContent (loadImage v image) (loadImage v' image') := by
  refine ⟨fun c hc => load_congr fun k hk => h _ ?_ ?_, fun k hk => h _ ?_ ?_⟩ <;>
  simp only [HEADER_SIZE, SECTOR_SIZE, NUM_CLUSTERS, FLASH_SIZE, MEM_SIZE, ROOT_ENTRIES, CLUSTER_SIZE] at * <;> omega

/-- A number of two bytes in a table -/
theorem load_fatByte {mem : ℕ → Byte} {fat : ℕ → ℕ} {a c : ℕ} (hfat : fat c < 2 ^ 16)
    (h : ∀ k < 2, mem (a + k) = fatByte fat (2 * c + k)) : load mem a 2 = fat c := by
  have hdiv : (2 * c + 1) / 2 = c := by omega
  have hmod : (2 * c + 1) % 2 = 1 := by omega
  have h₀ : mem (a + 0) = UInt8.ofNat (fat c) := by
    rw [h 0 (by decide), fatByte, Nat.add_zero, Nat.mul_div_cancel_left _ (by decide), Nat.mul_mod_right, pow_zero, Nat.div_one]
  have h₁ : mem (a + 1) = UInt8.ofNat (fat c / 256) := by
    rw [h 1 (by decide), fatByte, hdiv, hmod, pow_one]
  change (mem (a + 0)).toNat + 256 * ((mem (a + 1)).toNat + 256 * 0) = fat c
  rw [h₀, h₁, UInt8.toNat_ofNat', UInt8.toNat_ofNat']
  omega

/-- What `vfs_flush` writes restores what it has been written from. -/
theorem loadImage_newImage (v vfs : FAT16VFS) (unused : ℕ → Byte) (hfat : ∀ c, vfs.fat c < 2 ^ 16) :
    SameContent (loadImage v (newImage vfs unused)) vfs := by
  refine ((newImage_payload vfs unused).loadImage v v).trans ⟨fun c hc => load_fatByte (hfat c) fun k hk => ?_, fun k hk => ?_⟩
  · unfold payload
    rw [if_neg (by omega), if_pos, Nat.add_assoc, Nat.add_sub_cancel_left]
    simp only [HEADER_SIZE, SECTOR_SIZE, FAT_SIZE, NUM_CLUSTERS] at *
    omega
  · change payload vfs unused (HEADER_SIZE + 2 * SECTOR_SIZE + k) = vfs.mem k
    unfold payload
    rw [if_neg, if_neg, if_neg (by omega), if_pos (by omega), Nat.add_sub_cancel_left] <;>
    simp only [HEADER_SIZE, SECTOR_SIZE, FAT_SIZE, NUM_CLUSTERS] <;> omega

/-! ## A write that is cut off -/

/-- An image of which the first `n` bytes have been replaced -/
def torn (old new : ℕ → Byte) (n : ℕ) : ℕ → Byte := fun k => if k < n then new k else old k

theorem imageAt_writeImage (flash : ℕ → Byte) (i : ℕ) (image : ℕ → Byte) (n : ℕ) :
    imageAt (writeImage flash i image n) i = torn (imageAt flash i) image n := by
  funext k
  by_cases hk : k < n
  · rw [imageAt, writeImage, if_pos (by omega), torn, if_pos hk, Nat.add_sub_cancel_left]
  · rw [imageAt, writeImage, if_neg (by omega), torn, if_neg hk, imageAt]

/-- The image besides the one that is written -/
theorem imageAt_writeImage_of_ne (flash : ℕ → Byte) {i j n : ℕ} (image : ℕ → Byte) (hij : i ≠ j) (hn : n ≤ FLASH_SIZE) :
    SameImage (imageAt (writeImage flash i image n) j) (imageAt flash j) := by
  intro k hk
  refine if_neg fun h => ?_
  rcases Nat.lt_or_gt_of_ne hij with hlt | hlt
  · have := Nat.mul_le_mul_right FLASH_SIZE (Nat.succ_le_of_lt hlt)
    rw [Nat.succ_mul] at this
    omega
  · have := Nat.mul_le_mul_right FLASH_SIZE (Nat.succ_le_of_lt hlt)
    rw [Nat.succ_mul] at this
    omega

section
variable {old new : ℕ → Byte} {n : ℕ}

/-- What lies behind the bytes that have been replaced -/
theorem load_torn_of_le {a w : ℕ} (h : n ≤ a) : load (torn old new n) a w = load old a w :=
  load_congr fun _ _ => if_neg (by omega)

theorem torn_all (h : FLASH_SIZE ≤ n) : SameImage (torn old new n) new := fun _ hk => if_pos (by omega)

end

/-! ## The image that is selected -/

theorem other_zero : other 0 = 1 := rfl

theorem other_one : other 1 = 0 := rfl

theorem other_of_lt {i : ℕ} (hi : i < 2) : other i < 2 ∧ other i ≠ i ∧ other (other i) = i := by
  obtain rfl | rfl : i = 0 ∨ i = 1 := by omega
  · decide
  · decide

section
variable {flash : ℕ → Byte} {i : ℕ}

theorem intact_iff : intact flash i ↔ Sound (imageAt flash i) := decide_eq_true_iff

theorem lt_of_preferred (h : preferred flash = some i) : i < 2 := by
  unfold preferred at h
  split_ifs at h <;> cases h <;> decide

/-- An image is preferred over the other when it has the magic number, and so has the other only with a sequence number
that is not greater. -/
theorem preferred_eq_some_iff (hi : i < 2) : preferred flash = some i ↔ headerMagic (imageAt flash i) = MAGIC ∧
    (headerMagic (imageAt flash (other i)) = MAGIC →
      if i = 0 then headerSequence (imageAt flash (other i)) < headerSequence (imageAt flash i)
      else headerSequence (imageAt flash (other i)) ≤ headerSequence (imageAt flash i)) := by
  obtain rfl | rfl : i = 0 ∨ i = 1 := by omega
  · rw [if_pos rfl, other_zero]
    unfold preferred
    split_ifs <;> simp_all
  · rw [if_neg Nat.one_ne_zero, other_one]
    unfold preferred
    split_ifs <;> simp_all

/-- The preferred image is loaded, or the other where that one is not intact. -/
theorem selected_eq_some_iff : selected flash = some i ↔ Sound (imageAt flash i) ∧
    (preferred flash = some i ∨ ∃ j, preferred flash = some j ∧ ¬ Sound (imageAt flash j) ∧ i = other j) := by
  have hpreferred : ∀ {j}, preferred flash = some j → (selected flash = some i ↔ Sound (imageAt flash i) ∧
      (j = i ∨ ¬ Sound (imageAt flash j) ∧ i = other j)) := by
    intro j hj
    rw [selected, hj, Option.bind_some]
    by_cases h : intact flash j
    · rw [if_pos h, Option.some.injEq]
      have hsound := intact_iff.mp h
      constructor
      · intro hij
        exact ⟨hij ▸ hsound, .inl hij⟩
      · rintro ⟨-, hij | ⟨hnot, -⟩⟩
        · exact hij
        · exact absurd hsound hnot
    · rw [if_neg h]
      have hnot := mt intact_iff.mpr h
      by_cases h' : intact flash (other j)
      · rw [if_pos h', Option.some.injEq]
        constructor
        · intro hij
          exact ⟨hij ▸ intact_iff.mp h', .inr ⟨hnot, hij.symm⟩⟩
        · rintro ⟨hi, rfl | ⟨-, hij⟩⟩
          · exact absurd hi hnot
          · exact hij.symm
      · rw [if_neg h']
        refine iff_of_false (by simp) ?_
        rintro ⟨hi, rfl | ⟨-, rfl⟩⟩
        · exact hnot hi
        · exact h' (intact_iff.mpr hi)
  cases hp : preferred flash with
  | none => simp [selected, hp]
  | some j =>
    rw [hpreferred hp]
    simp only [Option.some.injEq, exists_eq_left']

theorem lt_of_selected (h : selected flash = some i) : i < 2 := by
  obtain ⟨-, hp | ⟨j, hp, -, rfl⟩⟩ := selected_eq_some_iff.mp h
  · exact lt_of_preferred hp
  · exact (other_of_lt (lt_of_preferred hp)).1

end

end ValidcTools.Fat16
