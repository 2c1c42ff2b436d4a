import ValidcTools.Fat16.Sessions

/-! What a mount restores after a flush, and after a flush that has been cut off. -/
namespace ValidcTools.Fat16

open Bytes Memory

/-! ## Sessions -/

/-- After this call the flash should hold the mounted state. -/
def Call.Saves : Call → World → Prop
  | .mount, _ => True
  | .flush unused written, w => (vfs_flush unused written w).2 = 0
  | _, _ => False

/-- A run from the program's start: the state it comes to, and the one at the last mount or completed flush. Each call
meets `P`. -/
inductive Session (P : Call → World → Prop) (flash : ℕ → Byte) : World → FAT16VFS → Prop
  | start : Session P flash (World.start flash) (World.start flash).vfs
  | saves {w w' : World} {saved : FAT16VFS} {c : Call} : Session P flash w saved → P c w → c.run w = some w' → c.Saves w →
      Session P flash w' w'.vfs
  | stays {w w' : World} {saved : FAT16VFS} {c : Call} : Session P flash w saved → P c w → c.run w = some w' → ¬ c.Saves w →
      Session P flash w' saved

/-- All bytes reach the file. -/
def Faithful : Call → World → Prop
  | .flush _ written, _ => FLASH_SIZE ≤ written
  | _, _ => True

/-- A flush has a flash, and a sequence number that can grow; a write does not fail after it has changed a table that
would not be flushed. -/
def Connected : Call → World → Prop
  | .flush _ written, w => FLASH_SIZE ≤ written ∧ w.vfs.flash = true ∧ (w.vfs.dirty = true → w.vfs.sequence + 1 < 2 ^ 64)
  | .write fd buf _ _, w => w.vfs.flash = true → w.vfs.dirty = true ∨ ¬ GrowsInVain fd buf w
  | _, _ => True

/-! ## The mounted state -/

/-- A flash has been mounted from its active image. -/
structure Mounted (w : World) (saved : FAT16VFS) : Prop where
  selected : Fat16.selected w.flash = some w.vfs.activeBuffer
  sequence : headerSequence (imageAt w.flash w.vfs.activeBuffer) = w.vfs.sequence
  small : ∀ c, w.vfs.fat c < 2 ^ 16
  content : ∀ v, SameContent (loadImage v (imageAt w.flash w.vfs.activeBuffer)) saved
  clean : w.vfs.dirty = false → SameContent saved w.vfs

section
variable {w w' v : World} {saved : FAT16VFS} {unused flash : ℕ → Byte} {written i n : ℕ}

theorem Mounted.lt (h : Mounted w saved) : w.vfs.activeBuffer < 2 := lt_of_selected h.selected

/-- Calls that leave the flash alone -/
theorem Mounted.quiet (h : Mounted w saved) (hquiet : Quiet w w') : Mounted w' saved where
  selected := by rw [hquiet.flash, hquiet.active, h.selected]
  sequence := by rw [hquiet.flash, hquiet.active, hquiet.sequence, h.sequence]
  small := hquiet.small h.small
  content := by
    rw [hquiet.flash, hquiet.active]
    exact h.content
  clean := by
    intro hclean
    rcases hquiet.content with hdirty | ⟨hdirty, hfat, hmem⟩
    · exact absurd (hclean.symm.trans hdirty) Bool.false_ne_true
    · have := h.clean (hdirty.symm.trans hclean)
      rwa [SameContent, ← hfat, ← hmem] at this

/-! ### `vfs_mount` -/

theorem vfs_mount_of_none (h : selected w.flash = none) : vfs_mount w =
    ((vfs_init { w.lock with vfs := { w.vfs with flash := true } }).1.unlock, 0) := by
  unfold vfs_mount
  dsimp only [World.lock]
  rw [h]

theorem vfs_mount_of_selected (h : selected w.flash = some i) : vfs_mount w =
    ({ w.lock with
        vfs := { loadImage { w.vfs with flash := true } (imageAt w.flash i) with
          activeBuffer := i, sequence := headerSequence (imageAt w.flash i), dirty := false } }.unlock, 0) := by
  unfold vfs_mount
  dsimp only [World.lock]
  rw [h]

/-- What a mount of the selected image restores -/
theorem vfs_mount_content (h : selected w.flash = some i) :
    SameContent (vfs_mount w).1.vfs (loadImage w.vfs (imageAt w.flash i)) ∧
      (vfs_mount w).1.vfs.sequence = headerSequence (imageAt w.flash i) := by
  rw [vfs_mount_of_selected h]
  exact ⟨⟨fun _ _ => rfl, fun _ _ => rfl⟩, rfl⟩

theorem vfs_mount_mounted (hfile : (vfs_mount w).1.vfs.flash = true) : Mounted (vfs_mount w).1 (vfs_mount w).1.vfs := by
  cases h : selected w.flash with
  | none =>
    rw [vfs_mount_of_none h] at hfile
    cases hfile
  | some i =>
    rw [vfs_mount_of_selected h]
    exact ⟨h, rfl, fun c => (load_lt _ _ 2).trans_eq (by norm_num), fun v => ⟨fun _ _ => rfl, fun _ _ => rfl⟩, fun _ => .refl _⟩

/-! ### `vfs_flush` -/

theorem vfs_flush_of_clean (h : w.vfs.dirty = false) : vfs_flush unused written w = (w.lock.unlock, 0) :=
  if_pos (.inl (by rw [World.lock_vfs, h]; decide))

theorem imageCrc_written (flash : ℕ → Byte) (i : ℕ) (image : ℕ → Byte) :
    imageCrc (imageAt (writeImage flash i image FLASH_SIZE) i) = imageCrc image := by
  rw [imageAt_writeImage]
  exact (torn_all le_rfl).payload.imageCrc_eq

theorem vfs_flush_of_dirty (hdirty : w.vfs.dirty = true) (hfile : w.vfs.flash = true) (hwritten : FLASH_SIZE ≤ written) :
    vfs_flush unused written w =
      ({ w.lock with
          vfs := { w.vfs with
            sequence := (w.vfs.sequence + 1) % 2 ^ 64, activeBuffer := other w.vfs.activeBuffer, dirty := false }
          flash := writeImage w.flash (other w.vfs.activeBuffer) (newImage w.vfs unused) FLASH_SIZE }.unlock, 0) := by
  have hearly : ¬ (¬ w.lock.vfs.dirty = true ∨ ¬ w.lock.vfs.flash = true) := by
    rw [World.lock_vfs, hdirty, hfile]
    decide
  unfold vfs_flush
  dsimp only
  rw [if_neg hearly, if_neg (Nat.not_lt.mpr hwritten), Nat.min_eq_right hwritten, if_neg (not_not.mpr (imageCrc_written _ _ _))]
  rfl

/-- With a larger sequence number the image that has been written is selected. -/
theorem selected_written {image : ℕ → Byte} (hi : i < 2) (hmagic : headerMagic image = MAGIC) (hsound : Sound image)
    (hsequence : headerSequence (imageAt flash i) < headerSequence image) :
    selected (writeImage flash (other i) image FLASH_SIZE) = some (other i) := by
  obtain ⟨hlt, hne, htwice⟩ := other_of_lt hi
  have hnew : SameImage (imageAt (writeImage flash (other i) image FLASH_SIZE) (other i)) image := by
    rw [imageAt_writeImage]
    exact torn_all le_rfl
  have hold := imageAt_writeImage_of_ne flash image hne le_rfl
  refine selected_eq_some_iff.mpr ⟨hnew.sound_iff.mpr hsound, .inl ((preferred_eq_some_iff hlt).mpr ?_)⟩
  rw [htwice, hnew.headerMagic_eq, hnew.headerSequence_eq, hold.headerSequence_eq]
  refine ⟨hmagic, fun _ => ?_⟩
  split
  · exact hsequence
  · exact hsequence.le

theorem vfs_flush_mounted (h : Mounted w saved) (hfile : w.vfs.flash = true) (hwritten : FLASH_SIZE ≤ written)
    (hsequence : w.vfs.dirty = true → w.vfs.sequence + 1 < 2 ^ 64) :
    Mounted (vfs_flush unused written w).1 (vfs_flush unused written w).1.vfs := by
  cases hdirty : w.vfs.dirty with
  | false =>
    rw [vfs_flush_of_clean hdirty]
    exact ⟨h.selected, h.sequence, h.small, fun v => (h.content v).trans (h.clean hdirty), fun _ => .refl _⟩
  | true =>
    have hgrows := hsequence hdirty
    have hnew := headerSequence_newImage w.vfs unused hgrows
    have himage : SameImage (imageAt (writeImage w.flash (other w.vfs.activeBuffer) (newImage w.vfs unused) FLASH_SIZE)
        (other w.vfs.activeBuffer)) (newImage w.vfs unused) := by
      rw [imageAt_writeImage]
      exact torn_all le_rfl
    rw [vfs_flush_of_dirty hdirty hfile hwritten]
    constructor
    · refine selected_written h.lt (headerMagic_newImage ..) (sound_newImage ..) ?_
      rw [h.sequence, hnew]
      exact Nat.lt_succ_self _
    · refine (himage.headerSequence_eq.trans hnew).trans (Nat.mod_eq_of_lt ?_).symm
      exact hgrows
    · exact h.small
    · exact fun v => (himage.payload.loadImage v v).trans (loadImage_newImage v w.vfs unused h.small)
    · exact fun _ => .refl _

/-! ### Runs -/

/-- In a session whose calls are all connected, what is mounted is tied to the active image. -/
theorem Session.mounted (h : Session Connected flash w saved) (hfile : w.vfs.flash = true) : Mounted w saved := by
  induction h with
  | start => cases hfile
  | @saves w w' saved c hsession hconnected hrun hsaves ih =>
    cases c with
    | mount =>
      cases hrun
      exact vfs_mount_mounted hfile
    | flush unused written =>
      cases hrun
      obtain ⟨hwritten, hflash, hsequence⟩ := hconnected
      exact vfs_flush_mounted (ih hflash) hflash hwritten hsequence
    | _ => exact hsaves.elim
  | @stays w w' saved c hsession hconnected hrun hstays ih =>
    by_cases honflash : c.OnFlash
    · cases c with
      | init =>
        cases hrun
        cases hfile
      | mount => exact absurd trivial hstays
      | flush unused written =>
        obtain ⟨hwritten, hflash, -⟩ := hconnected
        refine absurd ?_ hstays
        change (vfs_flush unused written w).2 = 0
        cases hdirty : w.vfs.dirty with
        | false => rw [vfs_flush_of_clean hdirty]
        | true => rw [vfs_flush_of_dirty hdirty hflash hwritten]
      | _ => exact honflash.elim
    · by_cases hflash : w.vfs.flash = true
      · refine (ih hflash).quiet (Call.run_quiet honflash (fun fd buf tm stray hc => ?_) hrun)
        subst hc
        exact hconnected hflash
      · exact absurd ((Call.run_file honflash hrun).symm.trans hfile) hflash

end

/-! ## Completed flushes -/

/-- When a flush returns 0, the next mount restores the state that it has been called in. -/
def Durable (unused : ℕ → Byte) (written : ℕ) (w : World) : Prop :=
  (vfs_flush unused written w).2 = 0 → ∀ v : World, v.flash = (vfs_flush unused written w).1.flash →
    SameContent (vfs_mount v).1.vfs w.vfs ∧ (vfs_mount v).1.vfs.sequence = (vfs_flush unused written w).1.vfs.sequence

section
variable {w : World} {saved : FAT16VFS} {unused flash : ℕ → Byte} {written n : ℕ}

theorem vfs_flush_content (w : World) : SameContent (vfs_flush unused written w).1.vfs w.vfs := by
  unfold vfs_flush
  dsimp only
  split_ifs <;> exact ⟨fun _ _ => rfl, fun _ _ => rfl⟩

end

/-! ## A flush that is cut off -/

section
variable {w : World} {saved : FAT16VFS} {unused flash : ℕ → Byte} {written n : ℕ}

/-- Of an image that replaces another, a check sum is right only once the payload is the new one, or as long as it has
been right and neither it nor the payload has been touched. -/
def Distinguishes (old new : ℕ → Byte) : Prop :=
  ∀ n < FLASH_SIZE, Sound (torn old new n) → n < 8 ∧ Sound old ∨ SamePayload (torn old new n) new

/-- The flash when only the first `n` bytes of a flush have been written -/
def crashed (unused : ℕ → Byte) (n : ℕ) (w : World) : ℕ → Byte :=
  if w.vfs.dirty = true ∧ w.vfs.flash = true then
    writeImage w.flash (other w.vfs.activeBuffer) (newImage w.vfs unused) (min n FLASH_SIZE)
  else w.flash

/-- Where the check sum tells the images apart, a mount after a crash restores the last completed flush, or the state
that was to be flushed. -/
def CrashSafe (saved : FAT16VFS) (unused : ℕ → Byte) (n : ℕ) (w : World) : Prop :=
  (w.vfs.dirty = true → w.vfs.flash = true →
    Distinguishes (imageAt w.flash (other w.vfs.activeBuffer)) (newImage w.vfs unused)) →
  ∀ v : World, v.flash = crashed unused n w → SameContent (vfs_mount v).1.vfs saved ∨ SameContent (vfs_mount v).1.vfs w.vfs

/-- Some image is preferred when one has the magic number. -/
theorem exists_preferred {i : ℕ} (hi : i < 2) (h : headerMagic (imageAt flash i) = MAGIC) : ∃ j, preferred flash = some j := by
  obtain rfl | rfl : i = 0 ∨ i = 1 := by omega
  · unfold preferred
    split_ifs <;> exact ⟨_, rfl⟩
  · unfold preferred
    split_ifs <;> exact ⟨_, rfl⟩

/-- A magic number is not lost while it is replaced. -/
theorem headerMagic_torn {old new : ℕ → Byte} (hold : headerMagic old = MAGIC) (hnew : headerMagic new = MAGIC) :
    headerMagic (torn old new n) = MAGIC := by
  have hbytes : bytesAt old 0 4 = bytesAt new 0 4 := by
    refine toNat_injective (by rw [length_bytesAt, length_bytesAt]) (hold.trans hnew.symm)
  refine (load_congr fun k hk => ?_).trans hold
  unfold torn
  split
  · have := congrArg (·[k]?) hbytes
    simpa [bytesAt, hk] using this.symm
  · rfl

/-- After a write that is cut off the old image is selected, or one with the new payload. -/
theorem selected_crashed {image : ℕ → Byte} {i : ℕ} (h : selected flash = some i) (hmagic : headerMagic image = MAGIC)
    (hold : Sound (imageAt flash (other i)) → headerMagic (imageAt flash (other i)) = MAGIC)
    (hdist : Distinguishes (imageAt flash (other i)) image) (hn : n ≤ FLASH_SIZE) :
    ∃ j, selected (writeImage flash (other i) image n) = some j ∧
      (j = i ∨ SamePayload (imageAt (writeImage flash (other i) image n) j) image) := by
  have hi := lt_of_selected h
  obtain ⟨hlt, hne, htwice⟩ := other_of_lt hi
  obtain ⟨hsound, hpreferred⟩ := selected_eq_some_iff.mp h
  have hkept := imageAt_writeImage_of_ne flash image hne hn
  have htorn := imageAt_writeImage flash (other i) image n
  have hsound' := hkept.sound_iff.mpr hsound
  -- the magic number that the mount relied on is still there
  have hsome : ∃ j, preferred (writeImage flash (other i) image n) = some j := by
    rcases hpreferred with hp | ⟨j, hp, -, rfl⟩
    · refine exists_preferred hi ?_
      rw [hkept.headerMagic_eq]
      exact ((preferred_eq_some_iff hi).mp hp).1
    · have hj := lt_of_preferred hp
      rw [(other_of_lt hj).2.2] at *
      refine exists_preferred hj ?_
      rw [htorn]
      exact headerMagic_torn ((preferred_eq_some_iff hj).mp hp).1 hmagic
  have hcases : ∀ {j}, preferred (writeImage flash (other i) image n) = some j → j = i ∨ j = other i := by
    intro j hj
    have hjlt := lt_of_preferred hj
    obtain rfl | rfl : i = 0 ∨ i = 1 := by omega
    · rw [other_zero]
      omega
    · rw [other_one]
      omega
  obtain ⟨j, hj⟩ := hsome
  by_cases hintact : Sound (imageAt (writeImage flash (other i) image n) (other i))
  · have htold : n < 8 ∧ Sound (imageAt flash (other i)) ∨ SamePayload (torn (imageAt flash (other i)) image n) image := by
      rcases hn.lt_or_eq with hlt | rfl
      · exact hdist n hlt (htorn ▸ hintact)
      · exact .inr (torn_all le_rfl).payload
    rcases htold with ⟨hfew, hwas⟩ | hpayload
    · -- nothing but the magic number, and a check sum that is right all the same, has been replaced
      refine ⟨i, selected_eq_some_iff.mpr ⟨hsound', .inl ((preferred_eq_some_iff hi).mpr ?_)⟩, .inl rfl⟩
      have hwaspreferred : preferred flash = some i := by
        rcases hpreferred with hp | ⟨j', hp, hnot, rfl⟩
        · exact hp
        · rw [(other_of_lt (lt_of_preferred hp)).2.2] at hwas
          exact absurd hwas hnot
      have hsequence : headerSequence (torn (imageAt flash (other i)) image n) = headerSequence (imageAt flash (other i)) :=
        load_torn_of_le hfew.le
      obtain ⟨hm, hrest⟩ := (preferred_eq_some_iff hi).mp hwaspreferred
      rw [hkept.headerMagic_eq, hkept.headerSequence_eq, htorn, hsequence]
      exact ⟨hm, fun _ => hrest (hold hwas)⟩
    · rcases hcases hj with rfl | rfl
      · exact ⟨_, selected_eq_some_iff.mpr ⟨hsound', .inl hj⟩, .inl rfl⟩
      · exact ⟨_, selected_eq_some_iff.mpr ⟨hintact, .inl hj⟩, .inr (htorn ▸ hpayload)⟩
  · refine ⟨i, selected_eq_some_iff.mpr ⟨hsound', ?_⟩, .inl rfl⟩
    rcases hcases hj with rfl | rfl
    · exact .inl hj
    · exact .inr ⟨_, hj, hintact, htwice.symm⟩

end

/-! ## Runs on two flashes -/

/-- A flash to which an empty file system has been flushed twice -/
def formatted : ℕ → Byte :=
  let vfs := (World.start fun _ => 0xFF).vfs
  writeImage (writeImage (fun _ => 0xFF) 1 (newImage vfs fun _ => 0) FLASH_SIZE) 0 (newImage { vfs with sequence := 1 } fun _ => 0)
    FLASH_SIZE

theorem imageAt_formatted_zero :
    SameImage (imageAt formatted 0) (newImage { (World.start fun _ => 0xFF).vfs with sequence := 1 } fun _ => 0) := by
  rw [formatted, imageAt_writeImage]
  exact torn_all le_rfl

theorem imageAt_formatted_one : SameImage (imageAt formatted 1) (newImage (World.start fun _ => 0xFF).vfs fun _ => 0) := by
  have hother : SameImage (imageAt formatted 1) _ := imageAt_writeImage_of_ne _ _ (by decide) le_rfl
  rw [imageAt_writeImage] at hother
  exact fun k hk => (hother k hk).trans (torn_all le_rfl k hk)

theorem selected_formatted : selected formatted = some 0 := by
  have hzero := imageAt_formatted_zero
  have hone := imageAt_formatted_one
  refine selected_eq_some_iff.mpr ⟨hzero.sound_iff.mpr (sound_newImage ..), .inl ((preferred_eq_some_iff (by decide)).mpr ?_)⟩
  refine ⟨hzero.headerMagic_eq.trans (headerMagic_newImage _ _), fun _ => ?_⟩
  rw [if_pos rfl, other_zero, hone.headerSequence_eq, hzero.headerSequence_eq, headerSequence_newImage _ _ (by decide),
    headerSequence_newImage _ _ (by decide)]
  decide

/-- The directory is made in the state that has been mounted. -/
theorem exists_mkdir_formatted : ∃ w saved, Session Connected formatted w saved ∧ w.vfs.flash = true ∧ w.vfs.dirty = true ∧
    w.vfs.sequence = 2 ∧ w.vfs.fat 2 = LAST ∧ w.vfs.activeBuffer = 0 ∧ w.flash = formatted := by
  have hflash : (World.start formatted).flash = formatted := rfl
  have hrun : (vfs_mkdir (some ⟨.lit "/a", []⟩) none (vfs_mount (World.start formatted)).1).map (fun x =>
      (x.2, x.1.vfs.flash, x.1.vfs.dirty, x.1.vfs.sequence, x.1.vfs.fat 2)) = some (0, true, true, 2, LAST) := by
    rw [vfs_mount_of_selected (hflash ▸ selected_formatted)]
    decide
  obtain ⟨⟨w, r⟩, hmkdir, h⟩ := Option.map_eq_some_iff.mp hrun
  obtain ⟨rfl, hfile, hdirty, hsequence, hfat⟩ := (by simpa using h : r = 0 ∧ _ ∧ _ ∧ _ ∧ _)
  have hmounted := (Session.start : Session Connected formatted _ _).saves (c := .mount) trivial rfl trivial
  have hquiet := vfs_mkdir_quiet hmkdir
  refine ⟨w, _, hmounted.stays (c := .mkdir (some ⟨.lit "/a", []⟩) none) trivial (by rw [Call.run, hmkdir]; rfl) id, hfile, hdirty,
    hsequence, hfat, ?_, ?_⟩
  · rw [hquiet.active, vfs_mount_of_selected (hflash ▸ selected_formatted)]
    rfl
  · rw [hquiet.flash, vfs_mount_of_selected (hflash ▸ selected_formatted)]
    rfl

/-- A flash without an image: what is made after the mount stays in memory. -/
theorem exists_mkdir_blank : ∃ w saved, Session Faithful (fun _ => 0xFF) w saved ∧ w.flash = (fun _ => 0xFF) ∧
    w.vfs.flash = false ∧ w.vfs.fat 2 = LAST := by
  have hnone : selected (World.start fun _ => 0xFF).flash = none := by decide
  have hrun : (vfs_mkdir (some ⟨.lit "/a", []⟩) none (vfs_mount (World.start fun _ => 0xFF)).1).map (fun x =>
      (x.2, x.1.vfs.flash, x.1.vfs.fat 2)) = some (0, false, LAST) := by
    rw [vfs_mount_of_none hnone]
    decide
  obtain ⟨⟨w, r⟩, hmkdir, h⟩ := Option.map_eq_some_iff.mp hrun
  obtain ⟨rfl, hfile, hfat⟩ := (by simpa using h : r = 0 ∧ _ ∧ _)
  have hmounted := (Session.start : Session Faithful (fun _ => 0xFF) _ _).saves (c := .mount) trivial rfl trivial
  refine ⟨w, _, hmounted.stays (c := .mkdir (some ⟨.lit "/a", []⟩) none) trivial (by rw [Call.run, hmkdir]; rfl) id, ?_, hfile, hfat⟩
  rw [(vfs_mkdir_quiet hmkdir).flash, vfs_mount_of_none hnone]
  rfl

theorem vfs_flush_of_disconnected {w : World} {unused : ℕ → Byte} {written : ℕ} (h : w.vfs.flash = false) :
    vfs_flush unused written w = (w.lock.unlock, 0) :=
  if_pos (.inr (by rw [World.lock_vfs, h]; decide))

theorem vfs_mount_blank {v : World} (hv : v.flash = fun _ => 0xFF) : (vfs_mount v).1.vfs.fat 2 = 0 := by
  have hnone : selected v.flash = none := by
    rw [hv]
    decide
  rw [vfs_mount_of_none hnone]
  rfl

/-! ## Results -/

section
variable {w : World} {saved : FAT16VFS} {unused flash : ℕ → Byte} {written n : ℕ}

/-- A flush in a connected session is durable. -/
theorem flush_durable (h : Session Connected flash w saved) (hflush : Connected (.flush unused written) w) :
    Durable unused written w := by
  intro _ v hv
  obtain ⟨hwritten, hfile, hsequence⟩ := hflush
  have hmounted : Mounted (vfs_flush unused written w).1 (vfs_flush unused written w).1.vfs :=
    vfs_flush_mounted (h.mounted hfile) hfile hwritten hsequence
  have hselected := hmounted.selected
  rw [← hv] at hselected
  obtain ⟨hcontent, hnumber⟩ := vfs_mount_content hselected
  refine ⟨?_, ?_⟩
  · have hloaded := hmounted.content v.vfs
    rw [← hv] at hloaded
    exact (hcontent.trans hloaded).trans (vfs_flush_content w)
  · rw [hnumber, hv, hmounted.sequence]

theorem flush_durable_a : ∃ w, (∃ saved, Session Connected formatted w saved) ∧ w.vfs.dirty = true ∧ w.vfs.fat 2 = LAST ∧
    Durable (fun _ => 0) FLASH_SIZE w := by
  obtain ⟨w, saved, hsession, hfile, hdirty, hsequence, hfat, -, -⟩ := exists_mkdir_formatted
  refine ⟨w, ⟨saved, hsession⟩, hdirty, hfat, flush_durable hsession ⟨le_rfl, hfile, fun _ => ?_⟩⟩
  rw [hsequence]
  decide

/-- On an erased flash `vfs_mount`, `vfs_mkdir("/a")` and `vfs_flush` return 0, and the next mount finds no directory. -/
theorem not_durable_blank : ∃ w saved, Session Faithful (fun _ => 0xFF) w saved ∧
    ¬ Durable (fun _ => 0) FLASH_SIZE w := by
  obtain ⟨w, saved, hsession, hflash, hfile, hfat⟩ := exists_mkdir_blank
  refine ⟨w, saved, hsession, fun hdurable => ?_⟩
  rw [Durable, vfs_flush_of_disconnected hfile] at hdurable
  have hrestored := (hdurable rfl w.lock.unlock rfl).1.1 2 (by decide)
  rw [vfs_mount_blank (hflash ▸ rfl : w.lock.unlock.flash = _), hfat] at hrestored
  exact absurd hrestored (by decide)

/-- A crash in a connected session is safe, when an image that is replaced has the magic number or not its check sum. -/
theorem crash_safe (h : Session Connected flash w saved) (hfile : w.vfs.flash = true)
    (hmagic : Sound (imageAt w.flash (other w.vfs.activeBuffer)) → headerMagic (imageAt w.flash (other w.vfs.activeBuffer)) = MAGIC) :
    CrashSafe saved unused n w := by
  intro hdist v hv
  have hmounted := h.mounted hfile
  by_cases hdirty : w.vfs.dirty = true
  · rw [crashed, if_pos ⟨hdirty, hfile⟩] at hv
    obtain ⟨j, hj, hpayload⟩ := selected_crashed (n := min n FLASH_SIZE) hmounted.selected (headerMagic_newImage w.vfs unused)
      hmagic (hdist hdirty hfile) (Nat.min_le_right ..)
    rw [← hv] at hj hpayload
    obtain ⟨hcontent, -⟩ := vfs_mount_content hj
    rcases hpayload with rfl | hpayload
    · have hkept : SameImage (imageAt v.flash w.vfs.activeBuffer) (imageAt w.flash w.vfs.activeBuffer) := by
        rw [hv]
        exact imageAt_writeImage_of_ne _ _ (other_of_lt hmounted.lt).2.1 (Nat.min_le_right ..)
      exact .inl (hcontent.trans ((hkept.payload.loadImage _ v.vfs).trans (hmounted.content v.vfs)))
    · exact .inr (hcontent.trans ((hpayload.loadImage _ v.vfs).trans (loadImage_newImage _ _ _ hmounted.small)))
  · rw [crashed, if_neg fun hboth => hdirty hboth.1] at hv
    have hselected := hmounted.selected
    rw [← hv] at hselected
    have hloaded := hmounted.content v.vfs
    rw [← hv] at hloaded
    exact .inl ((vfs_mount_content hselected).1.trans hloaded)

theorem crash_safe_a : ∃ w saved, Session Connected formatted w saved ∧ w.vfs.dirty = true ∧
    ∀ n, CrashSafe saved (fun _ => 0) n w := by
  obtain ⟨w, saved, hsession, hfile, hdirty, -, -, hactive, hflash⟩ := exists_mkdir_formatted
  refine ⟨w, saved, hsession, hdirty, fun n => crash_safe hsession hfile fun _ => ?_⟩
  rw [hactive, hflash, other_zero, imageAt_formatted_one.headerMagic_eq]
  exact headerMagic_newImage _ _

/-- On an erased flash what `vfs_flush` has returned 0 for is lost in a crash. -/
theorem not_crash_safe_blank : ∃ w saved, Session Faithful (fun _ => 0xFF) w saved ∧ ∀ n, ¬ CrashSafe saved (fun _ => 0) n w := by
  obtain ⟨w, saved, hsession, hflash, hfile, hfat⟩ := exists_mkdir_blank
  have hflush : vfs_flush (fun _ => 0) FLASH_SIZE w = (w.lock.unlock, 0) := vfs_flush_of_disconnected hfile
  have hsaved : Session Faithful (fun _ => 0xFF) w.lock.unlock w.vfs := by
    refine hsession.saves (c := .flush (fun _ => 0) FLASH_SIZE) le_rfl ?_ ?_
    · rw [Call.run, hflush]
    · rw [Call.Saves, hflush]
  refine ⟨_, _, hsaved, fun n hsafe => ?_⟩
  have hcrashed : crashed (fun _ => 0) n w.lock.unlock = w.flash := if_neg fun hboth => by
    exact absurd (hfile.symm.trans hboth.2) Bool.false_ne_true
  have hlost := vfs_mount_blank hflash
  rcases hsafe (fun _ htrue => absurd (hfile.symm.trans htrue) Bool.false_ne_true) w hcrashed.symm with hsame | hsame
  · exact absurd ((hlost.symm.trans (hsame.1 2 (by decide))).trans hfat) (by decide)
  · exact absurd ((hlost.symm.trans (hsame.1 2 (by decide))).trans hfat) (by decide)

end

end ValidcTools.Fat16
