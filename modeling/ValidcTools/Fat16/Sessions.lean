import ValidcTools.Fat16.Images
import ValidcTools.Fat16.Locking

/-! Runs of the FAT16 file system on a flash, and what ties the mounted state to the image it has been loaded from. -/
namespace ValidcTools.Fat16

open Bytes Memory

/-! ## Calls that leave the flash alone -/

/-- The flash and what is known of it stay, and a change of the content sets `dirty`. -/
structure Quiet (w w' : World) : Prop where
  flash : w'.flash = w.flash
  file : w'.vfs.flash = w.vfs.flash
  active : w'.vfs.activeBuffer = w.vfs.activeBuffer
  sequence : w'.vfs.sequence = w.vfs.sequence
  small : (∀ c, w.vfs.fat c < 2 ^ 16) → ∀ c, w'.vfs.fat c < 2 ^ 16
  content : w'.vfs.dirty = true ∨ w'.vfs.dirty = w.vfs.dirty ∧ w'.vfs.fat = w.vfs.fat ∧ w'.vfs.mem = w.vfs.mem

theorem Quiet.refl (w : World) : Quiet w w := ⟨rfl, rfl, rfl, rfl, id, .inr ⟨rfl, rfl, rfl⟩⟩

/-- Nothing of this depends on `errno`, the mutex or the open files. -/
theorem Quiet.of_eq {w w' : World} (hflash : w'.flash = w.flash) (hfile : w'.vfs.flash = w.vfs.flash)
    (hactive : w'.vfs.activeBuffer = w.vfs.activeBuffer) (hsequence : w'.vfs.sequence = w.vfs.sequence)
    (hdirty : w'.vfs.dirty = w.vfs.dirty) (hfat : w'.vfs.fat = w.vfs.fat) (hmem : w'.vfs.mem = w.vfs.mem) : Quiet w w' :=
  ⟨hflash, hfile, hactive, hsequence, fun h => hfat ▸ h, .inr ⟨hdirty, hfat, hmem⟩⟩

/-! ### The table -/

theorem small_update {fat : ℕ → ℕ} {c v : ℕ} (hv : v < 2 ^ 16) (h : ∀ c, fat c < 2 ^ 16) (d : ℕ) :
    Function.update fat c v d < 2 ^ 16 := by
  rw [Function.update_apply]
  split
  · exact hv
  · exact h d

theorem freeCluster_lt {fat : ℕ → ℕ} {c : ℕ} (h : freeCluster fat = some c) : 2 ≤ c ∧ c < NUM_CLUSTERS := by
  have hmem := List.mem_range'_1.mp (List.mem_of_find?_eq_some h)
  simp only [NUM_CLUSTERS] at hmem ⊢
  omega

theorem extend_small {n last : ℕ} {fat fat' : ℕ → ℕ} {room : Bool} (hsmall : ∀ c, fat c < 2 ^ 16)
    (h : extend n fat last = some (fat', room)) : ∀ c, fat' c < 2 ^ 16 := by
  induction n generalizing fat last with
  | zero =>
    cases h
    exact hsmall
  | succ n ih =>
    unfold extend at h
    split at h
    · cases h
      exact hsmall
    · rename_i c hc
      obtain ⟨last', -, h⟩ := Option.bind_eq_some_iff.mp h
      have hlt : c < 2 ^ 16 := (freeCluster_lt hc).2.trans (by decide)
      exact ih (small_update hlt (small_update (by decide) hsmall)) h

theorem allocate_small {first n first' : ℕ} {fat fat' : ℕ → ℕ} {room : Bool} (hsmall : ∀ c, fat c < 2 ^ 16)
    (h : allocate fat first n = some (fat', first', room)) : ∀ c, fat' c < 2 ^ 16 := by
  unfold allocate at h
  split at h
  · obtain ⟨_, hext, h⟩ := Option.map_eq_some_iff.mp h
    cases h
    exact extend_small (small_update (by decide) hsmall) hext
  · obtain ⟨_, hext, h⟩ := Option.map_eq_some_iff.mp h
    cases h
    exact extend_small hsmall hext

theorem freeChain_small {n c : ℕ} {fat fat' : ℕ → ℕ} (hsmall : ∀ c, fat c < 2 ^ 16) (h : freeChain n fat c = some fat') :
    ∀ c, fat' c < 2 ^ 16 := by
  induction n generalizing fat c with
  | zero => cases h
  | succ n ih =>
    unfold freeChain at h
    split at h
    · cases h
      exact hsmall
    · split at h
      · exact ih (small_update (by decide) hsmall) h
      · cases h

/-- The table after `createEntry` -/
theorem createEntry_small {vfs vfs' : FAT16VFS} {path : Option Path} {stray : List Byte} {attributes : ℕ} {made : Created}
    (h : createEntry vfs path stray attributes = some (.ok (vfs', made))) :
    ∃ fat mem, vfs' = { vfs with fat := fat, mem := mem } ∧ ((∀ c, vfs.fat c < 2 ^ 16) → ∀ c, fat c < 2 ^ 16) := by
  obtain ⟨parentDir, -, h⟩ := Option.map_eq_some_iff.mp h
  split at h
  · dsimp only at h
    split_ifs at h
    split at h
    · cases h
    · split at h
      · cases h
      · cases h
        exact ⟨_, _, rfl, small_update (by decide)⟩
  · cases h

/-! ### Calls -/

section
variable {w w' : World} {path : Option Path} {stray : List Byte} {tm : Option Tm} {fd r : ℤ} {dirp : Option ℕ}

theorem Quiet.fail {v : World} (e : Errno) (h : Quiet w v) : Quiet w (v.fail e).1 := ⟨h.1, h.2, h.3, h.4, h.5, h.6⟩

theorem Quiet.unlock {v : World} (h : Quiet w v) : Quiet w v.unlock := ⟨h.1, h.2, h.3, h.4, h.5, h.6⟩

theorem quiet_lock (w : World) : Quiet w w.lock := Quiet.of_eq rfl rfl rfl rfl rfl rfl rfl

theorem openEntry_quiet {v : World} {mode a : ℕ} (hv : Quiet w v) (h : openEntry v path mode a = some (w', r)) : Quiet w w' := by
  unfold openEntry at h
  split_ifs at h
  · cases h
    exact hv.fail _
  · split at h
    · cases h
      exact hv.fail _
    · obtain ⟨_, -, h⟩ := Option.map_eq_some_iff.mp h
      cases h
      exact ⟨hv.1, hv.2, hv.3, hv.4, hv.5, hv.6⟩

theorem vfs_open_quiet {mode : UInt32} (h : vfs_open path mode stray w = some (w', r)) : Quiet w w' := by
  unfold vfs_open at h
  dsimp only at h
  split at h
  · cases h
    exact (quiet_lock w).fail _
  · obtain ⟨entry, -, h⟩ := Option.bind_eq_some_iff.mp h
    cases entry with
    | none =>
      dsimp only at h
      split at h
      · cases h
        exact (quiet_lock w).fail _
      · obtain ⟨made, hmade, h⟩ := Option.bind_eq_some_iff.mp h
        cases made with
        | error e =>
          cases h
          exact (quiet_lock w).fail _
        | ok made =>
          obtain ⟨vfs, made⟩ := made
          obtain ⟨fat, mem, rfl, hsmall⟩ := createEntry_small hmade
          exact openEntry_quiet (v := { w.lock with vfs := { w.lock.vfs with fat := fat, mem := mem, dirty := true } })
            ⟨rfl, rfl, rfl, rfl, hsmall, .inl rfl⟩ h
    | some entry =>
      dsimp only at h
      split at h
      · cases h
        exact (quiet_lock w).fail _
      · exact openEntry_quiet (quiet_lock w) h

theorem vfs_close_quiet (fd : ℤ) (w : World) : Quiet w (vfs_close fd w).1 := by
  unfold vfs_close
  dsimp only
  split_ifs
  · exact Quiet.of_eq rfl rfl rfl rfl rfl rfl rfl
  · exact (quiet_lock w).fail _

theorem vfs_read_quiet {count : ℕ} {bytes : List Byte} (h : vfs_read fd count w = some (w', r, bytes)) : Quiet w w' := by
  unfold vfs_read at h
  dsimp only at h
  split at h
  · cases h
    exact (quiet_lock w).fail _
  · split at h
    · cases h
      exact (quiet_lock w).unlock
    · obtain ⟨current, -, h⟩ := Option.bind_eq_some_iff.mp h
      split at h
      · cases h
        exact (quiet_lock w).fail _
      · obtain ⟨read, -, h⟩ := Option.map_eq_some_iff.mp h
        cases h
        exact Quiet.of_eq rfl rfl rfl rfl rfl rfl rfl

theorem removeEntry_quiet {v : World} {a : ℕ} (hv : Quiet w v) (h : removeEntry v a = some (w', r)) : Quiet w w' := by
  obtain ⟨fat, hfat, h⟩ := Option.map_eq_some_iff.mp h
  cases h
  exact ⟨hv.1, hv.2, hv.3, hv.4, fun hsmall => freeChain_small (hv.5 hsmall) hfat, .inl rfl⟩

theorem vfs_unlink_quiet (h : vfs_unlink path stray w = some (w', r)) : Quiet w w' := by
  obtain ⟨entry, -, h⟩ := Option.bind_eq_some_iff.mp h
  split at h
  · cases h
    exact (quiet_lock w).fail _
  · split_ifs at h
    · cases h
      exact (quiet_lock w).fail _
    · exact removeEntry_quiet (quiet_lock w) h

theorem vfs_mkdir_quiet (h : vfs_mkdir path tm w = some (w', r)) : Quiet w w' := by
  obtain ⟨made, hmade, h⟩ := Option.map_eq_some_iff.mp h
  split at h
  · cases h
    exact (quiet_lock w).fail _
  · cases h
    obtain ⟨fat, mem, rfl, hsmall⟩ := createEntry_small hmade
    exact ⟨rfl, rfl, rfl, rfl, hsmall, .inl rfl⟩

theorem vfs_rmdir_quiet (h : vfs_rmdir path stray w = some (w', r)) : Quiet w w' := by
  obtain ⟨root, -, h⟩ := Option.bind_eq_some_iff.mp h
  split_ifs at h
  · cases h
    exact (quiet_lock w).fail _
  · obtain ⟨entry, -, h⟩ := Option.bind_eq_some_iff.mp h
    split at h
    · cases h
      exact (quiet_lock w).fail _
    · split_ifs at h
      · cases h
        exact (quiet_lock w).fail _
      · exact removeEntry_quiet (quiet_lock w) h
      · cases h
        exact (quiet_lock w).fail _

theorem vfs_opendir_quiet {r : Option ℕ} (h : vfs_opendir path stray w = some (w', r)) : Quiet w w' := by
  obtain ⟨entry, -, h⟩ := Option.bind_eq_some_iff.mp h
  obtain ⟨cluster, -, h⟩ := Option.map_eq_some_iff.mp h
  split at h
  · cases h
    exact (quiet_lock w).fail _
  · split at h
    · cases h
      exact (quiet_lock w).fail _
    · cases h
      exact Quiet.of_eq rfl rfl rfl rfl rfl rfl rfl

theorem vfs_readdir_quiet {r : Option Dirent} (h : vfs_readdir dirp w = some (w', r)) : Quiet w w' := by
  unfold vfs_readdir at h
  dsimp only at h
  cases dirp with
  | none =>
    cases h
    exact (quiet_lock w).fail _
  | some i =>
    dsimp only at h
    split at h
    · cases h
    · split at h
      · cases h
        exact (quiet_lock w).fail _
      · split at h
        · split at h
          · cases h
            exact Quiet.of_eq rfl rfl rfl rfl rfl rfl rfl
          · cases h
            exact Quiet.of_eq rfl rfl rfl rfl rfl rfl rfl
        · cases h

theorem vfs_closedir_quiet (h : vfs_closedir dirp w = some (w', r)) : Quiet w w' := by
  unfold vfs_closedir at h
  dsimp only at h
  cases dirp with
  | none =>
    cases h
    exact (quiet_lock w).fail _
  | some i =>
    dsimp only at h
    split at h
    · cases h
    · split at h
      · cases h
        exact (quiet_lock w).fail _
      · cases h
        exact Quiet.of_eq rfl rfl rfl rfl rfl rfl rfl

theorem vfs_stat_quiet {mktime : ℤ × ℤ × ℕ × ℕ × ℕ × ℕ → ℤ} {statbuf : Bool} {now : ℤ} {st : Option Stat}
    (h : vfs_stat mktime path statbuf now stray w = some (w', r, st)) : Quiet w w' := by
  unfold vfs_stat at h
  dsimp only at h
  split at h
  · cases h
    exact (quiet_lock w).fail _
  · obtain ⟨entry, -, h⟩ := Option.bind_eq_some_iff.mp h
    cases entry with
    | none =>
      obtain ⟨root, -, h⟩ := Option.map_eq_some_iff.mp h
      split at h
      · cases h
        exact (quiet_lock w).unlock
      · cases h
        exact (quiet_lock w).fail _
    | some entry =>
      cases h
      exact (quiet_lock w).unlock

/-- `vfs_write` puts clusters behind the chain of a file, and then fails. -/
def GrowsInVain (fd : ℤ) (buf : List Byte) (w : World) : Prop :=
  let file := w.vfs.openFiles fd.toNat
  let newSize := u32 (file.offset + buf.length)
  let clustersNeeded := u32 (newSize + (CLUSTER_SIZE - 1)) / CLUSTER_SIZE
  let clustersCurrent := u32 (file.size + (CLUSTER_SIZE - 1)) / CLUSTER_SIZE
  clustersCurrent < clustersNeeded ∧ ∃ fat firstCluster room,
    allocate w.vfs.fat file.firstCluster (clustersNeeded - clustersCurrent) = some (fat, firstCluster, room) ∧ fat ≠ w.vfs.fat ∧
      (room = false ∨ skip fat (file.offset / CLUSTER_SIZE) firstCluster = some LAST)

/-- Otherwise what `vfs_write` changes sets `dirty`. -/
theorem vfs_write_quiet {buf : List Byte} (hvain : w.vfs.dirty = true ∨ ¬ GrowsInVain fd buf w)
    (h : vfs_write fd buf tm stray w = some (w', r)) : Quiet w w' := by
  unfold vfs_write at h
  dsimp only at h
  split at h
  · cases h
    exact (quiet_lock w).fail _
  · obtain ⟨⟨fat, firstCluster, room⟩, hgrow, h⟩ := Option.bind_eq_some_iff.mp h
    dsimp only at h
    -- the failures leave the new table, which is the old one or comes with `dirty`
    have hsmall : (∀ c, w.vfs.fat c < 2 ^ 16) → ∀ c, fat c < 2 ^ 16 := by
      intro hw
      split at hgrow
      · exact allocate_small hw hgrow
      · cases hgrow
        exact hw
    have hfail : (room = false ∨ skip fat ((w.vfs.openFiles fd.toNat).offset / CLUSTER_SIZE) firstCluster = some LAST) →
        w.vfs.dirty = true ∨ w.vfs.dirty = w.vfs.dirty ∧ fat = w.vfs.fat ∧ w.vfs.mem = w.vfs.mem := by
      intro hfails
      rcases hvain with hdirty | hvain
      · exact .inl hdirty
      · refine .inr ⟨rfl, ?_, rfl⟩
        by_contra hne
        split at hgrow
        · rename_i hlt
          exact hvain ⟨hlt, fat, firstCluster, room, hgrow, hne, hfails⟩
        · cases hgrow
          exact hne rfl
    split at h
    · rename_i hroom
      cases h
      exact ⟨rfl, rfl, rfl, rfl, hsmall, hfail (.inl (by simpa using hroom))⟩
    · obtain ⟨current, hskip, h⟩ := Option.bind_eq_some_iff.mp h
      split at h
      · rename_i hlast
        cases h
        exact ⟨rfl, rfl, rfl, rfl, hsmall, hfail (.inr (hlast ▸ hskip))⟩
      · obtain ⟨⟨mem, bytesWritten, offset⟩, -, h⟩ := Option.bind_eq_some_iff.mp h
        dsimp only at h
        split at h
        · obtain ⟨entry, -, h⟩ := Option.map_eq_some_iff.mp h
          cases h
          exact ⟨rfl, rfl, rfl, rfl, hsmall, .inl rfl⟩
        · cases h
          exact ⟨rfl, rfl, rfl, rfl, hsmall, .inl rfl⟩

theorem vfs_write_file {buf : List Byte} (h : vfs_write fd buf tm stray w = some (w', r)) : w'.vfs.flash = w.vfs.flash := by
  unfold vfs_write at h
  dsimp only at h
  split at h
  · cases h
    rfl
  · obtain ⟨⟨fat, firstCluster, room⟩, -, h⟩ := Option.bind_eq_some_iff.mp h
    dsimp only at h
    split at h
    · cases h
      rfl
    · obtain ⟨current, -, h⟩ := Option.bind_eq_some_iff.mp h
      split at h
      · cases h
        rfl
      · obtain ⟨⟨mem, bytesWritten, offset⟩, -, h⟩ := Option.bind_eq_some_iff.mp h
        dsimp only at h
        split at h
        · obtain ⟨entry, -, h⟩ := Option.map_eq_some_iff.mp h
          cases h
          rfl
        · cases h
          rfl

/-- The calls that load or write an image, or forget the flash -/
def Call.OnFlash : Call → Prop
  | .init | .mount | .flush _ _ => True
  | _ => False

theorem Call.run_quiet {c : Call} (hc : ¬ c.OnFlash)
    (hvain : ∀ fd buf tm stray, c = .write fd buf tm stray → w.vfs.dirty = true ∨ ¬ GrowsInVain fd buf w)
    (h : c.run w = some w') : Quiet w w' := by
  cases c with
  | mount => exact absurd trivial hc
  | init => exact absurd trivial hc
  | flush unused written => exact absurd trivial hc
  | close fd =>
    cases h
    exact vfs_close_quiet fd w
  | «open» path mode stray =>
    obtain ⟨_, hcall, rfl⟩ := Option.map_eq_some_iff.mp h
    exact vfs_open_quiet hcall
  | read fd count =>
    obtain ⟨_, hcall, rfl⟩ := Option.map_eq_some_iff.mp h
    exact vfs_read_quiet hcall
  | write fd buf tm stray =>
    obtain ⟨_, hcall, rfl⟩ := Option.map_eq_some_iff.mp h
    exact vfs_write_quiet (hvain fd buf tm stray rfl) hcall
  | unlink path stray =>
    obtain ⟨_, hcall, rfl⟩ := Option.map_eq_some_iff.mp h
    exact vfs_unlink_quiet hcall
  | mkdir path tm =>
    obtain ⟨_, hcall, rfl⟩ := Option.map_eq_some_iff.mp h
    exact vfs_mkdir_quiet hcall
  | rmdir path stray =>
    obtain ⟨_, hcall, rfl⟩ := Option.map_eq_some_iff.mp h
    exact vfs_rmdir_quiet hcall
  | opendir path stray =>
    obtain ⟨_, hcall, rfl⟩ := Option.map_eq_some_iff.mp h
    exact vfs_opendir_quiet hcall
  | readdir dirp =>
    obtain ⟨_, hcall, rfl⟩ := Option.map_eq_some_iff.mp h
    exact vfs_readdir_quiet hcall
  | closedir dirp =>
    obtain ⟨_, hcall, rfl⟩ := Option.map_eq_some_iff.mp h
    exact vfs_closedir_quiet hcall
  | stat mktime path statbuf now stray =>
    obtain ⟨_, hcall, rfl⟩ := Option.map_eq_some_iff.mp h
    exact vfs_stat_quiet hcall

/-- Nor do they connect to a flash. -/
theorem Call.run_file {c : Call} (hc : ¬ c.OnFlash) (h : c.run w = some w') : w'.vfs.flash = w.vfs.flash := by
  by_cases hwrite : ∃ fd buf tm stray, c = .write fd buf tm stray
  · obtain ⟨fd, buf, tm, stray, rfl⟩ := hwrite
    obtain ⟨_, hcall, rfl⟩ := Option.map_eq_some_iff.mp h
    exact vfs_write_file hcall
  · refine (Call.run_quiet hc (fun fd buf tm stray h' => ?_) h).file
    exact absurd ⟨fd, buf, tm, stray, h'⟩ hwrite

end

end ValidcTools.Fat16
