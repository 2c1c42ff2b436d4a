import ValidcTools.Fat16.Calls
import ValidcTools.Fat16.Flash

/-! What the calls do to the mutex. -/
namespace ValidcTools.Fat16

/-! ## Disciplined use of a mutex -/

/-- Whether the mutex is held after these events: `none` when it was locked while held, or unlocked while not. -/
def held : Bool → List MutexEvent → Option Bool
  | h, [] => some h
  | false, .lock :: events => held true events
  | true, .unlock :: events => held false events
  | _, _ => none

/-- From not held to not held, without an error between -/
def Disciplined (events : List MutexEvent) : Prop := held false events = some false

/-! ## Calls -/

/-- The public functions with their arguments, and what they meet outside of the program's variables -/
inductive Call
  | init
  | mount
  | flush (unused : ℕ → Byte) (written : ℕ)
  | open (path : Option Path) (mode : UInt32) (stray : List Byte)
  | close (fd : ℤ)
  | read (fd : ℤ) (count : ℕ)
  | write (fd : ℤ) (buf : List Byte) (tm : Option Tm) (stray : List Byte)
  | unlink (path : Option Path) (stray : List Byte)
  | mkdir (path : Option Path) (tm : Option Tm)
  | rmdir (path : Option Path) (stray : List Byte)
  | opendir (path : Option Path) (stray : List Byte)
  | readdir (dirp : Option ℕ)
  | closedir (dirp : Option ℕ)
  | stat (mktime : ℤ × ℤ × ℕ × ℕ × ℕ × ℕ → ℤ) (path : Option Path) (statbuf : Bool) (now : ℤ) (stray : List Byte)

def Call.run : Call → World → Option World
  | .init, w => some (vfs_init w).1
  | .mount, w => some (vfs_mount w).1
  | .flush unused written, w => some (vfs_flush unused written w).1
  | .open path mode stray, w => (vfs_open path mode stray w).map (·.1)
  | .close fd, w => some (vfs_close fd w).1
  | .read fd count, w => (vfs_read fd count w).map (·.1)
  | .write fd buf tm stray, w => (vfs_write fd buf tm stray w).map (·.1)
  | .unlink path stray, w => (vfs_unlink path stray w).map (·.1)
  | .mkdir path tm, w => (vfs_mkdir path tm w).map (·.1)
  | .rmdir path stray, w => (vfs_rmdir path stray w).map (·.1)
  | .opendir path stray, w => (vfs_opendir path stray w).map (·.1)
  | .readdir dirp, w => (vfs_readdir dirp w).map (·.1)
  | .closedir dirp, w => (vfs_closedir dirp w).map (·.1)
  | .stat mktime path statbuf now stray, w => (vfs_stat mktime path statbuf now stray w).map (·.1)

/-! ## One lock, one unlock -/

/-- The mutex has been locked once and then unlocked once. -/
def LockedOnce (w w' : World) : Prop := w'.mutex = w.mutex ++ [.lock, .unlock]

section
variable {w w' : World} {path : Option Path} {stray : List Byte} {tm : Option Tm} {fd r : ℤ} {dirp : Option ℕ}

/-- After the lock, and any change of the other variables, the unlocking of `fail` -/
theorem lockedOnce_fail (e : Errno) (h : w'.mutex = w.lock.mutex) : LockedOnce w (w'.fail e).1 := by
  change w'.mutex ++ [.unlock] = _
  rw [h]
  exact List.append_assoc ..

theorem lockedOnce_unlock (h : w'.mutex = w.lock.mutex) : LockedOnce w w'.unlock := by
  change w'.mutex ++ [.unlock] = _
  rw [h]
  exact List.append_assoc ..

theorem openEntry_mutex {v : World} {mode a : ℕ} (hv : v.mutex = w.lock.mutex)
    (h : openEntry v path mode a = some (w', r)) : LockedOnce w w' := by
  unfold openEntry at h
  split_ifs at h
  · cases h
    exact lockedOnce_fail _ hv
  · split at h
    · cases h
      exact lockedOnce_fail _ hv
    · obtain ⟨_, -, h⟩ := Option.map_eq_some_iff.mp h
      cases h
      exact lockedOnce_unlock hv

theorem vfs_open_mutex {mode : UInt32} (h : vfs_open path mode stray w = some (w', r)) : LockedOnce w w' := by
  unfold vfs_open at h
  dsimp only at h
  split at h
  · cases h
    exact lockedOnce_fail _ rfl
  · obtain ⟨entry, -, h⟩ := Option.bind_eq_some_iff.mp h
    cases entry with
    | none =>
      dsimp only at h
      split at h
      · cases h
        exact lockedOnce_fail _ rfl
      · obtain ⟨made, -, h⟩ := Option.bind_eq_some_iff.mp h
        cases made with
        | error e =>
          cases h
          exact lockedOnce_fail _ rfl
        | ok made =>
          obtain ⟨vfs, made⟩ := made
          refine openEntry_mutex ?_ h
          rfl
    | some entry =>
      dsimp only at h
      split at h
      · cases h
        exact lockedOnce_fail _ rfl
      · exact openEntry_mutex rfl h

theorem vfs_close_mutex (fd : ℤ) (w : World) : LockedOnce w (vfs_close fd w).1 := by
  unfold vfs_close
  dsimp only
  split_ifs
  · exact lockedOnce_unlock rfl
  · exact lockedOnce_fail _ rfl

theorem vfs_read_mutex {count : ℕ} {bytes : List Byte} (h : vfs_read fd count w = some (w', r, bytes)) : LockedOnce w w' := by
  unfold vfs_read at h
  dsimp only at h
  split at h
  · cases h
    exact lockedOnce_fail _ rfl
  · split at h
    · cases h
      exact lockedOnce_unlock rfl
    · obtain ⟨current, -, h⟩ := Option.bind_eq_some_iff.mp h
      split at h
      · cases h
        exact lockedOnce_fail _ rfl
      · obtain ⟨read, -, h⟩ := Option.map_eq_some_iff.mp h
        cases h
        exact lockedOnce_unlock rfl

theorem vfs_write_mutex {buf : List Byte} (h : vfs_write fd buf tm stray w = some (w', r)) : LockedOnce w w' := by
  unfold vfs_write at h
  dsimp only at h
  by_cases hopen : isOpen w.lock fd 2
  · rw [if_neg (not_not.mpr hopen)] at h
    obtain ⟨⟨fat, firstCluster, room⟩, -, h⟩ := Option.bind_eq_some_iff.mp h
    dsimp only at h
    split_ifs at h
    · obtain ⟨current, -, h⟩ := Option.bind_eq_some_iff.mp h
      split_ifs at h
      · cases h
        exact lockedOnce_fail _ rfl
      · obtain ⟨⟨mem, bytesWritten, offset⟩, -, h⟩ := Option.bind_eq_some_iff.mp h
        dsimp only at h
        split_ifs at h
        · obtain ⟨entry, -, h⟩ := Option.map_eq_some_iff.mp h
          cases h
          exact lockedOnce_unlock rfl
        · cases h
          exact lockedOnce_unlock rfl
    · cases h
      exact lockedOnce_fail _ rfl
  · rw [if_pos hopen] at h
    cases h
    exact lockedOnce_fail _ rfl

theorem removeEntry_mutex {v : World} {a : ℕ} (hv : v.mutex = w.lock.mutex) (h : removeEntry v a = some (w', r)) :
    LockedOnce w w' := by
  obtain ⟨fat, -, h⟩ := Option.map_eq_some_iff.mp h
  cases h
  exact lockedOnce_unlock hv

theorem vfs_unlink_mutex (h : vfs_unlink path stray w = some (w', r)) : LockedOnce w w' := by
  obtain ⟨entry, -, h⟩ := Option.bind_eq_some_iff.mp h
  split at h
  · cases h
    exact lockedOnce_fail _ rfl
  · split_ifs at h
    · cases h
      exact lockedOnce_fail _ rfl
    · exact removeEntry_mutex rfl h

theorem vfs_mkdir_mutex (h : vfs_mkdir path tm w = some (w', r)) : LockedOnce w w' := by
  obtain ⟨made, -, h⟩ := Option.map_eq_some_iff.mp h
  split at h
  · cases h
    exact lockedOnce_fail _ rfl
  · cases h
    exact lockedOnce_unlock rfl

theorem vfs_rmdir_mutex (h : vfs_rmdir path stray w = some (w', r)) : LockedOnce w w' := by
  obtain ⟨root, -, h⟩ := Option.bind_eq_some_iff.mp h
  split_ifs at h
  · cases h
    exact lockedOnce_fail _ rfl
  · obtain ⟨entry, -, h⟩ := Option.bind_eq_some_iff.mp h
    split at h
    · cases h
      exact lockedOnce_fail _ rfl
    · split_ifs at h
      · cases h
        exact lockedOnce_fail _ rfl
      · exact removeEntry_mutex rfl h
      · cases h
        exact lockedOnce_fail _ rfl

theorem vfs_opendir_mutex {r : Option ℕ} (h : vfs_opendir path stray w = some (w', r)) : LockedOnce w w' := by
  obtain ⟨entry, -, h⟩ := Option.bind_eq_some_iff.mp h
  obtain ⟨cluster, -, h⟩ := Option.map_eq_some_iff.mp h
  split at h
  · cases h
    exact lockedOnce_fail _ rfl
  · split at h
    · cases h
      exact lockedOnce_fail _ rfl
    · cases h
      exact lockedOnce_unlock rfl

theorem vfs_readdir_mutex {r : Option Dirent} (h : vfs_readdir dirp w = some (w', r)) : LockedOnce w w' := by
  unfold vfs_readdir at h
  dsimp only at h
  cases dirp with
  | none =>
    cases h
    exact lockedOnce_fail _ rfl
  | some i =>
    dsimp only at h
    split at h
    · cases h
    · split at h
      · cases h
        exact lockedOnce_fail _ rfl
      · split at h
        · split at h
          · cases h
            exact lockedOnce_unlock rfl
          · cases h
            exact lockedOnce_unlock rfl
        · cases h

theorem vfs_closedir_mutex (h : vfs_closedir dirp w = some (w', r)) : LockedOnce w w' := by
  unfold vfs_closedir at h
  dsimp only at h
  cases dirp with
  | none =>
    cases h
    exact lockedOnce_fail _ rfl
  | some i =>
    dsimp only at h
    split at h
    · cases h
    · split at h
      · cases h
        exact lockedOnce_fail _ rfl
      · cases h
        exact lockedOnce_unlock rfl

theorem vfs_stat_mutex {mktime : ℤ × ℤ × ℕ × ℕ × ℕ × ℕ → ℤ} {statbuf : Bool} {now : ℤ} {st : Option Stat}
    (h : vfs_stat mktime path statbuf now stray w = some (w', r, st)) : LockedOnce w w' := by
  unfold vfs_stat at h
  dsimp only at h
  split at h
  · cases h
    exact lockedOnce_fail _ rfl
  · obtain ⟨entry, -, h⟩ := Option.bind_eq_some_iff.mp h
    cases entry with
    | none =>
      obtain ⟨root, -, h⟩ := Option.map_eq_some_iff.mp h
      split at h
      · cases h
        exact lockedOnce_unlock rfl
      · cases h
        exact lockedOnce_fail _ rfl
    | some entry =>
      cases h
      exact lockedOnce_unlock rfl

theorem vfs_flush_mutex (unused : ℕ → Byte) (written : ℕ) (w : World) : LockedOnce w (vfs_flush unused written w).1 := by
  unfold vfs_flush
  dsimp only
  split_ifs
  · exact lockedOnce_unlock rfl
  · exact lockedOnce_fail _ rfl
  · exact lockedOnce_fail _ rfl
  · exact lockedOnce_unlock rfl

/-- With an image to load, `vfs_mount` locks once. -/
theorem vfs_mount_mutex (h : (selected w.flash).isSome) : LockedOnce w (vfs_mount w).1 := by
  obtain ⟨i, hi⟩ := Option.isSome_iff_exists.mp h
  unfold vfs_mount
  dsimp only [World.lock]
  rw [hi]
  exact lockedOnce_unlock rfl

/-- Without one it calls `vfs_init`, which locks again. -/
theorem vfs_mount_mutex_of_none (h : selected w.flash = none) :
    (vfs_mount w).1.mutex = w.mutex ++ [.lock, .lock, .unlock, .unlock] := by
  unfold vfs_mount
  dsimp only [World.lock]
  rw [h]
  simp [vfs_init, World.lock, World.unlock]

end

/-- Every call but `vfs_mount` locks and unlocks once. -/
theorem Call.run_mutex {c : Call} {w w' : World} (hmount : c ≠ .mount) (h : c.run w = some w') : LockedOnce w w' := by
  cases c with
  | mount => exact absurd rfl hmount
  | init =>
    cases h
    exact lockedOnce_unlock rfl
  | flush unused written =>
    cases h
    exact vfs_flush_mutex unused written w
  | close fd =>
    cases h
    exact vfs_close_mutex fd w
  | «open» path mode stray =>
    obtain ⟨_, hcall, rfl⟩ := Option.map_eq_some_iff.mp h
    exact vfs_open_mutex hcall
  | read fd count =>
    obtain ⟨_, hcall, rfl⟩ := Option.map_eq_some_iff.mp h
    exact vfs_read_mutex hcall
  | write fd buf tm stray =>
    obtain ⟨_, hcall, rfl⟩ := Option.map_eq_some_iff.mp h
    exact vfs_write_mutex hcall
  | unlink path stray =>
    obtain ⟨_, hcall, rfl⟩ := Option.map_eq_some_iff.mp h
    exact vfs_unlink_mutex hcall
  | mkdir path tm =>
    obtain ⟨_, hcall, rfl⟩ := Option.map_eq_some_iff.mp h
    exact vfs_mkdir_mutex hcall
  | rmdir path stray =>
    obtain ⟨_, hcall, rfl⟩ := Option.map_eq_some_iff.mp h
    exact vfs_rmdir_mutex hcall
  | opendir path stray =>
    obtain ⟨_, hcall, rfl⟩ := Option.map_eq_some_iff.mp h
    exact vfs_opendir_mutex hcall
  | readdir dirp =>
    obtain ⟨_, hcall, rfl⟩ := Option.map_eq_some_iff.mp h
    exact vfs_readdir_mutex hcall
  | closedir dirp =>
    obtain ⟨_, hcall, rfl⟩ := Option.map_eq_some_iff.mp h
    exact vfs_closedir_mutex hcall
  | stat mktime path statbuf now stray =>
    obtain ⟨_, hcall, rfl⟩ := Option.map_eq_some_iff.mp h
    exact vfs_stat_mutex hcall

/-! ## Runs -/

/-- What a call does to the mutex is disciplined. -/
def CallDisciplined (w w' : World) : Prop := ∃ events, w'.mutex = w.mutex ++ events ∧ Disciplined events

/-- A mount of a flash without an image to load -/
def MountsNothing (c : Call) (w : World) : Prop := c = .mount ∧ selected w.flash = none

theorem callDisciplined_iff {c : Call} {w w' : World} (h : c.run w = some w') :
    CallDisciplined w w' ↔ ¬ MountsNothing c w := by
  constructor
  · intro hdisciplined hmount
    obtain ⟨events, hevents, hdisciplined⟩ := hdisciplined
    obtain ⟨rfl, hnone⟩ := hmount
    cases h
    rw [vfs_mount_mutex_of_none hnone] at hevents
    obtain rfl := List.append_cancel_left hevents
    exact absurd hdisciplined (by decide : ¬ held false [.lock, .lock, .unlock, .unlock] = some false)
  · intro hnot
    have honce : LockedOnce w w' := by
      by_cases hmount : c = .mount
      · subst hmount
        cases h
        exact vfs_mount_mutex (Option.isSome_iff_ne_none.mpr fun hnone => hnot ⟨rfl, hnone⟩)
      · exact Call.run_mutex hmount h
    exact ⟨[.lock, .unlock], honce, (by decide : held false [.lock, .unlock] = some false)⟩

/-- Each call of a run that returns has a property of the state it finds and the state it leaves. -/
def EachCall (P : Call → World → World → Prop) : World → List Call → Prop
  | _, [] => True
  | w, c :: calls => ∀ w', c.run w = some w' → P c w w' ∧ EachCall P w' calls

/-- A run is disciplined, call by call, exactly when it never mounts a flash without an image to load. -/
theorem eachCall_disciplined_iff (w : World) (calls : List Call) :
    EachCall (fun _ w w' => CallDisciplined w w') w calls ↔ EachCall (fun c w _ => ¬ MountsNothing c w) w calls := by
  induction calls generalizing w with
  | nil => exact Iff.rfl
  | cons c calls ih => exact forall₂_congr fun w' h => and_congr (callDisciplined_iff h) (ih w')

/-- `vfs_mount` of an erased flash locks the mutex twice. -/
theorem mount_locks_twice : ∃ w', Call.run .mount (World.start fun _ => 0xFF) = some w' ∧
    w'.mutex = [.lock, .lock, .unlock, .unlock] ∧
    ¬ EachCall (fun _ w w' => CallDisciplined w w') (World.start fun _ => 0xFF) [.mount] := by
  have hnone : selected (World.start fun _ => 0xFF).flash = none := by decide
  refine ⟨_, rfl, vfs_mount_mutex_of_none hnone, fun h => ?_⟩
  exact (callDisciplined_iff rfl).mp (h _ rfl).1 ⟨rfl, hnone⟩

end ValidcTools.Fat16
