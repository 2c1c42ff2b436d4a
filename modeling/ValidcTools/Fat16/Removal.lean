import ValidcTools.Fat16.Listing

/-! What `vfs_rmdir` and `vfs_unlink` remove, and what can be used again afterwards. -/
namespace ValidcTools.Fat16

open Memory

/-! ## What a path names -/

section
variable (mem : ℕ → Byte)

/-- The first live entry with this name in the directory in cluster `c` -/
def liveEntry (c : ℕ) (name : List Byte) : Option ℕ :=
  ((List.range (entriesPerDir c)).find? fun j => live mem (slot c j) && nameIs mem (slot c j) name).map (slot c)

/-- The directory that an entry stands for -/
def directoryAt (a : ℕ) : Option ℕ :=
  if isDir mem a ∧ inData (entryFirstCluster mem a) then some (entryFirstCluster mem a) else none

/-- The directory that these components name, from the root on -/
def resolve (cs : List (List Byte)) : Option ℕ :=
  cs.foldlM (fun c component => (liveEntry mem c component).bind (directoryAt mem)) 0

/-- The path names a directory that is not the root and has no live entry besides "." and "..". -/
def NamesEmptyDir (path : Option Path) : Prop :=
  ∃ cs d, path.bind components = some cs ∧ cs ≠ [] ∧ resolve mem cs = some d ∧ children mem d = []

end

section
variable (path : Option Path) (stray : List Byte) (w : World)

/-! ## What removals should do -/

/-- `vfs_rmdir` succeeds exactly when its path names an empty directory. -/
def RmdirRight : Prop := (∃ w', vfs_rmdir path stray w = some (w', 0)) ↔ NamesEmptyDir w.vfs.mem path

/-- The slot of the entry that the path leads to, and the clusters of its chain, can be used again. -/
def Freed (w' : World) : Prop := ∀ a c, findEntry w.vfs.mem path stray false = some (some (a, c)) →
  isFree w'.vfs.mem a ∧
    ∀ n k, skip w.vfs.fat n (entryFirstCluster w.vfs.mem a) = some k → k ≠ LAST → w'.vfs.fat k = 0

def RmdirFrees : Prop := ∀ w', vfs_rmdir path stray w = some (w', 0) → Freed path stray w w'

def UnlinkFrees : Prop := ∀ w', vfs_unlink path stray w = some (w', 0) → Freed path stray w w'

/-- A new entry finds no space only in a directory whose slots are all live, or when no cluster is free. -/
def CreatesInFree : Prop := ∀ attributes, createEntry w.vfs path stray attributes = some (.error .enospc) →
  ∀ a c, findEntry w.vfs.mem path stray true = some (some (a, c)) →
    (∀ i < entriesPerDir c, live w.vfs.mem (slot c i)) ∨ freeCluster w.vfs.fat = none

/-! ## When they do it -/

/-- `findEntry` finds a file, and its chain has an end. -/
def FindsFile : Prop := ∃ a c, findEntry w.vfs.mem path stray false = some (some (a, c)) ∧ ¬ isDir w.vfs.mem a ∧
  (freeChain steps w.vfs.fat (entryFirstCluster w.vfs.mem a)).isSome

/-- `findEntry` finds a directory, whose chain has an end, in a directory with no slot from the third on that has ever
been used. -/
def FindsDir : Prop := isRoot path = some false ∧
  ∃ a c, findEntry w.vfs.mem path stray false = some (some (a, c)) ∧ isDir w.vfs.mem a ∧
    (∀ i ∈ List.range' 2 (entriesPerDir c - 2), isFree w.vfs.mem (slot c i)) ∧
    (freeChain steps w.vfs.fat (entryFirstCluster w.vfs.mem a)).isSome

/-- The directory for a new entry has a slot that has never been used, or only live ones, or it has an entry with the
name already, the name is too long, or no cluster is free. -/
def HasRoom : Prop := ∀ p a c, path = some p → findEntry w.vfs.mem path stray true = some (some (a, c)) →
  (lastComponent p).length ≤ 11 → findName w.vfs.mem c (lastComponent p) = none → (freeCluster w.vfs.fat).isSome →
    (∃ i < entriesPerDir c, w.vfs.mem (slot c i) = 0) ∨ ∀ i < entriesPerDir c, live w.vfs.mem (slot c i)

end

section
variable {path : Option Path} {stray : List Byte} {w w' : World}

/-! ## Success -/

theorem fail_ne {e : Errno} : w.fail e ≠ (w', 0) := fun h => absurd (congrArg Prod.snd h) (by decide : (-1 : ℤ) ≠ 0)

theorem removeEntry_eq_some_iff {a : ℕ} : (∃ w', removeEntry w a = some (w', 0)) ↔
    (freeChain steps w.vfs.fat (entryFirstCluster w.vfs.mem a)).isSome := by
  unfold removeEntry
  cases freeChain steps w.vfs.fat (entryFirstCluster w.vfs.mem a) with
  | none => simp
  | some fat => simp

/-- The mark of a removed entry is not one of a free slot. -/
theorem removeEntry_not_free {a : ℕ} (h : removeEntry w a = some (w', 0)) : ¬ isFree w'.vfs.mem a := by
  obtain ⟨fat, -, hw'⟩ := Option.map_eq_some_iff.mp h
  cases hw'
  have hmark : store w.vfs.mem a [0xE5] a = 0xE5 := store_of_inside (k := 0) (by simp)
  change ¬ isFree (store w.vfs.mem a [0xE5]) a
  rw [isFree_eq, hmark]
  decide

/-- A successful `vfs_unlink` removes the entry that `findEntry` finds. -/
theorem vfs_unlink_eq_some {r : ℤ} (hr : r = 0) (h : vfs_unlink path stray w = some (w', r)) :
    ∃ a c, findEntry w.vfs.mem path stray false = some (some (a, c)) ∧ ¬ isDir w.vfs.mem a ∧
      removeEntry w.lock a = some (w', 0) := by
  subst hr
  obtain ⟨entry, hentry, h⟩ := Option.bind_eq_some_iff.mp h
  cases entry with
  | none => exact absurd (Option.some.inj h) fail_ne
  | some entry =>
    obtain ⟨a, c⟩ := entry
    dsimp only at h
    split_ifs at h with hdir
    · exact absurd (Option.some.inj h) fail_ne
    · exact ⟨a, c, hentry, hdir, h⟩

theorem vfs_unlink_eq_some_iff : (∃ w', vfs_unlink path stray w = some (w', 0)) ↔ FindsFile path stray w := by
  constructor
  · intro h
    obtain ⟨w', h⟩ := h
    obtain ⟨a, c, hentry, hdir, hremove⟩ := vfs_unlink_eq_some rfl h
    exact ⟨a, c, hentry, hdir, (removeEntry_eq_some_iff (w := w.lock)).mp ⟨w', hremove⟩⟩
  · intro h
    obtain ⟨a, c, hentry, hdir, hchain⟩ := h
    rw [vfs_unlink, World.lock_vfs, hentry, Option.bind_some]
    dsimp only
    rw [if_neg hdir]
    exact (removeEntry_eq_some_iff (w := w.lock)).mpr hchain

/-- A successful `vfs_rmdir` removes the entry that `findEntry` finds. -/
theorem vfs_rmdir_eq_some {r : ℤ} (hr : r = 0) (h : vfs_rmdir path stray w = some (w', r)) :
    isRoot path = some false ∧ ∃ a c, findEntry w.vfs.mem path stray false = some (some (a, c)) ∧ isDir w.vfs.mem a ∧
      (∀ i ∈ List.range' 2 (entriesPerDir c - 2), isFree w.vfs.mem (slot c i)) ∧ removeEntry w.lock a = some (w', 0) := by
  subst hr
  obtain ⟨root, hroot, h⟩ := Option.bind_eq_some_iff.mp h
  cases root with
  | true => exact absurd (Option.some.inj h) fail_ne
  | false =>
    obtain ⟨entry, hentry, h⟩ := Option.bind_eq_some_iff.mp h
    cases entry with
    | none => exact absurd (Option.some.inj h) fail_ne
    | some entry =>
      obtain ⟨a, c⟩ := entry
      dsimp only at h
      split at h
      · exact absurd (Option.some.inj h) fail_ne
      · rename_i hdir
        split at h
        · exact absurd (Option.some.inj h) fail_ne
        · rename_i hempty
          refine ⟨hroot, a, c, hentry, not_not.mp hdir, fun i hi => ?_, h⟩
          by_contra hused
          rw [World.lock_vfs] at hempty
          exact hempty (List.any_eq_true.mpr ⟨i, hi, by rw [Bool.eq_false_of_not_eq_true hused]; rfl⟩)

theorem vfs_rmdir_eq_some_iff : (∃ w', vfs_rmdir path stray w = some (w', 0)) ↔ FindsDir path stray w := by
  constructor
  · intro h
    obtain ⟨w', h⟩ := h
    obtain ⟨hroot, a, c, hentry, hdir, hunused, hremove⟩ := vfs_rmdir_eq_some rfl h
    exact ⟨hroot, a, c, hentry, hdir, hunused, (removeEntry_eq_some_iff (w := w.lock)).mp ⟨w', hremove⟩⟩
  · intro h
    obtain ⟨hroot, a, c, hentry, hdir, hunused, hchain⟩ := h
    have hany : ((List.range' 2 (entriesPerDir c - 2)).any fun i => !isFree w.vfs.mem (slot c i)) = false := by
      refine List.any_eq_false.mpr fun i hi => ?_
      rw [hunused i hi]
      exact Bool.false_ne_true
    rw [vfs_rmdir, hroot, Option.bind_some, if_neg Bool.false_ne_true, World.lock_vfs, hentry, Option.bind_some]
    dsimp only
    rw [if_neg (not_not.mpr hdir), hany, if_neg Bool.false_ne_true]
    exact (removeEntry_eq_some_iff (w := w.lock)).mpr hchain

/-! ## New entries -/

theorem freeSlot_eq_none_iff {mem : ℕ → Byte} {c : ℕ} :
    freeSlot mem c = none ↔ ∀ i < entriesPerDir c, mem (slot c i) ≠ 0 := by
  rw [freeSlot, List.find?_eq_none]
  simp only [List.mem_range, isFree_eq, decide_eq_true_eq]

/-- There is no space in a directory without a free slot, and when no cluster is free. -/
theorem createEntry_eq_enospc_iff (attributes : ℕ) {a c : ℕ} {p : Path}
    (hparent : findEntry w.vfs.mem (some p) stray true = some (some (a, c))) :
    createEntry w.vfs (some p) stray attributes = some (.error .enospc) ↔ (lastComponent p).length ≤ 11 ∧
      findName w.vfs.mem c (lastComponent p) = none ∧ (freeSlot w.vfs.mem c = none ∨ freeCluster w.vfs.fat = none) := by
  rw [createEntry, hparent, Option.map_some]
  dsimp only
  by_cases hlen : 11 < (lastComponent p).length
  · rw [if_pos hlen]
    simp [hlen]
  · rw [if_neg hlen]
    cases hname : findName w.vfs.mem c (lastComponent p) with
    | some j => simp
    | none =>
      rw [if_neg (by simp)]
      cases hslot : freeSlot w.vfs.mem c with
      | none => simpa using hlen
      | some i =>
        cases hcluster : freeCluster w.vfs.fat with
        | none => simpa using hlen
        | some k => simp

theorem createsInFree_iff : CreatesInFree path stray w ↔ HasRoom path stray w := by
  constructor
  · intro h p a c hp hparent hlen hname hcluster
    subst hp
    by_contra hroom
    obtain ⟨hzero, hlive⟩ := not_or.mp hroom
    have hslot : freeSlot w.vfs.mem c = none := freeSlot_eq_none_iff.mpr fun i hi h0 => hzero ⟨i, hi, h0⟩
    have hspace := (createEntry_eq_enospc_iff 0x20 hparent).mpr ⟨hlen, hname, .inl hslot⟩
    obtain hall | hnone := h 0x20 hspace a c hparent
    · exact hlive hall
    · rw [hnone] at hcluster
      cases hcluster
  · intro h attributes hspace a c hparent
    cases path with
    | none => cases hparent
    | some p =>
      obtain ⟨hlen, hname, hnone⟩ := (createEntry_eq_enospc_iff attributes hparent).mp hspace
      cases hcluster : freeCluster w.vfs.fat with
      | none => exact .inr rfl
      | some k =>
        have hslot := freeSlot_eq_none_iff.mp (hnone.resolve_right (by rw [hcluster]; exact Option.some_ne_none k))
        obtain ⟨i, hi, hzero⟩ | hall := h p a c rfl hparent hlen hname (by rw [hcluster]; rfl)
        · exact absurd hzero (hslot i hi)
        · exact .inl hall

theorem not_rmdirFrees_of_finds (h : FindsDir path stray w) : ¬ RmdirFrees path stray w := by
  intro hfrees
  obtain ⟨w', hcall⟩ := vfs_rmdir_eq_some_iff.mpr h
  obtain ⟨-, a, c, hentry, -, -, hremove⟩ := vfs_rmdir_eq_some rfl hcall
  exact removeEntry_not_free hremove (hfrees w' hcall a c hentry).1

theorem unlinkFrees_iff : UnlinkFrees path stray w ↔ ¬ FindsFile path stray w := by
  constructor
  · intro hfrees h
    obtain ⟨w', hcall⟩ := vfs_unlink_eq_some_iff.mpr h
    obtain ⟨a, c, hentry, -, hremove⟩ := vfs_unlink_eq_some rfl hcall
    exact removeEntry_not_free hremove (hfrees w' hcall a c hentry).1
  · intro h w' hcall
    exact absurd (vfs_unlink_eq_some_iff.mp ⟨w', hcall⟩) h

end

/-- Removals and new entries do what they should on a path exactly when there is nothing on it to remove, and room for
an entry. -/
theorem removals_iff (path : Option Path) (stray : List Byte) (w : World) :
    RmdirRight path stray w ∧ RmdirFrees path stray w ∧ UnlinkFrees path stray w ∧ CreatesInFree path stray w ↔
      ¬ NamesEmptyDir w.vfs.mem path ∧ ¬ FindsDir path stray w ∧ ¬ FindsFile path stray w ∧ HasRoom path stray w := by
  rw [unlinkFrees_iff, createsInFree_iff, RmdirRight, vfs_rmdir_eq_some_iff]
  constructor
  · intro h
    obtain ⟨hright, hfrees, hunlink, hroom⟩ := h
    have hnone : ¬ FindsDir path stray w := fun hfinds => not_rmdirFrees_of_finds hfinds hfrees
    exact ⟨fun hnames => hnone (hright.mpr hnames), hnone, hunlink, hroom⟩
  · intro h
    obtain ⟨hnames, hnone, hunlink, hroom⟩ := h
    refine ⟨iff_of_false hnone hnames, fun w' hcall => ?_, hunlink, hroom⟩
    exact absurd (vfs_rmdir_eq_some_iff.mp ⟨w', hcall⟩) hnone

/-- `vfs_mkdir("/a")`, then `vfs_rmdir("/a")` -/
theorem rmdir_finds_nothing : ∃ w, vfs_mkdir (some ⟨.lit "/a", []⟩) none (World.start fun _ => 0xFF) = some (w, 0) ∧
    (vfs_rmdir (some ⟨.lit "/a", []⟩) [] w).map (·.2) = some (-1) ∧ ¬ RmdirRight (some ⟨.lit "/a", []⟩) [] w := by
  have hrun : (vfs_mkdir (some ⟨.lit "/a", []⟩) none (World.start fun _ => 0xFF)).map (fun x =>
      (x.2, (vfs_rmdir (some ⟨.lit "/a", []⟩) [] x.1).map (·.2), resolve x.1.vfs.mem [[(('a' : Char) : Byte)]],
        children x.1.vfs.mem 2)) =
        some (0, some (-1), some 2, []) := by
    decide
  obtain ⟨⟨w, r⟩, hmkdir, h⟩ := Option.map_eq_some_iff.mp hrun
  obtain rfl := congrArg Prod.fst h
  have hcall := congrArg (·.2.1) h
  refine ⟨w, hmkdir, hcall, fun hright => ?_⟩
  obtain ⟨w', hsuccess⟩ := hright.mpr
    ⟨_, 2, (by decide : (some ⟨.lit "/a", []⟩ : Option Path).bind components = some [[(('a' : Char) : Byte)]]),
      List.cons_ne_nil _ _, congrArg (·.2.2.1) h, congrArg (·.2.2.2) h⟩
  dsimp only at hcall
  rw [hsuccess] at hcall
  cases hcall

end ValidcTools.Fat16
