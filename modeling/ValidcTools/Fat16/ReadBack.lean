import ValidcTools.Fat16.Calls
import ValidcTools.Fat16.Flash

/-! What becomes of a file between the call that creates it and the next one that opens it. -/
namespace ValidcTools.Fat16

open Bytes Memory

/-! ## Paths -/

/-- The byte of a slash -/
def slash : Byte := ('/' : Char)

/-- A path of at most four components, each of at most 11 bytes: the string is followed by a NUL, or has all four. -/
structure ValidPath (path : Path) (init : List (List Byte)) (last : List Byte) : Prop where
  text : path.text.bytes = (init ++ [last]).flatMap (slash :: ·)
  depth : init.length < MAX_DEPTH
  component : ∀ c ∈ init ++ [last], c ≠ [] ∧ c.length ≤ 11 ∧ slash ∉ c
  after : init.length + 1 = MAX_DEPTH ∨ path.after.headD 0 = 0

section
variable {path : Path} {init : List (List Byte)} {last : List Byte}

theorem ValidPath.nulFree (h : ValidPath path init last) {c : List Byte} (hc : c ∈ init ++ [last]) : (0 : Byte) ∉ c := by
  intro h0
  refine path.text.nulFree ?_
  rw [h.text]
  exact List.mem_flatMap.mpr ⟨c, hc, List.mem_cons_of_mem _ h0⟩

/-- Components, each behind a slash, are found one by one. -/
theorem componentsFrom_eq {n : ℕ} {c : List Byte} {cs : List (List Byte)} {after : List Byte} (hlen : cs.length < n)
    (hvalid : ∀ d ∈ c :: cs, d ≠ [] ∧ d.length ≤ 11 ∧ slash ∉ d ∧ (0 : Byte) ∉ d)
    (hafter : cs.length + 1 = n ∨ after.headD 0 = 0) :
    componentsFrom n (c ++ (cs.flatMap (slash :: ·) ++ 0 :: after)) = some (c :: cs) := by
  induction n generalizing c cs with
  | zero => exact absurd hlen (Nat.not_lt_zero _)
  | succ n ih =>
    obtain ⟨hne, hshort, hslash, hnul⟩ := hvalid c List.mem_cons_self
    have hhead : (c ++ (cs.flatMap (slash :: ·) ++ 0 :: after)).headD 0 ≠ 0 := by
      obtain ⟨b, c, rfl⟩ := List.exists_cons_of_ne_nil hne
      exact fun h0 => hnul (h0 ▸ List.mem_cons_self)
    have htake : (c ++ (cs.flatMap (slash :: ·) ++ 0 :: after)).takeWhile (fun b : Byte => b ≠ ('/' : Char) ∧ b ≠ 0) = c := by
      rw [List.takeWhile_append_of_pos fun b hb => by
        simpa using ⟨ne_of_mem_of_not_mem hb hslash, ne_of_mem_of_not_mem hb hnul⟩]
      cases cs with
      | nil => simp
      | cons d cs => simp [slash]
    rw [componentsFrom, if_neg hhead]
    dsimp only
    rw [htake, if_neg (not_lt.mpr hshort), ← List.drop_drop, List.drop_left]
    cases cs with
    | nil =>
      have hrest : componentsFrom n after = some [] := by
        obtain hn | hn := hafter
        · obtain rfl : n = 0 := by simpa using hn.symm
          rfl
        · cases n with
          | zero => rfl
          | succ n => rw [componentsFrom, if_pos hn]
      rw [List.flatMap_nil, List.nil_append, List.drop_succ_cons, List.drop_zero, hrest, Option.map_some]
    | cons d cs =>
      have hrest := ih (Nat.lt_of_succ_lt_succ hlen) (fun e he => hvalid e (List.mem_cons_of_mem c he))
        (hafter.imp_left Nat.succ.inj)
      rw [List.flatMap_cons, List.cons_append, List.cons_append, List.drop_succ_cons, List.drop_zero, List.append_assoc, hrest,
        Option.map_some]

theorem ValidPath.components (h : ValidPath path init last) : components path = some (init ++ [last]) := by
  have hvalid (d : List Byte) (hd : d ∈ init ++ [last]) : d ≠ [] ∧ d.length ≤ 11 ∧ slash ∉ d ∧ (0 : Byte) ∉ d :=
    ⟨(h.component d hd).1, (h.component d hd).2.1, (h.component d hd).2.2, h.nulFree hd⟩
  obtain ⟨c, cs, hcs⟩ := List.exists_cons_of_ne_nil (List.append_ne_nil_of_right_ne_nil init (List.cons_ne_nil last []))
  have hlen : cs.length = init.length := by
    have := congrArg List.length hcs
    simpa using this.symm
  rw [hcs] at hvalid ⊢
  rw [Fat16.components, CString.get, h.text, hcs, List.flatMap_cons, List.cons_append, List.getD_cons_zero,
    if_pos (show slash = ('/' : Char) from rfl), List.drop_succ_cons, List.drop_zero, List.append_assoc]
  exact componentsFrom_eq (hlen ▸ h.depth) hvalid (hlen ▸ h.after)

theorem ValidPath.lastComponent (h : ValidPath path init last) : lastComponent path = last := by
  have hslash : slash ∉ last := (h.component last (List.mem_append_right _ List.mem_cons_self)).2.2
  rw [Fat16.lastComponent, h.text, List.flatMap_append, List.flatMap_cons, List.flatMap_nil, List.append_nil, List.reverse_append,
    List.reverse_cons, List.append_assoc, List.takeWhile_append_of_pos fun b hb => by
      simpa [slash] using ne_of_mem_of_not_mem (List.mem_reverse.mp hb) hslash]
  simp [slash]

end

/-! ## A new file in memory -/

section
variable {mem mem' : ℕ → Byte} {a b c : ℕ} {name : List Byte}

/-- Two slots are the same, or apart. -/
theorem slot_apart {c c' i j : ℕ} (h : slot c i ≠ slot c' j) : slot c i + 32 ≤ slot c' j ∨ slot c' j + 32 ≤ slot c i := by
  unfold slot CLUSTER_SIZE at *
  omega

/-- Nothing but the entry at `a` has changed. -/
def OnlyEntry (mem mem' : ℕ → Byte) (a : ℕ) : Prop := ∀ k, k < a ∨ a + 32 ≤ k → mem' k = mem k

section
variable (h : OnlyEntry mem mem' a) (hb : b + 32 ≤ a ∨ a + 32 ≤ b)
include h hb

theorem OnlyEntry.load {k w : ℕ} (hk : k + w ≤ 32) : load mem' (b + k) w = load mem (b + k) w := by
  unfold Memory.load
  rw [bytesAt_congr fun i hi => h _ (by omega)]

theorem OnlyEntry.entryName : entryName mem' b = entryName mem b := bytesAt_congr fun i hi => h _ (by omega)

theorem OnlyEntry.isFree : isFree mem' b = isFree mem b := by
  rw [Fat16.isFree, Fat16.isFree, h b (by omega)]

theorem OnlyEntry.nameIs : nameIs mem' b name = nameIs mem b name := by
  rw [Fat16.nameIs, Fat16.nameIs, h.entryName hb]

theorem OnlyEntry.isDir : isDir mem' b = isDir mem b := by
  rw [Fat16.isDir, Fat16.isDir, entryAttributes, entryAttributes, h.load hb (by omega)]

end

/-- An entry that was free and is no directory now is not found as one. -/
theorem findDir_newFile {i : ℕ} (h : OnlyEntry mem mem' (slot c i)) (hfree : isFree mem (slot c i))
    (hfile : isDir mem' (slot c i) = false) (c' : ℕ) (name : List Byte) : findDir mem' c' name = findDir mem c' name := by
  have hsame (j : ℕ) : (!isFree mem' (slot c' j) && (nameIs mem' (slot c' j) name && isDir mem' (slot c' j))) =
      (!isFree mem (slot c' j) && (nameIs mem (slot c' j) name && isDir mem (slot c' j))) := by
    by_cases hj : slot c' j = slot c i
    · rw [hj, hfile, hfree]
      simp
    · have hapart := slot_apart hj
      rw [h.isFree hapart, h.nameIs hapart, h.isDir hapart]
  rw [findDir, findDir, funext hsame]

theorem walk_newFile {i : ℕ} (h : OnlyEntry mem mem' (slot c i)) (hfree : isFree mem (slot c i))
    (hfile : isDir mem' (slot c i) = false) (c₀ : ℕ) (cs : List (List Byte)) : walk mem' c₀ cs = walk mem c₀ cs := by
  induction cs generalizing c₀ with
  | nil => rfl
  | cons name cs ih =>
    rw [walk, walk, findDir_newFile h hfree hfile]
    cases hfind : findDir mem c₀ name with
    | none => rfl
    | some j =>
      have hj : slot c₀ j ≠ slot c i := by
        intro hj
        have hused := List.find?_some hfind
        rw [hj, hfree] at hused
        cases hused
      have hcluster : entryFirstCluster mem' (slot c₀ j) = entryFirstCluster mem (slot c₀ j) :=
        h.load (slot_apart hj) (by omega)
      dsimp only
      rw [hcluster]
      split_ifs
      · exact ih _
      · rfl

end

/-! ## Creating a file -/

/-- The descriptor that `vfs_open` takes -/
def freeDescriptor (vfs : FAT16VFS) : Option ℕ := (List.range MAX_OPEN_FILES).find? fun j => !(vfs.openFiles j).used

/-- The state in which `vfs_open` can make a new file: the parent exists and has no entry with the name, and a slot, a
cluster and a descriptor are free. -/
structure CanCreate (w : World) (init : List (List Byte)) (last : List Byte) (c i k fd : ℕ) : Prop where
  parent : walk w.vfs.mem 0 init = some (some c)
  absent : findName w.vfs.mem c last = none
  slot : freeSlot w.vfs.mem c = some i
  cluster : freeCluster w.vfs.fat = some k
  descriptor : freeDescriptor w.vfs = some fd

/-- The memory with the new entry -/
def newFile (mem : ℕ → Byte) (a k : ℕ) (name : List Byte) : ℕ → Byte :=
  setFirstCluster (setSize (setAttributes (setName mem a name) a 0x20) a 0) a k

section
variable {mem : ℕ → Byte} {a k c : ℕ} {name : List Byte} {w w' : World} {path : Path} {init : List (List Byte)}
  {last : List Byte} {stray : List Byte}

theorem onlyEntry_newFile (mem : ℕ → Byte) (a k : ℕ) (name : List Byte) : OnlyEntry mem (newFile mem a k name) a := by
  intro j hj
  have hlen : ((cut name ++ List.replicate 11 0).take 11).length ≤ 11 := List.length_take_le ..
  rw [newFile, setFirstCluster, setSize, setAttributes, setName, store_of_outside (by rw [length_ofNat]; omega),
    store_of_outside (by rw [length_ofNat]; omega), store_of_outside (by rw [length_ofNat]; omega), store_of_outside (by omega)]

theorem isDir_newFile : isDir (newFile mem a k name) a = false := by
  have hattributes : entryAttributes (newFile mem a k name) a = 0x20 := by
    rw [entryAttributes, newFile, setFirstCluster, setSize, load_store_of_outside (by rw [length_ofNat]; omega),
      load_store_of_outside (by rw [length_ofNat]; omega), setAttributes, load_store_ofNat]
    rfl
  rw [isDir, hattributes]
  rfl

/-- In a directory without an entry of this name no directory of this name is found. -/
theorem findDir_eq_none (h : findName mem c name = none) : findDir mem c name = none := by
  refine List.find?_eq_none.mpr fun j hj hfound => List.find?_eq_none.mp h j hj ?_
  obtain ⟨hused, hfound⟩ := Bool.and_eq_true_iff.mp hfound
  exact Bool.and_eq_true_iff.mpr ⟨hused, (Bool.and_eq_true_iff.mp hfound).1⟩

theorem walk_concat {c₀ : ℕ} (h : walk mem c₀ init = some (some c)) (hnone : findDir mem c last = none) :
    walk mem c₀ (init ++ [last]) = some none := by
  induction init generalizing c₀ with
  | nil =>
    cases h
    rw [List.nil_append, walk, hnone]
  | cons name init ih =>
    rw [walk] at h
    rw [List.cons_append, walk]
    cases hfind : findDir mem c₀ name with
    | none => rfl
    | some j =>
      rw [hfind] at h
      dsimp only at h ⊢
      split_ifs at h ⊢ with hdata
      exact ih h

/-- A path whose last component is missing is not found. -/
theorem findEntry_missing (stray : List Byte) (hpath : ValidPath path init last) (hparent : walk mem 0 init = some (some c))
    (hnone : findDir mem c last = none) : findEntry mem (some path) stray false = some none := by
  rw [findEntry_entry (show (some path).bind components = some (init ++ [last]) from hpath.components),
    walk_concat hparent hnone]
  rfl

theorem createEntry_eq_ok_iff (attributes : ℕ) (stray : List Byte) (hpath : ValidPath path init last) {vfs vfs' : FAT16VFS}
    {made : Created} : createEntry vfs (some path) stray attributes = some (.ok (vfs', made)) ↔
      ∃ c i k, walk vfs.mem 0 init = some (some c) ∧ findName vfs.mem c last = none ∧ freeSlot vfs.mem c = some i ∧
        freeCluster vfs.fat = some k ∧ made = ⟨slot c i, k, c⟩ ∧
        vfs' = { vfs with
          fat := Function.update vfs.fat k LAST,
          mem := setFirstCluster (setSize (setAttributes (setName vfs.mem (slot c i) last) (slot c i) attributes) (slot c i) 0)
            (slot c i) k } := by
  have hlast : ¬ 11 < last.length :=
    not_lt.mpr (hpath.component last (List.mem_append_right _ List.mem_cons_self)).2.1
  rw [createEntry, findEntry_parent (show (some path).bind components = some (init ++ [last]) from hpath.components),
    List.dropLast_concat, Option.map_map, Option.map_eq_some_iff]
  constructor
  · intro h
    obtain ⟨found, hwalk, h⟩ := h
    cases found with
    | none => cases h
    | some c =>
      rw [Function.comp_apply, Option.map_some] at h
      dsimp only at h
      rw [hpath.lastComponent, if_neg hlast] at h
      cases hname : findName vfs.mem c last with
      | some j =>
        rw [hname] at h
        cases h
      | none =>
        rw [hname, if_neg (by simp)] at h
        cases hslot : freeSlot vfs.mem c with
        | none =>
          rw [hslot] at h
          cases h
        | some i =>
          rw [hslot] at h
          dsimp only at h
          cases hcluster : freeCluster vfs.fat with
          | none =>
            rw [hcluster] at h
            cases h
          | some k =>
            rw [hcluster] at h
            cases h
            exact ⟨c, i, k, hwalk, hname, hslot, rfl, rfl, rfl⟩
  · intro h
    obtain ⟨c, i, k, hwalk, hname, hslot, hcluster, rfl, rfl⟩ := h
    refine ⟨some c, hwalk, ?_⟩
    rw [Function.comp_apply, Option.map_some]
    dsimp only
    rw [hpath.lastComponent, if_neg hlast, hname, if_neg (by simp), hslot]
    dsimp only
    rw [hcluster]

theorem openEntry_file {v : World} {mode fd : ℕ} (hfile : isDir v.vfs.mem a = false) (hfd : freeDescriptor v.vfs = some fd) :
    ∃ w₁, openEntry v (some path) mode a = some (w₁, (fd : ℤ)) ∧ w₁.vfs.mem = v.vfs.mem ∧ (w₁.vfs.openFiles fd).used := by
  unfold freeDescriptor at hfd
  unfold openEntry
  rw [hfile, if_neg Bool.false_ne_true, hfd]
  refine ⟨_, rfl, rfl, ?_⟩
  change (Function.update v.vfs.openFiles fd _ fd).used
  rw [Function.update_self]

theorem not_nonneg_of_fail {v : World} {e : Errno} {r : ℤ} (h : some (v.fail e) = some (w', r)) : ¬ 0 ≤ r := by
  have hr : -1 = r := congrArg Prod.snd (Option.some.inj h)
  omega

theorem freeDescriptor_of_openEntry {v : World} {path : Option Path} {mode : ℕ} {r : ℤ} (hr : 0 ≤ r)
    (h : openEntry v path mode a = some (w', r)) : ∃ fd, freeDescriptor v.vfs = some fd := by
  unfold openEntry at h
  split_ifs at h
  · exact absurd hr (not_nonneg_of_fail h)
  · unfold freeDescriptor
    split at h
    · exact absurd hr (not_nonneg_of_fail h)
    · exact ⟨_, by assumption⟩

/-- `vfs_open` makes the file and opens it. -/
theorem vfs_open_new (hpath : ValidPath path init last) {i fd : ℕ} (h : CanCreate w init last c i k fd) (stray : List Byte) :
    ∃ w₁, vfs_open (some path) (O_RDWR ||| O_CREAT) stray w = some (w₁, (fd : ℤ)) ∧
      w₁.vfs.mem = newFile w.vfs.mem (slot c i) k last ∧ (w₁.vfs.openFiles fd).used := by
  have hcreate := (createEntry_eq_ok_iff 0x20 stray hpath).mpr ⟨c, i, k, h.parent, h.absent, h.slot, h.cluster, rfl, rfl⟩
  unfold vfs_open
  dsimp only
  rw [World.lock_vfs, findEntry_missing stray hpath h.parent (findDir_eq_none h.absent), if_neg (by decide), Option.bind_some]
  dsimp only
  rw [if_neg (by decide), hcreate, Option.bind_some]
  exact openEntry_file isDir_newFile h.descriptor

/-- Only so does `vfs_open` open a file that is not found. -/
theorem canCreate_of_vfs_open (hpath : ValidPath path init last) {mode : UInt32} {r : ℤ} (hr : 0 ≤ r)
    (hnone : findEntry w.vfs.mem (some path) stray false = some none) (h : vfs_open (some path) mode stray w = some (w', r)) :
    ∃ c i k fd, CanCreate w init last c i k fd := by
  unfold vfs_open at h
  dsimp only at h
  rw [World.lock_vfs, hnone, Option.bind_some] at h
  split at h
  · exact absurd hr (not_nonneg_of_fail h)
  · dsimp only at h
    split at h
    · exact absurd hr (not_nonneg_of_fail h)
    · obtain ⟨made, hmade, h⟩ := Option.bind_eq_some_iff.mp h
      cases made with
      | error e => exact absurd hr (not_nonneg_of_fail h)
      | ok made =>
        obtain ⟨vfs, made⟩ := made
        obtain ⟨c, i, k, hparent, habsent, hslot, hcluster, rfl, rfl⟩ := (createEntry_eq_ok_iff 0x20 stray hpath).mp hmade
        obtain ⟨fd, hfd⟩ := freeDescriptor_of_openEntry hr h
        exact ⟨c, i, k, fd, hparent, habsent, hslot, hcluster, hfd⟩

/-- A new file is not found afterwards. -/
theorem findEntry_newFile (stray : List Byte) (hpath : ValidPath path init last) {i fd : ℕ} (h : CanCreate w init last c i k fd) :
    findEntry (newFile w.vfs.mem (Fat16.slot c i) k last) (some path) stray false = some none := by
  have honly := onlyEntry_newFile w.vfs.mem (Fat16.slot c i) k last
  have hslot := h.slot
  unfold freeSlot at hslot
  have hfree := List.find?_some hslot
  refine findEntry_missing stray hpath ((walk_newFile honly hfree isDir_newFile 0 init).trans h.parent) ?_
  rw [findDir_newFile honly hfree isDir_newFile]
  exact findDir_eq_none h.absent

/-- A file that is not found is not opened without `O_CREAT`. -/
theorem vfs_open_missing {mode : UInt32} {r : ℤ} (hcreate : mode &&& O_CREAT = 0)
    (hnone : findEntry w.vfs.mem (some path) stray false = some none) (h : vfs_open (some path) mode stray w = some (w', r)) :
    ¬ 0 ≤ r := by
  unfold vfs_open at h
  dsimp only at h
  rw [World.lock_vfs, hnone, Option.bind_some] at h
  split at h
  · exact not_nonneg_of_fail h
  · dsimp only at h
    rw [if_pos (not_not.mpr hcreate)] at h
    exact not_nonneg_of_fail h

theorem vfs_close_used {fd : ℕ} (hfd : fd < MAX_OPEN_FILES) (hused : (w.vfs.openFiles fd).used) :
    ∃ w', vfs_close fd w = (w', 0) ∧ w'.vfs.mem = w.vfs.mem := by
  have hcond : (0 : ℤ) ≤ fd ∧ (fd : ℤ) < MAX_OPEN_FILES ∧ (w.lock.vfs.openFiles (fd : ℤ).toNat).used :=
    ⟨Int.natCast_nonneg fd, Int.ofNat_lt.mpr hfd, hused⟩
  rw [vfs_close]
  dsimp only
  rw [if_pos hcond]
  exact ⟨_, rfl, rfl⟩

end

/-! ## Writing and reading back -/

/-- Calls of `vfs_write`, each of which takes all its bytes -/
def writeAll (fd : ℤ) (tm : Option Tm) (stray : List Byte) : List (List Byte) → World → Option World
  | [], w => some w
  | buf :: bufs, w => (vfs_write fd buf tm stray w).bind fun (w, r) => if r = buf.length then writeAll fd tm stray bufs w else none

/-- Calls of `vfs_read` with these counts: what they read, one after the other -/
def readBack (fd : ℤ) : List ℕ → World → Option (List Byte)
  | [], _ => some []
  | count :: counts, w => (vfs_read fd count w).bind fun (w, r, bytes) =>
    if r < 0 then none else (readBack fd counts w).map (bytes ++ ·)

/-- Calls on other paths -/
inductive Other
  | mkdir (path : Path) (tm : Option Tm)
  | create (path : Path) (mode : UInt32) (stray : List Byte)
  | unlink (path : Path) (stray : List Byte)

def Other.path : Other → Path
  | .mkdir path _ | .create path _ _ | .unlink path _ => path

def Other.run : Other → World → Option World
  | .mkdir path tm, w => (vfs_mkdir (some path) tm w).map (·.1)
  | .create path mode stray, w => (vfs_open (some path) (mode ||| O_CREAT) stray w).map (·.1)
  | .unlink path stray, w => (vfs_unlink (some path) stray w).map (·.1)

/-- A file that is created, written and closed can be opened again after calls on other paths, and is read as it was
written. -/
def ReadsBack (w : World) (path : Path) : Prop :=
  ∀ mode tm stray w₁ fd bufs w₂ w₃ (others : List Other) w₄ (again : UInt32),
    findEntry w.vfs.mem (some path) stray false = some none → vfs_open (some path) mode stray w = some (w₁, fd) → 0 ≤ fd →
    writeAll fd tm stray bufs w₁ = some w₂ → vfs_close fd w₂ = (w₃, 0) →
    (∀ other ∈ others, Other.path other ≠ path) → others.foldlM (fun w other => Other.run other w) w₃ = some w₄ →
    again &&& O_RDWR ≠ 0 → again &&& O_CREAT = 0 →
    ∃ w₅ fd', vfs_open (some path) again stray w₄ = some (w₅, fd') ∧ 0 ≤ fd' ∧
      ∀ counts : List ℕ, bufs.flatten.length ≤ counts.sum → readBack fd' counts w₅ = some bufs.flatten

/-- A path leads to a file that can be read back only when there the file cannot be created. -/
theorem readsBack_iff {path : Path} {init : List (List Byte)} {last : List Byte} (hpath : ValidPath path init last) (w : World) :
    ReadsBack w path ↔ ¬ ∃ c i k fd, CanCreate w init last c i k fd := by
  constructor
  · intro h hcan
    obtain ⟨c, i, k, fd, hcan⟩ := hcan
    obtain ⟨w₁, hopen, hmem, hused⟩ := vfs_open_new hpath hcan []
    obtain ⟨w₃, hclose, hmem₃⟩ := vfs_close_used (List.mem_range.mp (List.mem_of_find?_eq_some hcan.descriptor)) hused
    have hnone := findEntry_missing [] hpath hcan.parent (findDir_eq_none hcan.absent)
    -- nothing is written, no other call is made
    obtain ⟨w₅, fd', hagain, hfd', -⟩ := h _ none [] w₁ fd [] w₁ w₃ [] w₃ O_RDWR hnone hopen (Int.natCast_nonneg fd) rfl hclose
      (fun _ hother => absurd hother List.not_mem_nil) rfl (by decide) (by decide)
    refine vfs_open_missing (by decide) ?_ hagain hfd'
    rw [hmem₃, hmem]
    exact findEntry_newFile [] hpath hcan
  · intro h mode tm stray w₁ fd bufs w₂ w₃ others w₄ again hnone hopen hfd _ _ _ _ _ _
    exact absurd (canCreate_of_vfs_open hpath hfd hnone hopen) h

theorem readsBack_iff_a : ReadsBack (World.start fun _ => 0xFF) ⟨.lit "/a", []⟩ ↔
    ¬ ∃ c i k fd, CanCreate (World.start fun _ => 0xFF) [] [(('a' : Char) : Byte)] c i k fd :=
  readsBack_iff ⟨by decide, by decide, by decide, by decide⟩ _

/-- `"x"` is written to the new file "/a", which cannot be opened again. -/
theorem not_readsBack_a : ¬ ReadsBack (World.start fun _ => 0xFF) ⟨.lit "/a", []⟩ := by
  intro h
  have hnone : findEntry (World.start fun _ => 0xFF).vfs.mem (some ⟨.lit "/a", []⟩) [] false = some none := by decide
  have hrun : ((vfs_open (some ⟨.lit "/a", []⟩) (O_RDWR ||| O_CREAT) [] (World.start fun _ => 0xFF)).bind fun (w₁, fd) =>
      (writeAll fd none [] [[(('x' : Char) : Byte)]] w₁).map fun w₂ =>
        (fd, (vfs_close fd w₂).2, (vfs_open (some ⟨.lit "/a", []⟩) O_RDWR [] (vfs_close fd w₂).1).map (·.2))) =
          some (0, 0, some (-1)) := by
    decide
  obtain ⟨⟨w₁, fd⟩, hopen, hrun⟩ := Option.bind_eq_some_iff.mp hrun
  obtain ⟨w₂, hwrite, hrun⟩ := Option.map_eq_some_iff.mp hrun
  obtain rfl : fd = 0 := congrArg Prod.fst hrun
  obtain ⟨w₅, fd', hagain, hfd', -⟩ := h _ none [] w₁ 0 [[(('x' : Char) : Byte)]] w₂ (vfs_close 0 w₂).1 [] _ O_RDWR hnone hopen
    le_rfl hwrite (Prod.ext rfl (congrArg (·.2.1) hrun)) (fun _ hother => absurd hother List.not_mem_nil) rfl (by decide) (by decide)
  have hresult := congrArg (·.2.2) hrun
  dsimp only at hresult
  rw [hagain] at hresult
  obtain rfl : fd' = -1 := Option.some.inj hresult
  exact absurd hfd' (by decide)

end ValidcTools.Fat16
