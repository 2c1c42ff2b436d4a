import ValidcTools.Fat16.Calls
import ValidcTools.Fat16.Flash

/-! What `vfs_opendir` and `vfs_readdir` list. -/
namespace ValidcTools.Fat16

open Memory

/-! ## The entries of a directory -/

/-- The entry is in use: it is neither new nor marked as removed. -/
def live (mem : ℕ → Byte) (a : ℕ) : Bool := decide (mem a ≠ 0 ∧ mem a ≠ 0xE5)

/-- The names of "." and ".." -/
def isDot (name : List Byte) : Bool :=
  decide (name = (CString.lit ".          ").bytes ∨ name = (CString.lit "..         ").bytes)

/-- The name of an entry, up to its terminator -/
def nameOf (mem : ℕ → Byte) (a : ℕ) : List Byte := cut (entryName mem a)

/-- The names of the entries in use besides "." and "..", slot by slot -/
def children (mem : ℕ → Byte) (c : ℕ) : List (List Byte) :=
  ((List.range (entriesPerDir c)).filter fun i => live mem (slot c i) && !isDot (nameOf mem (slot c i))).map
    fun i => nameOf mem (slot c i)

/-- `vfs_readdir` until it returns NULL -/
def readAll (handle : ℕ) : ℕ → World → Option (List (List Byte))
  | 0, _ => none
  | fuel + 1, w => (vfs_readdir (some handle) w).bind fun
    | (_, none) => some []
    | (w, some entry) => (readAll handle fuel w).map (entry.d_name :: ·)

/-- `vfs_opendir` opens the directory in cluster `c`, and `vfs_readdir` gives each of its children once. -/
def ListsExactly (path : Option Path) (stray : List Byte) (w : World) (c : ℕ) : Prop :=
  ∃ w' handle, vfs_opendir path stray w = some (w', some handle) ∧ (w'.vfs.openDirs handle).cluster = c ∧
    ∃ names, readAll handle (ROOT_ENTRIES + 1) w' = some names ∧ names.Perm (children w.vfs.mem c)

/-! ## Names -/

section
variable {mem : ℕ → Byte} {a c n : ℕ}

/-- No signed `char` is 0xE5. -/
theorem isFree_eq (mem : ℕ → Byte) (a : ℕ) : isFree mem a = decide (mem a = 0) := by
  have hall : ∀ b : Byte, decide (charInt b = 0 ∨ charInt b = 0xE5) = decide (b = 0) := forall_byte (by decide)
  exact hall (mem a)

/-- The first byte of a name is the first byte of its entry. -/
theorem headD_nameOf (mem : ℕ → Byte) (a : ℕ) : (nameOf mem a).headD 0 = mem a := by
  have hname : entryName mem a = mem a :: bytesAt mem (a + 1) 10 := by
    unfold entryName bytesAt
    rw [List.range_succ_eq_map, List.map_cons, List.map_map, Nat.add_zero]
    refine congrArg _ (List.map_congr_left fun k _ => ?_)
    rw [Function.comp_apply, Nat.add_right_comm, Nat.add_assoc]
  rw [nameOf, cut, hname, List.take_succ_cons]
  by_cases h : mem a = 0
  · rw [List.takeWhile_cons_of_neg (by simpa using h), h]
    rfl
  · rw [List.takeWhile_cons_of_pos (by simpa using h), List.headD_cons]

/-! ## What is read -/

/-- The entries from the slot `i` on that `vfs_readdir` gives -/
def given (mem : ℕ → Byte) (c i : ℕ) : List ℕ :=
  (List.range' i (entriesPerDir c - i)).filter fun j => !isFree mem (slot c j)

theorem filter_of_find?_eq_some {p : ℕ → Bool} {s m i : ℕ} (h : (List.range' s m).find? p = some i) :
    s ≤ i ∧ i < s + m ∧ (List.range' s m).filter p = i :: (List.range' (i + 1) (s + m - (i + 1))).filter p := by
  induction m generalizing s with
  | zero => cases h
  | succ m ih =>
    rw [List.range'_succ] at h ⊢
    by_cases hs : p s
    · rw [List.find?_cons_of_pos hs] at h
      obtain rfl := Option.some.inj h
      rw [List.filter_cons_of_pos hs, show s + (m + 1) - (s + 1) = m by omega]
      exact ⟨le_rfl, by omega, rfl⟩
    · rw [List.find?_cons_of_neg hs] at h
      obtain ⟨hle, hlt, hfilter⟩ := ih h
      rw [List.filter_cons_of_neg hs, hfilter, show s + 1 + m = s + (m + 1) by omega]
      exact ⟨by omega, by omega, rfl⟩

theorem readAll_eq {handle : ℕ} (hhandle : handle < MAX_OPEN_FILES) (hc : c = 0 ∨ inData c) {fuel i : ℕ} {w : World}
    (hdir : w.vfs.openDirs handle = ⟨true, c, i⟩) (hfuel : entriesPerDir c - i < fuel) :
    readAll handle fuel w = some ((given w.vfs.mem c i).map fun j => nameOf w.vfs.mem (slot c j)) := by
  induction fuel generalizing i w with
  | zero => exact absurd hfuel (Nat.not_lt_zero _)
  | succ fuel ih =>
    have hdir' : w.lock.vfs.openDirs handle = ⟨true, c, i⟩ := hdir
    rw [readAll, vfs_readdir]
    dsimp only
    rw [if_neg (not_le.mpr hhandle), hdir']
    dsimp only
    rw [if_neg (not_not.mpr rfl), if_pos hc]
    cases hfind : (List.range' i (entriesPerDir c - i)).find? fun j => !isFree w.vfs.mem (slot c j) with
    | none =>
      have hnone : given w.vfs.mem c i = [] := List.filter_eq_nil_iff.mpr (List.find?_eq_none.mp hfind)
      have hfind' : ((List.range' i (entriesPerDir c - i)).find? fun j => !isFree w.lock.vfs.mem (slot c j)) = none := hfind
      rw [hfind', hnone]
      rfl
    | some j =>
      obtain ⟨hij, hlt, hfilter⟩ := filter_of_find?_eq_some hfind
      have hgiven : given w.vfs.mem c i = j :: given w.vfs.mem c (j + 1) := by
        rw [given, hfilter, given, show i + (entriesPerDir c - i) - (j + 1) = entriesPerDir c - (j + 1) by omega]
      have hfind' : ((List.range' i (entriesPerDir c - i)).find? fun j => !isFree w.lock.vfs.mem (slot c j)) = some j := hfind
      rw [hfind', hgiven]
      dsimp only
      rw [Option.bind_some]
      dsimp only
      rw [ih (i := j + 1) (Function.update_self ..) (by omega)]
      rfl

/-! ## What should be read -/

/-- The first two slots hold nothing but "." and ".." that is in use, the others no removed entry and neither of
these two. -/
def InOrder (mem : ℕ → Byte) (c : ℕ) : Prop :=
  (∀ i < 2, live mem (slot c i) → isDot (nameOf mem (slot c i))) ∧
    ∀ i < entriesPerDir c, 2 ≤ i → mem (slot c i) ≠ 0 → mem (slot c i) ≠ 0xE5 ∧ ¬ isDot (nameOf mem (slot c i))

theorem two_le_entriesPerDir (c : ℕ) : 2 ≤ entriesPerDir c := by
  unfold entriesPerDir ROOT_ENTRIES DIR_ENTRIES
  split_ifs <;> omega

/-- The children in the first two slots, and those in the others -/
theorem children_eq (mem : ℕ → Byte) (c : ℕ) : children mem c =
    (([0, 1].filter fun i => live mem (slot c i) && !isDot (nameOf mem (slot c i))) ++
      (List.range' 2 (entriesPerDir c - 2)).filter fun i => live mem (slot c i) && !isDot (nameOf mem (slot c i))).map
        fun i => nameOf mem (slot c i) := by
  have hrange : List.range (entriesPerDir c) = [0, 1] ++ List.range' 2 (entriesPerDir c - 2) := by
    rw [List.range_eq_range', ← Nat.add_sub_cancel' (two_le_entriesPerDir c), ← List.range'_append_1, Nat.add_sub_cancel_left]
    rfl
  rw [children, hrange, List.filter_append]

/-- The children from the third slot on are what is read there. -/
theorem filter_eq_given (h : ∀ i < entriesPerDir c, 2 ≤ i → mem (slot c i) ≠ 0 →
      mem (slot c i) ≠ 0xE5 ∧ ¬ isDot (nameOf mem (slot c i))) :
    ((List.range' 2 (entriesPerDir c - 2)).filter fun i => live mem (slot c i) && !isDot (nameOf mem (slot c i))) =
      given mem c 2 := by
  have hn := two_le_entriesPerDir c
  refine List.filter_congr fun i hi => ?_
  obtain ⟨htwo, hlt⟩ := List.mem_range'_1.mp hi
  rw [isFree_eq]
  by_cases hzero : mem (slot c i) = 0
  · simp [live, hzero]
  · obtain ⟨hE5, hdot⟩ := h i (by omega) htwo hzero
    simp [live, hzero, hE5, hdot]

theorem perm_children_iff (mem : ℕ → Byte) (c : ℕ) :
    ((given mem c 2).map fun j => nameOf mem (slot c j)).Perm (children mem c) ↔ InOrder mem c := by
  have hgiven (i : ℕ) : i ∈ given mem c 2 ↔ (2 ≤ i ∧ i < entriesPerDir c) ∧ mem (slot c i) ≠ 0 := by
    have hn := two_le_entriesPerDir c
    rw [given, List.mem_filter, List.mem_range'_1, isFree_eq, Nat.add_sub_cancel' hn]
    simp
  have htwo (i : ℕ) : i ∈ [0, 1] ↔ i < 2 := by
    simp only [List.mem_cons, List.not_mem_nil, or_false]
    omega
  rw [children_eq]
  constructor
  · intro hperm
    -- a name that is read is the name of a child, which tells the first byte and whether it is a dot
    have hbyte (i : ℕ) (hi : i < entriesPerDir c) (htwo : 2 ≤ i) (hzero : mem (slot c i) ≠ 0) :
        mem (slot c i) ≠ 0xE5 ∧ ¬ isDot (nameOf mem (slot c i)) := by
      have hmem := hperm.subset (List.mem_map_of_mem ((hgiven i).mpr ⟨⟨htwo, hi⟩, hzero⟩))
      obtain ⟨k, hk, hname⟩ := List.mem_map.mp hmem
      rw [← List.filter_append] at hk
      obtain ⟨hlive, hdot⟩ := Bool.and_eq_true_iff.mp (List.mem_filter.mp hk).2
      have hfirst : mem (slot c k) = mem (slot c i) := by
        rw [← headD_nameOf mem (slot c k), hname, headD_nameOf]
      rw [← hname, ← hfirst]
      exact ⟨(of_decide_eq_true hlive).2, by simpa using hdot⟩
    refine ⟨fun i hi hlive => ?_, hbyte⟩
    rw [filter_eq_given hbyte] at hperm
    have hlen := hperm.length_eq
    rw [List.length_map, List.length_map, List.length_append] at hlen
    have hnil := List.filter_eq_nil_iff.mp (List.eq_nil_of_length_eq_zero (Nat.add_eq_right.mp hlen.symm))
    by_contra hdot
    exact hnil i ((htwo i).mpr hi) (by rw [hlive, Bool.eq_false_of_not_eq_true hdot]; rfl)
  · intro horder
    obtain ⟨hfirst, hrest⟩ := horder
    have hnil : ([0, 1].filter fun i => live mem (slot c i) && !isDot (nameOf mem (slot c i))) = [] := by
      refine List.filter_eq_nil_iff.mpr fun i hi => ?_
      have hdot := hfirst i ((htwo i).mp hi)
      simp only [Bool.and_eq_true, Bool.not_eq_true', not_and, Bool.not_eq_false]
      exact hdot
    rw [hnil, List.nil_append, filter_eq_given hrest]

end

/-! ## What is opened -/

section
variable {mem : ℕ → Byte} {path : Option Path} {stray : List Byte} {w w' : World} {c : ℕ}

/-- Only "/" has no components. -/
theorem components_eq_nil_iff {path : Path} : components path = some [] ↔ path.text = CString.lit "/" := by
  have hlit : (CString.lit "/").bytes = [(('/' : Char) : Byte)] := by decide
  unfold components
  cases htext : path.text.bytes with
  | nil =>
    have hne : path.text ≠ CString.lit "/" := by
      intro h
      rw [h, hlit] at htext
      cases htext
    rw [if_neg (by rw [CString.get, htext]; decide)]
    exact iff_of_false (by simp) hne
  | cons b rest =>
    have hnul : (0 : Byte) ∉ b :: rest := htext ▸ path.text.nulFree
    rw [CString.get, htext, List.getD_cons_zero, List.drop_succ_cons, List.drop_zero]
    have htext_eq : path.text = CString.lit "/" ↔ b = ('/' : Char) ∧ rest = [] := by
      rw [CString.ext_iff, htext, hlit, List.cons.injEq]
    rw [htext_eq]
    by_cases hb : b = ('/' : Char)
    · rw [if_pos hb, MAX_DEPTH, componentsFrom]
      cases rest with
      | nil => simp [hb]
      | cons b' rest =>
        have hb' : b' ≠ 0 := fun h => hnul (h ▸ List.mem_cons_of_mem _ List.mem_cons_self)
        rw [List.cons_append, List.headD_cons, if_neg hb']
        dsimp only
        split_ifs <;> simp
    · rw [if_neg hb]
      simp [hb]

theorem walk_inData {cs : List (List Byte)} {c₀ : ℕ} (hc₀ : c₀ = 0 ∨ inData c₀) (h : walk mem c₀ cs = some (some c)) :
    c = 0 ∨ inData c := by
  induction cs generalizing c₀ with
  | nil =>
    cases h
    exact hc₀
  | cons component cs ih =>
    rw [walk] at h
    cases hfind : findDir mem c₀ component with
    | none =>
      rw [hfind] at h
      cases h
    | some j =>
      rw [hfind] at h
      dsimp only at h
      split_ifs at h with hdata
      exact ih (.inr hdata) h

/-- The path is "/", or the walk along its components ends in the directory, which holds an entry that is a directory
with the name of the last component. -/
def LeadsTo (mem : ℕ → Byte) (path : Option Path) (c : ℕ) : Prop :=
  isRoot path = some true ∧ c = 0 ∨
    ∃ cs last, path.bind components = some cs ∧ cs.getLast? = some last ∧ walk mem 0 cs = some (some c) ∧
      ∃ j, findName mem c last = some j ∧ isDir mem (slot c j)

/-- The handle that `vfs_opendir` takes -/
def freeHandle (w : World) : Option ℕ := (List.range MAX_OPEN_FILES).find? fun i => !(w.vfs.openDirs i).used

/-- The state after a directory has been opened -/
def opened (w : World) (handle c : ℕ) : World :=
  { w.lock with vfs := { w.vfs with openDirs := Function.update w.vfs.openDirs handle ⟨true, c, 2⟩ } }.unlock

/-- The cluster that `vfs_opendir` opens: `none` is undefined, `some none` is no directory. -/
def opens (mem : ℕ → Byte) (path : Option Path) (stray : List Byte) : Option (Option ℕ) :=
  (findEntry mem path stray false).bind fun entry =>
    match entry.filter fun (a, _) => isDir mem a with
    | some (_, cluster) => some (some cluster)
    | none => (isRoot path).map fun root : Bool => if root then some 0 else none

theorem vfs_opendir_eq : vfs_opendir path stray w = (opens w.vfs.mem path stray).map fun
    | none => ((w.lock.fail .enotdir).1, none)
    | some cluster =>
      match freeHandle w with
      | none => ((w.lock.fail .emfile).1, none)
      | some handle => (opened w handle cluster, some handle) := by
  rw [opens, Option.map_bind]
  rfl

/-- Whatever the memory in front of `components` matches, "/" opens the root. -/
theorem opens_root {path : Path} (h : path.text = CString.lit "/") : opens mem (some path) stray = some (some 0) := by
  have hroot : isRoot (some path) = some true := congrArg some (decide_eq_true h)
  have hentry : findEntry mem (some path) stray false = some ((findName mem 0 stray).map fun j => (slot 0 j, 0)) :=
    findEntry_entry (show (some path).bind components = some [] from components_eq_nil_iff.mpr h)
  rw [opens, hentry, Option.bind_some, hroot]
  cases findName mem 0 stray with
  | none => rfl
  | some j =>
    rw [Option.map_some, Option.filter_some]
    dsimp only
    split_ifs <;> rfl

theorem opens_of_components {path : Path} {cs : List (List Byte)} {last : List Byte} (hcs : components path = some (cs ++ [last])) :
    opens mem (some path) stray = (walk mem 0 (cs ++ [last])).map fun found =>
      found.bind fun c => ((findName mem c last).filter fun j => isDir mem (slot c j)).map fun _ => c := by
  have htext : path.text ≠ CString.lit "/" := by
    intro h
    rw [components_eq_nil_iff.mpr h] at hcs
    exact absurd (Option.some.inj hcs).symm (List.append_ne_nil_of_right_ne_nil cs (List.cons_ne_nil last []))
  have hroot : isRoot (some path) = some false := congrArg some (decide_eq_false htext)
  have hlast : (cs ++ [last]).getLastD stray = last := by
    rw [List.getLastD_eq_getLast?, List.getLast?_concat, Option.getD_some]
  rw [opens, findEntry_entry (show (some path).bind components = _ from hcs), hroot, hlast]
  cases walk mem 0 (cs ++ [last]) with
  | none => rfl
  | some found =>
    cases found with
    | none => rfl
    | some c =>
      simp only [Option.map_some, Option.bind_some]
      cases findName mem c last with
      | none => rfl
      | some j =>
        rw [Option.map_some, Option.filter_some, Option.filter_some]
        by_cases hdir : isDir mem (slot c j)
        · rw [if_pos hdir, if_pos hdir]
          rfl
        · rw [if_neg hdir, if_neg hdir]
          rfl

theorem opens_eq_some_iff : opens mem path stray = some (some c) ↔ LeadsTo mem path c := by
  cases path with
  | none =>
    refine iff_of_false (fun h => by cases h) fun h => ?_
    obtain ⟨hroot, -⟩ | ⟨cs, last, hcs, -⟩ := h
    · cases hroot
    · cases hcs
  | some path =>
    cases hcs : components path with
    | none =>
      have htext : path.text ≠ CString.lit "/" := by
        intro h
        rw [components_eq_nil_iff.mpr h] at hcs
        cases hcs
      have hroot : isRoot (some path) = some false := congrArg some (decide_eq_false htext)
      have hopens : opens mem (some path) stray = some none := by
        rw [opens, findEntry_of_none (show (some path).bind components = none from hcs), hroot]
        rfl
      rw [hopens]
      refine iff_of_false (fun h => by cases h) fun h => ?_
      obtain ⟨hroot', -⟩ | ⟨cs, last, hcs', -⟩ := h
      · rw [hroot] at hroot'
        cases hroot'
      · cases hcs.symm.trans hcs'
    | some cs =>
      obtain rfl | ⟨init, last, rfl⟩ := List.eq_nil_or_concat' cs
      · have htext := components_eq_nil_iff.mp hcs
        have hroot : isRoot (some path) = some true := congrArg some (decide_eq_true htext)
        rw [opens_root htext]
        constructor
        · intro h
          exact .inl ⟨hroot, (Option.some.inj (Option.some.inj h)).symm⟩
        · intro h
          obtain ⟨-, rfl⟩ | ⟨cs, last, hcs', hlast, -⟩ := h
          · rfl
          · obtain rfl := Option.some.inj (hcs.symm.trans hcs')
            cases hlast
      · have htext : path.text ≠ CString.lit "/" := by
          intro h
          rw [components_eq_nil_iff.mpr h] at hcs
          exact absurd (Option.some.inj hcs).symm (List.append_ne_nil_of_right_ne_nil init (List.cons_ne_nil last []))
        have hroot : isRoot (some path) = some false := congrArg some (decide_eq_false htext)
        rw [opens_of_components hcs]
        constructor
        · intro h
          obtain ⟨found, hwalk, h⟩ := Option.map_eq_some_iff.mp h
          obtain ⟨c', rfl, h⟩ := Option.bind_eq_some_iff.mp h
          obtain ⟨j, hj, rfl⟩ := Option.map_eq_some_iff.mp h
          obtain ⟨hfind, hdir⟩ := Option.filter_eq_some_iff.mp hj
          exact .inr ⟨_, last, hcs, List.getLast?_concat, hwalk, j, hfind, hdir⟩
        · intro h
          obtain ⟨hroot', -⟩ | ⟨cs, last', hcs', hlast, hwalk, j, hfind, hdir⟩ := h
          · rw [hroot] at hroot'
            cases hroot'
          · obtain rfl := Option.some.inj (hcs.symm.trans hcs')
            rw [List.getLast?_concat] at hlast
            obtain rfl := Option.some.inj hlast
            rw [hwalk, Option.map_some, Option.bind_some, hfind, Option.filter_some, if_pos hdir]
            rfl

/-! ## The listing -/

theorem opened_openDirs (w : World) (handle c : ℕ) : (opened w handle c).vfs.openDirs handle = ⟨true, c, 2⟩ :=
  Function.update_self ..

theorem LeadsTo.inData (h : LeadsTo mem path c) : c = 0 ∨ inData c := by
  obtain ⟨-, hc⟩ | ⟨cs, last, -, -, hwalk, -⟩ := h
  · exact .inl hc
  · exact walk_inData (.inl rfl) hwalk

theorem readAll_opened {handle : ℕ} (hfree : freeHandle w = some handle) (hc : c = 0 ∨ Fat16.inData c) :
    readAll handle (ROOT_ENTRIES + 1) (opened w handle c) =
      some ((given w.vfs.mem c 2).map fun j => nameOf w.vfs.mem (slot c j)) := by
  refine readAll_eq (List.mem_range.mp (List.mem_of_find?_eq_some hfree)) hc (opened_openDirs w handle c) ?_
  unfold entriesPerDir ROOT_ENTRIES DIR_ENTRIES
  split_ifs <;> omega

theorem ListsExactly.requires (h : ListsExactly path stray w c) :
    (freeHandle w).isSome ∧ LeadsTo w.vfs.mem path c ∧ InOrder w.vfs.mem c := by
  obtain ⟨w', handle, hopen, hcluster, names, hnames, hperm⟩ := h
  rw [vfs_opendir_eq] at hopen
  obtain ⟨found, hopens, hopen⟩ := Option.map_eq_some_iff.mp hopen
  cases found with
  | none => cases hopen
  | some c' =>
    dsimp only at hopen
    cases hfree : freeHandle w with
    | none =>
      rw [hfree] at hopen
      cases hopen
    | some handle' =>
      rw [hfree] at hopen
      cases hopen
      rw [opened_openDirs] at hcluster
      obtain rfl : c' = c := hcluster
      have hleads := opens_eq_some_iff.mp hopens
      rw [readAll_opened hfree hleads.inData] at hnames
      obtain rfl := Option.some.inj hnames
      exact ⟨rfl, hleads, (perm_children_iff w.vfs.mem c').mp hperm⟩

end

/-- A directory is listed exactly when a handle is free, the path leads to the directory and its slots are in order. -/
theorem listsExactly_iff (path : Option Path) (stray : List Byte) (w : World) (c : ℕ) : ListsExactly path stray w c ↔
    (freeHandle w).isSome ∧ LeadsTo w.vfs.mem path c ∧ InOrder w.vfs.mem c := by
  refine ⟨ListsExactly.requires, fun h => ?_⟩
  obtain ⟨hfree, hleads, horder⟩ := h
  obtain ⟨handle, hfree⟩ := Option.isSome_iff_exists.mp hfree
  refine ⟨opened w handle c, handle, ?_, ?_, _, readAll_opened hfree hleads.inData, (perm_children_iff w.vfs.mem c).mpr horder⟩
  · rw [vfs_opendir_eq, opens_eq_some_iff.mpr hleads, Option.map_some, hfree]
  · rw [opened_openDirs]

/-- With the file "/a" in the root, the root is listed as empty. -/
theorem root_not_listed : ∃ w, vfs_open (some ⟨.lit "/a", []⟩) (O_RDWR ||| O_CREAT) [] (World.start fun _ => 0xFF) = some (w, 0) ∧
    children w.vfs.mem 0 = [(CString.lit "a").bytes] ∧ ¬ ListsExactly (some ⟨.lit "/", []⟩) [] w 0 := by
  have hrun : (vfs_open (some ⟨.lit "/a", []⟩) (O_RDWR ||| O_CREAT) [] (World.start fun _ => 0xFF)).map
      (fun (w, r) => (r, children w.vfs.mem 0, live w.vfs.mem (slot 0 0) && !isDot (nameOf w.vfs.mem (slot 0 0)))) =
        some (0, [(CString.lit "a").bytes], true) := by
    decide
  obtain ⟨⟨w, r⟩, hopen, h⟩ := Option.map_eq_some_iff.mp hrun
  obtain rfl := congrArg Prod.fst h
  refine ⟨w, hopen, congrArg (·.2.1) h, fun hlists => ?_⟩
  obtain ⟨hlive, hdot⟩ := Bool.and_eq_true_iff.mp (congrArg (·.2.2) h)
  have hdot' := hlists.requires.2.2.1 0 Nat.two_pos hlive
  rw [hdot'] at hdot
  cases hdot

end ValidcTools.Fat16
