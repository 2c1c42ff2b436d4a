import ValidcTools.Vfs.InodeTree

/-! What a path leads to in the inode table, and the calls as changes of the tree. -/
namespace ValidcTools.Vfs

open KeyedList ParentLinks

variable {behind : Inode → List Byte} {fs fs' : FileSystem} {path parent_path filename : List Byte} {i : ℕ}

/-! ## Tokens -/

theorem tokensFrom_append (token a b : List Byte) :
    tokensFrom token (a ++ (('/' : Char) : Byte) :: b) = tokensFrom token a ++ tokens b := by
  induction a generalizing token with
  | nil =>
    have hslash : tokensFrom token ((('/' : Char) : Byte) :: b) =
        if token = [] then tokensFrom [] b else token :: tokensFrom [] b := if_pos rfl
    rw [List.nil_append, hslash, tokensFrom, tokens]
    split_ifs <;> rfl
  | cons c a ih =>
    rw [List.cons_append, tokensFrom, tokensFrom, ih, ih]
    split_ifs <;> rfl

theorem tokensFrom_of_notMem {token b : List Byte} (h : (('/' : Char) : Byte) ∉ b) :
    tokensFrom token b = if token ++ b = [] then [] else [token ++ b] := by
  induction b generalizing token with
  | nil => rw [tokensFrom, List.append_nil]
  | cons c b ih =>
    obtain ⟨hc, hb⟩ := List.ne_and_not_mem_of_not_mem_cons h
    rw [tokensFrom, if_neg (Ne.symm hc), ih hb, List.append_assoc, List.singleton_append]

theorem strrchr_eq_none (h : strrchr path = none) : (('/' : Char) : Byte) ∉ path := by
  induction path with
  | nil => exact List.not_mem_nil
  | cons b path ih =>
    rw [strrchr] at h
    cases hpath : strrchr path with
    | some split =>
      rw [hpath] at h
      cases h
    | none =>
      rw [hpath] at h
      dsimp only at h
      split_ifs at h with hb
      exact List.not_mem_cons_of_ne_of_not_mem (Ne.symm hb) (ih hpath)

/-- `strrchr` finds the last slash. -/
theorem strrchr_eq_some (h : strrchr path = some (parent_path, filename)) :
    path = parent_path ++ (('/' : Char) : Byte) :: filename ∧ (('/' : Char) : Byte) ∉ filename := by
  induction path generalizing parent_path filename with
  | nil => cases h
  | cons b path ih =>
    rw [strrchr] at h
    cases hpath : strrchr path with
    | some split =>
      rw [hpath] at h
      cases h
      obtain ⟨hsplit, hfilename⟩ := ih hpath
      exact ⟨congrArg (b :: ·) hsplit, hfilename⟩
    | none =>
      rw [hpath] at h
      dsimp only at h
      split_ifs at h with hb
      cases h
      exact ⟨congrArg (· :: path) hb, strrchr_eq_none hpath⟩

/-! ## Places -/

theorem numberAt_eq {n : Inode} (h : fs.inodes[i]? = some n) : numberAt fs i = n.inode := by
  rw [numberAt, h]
  rfl

theorem nameOf_of_lt {n : Inode} (h : n.name.length < VFS_MAX_NAME) : nameOf behind n = n.name := if_pos h

theorem findChild_eq_some {k : ℕ} {name : List Byte} (h : findChild behind fs k name = some i) :
    ∃ n, fs.inodes[i]? = some n ∧ n.parent_inode = k ∧ nameOf behind n = name := by
  obtain ⟨hlt, hfound, -⟩ := List.findIdx?_eq_some_iff_getElem.mp h
  obtain ⟨hparent, hname⟩ := of_decide_eq_true hfound
  exact ⟨_, List.getElem?_eq_getElem hlt, hparent, hname⟩

theorem findChild_eq_none {k : ℕ} {name : List Byte} (h : findChild behind fs k name = none) {n : Inode} (hn : n ∈ fs.inodes)
    (hparent : n.parent_inode = k) : nameOf behind n ≠ name := by
  intro hname
  have hnone := List.findIdx?_eq_none_iff.mp h n hn
  exact of_decide_eq_false hnone ⟨hparent, hname⟩

/-- From a place of the table a path leads to another, or to none. -/
theorem exists_of_foldlM {ts : List (List Byte)} {current : ℕ} (hcurrent : ∃ n, fs.inodes[current]? = some n)
    (h : ts.foldlM (fun current token => findChild behind fs (numberAt fs current) token) current = some i) :
    ∃ n, fs.inodes[i]? = some n := by
  induction ts generalizing current with
  | nil =>
    cases h
    exact hcurrent
  | cons t ts ih =>
    rw [List.foldlM_cons] at h
    obtain ⟨j, hj, hrest⟩ := Option.bind_eq_some_iff.mp h
    obtain ⟨n, hn, -⟩ := findChild_eq_some hj
    exact ih ⟨n, hn⟩ hrest

theorem TreeInv.exists_of_find (h : TreeInv fs.inodes) (hfind : find_inode_by_path behind fs path = some i) :
    ∃ n, fs.inodes[i]? = some n := by
  obtain ⟨r, hr, -⟩ := h.root
  exact exists_of_foldlM ⟨r, hr⟩ hfind

theorem findDirectory_eq_some (h : findDirectory behind fs path = some i) :
    find_inode_by_path behind fs path = some i ∧ ∃ n, fs.inodes[i]? = some n ∧ n.type = VFS_TYPE_DIR := by
  obtain ⟨hfind, htype⟩ := Option.filter_eq_some_iff.mp h
  obtain ⟨n, hn, htype⟩ := Option.map_eq_some_iff.mp (of_decide_eq_true htype)
  exact ⟨hfind, n, hn, htype⟩

/-- A path leads to a child of what the part before its last slash leads to. -/
theorem find_of_strrchr (h : strrchr path = some (parent_path, filename)) : find_inode_by_path behind fs path =
    (find_inode_by_path behind fs parent_path).bind fun p =>
      if filename = [] then some p else findChild behind fs (numberAt fs p) filename := by
  obtain ⟨rfl, hfilename⟩ := strrchr_eq_some h
  rw [find_inode_by_path, tokens, tokensFrom_append, List.foldlM_append, find_inode_by_path]
  congr 1
  refine funext fun p => ?_
  rw [tokens, tokensFrom_of_notMem hfilename, List.nil_append]
  split_ifs
  · rfl
  · rw [List.foldlM_cons]
    exact Option.bind_fun_some _

/-- A missing path has a last component that its directory does not have. -/
theorem ne_of_find_none (h : TreeInv fs.inodes) (hsplit : strrchr path = some (parent_path, filename))
    (hnone : find_inode_by_path behind fs path = none) (hparent : find_inode_by_path behind fs parent_path = some i)
    {d n : Inode} (hd : fs.inodes[i]? = some d) (hn : n ∈ fs.inodes) (hlink : n.parent_inode = d.inode) :
    n.name ≠ filename := by
  rw [find_of_strrchr hsplit, hparent, Option.bind_some, numberAt_eq hd] at hnone
  split_ifs at hnone
  have hname := findChild_eq_none hnone hn hlink
  rwa [nameOf_of_lt (h.terminated n hn)] at hname

/-! ## Harmless calls -/

/-- What the calls rely on -/
structure Inv (fs : FileSystem) : Prop where
  tree : TreeInv fs.inodes
  blocks : BlocksInv fs

/-- The table takes a new inode: `realloc` leaves it where it is, the name ends within its array, and no inode has
the number that the new one gets. -/
structure Extends (fs : FileSystem) (name : List Byte) (memory : Realloc) : Prop where
  inPlace : memory = .inPlace
  room : fs.inode_count + 1 < 2 ^ 32
  terminated : name.length < VFS_MAX_NAME
  unused : ∀ n ∈ fs.inodes, n.inode ≠ fs.inode_count + 1

/-- The parent of an inode stands where its number says. -/
def ParentInPlace (fs : FileSystem) (n : Inode) : Prop :=
  ∃ p, fs.inodes[pred n.parent_inode]? = some p ∧ p.inode = n.parent_inode

/-- The calls that keep the table as it should be -/
def Harmless (behind : Inode → List Byte) (fs : FileSystem) : Operation → Prop
  | .fopen path mode memory _ => find_inode_by_path behind fs path.bytes = none → creates mode →
    ∃ parent_path filename, strrchr path.bytes = some (parent_path, filename) ∧
      ∀ parent block_index, findDirectory behind fs parent_path = some parent → allocate_block fs = some block_index →
        Extends fs filename memory
  | .mkdir path _ memory _ => ∃ parent_path dirname, strrchr path.bytes = some (parent_path, dirname) ∧
      ∀ parent, findDirectory behind fs parent_path = some parent →
        findChild behind fs (numberAt fs parent) dirname = none → memory = .failed ∨ Extends fs dirname memory
  | .remove path => ∀ i n, find_inode_by_path behind fs path.bytes = some i → fs.inodes[i]? = some n → n.child_count = 0 →
      ParentInPlace fs n
  | .rename old_path new_path _ => ∀ i n, find_inode_by_path behind fs old_path.bytes = some i → fs.inodes[i]? = some n →
    ∃ new_parent_path new_name, strrchr new_path.bytes = some (new_parent_path, new_name) ∧
      ∀ j e, findDirectory behind fs new_parent_path = some j → fs.inodes[j]? = some e →
        ParentInPlace fs n ∧ new_name.length < VFS_MAX_NAME ∧
        (∀ m ∈ fs.inodes, m.parent_inode = e.inode → m.name = new_name → m.inode = n.inode) ∧
        ¬ Below (parentOf fs.inodes) n.inode e.inode

/-! ## Calls -/

section
variable {name : List Byte} {type mode now block_index : ℕ} {d : Inode} {memory : Realloc}

/-- A new inode below a directory keeps the tree. -/
theorem Inv.addInode (h : Inv fs) (hext : Extends fs name memory) (hd : fs.inodes[i]? = some d)
    (hdir : d.type = VFS_TYPE_DIR) (hname : ∀ n ∈ fs.inodes, n.parent_inode = d.inode → n.name ≠ name) :
    TreeInv (addChild fs.inodes i (newInode fs name type mode now block_index i)) := by
  have htake : name.take VFS_MAX_NAME = name := List.take_of_length_le hext.terminated.le
  refine h.tree.addChild hd hdir hext.unused (Nat.succ_pos _) (numberAt_eq hd) rfl ?_ ?_ hext.room
  · intro n hn hlink
    rw [newInode, htake]
    exact hname n hn hlink
  · rw [newInode, htake]
    exact hext.terminated

/-- What is in the table after a new inode -/
theorem mem_newInode (h : Inv fs) (hext : Extends fs name memory) (hd : fs.inodes[i]? = some d) {n : Inode}
    (hn : n ∈ addChild fs.inodes i (newInode fs name type mode now block_index i)) :
    (∃ m ∈ fs.inodes, countChild d m = n) ∨ n = newInode fs name type mode now block_index i := by
  rwa [addChild_eq h.tree.unique hd hext.unused, List.mem_append, List.mem_map, List.mem_singleton] at hn

end

theorem Inv.vfs_mkdir {path : CString} {mode now : ℕ} {memory : Realloc} (h : Inv fs)
    (hharmless : Harmless behind fs (.mkdir path mode memory now)) :
    ∃ fs' r, vfs_mkdir behind fs path mode memory now = some (fs', r) ∧ Inv fs' := by
  obtain ⟨parent_path, dirname, hsplit, hnew⟩ := hharmless
  simp only [Vfs.vfs_mkdir, hsplit, Option.bind_some]
  cases hdir : findDirectory behind fs parent_path with
  | none => exact ⟨fs, -1, rfl, h⟩
  | some parent =>
    dsimp only
    cases hchild : findChild behind fs (numberAt fs parent) dirname with
    | some j => exact ⟨fs, -1, rfl, h⟩
    | none =>
      obtain rfl | hext := hnew parent hdir hchild
      · exact ⟨fs, -1, rfl, h⟩
      · obtain ⟨-, d, hd, hdtype⟩ := findDirectory_eq_some hdir
        obtain rfl := hext.inPlace
        refine ⟨_, 0, if_pos hext.room, ⟨h.addInode hext hd hdtype fun n hn hlink => ?_, ?_⟩⟩
        · rw [numberAt_eq hd] at hchild
          have hname := findChild_eq_none hchild hn hlink
          rwa [nameOf_of_lt (h.tree.terminated n hn)] at hname
        · refine h.blocks.of_files rfl rfl fun n hn hfile => ?_
          obtain ⟨m, hm, rfl⟩ | rfl := mem_newInode h hext hd hn
          · obtain ⟨hi, -, -, ht, hb⟩ := keepsLinks_countChild d m
            exact ⟨m, hm, ht.symm.trans hfile, hi.symm, hb.symm⟩
          · exact absurd hfile (by decide : VFS_TYPE_DIR ≠ VFS_TYPE_FILE)

/-- A free block is taken for a new file. -/
theorem Inv.takeBlock {name : List Byte} {memory : Realloc} {now block_index : ℕ} {d : Inode} (h : Inv fs)
    (hext : Extends fs name memory) (hd : fs.inodes[i]? = some d) (hblock : allocate_block fs = some block_index) :
    BlocksInv { inodes := addChild fs.inodes i (newInode fs name VFS_TYPE_FILE 0o666 now block_index i),
                free_blocks := pred fs.free_blocks,
                block_map := fs.block_map.set block_index (fs.inode_count + 1) } := by
  obtain ⟨hlt, hzero, -⟩ := List.findIdx?_eq_some_iff_getElem.mp hblock
  have hzero : fs.block_map[block_index] = 0 := of_decide_eq_true hzero
  have hne (n : Inode) (hn : n ∈ fs.inodes) (hfile : n.type = VFS_TYPE_FILE) : block_index ≠ n.block_index := by
    intro heq
    have hmapped := h.blocks.mapped n hn hfile
    rw [← heq, List.getElem?_eq_getElem hlt, hzero] at hmapped
    exact (h.tree.positive n hn).ne (Option.some.inj hmapped)
  refine { free := ?_, disjoint := ?_, mapped := ?_, total := ?_ }
  · have hpos : 0 < fs.block_map.count 0 := List.count_pos_iff.mpr (hzero ▸ List.getElem_mem hlt)
    have hle : fs.block_map.count 0 ≤ fs.block_map.length := List.count_le_length
    have htotal : fs.block_map.length = 256 := h.blocks.total
    dsimp only
    rw [h.blocks.free, List.count_set hlt, pred_of_pos hpos (by omega)]
    simp [hzero]
  · intro n hn m hm hnfile hmfile hsame
    obtain ⟨n, hn₀, rfl⟩ | rfl := mem_newInode h hext hd hn
    · obtain ⟨hni, -, -, hnt, hnb⟩ := keepsLinks_countChild d n
      obtain ⟨m, hm₀, rfl⟩ | rfl := mem_newInode h hext hd hm
      · obtain ⟨hmi, -, -, hmt, hmb⟩ := keepsLinks_countChild d m
        rw [hni, hmi]
        exact h.blocks.disjoint n hn₀ m hm₀ (hnt ▸ hnfile) (hmt ▸ hmfile) (hnb ▸ hmb ▸ hsame)
      · exact absurd (hnb.symm.trans hsame).symm (hne n hn₀ (hnt ▸ hnfile))
    · obtain ⟨m, hm₀, rfl⟩ | rfl := mem_newInode h hext hd hm
      · obtain ⟨-, -, -, hmt, hmb⟩ := keepsLinks_countChild d m
        exact absurd (hsame.trans hmb) (hne m hm₀ (hmt ▸ hmfile))
      · rfl
  · intro n hn hfile
    obtain ⟨m, hm, rfl⟩ | rfl := mem_newInode h hext hd hn
    · obtain ⟨hmi, -, -, hmt, hmb⟩ := keepsLinks_countChild d m
      dsimp only
      rw [hmb, hmi, List.getElem?_set_ne (hne m hm (hmt ▸ hfile))]
      exact h.blocks.mapped m hm (hmt ▸ hfile)
    · exact List.getElem?_set_self hlt
  · exact (List.length_set ..).trans h.blocks.total

theorem Inv.createFile {path : List Byte} {memory : Realloc} {now : ℕ} (h : Inv fs)
    (hnone : find_inode_by_path behind fs path = none) (hsplit : strrchr path = some (parent_path, filename))
    (hnew : ∀ parent block_index, findDirectory behind fs parent_path = some parent → allocate_block fs = some block_index →
      Extends fs filename memory) :
    ∃ fs' r, createFile behind fs path memory now = some (fs', r) ∧ Inv fs' := by
  simp only [Vfs.createFile, hsplit, Option.bind_some]
  cases hdir : findDirectory behind fs parent_path with
  | none => exact ⟨fs, none, rfl, h⟩
  | some parent =>
    dsimp only
    cases hblock : allocate_block fs with
    | none => exact ⟨fs, none, rfl, h⟩
    | some block_index =>
      obtain ⟨hfind, d, hd, hdtype⟩ := findDirectory_eq_some hdir
      have hext := hnew parent block_index hdir hblock
      obtain rfl := hext.inPlace
      dsimp only
      rw [if_pos hext.room]
      refine ⟨_, _, rfl, h.addInode hext hd hdtype fun n hn hlink => ?_, h.takeBlock hext hd hblock⟩
      exact ne_of_find_none h.tree hsplit hnone hfind hd hn hlink

/-- The time of an access changes nothing else. -/
theorem Inv.openInode (h : Inv fs) (i : ℕ) (mode : CString) (now : ℕ) : Inv (openInode fs i mode now).1 := by
  cases hi : fs.inodes[i]? with
  | none =>
    have hsame : (Vfs.openInode fs i mode now).1 = fs := by
      rw [Vfs.openInode, List.modify_eq_self (List.getElem?_eq_none_iff.mp hi)]
    rwa [hsame]
  | some x =>
    have hmap := h.tree.unique.modify_eq_map hi fun n => { n with atime := now }
    have hkeep : KeepsLinks fun n => if n.inode = x.inode then { n with atime := now } else n := by
      intro n
      dsimp only
      split_ifs <;> exact ⟨rfl, rfl, rfl, rfl, rfl⟩
    have htree := h.tree.map hkeep fun n => by split_ifs <;> rfl
    refine ⟨?_, h.blocks.of_files rfl rfl fun n hn hfile => ?_⟩
    · rw [Vfs.openInode, hmap]
      exact htree
    · rw [Vfs.openInode, hmap] at hn
      obtain ⟨m, hm, rfl⟩ := List.mem_map.mp hn
      obtain ⟨hmi, -, -, hmt, hmb⟩ := hkeep m
      exact ⟨m, hm, hmt.symm.trans hfile, hmi.symm, hmb.symm⟩

theorem Inv.vfs_fopen {path mode : CString} {memory : Realloc} {now : ℕ} (h : Inv fs)
    (hharmless : Harmless behind fs (.fopen path mode memory now)) :
    ∃ fs' r, vfs_fopen behind fs path mode memory now = some (fs', r) ∧ Inv fs' := by
  rw [Vfs.vfs_fopen]
  cases hfind : find_inode_by_path behind fs path.bytes with
  | some i => exact ⟨_, _, rfl, h.openInode i mode now⟩
  | none =>
    dsimp only
    by_cases hcreates : creates mode
    · obtain ⟨parent_path, filename, hsplit, hnew⟩ := hharmless hfind hcreates
      obtain ⟨fs', r, hcreate, h'⟩ := h.createFile hfind hsplit hnew
      rw [if_pos hcreates, hcreate, Option.map_some]
      cases r with
      | none => exact ⟨fs', none, rfl, h'⟩
      | some i => exact ⟨_, _, rfl, h'.openInode i mode now⟩
    · rw [if_neg hcreates]
      exact ⟨fs, none, rfl, h⟩

/-- The block of a removed file is free again. -/
theorem Inv.freeBlock {x d : Inode} (h : Inv fs) (hx : fs.inodes[i]? = some x) (hfile : x.type = VFS_TYPE_FILE) :
    BlocksInv { free_block fs x.block_index with inodes := (fs.inodes.map (uncountChild d)).eraseIdx i } := by
  have hx' := List.mem_of_getElem? hx
  have hkeep := keepsLinks_uncountChild d
  have hmem (n : Inode) (hn : n ∈ (fs.inodes.map (uncountChild d)).eraseIdx i) :
      ∃ m ∈ fs.inodes, m.inode ≠ x.inode ∧ uncountChild d m = n := by
    have hdistinct := (Distinct.of_map fun n => (hkeep n).1).mpr h.tree.unique
    rw [hdistinct.eraseIdx_eq_filter (getElem?_uncount hx), List.mem_filter, List.mem_map, decide_eq_true_iff,
      (hkeep x).1] at hn
    obtain ⟨⟨m, hm, rfl⟩, hne⟩ := hn
    exact ⟨m, hm, by rwa [(hkeep m).1] at hne, rfl⟩
  obtain ⟨hlt, hmapped⟩ := List.getElem?_eq_some_iff.mp (h.blocks.mapped x hx' hfile)
  have hpos : fs.block_map[x.block_index] ≠ 0 := hmapped ▸ (h.tree.positive x hx').ne'
  have htotal : fs.block_map.length = 256 := h.blocks.total
  have htaken : fs.block_map.getD x.block_index 0 ≠ 0 := by
    rwa [List.getD_eq_getElem _ _ hlt]
  rw [free_block, if_pos ⟨hlt.trans_eq h.blocks.total, htaken⟩]
  refine { free := ?_, disjoint := ?_, mapped := ?_, total := (List.length_set ..).trans h.blocks.total }
  · have hle : (fs.block_map.set x.block_index 0).count 0 ≤ (fs.block_map.set x.block_index 0).length := List.count_le_length
    rw [List.length_set] at hle
    dsimp only
    rw [List.count_set hlt] at hle ⊢
    simp only [beq_iff_eq, if_neg hpos, if_true] at hle ⊢
    rw [h.blocks.free, word_of_lt (by omega)]
    omega
  · intro n hn m hm hnfile hmfile hsame
    obtain ⟨n, hn₀, -, rfl⟩ := hmem n hn
    obtain ⟨m, hm₀, -, rfl⟩ := hmem m hm
    obtain ⟨hni, -, -, hnt, hnb⟩ := hkeep n
    obtain ⟨hmi, -, -, hmt, hmb⟩ := hkeep m
    rw [hni, hmi]
    exact h.blocks.disjoint n hn₀ m hm₀ (hnt ▸ hnfile) (hmt ▸ hmfile) (hnb ▸ hmb ▸ hsame)
  · intro n hn hnfile
    obtain ⟨m, hm, hne, rfl⟩ := hmem n hn
    obtain ⟨hmi, -, -, hmt, hmb⟩ := hkeep m
    have hother : x.block_index ≠ m.block_index := fun hsame =>
      hne (h.blocks.disjoint x hx' m hm hfile (hmt ▸ hnfile) hsame).symm
    dsimp only
    rw [hmb, hmi, List.getElem?_set_ne hother]
    exact h.blocks.mapped m hm (hmt ▸ hnfile)

theorem Inv.vfs_remove {path : CString} (h : Inv fs) (hharmless : Harmless behind fs (.remove path)) :
    ∃ fs' r, vfs_remove behind fs path = some (fs', r) ∧ Inv fs' := by
  rw [Vfs.vfs_remove]
  cases hfind : (find_inode_by_path behind fs path.bytes).bind fun i => fs.inodes[i]? with
  | none => exact ⟨fs, -1, rfl, h⟩
  | some x =>
    obtain ⟨i, hi, hx⟩ := Option.bind_eq_some_iff.mp hfind
    dsimp only
    by_cases hchildren : 0 < x.child_count
    · rw [if_pos hchildren]
      exact ⟨fs, -1, rfl, h⟩
    · have hleaf : x.child_count = 0 := by omega
      obtain ⟨d, hd, hdx⟩ := hharmless i x hi hx hleaf
      have hin : pred x.parent_inode < fs.inode_count := (List.getElem?_eq_some_iff.mp hd).1
      have hidx : (fs.inodes.map (uncountChild d)).findIdx (fun m => decide (m.inode = x.inode)) = i := by
        have hkey := (keepsLinks_uncountChild d x).1
        have hdistinct := (Distinct.of_map fun n => (keepsLinks_uncountChild d n).1).mpr h.tree.unique
        rw [← hdistinct.findIdx_eq (getElem?_uncount hx), hkey]
      have htree := h.tree.remove hx hleaf (List.mem_of_getElem? hd) hdx
      rw [if_neg hchildren, if_pos hin, modify_uncount h.tree.unique hd]
      by_cases hfile : x.type = VFS_TYPE_FILE
      · rw [if_pos hfile]
        have hinodes (l : List Inode) : free_block { fs with inodes := l } x.block_index =
            { free_block fs x.block_index with inodes := l } := by
          unfold free_block
          dsimp only
          split_ifs <;> rfl
        rw [hinodes]
        dsimp only
        rw [hidx]
        exact ⟨_, 0, rfl, htree, h.freeBlock hx hfile⟩
      · rw [if_neg hfile]
        dsimp only
        rw [hidx]
        refine ⟨_, 0, rfl, htree, h.blocks.of_files rfl rfl fun n hn hnfile => ?_⟩
        obtain ⟨m, hm, rfl⟩ := List.mem_map.mp (List.mem_of_mem_eraseIdx hn)
        obtain ⟨hmi, -, -, hmt, hmb⟩ := keepsLinks_uncountChild d m
        exact ⟨m, hm, hmt.symm.trans hnfile, hmi.symm, hmb.symm⟩

theorem Inv.vfs_rename {old_path new_path : CString} {now : ℕ} (h : Inv fs)
    (hharmless : Harmless behind fs (.rename old_path new_path now)) :
    ∃ fs' r, vfs_rename behind fs old_path new_path now = some (fs', r) ∧ Inv fs' := by
  rw [Vfs.vfs_rename]
  cases hfind : find_inode_by_path behind fs old_path.bytes with
  | none => exact ⟨fs, -1, rfl, h⟩
  | some i =>
    obtain ⟨x, hx⟩ := h.tree.exists_of_find hfind
    obtain ⟨new_parent_path, new_name, hsplit, hnew⟩ := hharmless i x hfind hx
    simp only [hsplit, Option.bind_some]
    cases hdir : findDirectory behind fs new_parent_path with
    | none => exact ⟨fs, -1, rfl, h⟩
    | some j =>
      obtain ⟨-, e, he, hetype⟩ := findDirectory_eq_some hdir
      obtain ⟨⟨d, hd, hdx⟩, hterm, hname, hbelow⟩ := hnew j e hdir he
      dsimp only
      have hin : pred x.parent_inode < fs.inode_count := (List.getElem?_eq_some_iff.mp hd).1
      have hinodes : ((fs.inodes.modify (pred x.parent_inode) fun p => { p with child_count := pred p.child_count }).modify j
          fun p => { p with child_count := word (p.child_count + 1) }).modify i (fun n =>
            { n with name := new_name.take VFS_MAX_NAME, parent_inode := numberAt fs j, mtime := now }) =
          fs.inodes.map (moveInode x d e new_name now) := by
        rw [List.take_of_length_le hterm.le, numberAt_eq he]
        exact modify_move h.tree.unique hx hd he
      rw [hx, Option.bind_some, if_pos hin, hinodes]
      refine ⟨_, 0, rfl, h.tree.move hx (List.mem_of_getElem? hd) hdx (List.mem_of_getElem? he) hetype hbelow hname hterm, ?_⟩
      refine h.blocks.of_files rfl rfl fun n hn hfile => ?_
      obtain ⟨m, hm, rfl⟩ := List.mem_map.mp hn
      obtain ⟨hmi, hmt, hmb⟩ := moveInode_keeps (x := x) (d := d) (e := e) m
      exact ⟨m, hm, hmt.symm.trans hfile, hmi.symm, hmb.symm⟩

/-! ## Runs -/

theorem inv_fresh (now : ℕ) : Inv (FileSystem.fresh now) := by
  have hmem (n : Inode) (hn : n ∈ (FileSystem.fresh now).inodes) : n = FileSystem.rootInode now := List.mem_singleton.mp hn
  have hnotfile (n : Inode) (hn : n ∈ (FileSystem.fresh now).inodes) : n.type ≠ VFS_TYPE_FILE := by
    rw [hmem n hn]
    exact (by decide : VFS_TYPE_DIR ≠ VFS_TYPE_FILE)
  have htree : IsTree (FileSystem.fresh now).inodes := by
    refine { unique := List.nodup_singleton 1, parents := ?_, reaches := ?_, names := ?_, counts := ?_ }
    · intro n hn hne
      exact absurd (congrArg Inode.inode (hmem n hn)) hne
    · intro n hn
      rw [hmem n hn]
      exact .root
    · intro n hn m hm _ _
      rw [hmem n hn, hmem m hm]
    · intro n hn
      rw [hmem n hn]
      rfl
  refine ⟨{ htree with root := ⟨_, rfl, rfl, rfl, rfl⟩, positive := ?_, terminated := ?_, short := ?_ },
    { free := ?_, disjoint := fun n hn _ _ hfile => absurd hfile (hnotfile n hn),
      mapped := fun n hn hfile => absurd hfile (hnotfile n hn), total := List.length_replicate }⟩
  · intro n hn
    rw [hmem n hn]
    exact Nat.one_pos
  · intro n hn
    rw [hmem n hn]
    exact (by decide : 1 < VFS_MAX_NAME)
  · exact (by decide : 1 < 2 ^ 32)
  · exact List.count_replicate_self.symm

/-- A harmless call has an outcome, and keeps the tables as they should be. -/
theorem Inv.run (h : Inv fs) {operation : Operation} (hharmless : Harmless behind fs operation) :
    ∃ fs', operation.run behind fs = some fs' ∧ Inv fs' := by
  cases operation with
  | fopen path mode memory now =>
    obtain ⟨fs', r, hcall, h'⟩ := h.vfs_fopen hharmless
    exact ⟨fs', by rw [Operation.run, hcall, Option.map_some], h'⟩
  | mkdir path mode memory now =>
    obtain ⟨fs', r, hcall, h'⟩ := h.vfs_mkdir hharmless
    exact ⟨fs', by rw [Operation.run, hcall, Option.map_some], h'⟩
  | remove path =>
    obtain ⟨fs', r, hcall, h'⟩ := h.vfs_remove hharmless
    exact ⟨fs', by rw [Operation.run, hcall, Option.map_some], h'⟩
  | rename old_path new_path now =>
    obtain ⟨fs', r, hcall, h'⟩ := h.vfs_rename hharmless
    exact ⟨fs', by rw [Operation.run, hcall, Option.map_some], h'⟩

/-- The calls one after the other -/
def runs (behind : Inode → List Byte) (fs : FileSystem) (operations : List Operation) : Option FileSystem :=
  operations.foldlM (Operation.run behind) fs

/-- Each call of a run is harmless in the state it finds. -/
def HarmlessRun (behind : Inode → List Byte) : FileSystem → List Operation → Prop
  | _, [] => True
  | fs, operation :: operations => Harmless behind fs operation ∧
      ∀ fs', operation.run behind fs = some fs' → HarmlessRun behind fs' operations

theorem Inv.runs (h : Inv fs) {operations : List Operation} (hharmless : HarmlessRun behind fs operations) :
    ∃ fs', runs behind fs operations = some fs' ∧ Inv fs' := by
  induction operations generalizing fs with
  | nil => exact ⟨fs, rfl, h⟩
  | cons operation operations ih =>
    obtain ⟨hfirst, hrest⟩ := hharmless
    obtain ⟨fs₁, hrun, h₁⟩ := h.run hfirst
    obtain ⟨fs₂, hruns, h₂⟩ := ih h₁ (hrest fs₁ hrun)
    refine ⟨fs₂, ?_, h₂⟩
    rw [Vfs.runs, List.foldlM_cons, hrun]
    exact hruns

/-- After harmless calls on a fresh file system its inode table is a tree. -/
theorem runs_isTree (behind : Inode → List Byte) (now : ℕ) (operations : List Operation)
    (h : HarmlessRun behind (FileSystem.fresh now) operations) :
    ∃ fs, runs behind (FileSystem.fresh now) operations = some fs ∧ IsTree fs.inodes ∧ BlocksOwned fs := by
  obtain ⟨fs, hruns, hinv⟩ := (inv_fresh now).runs h
  exact ⟨fs, hruns, hinv.tree.toIsTree, hinv.blocks.toBlocksOwned⟩

set_option maxRecDepth 8192 in
theorem runs_isTree_mkdir_remove : ∃ fs, runs (fun _ => []) (FileSystem.fresh 0)
    [.mkdir (.lit "/a") 0o755 .inPlace 7, .remove (.lit "/a")] = some fs ∧ IsTree fs.inodes ∧ BlocksOwned fs := by
  refine runs_isTree (fun _ => []) 0 _ ⟨⟨[], [(('a' : Char) : Byte)], by decide, fun parent hparent _ => .inr ?_⟩, ?_⟩
  · exact ⟨rfl, by decide, by decide, by decide⟩
  · intro fs hrun
    have hmkdir : Operation.run (fun _ => []) (FileSystem.fresh 0) (.mkdir (.lit "/a") 0o755 .inPlace 7) =
        some { FileSystem.fresh 0 with
          inodes := [{ FileSystem.rootInode 0 with child_count := 1 },
            newInode (FileSystem.fresh 0) [(('a' : Char) : Byte)] VFS_TYPE_DIR 0o755 7 0 0] } := by
      decide
    obtain rfl := Option.some.inj (hmkdir.symm.trans hrun)
    refine ⟨fun i n hi hn _ => ?_, fun _ _ => trivial⟩
    have hroot : n.parent_inode = 1 := by
      cases i with
      | zero => exact absurd hi (by decide)
      | succ i =>
        obtain ⟨hlt, rfl⟩ := List.getElem?_eq_some_iff.mp hn
        have hi : i = 0 := Nat.lt_one_iff.mp (Nat.lt_of_succ_lt_succ hlt)
        subst hi
        rfl
    rw [ParentInPlace, hroot]
    exact ⟨_, rfl, rfl⟩

/-- `mkdir /a; mkdir /b; rm /a; mkdir /c` makes two inodes with the number 3. -/
theorem mkdir_reuses_number : ∃ fs, runs (fun _ => []) (FileSystem.fresh 0) [.mkdir (.lit "/a") 0o755 .inPlace 0,
    .mkdir (.lit "/b") 0o755 .inPlace 0, .remove (.lit "/a"), .mkdir (.lit "/c") 0o755 .inPlace 0] = some fs ∧
      ¬ IsTree fs.inodes := by
  have hnumbers : (runs (fun _ => []) (FileSystem.fresh 0) [.mkdir (.lit "/a") 0o755 .inPlace 0,
      .mkdir (.lit "/b") 0o755 .inPlace 0, .remove (.lit "/a"), .mkdir (.lit "/c") 0o755 .inPlace 0]).map
        (fun fs => fs.inodes.map Inode.inode) = some [1, 3, 3] := by
    decide
  obtain ⟨fs, hruns, hinodes⟩ := Option.map_eq_some_iff.mp hnumbers
  refine ⟨fs, hruns, fun h => ?_⟩
  have hunique := h.unique
  rw [Distinct, hinodes] at hunique
  exact absurd hunique (by decide)

end ValidcTools.Vfs
