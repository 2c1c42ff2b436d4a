import ValidcTools.Vfs.Paths

/-! The backing file of the VFS: what is in it when the file system is mounted again. -/
namespace ValidcTools.Vfs

open Bytes

/-! ## Records of the backing file -/

/-- `sizeof(vfs_superblock)`, which is also `sb.data_start` -/
def sizeofSuperblock : ℕ := 1056

/-- `sizeof(vfs_inode)` -/
def sizeofInode : ℕ := 320

/-- The bytes of a name array: the name, its terminator where there is room for it, and what else is there -/
def nameBytes (unused : ℕ → Byte) (name : List Byte) : List Byte :=
  (name ++ 0 :: (List.range VFS_MAX_NAME).map unused).take VFS_MAX_NAME

/-- The bytes of an inode. `unused` is what lies in the bytes that no field uses. -/
def inodeBytes (unused : ℕ → Byte) (n : Inode) : List Byte :=
  ofNat 4 n.inode ++ (nameBytes unused n.name ++ (ofNat 1 n.type ++ (ofNat 2 n.mode ++ ([unused 0, unused 1] ++
    (ofNat 4 n.uid ++ (ofNat 4 n.gid ++ (ofNat 8 n.atime ++ (ofNat 8 n.mtime ++ (ofNat 8 n.ctime ++ (ofNat 8 n.size ++
      (ofNat 4 n.block_index ++ (ofNat 4 n.parent_inode ++ (ofNat 4 n.child_count ++
        [unused 2, unused 3, unused 4, unused 5])))))))))))))

/-- The inode that starts with these bytes -/
def inodeAt (l : List Byte) : Inode where
  inode := numAt l 0 4
  name := (CString.ofBytes ((l.drop 4).take VFS_MAX_NAME)).bytes
  type := numAt l 259 1
  mode := numAt l 260 2
  uid := numAt l 264 4
  gid := numAt l 268 4
  atime := numAt l 272 8
  mtime := numAt l 280 8
  ctime := numAt l 288 8
  size := numAt l 296 8
  block_index := numAt l 304 4
  parent_inode := numAt l 308 4
  child_count := numAt l 312 4

/-- The bytes of the superblock -/
def superblockBytes (magic : UInt32) (unused : ℕ → Byte) (fs : FileSystem) : List Byte :=
  ofNat 4 magic.toNat ++ ([unused 0, unused 1, unused 2, unused 3] ++ (ofNat 8 (VFS_TOTAL_BLOCKS * VFS_BLOCK_SIZE) ++
    (ofNat 4 fs.inode_count ++ (ofNat 4 fs.free_blocks ++ (ofNat 8 sizeofSuperblock ++ fs.block_map.flatMap (ofNat 4))))))

/-- `fseek` to `a` and `fwrite` there; a gap behind the end of the file reads as zeros. -/
def writeAt (file : List Byte) (a : ℕ) (bs : List Byte) : List Byte :=
  file.take a ++ (List.replicate (a - file.length) 0 ++ (bs ++ file.drop (a + bs.length)))

/-! ## Mounted file systems -/

/-- What `vfs_fopen` gave back, and has become since then -/
inductive Stream
  | null
  | opened (file : File)
  | closed
deriving DecidableEq

/-- A mounted file system with its backing file and what the program has opened -/
structure Session where
  fs : FileSystem
  backing_file : List Byte
  streams : List Stream
deriving DecidableEq

/-- What a program does with the file system; what is at `ptr` is part of a `vfs_fwrite`. -/
inductive Action
  | fopen (path mode : CString) (memory : Realloc) (now : UInt64)
  | mkdir (path : CString) (mode : UInt16) (memory : Realloc) (now : UInt64)
  | fwrite (stream : ℕ) (size nmemb : UInt64) (ptr : List Byte) (hptr : ptr.length = (size * nmemb).toNat) (now : UInt64)
  | fclose (stream : ℕ) (now : UInt64)

section
variable (magic : UInt32) (unused : ℕ → Byte)

/-- `vfs_mount` of a file that does not exist yet. The flag `_IO_WRITE` is set in a stream that may be written. -/
def mountNew (now : UInt64) : Session where
  fs := FileSystem.fresh now.toNat
  backing_file := superblockBytes magic unused (FileSystem.fresh now.toNat) ++
    inodeBytes unused (FileSystem.rootInode now.toNat)
  streams := []

/-- `vfs_mount` of a file that exists -/
def vfs_mount (backing_file : List Byte) (now : UInt64) : Option Session :=
  if numAt backing_file 0 4 = magic.toNat then
    let inode_count := numAt backing_file 16 4
    let free_blocks := numAt backing_file 20 4
    let block_map := (List.range VFS_TOTAL_BLOCKS).map fun i => numAt backing_file (32 + 4 * i) 4
    if inode_count = 1 then
      let root := FileSystem.rootInode now.toNat
      some ⟨⟨[root], free_blocks, block_map⟩, writeAt backing_file sizeofSuperblock (inodeBytes unused root), []⟩
    else
      let inodes := (List.range inode_count).map fun i => inodeAt (backing_file.drop (sizeofSuperblock + sizeofInode * i))
      some ⟨⟨inodes, free_blocks, block_map⟩, backing_file, []⟩
  else none

/-- `vfs_unmount` writes the superblock and, behind it, the inode table. -/
def vfs_unmount (s : Session) : List Byte :=
  writeAt s.backing_file 0 (superblockBytes magic unused s.fs ++ s.fs.inodes.flatMap (inodeBytes unused))

end

/-- Where the data of a file begins -/
def blockOffset (n : Inode) : ℕ := sizeofSuperblock + word (n.block_index * VFS_BLOCK_SIZE)

/-- What `vfs_fread` puts at `ptr` -/
def vfs_fread (s : Session) (size nmemb : UInt64) (file : File) : List Byte :=
  if file.mode.getD 0 0 ≠ ('r' : Char) then [] else
    match s.fs.inodes[file.inode]? with
    | none => []
    | some n =>
      let to_read := (size * nmemb).toNat
      let to_read := if n.size < (file.offset + to_read) % 2 ^ 64 then (n.size + 2 ^ 64 - file.offset) % 2 ^ 64 else to_read
      (s.backing_file.drop (blockOffset n + file.offset)).take to_read

/-- The bytes that `vfs_fwrite` takes from `ptr`: a block is not left. -/
def accepted (file : File) (ptr : List Byte) : List Byte :=
  ptr.take (if VFS_BLOCK_SIZE < (file.offset + ptr.length) % 2 ^ 64 then (VFS_BLOCK_SIZE + 2 ^ 64 - file.offset) % 2 ^ 64
    else ptr.length)

/-- `vfs_fwrite` writes to a file opened in these modes. -/
def writes (file : File) : Bool := decide (file.mode.getD 0 0 = ('w' : Char) ∨ file.mode.getD 0 0 = ('a' : Char))

/-- `none` is a division by zero, at the end of the call. -/
def vfs_fwrite (s : Session) (stream : ℕ) (size : UInt64) (ptr : List Byte) (file : File) (now : UInt64) : Option Session :=
  if writes file then
    match s.fs.inodes[file.inode]? with
    | none => none
    | some n =>
      if size = 0 then none
      else
        let offset := (file.offset + (accepted file ptr).length) % 2 ^ 64
        some { fs := { s.fs with inodes := s.fs.inodes.modify file.inode fun n =>
                 { n with size := max n.size offset, mtime := now.toNat } },
               backing_file := writeAt s.backing_file (blockOffset n + file.offset) (accepted file ptr),
               streams := s.streams.set stream (.opened { file with offset := offset }) }
  else some s

section
variable (behind : Inode → List Byte)

/-- One action; `none` is undefined behaviour, such as the use of a stream that is closed. -/
def Action.run (s : Session) : Action → Option Session
  | .fopen path mode memory now => (vfs_fopen behind s.fs path mode memory now.toNat).map fun
    | (fs, none) => { s with fs := fs, streams := s.streams ++ [.null] }
    | (fs, some file) => { s with fs := fs, streams := s.streams ++ [.opened file] }
  | .mkdir path mode memory now => (vfs_mkdir behind s.fs path mode.toNat memory now.toNat).map fun (fs, _) => { s with fs := fs }
  | .fwrite stream size _ ptr _ now =>
    match s.streams[stream]? with
    | some (.opened file) => vfs_fwrite s stream size ptr file now
    | some .null => some s
    | _ => none
  | .fclose stream now =>
    match s.streams[stream]? with
    | some (.opened file) =>
      some { s with fs := { s.fs with inodes := s.fs.inodes.modify file.inode fun n => { n with mtime := now.toNat } },
                    streams := s.streams.set stream .closed }
    | some .null => some s
    | _ => none

end

/-! ## What was written -/

/-- The contents of the files, by their place in the table, as the program has written them -/
def Action.record (s : Session) (contents : ℕ → List Byte) : Action → ℕ → List Byte
  | .fwrite stream _ _ ptr _ _ =>
    match s.streams[stream]? with
    | some (.opened file) =>
      if writes file then Function.update contents file.inode (writeAt (contents file.inode) file.offset (accepted file ptr))
      else contents
    | _ => contents
  | _ => contents

/-- The actions one after the other, with what they have written -/
def play (behind : Inode → List Byte) : Session × (ℕ → List Byte) → List Action → Option (Session × (ℕ → List Byte))
  | state, [] => some state
  | (s, contents), action :: actions => (action.run behind s).bind fun s' => play behind (s', action.record s contents) actions

/-- A stream on an inode, opened for reading -/
def reader (i : ℕ) : File := ⟨i, 0, [(('r' : Char) : Byte)]⟩

/-- After `vfs_unmount` and `vfs_mount` the table is as it was and each file has the contents that were written, and no
data block overlaps the table. -/
def Persists (magic : UInt32) (unused : ℕ → Byte) (now : UInt64) (s : Session) (contents : ℕ → List Byte) : Prop :=
  ∃ s', vfs_mount magic unused (vfs_unmount magic unused s) now = some s' ∧
    s'.fs.inodes = s.fs.inodes ∧
    (∀ i n, s'.fs.inodes[i]? = some n → n.type = VFS_TYPE_FILE →
      vfs_fread s' 1 (UInt64.ofNat n.size) (reader i) = contents i) ∧
    ∀ n ∈ s.fs.inodes, n.type = VFS_TYPE_FILE →
      Disjoint (Finset.Ico (blockOffset n) (blockOffset n + VFS_BLOCK_SIZE))
        (Finset.Ico sizeofSuperblock (sizeofSuperblock + sizeofInode * s.fs.inode_count))

/-! ## Records read back -/

/-- The fields of an inode have the widths of the source. -/
structure Fits (n : Inode) : Prop where
  inode : n.inode < 2 ^ 32
  name : n.name.length ≤ VFS_MAX_NAME ∧ (0 : Byte) ∉ n.name
  type : n.type < 2 ^ 8
  mode : n.mode < 2 ^ 16
  owner : n.uid < 2 ^ 32 ∧ n.gid < 2 ^ 32
  times : n.atime < 2 ^ 64 ∧ n.mtime < 2 ^ 64 ∧ n.ctime < 2 ^ 64
  size : n.size < 2 ^ 64
  block_index : n.block_index < 2 ^ 32
  parent_inode : n.parent_inode < 2 ^ 32
  child_count : n.child_count < 2 ^ 32

section
variable {unused : ℕ → Byte} {n : Inode} {file : List Byte}

@[simp] theorem length_nameBytes (name : List Byte) : (nameBytes unused name).length = 255 := by
  unfold nameBytes
  rw [List.length_take, List.length_append, List.length_cons, List.length_map, List.length_range]
  exact Nat.min_eq_left (by unfold VFS_MAX_NAME; omega)

@[simp] theorem length_inodeBytes : (inodeBytes unused n).length = sizeofInode := by
  simp [inodeBytes, sizeofInode]

/-- A name is read up to its terminator, or to the end of its array. -/
theorem ofBytes_nameBytes {name : List Byte} (hlen : name.length ≤ VFS_MAX_NAME) (hnul : (0 : Byte) ∉ name) :
    (CString.ofBytes (nameBytes unused name)).bytes = name := by
  obtain hfull | hshort := hlen.eq_or_lt
  · rw [nameBytes, ← hfull, List.take_left, CString.ofBytes_bytes_of_nulFree hnul]
  · obtain ⟨k, hk⟩ := Nat.exists_eq_add_of_lt hshort
    have htake : nameBytes unused name = name ++ 0 :: ((List.range VFS_MAX_NAME).map unused).take k := by
      rw [nameBytes, List.take_append, List.take_of_length_le hlen, hk, Nat.add_assoc, Nat.add_sub_cancel_left, List.take_succ_cons]
    rw [htake]
    exact congrArg CString.bytes (CString.ofBytes_append_zero ⟨name, hnul⟩ _)

theorem numAt_append {a w : ℕ} {l r : List Byte} (h : l.length ≤ a) : numAt (l ++ r) a w = numAt r (a - l.length) w := by
  rw [numAt, List.drop_append, List.drop_eq_nil_of_le h, List.nil_append, numAt]

/-- An inode is read back as it was written. -/
theorem inodeAt_inodeBytes (unused : ℕ → Byte) (h : Fits n) (r : List Byte) : inodeAt (inodeBytes unused n ++ r) = n := by
  have hname : ((inodeBytes unused n ++ r).drop 4).take VFS_MAX_NAME = nameBytes unused n.name := by
    rw [inodeBytes, List.append_assoc, drop_ofNat_append le_rfl, Nat.sub_self, List.drop_zero, List.append_assoc]
    exact List.take_left' (length_nameBytes _)
  unfold inodeAt
  rw [hname, ofBytes_nameBytes h.name.1 h.name.2]
  unfold inodeBytes
  simp (disch := simp) only [List.append_assoc, numAt_append, numAt_ofNat, length_ofNat, length_nameBytes, List.length_cons,
    List.length_nil, Nat.reduceSub, Nat.reduceAdd]
  obtain ⟨h₁, -, h₂, h₃, ⟨h₄, h₅⟩, ⟨h₆, h₇, h₈⟩, h₉, h₁₀, h₁₁, h₁₂⟩ := h
  congr 1
  all_goals exact Nat.mod_eq_of_lt (by assumption)

/-- The inodes of a table are read back one by one. -/
theorem map_inodeAt {l : List Inode} (h : ∀ n ∈ l, Fits n) (r : List Byte) :
    (List.range l.length).map (fun i => inodeAt ((l.flatMap (inodeBytes unused) ++ r).drop (sizeofInode * i))) = l := by
  induction l with
  | nil => rfl
  | cons n l ih =>
    have hfirst := inodeAt_inodeBytes unused (h n List.mem_cons_self) (l.flatMap (inodeBytes unused) ++ r)
    have hdrop (i : ℕ) : (inodeBytes unused n ++ (l.flatMap (inodeBytes unused) ++ r)).drop (sizeofInode * (i + 1)) =
        (l.flatMap (inodeBytes unused) ++ r).drop (sizeofInode * i) := by
      rw [Nat.mul_succ, Nat.add_comm, ← List.drop_drop, List.drop_left' length_inodeBytes]
    rw [List.length_cons, List.range_succ_eq_map, List.map_cons, List.map_map, List.flatMap_cons, List.append_assoc,
      Nat.mul_zero, List.drop_zero, hfirst]
    refine congrArg (n :: ·) ((List.map_congr_left fun i _ => ?_).trans (ih fun m hm => h m (List.mem_cons_of_mem n hm)))
    exact congrArg inodeAt (hdrop i)

end

section
variable {magic : UInt32} {unused : ℕ → Byte} {fs : FileSystem}

theorem writeAt_zero (file bs : List Byte) : writeAt file 0 bs = bs ++ file.drop bs.length := by
  rw [writeAt, List.take_zero, List.nil_append, Nat.zero_sub, List.replicate_zero, List.nil_append, Nat.zero_add]

theorem length_superblockBytes (h : fs.block_map.length = VFS_TOTAL_BLOCKS) :
    (superblockBytes magic unused fs).length = sizeofSuperblock := by
  have hmap : (fs.block_map.flatMap (ofNat 4)).length = 4 * 256 := by
    rw [List.length_flatMap, List.map_congr_left fun m _ => length_ofNat 4 m, List.map_const', List.sum_replicate, h]
    rfl
  simp [superblockBytes, hmap, sizeofSuperblock]

theorem magic_superblockBytes (r : List Byte) : numAt (superblockBytes magic unused fs ++ r) 0 4 = magic.toNat := by
  have hmod : magic.toNat % 256 ^ 4 = magic.toNat := Nat.mod_eq_of_lt (magic.toNat_lt.trans_eq (by norm_num))
  unfold superblockBytes
  rw [List.append_assoc]
  exact (numAt_ofNat ..).trans hmod

theorem inode_count_superblockBytes (h : fs.inode_count < 2 ^ 32) (r : List Byte) :
    numAt (superblockBytes magic unused fs ++ r) 16 4 = fs.inode_count := by
  unfold superblockBytes
  simp (disch := simp) only [List.append_assoc, numAt_append, numAt_ofNat, length_ofNat, List.length_cons, List.length_nil,
    Nat.reduceSub, Nat.reduceAdd]
  exact Nat.mod_eq_of_lt h

end

/-! ## The state in which a file system is unmounted -/

/-- What the backing file can hold, and that the block 0 is the first to be taken -/
structure Storable (fs : FileSystem) : Prop where
  fits : ∀ n ∈ fs.inodes, Fits n
  short : fs.inodes.length < 2 ^ 32
  total : fs.block_map.length = VFS_TOTAL_BLOCKS
  taken : fs.block_map[0]? ≠ some 0 → ∃ n ∈ fs.inodes, n.type = VFS_TYPE_FILE ∧ n.block_index = 0
  first : (∃ n ∈ fs.inodes, n.type = VFS_TYPE_FILE) → ∃ n ∈ fs.inodes, n.type = VFS_TYPE_FILE ∧ n.block_index = 0

section
variable {s : Session}

/-- The table that the next mount finds: with one inode it is made anew. -/
theorem inodes_of_mount (magic : UInt32) (unused : ℕ → Byte) (now : UInt64) (h : Storable s.fs) :
    ∃ s', vfs_mount magic unused (vfs_unmount magic unused s) now = some s' ∧
      s'.fs.inodes = if s.fs.inode_count = 1 then [FileSystem.rootInode now.toNat] else s.fs.inodes := by
  have hfile := (writeAt_zero s.backing_file _).trans
    (List.append_assoc (superblockBytes magic unused s.fs) (s.fs.inodes.flatMap (inodeBytes unused)) _)
  generalize s.backing_file.drop _ = r at hfile
  have htable (i : ℕ) : (superblockBytes magic unused s.fs ++ (s.fs.inodes.flatMap (inodeBytes unused) ++ r)).drop
      (sizeofSuperblock + sizeofInode * i) = (s.fs.inodes.flatMap (inodeBytes unused) ++ r).drop (sizeofInode * i) := by
    rw [← List.drop_drop, List.drop_left' (length_superblockBytes h.total)]
  rw [vfs_mount, vfs_unmount, hfile, if_pos (magic_superblockBytes _), inode_count_superblockBytes h.short]
  by_cases hone : s.fs.inode_count = 1
  · simp only [if_pos hone]
    exact ⟨_, rfl, rfl⟩
  · simp only [if_neg hone]
    refine ⟨_, rfl, ?_⟩
    simp only [htable]
    exact map_inodeAt h.fits r

end

section
variable {behind : Inode → List Byte} {fs fs' : FileSystem} {now : UInt64} {i : ℕ} {name : List Byte}

theorem exists_of_mem_modify {α : Type*} {l : List α} {f : α → α} {y : α} (h : y ∈ l.modify i f) : ∃ x ∈ l, y = x ∨ y = f x := by
  obtain ⟨j, hj, rfl⟩ := List.getElem_of_mem h
  rw [List.length_modify] at hj
  refine ⟨l[j], List.getElem_mem hj, ?_⟩
  rw [List.getElem_modify]
  split_ifs
  · exact .inr rfl
  · exact .inl rfl

theorem mem_modify_or {α : Type*} {l : List α} (f : α → α) {x : α} (h : x ∈ l) : x ∈ l.modify i f ∨ f x ∈ l.modify i f := by
  obtain ⟨j, hj, rfl⟩ := List.getElem_of_mem h
  have hmem := List.getElem_mem (l := l.modify i f) (n := j) (by rwa [List.length_modify])
  rw [List.getElem_modify] at hmem
  split_ifs at hmem
  · exact .inr hmem
  · exact .inl hmem

/-- A change that keeps the types and the blocks of the inodes -/
theorem Storable.modify (h : Storable fs) (i : ℕ) {f : Inode → Inode} (hfits : ∀ n, Fits n → Fits (f n))
    (hkeep : ∀ n, (f n).type = n.type ∧ (f n).block_index = n.block_index) :
    Storable { fs with inodes := fs.inodes.modify i f } := by
  have hzero : (∃ n ∈ fs.inodes, n.type = VFS_TYPE_FILE ∧ n.block_index = 0) →
      ∃ n ∈ fs.inodes.modify i f, n.type = VFS_TYPE_FILE ∧ n.block_index = 0 := by
    intro hfile
    obtain ⟨n, hn, htype, hblock⟩ := hfile
    obtain hn | hn := mem_modify_or f hn
    · exact ⟨n, hn, htype, hblock⟩
    · exact ⟨f n, hn, (hkeep n).1.trans htype, (hkeep n).2.trans hblock⟩
  refine { fits := fun n hn => ?_, short := ?_, total := h.total, taken := fun htaken => hzero (h.taken htaken),
           first := fun hfile => hzero (h.first ?_) }
  · obtain ⟨m, hm, rfl | rfl⟩ := exists_of_mem_modify hn
    · exact h.fits n hm
    · exact hfits m (h.fits m hm)
  · rw [List.length_modify]
    exact h.short
  · obtain ⟨n, hn, htype⟩ := hfile
    obtain ⟨m, hm, rfl | rfl⟩ := exists_of_mem_modify hn
    · exact ⟨n, hm, htype⟩
    · exact ⟨m, hm, (hkeep m).1.symm.trans htype⟩

theorem numberAt_lt (h : Storable fs) (i : ℕ) : numberAt fs i < 2 ^ 32 := by
  unfold numberAt
  cases hi : fs.inodes[i]? with
  | none => exact Nat.two_pow_pos 32
  | some n => exact (h.fits n (List.mem_of_getElem? hi)).inode

theorem fits_newInode (h : Storable fs) (hroom : fs.inode_count + 1 < 2 ^ 32) {type mode block_index : ℕ}
    (hname : (0 : Byte) ∉ name) (htype : type < 2 ^ 8) (hmode : mode < 2 ^ 16) (hblock : block_index < 2 ^ 32) (parent : ℕ) :
    Fits (newInode fs name type mode now.toNat block_index parent) where
  inode := hroom
  name := ⟨List.length_take_le .., fun h => hname (List.mem_of_mem_take h)⟩
  type := htype
  mode := hmode
  owner := ⟨Nat.two_pow_pos 32, Nat.two_pow_pos 32⟩
  times := ⟨now.toNat_lt, now.toNat_lt, now.toNat_lt⟩
  size := Nat.two_pow_pos 64
  block_index := hblock
  parent_inode := numberAt_lt h parent
  child_count := Nat.two_pow_pos 32

/-- A new inode at the end of the table -/
theorem Storable.addChild (h : Storable fs) {c : Inode} (hc : Fits c) (hroom : fs.inode_count + 1 < 2 ^ 32) (parent free_blocks : ℕ)
    {block_map : List ℕ} (htotal : block_map.length = VFS_TOTAL_BLOCKS)
    (hfirst : c.type = VFS_TYPE_FILE → c.block_index = 0 ∨ fs.block_map[0]? ≠ some 0)
    (htaken : block_map[0]? ≠ some 0 → fs.block_map[0]? ≠ some 0 ∨ c.type = VFS_TYPE_FILE ∧ c.block_index = 0) :
    Storable ⟨Vfs.addChild fs.inodes parent c, free_blocks, block_map⟩ := by
  have hold : (∃ n ∈ fs.inodes, n.type = VFS_TYPE_FILE ∧ n.block_index = 0) →
      ∃ n ∈ fs.inodes ++ [c], n.type = VFS_TYPE_FILE ∧ n.block_index = 0 := by
    intro hfile
    obtain ⟨n, hn, hfile⟩ := hfile
    exact ⟨n, List.mem_append_left [c] hn, hfile⟩
  have hnew (hfile : c.type = VFS_TYPE_FILE ∧ c.block_index = 0) :
      ∃ n ∈ fs.inodes ++ [c], n.type = VFS_TYPE_FILE ∧ n.block_index = 0 := ⟨c, List.mem_append_right _ List.mem_cons_self, hfile⟩
  have hpush : Storable ⟨fs.inodes ++ [c], free_blocks, block_map⟩ := by
    refine { fits := fun n hn => ?_, short := ?_, total := htotal, taken := fun ht => ?_, first := fun hfile => ?_ }
    · obtain hn | hn := List.mem_append.mp hn
      · exact h.fits n hn
      · rwa [List.mem_singleton.mp hn]
    · rw [List.length_append]
      exact hroom
    · obtain ht | hfile := htaken ht
      · exact hold (h.taken ht)
      · exact hnew hfile
    · obtain ⟨n, hn, htype⟩ := hfile
      obtain hn | hn := List.mem_append.mp hn
      · exact hold (h.first ⟨n, hn, htype⟩)
      · obtain rfl := List.mem_singleton.mp hn
        obtain hzero | ht := hfirst htype
        · exact hnew ⟨htype, hzero⟩
        · exact hold (h.taken ht)
  refine hpush.modify parent (fun _ hn => { hn with child_count := ?_ }) fun _ => ⟨rfl, rfl⟩
  exact word_lt _

theorem nulFree_filename {path : CString} {parent_path filename : List Byte}
    (h : strrchr path.bytes = some (parent_path, filename)) : (0 : Byte) ∉ filename := by
  intro hmem
  refine path.nulFree ?_
  rw [(strrchr_eq_some h).1]
  exact List.mem_append_right _ (List.mem_cons_of_mem _ hmem)

theorem Storable.vfs_mkdir (h : Storable fs) {path : CString} {mode : UInt16} {memory : Realloc} {r : ℤ}
    (hcall : vfs_mkdir behind fs path mode.toNat memory now.toNat = some (fs', r)) : Storable fs' := by
  obtain ⟨⟨parent_path, dirname⟩, hsplit, hcall⟩ := Option.bind_eq_some_iff.mp hcall
  dsimp only at hcall
  cases hdir : findDirectory behind fs parent_path with
  | none =>
    rw [hdir] at hcall
    cases hcall
    exact h
  | some parent =>
    rw [hdir] at hcall
    dsimp only at hcall
    by_cases hchild : (findChild behind fs (numberAt fs parent) dirname).isSome
    · rw [if_pos hchild] at hcall
      cases hcall
      exact h
    · rw [if_neg hchild] at hcall
      cases memory with
      | failed =>
        cases hcall
        exact h
      | moved => cases hcall
      | inPlace =>
        dsimp only at hcall
        split_ifs at hcall with hroom
        cases hcall
        refine h.addChild (fits_newInode h hroom (nulFree_filename hsplit) (by decide) mode.toNat_lt (by decide) parent) hroom
          parent fs.free_blocks h.total ?_ .inl
        exact fun hfile => absurd hfile (by decide : VFS_TYPE_DIR ≠ VFS_TYPE_FILE)

theorem Storable.createFile (h : Storable fs) {path : CString} {memory : Realloc} {r : Option ℕ}
    (hcall : createFile behind fs path.bytes memory now.toNat = some (fs', r)) : Storable fs' := by
  obtain ⟨⟨parent_path, filename⟩, hsplit, hcall⟩ := Option.bind_eq_some_iff.mp hcall
  dsimp only at hcall
  cases hdir : findDirectory behind fs parent_path with
  | none =>
    rw [hdir] at hcall
    cases hcall
    exact h
  | some parent =>
    rw [hdir] at hcall
    dsimp only at hcall
    cases hblock : allocate_block fs with
    | none =>
      rw [hblock] at hcall
      cases hcall
      exact h
    | some block_index =>
      rw [hblock] at hcall
      dsimp only at hcall
      cases memory with
      | failed =>
        cases hcall
        exact ⟨h.fits, h.short, h.total, h.taken, h.first⟩
      | moved => cases hcall
      | inPlace =>
        dsimp only at hcall
        split_ifs at hcall with hroom
        cases hcall
        obtain ⟨hlt, -, hbefore⟩ := List.findIdx?_eq_some_iff_getElem.mp hblock
        have hblock_lt : block_index < 2 ^ 32 := (hlt.trans_eq h.total).trans (by decide)
        refine h.addChild (fits_newInode h hroom (nulFree_filename hsplit) (by decide) (by decide) hblock_lt parent) hroom parent _
          ((List.length_set ..).trans h.total) (fun _ => ?_) fun htaken => ?_
        -- the first block that is free is the block 0, or that one is taken
        · obtain rfl | hpos := Nat.eq_zero_or_pos block_index
          · exact .inl rfl
          · refine .inr fun hzero => hbefore 0 hpos ?_
            obtain ⟨_, hzero⟩ := List.getElem?_eq_some_iff.mp hzero
            exact decide_eq_true hzero
        · obtain rfl | hpos := Nat.eq_zero_or_pos block_index
          · exact .inr ⟨rfl, rfl⟩
          · rw [List.getElem?_set_ne hpos.ne'] at htaken
            exact .inl htaken

theorem Storable.openInode (h : Storable fs) (i : ℕ) (mode : CString) : Storable (openInode fs i mode now.toNat).1 :=
  h.modify i (fun _ hn => { hn with times := ⟨now.toNat_lt, hn.times.2⟩ }) fun _ => ⟨rfl, rfl⟩

theorem Storable.vfs_fopen (h : Storable fs) {path mode : CString} {memory : Realloc} {r : Option File}
    (hcall : vfs_fopen behind fs path mode memory now.toNat = some (fs', r)) : Storable fs' := by
  rw [Vfs.vfs_fopen] at hcall
  cases hfind : find_inode_by_path behind fs path.bytes with
  | some i =>
    rw [hfind] at hcall
    cases hcall
    exact h.openInode i mode
  | none =>
    rw [hfind] at hcall
    dsimp only at hcall
    split_ifs at hcall
    · obtain ⟨⟨fs₁, created⟩, hcreate, hcall⟩ := Option.map_eq_some_iff.mp hcall
      have h₁ := h.createFile hcreate
      cases created with
      | none =>
        cases hcall
        exact h₁
      | some i =>
        cases hcall
        exact h₁.openInode i mode
    · cases hcall
      exact h

theorem storable_fresh : Storable (FileSystem.fresh now.toNat) := by
  have hmem (n : Inode) (hn : n ∈ (FileSystem.fresh now.toNat).inodes) : n = FileSystem.rootInode now.toNat :=
    List.mem_singleton.mp hn
  refine { fits := fun n hn => ?_, short := (by decide : 1 < 2 ^ 32), total := List.length_replicate, taken := fun h => absurd rfl h,
           first := fun hfile => ?_ }
  · rw [hmem n hn]
    have hsmall : 0 < 2 ^ 32 := Nat.two_pow_pos 32
    exact { inode := (by decide : 1 < 2 ^ 32), name := ⟨(by decide : 1 ≤ VFS_MAX_NAME), (by decide : 0 ∉ [(('/' : Char) : Byte)])⟩,
            type := (by decide : VFS_TYPE_DIR < 2 ^ 8), mode := (by decide : 0o755 < 2 ^ 16), owner := ⟨hsmall, hsmall⟩,
            times := ⟨now.toNat_lt, now.toNat_lt, now.toNat_lt⟩, size := Nat.two_pow_pos 64, block_index := hsmall,
            parent_inode := hsmall, child_count := hsmall }
  · obtain ⟨n, hn, htype⟩ := hfile
    rw [hmem n hn] at htype
    exact absurd htype (by decide : VFS_TYPE_DIR ≠ VFS_TYPE_FILE)

theorem Storable.vfs_fwrite {s s' : Session} (h : Storable s.fs) {stream : ℕ} {size : UInt64} {ptr : List Byte} {file : File}
    (hcall : vfs_fwrite s stream size ptr file now = some s') : Storable s'.fs := by
  rw [Vfs.vfs_fwrite] at hcall
  by_cases hwrites : writes file
  · rw [if_pos hwrites] at hcall
    cases hinode : s.fs.inodes[file.inode]? with
    | none =>
      rw [hinode] at hcall
      cases hcall
    | some n =>
      rw [hinode] at hcall
      dsimp only at hcall
      split_ifs at hcall
      cases hcall
      refine h.modify file.inode (fun _ hn => { hn with times := ⟨hn.times.1, now.toNat_lt, hn.times.2.2⟩, size := ?_ })
        fun _ => ⟨rfl, rfl⟩
      exact max_lt hn.size (Nat.mod_lt _ (Nat.two_pow_pos 64))
  · rw [if_neg hwrites] at hcall
    cases hcall
    exact h

/-- Every action keeps what the backing file can hold. -/
theorem Storable.run {s s' : Session} (h : Storable s.fs) {action : Action} (hrun : action.run behind s = some s') :
    Storable s'.fs := by
  cases action with
  | fopen path mode memory now =>
    obtain ⟨⟨fs, r⟩, hcall, hs'⟩ := Option.map_eq_some_iff.mp hrun
    cases r <;> cases hs' <;> exact h.vfs_fopen hcall
  | mkdir path mode memory now =>
    obtain ⟨⟨fs, r⟩, hcall, hs'⟩ := Option.map_eq_some_iff.mp hrun
    cases hs'
    exact h.vfs_mkdir hcall
  | fwrite stream size nmemb ptr hptr now =>
    rw [Action.run] at hrun
    split at hrun
    case h_1 file hfile =>
      exact h.vfs_fwrite hrun
    case h_2 =>
      cases hrun
      exact h
    case h_3 => cases hrun
  | fclose stream now =>
    rw [Action.run] at hrun
    split at hrun
    case h_1 file hfile =>
      cases hrun
      exact h.modify file.inode (fun _ hn => { hn with times := ⟨hn.times.1, now.toNat_lt, hn.times.2.2⟩ }) fun _ => ⟨rfl, rfl⟩
    case h_2 =>
      cases hrun
      exact h
    case h_3 => cases hrun

theorem Storable.play {s s' : Session} {contents contents' : ℕ → List Byte} {actions : List Action} (h : Storable s.fs)
    (hplay : play behind (s, contents) actions = some (s', contents')) : Storable s'.fs := by
  induction actions generalizing s contents with
  | nil =>
    cases hplay
    exact h
  | cons action actions ih =>
    obtain ⟨s₁, hrun, hplay⟩ := Option.bind_eq_some_iff.mp hplay
    exact ih (h.run hrun) hplay

end

/-! ## What persists -/

section
variable {magic : UInt32} {unused : ℕ → Byte} {now : UInt64} {s : Session} {contents : ℕ → List Byte}

/-- The block 0 lies where the table begins. -/
theorem not_disjoint_block_zero {n : Inode} (hn : n ∈ s.fs.inodes) (hblock : n.block_index = 0) :
    ¬ Disjoint (Finset.Ico (blockOffset n) (blockOffset n + VFS_BLOCK_SIZE))
      (Finset.Ico sizeofSuperblock (sizeofSuperblock + sizeofInode * s.fs.inode_count)) := by
  have hoffset : blockOffset n = sizeofSuperblock := by
    rw [blockOffset, hblock, Nat.zero_mul]
    rfl
  have hcount : 0 < s.fs.inode_count := List.length_pos_of_mem hn
  have hblock : 0 < VFS_BLOCK_SIZE := by decide
  rw [hoffset, Finset.not_disjoint_iff]
  refine ⟨sizeofSuperblock, Finset.mem_Ico.mpr ⟨le_rfl, by omega⟩, Finset.mem_Ico.mpr ⟨le_rfl, ?_⟩⟩
  unfold sizeofInode
  omega

theorem Storable.persists_iff_noFile (h : Storable s.fs) : Persists magic unused now s contents ↔
    (∀ n ∈ s.fs.inodes, n.type ≠ VFS_TYPE_FILE) ∧
      (s.fs.inode_count ≠ 1 ∨ s.fs.inodes = [FileSystem.rootInode now.toNat]) := by
  obtain ⟨s', hmount, hinodes⟩ := inodes_of_mount magic unused now h
  constructor
  · intro hpersists
    obtain ⟨s₁, hs₁, htable, -, hdisjoint⟩ := hpersists
    obtain rfl := Option.some.inj (hmount.symm.trans hs₁)
    constructor
    · intro n hn htype
      obtain ⟨m, hm, hmtype, hzero⟩ := h.first ⟨n, hn, htype⟩
      exact not_disjoint_block_zero hm hzero (hdisjoint m hm hmtype)
    · by_cases hone : s.fs.inode_count = 1
      · rw [if_pos hone] at hinodes
        exact .inr (htable.symm.trans hinodes)
      · exact .inl hone
  · intro hcond
    obtain ⟨hnofile, htable⟩ := hcond
    have hsame : s'.fs.inodes = s.fs.inodes := by
      rw [hinodes]
      split_ifs with hone
      · exact (htable.resolve_left (not_not.mpr hone)).symm
      · rfl
    refine ⟨s', hmount, hsame, fun i n hn htype => ?_, fun n hn htype => absurd htype (hnofile n hn)⟩
    rw [hsame] at hn
    exact absurd htype (hnofile n (List.mem_of_getElem? hn))

end

/-- A file system persists exactly when no file was created in it, and its table has more than the root or the root is
as the new mount makes it. -/
theorem persists_iff (behind : Inode → List Byte) (magic : UInt32) (unused : ℕ → Byte) (before now : UInt64)
    (actions : List Action) :
    (∃ s contents, play behind (mountNew magic unused before, fun _ => []) actions = some (s, contents) ∧
        Persists magic unused now s contents) ↔
      ∃ s contents, play behind (mountNew magic unused before, fun _ => []) actions = some (s, contents) ∧
        (∀ n ∈ s.fs.inodes, n.type ≠ VFS_TYPE_FILE) ∧
        (s.fs.inode_count ≠ 1 ∨ s.fs.inodes = [FileSystem.rootInode now.toNat]) := by
  have hstorable : Storable (mountNew magic unused before).fs := storable_fresh
  constructor
  · intro h
    obtain ⟨s, contents, hplay, h⟩ := h
    exact ⟨s, contents, hplay, (hstorable.play hplay).persists_iff_noFile.mp h⟩
  · intro h
    obtain ⟨s, contents, hplay, h⟩ := h
    exact ⟨s, contents, hplay, (hstorable.play hplay).persists_iff_noFile.mpr h⟩

/-- `"x"` is written to `/a`, and read as the byte 1 after the next mount. -/
theorem not_persists_x : ∃ s contents, play (fun _ => []) (mountNew 0xF51 (fun _ => 0) 0, fun _ => [])
    [.fopen (.lit "/a") (.lit "w") .inPlace 0, .fwrite 0 1 1 [(('x' : Char) : Byte)] rfl 0, .fclose 0 0] = some (s, contents) ∧
      contents 1 = [(('x' : Char) : Byte)] ∧
      (vfs_mount 0xF51 (fun _ => 0) (vfs_unmount 0xF51 (fun _ => 0) s) 0).map (fun s' => vfs_fread s' 1 1 (reader 1)) = some [1] ∧
      ¬ Persists 0xF51 (fun _ => 0) 0 s contents := by
  have hstorable : Storable (mountNew 0xF51 (fun _ => 0) 0).fs := storable_fresh
  have hrun : (play (fun _ => []) (mountNew 0xF51 (fun _ => 0) 0, fun _ => [])
      [.fopen (.lit "/a") (.lit "w") .inPlace 0, .fwrite 0 1 1 [(('x' : Char) : Byte)] rfl 0, .fclose 0 0]).map (fun (s, contents) =>
        (s.fs.inodes.any fun n => n.type = VFS_TYPE_FILE, contents 1,
          (vfs_mount 0xF51 (fun _ => 0) (vfs_unmount 0xF51 (fun _ => 0) s) 0).map fun s' => vfs_fread s' 1 1 (reader 1))) =
      some (true, [(('x' : Char) : Byte)], some [1]) := by
    decide +kernel
  obtain ⟨⟨s, contents⟩, hplay, hread⟩ := Option.map_eq_some_iff.mp hrun
  obtain ⟨n, hn, htype⟩ := List.any_eq_true.mp (congrArg Prod.fst hread)
  refine ⟨s, contents, hplay, congrArg (·.2.1) hread, congrArg (·.2.2) hread, fun hpersists => ?_⟩
  exact ((hstorable.play hplay).persists_iff_noFile.mp hpersists).1 n hn (of_decide_eq_true htype)

end ValidcTools.Vfs
