import ValidcTools.Vfs.Persistence

/-! The streams of a mounted VFS: what a program reads through them is what an abstract store of byte arrays gives. -/
namespace ValidcTools.Vfs

open KeyedList

/-! ## Calls -/

/-- What a program asks of a mounted file system; what is at `ptr` is part of a `vfs_fwrite`. -/
inductive Invocation
  | operation (operation : Operation)
  | fread (stream : ℕ) (size nmemb : UInt64) (now : ℕ)
  | fwrite (stream : ℕ) (size nmemb : UInt64) (ptr : List Byte) (hptr : ptr.length = (size * nmemb).toNat) (now : UInt64)
  | fseek (stream : ℕ) (offset : Int64) (whence : Int32)
  | ftell (stream : ℕ)
  | fclose (stream : ℕ) (now : ℕ)

/-- What a call was and what it gave back. A new stream is on the inode at a place of the table. -/
inductive Event
  | fopen (mode : CString) (place : Option ℕ)
  | mkdir (result : ℤ)
  | remove (place : Option ℕ)
  | rename (result : ℤ)
  | fread (stream : ℕ) (size nmemb : UInt64) (ptr : List Byte) (result : ℕ)
  | fwrite (stream : ℕ) (size : UInt64) (ptr : List Byte) (result : ℕ)
  | fseek (stream : ℕ) (offset : Int64) (whence : Int32) (result : ℤ)
  | ftell (stream : ℕ) (result : ℤ)
  | fclose (stream : ℕ) (result : ℤ)
deriving DecidableEq

/-- What `whence` counts from: `SEEK_SET`, `SEEK_CUR`, `SEEK_END` -/
def seekBase (whence : Int32) (offset size : ℕ) : Option ℕ :=
  if whence = 0 then some 0 else if whence = 1 then some offset else if whence = 2 then some size else none

namespace Session

section
variable (s : Session) (stream : ℕ) (file : File)

/-- `vfs_fread` with what it changes and gives back; `none` is a division by zero, at the end of the call. -/
def vfs_fread (size nmemb : UInt64) (now : ℕ) : Option (Session × List Byte × ℕ) :=
  if file.mode.getD 0 0 ≠ ('r' : Char) then some (s, [], 0)
  else if (s.fs.inodes[file.inode]?).isNone ∨ size = 0 then none
  else
    let ptr := Vfs.vfs_fread s size nmemb file
    some ({ s with fs := { s.fs with inodes := s.fs.inodes.modify file.inode fun n => { n with atime := now } },
                   streams := s.streams.set stream (.opened { file with offset := file.offset + ptr.length }) },
      ptr, ptr.length / size.toNat)

def vfs_fseek (offset : Int64) (whence : Int32) : Option (Session × ℤ) :=
  (s.fs.inodes[file.inode]?).map fun n =>
    match seekBase whence file.offset n.size with
    | none => (s, -1)
    | some base =>
      let new_offset := (base + offset.toUInt64.toNat) % 2 ^ 64
      if n.size < new_offset ∨ VFS_BLOCK_SIZE < new_offset then (s, -1)
      else ({ s with streams := s.streams.set stream (.opened { file with offset := new_offset }) }, 0)

def vfs_fclose (now : ℕ) : Session :=
  { s with fs := { s.fs with inodes := s.fs.inodes.modify file.inode fun n => { n with mtime := now } },
           streams := s.streams.set stream .closed }

end

/-- What is done to an open stream, and to the stream NULL; `none` is the use of a closed one. -/
def onStream {α : Type} (s : Session) (stream : ℕ) (null : α) (opened : File → Option α) : Option α :=
  match s.streams[stream]? with
  | some (.opened file) => opened file
  | some .null => some null
  | _ => none

end Session

section
variable (behind : Inode → List Byte)

/-- One call; `none` is undefined behaviour. -/
def Invocation.run (s : Session) : Invocation → Option (Session × Event)
  | .operation (.fopen path mode memory now) => (vfs_fopen behind s.fs path mode memory now).map fun
    | (fs, none) => ({ s with fs := fs, streams := s.streams ++ [.null] }, .fopen mode none)
    | (fs, some file) => ({ s with fs := fs, streams := s.streams ++ [.opened file] }, .fopen mode (some file.inode))
  | .operation (.mkdir path mode memory now) => (vfs_mkdir behind s.fs path mode memory now).map fun (fs, r) =>
    ({ s with fs := fs }, .mkdir r)
  | .operation (.remove path) => (vfs_remove behind s.fs path).map fun (fs, r) =>
    ({ s with fs := fs }, .remove (if r = 0 then find_inode_by_path behind s.fs path.bytes else none))
  | .operation (.rename old_path new_path now) => (vfs_rename behind s.fs old_path new_path now).map fun (fs, r) =>
    ({ s with fs := fs }, .rename r)
  | .fread stream size nmemb now =>
    (s.onStream stream (s, [], 0) fun file => s.vfs_fread stream file size nmemb now).map fun (s, ptr, r) =>
      (s, .fread stream size nmemb ptr r)
  | .fwrite stream size _ ptr _ now =>
    (s.onStream stream (s, 0) fun file => (vfs_fwrite s stream size ptr file now).map fun s' =>
      (s', if writes file then (accepted file ptr).length / size.toNat else 0)).map fun (s, r) =>
        (s, .fwrite stream size ptr r)
  | .fseek stream offset whence =>
    (s.onStream stream (s, -1) fun file => s.vfs_fseek stream file offset whence).map fun (s, r) =>
      (s, .fseek stream offset whence r)
  | .ftell stream =>
    (s.onStream stream (-1) fun file => some (file.offset : ℤ)).map fun r => (s, .ftell stream r)
  | .fclose stream now =>
    (s.onStream stream (s, -1) fun file => some (s.vfs_fclose stream file now, 0)).map fun (s, r) => (s, .fclose stream r)

/-- The calls one after the other, and what came of them -/
def Session.calls (s : Session) : List Invocation → Option (Session × List Event)
  | [] => some (s, [])
  | call :: rest => (call.run behind s).bind fun (s, event) => (s.calls rest).map fun (s, log) => (s, event :: log)

end

/-! ## Files as byte arrays -/

/-- The contents of the files, by their place in the table, and the streams on them -/
structure Files where
  contents : List (List Byte)
  streams : List Stream

namespace Files

/-- The root directory has no bytes. -/
def initial : Files := ⟨[[]], []⟩

def opened (f : Files) (stream : ℕ) (file : File) : Files := { f with streams := f.streams.set stream (.opened file) }

/-- The stream moves behind what is read. -/
def read (f : Files) (stream amount : ℕ) : Option (Files × List Byte) :=
  match f.streams[stream]? with
  | some .null => some (f, [])
  | some (.opened file) =>
    if file.mode.getD 0 0 = ('r' : Char) then
      f.contents[file.inode]?.map fun l =>
        let bytes := (l.drop file.offset).take amount
        (f.opened stream { file with offset := file.offset + bytes.length }, bytes)
    else some (f, [])
  | _ => none

/-- What fits into the file replaces what is there. -/
def write (f : Files) (stream : ℕ) (ptr : List Byte) : Option (Files × ℕ) :=
  match f.streams[stream]? with
  | some .null => some (f, 0)
  | some (.opened file) =>
    if writes file then
      let bytes := ptr.take (VFS_BLOCK_SIZE - file.offset)
      let contents := f.contents.modify file.inode fun l => writeAt l file.offset bytes
      some ({ f with contents := contents }.opened stream { file with offset := file.offset + bytes.length }, bytes.length)
    else some (f, 0)
  | _ => none

/-- A stream moves within its file. -/
def seek (f : Files) (stream : ℕ) (offset : ℤ) (whence : Int32) : Option (Files × ℤ) :=
  match f.streams[stream]? with
  | some .null => some (f, -1)
  | some (.opened file) => f.contents[file.inode]?.map fun l =>
    match seekBase whence file.offset l.length with
    | none => (f, -1)
    | some base =>
      if 0 ≤ base + offset ∧ base + offset ≤ l.length then (f.opened stream { file with offset := (base + offset).toNat }, 0)
      else (f, -1)
  | _ => none

def tell (f : Files) (stream : ℕ) : Option ℤ :=
  match f.streams[stream]? with
  | some .null => some (-1)
  | some (.opened file) => some file.offset
  | _ => none

def close (f : Files) (stream : ℕ) : Option (Files × ℤ) :=
  match f.streams[stream]? with
  | some .null => some (f, -1)
  | some (.opened _) => some ({ f with streams := f.streams.set stream .closed }, 0)
  | _ => none

/-- The files after an event, which is refused when it gave back something else than the files do. -/
def next (f : Files) : Event → Option Files
  | .fopen _ none => some { f with streams := f.streams ++ [.null] }
  | .fopen mode (some i) =>
    let contents := if i = f.contents.length then f.contents ++ [[]] else f.contents
    contents[i]?.map fun l =>
      ⟨contents, f.streams ++ [.opened ⟨i, if mode.get 0 = ('a' : Char) then l.length else 0, mode.bytes.take 3⟩]⟩
  | .mkdir r => some (if r = 0 then { f with contents := f.contents ++ [[]] } else f)
  | .remove none => some f
  | .remove (some i) => some { f with contents := f.contents.eraseIdx i }
  | .rename _ => some f
  | .fread stream size nmemb ptr r => (f.read stream (size * nmemb).toNat).bind fun (f', bytes) =>
    if ptr = bytes ∧ r = bytes.length / size.toNat then some f' else none
  | .fwrite stream size ptr r => (f.write stream ptr).bind fun (f', n) => if r = n / size.toNat then some f' else none
  | .fseek stream offset whence r => (f.seek stream offset.toInt whence).bind fun (f', r') => if r = r' then some f' else none
  | .ftell stream r => (f.tell stream).bind fun r' => if r = r' then some f else none
  | .fclose stream r => (f.close stream).bind fun (f', r') => if r = r' then some f' else none

end Files

/-! ## Harmless calls -/

section
variable (behind : Inode → List Byte)

/-- The calls that keep the tables as they should be: besides those on names, nothing is written to a directory, no
file is removed while a stream is on it or on an inode behind it in the table, and positions do not overflow. -/
def Invocation.Harmless (s : Session) : Invocation → Prop
  | .operation call => Vfs.Harmless behind s.fs call ∧
    match call with
    | .fopen path mode _ _ => creates mode → ∀ i n, find_inode_by_path behind s.fs path.bytes = some i →
        s.fs.inodes[i]? = some n → n.type = VFS_TYPE_FILE
    | .remove path => ∀ i file, find_inode_by_path behind s.fs path.bytes = some i → .opened file ∈ s.streams → file.inode < i
    | _ => True
  | .fread stream size nmemb _ => ∀ file, s.streams[stream]? = some (.opened file) →
      file.offset + (size * nmemb).toNat < 2 ^ 64
  | .fwrite stream _ _ ptr _ _ => ∀ file, s.streams[stream]? = some (.opened file) → file.offset + ptr.length < 2 ^ 64
  | _ => True

/-- Each call is harmless in the state it finds. -/
def HarmlessCalls : Session → List Invocation → Prop
  | _, [] => True
  | s, call :: rest => call.Harmless behind s ∧ ∀ s' event, call.run behind s = some (s', event) → HarmlessCalls s' rest

end

/-! ## Bytes of the backing file -/

section
variable {file image l bs : List Byte} {a b i : ℕ}

theorem getElem?_writeAt_inside (file : List Byte) (a : ℕ) (h : i < bs.length) : (writeAt file a bs)[a + i]? = bs[i]? := by
  have hlength : (file.take a ++ List.replicate (a - file.length) 0).length = a := by
    rw [List.length_append, List.length_take, List.length_replicate]
    omega
  rw [writeAt, ← List.append_assoc, List.getElem?_append_right (by omega), hlength, Nat.add_sub_cancel_left,
    List.getElem?_append_left h]

theorem getElem?_writeAt_outside (hi : i < file.length) (h : i < a ∨ a + bs.length ≤ i) :
    (writeAt file a bs)[i]? = file[i]? := by
  rw [writeAt]
  cases h with
  | inl h =>
    rw [List.getElem?_append_left (by rw [List.length_take]; omega), List.getElem?_take_of_lt h]
  | inr h =>
    have hlength : (file.take a ++ List.replicate (a - file.length) 0).length = a := by
      rw [List.length_append, List.length_take, List.length_replicate]
      omega
    rw [← List.append_assoc, List.getElem?_append_right (by omega), hlength, List.getElem?_append_right (by omega),
      List.getElem?_drop]
    congr 1
    omega

theorem length_writeAt (h : a ≤ file.length) : (writeAt file a bs).length = max file.length (a + bs.length) := by
  rw [writeAt]
  simp only [List.length_append, List.length_take, List.length_replicate, List.length_drop]
  omega

/-- A write elsewhere -/
theorem prefix_drop_writeAt (h : l <+: image.drop a) (hapart : a + l.length ≤ b ∨ b + bs.length ≤ a) :
    l <+: (writeAt image b bs).drop a := by
  rw [List.prefix_iff_getElem?] at h ⊢
  intro i hi
  have hget := h i hi
  rw [List.getElem?_drop] at hget ⊢
  rw [getElem?_writeAt_outside (List.getElem?_eq_some_iff.mp hget).1 (by omega), hget]

/-- A write to the bytes themselves -/
theorem writeAt_prefix_drop (h : l <+: image.drop a) (hb : b ≤ l.length) :
    writeAt l b bs <+: (writeAt image (a + b) bs).drop a := by
  rw [List.prefix_iff_getElem?] at h ⊢
  intro i hi
  rw [← List.getElem?_eq_getElem hi, List.getElem?_drop]
  rw [length_writeAt hb] at hi
  by_cases hin : b ≤ i ∧ i < b + bs.length
  · obtain ⟨j, rfl⟩ := Nat.exists_eq_add_of_le hin.1
    rw [← Nat.add_assoc, getElem?_writeAt_inside image (a + b) (by omega), getElem?_writeAt_inside l b (by omega)]
  · have hil : i < l.length := by omega
    have hget := h i hil
    rw [List.getElem?_drop] at hget
    rw [getElem?_writeAt_outside (List.getElem?_eq_some_iff.mp hget).1 (by omega), getElem?_writeAt_outside hil (by omega),
      hget, List.getElem?_eq_getElem hil]

end

/-! ## What the tables describe -/

/-- What an inode says of the bytes of its file -/
def Inode.extent (n : Inode) : ℕ × ℕ × ℕ := (n.type, n.size, n.block_index)

/-- The inode and the bytes of its block make these contents; a directory has none. -/
structure Describes (image : List Byte) (n : Inode) (l : List Byte) : Prop where
  size : n.size = l.length
  short : l.length ≤ VFS_BLOCK_SIZE
  data : n.type = VFS_TYPE_FILE → l <+: image.drop (blockOffset n)
  none : n.type ≠ VFS_TYPE_FILE → l = []

/-- A stream is within its file. -/
def Inside (s : Session) (f : Files) (file : File) : Prop :=
  ∃ n l, s.fs.inodes[file.inode]? = some n ∧ f.contents[file.inode]? = some l ∧ file.offset ≤ l.length ∧
    (writes file → n.type = VFS_TYPE_FILE)

/-- The mounted file system holds these files. -/
structure Holds (s : Session) (f : Files) : Prop where
  inv : Inv s.fs
  length : f.contents.length = s.fs.inodes.length
  described : ∀ (i : ℕ) n l, s.fs.inodes[i]? = some n → f.contents[i]? = some l → Describes s.backing_file n l
  streams : f.streams = s.streams
  inside : ∀ file, .opened file ∈ s.streams → Inside s f file

section
variable {s s' : Session} {f : Files} {n m : Inode} {l : List Byte} {file : File} {i j : ℕ}

theorem Describes.congr {image : List Byte} (h : Describes image n l) (hext : m.extent = n.extent) : Describes image m l := by
  obtain ⟨htype, hsize, hblock⟩ : m.type = n.type ∧ m.size = n.size ∧ m.block_index = n.block_index := by
    simpa [Inode.extent] using hext
  refine ⟨hsize.trans h.size, h.short, fun hfile => ?_, fun hdir => h.none (htype ▸ hdir)⟩
  rw [blockOffset, hblock]
  exact h.data (htype ▸ hfile)

theorem Holds.exists_contents (h : Holds s f) (hn : s.fs.inodes[i]? = some n) :
    ∃ l, f.contents[i]? = some l ∧ Describes s.backing_file n l := by
  have hi : i < f.contents.length := h.length ▸ (List.getElem?_eq_some_iff.mp hn).1
  exact ⟨f.contents[i], List.getElem?_eq_getElem hi, h.described i n _ hn (List.getElem?_eq_getElem hi)⟩

theorem Holds.opened (h : Holds s f) {stream : ℕ} (hfile : s.streams[stream]? = some (.opened file)) : Inside s f file :=
  h.inside file (List.mem_of_getElem? hfile)

/-- Blocks lie one after the other. -/
theorem Inv.blockOffset_eq {fs : FileSystem} (h : Inv fs) (hn : n ∈ fs.inodes) (hfile : n.type = VFS_TYPE_FILE) :
    blockOffset n = sizeofSuperblock + n.block_index * VFS_BLOCK_SIZE := by
  have hlt := (List.getElem?_eq_some_iff.mp (h.blocks.mapped n hn hfile)).1
  rw [h.blocks.total] at hlt
  have hsmall : n.block_index * VFS_BLOCK_SIZE < 2 ^ 32 := by
    unfold VFS_TOTAL_BLOCKS at hlt
    unfold VFS_BLOCK_SIZE
    omega
  rw [blockOffset, word_of_lt hsmall]

/-- Two files do not share a byte of the backing file. -/
theorem Inv.blocks_apart {fs : FileSystem} (h : Inv fs) (hn : fs.inodes[i]? = some n) (hm : fs.inodes[j]? = some m)
    (hne : i ≠ j) (hnfile : n.type = VFS_TYPE_FILE) (hmfile : m.type = VFS_TYPE_FILE) :
    blockOffset n + VFS_BLOCK_SIZE ≤ blockOffset m ∨ blockOffset m + VFS_BLOCK_SIZE ≤ blockOffset n := by
  have hnmem := List.mem_of_getElem? hn
  have hmmem := List.mem_of_getElem? hm
  have hblock : n.block_index ≠ m.block_index := by
    intro hsame
    have hinode := h.blocks.disjoint n hnmem m hmmem hnfile hmfile hsame
    have hlt : i < (fs.inodes.map Inode.inode).length := by
      rw [List.length_map]
      exact (List.getElem?_eq_some_iff.mp hn).1
    refine hne ((List.getElem?_inj hlt h.tree.unique).mp ?_)
    rw [List.getElem?_map, List.getElem?_map, hn, hm, Option.map_some, Option.map_some, hinode]
  rw [h.blockOffset_eq hnmem hnfile, h.blockOffset_eq hmmem hmfile]
  unfold VFS_BLOCK_SIZE
  omega

end

/-! ## What the calls do to the tables -/

section
variable {fs fs' : FileSystem} {behind : Inode → List Byte} {i p : ℕ} {c : Inode} {g : Inode → Inode}

theorem extent_modify (l : List Inode) (i : ℕ) (hg : ∀ n, (g n).extent = n.extent) :
    (l.modify i g).map Inode.extent = l.map Inode.extent := by
  refine List.ext_getElem? fun j => ?_
  rw [List.getElem?_map, List.getElem?_map, List.getElem?_modify]
  cases l[j]? with
  | none => rfl
  | some n =>
    simp only [Option.map_some, Option.map_eq_map]
    split_ifs
    · rw [hg]
    · rfl

theorem extent_addChild (l : List Inode) (p : ℕ) (c : Inode) :
    (addChild l p c).map Inode.extent = l.map Inode.extent ++ [c.extent] := by
  rw [addChild, extent_modify, List.map_append, List.map_singleton]
  exact fun n => rfl

/-- What stands at the end of a table that has grown by one inode -/
theorem extent_last {e : ℕ × ℕ × ℕ} (hext : fs'.inodes.map Inode.extent = fs.inodes.map Inode.extent ++ [e]) :
    fs'.inodes[fs.inode_count]?.map Inode.extent = some e := by
  rw [← List.getElem?_map, hext, FileSystem.inode_count, ← List.length_map Inode.extent, List.getElem?_concat_length]

/-- A change of the times or the size of an inode -/
theorem Inv.modify (h : Inv fs) (i : ℕ) (hg : KeepsLinks g) (hcount : ∀ n, (g n).child_count = n.child_count) :
    Inv { fs with inodes := fs.inodes.modify i g } := by
  cases hi : fs.inodes[i]? with
  | none => rwa [List.modify_eq_self (List.getElem?_eq_none_iff.mp hi)]
  | some x =>
    have hkeep : KeepsLinks fun n => if n.inode = x.inode then g n else n := by
      intro n
      dsimp only
      split_ifs
      · exact hg n
      · exact ⟨rfl, rfl, rfl, rfl, rfl⟩
    have htree := h.tree.map hkeep fun n => by
      split_ifs
      · exact hcount n
      · rfl
    rw [h.tree.unique.modify_eq_map hi g]
    refine ⟨htree, h.blocks.of_files rfl rfl fun n hn hfile => ?_⟩
    obtain ⟨m, hm, rfl⟩ := List.mem_map.mp hn
    obtain ⟨hmi, -, -, hmt, hmb⟩ := hkeep m
    exact ⟨m, hm, hmt.symm.trans hfile, hmi.symm, hmb.symm⟩

/-- The creation of a file fails, or makes an empty one at the end of the table. -/
theorem createFile_cases {path : List Byte} {memory : Realloc} {now : ℕ} {r : Option ℕ}
    (hcall : createFile behind fs path memory now = some (fs', r)) :
    r = none ∧ fs'.inodes = fs.inodes ∨
    r = some fs.inode_count ∧ ∃ b, fs'.inodes.map Inode.extent = fs.inodes.map Inode.extent ++ [(VFS_TYPE_FILE, 0, b)] := by
  obtain ⟨⟨parent_path, filename⟩, -, hcall⟩ := Option.bind_eq_some_iff.mp hcall
  dsimp only at hcall
  cases hdir : findDirectory behind fs parent_path with
  | none =>
    rw [hdir] at hcall
    cases hcall
    exact .inl ⟨rfl, rfl⟩
  | some parent =>
    rw [hdir] at hcall
    dsimp only at hcall
    cases hblock : allocate_block fs with
    | none =>
      rw [hblock] at hcall
      cases hcall
      exact .inl ⟨rfl, rfl⟩
    | some block_index =>
      rw [hblock] at hcall
      cases memory with
      | failed =>
        cases hcall
        exact .inl ⟨rfl, rfl⟩
      | moved => cases hcall
      | inPlace =>
        dsimp only at hcall
        split_ifs at hcall
        cases hcall
        exact .inr ⟨rfl, block_index, extent_addChild ..⟩

/-- `vfs_fopen` fails, opens what there is, or makes a new file at the end of the table. -/
theorem vfs_fopen_cases {path mode : CString} {memory : Realloc} {now : ℕ} {r : Option File} (h : Inv fs)
    (hcall : vfs_fopen behind fs path mode memory now = some (fs', r)) :
    r = none ∧ fs'.inodes = fs.inodes ∨
    (∃ i n, find_inode_by_path behind fs path.bytes = some i ∧ fs.inodes[i]? = some n ∧
      fs'.inodes.map Inode.extent = fs.inodes.map Inode.extent ∧
      r = some ⟨i, if mode.get 0 = ('a' : Char) then n.size else 0, mode.bytes.take 3⟩) ∨
    ∃ b, fs'.inodes.map Inode.extent = fs.inodes.map Inode.extent ++ [(VFS_TYPE_FILE, 0, b)] ∧
      r = some ⟨fs.inode_count, 0, mode.bytes.take 3⟩ := by
  rw [vfs_fopen] at hcall
  cases hfind : find_inode_by_path behind fs path.bytes with
  | some i =>
    rw [hfind] at hcall
    cases hcall
    obtain ⟨n, hn⟩ := h.tree.exists_of_find hfind
    refine .inr (.inl ⟨i, n, rfl, hn, extent_modify _ _ fun _ => rfl, ?_⟩)
    rw [hn]
    rfl
  | none =>
    rw [hfind] at hcall
    dsimp only at hcall
    split_ifs at hcall with hcreates
    · obtain ⟨⟨fs₁, r₁⟩, hcreate, hr⟩ := Option.map_eq_some_iff.mp hcall
      obtain ⟨rfl, hsame⟩ | ⟨rfl, b, hext⟩ := createFile_cases hcreate
      · cases hr
        exact .inl ⟨rfl, hsame⟩
      · cases hr
        obtain ⟨n, hn, hlast⟩ := Option.map_eq_some_iff.mp (extent_last hext)
        have hsize : n.size = 0 := congrArg (·.2.1) hlast
        refine .inr (.inr ⟨b, ?_, ?_⟩)
        · refine (extent_modify _ _ fun n => ?_).trans hext
          rfl
        · simp only [hn, Option.map_some, Option.getD_some, hsize, ite_self]
    · cases hcall
      exact .inl ⟨rfl, rfl⟩

/-- `vfs_mkdir` fails, or makes a directory at the end of the table. -/
theorem vfs_mkdir_cases {path : CString} {mode now : ℕ} {memory : Realloc} {r : ℤ}
    (hcall : vfs_mkdir behind fs path mode memory now = some (fs', r)) :
    r ≠ 0 ∧ fs' = fs ∨ r = 0 ∧ fs'.inodes.map Inode.extent = fs.inodes.map Inode.extent ++ [(VFS_TYPE_DIR, 0, 0)] := by
  obtain ⟨⟨parent_path, dirname⟩, -, hcall⟩ := Option.bind_eq_some_iff.mp hcall
  dsimp only at hcall
  split at hcall
  · cases hcall
    exact .inl ⟨by decide, rfl⟩
  · split_ifs at hcall with hchild hroom
    · cases hcall
      exact .inl ⟨by decide, rfl⟩
    · cases memory with
      | failed =>
        cases hcall
        exact .inl ⟨by decide, rfl⟩
      | moved => cases hcall
      | inPlace =>
        cases hcall
        exact .inr ⟨rfl, extent_addChild ..⟩
    · cases memory with
      | failed =>
        cases hcall
        exact .inl ⟨by decide, rfl⟩
      | moved => cases hcall
      | inPlace => cases hcall

/-- `vfs_remove` fails, or takes the inode of the path out of the table. -/
theorem vfs_remove_cases {path : CString} {r : ℤ} (h : Inv fs) (hcall : vfs_remove behind fs path = some (fs', r)) :
    r ≠ 0 ∧ fs' = fs ∨ r = 0 ∧ ∃ i, find_inode_by_path behind fs path.bytes = some i ∧
      fs'.inodes.map Inode.extent = (fs.inodes.map Inode.extent).eraseIdx i := by
  rw [vfs_remove] at hcall
  cases hfind : (find_inode_by_path behind fs path.bytes).bind fun i => fs.inodes[i]? with
  | none =>
    rw [hfind] at hcall
    cases hcall
    exact .inl ⟨by decide, rfl⟩
  | some n =>
    obtain ⟨i, hi, hn⟩ := Option.bind_eq_some_iff.mp hfind
    rw [hfind] at hcall
    dsimp only at hcall
    by_cases hchildren : 0 < n.child_count
    · rw [if_pos hchildren] at hcall
      cases hcall
      exact .inl ⟨by decide, rfl⟩
    · rw [if_neg hchildren] at hcall
      by_cases hparent : pred n.parent_inode < fs.inode_count
      swap
      · rw [if_neg hparent] at hcall
        cases hcall
      rw [if_pos hparent] at hcall
      cases hcall
      refine .inr ⟨rfl, i, hi, ?_⟩
      obtain ⟨d, hd⟩ : ∃ d, fs.inodes[pred n.parent_inode]? = some d := ⟨_, List.getElem?_eq_getElem hparent⟩
      have hidx : (fs.inodes.map (uncountChild d)).findIdx (fun m => decide (m.inode = n.inode)) = i := by
        have hkey := (keepsLinks_uncountChild d n).1
        have hdistinct := (Distinct.of_map fun n => (keepsLinks_uncountChild d n).1).mpr h.tree.unique
        rw [← hdistinct.findIdx_eq (getElem?_uncount hn), hkey]
      have hinodes (fs₁ : FileSystem) : (if n.type = VFS_TYPE_FILE then free_block fs₁ n.block_index else fs₁).inodes =
          fs₁.inodes := by
        unfold free_block
        split_ifs <;> rfl
      rw [hinodes, modify_uncount h.tree.unique hd, hidx, ← List.eraseIdx_map, ← modify_uncount h.tree.unique hd, extent_modify]
      intro n
      rw [Inode.extent, Inode.extent]

/-- `vfs_rename` changes no file. -/
theorem extent_vfs_rename {old_path new_path : CString} {now : ℕ} {r : ℤ}
    (hcall : vfs_rename behind fs old_path new_path now = some (fs', r)) :
    fs'.inodes.map Inode.extent = fs.inodes.map Inode.extent := by
  rw [vfs_rename] at hcall
  split at hcall
  · cases hcall
    rfl
  · obtain ⟨⟨new_parent_path, new_name⟩, -, hcall⟩ := Option.bind_eq_some_iff.mp hcall
    dsimp only at hcall
    split at hcall
    · cases hcall
      rfl
    · obtain ⟨n, -, hcall⟩ := Option.bind_eq_some_iff.mp hcall
      split_ifs at hcall
      cases hcall
      rw [extent_modify, extent_modify, extent_modify]
      all_goals
        intro n
        rw [Inode.extent, Inode.extent]

end

/-! ## Steps -/

section
variable {s s' : Session} {f : Files} {n m : Inode} {l : List Byte} {file : File} {stream i : ℕ} {behind : Inode → List Byte}

theorem exists_of_extent (hext : s'.fs.inodes.map Inode.extent = s.fs.inodes.map Inode.extent)
    (hm : s'.fs.inodes[i]? = some m) : ∃ n, s.fs.inodes[i]? = some n ∧ m.extent = n.extent := by
  have hget := congrArg (·[i]?) hext
  rw [List.getElem?_map, List.getElem?_map, hm] at hget
  obtain ⟨n, hn, hsame⟩ := Option.map_eq_some_iff.mp hget.symm
  exact ⟨n, hn, hsame.symm⟩

/-- A step that changes no file -/
theorem Holds.keep (h : Holds s f) (hinv : Inv s'.fs)
    (hext : s'.fs.inodes.map Inode.extent = s.fs.inodes.map Inode.extent) (himage : s'.backing_file = s.backing_file)
    (hinside : ∀ file, .opened file ∈ s'.streams → Inside s f file) : Holds s' { f with streams := s'.streams } := by
  have hlength : s'.fs.inodes.length = s.fs.inodes.length := by simpa using congrArg List.length hext
  refine ⟨hinv, h.length.trans hlength.symm, fun i m l hm hl => ?_, rfl, fun file hfile => ?_⟩
  · obtain ⟨n, hn, hsame⟩ := exists_of_extent hext hm
    rw [himage]
    exact (h.described i n l hn hl).congr hsame
  · obtain ⟨n, l, hn, hl, hoffset, hwrites⟩ := hinside file hfile
    obtain ⟨m, hm, hsame⟩ := exists_of_extent hext.symm hn
    have htype : n.type = m.type := congrArg (·.1) hsame
    exact ⟨m, l, hm, hl, hoffset, fun hw => htype ▸ hwrites hw⟩

/-- A new inode at the end of the table -/
theorem Holds.push (h : Holds s f) (hinv : Inv s'.fs) {type b : ℕ}
    (hext : s'.fs.inodes.map Inode.extent = s.fs.inodes.map Inode.extent ++ [(type, 0, b)])
    (himage : s'.backing_file = s.backing_file)
    (hinside : ∀ file, .opened file ∈ s'.streams → Inside s f file ∨
      file.inode = s.fs.inode_count ∧ file.offset = 0 ∧ type = VFS_TYPE_FILE) :
    Holds s' ⟨f.contents ++ [[]], s'.streams⟩ := by
  have hlength : s'.fs.inodes.length = s.fs.inodes.length + 1 := by simpa using congrArg List.length hext
  have hold (i : ℕ) (hi : i < s.fs.inodes.length) : s'.fs.inodes[i]?.map Inode.extent = s.fs.inodes[i]?.map Inode.extent := by
    rw [← List.getElem?_map, hext, List.getElem?_append_left (by rwa [List.length_map]), List.getElem?_map]
  have hnew : s'.fs.inodes[s.fs.inodes.length]?.map Inode.extent = some (type, 0, b) := extent_last hext
  have hlast : (f.contents ++ [[]])[s.fs.inodes.length]? = some [] := by rw [← h.length, List.getElem?_concat_length]
  refine ⟨hinv, ?_, fun i m l hm hl => ?_, rfl, fun file hfile => ?_⟩
  · rw [List.length_append, List.length_singleton, h.length, hlength]
  · by_cases hi : i < s.fs.inodes.length
    · have hsame := hold i hi
      rw [hm] at hsame
      obtain ⟨n, hn, hsame⟩ := Option.map_eq_some_iff.mp hsame.symm
      rw [List.getElem?_append_left (by rwa [h.length])] at hl
      rw [himage]
      exact (h.described i n l hn hl).congr hsame.symm
    · obtain rfl : i = s.fs.inodes.length := by
        have := (List.getElem?_eq_some_iff.mp hm).1
        omega
      rw [hm] at hnew
      rw [hlast] at hl
      cases hl
      exact ⟨congrArg (·.2.1) (Option.some.inj hnew), Nat.zero_le _, fun _ => List.nil_prefix, fun _ => rfl⟩
  · obtain ⟨n, l, hn, hl, hoffset, hwrites⟩ | ⟨hplace, hzero, htype⟩ := hinside file hfile
    · have hsame := hold file.inode (List.getElem?_eq_some_iff.mp hn).1
      rw [hn] at hsame
      obtain ⟨m, hm, hsame⟩ := Option.map_eq_some_iff.mp hsame
      have hkeep : m.type = n.type := congrArg (·.1) hsame
      refine ⟨m, l, hm, ?_, hoffset, fun hw => hkeep.trans (hwrites hw)⟩
      rw [List.getElem?_append_left (List.getElem?_eq_some_iff.mp hl).1, hl]
    · obtain ⟨m, hm, hsame⟩ := Option.map_eq_some_iff.mp hnew
      have hkeep : m.type = type := congrArg (·.1) hsame
      rw [FileSystem.inode_count] at hplace
      exact ⟨m, [], hplace ▸ hm, hplace ▸ hlast, hzero.le, fun _ => hkeep.trans htype⟩

/-- The inode at `i` is taken out of the table. -/
theorem Holds.erase (h : Holds s f) (hinv : Inv s'.fs)
    (hext : s'.fs.inodes.map Inode.extent = (s.fs.inodes.map Inode.extent).eraseIdx i) (hi : i < s.fs.inodes.length)
    (himage : s'.backing_file = s.backing_file) (hstreams : s'.streams = s.streams)
    (hbefore : ∀ file, .opened file ∈ s.streams → file.inode < i) : Holds s' { f with contents := f.contents.eraseIdx i } := by
  have hget (j : ℕ) : s'.fs.inodes[j]?.map Inode.extent = s.fs.inodes[if j < i then j else j + 1]?.map Inode.extent := by
    rw [← List.getElem?_map, hext, List.getElem?_eraseIdx]
    split_ifs <;> rw [List.getElem?_map]
  refine ⟨hinv, ?_, fun j m l hm hl => ?_, h.streams.trans hstreams.symm, fun file hfile => ?_⟩
  · have hlength := congrArg List.length hext
    rw [List.length_map, List.length_eraseIdx_of_lt (by rwa [List.length_map]), List.length_map] at hlength
    rw [List.length_eraseIdx_of_lt (by rwa [h.length]), h.length, hlength]
  · have hsame := hget j
    rw [hm] at hsame
    obtain ⟨n, hn, hsame⟩ := Option.map_eq_some_iff.mp hsame.symm
    have hl : f.contents[if j < i then j else j + 1]? = some l := by
      rw [List.getElem?_eraseIdx] at hl
      split_ifs at hl ⊢ <;> exact hl
    rw [himage]
    exact (h.described _ n l hn hl).congr hsame.symm
  · rw [hstreams] at hfile
    have hlt := hbefore file hfile
    obtain ⟨n, l, hn, hl, hoffset, hwrites⟩ := h.inside file hfile
    have hsame := hget file.inode
    rw [if_pos hlt, hn] at hsame
    obtain ⟨m, hm, hsame⟩ := Option.map_eq_some_iff.mp hsame
    have hkeep : m.type = n.type := congrArg (·.1) hsame
    exact ⟨m, l, hm, (List.getElem?_eraseIdx_of_lt hlt).trans hl, hoffset, fun hw => hkeep.trans (hwrites hw)⟩

/-- Every stream but the one that is set was there before. -/
theorem mem_set_opened {stream : ℕ} {x : Stream} {P : File → Prop} (h : ∀ file, .opened file ∈ s.streams → P file)
    (hx : ∀ file, x = .opened file → P file) : ∀ file, .opened file ∈ s.streams.set stream x → P file := by
  intro file hfile
  cases List.mem_or_eq_of_mem_set hfile with
  | inl hfile => exact h file hfile
  | inr heq => exact hx file heq.symm

/-- The bytes between the position and the end of the file -/
theorem Holds.vfs_fread_eq (h : Holds s f) {size nmemb : UInt64} (hn : s.fs.inodes[file.inode]? = some n)
    (hl : f.contents[file.inode]? = some l) (hoffset : file.offset ≤ l.length)
    (hfits : file.offset + (size * nmemb).toNat < 2 ^ 64) (hmode : file.mode.getD 0 0 = ('r' : Char)) :
    vfs_fread s size nmemb file = (l.drop file.offset).take (size * nmemb).toNat := by
  have hd := h.described _ n l hn hl
  have hshort : l.length ≤ 4096 := hd.short
  rw [vfs_fread, if_neg (not_not.mpr hmode), hn]
  dsimp only
  rw [Nat.mod_eq_of_lt hfits, hd.size]
  have hrest : (l.length + 2 ^ 64 - file.offset) % 2 ^ 64 = l.length - file.offset := by omega
  rw [hrest]
  by_cases hfile : n.type = VFS_TYPE_FILE
  · obtain ⟨t, ht⟩ := hd.data hfile
    rw [← List.drop_drop, ← ht, List.drop_append_of_le_length hoffset]
    split_ifs with hlong
    · rw [List.take_append_of_le_length (by rw [List.length_drop]), List.take_of_length_le (by rw [List.length_drop]),
        List.take_of_length_le (by rw [List.length_drop]; omega)]
    · rw [List.take_append_of_le_length (by rw [List.length_drop]; omega)]
  · obtain rfl := hd.none hfile
    rw [List.length_nil, Nat.le_zero] at hoffset
    rw [hoffset, List.drop_nil, List.take_nil]
    split_ifs with hlong
    · rfl
    · have hzero : (size * nmemb).toNat = 0 := by
        rw [List.length_nil] at hlong
        omega
      rw [hzero, List.take_zero]

/-- The bytes that fit into the block -/
theorem accepted_eq {ptr : List Byte} (hoffset : file.offset ≤ VFS_BLOCK_SIZE) (hfits : file.offset + ptr.length < 2 ^ 64) :
    accepted file ptr = ptr.take (VFS_BLOCK_SIZE - file.offset) := by
  unfold VFS_BLOCK_SIZE at hoffset
  rw [accepted, Nat.mod_eq_of_lt hfits]
  unfold VFS_BLOCK_SIZE
  split_ifs with hlong
  · congr 1
    omega
  · rw [List.take_length, List.take_of_length_le (by omega)]

/-- A write changes the bytes of one file, and of no other. -/
theorem Holds.write (h : Holds s f) {size : UInt64} {ptr : List Byte} {now : UInt64}
    (hfile : s.streams[stream]? = some (.opened file)) (hfits : file.offset + ptr.length < 2 ^ 64) (hwrites : writes file)
    (hcall : vfs_fwrite s stream size ptr file now = some s') :
    Holds s' ({ f with contents := f.contents.modify file.inode fun l => writeAt l file.offset (accepted file ptr) }.opened
      stream { file with offset := file.offset + (accepted file ptr).length }) := by
  obtain ⟨n, l, hn, hl, hoffset, hregular⟩ := h.opened hfile
  have hregular := hregular hwrites
  have hd := h.described _ n l hn hl
  have haccepted := accepted_eq (hoffset.trans hd.short) hfits
  have hshort : (accepted file ptr).length ≤ VFS_BLOCK_SIZE - file.offset := by
    rw [haccepted]
    exact List.length_take_le _ _
  have hblock : VFS_BLOCK_SIZE = 4096 := rfl
  have hl4 := hd.short
  rw [vfs_fwrite, if_pos hwrites, hn] at hcall
  dsimp only at hcall
  rw [Nat.mod_eq_of_lt (by omega)] at hcall
  by_cases hsize : size = 0
  · rw [if_pos hsize] at hcall
    cases hcall
  rw [if_neg hsize] at hcall
  cases hcall
  have hlong : (writeAt l file.offset (accepted file ptr)).length = max l.length (file.offset + (accepted file ptr).length) :=
    length_writeAt hoffset
  refine ⟨h.inv.modify _ (fun n => ⟨rfl, rfl, rfl, rfl, rfl⟩) fun n => rfl, ?_, fun j m k hm hk => ?_, ?_, ?_⟩
  · rw [Files.opened, List.length_modify, List.length_modify, h.length]
  · rw [Files.opened, List.getElem?_modify] at hk
    rw [List.getElem?_modify] at hm
    obtain ⟨m, hm₀, rfl⟩ := Option.map_eq_some_iff.mp hm
    obtain ⟨k, hk₀, rfl⟩ := Option.map_eq_some_iff.mp hk
    dsimp only
    by_cases hj : file.inode = j
    · subst hj
      rw [hn] at hm₀
      rw [hl] at hk₀
      cases hm₀
      cases hk₀
      rw [if_pos rfl, if_pos rfl]
      refine ⟨?_, ?_, fun _ => ?_, fun hdir => absurd hregular hdir⟩
      · rw [hlong, hd.size]
      · rw [hlong]
        omega
      · exact writeAt_prefix_drop (hd.data hregular) hoffset
    · rw [if_neg hj, if_neg hj]
      have hother := h.described j m k hm₀ hk₀
      refine ⟨hother.size, hother.short, fun hmfile => ?_, hother.none⟩
      have hapart := h.inv.blocks_apart hn hm₀ hj hregular hmfile
      have hk4 := hother.short
      exact prefix_drop_writeAt (hother.data hmfile) (by omega)
  · rw [Files.opened, h.streams]
  · refine mem_set_opened (s := s) (fun file' hfile' => ?_) fun file' hfile' => ?_
    · obtain ⟨m, k, hm, hk, hoffset', hregular'⟩ := h.inside file' hfile'
      refine ⟨_, _, (List.getElem?_modify ..).trans (congrArg _ hm), (List.getElem?_modify ..).trans (congrArg _ hk), ?_, ?_⟩
      · dsimp only
        by_cases hj : file.inode = file'.inode
        · rw [← hj, hl] at hk
          cases hk
          rw [if_pos hj, hlong]
          exact hoffset'.trans (le_max_left _ _)
        · rwa [if_neg hj]
      · dsimp only
        by_cases hj : file.inode = file'.inode
        · rw [if_pos hj]
          exact hregular'
        · rwa [if_neg hj]
    · cases hfile'
      refine ⟨_, _, (List.getElem?_modify ..).trans (congrArg _ hn), (List.getElem?_modify ..).trans (congrArg _ hl), ?_, ?_⟩
      · dsimp only
        rw [if_pos rfl, hlong]
        exact le_max_right _ _
      · dsimp only
        rw [if_pos rfl]
        exact fun _ => hregular

/-! ## The files refuse no call -/

theorem Holds.run_fopen (h : Holds s f) {path mode : CString} {memory : Realloc} {now : ℕ} {event : Event}
    (hharmless : Invocation.Harmless behind s (.operation (.fopen path mode memory now)))
    (hrun : Invocation.run behind s (.operation (.fopen path mode memory now)) = some (s', event)) :
    ∃ f', f.next event = some f' ∧ Holds s' f' := by
  obtain ⟨fs', r, hcall, hinv⟩ := h.inv.vfs_fopen hharmless.1
  rw [Invocation.run, hcall, Option.map_some] at hrun
  have hfirst : (mode.bytes.take 3).getD 0 0 = mode.get 0 := by
    rw [CString.get]
    cases mode.bytes <;> rfl
  have hwritable (i offset : ℕ) : writes ⟨i, offset, mode.bytes.take 3⟩ = creates mode := by
    rw [writes, creates, hfirst]
  obtain ⟨rfl, hsame⟩ | ⟨i, n, hfind, hn, hext, rfl⟩ | ⟨b, hext, rfl⟩ := vfs_fopen_cases h.inv hcall
  · cases hrun
    refine ⟨_, rfl, ?_⟩
    rw [h.streams]
    refine h.keep hinv (by rw [hsame]) rfl fun file hfile => h.inside file ?_
    simpa using hfile
  · cases hrun
    obtain ⟨l, hl, hd⟩ := h.exists_contents hn
    have hi : i ≠ f.contents.length := (List.getElem?_eq_some_iff.mp hl).1.ne
    refine ⟨_, ?_, h.keep hinv hext rfl fun file hfile => ?_⟩
    · rw [Files.next, if_neg hi, hl, Option.map_some, h.streams, hd.size]
    · rw [List.mem_append, List.mem_singleton] at hfile
      cases hfile with
      | inl hfile => exact h.inside file hfile
      | inr hfile =>
        cases hfile
        refine ⟨n, l, hn, hl, ?_, fun hw => hharmless.2 (hwritable _ _ ▸ hw) i n hfind hn⟩
        dsimp only
        rw [hd.size]
        split_ifs
        · exact le_rfl
        · exact Nat.zero_le _
  · cases hrun
    have hlast : (f.contents ++ [[]])[s.fs.inode_count]? = some [] := by
      rw [FileSystem.inode_count, ← h.length, List.getElem?_concat_length]
    refine ⟨_, ?_, h.push hinv hext rfl fun file hfile => ?_⟩
    · rw [Files.next]
      dsimp only
      rw [if_pos (show s.fs.inode_count = f.contents.length from h.length.symm), hlast, Option.map_some, h.streams,
        List.length_nil, ite_self]
    · rw [List.mem_append, List.mem_singleton] at hfile
      cases hfile with
      | inl hfile => exact .inl (h.inside file hfile)
      | inr hfile =>
        cases hfile
        exact .inr ⟨rfl, rfl, rfl⟩

theorem Holds.run_operation (h : Holds s f) {call : Operation} {event : Event}
    (hharmless : Invocation.Harmless behind s (.operation call))
    (hrun : Invocation.run behind s (.operation call) = some (s', event)) : ∃ f', f.next event = some f' ∧ Holds s' f' := by
  cases call with
  | fopen path mode memory now => exact h.run_fopen hharmless hrun
  | mkdir path mode memory now =>
    obtain ⟨fs', r, hcall, hinv⟩ := h.inv.vfs_mkdir hharmless.1
    rw [Invocation.run, hcall, Option.map_some] at hrun
    cases hrun
    obtain ⟨hr, rfl⟩ | ⟨rfl, hext⟩ := vfs_mkdir_cases hcall
    · exact ⟨f, congrArg some (if_neg hr), h⟩
    · refine ⟨_, congrArg some (if_pos rfl), ?_⟩
      rw [h.streams]
      exact h.push hinv hext rfl fun file hfile => .inl (h.inside file hfile)
  | remove path =>
    obtain ⟨fs', r, hcall, hinv⟩ := h.inv.vfs_remove hharmless.1
    rw [Invocation.run, hcall, Option.map_some] at hrun
    cases hrun
    obtain ⟨hr, rfl⟩ | ⟨rfl, i, hfind, hext⟩ := vfs_remove_cases h.inv hcall
    · rw [if_neg hr]
      exact ⟨f, rfl, h⟩
    · rw [if_pos rfl, hfind]
      obtain ⟨n, hn⟩ := h.inv.tree.exists_of_find hfind
      exact ⟨_, rfl, h.erase hinv hext (List.getElem?_eq_some_iff.mp hn).1 rfl rfl fun file => hharmless.2 i file hfind⟩
  | rename old_path new_path now =>
    obtain ⟨fs', r, hcall, hinv⟩ := h.inv.vfs_rename hharmless.1
    rw [Invocation.run, hcall, Option.map_some] at hrun
    cases hrun
    have hsame : ({ f with streams := s.streams } : Files) = f := by rw [← h.streams]
    refine ⟨_, rfl, ?_⟩
    rw [← hsame]
    exact h.keep hinv (extent_vfs_rename hcall) rfl h.inside

/-- The streams that are no closed ones -/
theorem onStream_eq_some {α : Type} {null x : α} {opened : File → Option α} (h : s.onStream stream null opened = some x) :
    s.streams[stream]? = some .null ∧ x = null ∨ ∃ file, s.streams[stream]? = some (.opened file) ∧ opened file = some x := by
  rw [Session.onStream] at h
  split at h
  · rename_i file hfile
    exact .inr ⟨file, hfile, h⟩
  · rename_i hnull
    exact .inl ⟨hnull, (Option.some.inj h).symm⟩
  · cases h

theorem Holds.run_fread (h : Holds s f) {size nmemb : UInt64} {now : ℕ} {event : Event}
    (hharmless : Invocation.Harmless behind s (.fread stream size nmemb now))
    (hrun : Invocation.run behind s (.fread stream size nmemb now) = some (s', event)) :
    ∃ f', f.next event = some f' ∧ Holds s' f' := by
  obtain ⟨⟨s₁, ptr, r⟩, hcall, hevent⟩ := Option.map_eq_some_iff.mp hrun
  cases hevent
  obtain ⟨hnull, hsame⟩ | ⟨file, hfile, hread⟩ := onStream_eq_some hcall
  · cases hsame
    refine ⟨f, ?_, h⟩
    rw [Files.next, Files.read, h.streams, hnull]
    dsimp only
    rw [Option.bind_some, if_pos ⟨rfl, by rw [List.length_nil, Nat.zero_div]⟩]
  · rw [Session.vfs_fread] at hread
    by_cases hmode : file.mode.getD 0 0 = ('r' : Char)
    · obtain ⟨n, l, hn, hl, hoffset, hregular⟩ := h.opened hfile
      rw [if_neg (not_not.mpr hmode)] at hread
      split_ifs at hread
      have hptr := h.vfs_fread_eq hn hl hoffset (hharmless file hfile) hmode
      rw [hptr] at hread
      cases hread
      refine ⟨_, ?_, h.keep (h.inv.modify _ (fun n => ⟨rfl, rfl, rfl, rfl, rfl⟩) fun n => rfl)
        (extent_modify _ _ fun n => rfl) rfl (mem_set_opened h.inside fun file' hfile' => ?_)⟩
      · rw [Files.next, Files.read, h.streams, hfile]
        dsimp only
        rw [if_pos hmode, hl, Option.map_some, Option.bind_some, if_pos ⟨rfl, rfl⟩, Files.opened, h.streams]
      · cases hfile'
        refine ⟨n, l, hn, hl, ?_, hregular⟩
        dsimp only
        rw [List.length_take, List.length_drop]
        omega
    · rw [if_pos hmode] at hread
      cases hread
      refine ⟨f, ?_, h⟩
      rw [Files.next, Files.read, h.streams, hfile]
      dsimp only
      rw [if_neg hmode, Option.bind_some, if_pos ⟨rfl, by rw [List.length_nil, Nat.zero_div]⟩]

theorem Holds.run_fwrite (h : Holds s f) {size nmemb : UInt64} {ptr : List Byte} {hptr : ptr.length = (size * nmemb).toNat}
    {now : UInt64} {event : Event} (hharmless : Invocation.Harmless behind s (.fwrite stream size nmemb ptr hptr now))
    (hrun : Invocation.run behind s (.fwrite stream size nmemb ptr hptr now) = some (s', event)) :
    ∃ f', f.next event = some f' ∧ Holds s' f' := by
  obtain ⟨⟨s₁, r⟩, hcall, hevent⟩ := Option.map_eq_some_iff.mp hrun
  cases hevent
  obtain ⟨hnull, hsame⟩ | ⟨file, hfile, hwrite⟩ := onStream_eq_some hcall
  · cases hsame
    refine ⟨f, ?_, h⟩
    rw [Files.next, Files.write, h.streams, hnull]
    dsimp only
    rw [Option.bind_some, if_pos (Nat.zero_div _).symm]
  · obtain ⟨s₂, hstep, hresult⟩ := Option.map_eq_some_iff.mp hwrite
    cases hresult
    by_cases hwrites : writes file
    · obtain ⟨n, l, hn, hl, hoffset, -⟩ := h.opened hfile
      have haccepted := accepted_eq (hoffset.trans (h.described _ n l hn hl).short) (hharmless file hfile)
      refine ⟨_, ?_, h.write hfile (hharmless file hfile) hwrites hstep⟩
      rw [Files.next, Files.write, h.streams, hfile]
      dsimp only
      rw [if_pos hwrites, Option.bind_some, if_pos hwrites, haccepted, if_pos rfl]
    · rw [vfs_fwrite, if_neg hwrites] at hstep
      cases hstep
      refine ⟨f, ?_, h⟩
      rw [Files.next, Files.write, h.streams, hfile]
      dsimp only
      rw [if_neg hwrites, Option.bind_some, if_neg hwrites, if_pos (Nat.zero_div _).symm]

/-- A position is computed modulo 2^64, and taken when it is within the file. -/
theorem position_eq {base size : ℕ} (offset : Int64) (hbase : base ≤ VFS_BLOCK_SIZE) (hsize : size ≤ VFS_BLOCK_SIZE) :
    (0 ≤ base + offset.toInt ∧ base + offset.toInt ≤ size →
      (base + offset.toUInt64.toNat) % 2 ^ 64 = (base + offset.toInt).toNat) ∧
    (¬ (0 ≤ base + offset.toInt ∧ base + offset.toInt ≤ size) → size < (base + offset.toUInt64.toNat) % 2 ^ 64) := by
  have hsigned : offset.toInt = if 2 * offset.toUInt64.toNat < 2 ^ 64 then (offset.toUInt64.toNat : ℤ)
      else (offset.toUInt64.toNat : ℤ) - (2 ^ 64 : ℕ) := BitVec.toInt_eq_toNat_cond offset.toBitVec
  have hword := offset.toUInt64.toNat_lt
  unfold VFS_BLOCK_SIZE at hbase hsize
  split_ifs at hsigned <;> omega

theorem Holds.run_fseek (h : Holds s f) {offset : Int64} {whence : Int32} {event : Event}
    (hrun : Invocation.run behind s (.fseek stream offset whence) = some (s', event)) :
    ∃ f', f.next event = some f' ∧ Holds s' f' := by
  obtain ⟨⟨s₁, r⟩, hcall, hevent⟩ := Option.map_eq_some_iff.mp hrun
  cases hevent
  obtain ⟨hnull, hsame⟩ | ⟨file, hfile, hseek⟩ := onStream_eq_some hcall
  · cases hsame
    refine ⟨f, ?_, h⟩
    rw [Files.next, Files.seek, h.streams, hnull]
    rfl
  · obtain ⟨n, l, hn, hl, hoffset, hregular⟩ := h.opened hfile
    have hd := h.described _ n l hn hl
    have hnext (r : ℤ) : f.next (.fseek stream offset whence r) =
        ((f.contents[file.inode]?.map fun l =>
          match seekBase whence file.offset l.length with
          | none => (f, -1)
          | some base =>
            if 0 ≤ base + offset.toInt ∧ base + offset.toInt ≤ l.length then
              (f.opened stream { file with offset := (base + offset.toInt).toNat }, 0)
            else (f, -1)).bind fun (f', r') => if r = r' then some f' else none) := by
      rw [Files.next, Files.seek, h.streams, hfile]
    rw [Session.vfs_fseek, hn, Option.map_some, hd.size] at hseek
    cases hbase : seekBase whence file.offset l.length with
    | none =>
      rw [hbase] at hseek
      cases hseek
      refine ⟨f, ?_, h⟩
      rw [hnext, hl, Option.map_some, Option.bind_some, hbase]
      exact if_pos rfl
    | some base =>
      rw [hbase] at hseek
      have hle : base ≤ VFS_BLOCK_SIZE := by
        unfold seekBase at hbase
        split_ifs at hbase <;> cases hbase
        · exact Nat.zero_le _
        · exact hoffset.trans hd.short
        · exact hd.short
      obtain ⟨hinside, houtside⟩ := position_eq offset hle hd.short
      by_cases htarget : 0 ≤ base + offset.toInt ∧ base + offset.toInt ≤ l.length
      · have hshort := hd.short
        dsimp only at hseek
        rw [hinside htarget, if_neg (by omega)] at hseek
        cases hseek
        refine ⟨f.opened stream { file with offset := (base + offset.toInt).toNat }, ?_, ?_⟩
        · rw [hnext, hl, Option.map_some, Option.bind_some, hbase]
          dsimp only
          rw [if_pos htarget, if_pos rfl]
        · rw [Files.opened, h.streams]
          refine h.keep h.inv rfl rfl (mem_set_opened h.inside fun file' hfile' => ?_)
          cases hfile'
          refine ⟨n, l, hn, hl, ?_, hregular⟩
          dsimp only
          omega
      · dsimp only at hseek
        rw [if_pos (Or.inl (houtside htarget))] at hseek
        cases hseek
        refine ⟨f, ?_, h⟩
        rw [hnext, hl, Option.map_some, Option.bind_some, hbase]
        dsimp only
        rw [if_neg htarget, if_pos rfl]

theorem Holds.run_ftell (h : Holds s f) {event : Event}
    (hrun : Invocation.run behind s (.ftell stream) = some (s', event)) : ∃ f', f.next event = some f' ∧ Holds s' f' := by
  obtain ⟨r, hcall, hevent⟩ := Option.map_eq_some_iff.mp hrun
  cases hevent
  refine ⟨f, ?_, h⟩
  obtain ⟨hnull, rfl⟩ | ⟨file, hfile, htell⟩ := onStream_eq_some hcall
  · rw [Files.next, Files.tell, h.streams, hnull]
    rfl
  · cases htell
    rw [Files.next, Files.tell, h.streams, hfile]
    exact if_pos rfl

theorem Holds.run_fclose (h : Holds s f) {now : ℕ} {event : Event}
    (hrun : Invocation.run behind s (.fclose stream now) = some (s', event)) : ∃ f', f.next event = some f' ∧ Holds s' f' := by
  obtain ⟨⟨s₁, r⟩, hcall, hevent⟩ := Option.map_eq_some_iff.mp hrun
  cases hevent
  obtain ⟨hnull, hsame⟩ | ⟨file, hfile, hclose⟩ := onStream_eq_some hcall
  · cases hsame
    refine ⟨f, ?_, h⟩
    rw [Files.next, Files.close, h.streams, hnull]
    rfl
  · cases hclose
    refine ⟨{ f with streams := s.streams.set stream .closed }, ?_, ?_⟩
    · rw [Files.next, Files.close, h.streams, hfile]
      rfl
    · refine h.keep (h.inv.modify _ (fun n => ⟨rfl, rfl, rfl, rfl, rfl⟩) fun n => rfl) (extent_modify _ _ fun n => rfl) rfl ?_
      exact mem_set_opened h.inside fun file' hfile' => by cases hfile'

/-- One call: the files do what the file system does. -/
theorem Holds.run (h : Holds s f) {call : Invocation} {event : Event} (hharmless : call.Harmless behind s)
    (hrun : call.run behind s = some (s', event)) : ∃ f', f.next event = some f' ∧ Holds s' f' := by
  cases call with
  | operation call => exact h.run_operation hharmless hrun
  | fread stream size nmemb now => exact h.run_fread hharmless hrun
  | fwrite stream size nmemb ptr hptr now => exact h.run_fwrite hharmless hrun
  | fseek stream offset whence => exact h.run_fseek hrun
  | ftell stream => exact h.run_ftell hrun
  | fclose stream now => exact h.run_fclose hrun

theorem Holds.calls (h : Holds s f) {invocations : List Invocation} {log : List Event}
    (hharmless : HarmlessCalls behind s invocations) (hcalls : s.calls behind invocations = some (s', log)) :
    ∃ f', log.foldlM Files.next f = some f' ∧ Holds s' f' := by
  induction invocations generalizing s f log with
  | nil =>
    cases hcalls
    exact ⟨f, rfl, h⟩
  | cons call rest ih =>
    obtain ⟨⟨s₁, event⟩, hrun, hcalls⟩ := Option.bind_eq_some_iff.mp hcalls
    obtain ⟨⟨s₂, log₁⟩, hrest, hsame⟩ := Option.map_eq_some_iff.mp hcalls
    cases hsame
    obtain ⟨f₁, hnext, h₁⟩ := h.run hharmless.1 hrun
    obtain ⟨f', hlog, h'⟩ := ih h₁ (hharmless.2 s₁ event hrun) hrest
    refine ⟨f', ?_, h'⟩
    rw [List.foldlM_cons, hnext]
    exact hlog

end

/-! ## The file system as a store of byte arrays -/

theorem holds_mountNew (magic : UInt32) (unused : ℕ → Byte) (now : UInt64) :
    Holds (mountNew magic unused now) Files.initial := by
  refine ⟨inv_fresh _, rfl, fun i n l hn hl => ?_, rfl, fun file hfile => by cases hfile⟩
  cases i with
  | zero =>
    cases hn
    cases hl
    exact ⟨rfl, Nat.zero_le _, fun hfile => absurd hfile (by decide : VFS_TYPE_DIR ≠ VFS_TYPE_FILE), fun _ => rfl⟩
  | succ i => cases hn

end ValidcTools.Vfs
