import ValidcTools.Fat16.Volume

/-! The calls of the FAT16 file system on open files, directories and paths. -/
namespace ValidcTools.Fat16

open Bytes Memory

def O_RDONLY : UInt32 := 1
def O_WRONLY : UInt32 := 2
def O_RDWR : UInt32 := 3
def O_CREAT : UInt32 := 4
/-- From `fcntl.h` -/
def O_EXCL : UInt32 := 0x80

/-- What `localtime` gives -/
structure Tm where
  tm_year : ℕ
  tm_mon : ℕ
  tm_mday : ℕ
  tm_hour : ℕ
  tm_min : ℕ
  tm_sec : ℕ
deriving DecidableEq

def packDate (tm : Tm) : ℕ := (tm.tm_year + 1900 - 1980) <<< 9 ||| (tm.tm_mon + 1) <<< 5 ||| tm.tm_mday

def packTime (tm : Tm) : ℕ := tm.tm_hour <<< 11 ||| tm.tm_min <<< 5 ||| tm.tm_sec / 2

/-- The date and the time of an entry, where `localtime` gives one -/
def setStamp (mem : ℕ → Byte) (a : ℕ) : Option Tm → ℕ → Byte
  | none => mem
  | some tm => setTime (setDate mem a (packDate tm)) a (packTime tm)

/-- The part of a path behind its last slash -/
def lastComponent (path : Path) : List Byte := (path.text.bytes.reverse.takeWhile fun b : Byte => b ≠ ('/' : Char)).reverse

/-! ## New entries -/

/-- An entry that has been made: where it is, its cluster, and the cluster of its directory -/
structure Created where
  entry : ℕ
  firstCluster : ℕ
  parentCluster : ℕ
deriving DecidableEq

/-- The first slot of a directory that `isFree` -/
def freeSlot (mem : ℕ → Byte) (c : ℕ) : Option ℕ :=
  (List.range (entriesPerDir c)).find? fun i => isFree mem (slot c i)

/-- What `vfs_open` and `vfs_mkdir` do to make an entry -/
def createEntry (vfs : FAT16VFS) (path : Option Path) (stray : List Byte) (attributes : ℕ) :
    Option (Except Errno (FAT16VFS × Created)) :=
  (findEntry vfs.mem path stray true).map fun parentDir =>
    match path, parentDir with
    | some path, some (_, parentCluster) =>
      let name := lastComponent path
      if 11 < name.length then .error .enametoolong
      else if (findName vfs.mem parentCluster name).isSome then .error .eexist
      else match freeSlot vfs.mem parentCluster with
        | none => .error .enospc
        | some freeEntry =>
          match freeCluster vfs.fat with
          | none => .error .enospc
          | some firstCluster =>
            let a := slot parentCluster freeEntry
            let mem := setFirstCluster (setSize (setAttributes (setName vfs.mem a name) a attributes) a 0) a firstCluster
            .ok ({ vfs with fat := Function.update vfs.fat firstCluster LAST, mem := mem }, ⟨a, firstCluster, parentCluster⟩)
    | _, _ => .error .enoent

/-! ## Open files -/

/-- `vfs_open` from the test of the entry on; `strncpy` of NULL is undefined. -/
def openEntry (w : World) (path : Option Path) (mode a : ℕ) : Option (World × ℤ) :=
  if isDir w.vfs.mem a then some (w.fail .eisdir)
  else match (List.range MAX_OPEN_FILES).find? fun i => !(w.vfs.openFiles i).used with
    | none => some (w.fail .emfile)
    | some fd => path.map fun path =>
      let file : FileDesc := ⟨true, ⟨CString.ofBytes (path.text.bytes.take MAX_PATH), []⟩,
        entryFirstCluster w.vfs.mem a, entrySize w.vfs.mem a, 0, mode⟩
      ({ w with vfs := { w.vfs with openFiles := Function.update w.vfs.openFiles fd file } }.unlock, fd)

def vfs_open (path : Option Path) (mode : UInt32) (stray : List Byte) (w : World) : Option (World × ℤ) :=
  let w := w.lock
  let create := mode &&& O_CREAT ≠ 0
  let read := mode &&& O_RDONLY ≠ 0 ∨ mode &&& O_RDWR ≠ 0
  let write := mode &&& O_WRONLY ≠ 0 ∨ mode &&& O_RDWR ≠ 0
  let fileMode := if read ∧ write then 3 else if read then 1 else 2
  if ¬ read ∧ ¬ write then some (w.fail .einval)
  else (findEntry w.vfs.mem path stray false).bind fun
    | none =>
      if ¬ create then some (w.fail .enoent)
      else (createEntry w.vfs path stray 0x20).bind fun
        | .error e => some (w.fail e)
        | .ok (vfs, made) => openEntry { w with vfs := { vfs with dirty := true } } path fileMode made.entry
    | some (a, _) =>
      if create ∧ mode &&& O_EXCL ≠ 0 then some (w.fail .eexist) else openEntry w path fileMode a

/-- The descriptor is open, with these mode bits. -/
def isOpen (w : World) (fd : ℤ) (bit : ℕ) : Bool :=
  decide (0 ≤ fd ∧ fd < MAX_OPEN_FILES) && ((w.vfs.openFiles fd.toNat).used && decide ((w.vfs.openFiles fd.toNat).mode / bit % 2 = 1))

def vfs_close (fd : ℤ) (w : World) : World × ℤ :=
  let w := w.lock
  if 0 ≤ fd ∧ fd < MAX_OPEN_FILES ∧ (w.vfs.openFiles fd.toNat).used then
    let file := w.vfs.openFiles fd.toNat
    ({ w with vfs := { w.vfs with openFiles := Function.update w.vfs.openFiles fd.toNat { file with used := false } } }.unlock, 0)
  else w.fail .ebadf

/-- `uint32_t` -/
def u32 (n : ℕ) : ℕ := n % 2 ^ 32

section
variable (fat : ℕ → ℕ) (mem : ℕ → Byte)

/-- The loop of `vfs_read`: what has been read, and the offset after it -/
def readChunks (count size : ℕ) : ℕ → ℕ → ℕ → ℕ → List Byte → Option (List Byte × ℕ)
  | 0, _, _, _, _ => none
  | fuel + 1, current, intraOffset, offset, buf =>
    if buf.length < count ∧ offset < size then
      if inData current then
        let chunkSize := min (min (CLUSTER_SIZE - intraOffset) (count - buf.length)) (size - offset)
        let buf := buf ++ bytesAt mem (CLUSTER_SIZE * current + intraOffset) chunkSize
        let offset := offset + chunkSize
        if CLUSTER_SIZE ≤ intraOffset + chunkSize then
          if current < NUM_CLUSTERS then
            if fat current = LAST then some (buf, offset) else readChunks count size fuel (fat current) 0 offset buf
          else none
        else readChunks count size fuel current (intraOffset + chunkSize) offset buf
      else none
    else some (buf, offset)

/-- The loop of `vfs_write`: the memory, the number of bytes written and the offset after it -/
def writeChunks (buf : List Byte) : ℕ → (ℕ → Byte) → ℕ → ℕ → ℕ → ℕ → Option ((ℕ → Byte) × ℕ × ℕ)
  | 0, _, _, _, _, _ => none
  | fuel + 1, mem, current, intraOffset, offset, written =>
    if written < buf.length then
      if inData current then
        let chunkSize := min (CLUSTER_SIZE - intraOffset) (buf.length - written)
        let mem := store mem (CLUSTER_SIZE * current + intraOffset) ((buf.drop written).take chunkSize)
        let written := u32 (written + chunkSize)
        let offset := u32 (offset + chunkSize)
        if CLUSTER_SIZE ≤ intraOffset + chunkSize then
          if current < NUM_CLUSTERS then
            if fat current = LAST then some (mem, written, offset)
            else writeChunks buf fuel mem (fat current) 0 offset written
          else none
        else writeChunks buf fuel mem current (intraOffset + chunkSize) offset written
      else none
    else some (mem, written, offset)

end

/-- `vfs_read`: the bytes put at `buf`, and the result -/
def vfs_read (fd : ℤ) (count : ℕ) (w : World) : Option (World × ℤ × List Byte) :=
  let w := w.lock
  if ¬ isOpen w fd 1 then some ((w.fail .ebadf).1, -1, [])
  else
    let file := w.vfs.openFiles fd.toNat
    if file.size ≤ file.offset then some (w.unlock, 0, [])
    else (skip w.vfs.fat (file.offset / CLUSTER_SIZE) file.firstCluster).bind fun current =>
      if current = LAST then some ((w.fail .eio).1, -1, [])
      else
        (readChunks w.vfs.fat w.vfs.mem count file.size (file.size + 1) current (file.offset % CLUSTER_SIZE) file.offset []).map
          fun (buf, offset) =>
            let file := { file with offset := offset }
            ({ w with vfs := { w.vfs with openFiles := Function.update w.vfs.openFiles fd.toNat file } }.unlock, buf.length, buf)

/-- `while (clustersToAdd > 0)`: a free cluster is put behind the chain of `lastCluster`. Without one the clusters that
have been added stay. -/
def extend : ℕ → (ℕ → ℕ) → ℕ → Option ((ℕ → ℕ) × Bool)
  | 0, fat, _ => some (fat, true)
  | clustersToAdd + 1, fat, lastCluster =>
    match freeCluster fat with
    | none => some (fat, false)
    | some newCluster =>
      let fat := Function.update fat newCluster LAST
      (chainEnd fat steps lastCluster).bind fun lastCluster =>
        extend clustersToAdd (Function.update fat lastCluster newCluster) newCluster

/-- The part of `vfs_write` that extends the chain of a file: the table, the first cluster, and whether there was
room. -/
def allocate (fat : ℕ → ℕ) (firstCluster clustersToAdd : ℕ) : Option ((ℕ → ℕ) × ℕ × Bool) :=
  match (if firstCluster = 0 then freeCluster fat else none) with
  | some i =>
    (extend (clustersToAdd - 1) (Function.update fat i LAST) i).map fun (fat, room) => (fat, i, room)
  | none => (extend clustersToAdd fat firstCluster).map fun (fat, room) => (fat, firstCluster, room)

/-- `vfs_write` with `count` bytes at `buf` -/
def vfs_write (fd : ℤ) (buf : List Byte) (tm : Option Tm) (stray : List Byte) (w : World) : Option (World × ℤ) :=
  let w := w.lock
  if ¬ isOpen w fd 2 then some (w.fail .ebadf)
  else
    let file := w.vfs.openFiles fd.toNat
    let newSize := u32 (file.offset + buf.length)
    let clustersNeeded := u32 (newSize + (CLUSTER_SIZE - 1)) / CLUSTER_SIZE
    let clustersCurrent := u32 (file.size + (CLUSTER_SIZE - 1)) / CLUSTER_SIZE
    (if clustersCurrent < clustersNeeded then allocate w.vfs.fat file.firstCluster (clustersNeeded - clustersCurrent)
      else some (w.vfs.fat, file.firstCluster, true)).bind fun (fat, firstCluster, room) =>
      let file := { file with firstCluster := firstCluster }
      let w := { w with vfs := { w.vfs with fat := fat, openFiles := Function.update w.vfs.openFiles fd.toNat file } }
      if ¬ room then some (w.fail .enospc)
      else (skip fat (file.offset / CLUSTER_SIZE) firstCluster).bind fun current =>
        if current = LAST then some (w.fail .eio)
        else
          (writeChunks fat buf (buf.length + 1) w.vfs.mem current (file.offset % CLUSTER_SIZE) file.offset 0).bind
            fun (mem, bytesWritten, offset) =>
              let grown := { file with offset := offset, size := max file.size offset }
              let vfs := { w.vfs with mem := mem, openFiles := Function.update w.vfs.openFiles fd.toNat grown, dirty := true }
              if file.size < offset then
                (findEntry mem (some file.path) stray false).map fun entry =>
                  let mem := match entry with
                    | none => mem
                    | some (a, _) => setStamp (setSize mem a offset) a tm
                  ({ w with vfs := { vfs with mem := mem } }.unlock, bytesWritten)
              else some ({ w with vfs := vfs }.unlock, bytesWritten)

/-! ## Paths -/

/-- The end of `vfs_unlink` and `vfs_rmdir`: the chain is freed and the entry marked. -/
def removeEntry (w : World) (a : ℕ) : Option (World × ℤ) :=
  (freeChain steps w.vfs.fat (entryFirstCluster w.vfs.mem a)).map fun fat =>
    ({ w with vfs := { w.vfs with fat := fat, mem := store w.vfs.mem a [0xE5], dirty := true } }.unlock, 0)

def vfs_unlink (path : Option Path) (stray : List Byte) (w : World) : Option (World × ℤ) :=
  let w := w.lock
  (findEntry w.vfs.mem path stray false).bind fun
    | none => some (w.fail .enoent)
    | some (a, _) => if isDir w.vfs.mem a then some (w.fail .eisdir) else removeEntry w a

def vfs_mkdir (path : Option Path) (tm : Option Tm) (w : World) : Option (World × ℤ) :=
  let w := w.lock
  (createEntry w.vfs path [] 0x10).map fun
    | .error e => w.fail e
    | .ok (vfs, made) =>
      let newDir := slot made.firstCluster 0
      let parentDir := slot made.firstCluster 1
      let mem := clear vfs.mem newDir CLUSTER_SIZE
      let mem := setFirstCluster (setAttributes (setName mem newDir (CString.lit ".          ").bytes) newDir 0x10) newDir
        made.firstCluster
      let mem := setFirstCluster (setAttributes (setName mem parentDir (CString.lit "..         ").bytes) parentDir 0x10) parentDir
        made.parentCluster
      let mem := setStamp (setStamp (setStamp mem made.entry tm) newDir tm) parentDir tm
      ({ w with vfs := { vfs with mem := mem, dirty := true } }.unlock, 0)

/-- The path is "/"; `strcmp` of NULL is undefined. -/
def isRoot (path : Option Path) : Option Bool := path.map fun path => decide (path.text = CString.lit "/")

def vfs_rmdir (path : Option Path) (stray : List Byte) (w : World) : Option (World × ℤ) :=
  let w := w.lock
  (isRoot path).bind fun root =>
    if root then some (w.fail .ebusy)
    else (findEntry w.vfs.mem path stray false).bind fun
      | none => some (w.fail .enoent)
      | some (a, cluster) =>
        if ¬ isDir w.vfs.mem a then some (w.fail .enotdir)
        -- `cluster` is the directory that holds the entry
        else if (List.range' 2 (entriesPerDir cluster - 2)).any fun i => !isFree w.vfs.mem (slot cluster i) then some (w.fail .enotempty)
        else removeEntry w a

/-! ## Directories -/

/-- `vfs_opendir`: the index of the handle, `none` for NULL -/
def vfs_opendir (path : Option Path) (stray : List Byte) (w : World) : Option (World × Option ℕ) :=
  let w := w.lock
  (findEntry w.vfs.mem path stray false).bind fun entry =>
    let found := entry.filter fun (a, _) => isDir w.vfs.mem a
    (match found with
      | some (_, cluster) => some (some cluster)
      | none => (isRoot path).map fun root : Bool => if root then some 0 else none).map fun
      | none => ((w.fail .enotdir).1, none)
      | some cluster =>
        match (List.range MAX_OPEN_FILES).find? fun i => !(w.vfs.openDirs i).used with
        | none => ((w.fail .emfile).1, none)
        | some handle =>
          -- the index skips "." and ".."
          ({ w with vfs := { w.vfs with openDirs := Function.update w.vfs.openDirs handle ⟨true, cluster, 2⟩ } }.unlock, some handle)

/-- `struct dirent`, with `d_type` as the test for a directory -/
structure Dirent where
  d_name : List Byte
  isDirectory : Bool
deriving DecidableEq

/-- `vfs_readdir`: a handle that `vfs_opendir` does not give is an access outside `openDirs`. -/
def vfs_readdir (dirp : Option ℕ) (w : World) : Option (World × Option Dirent) :=
  let w := w.lock
  match dirp with
  | none => some ((w.fail .ebadf).1, none)
  | some h =>
    if MAX_OPEN_FILES ≤ h then none
    else
      let handle := w.vfs.openDirs h
      if ¬ handle.used then some ((w.fail .ebadf).1, none)
      else if handle.cluster = 0 ∨ inData handle.cluster then
        let n := entriesPerDir handle.cluster
        match (List.range' handle.index (n - handle.index)).find? fun i => !isFree w.vfs.mem (slot handle.cluster i) with
        | some i =>
          let a := slot handle.cluster i
          let moved := { handle with index := i + 1 }
          some ({ w with vfs := { w.vfs with openDirs := Function.update w.vfs.openDirs h moved } }.unlock,
            some ⟨cut (entryName w.vfs.mem a), isDir w.vfs.mem a⟩)
        | none =>
          let moved := { handle with index := max handle.index n }
          some ({ w with vfs := { w.vfs with openDirs := Function.update w.vfs.openDirs h moved } }.unlock, none)
      else none

def vfs_closedir (dirp : Option ℕ) (w : World) : Option (World × ℤ) :=
  let w := w.lock
  match dirp with
  | none => some (w.fail .ebadf)
  | some h =>
    if MAX_OPEN_FILES ≤ h then none
    else
      let handle := w.vfs.openDirs h
      if ¬ handle.used then some (w.fail .ebadf)
      else some ({ w with vfs := { w.vfs with openDirs := Function.update w.vfs.openDirs h { handle with used := false } } }.unlock, 0)

/-! ## `vfs_stat` -/

structure Stat where
  isDirectory : Bool
  st_size : ℕ
  st_mtime : ℤ
deriving DecidableEq

/-- `fat16_to_unix_time` hands these fields to `mktime`. -/
def unpackTime (date time : ℕ) : ℤ × ℤ × ℕ × ℕ × ℕ × ℕ :=
  ((date >>> 9 % 128 : ℕ) + 1980 - 1900, (date >>> 5 % 16 : ℕ) - 1, date % 32, time >>> 11 % 32, time >>> 5 % 64, time % 32 * 2)

/-- `vfs_stat`: the result, and what is put at `statbuf` when that is not NULL -/
def vfs_stat (mktime : ℤ × ℤ × ℕ × ℕ × ℕ × ℕ → ℤ) (path : Option Path) (statbuf : Bool) (now : ℤ) (stray : List Byte) (w : World) :
    Option (World × ℤ × Option Stat) :=
  let w := w.lock
  if path = none ∨ ¬ statbuf then some ((w.fail .einval).1, -1, none)
  else (findEntry w.vfs.mem path stray false).bind fun
    | none => (isRoot path).map fun root =>
      if root then (w.unlock, 0, some ⟨true, 0, if now ≠ -1 then now else 0⟩) else ((w.fail .enoent).1, -1, none)
    | some (a, _) =>
      let time := unpackTime (load w.vfs.mem (a + 24) 2) (load w.vfs.mem (a + 22) 2)
      some (w.unlock, 0, some ⟨isDir w.vfs.mem a, entrySize w.vfs.mem a, mktime time⟩)

end ValidcTools.Fat16
