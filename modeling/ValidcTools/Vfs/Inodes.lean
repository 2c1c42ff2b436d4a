import ValidcTools.CString
import ValidcTools.Vfs.Protocol
import ValidcTools.Lib.KeyedList

/-! The inode table of the VFS, and the calls that create, remove and rename entries in it. -/
namespace ValidcTools.Vfs

def VFS_TYPE_FILE : ℕ := 1
def VFS_TYPE_DIR : ℕ := 2
def VFS_BLOCK_SIZE : ℕ := 4096
def VFS_TOTAL_BLOCKS : ℕ := 256

/-! ## The tables -/

/-- `vfs_inode`; a name of `VFS_MAX_NAME` bytes fills the array and has no terminator in it. -/
structure Inode where
  inode : ℕ
  name : List Byte
  type : ℕ
  mode : ℕ
  uid : ℕ
  gid : ℕ
  atime : ℕ
  mtime : ℕ
  ctime : ℕ
  size : ℕ
  block_index : ℕ
  parent_inode : ℕ
  child_count : ℕ
deriving DecidableEq

/-- A mounted file system. `sb.inode_count` is the length of the table, and the fields of the superblock that do
not change are left out. -/
structure FileSystem where
  inodes : List Inode
  free_blocks : ℕ
  block_map : List ℕ
deriving DecidableEq

namespace FileSystem

def inode_count (fs : FileSystem) : ℕ := fs.inodes.length

/-- `fs->inodes[0]` after a mount of a new file: the directory "/" -/
def rootInode (now : ℕ) : Inode where
  inode := 1
  name := [(('/' : Char) : Byte)]
  type := VFS_TYPE_DIR
  mode := 0o755
  uid := 0
  gid := 0
  atime := now
  mtime := now
  ctime := now
  size := 0
  block_index := 0
  parent_inode := 0
  child_count := 0

/-- What `vfs_mount` makes of a new file -/
def fresh (now : ℕ) : FileSystem where
  inodes := [rootInode now]
  free_blocks := VFS_TOTAL_BLOCKS
  block_map := List.replicate VFS_TOTAL_BLOCKS 0

end FileSystem

/-! ## Paths -/

/-- `strtok(.., "/")` until it returns NULL, with the token read so far -/
def tokensFrom (token : List Byte) : List Byte → List (List Byte)
  | [] => if token = [] then [] else [token]
  | b :: path =>
    if b = ('/' : Char) then (if token = [] then tokensFrom [] path else token :: tokensFrom [] path)
    else tokensFrom (token ++ [b]) path

def tokens (path : List Byte) : List (List Byte) := tokensFrom [] path

/-- `strrchr(path, '/')` splits the path into what is before and what is behind the last slash. -/
def strrchr : List Byte → Option (List Byte × List Byte)
  | [] => none
  | b :: path =>
    match strrchr path with
    | some (parent_path, filename) => some (b :: parent_path, filename)
    | none => if b = ('/' : Char) then some ([], path) else none

section
variable (behind : Inode → List Byte) (fs : FileSystem)

/-- The string that `strcmp` finds in the name of an inode: one without a terminator goes on with what lies
behind the array. -/
def nameOf (n : Inode) : List Byte :=
  if n.name.length < VFS_MAX_NAME then n.name else (CString.ofBytes (n.name ++ behind n)).bytes

/-- The first inode with this parent and name -/
def findChild (parent_inode : ℕ) (name : List Byte) : Option ℕ :=
  fs.inodes.findIdx? fun n => decide (n.parent_inode = parent_inode ∧ nameOf behind n = name)

/-- The number of the inode at a place of the table -/
def numberAt (i : ℕ) : ℕ := (fs.inodes[i]?.map (·.inode)).getD 0

/-- The place of the inode of a path in the table; "/" has no tokens. -/
def find_inode_by_path (path : List Byte) : Option ℕ :=
  (tokens path).foldlM (fun current token => findChild behind fs (numberAt fs current) token) 0

/-- The directory with this path -/
def findDirectory (path : List Byte) : Option ℕ :=
  (find_inode_by_path behind fs path).filter fun i => (fs.inodes[i]?.map (·.type)) = some VFS_TYPE_DIR

end

/-! ## Blocks -/

def allocate_block (fs : FileSystem) : Option ℕ := fs.block_map.findIdx? (· = 0)

def free_block (fs : FileSystem) (block_index : ℕ) : FileSystem :=
  if block_index < VFS_TOTAL_BLOCKS ∧ fs.block_map.getD block_index 0 ≠ 0 then
    { fs with block_map := fs.block_map.set block_index 0, free_blocks := word (fs.free_blocks + 1) }
  else fs

/-! ## Calls -/

/-- What becomes of the inode table when `realloc` is to make it larger -/
inductive Realloc
  | failed
  | inPlace
  | moved
deriving DecidableEq

/-- `VFS_FILE`, with the place of its inode in the table -/
structure File where
  inode : ℕ
  offset : ℕ
  mode : List Byte
deriving DecidableEq

/-- The calls that change the inode table, with the outcome of `realloc` and the time where they ask for them -/
inductive Operation
  | fopen (path mode : CString) (memory : Realloc) (now : ℕ)
  | mkdir (path : CString) (mode : ℕ) (memory : Realloc) (now : ℕ)
  | remove (path : CString)
  | rename (old_path new_path : CString) (now : ℕ)

/-- `vfs_fopen` creates a missing file in these modes. -/
def creates (mode : CString) : Bool := decide (mode.get 0 = ('w' : Char) ∨ mode.get 0 = ('a' : Char))

/-- `--` on a `uint32_t` -/
def pred (n : ℕ) : ℕ := word (n + (2 ^ 32 - 1))

/-- The table with one more child of the inode at `parent`, and the child -/
def addChild (inodes : List Inode) (parent : ℕ) (child : Inode) : List Inode :=
  (inodes ++ [child]).modify parent fun n => { n with child_count := word (n.child_count + 1) }

/-- The new inode at the end of the table -/
def newInode (fs : FileSystem) (filename : List Byte) (type mode now block_index parent : ℕ) : Inode where
  inode := fs.inode_count + 1
  name := filename.take VFS_MAX_NAME
  type := type
  mode := mode
  uid := 0
  gid := 0
  atime := now
  mtime := now
  ctime := now
  size := 0
  block_index := block_index
  parent_inode := numberAt fs parent
  child_count := 0

section
variable (behind : Inode → List Byte)

/-- The part of `vfs_fopen` that creates a file: `none` is undefined behaviour (`free` of a string literal for a
path without a slash, a write through `parent` into the table that `realloc` gave back). The place of the new inode
is `none` when the call fails. -/
def createFile (fs : FileSystem) (path : List Byte) (memory : Realloc) (now : ℕ) : Option (FileSystem × Option ℕ) :=
  (strrchr path).bind fun (parent_path, filename) =>
    match findDirectory behind fs parent_path with
    | none => some (fs, none)
    | some parent =>
      match allocate_block fs with
      | none => some (fs, none)
      | some block_index =>
        -- `allocate_block` has counted the block as taken
        let free_blocks := pred fs.free_blocks
        match memory with
        | .failed => some ({ fs with free_blocks := free_blocks }, none)
        | .moved => none
        | .inPlace =>
          if fs.inode_count + 1 < 2 ^ 32 then
            let child := newInode fs filename VFS_TYPE_FILE 0o666 now block_index parent
            some ({ inodes := addChild fs.inodes parent child, free_blocks := free_blocks,
                    block_map := fs.block_map.set block_index child.inode }, some fs.inode_count)
          else none

/-- The `VFS_FILE` on an inode -/
def openInode (fs : FileSystem) (i : ℕ) (mode : CString) (now : ℕ) : FileSystem × File :=
  ({ fs with inodes := fs.inodes.modify i fun n => { n with atime := now } },
    ⟨i, if mode.get 0 = ('a' : Char) then (fs.inodes[i]?.map Inode.size).getD 0 else 0, mode.bytes.take 3⟩)

def vfs_fopen (fs : FileSystem) (path mode : CString) (memory : Realloc) (now : ℕ) : Option (FileSystem × Option File) :=
  match find_inode_by_path behind fs path.bytes with
  | some i => some ((openInode fs i mode now).map id some)
  | none =>
    if creates mode then
      (createFile behind fs path.bytes memory now).map fun
        | (fs, none) => (fs, none)
        | (fs, some i) => (openInode fs i mode now).map id some
    else some (fs, none)

def vfs_mkdir (fs : FileSystem) (path : CString) (mode : ℕ) (memory : Realloc) (now : ℕ) : Option (FileSystem × ℤ) :=
  (strrchr path.bytes).bind fun (parent_path, dirname) =>
    match findDirectory behind fs parent_path with
    | none => some (fs, -1)
    | some parent =>
      if (findChild behind fs (numberAt fs parent) dirname).isSome then some (fs, -1)
      else match memory with
        | .failed => some (fs, -1)
        | .moved => none
        | .inPlace =>
          if fs.inode_count + 1 < 2 ^ 32 then
            some ({ fs with inodes := addChild fs.inodes parent (newInode fs dirname VFS_TYPE_DIR mode now 0 parent) }, 0)
          else none

/-- `none` is an access outside the table. -/
def vfs_remove (fs : FileSystem) (path : CString) : Option (FileSystem × ℤ) :=
  match (find_inode_by_path behind fs path.bytes).bind fun i => fs.inodes[i]? with
  | none => some (fs, -1)
  | some n =>
    if 0 < n.child_count then some (fs, -1)
    else if pred n.parent_inode < fs.inode_count then
      let fs := { fs with inodes := fs.inodes.modify (pred n.parent_inode) fun p => { p with child_count := pred p.child_count } }
      let fs := if n.type = VFS_TYPE_FILE then free_block fs n.block_index else fs
      some ({ fs with inodes := fs.inodes.eraseIdx (fs.inodes.findIdx fun m => decide (m.inode = n.inode)) }, 0)
    else none

def vfs_rename (fs : FileSystem) (old_path new_path : CString) (now : ℕ) : Option (FileSystem × ℤ) :=
  match find_inode_by_path behind fs old_path.bytes with
  | none => some (fs, -1)
  | some i =>
    (strrchr new_path.bytes).bind fun (new_parent_path, new_name) =>
      match findDirectory behind fs new_parent_path with
      | none => some (fs, -1)
      | some new_parent =>
        fs.inodes[i]?.bind fun n =>
          if pred n.parent_inode < fs.inode_count then
            let inodes := fs.inodes.modify (pred n.parent_inode) fun p => { p with child_count := pred p.child_count }
            let inodes := inodes.modify new_parent fun p => { p with child_count := word (p.child_count + 1) }
            let inodes := inodes.modify i fun n =>
              { n with name := new_name.take VFS_MAX_NAME, parent_inode := numberAt fs new_parent, mtime := now }
            some ({ fs with inodes := inodes }, 0)
          else none

/-- One call -/
def Operation.run (fs : FileSystem) : Operation → Option FileSystem
  | .fopen path mode memory now => (vfs_fopen behind fs path mode memory now).map (·.1)
  | .mkdir path mode memory now => (vfs_mkdir behind fs path mode memory now).map (·.1)
  | .remove path => (vfs_remove behind fs path).map (·.1)
  | .rename old_path new_path now => (vfs_rename behind fs old_path new_path now).map (·.1)

end

end ValidcTools.Vfs
