import ValidcTools.CString
import ValidcTools.Lib.Memory

/-! The FAT16 file system in memory: its tables, its directories, and what a path leads to. -/
namespace ValidcTools.Fat16

open Bytes Memory

def CLUSTER_SIZE : ℕ := 4096
def NUM_CLUSTERS : ℕ := 125
def ROOT_ENTRIES : ℕ := 256
def DIR_ENTRIES : ℕ := 128
def MAX_DEPTH : ℕ := 4
def MAX_OPEN_FILES : ℕ := 16
def MAX_PATH : ℕ := 256

/-- The last cluster of a chain -/
def LAST : ℕ := 0xFFFF

inductive Errno
  | ebadf | ebusy | eexist | einval | eio | eisdir | emfile | enametoolong | enoent | enospc | enotdir | enotempty
deriving DecidableEq

/-- A path argument: the string, and the memory behind its terminator -/
structure Path where
  text : CString
  after : List Byte
deriving DecidableEq

structure FileDesc where
  used : Bool
  path : Path
  firstCluster : ℕ
  size : ℕ
  offset : ℕ
  mode : ℕ
deriving DecidableEq

structure DirHandle where
  used : Bool
  cluster : ℕ
  index : ℕ
deriving DecidableEq

/-- `struct FAT16VFS`. `mem` is `root`, at 0, and behind it `data`, where cluster `c` is at `4096 * c`; `flash` says
that the pointer is not NULL. -/
structure FAT16VFS where
  boot : ℕ → Byte
  fat : ℕ → ℕ
  mem : ℕ → Byte
  dirty : Bool
  activeBuffer : ℕ
  sequence : ℕ
  openFiles : ℕ → FileDesc
  openDirs : ℕ → DirHandle
  flash : Bool

/-- `pthread_mutex_lock` and `pthread_mutex_unlock` on `vfs_mutex` -/
inductive MutexEvent
  | lock
  | unlock
deriving DecidableEq

/-- The program's variables, what has been done to the mutex, and the flash file -/
structure World where
  vfs : FAT16VFS
  errno : Option Errno
  mutex : List MutexEvent
  flash : ℕ → Byte

def World.lock (w : World) : World := { w with mutex := w.mutex ++ [.lock] }

@[simp] theorem World.lock_vfs (w : World) : w.lock.vfs = w.vfs := rfl

def World.unlock (w : World) : World := { w with mutex := w.mutex ++ [.unlock] }

/-- `errno = e`, the unlocking and `return -1` -/
def World.fail (w : World) (e : Errno) : World × ℤ := ({ w with errno := some e }.unlock, -1)

/-! ## Directory entries -/

/-- A `char` as a number: `char` is signed. -/
def charInt (b : Byte) : ℤ := b.toInt8.toInt

/-- Where slot `i` of the directory in cluster `c` is; the root is cluster 0. -/
def slot (c i : ℕ) : ℕ := CLUSTER_SIZE * c + 32 * i

def entriesPerDir (c : ℕ) : ℕ := if c = 0 then ROOT_ENTRIES else DIR_ENTRIES

section
variable (mem : ℕ → Byte) (a : ℕ)

/-- The field `name` of the entry at `a` -/
def entryName : List Byte := bytesAt mem a 11

def entryAttributes : ℕ := load mem (a + 11) 1

def entryFirstCluster : ℕ := load mem (a + 26) 2

def entrySize : ℕ := load mem (a + 28) 4

/-- The test for an entry that is not used, `name[0] == 0 || name[0] == 0xE5` -/
def isFree : Bool := decide (charInt (mem a) = 0 ∨ charInt (mem a) = 0xE5)

def isDir : Bool := decide (entryAttributes mem a / 0x10 % 2 = 1)

/-- What `strncmp(s, t, 11)` compares of a string -/
def cut (s : List Byte) : List Byte := (s.take 11).takeWhile (· ≠ 0)

/-- `strncmp(name, s, 11) == 0` -/
def nameIs (s : List Byte) : Bool := decide (cut (entryName mem a) = cut s)

/-- `strncpy(name, s, 11)` -/
def setName (s : List Byte) : ℕ → Byte := store mem a ((cut s ++ List.replicate 11 0).take 11)

def setAttributes (attributes : ℕ) : ℕ → Byte := store mem (a + 11) (ofNat 1 attributes)

def setTime (time : ℕ) : ℕ → Byte := store mem (a + 22) (ofNat 2 time)

def setDate (date : ℕ) : ℕ → Byte := store mem (a + 24) (ofNat 2 date)

def setFirstCluster (c : ℕ) : ℕ → Byte := store mem (a + 26) (ofNat 2 c)

def setSize (size : ℕ) : ℕ → Byte := store mem (a + 28) (ofNat 4 size)

end

/-! ## Paths -/

/-- The components that `findEntry` finds in the memory from `p` on, at most `n` of them: `none` is one of more than 11
bytes. The byte behind the terminator of the path is looked at, too. -/
def componentsFrom : ℕ → List Byte → Option (List (List Byte))
  | 0, _ => some []
  | n + 1, p =>
    if p.headD 0 = 0 then some []
    else
      let component := p.takeWhile fun b : Byte => b ≠ ('/' : Char) ∧ b ≠ 0
      if 11 < component.length then none
      else (componentsFrom n (p.drop (component.length + 1))).map (component :: ·)

/-- The components of a path; `none` when it does not begin with a slash -/
def components (path : Path) : Option (List (List Byte)) :=
  if path.text.get 0 = ('/' : Char) then componentsFrom MAX_DEPTH (path.text.bytes.drop 1 ++ 0 :: path.after) else none

/-- The cluster lies in `data`. -/
def inData (c : ℕ) : Prop := 2 ≤ c ∧ c < NUM_CLUSTERS + 2

instance (c : ℕ) : Decidable (inData c) := inferInstanceAs (Decidable (_ ∧ _))

section
variable (mem : ℕ → Byte)

/-- The first directory with this name in the directory in cluster `c` -/
def findDir (c : ℕ) (component : List Byte) : Option ℕ :=
  (List.range (entriesPerDir c)).find? fun j =>
    !isFree mem (slot c j) && (nameIs mem (slot c j) component && isDir mem (slot c j))

/-- The first entry with this name in the directory in cluster `c` -/
def findName (c : ℕ) (component : List Byte) : Option ℕ :=
  (List.range (entriesPerDir c)).find? fun j => !isFree mem (slot c j) && nameIs mem (slot c j) component

/-- From directory to directory: the outer `none` is an access outside `data`, the inner one a missing directory. -/
def walk : ℕ → List (List Byte) → Option (Option ℕ)
  | c, [] => some (some c)
  | c, component :: rest =>
    match findDir mem c component with
    | none => some none
    | some j =>
      let currentCluster := entryFirstCluster mem (slot c j)
      if inData currentCluster then walk currentCluster rest else none

/-- `findEntry(path, clusterOut, parent)`: where the entry, or with `parent` the directory, is, and its cluster.
`stray` is what the memory in front of `components` holds. -/
def findEntry (path : Option Path) (stray : List Byte) (parent : Bool) : Option (Option (ℕ × ℕ)) :=
  match path.bind components with
  | none => some none
  | some cs =>
    (walk mem 0 (if parent then cs.dropLast else cs)).map fun found =>
      found.bind fun currentCluster =>
        if parent then some (slot currentCluster 0, currentCluster)
        else (findName mem currentCluster (cs.getLastD stray)).map fun j => (slot currentCluster j, currentCluster)

variable {mem} {path : Option Path} {stray : List Byte} {cs : List (List Byte)}

/-- What `findEntry` finds: an entry in the directory to which all components lead -/
theorem findEntry_entry (h : path.bind components = some cs) : findEntry mem path stray false =
    (walk mem 0 cs).map fun found => found.bind fun c =>
      (findName mem c (cs.getLastD stray)).map fun j => (slot c j, c) := by
  rw [findEntry, h]
  rfl

/-- The directory to which all components but the last lead -/
theorem findEntry_parent (h : path.bind components = some cs) : findEntry mem path stray true =
    (walk mem 0 cs.dropLast).map fun found => found.map fun c => (slot c 0, c) := by
  rw [findEntry, h]
  dsimp only
  rw [if_pos rfl]
  refine congrArg (Option.map · _) (funext fun found => ?_)
  cases found <;> rfl

theorem findEntry_of_none (h : path.bind components = none) (parent : Bool) : findEntry mem path stray parent = some none := by
  rw [findEntry, h]

end

/-! ## Clusters -/

section
variable (fat : ℕ → ℕ)

/-- The first cluster that is free -/
def freeCluster : Option ℕ := (List.range' 2 (NUM_CLUSTERS - 2)).find? fun i => fat i = 0

/-- `while (fat[c] != 0xFFFF) c = fat[c]`: `none` is an access outside the table, or a loop without an end. -/
def chainEnd : ℕ → ℕ → Option ℕ
  | 0, _ => none
  | fuel + 1, c => if c < NUM_CLUSTERS then (if fat c = LAST then some c else chainEnd fuel (fat c)) else none

/-- `n` steps along a chain, or up to its end -/
def skip : ℕ → ℕ → Option ℕ
  | 0, c => some c
  | n + 1, c => if c = LAST then some c else if c < NUM_CLUSTERS then skip n (fat c) else none

end

/-- The clusters from `c` on are freed: `none` is an access outside the table, or a loop without an end. -/
def freeChain : ℕ → (ℕ → ℕ) → ℕ → Option (ℕ → ℕ)
  | 0, _, _ => none
  | fuel + 1, fat, c =>
    if c = LAST then some fat
    else if c < NUM_CLUSTERS then freeChain fuel (Function.update fat c 0) (fat c)
    else none

/-- More steps than this come back to a cluster. -/
def steps : ℕ := NUM_CLUSTERS + 1

end ValidcTools.Fat16
