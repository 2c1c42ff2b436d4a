import ValidcTools.Fat16.Volume

/-! The two images of the FAT16 file system on flash. -/
namespace ValidcTools.Fat16

open Bytes Memory

def SECTOR_SIZE : ℕ := 512
def HEADER_SIZE : ℕ := 512
def FLASH_SIZE : ℕ := 524288
def FAT_SIZE : ℕ := 2 * NUM_CLUSTERS

/-- `root` and `data` -/
def MEM_SIZE : ℕ := 32 * ROOT_ENTRIES + NUM_CLUSTERS * CLUSTER_SIZE

/-- `FlashHeader.magic` -/
def MAGIC : ℕ := 0xF416

/-! ## The check sum -/

def crcStep (c : UInt32) : UInt32 := if c &&& 1 ≠ 0 then (0xEDB88320 : UInt32) ^^^ (c >>> 1) else c >>> 1

/-- `table[i]` -/
def crcTable (i : UInt32) : UInt32 := crcStep (crcStep (crcStep (crcStep (crcStep (crcStep (crcStep (crcStep i)))))))

def crc32 (data : List Byte) : UInt32 :=
  data.foldl (fun (crc : UInt32) b => crcTable ((crc ^^^ b.toUInt32) &&& 0xFF) ^^^ (crc >>> 8)) 0xFFFFFFFF ^^^ 0xFFFFFFFF

/-- The check sum of an image of the flash, which leaves out the header -/
def imageCrc (image : ℕ → Byte) : ℕ := (crc32 (bytesAt image HEADER_SIZE (FLASH_SIZE - HEADER_SIZE))).toNat

/-! ## Images -/

/-- The image with this number -/
def imageAt (flash : ℕ → Byte) (i : ℕ) : ℕ → Byte := fun k => flash (i * FLASH_SIZE + k)

def headerMagic (image : ℕ → Byte) : ℕ := load image 0 4

def headerCrc (image : ℕ → Byte) : ℕ := load image 4 4

def headerSequence (image : ℕ → Byte) : ℕ := load image 8 8

/-- A byte of `fat` -/
def fatByte (fat : ℕ → ℕ) (k : ℕ) : Byte := UInt8.ofNat (fat (k / 2) / 256 ^ (k % 2))

/-- The bytes from `&vfs.boot` on: `boot`, `fat`, two bytes of padding and `root` -/
def bootSector (vfs : FAT16VFS) (unused : ℕ → Byte) (k : ℕ) : Byte :=
  if k < 16 then vfs.boot k
  else if k < 16 + FAT_SIZE then fatByte vfs.fat (k - 16)
  else if k < 18 + FAT_SIZE then unused k
  else vfs.mem (k - (18 + FAT_SIZE))

/-- `buffer` in `vfs_flush`; `unused` is what else is on the stack. -/
def payload (vfs : FAT16VFS) (unused : ℕ → Byte) (k : ℕ) : Byte :=
  if k < HEADER_SIZE + SECTOR_SIZE then bootSector vfs unused (k - HEADER_SIZE)
  else if k < HEADER_SIZE + SECTOR_SIZE + FAT_SIZE then fatByte vfs.fat (k - (HEADER_SIZE + SECTOR_SIZE))
  else if k < HEADER_SIZE + 2 * SECTOR_SIZE then unused k
  else if k < HEADER_SIZE + 2 * SECTOR_SIZE + MEM_SIZE then vfs.mem (k - (HEADER_SIZE + 2 * SECTOR_SIZE))
  else unused k

/-- The header of an image and its payload -/
def withHeader (crc sequence : ℕ) (buffer : ℕ → Byte) : ℕ → Byte :=
  store (clear buffer 0 HEADER_SIZE) 0 (ofNat 4 MAGIC ++ ofNat 4 crc ++ ofNat 8 sequence ++ [1])

/-- The image that `vfs_flush` writes in this state -/
def newImage (vfs : FAT16VFS) (unused : ℕ → Byte) : ℕ → Byte :=
  withHeader (imageCrc (payload vfs unused)) ((vfs.sequence + 1) % 2 ^ 64) (payload vfs unused)

/-- The first `n` bytes of an image are written. -/
def writeImage (flash : ℕ → Byte) (i : ℕ) (image : ℕ → Byte) (n : ℕ) : ℕ → Byte := fun k =>
  if i * FLASH_SIZE ≤ k ∧ k < i * FLASH_SIZE + n then image (k - i * FLASH_SIZE) else flash k

/-! ## Calls -/

/-- The fields of `boot`; the bytes between them stay. -/
def initBoot (boot : ℕ → Byte) : ℕ → Byte :=
  store (store (store (store (store (store boot 0 (ofNat 2 SECTOR_SIZE)) 2 (ofNat 1 (CLUSTER_SIZE / SECTOR_SIZE))) 4 (ofNat 2 1))
    6 (ofNat 1 1)) 8 (ofNat 2 ROOT_ENTRIES)) 12 (ofNat 4 (FLASH_SIZE / SECTOR_SIZE))

/-- All zero bytes, as `memset` leaves them -/
def noFile : FileDesc := ⟨false, ⟨.lit "", []⟩, 0, 0, 0, 0⟩

def noDir : DirHandle := ⟨false, 0, 0⟩

/-- What `vfs_init` makes of `vfs` -/
def initial (vfs : FAT16VFS) : FAT16VFS where
  boot := initBoot vfs.boot
  fat := fun _ => 0
  mem := fun _ => 0
  dirty := false
  activeBuffer := 0
  sequence := 0
  openFiles := fun _ => noFile
  openDirs := fun _ => noDir
  flash := false

/-- The program's variables at its start -/
def World.start (flash : ℕ → Byte) : World where
  vfs := { initial ⟨fun _ => 0, fun _ => 0, fun _ => 0, false, 0, 0, fun _ => noFile, fun _ => noDir, false⟩ with
    boot := fun _ => 0 }
  errno := none
  mutex := []
  flash := flash

def vfs_init (w : World) : World × ℤ :=
  let w := w.lock
  ({ w with vfs := initial w.vfs }.unlock, 0)

/-- The image that `vfs_mount` looks at first -/
def preferred (flash : ℕ → Byte) : Option ℕ :=
  if headerMagic (imageAt flash 0) = MAGIC ∧ headerMagic (imageAt flash 1) = MAGIC then
    some (if headerSequence (imageAt flash 1) < headerSequence (imageAt flash 0) then 0 else 1)
  else if headerMagic (imageAt flash 0) = MAGIC then some 0
  else if headerMagic (imageAt flash 1) = MAGIC then some 1
  else none

/-- The check sum of an image is the one in its header. -/
def intact (flash : ℕ → Byte) (i : ℕ) : Bool := decide (imageCrc (imageAt flash i) = headerCrc (imageAt flash i))

/-- The image besides this one -/
def other (i : ℕ) : ℕ := if i ≠ 0 then 0 else 1

/-- The image that `vfs_mount` loads -/
def selected (flash : ℕ → Byte) : Option ℕ :=
  (preferred flash).bind fun i =>
    if intact flash i then some i
    else if intact flash (other i) then some (other i)
    else none

/-- What is in an image: `boot`, `fat`, and `root` with `data` -/
def loadImage (vfs : FAT16VFS) (image : ℕ → Byte) : FAT16VFS :=
  { vfs with
    boot := fun k => image (HEADER_SIZE + k)
    fat := fun c => load image (HEADER_SIZE + SECTOR_SIZE + 2 * c) 2
    mem := fun k => image (HEADER_SIZE + 2 * SECTOR_SIZE + k) }

def vfs_mount (w : World) : World × ℤ :=
  let w := w.lock
  let w := { w with vfs := { w.vfs with flash := true } }
  match selected w.flash with
  | none => ((vfs_init w).1.unlock, 0)
  | some i =>
    let image := imageAt w.flash i
    ({ w with vfs := { loadImage w.vfs image with activeBuffer := i, sequence := headerSequence image, dirty := false } }.unlock, 0)

/-- `vfs_flush`, of which `written` bytes reach the flash -/
def vfs_flush (unused : ℕ → Byte) (written : ℕ) (w : World) : World × ℤ :=
  let w := w.lock
  if ¬ w.vfs.dirty ∨ ¬ w.vfs.flash then (w.unlock, 0)
  else
    let inactiveBuffer := other w.vfs.activeBuffer
    let image := newImage w.vfs unused
    let vfs := { w.vfs with sequence := (w.vfs.sequence + 1) % 2 ^ 64 }
    let w := { w with vfs := vfs, flash := writeImage w.flash inactiveBuffer image (min written FLASH_SIZE) }
    if written < FLASH_SIZE then w.fail .eio
    else if imageCrc (imageAt w.flash inactiveBuffer) ≠ imageCrc image then w.fail .eio
    else ({ w with vfs := { vfs with activeBuffer := inactiveBuffer, dirty := false } }.unlock, 0)

end ValidcTools.Fat16
