import ValidcTools.Smoltar.Header

/-! Creating an archive and extracting it. An archive is read as the bytes it had when it was opened. -/
namespace ValidcTools.Smoltar

/-- The files by their names, and which of them can be created. No file is named by the empty
string. -/
structure FileSystem where
  files : CString → Option (List Byte)
  creatable : CString → Bool
  files_empty : ∀ name : CString, name.bytes = [] → files name = none
  creatable_empty : ∀ name : CString, name.bytes = [] → creatable name = false

namespace FileSystem

/-- A file opened with `"wb"`, when it is closed. -/
def write? (fs : FileSystem) (name : CString) (content : List Byte) : Option FileSystem :=
  if h : fs.creatable name = true then
    some {
      files := Function.update fs.files name (some content)
      creatable := fs.creatable
      files_empty := fun other hother => by
        have hne : other ≠ name := by
          rintro rfl
          exact Bool.false_ne_true ((fs.creatable_empty other hother).symm.trans h)
        rw [Function.update_of_ne hne]
        exact fs.files_empty other hother
      creatable_empty := fs.creatable_empty }
  else none

variable {fs fs' : FileSystem} {name : CString} {content : List Byte}

theorem write?_eq_some (h : fs.write? name content = some fs') :
    fs.creatable name = true ∧ fs'.files = Function.update fs.files name (some content) ∧
      fs'.creatable = fs.creatable := by
  unfold write? at h
  split_ifs at h with hname
  rw [← Option.some.inj h]
  exact ⟨hname, rfl, rfl⟩

theorem write?_of_creatable (h : fs.creatable name = true) (content : List Byte) :
    ∃ fs', fs.write? name content = some fs' :=
  ⟨_, dif_pos h⟩

theorem name_ne_nil (h : fs.files name = some content) : name.bytes ≠ [] := by
  intro hname
  rw [fs.files_empty name hname] at h
  cases h

end FileSystem

/-! ## Creation -/

/-- The zeros that align `n` bytes to a block. -/
def paddingOf (n : ℕ) : ℕ := if 512 - n % 512 ≠ 512 then 512 - n % 512 else 0

/-- `add_file_to_archive`: whether it returns true, and what it writes. The `exit` of `init_header`
is a failure. -/
def addFileToArchive (fs : FileSystem) (filename : CString) (now : ℕ) : Bool × List Byte :=
  match fs.files filename with
  | none => (false, [])
  | some content =>
    match initHeader filename content.length (sha256ToHex (sha256 content)) now with
    | none => (false, [])
    | some header => (true, header.bytes ++ content ++ List.replicate (paddingOf content.length) 0)

/-- The loop of `create_archive`; `clock` gives the time of each call of `time`. -/
def addFiles (fs : FileSystem) (clock : ℕ → ℕ) : List CString → Bool × List Byte
  | [] => (true, [])
  | filename :: filenames =>
    let added := addFileToArchive fs filename (clock 0)
    if added.1 = false then (false, added.2)
    else
      let rest := addFiles fs (fun i => clock (i + 1)) filenames
      (rest.1, added.2 ++ rest.2)

/-- `create_archive`: whether it returns true, and what it has written to the archive. The archive
is emptied before the files are read. -/
def createArchive (fs : FileSystem) (archiveName : CString) (filenames : List CString) (clock : ℕ → ℕ) :
    Bool × List Byte :=
  match fs.write? archiveName [] with
  | none => (false, [])
  | some fs =>
    let added := addFiles fs clock filenames
    if added.1 = false then (false, added.2) else (true, added.2 ++ List.replicate 1024 0)

/-! ## Extraction -/

inductive ExtractMode
  | force | normal | safe
deriving DecidableEq

/-- A file that has been opened for writing: the header it is from, its name, and what was written. -/
structure Opened where
  header : TarHeader
  name : CString
  content : List Byte

/-- A prefix that is not `NULL` and not empty. -/
def prefixBytes : Option CString → List Byte
  | some p => p.bytes
  | none => []

/-- `output_filename`, of 255 bytes -/
def outputFilename (pre : Option CString) (header : TarHeader) : CString :=
  if prefixBytes pre ≠ [] then .ofBytes ((prefixBytes pre ++ header.string.bytes).take 254)
  else .ofBytes (header.bytes.take 254)

/-- Whether the data of an entry is skipped. -/
def skips (mode : ExtractMode) (fs : FileSystem) (outputFilename archiveSha256 : CString) : Bool :=
  match mode with
  | .force => false
  | .safe => (fs.files outputFilename).isSome
  | .normal =>
    if archiveSha256.bytes = [] then false
    else
      match fs.files outputFilename with
      | none => false
      | some existing => sha256ToHex (sha256 existing) = archiveSha256.bytes

/-- `((filesize + BLOCK_SIZE - 1) / BLOCK_SIZE) * BLOCK_SIZE` -/
def blocksOf (filesize : ℕ) : ℕ := (filesize + 511) / 512 * 512

/-- The loop that copies the data: whether all of it was there, what was written, and the rest of the
archive. -/
def copyData (archive : List Byte) (remaining : ℕ) : Bool × List Byte × List Byte :=
  if remaining = 0 then (true, [], archive)
  else
    let toRead := min remaining 512
    if archive.length < toRead then (false, [], [])
    else
      let rest := copyData (archive.drop toRead) (remaining - toRead)
      (rest.1, archive.take toRead ++ rest.2.1, rest.2.2)
termination_by remaining

/-- What `extract_file` returns, the rest of the archive, the files, and what was opened for writing. -/
structure Extracted where
  ok : Bool
  archive : List Byte
  fs : FileSystem
  opened : List Opened

/-- `extract_file` -/
def extractFile (mode : ExtractMode) (pre : Option CString) (header : TarHeader) (archive : List Byte)
    (fs : FileSystem) : Extracted :=
  let filesize := parseOctal header.size 12
  let name := outputFilename pre header
  if skips mode fs name (.ofBytes (header.linkname.take 64)) then ⟨true, archive.drop (blocksOf filesize), fs, []⟩
  else
    let copied := copyData archive filesize
    match fs.write? name copied.2.1 with
    | none => ⟨false, archive.drop (blocksOf filesize), fs, []⟩
    | some fs =>
      let padding := paddingOf filesize
      if copied.1 = false ∨ copied.2.2.length < padding then ⟨false, [], fs, [⟨header, name, copied.2.1⟩]⟩
      else ⟨true, copied.2.2.drop padding, fs, [⟨header, name, copied.2.1⟩]⟩

/-- What a run of `extract_archive` comes to; `undefined` is a name that is read past the header. -/
inductive Verdict
  | success | failure | undefined
deriving DecidableEq

structure Extraction where
  verdict : Verdict
  fs : FileSystem
  opened : List Opened

theorem length_drop_le (n : ℕ) (l : List Byte) : (l.drop n).length ≤ l.length := by
  rw [List.length_drop]
  exact Nat.sub_le _ _

theorem length_copyData_le (archive : List Byte) (remaining : ℕ) :
    (copyData archive remaining).2.2.length ≤ archive.length := by
  fun_induction copyData archive remaining with
  | case1 => exact le_rfl
  | case2 => exact Nat.zero_le _
  | case3 archive remaining hne toRead hlen rest ih => exact ih.trans (length_drop_le _ _)

theorem length_extractFile_le (mode : ExtractMode) (pre : Option CString) (header : TarHeader)
    (archive : List Byte) (fs : FileSystem) : (extractFile mode pre header archive fs).archive.length ≤ archive.length := by
  unfold extractFile
  dsimp only
  cases fs.write? (outputFilename pre header) (copyData archive (parseOctal header.size 12)).2.1 with
  | none =>
    dsimp only
    split_ifs
    · exact length_drop_le _ _
    · exact length_drop_le _ _
  | some written =>
    dsimp only
    split_ifs
    · exact length_drop_le _ _
    · exact Nat.zero_le _
    · exact (length_drop_le _ _).trans (length_copyData_le _ _)

/-- The loop of `extract_archive`. -/
def extractLoop (mode : ExtractMode) (pre : Option CString) (archive : List Byte) (fs : FileSystem)
    (opened : List Opened) : Extraction :=
  if h : archive.length < 512 then ⟨.success, fs, opened⟩
  else
    let header : TarHeader := ⟨archive.take 512, List.length_take_of_le (Nat.not_lt.mp h)⟩
    if header.name.head? = some 0 then ⟨.success, fs, opened⟩
    else if header.magic.take 5 ≠ "ustar".toList.map Char.toUInt8 then ⟨.failure, fs, opened⟩
    -- both ways on, the name is printed as a string
    else if (0 : Byte) ∉ header.bytes then ⟨.undefined, fs, opened⟩
    else if calculateChecksum header.bytes ≠ parseOctal header.chksum 8 then ⟨.failure, fs, opened⟩
    else
      let entry := extractFile mode pre header (archive.drop 512) fs
      if entry.ok = false then ⟨.failure, entry.fs, opened ++ entry.opened⟩
      else extractLoop mode pre entry.archive entry.fs (opened ++ entry.opened)
termination_by archive.length
decreasing_by
  have hle := length_extractFile_le mode pre ⟨archive.take 512, List.length_take_of_le (Nat.not_lt.mp h)⟩
    (archive.drop 512) fs
  rw [List.length_drop] at hle
  omega

/-- `extract_archive`, for an archive that can be opened. -/
def extractArchive (mode : ExtractMode) (pre : Option CString) (archive : List Byte) (fs : FileSystem) : Extraction :=
  extractLoop mode pre archive fs []

end ValidcTools.Smoltar
