import ValidcTools.CString

/-! The file hashes that `fnvupdate` keeps in file_hash.dat, and the error value among them. -/
namespace ValidcTools.Fnv

def offsetBasis : UInt32 := 2166136261

def prime : UInt32 := 16777619

/-- One turn of the loop of `fnv1a_hash_file` -/
def hashByte (hash : UInt32) (c : Byte) : UInt32 := (hash ^^^ c.toUInt32) * prime

/-- `fnv1a_hash_file`, given what `fopen` gives to read -/
def fnv1aHashFile : Option (List Byte) → UInt32
  | none => 0
  | some content => content.foldl hashByte offsetBasis

/-! ## The entries -/

/-- What `sscanf` reads of a line -/
structure Entry where
  filename : List Byte
  hash : List Byte
  time : List Byte
deriving DecidableEq

/-- `%s` with a width: what it stores, and what it leaves -/
def scanString (width : ℕ) (s : List Byte) : Option (List Byte × List Byte) :=
  let s := s.dropWhile isSpace
  let word := (s.takeWhile fun c => !isSpace c).take width
  if word = [] then none else some (word, s.drop word.length)

/-- `sscanf(line, "\"%511[^\"]\" %8s %19s", ..) == 3` -/
def scanEntry (line : CString) : Option Entry :=
  match line.bytes with
  | [] => none
  | c :: s =>
    let filename := (s.takeWhile (· ≠ (0x22 : Byte))).take 511
    if c ≠ 0x22 ∨ filename = [] ∨ (s.drop filename.length).head? ≠ some 0x22 then none
    else
      (scanString 8 (s.drop (filename.length + 1))).bind fun hash =>
        (scanString 19 hash.2).map fun time => ⟨filename, hash.1, time.1⟩

def hexDigit (n : ℕ) : Byte := "0123456789abcdef".toList.getD n '0'

/-- `%08x` -/
def hashString (hash : UInt32) : List Byte :=
  [28, 24, 20, 16, 12, 8, 4, 0].map fun k => hexDigit (hash.toNat / 2 ^ k % 16)

/-- `"\"%s\" %s %s\n"` -/
def entryLine (e : Entry) : CString := .ofBytes (0x22 :: e.filename ++ [0x22, 0x20] ++ e.hash ++ 0x20 :: e.time ++ [0x0A])

/-- What the loop of `main` writes for a line, if anything; `files` is what `fopen` gives to read, and `time` the time
of the entries that change. -/
def updateLine (files : List Byte → Option (List Byte)) (time : List Byte) (line : CString) : Option CString :=
  match scanEntry line with
  | none => some line
  | some e =>
    let currentHash := fnv1aHashFile (files e.filename)
    if currentHash = 0 then none
    else if e.hash = hashString currentHash then some line
    else some (entryLine ⟨e.filename, hashString currentHash, time⟩)

/-- `main`: the lines of file_hash.dat that it leaves. Where nothing is modified the file is not written. -/
def update (files : List Byte → Option (List Byte)) (time : List Byte) (lines : List CString) : List CString :=
  let modified := lines.any fun line => decide (updateLine files time line ≠ some line)
  if modified then lines.filterMap (updateLine files time) else lines

/-- `main` of `fnvtest` reports that it cannot open the file. -/
def reportsCannotOpen (file : Option (List Byte)) : Bool := fnv1aHashFile file == 0

theorem update_eq (files : List Byte → Option (List Byte)) (time : List Byte) (lines : List CString) :
    update files time lines = lines.filterMap (updateLine files time) := by
  unfold update
  dsimp only
  split_ifs with h
  · rfl
  · have hall : ∀ line ∈ lines, updateLine files time line = some line := by
      intro line hline
      by_contra hne
      exact h (List.any_eq_true.mpr ⟨line, hline, decide_eq_true hne⟩)
    rw [List.filterMap_congr hall, List.filterMap_some]

/-! ## The error value -/

/-- The turn that leads to `hash` began here: 899433627 is the inverse of the prime modulo 2^32. -/
def unhashByte (c : Byte) (hash : UInt32) : UInt32 := hash * 899433627 ^^^ c.toUInt32

/-- The loop over the content, undone from its last byte back to the first, beginning with the error value -/
def unhash (content : List Byte) : UInt32 := content.foldr unhashByte 0

theorem hashByte_eq_iff (h h' : UInt32) (c : Byte) : hashByte h c = h' ↔ h = unhashByte c h' := by
  have hinv : prime * 899433627 = 1 := by decide
  have hinv' : (899433627 : UInt32) * prime = 1 := by decide
  unfold hashByte unhashByte
  constructor
  · rintro rfl
    rw [mul_assoc, hinv, mul_one, UInt32.xor_assoc, UInt32.xor_self, UInt32.xor_zero]
  · rintro rfl
    rw [UInt32.xor_assoc, UInt32.xor_self, UInt32.xor_zero, mul_assoc, hinv', mul_one]

/-- The loop comes to the error value only from where the content leads back to. -/
theorem foldl_hashByte_eq_zero_iff (content : List Byte) (h : UInt32) :
    content.foldl hashByte h = 0 ↔ unhash content = h := by
  induction content generalizing h with
  | nil => exact eq_comm
  | cons c content ih =>
    rw [List.foldl_cons, ih, eq_comm, hashByte_eq_iff]
    exact eq_comm

/-- A file that can be read has a hash of its own: `fnvtest` can open it, and whatever line of file_hash.dat names it,
`fnvupdate` leaves an entry for it. -/
def KeepsPresent (content : List Byte) : Prop :=
  fnv1aHashFile (some content) ≠ 0 ∧ reportsCannotOpen (some content) = false ∧
    ∀ files time line e, scanEntry line = some e → files e.filename = some content →
      ∃ line', ∀ before after, update files time (before ++ line :: after) =
        update files time before ++ line' :: update files time after

/-- A file is kept exactly if the loop, undone from the error value, does not lead to the offset basis. -/
theorem keepsPresent_iff (content : List Byte) : KeepsPresent content ↔ unhash content ≠ offsetBasis := by
  have hzero : fnv1aHashFile (some content) = 0 ↔ unhash content = offsetBasis := foldl_hashByte_eq_zero_iff _ _
  constructor
  · intro h
    exact hzero.not.mp h.1
  · intro h
    have hne := hzero.not.mpr h
    refine ⟨hne, beq_eq_false_iff_ne.mpr hne, fun files time line e hline hfile => ?_⟩
    obtain ⟨line', hline'⟩ : ∃ line', updateLine files time line = some line' := by
      unfold updateLine
      rw [hline]
      dsimp only
      rw [hfile, if_neg hne]
      split_ifs
      · exact ⟨_, rfl⟩
      · exact ⟨_, rfl⟩
    refine ⟨line', fun before after => ?_⟩
    rw [update_eq, update_eq, update_eq, List.filterMap_append, List.filterMap_cons_some hline']

/-- Four bytes whose hash is the error value -/
theorem not_keepsPresent : ¬KeepsPresent [0xCC, 0x24, 0x31, 0xC4] := fun h => h.1 (by decide)

end ValidcTools.Fnv
