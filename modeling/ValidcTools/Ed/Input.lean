import ValidcTools.Ed.State

/-! How `ed` reads: `fgets` with a bounded buffer, and `read_full_line` without a bound. -/
namespace ValidcTools.Ed

/-- At most `n` bytes, up to and including the first newline. -/
def takeLine : ℕ → List Byte → List Byte × List Byte
  | 0, s => ([], s)
  | _ + 1, [] => ([], [])
  | n + 1, c :: s =>
    if c = '\n' then ([c], s)
    else (c :: (takeLine n s).1, (takeLine n s).2)

/-- `fgets(buf, size, fp)`: what it stores, and what it leaves. -/
def fgets (size : ℕ) (s : List Byte) : Option (List Byte × List Byte) :=
  if s = [] then none else some (takeLine (size - 1) s)

/-- What `read_full_line` has read: the line, whether a newline ended it, the bytes consumed, and
those left. -/
structure FullLine where
  content : List Byte
  hadNewline : Bool
  raw : List Byte
  rest : List Byte
deriving DecidableEq

/-- The loop of `read_full_line`. -/
def scanLine : List Byte → FullLine
  | [] => ⟨[], false, [], []⟩
  | c :: s =>
    if c = '\n' then ⟨[], true, [c], s⟩
    else if c = '\r' ∧ s.head? = some (('\n' : Char) : Byte) then
      ⟨[], true, [c, ('\n' : Char)], s.tail⟩
    else
      ⟨c :: (scanLine s).content, (scanLine s).hadNewline, c :: (scanLine s).raw, (scanLine s).rest⟩

/-- `read_full_line` -/
def readFullLine (s : List Byte) : Option FullLine :=
  if (scanLine s).content = [] ∧ (scanLine s).hadNewline = false then none else some (scanLine s)

/-- A block of text: its lines, the bytes consumed for each (those of the closing `.` last), and the
bytes left. -/
structure TextBlock where
  lines : List CString
  raws : List (List Byte)
  rest : List Byte
deriving DecidableEq

/-- The loop of `append_line` and `insert_line` as far as it reads. Each turn but the last consumes a
newline, so `n` turns are enough for `n` bytes. -/
def readText : ℕ → List Byte → TextBlock
  | 0, s => ⟨[], [], s⟩
  | n + 1, s =>
    match readFullLine s with
    | none => ⟨[], [], s⟩
    | some l =>
      if (CString.ofBytes l.content).bytes = (['.'] : List Byte) then ⟨[], [l.raw], l.rest⟩
      else if l.hadNewline then
        ⟨CString.ofBytes l.content :: (readText n l.rest).lines, l.raw :: (readText n l.rest).raws,
          (readText n l.rest).rest⟩
      else ⟨[CString.ofBytes l.content], [l.raw], l.rest⟩

/-- The lines of a file, each with `had_nl`: the loop of `load_file` and `read_file_at_address` as far
as it reads. -/
def readLines : ℕ → List Byte → List (CString × Bool)
  | 0, _ => []
  | n + 1, s =>
    match readFullLine s with
    | none => []
    | some l =>
      if l.hadNewline then (CString.ofBytes l.content, true) :: readLines n l.rest
      else [(CString.ofBytes l.content, false)]

/-- The lines of the bytes of a whole file. -/
def fileLines (bytes : List Byte) : List (CString × Bool) := readLines bytes.length bytes

/-- The byte count that `load_file` and `read_file_at_address` print. -/
def byteCount (lines : List (CString × Bool)) : ℕ :=
  (lines.map fun l => l.1.length + if l.2 then 1 else 0).sum

/-- Lines that have just been read are new lines. -/
def newLines (fresh : ℕ) (texts : List CString) : List Line :=
  (texts.zipIdx fresh).map fun x => ⟨x.1, x.2⟩

/-- `append_line` and `insert_line` read a block of text from `input_fp`. -/
def World.readText (w : World) : List CString × World :=
  let block := Ed.readText w.input.bytes.length w.input.bytes
  (block.lines,
    { w with
      input := { w.input with bytes := block.rest }
      log := w.log ++ block.raws.map fun raw => .text raw w.input.temporary })

@[simp] theorem length_newLines (fresh : ℕ) (texts : List CString) :
    (newLines fresh texts).length = texts.length := by
  simp [newLines]

@[simp] theorem newLines_map_text (fresh : ℕ) (texts : List CString) :
    (newLines fresh texts).map Line.text = texts := by
  unfold newLines
  rw [List.map_map]
  exact List.zipIdx_map_fst fresh texts

theorem newLines_map_id (fresh : ℕ) (texts : List CString) :
    (newLines fresh texts).map Line.id = List.range' fresh texts.length := by
  unfold newLines
  rw [List.map_map]
  exact List.zipIdx_map_snd fresh texts

theorem mem_newLines_id {fresh : ℕ} {texts : List CString} {l : Line}
    (h : l ∈ newLines fresh texts) : fresh ≤ l.id ∧ l.id < fresh + texts.length := by
  have hid : l.id ∈ (newLines fresh texts).map Line.id := List.mem_map_of_mem h
  rw [newLines_map_id, List.mem_range'] at hid
  omega

theorem takeLine_append (n : ℕ) (s : List Byte) : (takeLine n s).1 ++ (takeLine n s).2 = s := by
  induction n generalizing s with
  | zero => rfl
  | succ n ih =>
    cases s with
    | nil => rfl
    | cons c s =>
      unfold takeLine
      split_ifs
      · rfl
      · exact congrArg (c :: ·) (ih s)

/-- The bytes consumed and the bytes left are the stream. -/
theorem scanLine_append (s : List Byte) : (scanLine s).raw ++ (scanLine s).rest = s := by
  induction s with
  | nil => rfl
  | cons c s ih =>
    unfold scanLine
    split_ifs with hc hcr
    · rfl
    · cases s with
      | nil => simp at hcr
      | cons d s =>
        have hd : d = (('\n' : Char) : Byte) := by simpa using hcr.2
        simp [hd]
    · exact congrArg (c :: ·) ih

theorem scanLine_content_eq_nil {s : List Byte} (h : (scanLine s).content = [])
    (hnl : (scanLine s).hadNewline = false) : s = [] := by
  cases s with
  | nil => rfl
  | cons c s =>
    unfold scanLine at h hnl
    split_ifs at h hnl

/-- The end of the input is the only place where no line can be read. -/
theorem readFullLine_eq_none_iff {s : List Byte} : readFullLine s = none ↔ s = [] := by
  constructor
  · intro h
    unfold readFullLine at h
    split_ifs at h with hn
    exact scanLine_content_eq_nil hn.1 hn.2
  · rintro rfl
    rfl

theorem readFullLine_eq_some {s : List Byte} {l : FullLine} (h : readFullLine s = some l) :
    l = scanLine s := by
  unfold readFullLine at h
  split_ifs at h
  exact (Option.some.inj h).symm

theorem readFullLine_cons (c : Byte) (s : List Byte) :
    readFullLine (c :: s) = some (scanLine (c :: s)) := by
  cases h : readFullLine (c :: s) with
  | none => exact absurd (readFullLine_eq_none_iff.mp h) (List.cons_ne_nil c s)
  | some l => rw [readFullLine_eq_some h]

end ValidcTools.Ed
