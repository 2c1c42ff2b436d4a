import ValidcTools.Smoltar.Corruption

/-! The names of the files that extraction opens for writing. -/
namespace ValidcTools.Smoltar

/-- The bytes of the name field up to its first NUL, or all of them. -/
def nameField (header : TarHeader) : List Byte := header.name.takeWhile (· ≠ 0)

/-- A file is named by the prefix and the name field, and the name field has no separator. -/
def Opened.Placed (pre : Option CString) (o : Opened) : Prop :=
  o.name.bytes = prefixBytes pre ++ nameField o.header ∧ hasSeparator (nameField o.header) = false

/-- The prefix and the string at the name fill the buffer as far as the prefix and the name field go,
and the name field has no separator. -/
def TarHeader.Fits (header : TarHeader) (pre : Option CString) : Prop :=
  min 254 ((prefixBytes pre).length + header.string.length) = (prefixBytes pre).length + min 100 header.string.length ∧
    hasSeparator (nameField header) = false

theorem nameField_eq (header : TarHeader) : nameField header = header.string.bytes.take 100 :=
  List.take_takeWhile.symm

theorem take_append_eq_iff (p s : List Byte) (m n : ℕ) :
    (p ++ s).take m = p ++ s.take n ↔ min m (p.length + s.length) = p.length + min n s.length := by
  have hright : p ++ s.take n = (p ++ s).take (p.length + n) := by
    rw [List.take_append, List.take_of_length_le (Nat.le_add_right _ _), Nat.add_sub_cancel_left]
  rw [hright, List.take_eq_take_iff, List.length_append, Nat.add_min_add_left]

theorem placed_iff_fits {pre : Option CString} {o : Opened} (h : o.name = outputFilename pre o.header) :
    o.Placed pre ↔ o.header.Fits pre := by
  unfold Opened.Placed TarHeader.Fits CString.length
  rw [h, outputFilename_bytes, nameField_eq, take_append_eq_iff]

theorem name_of_extractFile (mode : ExtractMode) (pre : Option CString) (header : TarHeader) (archive : List Byte)
    (fs : FileSystem) : ∀ o ∈ (extractFile mode pre header archive fs).opened, o.name = outputFilename pre o.header := by
  unfold extractFile
  dsimp only
  cases fs.write? (outputFilename pre header) (copyData archive (parseOctal header.size 12)).2.1 with
  | none =>
    dsimp only
    split_ifs
    · exact fun o ho => (List.not_mem_nil ho).elim
    · exact fun o ho => (List.not_mem_nil ho).elim
  | some written =>
    dsimp only
    split_ifs
    · exact fun o ho => (List.not_mem_nil ho).elim
    · exact fun o ho => by rw [List.mem_singleton.mp ho]
    · exact fun o ho => by rw [List.mem_singleton.mp ho]

/-- Every file is opened under the output name of its header. -/
theorem name_of_extractLoop (mode : ExtractMode) (pre : Option CString) (archive : List Byte) (fs : FileSystem)
    {opened : List Opened} (h : ∀ o ∈ opened, o.name = outputFilename pre o.header) :
    ∀ o ∈ (extractLoop mode pre archive fs opened).opened, o.name = outputFilename pre o.header := by
  have happend (header : TarHeader) (archive : List Byte) (fs : FileSystem) {opened : List Opened}
      (h : ∀ o ∈ opened, o.name = outputFilename pre o.header) :
      ∀ o ∈ opened ++ (extractFile mode pre header archive fs).opened, o.name = outputFilename pre o.header := by
    intro o ho
    rcases List.mem_append.mp ho with ho | ho
    · exact h o ho
    · exact name_of_extractFile mode pre header archive fs o ho
  fun_induction extractLoop mode pre archive fs opened with
  | case6 => exact happend _ _ _ h
  | case7 archive fs opened hlong header hname hmagic hzero hsum entry hok ih => exact ih (happend _ _ _ h)
  | _ => exact h

/-- In a run of extraction, every file is where it should be exactly when every header from which a
file was opened fits. -/
theorem placed_iff (mode : ExtractMode) (pre : Option CString) (archive : List Byte) (fs : FileSystem) :
    (∀ o ∈ (extractArchive mode pre archive fs).opened, o.Placed pre) ↔
      ∀ o ∈ (extractArchive mode pre archive fs).opened, o.header.Fits pre := by
  have hname : ∀ o ∈ (extractArchive mode pre archive fs).opened, o.name = outputFilename pre o.header :=
    name_of_extractLoop mode pre archive fs fun o ho => (List.not_mem_nil ho).elim
  exact forall₂_congr fun o ho => placed_iff_fits (hname o ho)

/-- A header for a file outside of the directory. -/
def outsideHeader : TarHeader := ⟨_, length_layout (.lit "../a") 0 0 3273 []⟩

set_option maxRecDepth 8192 in
theorem outsideHeader_accepted : outsideHeader.Accepted :=
  ⟨by decide, by decide, by decide, by decide⟩

theorem not_placed : ∃ o ∈ (extractArchive .force none outsideHeader.bytes .fresh).opened, ¬o.Placed none := by
  have hname := outsideHeader_accepted.1
  obtain ⟨written, hwrite⟩ := FileSystem.write?_of_creatable
    (FileSystem.allCreatable_fresh _ (outputFilename_ne_nil none outsideHeader hname)) []
  have hsize : parseOctal outsideHeader.size 12 = 0 := by decide
  have hfile : extractFile .force none outsideHeader [] .fresh =
      ⟨true, [], written, [⟨outsideHeader, outputFilename none outsideHeader, []⟩]⟩ := by
    unfold extractFile
    simp only [hsize, copyData_eq (Nat.zero_le _), List.take_zero, hwrite, skips]
    rfl
  have hloop := extractLoop_accepted .force none .fresh [] outsideHeader_accepted []
  rw [hfile, List.append_nil] at hloop
  have hopened := extractLoop_opened .force none [] written [⟨outsideHeader, outputFilename none outsideHeader, []⟩]
  refine ⟨⟨outsideHeader, outputFilename none outsideHeader, []⟩, ?_, ?_⟩
  · unfold extractArchive
    rw [hloop]
    exact hopened.subset List.mem_cons_self
  · intro h
    have hfield : hasSeparator (nameField outsideHeader) = true := by decide
    exact Bool.false_ne_true (h.2.symm.trans hfield)

end ValidcTools.Smoltar
