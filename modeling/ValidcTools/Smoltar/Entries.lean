import ValidcTools.Smoltar.Archive

/-! What `smoltar` creates is read back entry by entry. -/
namespace ValidcTools.Smoltar

/-! ## Blocks -/

theorem copyData_eq {archive : List Byte} {remaining : ℕ} (h : remaining ≤ archive.length) :
    copyData archive remaining = (true, archive.take remaining, archive.drop remaining) := by
  fun_induction copyData archive remaining with
  | case1 => rfl
  | case2 archive remaining hne toRead hlen =>
    have hle : toRead ≤ remaining := min_le_left _ _
    omega
  | case3 archive remaining hne toRead hlen rest ih =>
    have hle : toRead ≤ remaining := min_le_left _ _
    have hrest : rest = copyData (archive.drop toRead) (remaining - toRead) := rfl
    rw [hrest, ih (by rw [List.length_drop]; omega)]
    dsimp only
    rw [← List.take_add, List.drop_drop, Nat.add_sub_cancel' hle]

theorem paddingOf_eq (n : ℕ) : n + paddingOf n = blocksOf n := by
  unfold paddingOf blocksOf
  split_ifs with h <;> omega

/-! ## Names -/

theorem ofBytes_take (l : List Byte) (n : ℕ) : (CString.ofBytes (l.take n)).bytes = (CString.ofBytes l).bytes.take n :=
  List.take_takeWhile.symm

theorem zero_notMem_prefixBytes (pre : Option CString) : (0 : Byte) ∉ prefixBytes pre := by
  cases pre with
  | none => exact List.not_mem_nil
  | some p => exact p.nulFree

/-- The output name is the prefix and the string at the name, cut to the buffer. -/
theorem outputFilename_bytes (pre : Option CString) (header : TarHeader) :
    (outputFilename pre header).bytes = (prefixBytes pre ++ header.string.bytes).take 254 := by
  have hnulFree : (0 : Byte) ∉ prefixBytes pre ++ header.string.bytes :=
    List.not_mem_append (zero_notMem_prefixBytes pre) header.string.nulFree
  unfold outputFilename
  split_ifs with hpre
  · rw [ofBytes_take, CString.ofBytes_bytes_of_nulFree hnulFree]
  · rw [not_not.mp hpre, ofBytes_take, List.nil_append]
    rfl

theorem TarHeader.head?_name (header : TarHeader) : header.name.head? = header.bytes.head? := by
  unfold name field
  rw [List.drop_zero, List.head?_take, if_neg (by decide)]

theorem outputFilename_ne_nil (pre : Option CString) (header : TarHeader) (hname : header.name.head? ≠ some 0) :
    (outputFilename pre header).bytes ≠ [] := by
  have hstring : header.string.bytes ≠ [] := by
    rw [header.head?_name] at hname
    unfold TarHeader.string CString.ofBytes
    cases hbytes : header.bytes with
    | nil =>
      have hlen := header.length_bytes
      rw [hbytes] at hlen
      cases hlen
    | cons b l =>
      rw [hbytes] at hname
      have hb : b ≠ 0 := fun h => hname (congrArg some h)
      simp [hb]
  rw [outputFilename_bytes]
  simp [hstring]

/-! ## Entries -/

/-- What `add_file_to_archive` has written. -/
structure Entry where
  name : CString
  content : List Byte
  now : ℕ
  header : TarHeader
  made : initHeader name content.length (sha256ToHex (sha256 content)) now = some header

namespace Entry

variable (e : Entry)

def bytes : List Byte := e.header.bytes ++ e.content ++ List.replicate (paddingOf e.content.length) 0

/-- The size that the header says. -/
def recorded : ℕ := min e.content.length (8 ^ 11 - 1)

/-- The size fits into its field. -/
def Small : Prop := e.content.length < 8 ^ 11

theorem recorded_of_small (h : e.Small) : e.recorded = e.content.length := by
  unfold Small at h
  exact min_eq_left (Nat.le_sub_one_of_lt h)

/-- The string that an entry is compared with. -/
theorem archiveSha256_eq : (CString.ofBytes (e.header.linkname.take 64)).bytes = sha256ToHex (sha256 e.content) := by
  have hlen : (sha256ToHex (sha256 e.content)).length = 64 := by rw [length_sha256ToHex, length_sha256]
  rw [linkname_initHeader e.made hlen, CString.ofBytes_bytes_of_nulFree (zero_notMem_sha256ToHex _)]

theorem zero_mem_header : (0 : Byte) ∈ e.header.bytes := by
  obtain ⟨-, checksum, -, -, hbytes⟩ := initHeader_eq_some e.made
  rw [hbytes]
  refine List.mem_append_right _ ?_
  unfold fieldsAfter
  exact List.mem_append_right _ (List.mem_replicate.mpr ⟨by decide, rfl⟩)

theorem head?_name (hname : e.name.bytes ≠ []) : e.header.name.head? ≠ some 0 := by
  obtain ⟨b, l, hbl⟩ := List.exists_cons_of_ne_nil hname
  have hstring := string_initHeader e.made
  rw [hbl, List.take_succ_cons] at hstring
  obtain ⟨bytes, hlen⟩ : ∃ bytes, e.header.bytes = bytes := ⟨_, rfl⟩
  unfold TarHeader.string CString.ofBytes at hstring
  unfold TarHeader.name TarHeader.field
  rw [List.drop_zero, hlen]
  rw [hlen] at hstring
  cases bytes with
  | nil => cases hstring
  | cons c bytes =>
    intro hzero
    have hc : c = 0 := Option.some.inj hzero
    rw [hc] at hstring
    cases hstring

end Entry

section

variable (mode : ExtractMode) (pre : Option CString) (fs : FileSystem) (opened : List Opened)

theorem TarHeader.ext_bytes {h h' : TarHeader} (heq : h.bytes = h'.bytes) : h = h' := by
  cases h
  cases h'
  cases heq
  rfl

/-- One turn of the loop, at a whole header. -/
theorem extractLoop_step (header : TarHeader) (archive : List Byte) :
    extractLoop mode pre (header.bytes ++ archive) fs opened =
      if header.name.head? = some 0 then ⟨.success, fs, opened⟩
      else if header.magic.take 5 ≠ "ustar".toList.map Char.toUInt8 then ⟨.failure, fs, opened⟩
      else if (0 : Byte) ∉ header.bytes then ⟨.undefined, fs, opened⟩
      else if calculateChecksum header.bytes ≠ parseOctal header.chksum 8 then ⟨.failure, fs, opened⟩
      else
        let entry := extractFile mode pre header archive fs
        if entry.ok = false then ⟨.failure, entry.fs, opened ++ entry.opened⟩
        else extractLoop mode pre entry.archive entry.fs (opened ++ entry.opened) := by
  have hlong : ¬(header.bytes ++ archive).length < 512 := by
    rw [List.length_append, header.length_bytes]
    omega
  have htake : (header.bytes ++ archive).take 512 = header.bytes := List.take_left' header.length_bytes
  have hrest : (header.bytes ++ archive).drop 512 = archive := List.drop_left' header.length_bytes
  conv_lhs => unfold extractLoop
  rw [dif_neg hlong]
  simp only [htake, hrest]

/-- A header that was written passes every test, and its entry is extracted. -/
theorem extractLoop_header (e : Entry) (hname : e.name.bytes ≠ []) (archive : List Byte) :
    extractLoop mode pre (e.header.bytes ++ archive) fs opened =
      let entry := extractFile mode pre e.header archive fs
      if entry.ok = false then ⟨.failure, entry.fs, opened ++ entry.opened⟩
      else extractLoop mode pre entry.archive entry.fs (opened ++ entry.opened) := by
  rw [extractLoop_step, if_neg (e.head?_name hname), if_neg (not_not.mpr (magic_initHeader e.made)),
    if_neg (not_not.mpr e.zero_mem_header), if_neg (not_not.mpr (checksum_initHeader e.made).symm)]

section

variable (e : Entry) (rest : List Byte)

/-- The data of an entry and its padding. -/
def Entry.data : List Byte := e.content ++ List.replicate (paddingOf e.content.length) 0

theorem Entry.bytes_eq : e.bytes = e.header.bytes ++ e.data := List.append_assoc _ _ _

theorem Entry.length_data : e.data.length = blocksOf e.content.length := by
  rw [Entry.data, List.length_append, List.length_replicate, paddingOf_eq]

theorem extractFile_skipped (hsmall : e.Small)
    (hskips : skips mode fs (outputFilename pre e.header) (.ofBytes (e.header.linkname.take 64)) = true) :
    extractFile mode pre e.header (e.data ++ rest) fs = ⟨true, rest, fs, []⟩ := by
  have hsize : parseOctal e.header.size 12 = e.content.length :=
    (size_initHeader e.made).trans (e.recorded_of_small hsmall)
  unfold extractFile
  simp only [hskips, if_true]
  rw [hsize, List.drop_left' e.length_data]

/-- The data of a small entry is written whole. -/
theorem extractFile_written (hsmall : e.Small)
    (hskips : skips mode fs (outputFilename pre e.header) (.ofBytes (e.header.linkname.take 64)) = false)
    {written : FileSystem} (hwrite : fs.write? (outputFilename pre e.header) e.content = some written) :
    extractFile mode pre e.header (e.data ++ rest) fs =
      ⟨true, rest, written, [⟨e.header, outputFilename pre e.header, e.content⟩]⟩ := by
  have hsize : parseOctal e.header.size 12 = e.content.length :=
    (size_initHeader e.made).trans (e.recorded_of_small hsmall)
  have hcopy : copyData (e.data ++ rest) e.content.length =
      (true, e.content, List.replicate (paddingOf e.content.length) 0 ++ rest) := by
    rw [Entry.data, List.append_assoc, copyData_eq (by rw [List.length_append]; omega), List.take_left,
      List.drop_left]
  have hpadding : ¬(List.replicate (paddingOf e.content.length) (0 : Byte) ++ rest).length < paddingOf e.content.length := by
    rw [List.length_append, List.length_replicate]
    omega
  unfold extractFile
  simp only [hsize, hskips, hcopy, hwrite, hpadding, Bool.false_eq_true, Bool.true_eq_false, or_self, if_false]
  rw [List.drop_left' List.length_replicate]

theorem extractLoop_skipped (hname : e.name.bytes ≠ []) (hsmall : e.Small)
    (hskips : skips mode fs (outputFilename pre e.header) (.ofBytes (e.header.linkname.take 64)) = true) :
    extractLoop mode pre (e.bytes ++ rest) fs opened = extractLoop mode pre rest fs opened := by
  rw [e.bytes_eq, List.append_assoc, extractLoop_header _ _ _ _ _ hname, extractFile_skipped _ _ _ _ _ hsmall hskips]
  dsimp only
  rw [List.append_nil]
  rfl

theorem extractLoop_written (hname : e.name.bytes ≠ []) (hsmall : e.Small)
    (hskips : skips mode fs (outputFilename pre e.header) (.ofBytes (e.header.linkname.take 64)) = false)
    {written : FileSystem} (hwrite : fs.write? (outputFilename pre e.header) e.content = some written) :
    extractLoop mode pre (e.bytes ++ rest) fs opened =
      extractLoop mode pre rest written (opened ++ [⟨e.header, outputFilename pre e.header, e.content⟩]) := by
  rw [e.bytes_eq, List.append_assoc, extractLoop_header _ _ _ _ _ hname,
    extractFile_written _ _ _ _ _ hsmall hskips hwrite]
  rfl

end

end

/-! ## Archives -/

/-- Every file can be created. -/
def FileSystem.AllCreatable (fs : FileSystem) : Prop := ∀ name : CString, name.bytes ≠ [] → fs.creatable name = true

theorem addFileToArchive_eq {fs : FileSystem} {filename : CString} {now : ℕ}
    (h : (addFileToArchive fs filename now).1 = true) :
    ∃ e : Entry, e.name = filename ∧ fs.files filename = some e.content ∧
      (addFileToArchive fs filename now).2 = e.bytes := by
  unfold addFileToArchive at h ⊢
  cases hfile : fs.files filename with
  | none =>
    rw [hfile] at h
    cases h
  | some content =>
    rw [hfile] at h
    dsimp only at h ⊢
    cases hmade : initHeader filename content.length (sha256ToHex (sha256 content)) now with
    | none =>
      rw [hmade] at h
      cases h
    | some header => exact ⟨⟨filename, content, now, header, hmade⟩, rfl, rfl, rfl⟩

theorem addFiles_eq {fs : FileSystem} {clock : ℕ → ℕ} {filenames : List CString}
    (h : (addFiles fs clock filenames).1 = true) :
    ∃ entries : List Entry, entries.map Entry.name = filenames ∧
      (∀ e ∈ entries, fs.files e.name = some e.content) ∧
      (addFiles fs clock filenames).2 = entries.flatMap Entry.bytes := by
  induction filenames generalizing clock with
  | nil => exact ⟨[], rfl, fun e he => (List.not_mem_nil he).elim, rfl⟩
  | cons filename filenames ih =>
    unfold addFiles at h ⊢
    dsimp only at h ⊢
    split_ifs at h ⊢ with hadd
    obtain ⟨e, hname, hfile, hbytes⟩ := addFileToArchive_eq (Bool.eq_true_of_not_eq_false hadd)
    obtain ⟨entries, hnames, hfiles, hrest⟩ := ih h
    refine ⟨e :: entries, ?_, ?_, ?_⟩
    · rw [List.map_cons, hname, hnames]
    · intro e' he'
      cases he' with
      | head => rw [hname, hfile]
      | tail _ he' => exact hfiles e' he'
    · rw [hbytes, hrest, List.flatMap_cons]

/-- What a successful creation has made, from the files as they are once the archive is emptied. -/
theorem createArchive_entries {fs : FileSystem} {archiveName : CString} {filenames : List CString} {clock : ℕ → ℕ}
    {archive : List Byte} (h : createArchive fs archiveName filenames clock = (true, archive)) :
    ∃ entries : List Entry, entries.map Entry.name = filenames ∧
      (∀ e ∈ entries, e.name.bytes ≠ [] ∧ Function.update fs.files archiveName (some []) e.name = some e.content) ∧
      archive = entries.flatMap Entry.bytes ++ List.replicate 1024 0 := by
  unfold createArchive at h
  cases hwrite : fs.write? archiveName [] with
  | none =>
    rw [hwrite] at h
    cases h
  | some emptied =>
    rw [hwrite] at h
    dsimp only at h
    split_ifs at h with hadd
    · cases h
    obtain ⟨entries, hnames, hfiles, hbytes⟩ := addFiles_eq (Bool.eq_true_of_not_eq_false hadd)
    refine ⟨entries, hnames, fun e he => ⟨FileSystem.name_ne_nil (hfiles e he), ?_⟩, ?_⟩
    · rw [← (FileSystem.write?_eq_some hwrite).2.1]
      exact hfiles e he
    · rw [← hbytes]
      exact (Prod.mk.inj h).2.symm

theorem createArchive_eq {fs : FileSystem} {archiveName : CString} {filenames : List CString} {clock : ℕ → ℕ}
    {archive : List Byte} (h : createArchive fs archiveName filenames clock = (true, archive))
    (hother : archiveName ∉ filenames) :
    ∃ entries : List Entry, entries.map Entry.name = filenames ∧
      (∀ e ∈ entries, fs.files e.name = some e.content) ∧
      archive = entries.flatMap Entry.bytes ++ List.replicate 1024 0 := by
  obtain ⟨entries, hnames, hfiles, harchive⟩ := createArchive_entries h
  refine ⟨entries, hnames, fun e he => ?_, harchive⟩
  have hne : e.name ≠ archiveName := by
    intro heq
    exact hother (hnames ▸ heq ▸ List.mem_map_of_mem he)
  rw [← (hfiles e he).2, Function.update_of_ne hne]

end ValidcTools.Smoltar
