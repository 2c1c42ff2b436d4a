import ValidcTools.Smoltar.RoundTrip

/-! One changed byte of a header that `smoltar` has written. -/
namespace ValidcTools.Smoltar

/-! ## The header -/

/-- The sum of bytes tells one of them. -/
theorem sum_toNat_set {l : List Byte} {j : ℕ} (hj : j < l.length) (v : Byte) :
    ((l.set j v).map UInt8.toNat).sum + (l.get ⟨j, hj⟩).toNat = (l.map UInt8.toNat).sum + v.toNat := by
  induction l generalizing j with
  | nil => exact (Nat.not_lt_zero j hj).elim
  | cons b l ih =>
    cases j with
    | zero =>
      have hget : (b :: l).get ⟨0, hj⟩ = b := rfl
      rw [hget, List.set_cons_zero, List.map_cons, List.sum_cons, List.map_cons, List.sum_cons]
      omega
    | succ j =>
      have hrest := ih (Nat.lt_of_succ_lt_succ hj)
      simp only [List.set_cons_succ, List.map_cons, List.sum_cons, List.get_cons_succ]
      omega

theorem calculateChecksum_set_ne {bytes : List Byte} {j : ℕ} (hj : j < bytes.length)
    (hfield : ¬(148 ≤ j ∧ j < 156)) {v : Byte} (hv : bytes.get ⟨j, hj⟩ ≠ v) :
    calculateChecksum (bytes.set j v) ≠ calculateChecksum bytes := by
  have hne : (bytes.get ⟨j, hj⟩).toNat ≠ v.toNat := fun h => hv (UInt8.toNat_inj.mp h)
  unfold calculateChecksum
  by_cases hlow : j < 148
  · have hlen : j < (bytes.take 148).length := by
      rw [List.length_take]
      omega
    have hsum := sum_toNat_set hlen v
    have hget : (bytes.take 148).get ⟨j, hlen⟩ = bytes.get ⟨j, hj⟩ := List.getElem_take
    rw [List.take_set, List.drop_set_of_lt (by omega)]
    rw [hget] at hsum
    omega
  · have hlen : j - 156 < (bytes.drop 156).length := by
      rw [List.length_drop]
      omega
    have hsum := sum_toNat_set hlen v
    have hget : (bytes.drop 156).get ⟨j - 156, hlen⟩ = bytes.get ⟨j, hj⟩ := by
      have hidx : 156 + (j - 156) = j := by omega
      simp only [List.get_eq_getElem, List.getElem_drop, hidx]
    rw [List.take_set_of_le (by omega), List.drop_set, if_neg (by omega)]
    rw [hget] at hsum
    omega

/-- A header with one byte changed. -/
def TarHeader.withByte (header : TarHeader) (j : ℕ) (v : Byte) : TarHeader where
  bytes := header.bytes.set j v
  length_bytes := (List.length_set ..).trans header.length_bytes

theorem TarHeader.chksum_withByte (header : TarHeader) {j : ℕ} (hfield : ¬(148 ≤ j ∧ j < 156)) (v : Byte) :
    (header.withByte j v).chksum = header.chksum := by
  unfold chksum field withByte
  dsimp only
  by_cases hlow : j < 148
  · rw [List.drop_set_of_lt hlow]
  · rw [List.drop_set, if_neg hlow, List.take_set_of_le (by omega)]

/-- The zeros at the end of a header are too many for one byte to hide. -/
theorem Entry.zero_mem_withByte (e : Entry) (j : ℕ) (v : Byte) : (0 : Byte) ∈ (e.header.withByte j v).bytes := by
  obtain ⟨-, checksum, -, -, hbytes⟩ := initHeader_eq_some e.made
  have hzeros : ∃ l, e.header.bytes = l ++ [0, 0] := by
    rw [hbytes, fieldsAfter, List.replicate_add 245 2, ← List.append_assoc, ← List.append_assoc]
    exact ⟨_, rfl⟩
  obtain ⟨l, hl⟩ := hzeros
  have hset : (e.header.withByte j v).bytes = (l ++ [0, 0]).set j v := by rw [← hl]; rfl
  rw [hset, List.set_append]
  split_ifs with hj
  · exact List.mem_append_right _ (List.mem_cons_self)
  · refine List.mem_append_right _ ?_
    cases j - l.length with
    | zero => exact List.mem_cons_of_mem _ List.mem_cons_self
    | succ i => exact List.mem_cons_self

/-! ## What a reader of headers comes to -/

/-- The first byte of the name is not the end marker, and every test is passed. -/
def TarHeader.Accepted (header : TarHeader) : Prop :=
  header.name.head? ≠ some 0 ∧ header.magic.take 5 = "ustar".toList.map Char.toUInt8 ∧
    (0 : Byte) ∈ header.bytes ∧ calculateChecksum header.bytes = parseOctal header.chksum 8

/-- A test fails. -/
def TarHeader.Refused (header : TarHeader) : Prop :=
  header.name.head? ≠ some 0 ∧ (header.magic.take 5 ≠ "ustar".toList.map Char.toUInt8 ∨
    ((0 : Byte) ∈ header.bytes ∧ calculateChecksum header.bytes ≠ parseOctal header.chksum 8))

/-- The bytes that an entry takes after its header. -/
def TarHeader.span (header : TarHeader) : ℕ := blocksOf (parseOctal header.size 12)

/-- The headers from the start on, each followed by all of its data, lead to one that is refused. -/
inductive EndsBadly : List Byte → Prop
  | refused {header : TarHeader} (archive : List Byte) : header.Refused → EndsBadly (header.bytes ++ archive)
  | next {header : TarHeader} {archive : List Byte} : header.Accepted → header.span ≤ archive.length →
      EndsBadly (archive.drop header.span) → EndsBadly (header.bytes ++ archive)

/-- The headers from the start on lead to the one at an offset. -/
inductive Reaches : List Byte → ℕ → Prop
  | here (archive : List Byte) : Reaches archive 0
  | next {header : TarHeader} {archive : List Byte} {offset : ℕ} : header.Accepted → header.span ≤ archive.length →
      Reaches (archive.drop header.span) offset → Reaches (header.bytes ++ archive) (512 + header.span + offset)

/-- Extraction of the archive returns false, whatever the mode, the prefix and the files there are. -/
def Detected (archive : List Byte) : Prop :=
  ∀ mode pre fs, (extractArchive mode pre archive fs).verdict = .failure

section

variable (mode : ExtractMode) (pre : Option CString) (fs : FileSystem) (opened : List Opened)

theorem extractLoop_refused {header : TarHeader} (h : header.Refused) (archive : List Byte) :
    (extractLoop mode pre (header.bytes ++ archive) fs opened).verdict = .failure := by
  rw [extractLoop_step, if_neg h.1]
  rcases h.2 with hmagic | ⟨hzero, hsum⟩
  · rw [if_pos hmagic]
  · rw [if_neg (not_not.mpr hzero), if_pos hsum]
    split_ifs <;> rfl

theorem extractLoop_accepted {header : TarHeader} (h : header.Accepted) (archive : List Byte) :
    extractLoop mode pre (header.bytes ++ archive) fs opened =
      let entry := extractFile mode pre header archive fs
      if entry.ok = false then ⟨.failure, entry.fs, opened ++ entry.opened⟩
      else extractLoop mode pre entry.archive entry.fs (opened ++ entry.opened) := by
  obtain ⟨hname, hmagic, hzero, hsum⟩ := h
  rw [extractLoop_step, if_neg hname, if_neg (not_not.mpr hmagic), if_neg (not_not.mpr hzero),
    if_neg (not_not.mpr hsum)]

/-- Skipping and reading move over the same bytes. -/
theorem archive_extractFile {header : TarHeader} {archive : List Byte} (hspan : header.span ≤ archive.length)
    (hok : (extractFile mode pre header archive fs).ok = true) :
    (extractFile mode pre header archive fs).archive = archive.drop header.span := by
  have hsize : parseOctal header.size 12 + paddingOf (parseOctal header.size 12) = header.span := paddingOf_eq _
  have hcopy : copyData archive (parseOctal header.size 12) =
      (true, archive.take (parseOctal header.size 12), archive.drop (parseOctal header.size 12)) :=
    copyData_eq (by omega)
  unfold extractFile at hok ⊢
  simp only [hcopy] at hok ⊢
  cases hskips : skips mode fs (outputFilename pre header) (.ofBytes (header.linkname.take 64)) with
  | true => rfl
  | false =>
    simp only [hskips, Bool.false_eq_true, if_false] at hok ⊢
    cases hwrite : fs.write? (outputFilename pre header) (archive.take (parseOctal header.size 12)) with
    | none =>
      rw [hwrite] at hok
      cases hok
    | some written =>
      have hpadding : ¬(archive.drop (parseOctal header.size 12)).length < paddingOf (parseOctal header.size 12) := by
        rw [List.length_drop]
        omega
      simp only [hpadding, Bool.true_eq_false, or_self, if_false]
      rw [List.drop_drop, hsize]

end

theorem detected_of_endsBadly {archive : List Byte} (h : EndsBadly archive) : Detected archive := by
  have hall (mode : ExtractMode) (pre : Option CString) (fs : FileSystem) (opened : List Opened) :
      (extractLoop mode pre archive fs opened).verdict = .failure := by
    induction h generalizing fs opened with
    | refused archive hrefused => exact extractLoop_refused mode pre fs opened hrefused archive
    | @next header archive haccepted hspan _ ih =>
      rw [extractLoop_accepted mode pre fs opened haccepted]
      dsimp only
      split_ifs with hok
      · rfl
      · rw [archive_extractFile mode pre fs hspan (Bool.eq_true_of_not_eq_false hok)]
        exact ih _ _
  exact fun mode pre fs => hall mode pre fs []

/-- A file of every name. -/
def FileSystem.full : FileSystem where
  files name := if name.bytes = [] then none else some []
  creatable _ := false
  files_empty _ hname := if_pos hname
  creatable_empty _ _ := rfl

theorem extractLoop_of_short (mode : ExtractMode) (pre : Option CString) {archive : List Byte} (h : archive.length < 512)
    (fs : FileSystem) (opened : List Opened) : extractLoop mode pre archive fs opened = ⟨.success, fs, opened⟩ := by
  unfold extractLoop
  exact dif_pos h

theorem exists_header {archive : List Byte} (h : ¬archive.length < 512) :
    ∃ (header : TarHeader) (rest : List Byte), archive = header.bytes ++ rest :=
  ⟨⟨archive.take 512, List.length_take_of_le (Nat.not_lt.mp h)⟩, archive.drop 512, (List.take_append_drop 512 archive).symm⟩

/-- Where every file exists, safe extraction moves over all headers and writes nothing. -/
theorem endsBadly_of_full {n : ℕ} {archive : List Byte} (hn : archive.length ≤ n) {opened : List Opened}
    (h : (extractLoop .safe none archive .full opened).verdict = .failure) : EndsBadly archive := by
  induction n generalizing archive opened with
  | zero =>
    rw [extractLoop_of_short .safe none (by omega)] at h
    cases h
  | succ n ih =>
    by_cases hshort : archive.length < 512
    · rw [extractLoop_of_short .safe none hshort] at h
      cases h
    obtain ⟨header, rest, rfl⟩ := exists_header hshort
    have hlen : rest.length ≤ n := by
      rw [List.length_append, header.length_bytes] at hn
      omega
    by_cases hname : header.name.head? = some 0
    · rw [extractLoop_step, if_pos hname] at h
      cases h
    by_cases haccepted : header.Accepted
    · have hskips : skips .safe .full (outputFilename none header) (.ofBytes (header.linkname.take 64)) = true := by
        unfold skips FileSystem.full
        dsimp only
        rw [if_neg (outputFilename_ne_nil none header hname)]
        rfl
      have hfile : extractFile .safe none header rest .full = ⟨true, rest.drop header.span, .full, []⟩ := by
        unfold extractFile
        simp only [hskips, if_true]
        rfl
      rw [extractLoop_accepted .safe none _ _ haccepted, hfile] at h
      by_cases hspan : header.span ≤ rest.length
      · exact .next haccepted hspan (ih ((length_drop_le _ _).trans hlen) h)
      · rw [List.drop_eq_nil_of_le (by omega)] at h
        have hempty : ([] : List Byte).length < 512 := by decide
        rw [if_neg (by decide), extractLoop_of_short .safe none hempty] at h
        cases h
    · refine .refused rest ?_
      by_cases hmagic : header.magic.take 5 = "ustar".toList.map Char.toUInt8
      · by_cases hzero : (0 : Byte) ∈ header.bytes
        · exact ⟨hname, Or.inr ⟨hzero, fun hsum => haccepted ⟨hname, hmagic, hzero, hsum⟩⟩⟩
        · rw [extractLoop_step, if_neg hname, if_neg (not_not.mpr hmagic), if_pos hzero] at h
          cases h
      · exact ⟨hname, Or.inl hmagic⟩

theorem detected_iff_endsBadly (archive : List Byte) : Detected archive ↔ EndsBadly archive :=
  ⟨fun h => endsBadly_of_full le_rfl (h .safe none .full), detected_of_endsBadly⟩

/-! ## Where a changed byte is read -/

theorem header_append_inj {header header' : TarHeader} {archive archive' : List Byte}
    (h : header.bytes ++ archive = header'.bytes ++ archive') : header = header' ∧ archive = archive' := by
  obtain ⟨hbytes, hrest⟩ := List.append_inj h (header.length_bytes.trans header'.length_bytes.symm)
  exact ⟨TarHeader.ext_bytes hbytes, hrest⟩

theorem endsBadly_append_iff (header : TarHeader) (archive : List Byte) :
    EndsBadly (header.bytes ++ archive) ↔
      header.Refused ∨ (header.Accepted ∧ header.span ≤ archive.length ∧ EndsBadly (archive.drop header.span)) := by
  constructor
  · intro h
    generalize hall : header.bytes ++ archive = l at h
    cases h with
    | refused archive' hrefused =>
      obtain ⟨rfl, rfl⟩ := header_append_inj hall
      exact Or.inl hrefused
    | next haccepted hspan hrest =>
      obtain ⟨rfl, rfl⟩ := header_append_inj hall
      exact Or.inr ⟨haccepted, hspan, hrest⟩
  · rintro (hrefused | ⟨haccepted, hspan, hrest⟩)
    · exact .refused archive hrefused
    · exact .next haccepted hspan hrest

theorem reaches_append_iff (header : TarHeader) (archive : List Byte) (offset : ℕ) :
    Reaches (header.bytes ++ archive) (512 + offset) ↔
      header.Accepted ∧ header.span ≤ archive.length ∧ header.span ≤ offset ∧
        Reaches (archive.drop header.span) (offset - header.span) := by
  constructor
  · intro h
    generalize hall : header.bytes ++ archive = l at h
    generalize hoffset : 512 + offset = o at h
    cases h with
    | here => omega
    | @next _ _ o haccepted hspan hrest =>
      obtain ⟨rfl, rfl⟩ := header_append_inj hall
      have ho : offset = header.span + o := by omega
      subst ho
      rw [Nat.add_sub_cancel_left]
      exact ⟨haccepted, hspan, Nat.le_add_right _ _, hrest⟩
  · rintro ⟨haccepted, hspan, hle, hrest⟩
    have hnext := Reaches.next haccepted hspan hrest
    rwa [Nat.add_assoc, Nat.add_sub_cancel' hle] at hnext

theorem Entry.refused_withByte (e : Entry) (hname : e.name.bytes ≠ []) {j : ℕ} (hj : j < 512)
    (hfield : ¬(148 ≤ j ∧ j < 156)) {v : Byte} (hv : e.header.bytes[j]? ≠ some v) (hend : ¬(j = 0 ∧ v = 0)) :
    (e.header.withByte j v).Refused := by
  have hlen : j < e.header.bytes.length := by rw [e.header.length_bytes]; exact hj
  have hget : e.header.bytes.get ⟨j, hlen⟩ ≠ v := fun h => hv (by rw [List.getElem?_eq_getElem hlen]; exact congrArg some h)
  refine ⟨?_, Or.inr ⟨e.zero_mem_withByte j v, ?_⟩⟩
  · have hold := e.head?_name hname
    rw [TarHeader.head?_name] at hold ⊢
    unfold TarHeader.withByte
    dsimp only
    cases hbytes : e.header.bytes with
    | nil =>
      rw [hbytes] at hlen
      exact (Nat.not_lt_zero j hlen).elim
    | cons b l =>
      rw [hbytes] at hold
      cases j with
      | zero => simpa using hend
      | succ j => simpa using hold
  · rw [TarHeader.chksum_withByte _ hfield, checksum_initHeader e.made]
    exact calculateChecksum_set_ne hlen hfield hget

theorem ends_withByte (header : TarHeader) : (header.withByte 0 0).name.head? = some 0 := by
  rw [TarHeader.head?_name]
  change (header.bytes.set 0 0).head? = some 0
  cases hbytes : header.bytes with
  | nil =>
    have hlen := header.length_bytes
    rw [hbytes] at hlen
    cases hlen
  | cons b l => rfl

theorem span_dvd (header : TarHeader) : 512 ∣ header.span := Nat.dvd_mul_left _ _

theorem not_refused_of_accepted {header : TarHeader} (h : header.Accepted) : ¬header.Refused :=
  fun hrefused => hrefused.2.elim (fun hmagic => hmagic h.2.1) fun hsum => hsum.2 h.2.2.2

section

variable (e : Entry) (hname : e.name.bytes ≠ []) {j : ℕ} (hj : j < 512) (hfield : ¬(148 ≤ j ∧ j < 156)) {v : Byte}
  (hv : e.header.bytes[j]? ≠ some v) (rest : List Byte)

include hname hj hfield hv

theorem endsBadly_withByte_iff : EndsBadly ((e.header.withByte j v).bytes ++ rest) ↔ ¬(j = 0 ∧ v = 0) := by
  rw [endsBadly_append_iff]
  by_cases hend : j = 0 ∧ v = 0
  · refine iff_of_false ?_ (not_not.mpr hend)
    have hhead := ends_withByte e.header
    rw [hend.1, hend.2]
    rintro (hrefused | haccepted)
    · exact hrefused.1 hhead
    · exact haccepted.1.1 hhead
  · exact iff_of_true (Or.inl (e.refused_withByte hname hj hfield hv hend)) hend

/-- A changed byte of a header that is reached decides; one that is read as data, or not at all,
leaves the headers as they are. -/
theorem endsBadly_set_iff {n : ℕ} {l : List Byte} (hn : l.length ≤ n) (hblock : 512 ∣ l.length) :
    EndsBadly (l ++ ((e.header.withByte j v).bytes ++ rest)) ↔
      (Reaches (l ++ (e.header.bytes ++ rest)) l.length ∧ ¬(j = 0 ∧ v = 0)) ∨
        (¬Reaches (l ++ (e.header.bytes ++ rest)) l.length ∧ EndsBadly (l ++ (e.header.bytes ++ rest))) := by
  induction n generalizing l with
  | zero =>
    obtain rfl : l = [] := List.length_eq_zero_iff.mp (Nat.le_zero.mp hn)
    have hhere : Reaches ([] ++ (e.header.bytes ++ rest)) ([] : List Byte).length := .here _
    rw [List.nil_append, endsBadly_withByte_iff e hname hj hfield hv rest]
    simp only [hhere, true_and, not_true_eq_false, false_and, or_false]
  | succ n ih =>
    by_cases hnil : l = []
    · exact ih (by rw [hnil]; exact Nat.zero_le n) hblock
    have hlong : ¬l.length < 512 := by
      have hpos := List.length_pos_iff.mpr hnil
      omega
    obtain ⟨header, l, rfl⟩ := exists_header hlong
    have hlen : (header.bytes ++ l).length = 512 + l.length := by rw [List.length_append, header.length_bytes]
    have hblock' : 512 ∣ l.length := (Nat.dvd_add_right (Nat.dvd_refl 512)).mp (hlen ▸ hblock)
    rw [hlen, List.append_assoc, List.append_assoc, endsBadly_append_iff, endsBadly_append_iff, reaches_append_iff]
    by_cases haccepted : header.Accepted
    · have hsame : (l ++ ((e.header.withByte j v).bytes ++ rest)).length = (l ++ (e.header.bytes ++ rest)).length := by
        simp only [List.length_append, TarHeader.length_bytes]
      simp only [haccepted, not_refused_of_accepted haccepted, hsame, true_and, false_or]
      by_cases hspan : header.span ≤ (l ++ (e.header.bytes ++ rest)).length
      · by_cases hin : header.span ≤ l.length
        · have hrest := ih (l := l.drop header.span) (by rw [List.length_drop]; omega)
            (by rw [List.length_drop]; exact Nat.dvd_sub hblock' (span_dvd header))
          rw [List.length_drop] at hrest
          simp only [hspan, hin, true_and, List.drop_append_of_le_length hin]
          exact hrest
        · have hdvd := Nat.dvd_sub (span_dvd header) hblock'
          have hpast : l.length + 512 ≤ header.span := by
            have hle := Nat.le_of_dvd (by omega) hdvd
            omega
          have hdrop (header' : TarHeader) :
              (l ++ (header'.bytes ++ rest)).drop header.span = rest.drop (header.span - (l.length + 512)) := by
            have hlen' : (l ++ header'.bytes).length = l.length + 512 := by
              rw [List.length_append, header'.length_bytes]
            rw [← List.append_assoc, List.drop_append, List.drop_eq_nil_of_le (by omega), List.nil_append, hlen']
          simp only [hin, hdrop, false_and, and_false, not_false_eq_true, true_and, false_or]
      · simp only [hspan, false_and, not_false_eq_true, and_false, or_false]
    · simp only [haccepted, false_and, or_false, false_or, not_false_eq_true, true_and]

end

/-! ## Archives that were created -/

/-- Where the header of the next entry begins. -/
def headerOffset (src : FileSystem) (filenames : List CString) : ℕ :=
  (filenames.map fun name => 512 + blocksOf ((src.files name).getD []).length).sum

theorem headerOffset_eq {src : FileSystem} {entries : List Entry}
    (hsrc : ∀ e ∈ entries, src.files e.name = some e.content) :
    headerOffset src (entries.map Entry.name) = (entries.flatMap Entry.bytes).length := by
  induction entries with
  | nil => rfl
  | cons e entries ih =>
    have hrest := ih fun e' he' => hsrc e' (List.mem_cons_of_mem e he')
    unfold headerOffset at hrest ⊢
    rw [List.map_cons, List.map_cons, List.sum_cons, hrest, hsrc e List.mem_cons_self, List.flatMap_cons,
      List.length_append, e.bytes_eq, List.length_append, e.header.length_bytes, e.length_data]
    rfl

theorem dvd_length_entries (entries : List Entry) : 512 ∣ (entries.flatMap Entry.bytes).length := by
  induction entries with
  | nil => exact Nat.dvd_zero 512
  | cons e entries ih =>
    rw [List.flatMap_cons, List.length_append, e.bytes_eq, List.length_append, e.header.length_bytes, e.length_data]
    exact Nat.dvd_add (Nat.dvd_add (Nat.dvd_refl 512) (Nat.dvd_mul_left _ _)) ih

theorem Entry.accepted (e : Entry) (hname : e.name.bytes ≠ []) : e.header.Accepted :=
  ⟨e.head?_name hname, magic_initHeader e.made, e.zero_mem_header, (checksum_initHeader e.made).symm⟩

/-- A header is reached when the sizes before it could be recorded. -/
theorem reaches_of_small {entries : List Entry} (hnames : ∀ e ∈ entries, e.name.bytes ≠ [])
    (hsmall : ∀ e ∈ entries, e.Small) (archive : List Byte) :
    Reaches (entries.flatMap Entry.bytes ++ archive) (entries.flatMap Entry.bytes).length := by
  induction entries with
  | nil => exact .here _
  | cons e entries ih =>
    have hspan : e.header.span = e.data.length := by
      have hsize := (size_initHeader e.made).trans (e.recorded_of_small (hsmall e List.mem_cons_self))
      rw [TarHeader.span, hsize, e.length_data]
    have hrest := ih (fun e' he' => hnames e' (List.mem_cons_of_mem e he'))
      (fun e' he' => hsmall e' (List.mem_cons_of_mem e he'))
    rw [List.flatMap_cons, e.bytes_eq, List.length_append, List.length_append, e.header.length_bytes,
      List.append_assoc, List.append_assoc, Nat.add_assoc]
    rw [reaches_append_iff, hspan, List.drop_left, Nat.add_sub_cancel_left]
    refine ⟨e.accepted (hnames e List.mem_cons_self), ?_, Nat.le_add_right _ _, hrest⟩
    rw [List.length_append]
    exact Nat.le_add_right _ _

/-- A changed byte of a header is detected when the header is reached, unless it ends the archive
there; otherwise, when the headers lead to one that is refused anyway. A header is reached when the
sizes before it could be recorded. -/
theorem detected_iff {src : FileSystem} {archiveName name : CString} {before after : List CString} {clock : ℕ → ℕ}
    {archive : List Byte} (hcreate : createArchive src archiveName (before ++ name :: after) clock = (true, archive))
    (hother : archiveName ∉ before ++ name :: after) {j : ℕ} (hj : j < 512) (hfield : ¬(148 ≤ j ∧ j < 156)) {v : Byte}
    (hv : archive[headerOffset src before + j]? ≠ some v) :
    (Detected (archive.set (headerOffset src before + j) v) ↔
      (Reaches archive (headerOffset src before) ∧ ¬(j = 0 ∧ v = 0)) ∨
        (¬Reaches archive (headerOffset src before) ∧ EndsBadly archive)) ∧
      ((∀ n ∈ before, ∀ content ∈ src.files n, content.length < 2 ^ 33) →
        Reaches archive (headerOffset src before)) := by
  obtain ⟨entries, hnames, hsrc, rfl⟩ := createArchive_eq hcreate hother
  obtain ⟨es, es', rfl, rfl, hes'⟩ := List.map_eq_append_iff.mp hnames
  obtain ⟨e, es'', rfl, rfl, rfl⟩ := List.map_eq_cons_iff.mp hes'
  have hsrc1 : ∀ d ∈ es, src.files d.name = some d.content := fun d hd => hsrc d (List.mem_append_left _ hd)
  have hname : e.name.bytes ≠ [] :=
    FileSystem.name_ne_nil (hsrc e (List.mem_append_right _ List.mem_cons_self))
  have hsplit : (es ++ e :: es'').flatMap Entry.bytes ++ List.replicate 1024 0 =
      es.flatMap Entry.bytes ++ (e.header.bytes ++ (e.data ++ (es''.flatMap Entry.bytes ++ List.replicate 1024 0))) := by
    rw [List.flatMap_append, List.flatMap_cons, e.bytes_eq]
    simp only [List.append_assoc]
  have hlt : j < e.header.bytes.length := by rw [e.header.length_bytes]; exact hj
  rw [headerOffset_eq hsrc1, hsplit, List.getElem?_append_right (Nat.le_add_right _ _), Nat.add_sub_cancel_left,
    List.getElem?_append_left hlt] at hv
  rw [headerOffset_eq hsrc1, hsplit]
  constructor
  · rw [List.set_append_right _ _ (Nat.le_add_right _ _), Nat.add_sub_cancel_left, List.set_append_left _ _ hlt,
      detected_iff_endsBadly]
    exact endsBadly_set_iff e hname hj hfield hv _ le_rfl (dvd_length_entries es)
  · intro hsmall
    refine reaches_of_small (fun d hd => FileSystem.name_ne_nil (hsrc1 d hd)) (fun d hd => ?_) _
    exact hsmall d.name (List.mem_map_of_mem hd) d.content (hsrc1 d hd)

theorem detected_iff_ab :
    Detected ((createArchive (.single (.lit "a") [0x62]) (.lit "b") [.lit "a"] fun _ => 0).2.set 0 0x63) := by
  have hcreate : createArchive (.single (.lit "a") [0x62]) (.lit "b") ([] ++ .lit "a" :: []) (fun _ => 0) =
      (true, (createArchive (.single (.lit "a") [0x62]) (.lit "b") [.lit "a"] fun _ => 0).2) := rfl
  have h := detected_iff hcreate (by decide) (j := 0) (by decide) (by decide) (v := 0x63) (by decide)
  exact h.1.mpr (Or.inl ⟨.here _, by decide⟩)

/-- The first byte of a name, set to zero, ends the archive. -/
theorem not_detected :
    (createArchive (.single (.lit "a") [0x62]) (.lit "b") [.lit "a"] fun _ => 0).1 = true ∧
      ¬Detected ((createArchive (.single (.lit "a") [0x62]) (.lit "b") [.lit "a"] fun _ => 0).2.set 0 0) := by
  have hcreate : createArchive (.single (.lit "a") [0x62]) (.lit "b") [.lit "a"] (fun _ => 0) =
      (true, (createArchive (.single (.lit "a") [0x62]) (.lit "b") [.lit "a"] fun _ => 0).2) := rfl
  refine ⟨rfl, fun h => ?_⟩
  obtain ⟨entries, hnames, -, harchive⟩ := createArchive_eq hcreate (by decide)
  obtain ⟨e, rest, rfl, -, -⟩ := List.map_eq_cons_iff.mp hnames
  have hset : (createArchive (.single (.lit "a") [0x62]) (.lit "b") [.lit "a"] fun _ => 0).2.set 0 0 =
      (e.header.withByte 0 0).bytes ++ (e.data ++ (rest.flatMap Entry.bytes ++ List.replicate 1024 0)) := by
    have hpos : 0 < e.header.bytes.length := by rw [e.header.length_bytes]; decide
    rw [harchive, List.flatMap_cons, e.bytes_eq]
    simp only [List.append_assoc]
    exact List.set_append_left _ _ hpos
  have hverdict := h .force none .fresh
  unfold extractArchive at hverdict
  rw [hset, extractLoop_step, if_pos (ends_withByte e.header)] at hverdict
  cases hverdict

end ValidcTools.Smoltar
