import ValidcTools.Fnv.Update
import ValidcTools.Batch.Script
import ValidcTools.Lib.KeyedList

/-! `fnvtest` and `fnvupdate` on one file_hash.dat: the records of the files, over all runs of both programs. -/
namespace ValidcTools.Fnv

open KeyedList

/-! ## The programs -/

/-- What a program prints, its exit status, and the file_hash.dat that it leaves, if there is one -/
structure Outcome where
  stdout : List Byte
  stderr : List Byte
  status : ℕ
  db : Option (List Byte)
deriving DecidableEq

/-- The loop over `fgets(line, sizeof(line), db)`; every turn takes a byte at least. -/
def readLines : ℕ → List Byte → List CString
  | 0, _ => []
  | n + 1, s => if s = [] then [] else .ofBytes (Batch.fgets 1023 s).1 :: readLines n (Batch.fgets 1023 s).2

def linesOf (db : List Byte) : List CString := readLines db.length db

/-- Lines written one after the other -/
def written (lines : List CString) : List Byte := lines.flatMap CString.bytes

/-- The loop of `fnvtest`: what is in the temporary file, and whether it has found the entry unchanged. The rest of the
lines is copied then, and an old entry of the file is left out else. -/
def testLoop (filename hash : List Byte) : List CString → List CString × Bool
  | [] => ([], false)
  | line :: lines =>
    match scanEntry line with
    | some e =>
      if e.filename = filename then
        if e.hash = hash then (line :: lines, true) else testLoop filename hash lines
      else (line :: (testLoop filename hash lines).1, (testLoop filename hash lines).2)
    | none => (line :: (testLoop filename hash lines).1, (testLoop filename hash lines).2)

def testHelp : List Byte :=
  (CString.lit "Usage: fnvtest [options] filename\n").bytes ++
    (CString.lit "Compute FNV-1a hash of a file and compare with file_hash.dat.\n").bytes ++
    (CString.lit "Options:\n").bytes ++ (CString.lit "  -h, --help  Display this help message\n").bytes ++
    (CString.lit "Returns 0 if hash matches stored value, 1 if changed or new (updates file_hash.dat).\n").bytes

def updateHelp : List Byte :=
  (CString.lit "Usage: fnvupdate [options]\n").bytes ++
    (CString.lit "Update file_hash.dat by recomputing FNV-1a hashes for listed files.\n").bytes ++
    (CString.lit "Options:\n").bytes ++ (CString.lit "  -h, --help  Display this help message\n").bytes ++
    (CString.lit "Updates entries if hashes change, removes entries for missing files.\n").bytes

def isHelp (arg : CString) : Bool := decide (arg = .lit "-h" ∨ arg = .lit "--help")

/-- `main` of `fnvtest` behind its options. An unchanged file_hash.dat is written over itself, from its beginning. -/
def testFile (time : List Byte) (filename : CString) (file db : Option (List Byte)) : Outcome :=
  let currentHash := fnv1aHashFile file
  if currentHash = 0 then
    ⟨[], (CString.lit "Error: Cannot open file '").bytes ++ filename.bytes ++ (CString.lit "'\n").bytes, 1, db⟩
  else
    let old := db.getD []
    match testLoop filename.bytes (hashString currentHash) (linesOf old) with
    | (temp, true) => ⟨[], [], 0, some (written temp ++ old.drop (written temp).length)⟩
    | (temp, false) => ⟨[], [], 1, some (written (temp ++ [entryLine ⟨filename.bytes, hashString currentHash, time⟩]))⟩

/-- The options of `fnvtest`, with the file name so far -/
def testArgs (time : List Byte) (files : List Byte → Option (List Byte)) (db : Option (List Byte)) :
    Option CString → List CString → Outcome
  | none, [] => ⟨[], [], 1, db⟩
  | some filename, [] => testFile time filename (files filename.bytes) db
  | filename, arg :: args =>
    if isHelp arg then ⟨testHelp, [], 0, db⟩
    else if filename.isNone then testArgs time files db (some arg) args
    else ⟨testHelp, (CString.lit "Error: Too many arguments\n").bytes, 1, db⟩

/-- `main` of `fnvtest`, given its arguments, what `fopen` gives of the files, and the time -/
def fnvtest (time : List Byte) (files : List Byte → Option (List Byte)) (db : Option (List Byte)) (args : List CString) :
    Outcome :=
  if args = [] then ⟨testHelp, (CString.lit "Error: No filename provided\n").bytes, 1, db⟩ else testArgs time files db none args

/-- `main` of `fnvupdate`; an argument ends it. -/
def fnvupdate (time : List Byte) (files : List Byte → Option (List Byte)) (db : Option (List Byte)) : List CString → Outcome
  | arg :: _ =>
    if isHelp arg then ⟨updateHelp, [], 0, db⟩
    else ⟨updateHelp, (CString.lit "Error: Unexpected argument '").bytes ++ arg.bytes ++ (CString.lit "'\n").bytes, 1, db⟩
  | [] =>
    match db with
    | none => ⟨[], (CString.lit "Error: Cannot open file_hash.dat (may not exist)\n").bytes, 1, none⟩
    | some old =>
      let modified := (linesOf old).any fun line => decide (updateLine files time line ≠ some line)
      ⟨[], [], 0, some (if modified then written (update files time (linesOf old)) else old)⟩

/-! ## The records -/

/-- A run of one of the programs, with the files as it finds them and the time -/
inductive Step
  | test (filename : CString) (files : List Byte → Option (List Byte)) (time : List Byte)
  | update (files : List Byte → Option (List Byte)) (time : List Byte)

def Step.run (db : Option (List Byte)) : Step → Outcome
  | .test filename files time => fnvtest time files db [filename]
  | .update files time => fnvupdate time files db []

/-- The runs one after the other: the exit statuses, and the file_hash.dat at the end -/
def runs (db : Option (List Byte)) : List Step → List ℕ × Option (List Byte)
  | [] => ([], db)
  | step :: steps => ((step.run db).status :: (runs (step.run db).db steps).1, (runs (step.run db).db steps).2)

/-- The hash on record for each file -/
abbrev Record := List Byte → Option UInt32

/-- A file is unchanged when its hash is the one on record, and an update forgets the files that are gone. Nothing is on
record before the first test. -/
def Step.record (r : Option Record) : Step → ℕ × Option Record
  | .test filename files _ =>
    let hash := fnv1aHashFile (files filename.bytes)
    let known := r.getD fun _ => none
    if hash = 0 then (1, r)
    else (if known filename.bytes = some hash then 0 else 1, some (Function.update known filename.bytes (some hash)))
  | .update files _ =>
    match r with
    | none => (1, none)
    | some known => (0, some fun name => (known name).bind fun _ =>
        let hash := fnv1aHashFile (files name)
        if hash = 0 then none else some hash)

def records (r : Option Record) : List Step → List ℕ × Option Record
  | [] => ([], r)
  | step :: steps => ((step.record r).1 :: (records (step.record r).2 steps).1, (records (step.record r).2 steps).2)

/-- A name that is read back as it is written -/
structure NameOk (name : List Byte) : Prop where
  nonempty : name ≠ []
  short : name.length ≤ 511
  plain : ∀ c ∈ name, c ≠ 0 ∧ c ≠ 0x22 ∧ c ≠ 0x0A

/-- A time that is read back as it is written, such as those of `get_iso_time` -/
structure TimeOk (time : List Byte) : Prop where
  nonempty : time ≠ []
  short : time.length ≤ 19
  plain : ∀ c ∈ time, c ≠ 0 ∧ isSpace c = false

/-- No name is taken for an option. -/
def Step.Regular : Step → Prop
  | .test filename _ time => isHelp filename = false ∧ NameOk filename.bytes ∧ TimeOk time
  | .update _ time => TimeOk time

/-! ## Entries read back -/

theorem fgets_line {n : ℕ} {l : List Byte} (r : List Byte) (h : ∀ c ∈ l, c ≠ 0x0A) (hn : l.length < n) :
    Batch.fgets n (l ++ 0x0A :: r) = (l ++ [0x0A], r) := by
  induction l generalizing n with
  | nil =>
    cases n with
    | zero => cases hn
    | succ n => exact if_pos rfl
  | cons c l ih =>
    cases n with
    | zero => cases hn
    | succ n =>
      have hc : ¬ c = (('\n' : Char) : Byte) := h c List.mem_cons_self
      rw [List.cons_append, Batch.fgets, if_neg hc, ih (fun d hd => h d (List.mem_cons_of_mem c hd)) (Nat.lt_of_succ_lt_succ hn)]
      rfl

/-- A line that `fgets` reads as a whole -/
def IsLine (line : CString) : Prop := ∃ l, line.bytes = l ++ [0x0A] ∧ (∀ c ∈ l, c ≠ 0x0A) ∧ l.length < 1023

theorem readLines_written {lines : List CString} (h : ∀ line ∈ lines, IsLine line) {n : ℕ}
    (hn : (written lines).length ≤ n) : readLines n (written lines) = lines := by
  induction lines generalizing n with
  | nil => cases n <;> rfl
  | cons line lines ih =>
    obtain ⟨l, hl, hplain, hshort⟩ := h line List.mem_cons_self
    have hbytes : written (line :: lines) = l ++ 0x0A :: written lines := by
      rw [written, List.flatMap_cons, hl, List.append_assoc]
      rfl
    rw [hbytes, List.length_append, List.length_cons] at hn
    cases n with
    | zero => omega
    | succ n =>
      rw [readLines, hbytes, if_neg (List.append_ne_nil_of_right_ne_nil l (List.cons_ne_nil _ _)), fgets_line _ hplain hshort]
      have hline : CString.ofBytes (l ++ [0x0A]) = line := by
        ext1
        rw [← hl, CString.ofBytes_bytes_of_nulFree line.nulFree]
      rw [hline, ih (fun line hline => h line (List.mem_cons_of_mem _ hline)) (by omega)]

theorem linesOf_written {lines : List CString} (h : ∀ line ∈ lines, IsLine line) : linesOf (written lines) = lines :=
  readLines_written h le_rfl

theorem length_hashString (hash : UInt32) : (hashString hash).length = 8 := rfl

theorem hexDigit_plain {n : ℕ} (h : n < 16) : hexDigit n ≠ 0 ∧ isSpace (hexDigit n) = false := by
  have hall : ∀ n < 16, hexDigit n ≠ 0 ∧ isSpace (hexDigit n) = false := by decide
  exact hall n h

theorem hexDigit_injective {m n : ℕ} (hm : m < 16) (hn : n < 16) (h : hexDigit m = hexDigit n) : m = n := by
  have hall : ∀ m < 16, ∀ n < 16, hexDigit m = hexDigit n → m = n := by decide
  exact hall m hm n hn h

theorem hashString_plain (hash : UInt32) : ∀ c ∈ hashString hash, c ≠ 0 ∧ isSpace c = false := by
  intro c hc
  obtain ⟨k, -, rfl⟩ := List.mem_map.mp hc
  exact hexDigit_plain (Nat.mod_lt _ (by decide))

theorem hashString_injective {h h' : UInt32} (heq : hashString h = hashString h') : h = h' := by
  have hdigit (k : ℕ) (hk : k ∈ [28, 24, 20, 16, 12, 8, 4, 0]) : h.toNat / 2 ^ k % 16 = h'.toNat / 2 ^ k % 16 :=
    hexDigit_injective (Nat.mod_lt _ (by decide)) (Nat.mod_lt _ (by decide)) (List.map_inj_left.mp heq k hk)
  have hlt := h.toNat_lt
  have hlt' := h'.toNat_lt
  have h0 := hdigit 0 (by decide)
  have h4 := hdigit 4 (by decide)
  have h8 := hdigit 8 (by decide)
  have h12 := hdigit 12 (by decide)
  have h16 := hdigit 16 (by decide)
  have h20 := hdigit 20 (by decide)
  have h24 := hdigit 24 (by decide)
  have h28 := hdigit 28 (by decide)
  exact UInt32.toNat_inj.mp (by omega)

/-- An entry as the programs write it -/
structure Entry.Regular (e : Entry) : Prop where
  filename : NameOk e.filename
  hash : ∃ hash, e.hash = hashString hash
  time : TimeOk e.time

/-- A word between a blank and a white space -/
theorem scanString_word {width : ℕ} {w : List Byte} (hw : w ≠ []) (hwidth : w.length ≤ width)
    (hplain : ∀ c ∈ w, isSpace c = false) {d : Byte} (hd : isSpace d = true) (r : List Byte) :
    scanString width (0x20 :: (w ++ d :: r)) = some (w, d :: r) := by
  obtain ⟨c, w, rfl⟩ := List.exists_cons_of_ne_nil hw
  have hblank : isSpace 0x20 = true := by decide
  have hdrop : (0x20 :: (c :: w ++ d :: r)).dropWhile isSpace = c :: w ++ d :: r := by
    rw [List.dropWhile_cons_of_pos hblank, List.cons_append, List.dropWhile_cons_of_neg]
    rw [hplain c List.mem_cons_self]
    exact Bool.false_ne_true
  have htake : (c :: w ++ d :: r).takeWhile (fun c => !isSpace c) = c :: w := by
    rw [List.takeWhile_append_of_pos fun b hb => by rw [hplain b hb, Bool.not_false], List.takeWhile_cons_of_neg (by rw [hd]; decide),
      List.append_nil]
  rw [scanString, hdrop, htake, List.take_of_length_le hwidth, if_neg hw, List.drop_left]

section
variable {e : Entry} (h : e.Regular)
include h

theorem Entry.Regular.bytes_eq : (entryLine e).bytes =
    0x22 :: (e.filename ++ 0x22 :: 0x20 :: (e.hash ++ 0x20 :: (e.time ++ [0x0A]))) := by
  rw [entryLine, CString.ofBytes_bytes_of_nulFree]
  · simp
  · obtain ⟨hash, hhash⟩ := h.hash
    intro hmem
    simp only [List.mem_append, List.mem_cons, List.not_mem_nil, or_false] at hmem
    rcases hmem with ((((hmem | hmem) | hmem | hmem) | hmem) | hmem | hmem) | hmem
    · exact absurd hmem (by decide)
    · exact (h.filename.plain 0 hmem).1 rfl
    · exact absurd hmem (by decide)
    · exact absurd hmem (by decide)
    · exact (hashString_plain hash 0 (hhash ▸ hmem)).1 rfl
    · exact absurd hmem (by decide)
    · exact (h.time.plain 0 hmem).1 rfl
    · exact absurd hmem (by decide)

theorem Entry.Regular.isLine : IsLine (entryLine e) := by
  obtain ⟨hash, hhash⟩ := h.hash
  refine ⟨0x22 :: (e.filename ++ 0x22 :: 0x20 :: (e.hash ++ 0x20 :: e.time)), ?_, fun c hc => ?_, ?_⟩
  · rw [h.bytes_eq]
    simp
  · simp only [List.mem_append, List.mem_cons] at hc
    rcases hc with rfl | hc | rfl | rfl | hc | rfl | hc
    · decide
    · exact (h.filename.plain c hc).2.2
    · decide
    · decide
    · rintro rfl
      exact absurd (hashString_plain hash _ (hhash ▸ hc)).2 (by decide)
    · decide
    · rintro rfl
      exact absurd (h.time.plain _ hc).2 (by decide)
  · have hname := h.filename.short
    have htime := h.time.short
    have hlength : e.hash.length = 8 := by rw [hhash, length_hashString]
    simp only [List.length_cons, List.length_append]
    omega

theorem Entry.Regular.scanEntry_eq : scanEntry (entryLine e) = some e := by
  obtain ⟨hash, hhash⟩ := h.hash
  have hname : (e.filename ++ 0x22 :: 0x20 :: (e.hash ++ 0x20 :: (e.time ++ [0x0A]))).takeWhile (fun c => decide (c ≠ 0x22)) =
      e.filename := by
    rw [List.takeWhile_append_of_pos fun b hb => decide_eq_true (h.filename.plain b hb).2.1,
      List.takeWhile_cons_of_neg (by decide), List.append_nil]
  have hshort : e.filename.take 511 = e.filename := List.take_of_length_le h.filename.short
  have hdrop : (e.filename ++ 0x22 :: 0x20 :: (e.hash ++ 0x20 :: (e.time ++ [0x0A]))).drop e.filename.length =
      0x22 :: 0x20 :: (e.hash ++ 0x20 :: (e.time ++ [0x0A])) := List.drop_left
  have hfields : (e.filename ++ 0x22 :: 0x20 :: (e.hash ++ 0x20 :: (e.time ++ [0x0A]))).drop (e.filename.length + 1) =
      0x20 :: (e.hash ++ 0x20 :: (e.time ++ [0x0A])) := by
    rw [← List.drop_drop, hdrop]
    rfl
  have hlength : e.hash.length = 8 := by rw [hhash, length_hashString]
  have hhashne : e.hash ≠ [] := by
    rw [← List.length_pos_iff, hlength]
    decide
  rw [scanEntry, h.bytes_eq]
  dsimp only
  rw [hname, hshort, hdrop, hfields, if_neg (by simp [h.filename.nonempty]),
    scanString_word hhashne hlength.le (fun c hc => (hashString_plain hash c (hhash ▸ hc)).2) (by decide), Option.bind_some,
    scanString_word h.time.nonempty h.time.short (fun c hc => (h.time.plain c hc).2) (by decide), Option.map_some]

end

/-! ## One run -/

/-- What file_hash.dat says of the files: one entry for each that is on record -/
def Represents (db : List Byte) (r : Record) : Prop :=
  ∃ entries : List Entry, db = written (entries.map entryLine) ∧ (∀ e ∈ entries, e.Regular) ∧ Distinct Entry.filename entries ∧
    ∀ name, (find Entry.filename entries name).map Entry.hash = (r name).map hashString

/-- There is a file_hash.dat exactly if there is a record, and it represents it. -/
def Agrees (db : Option (List Byte)) (r : Option Record) : Prop := Option.Rel Represents db r

section
variable {entries : List Entry} {name hash : List Byte}

theorem linesOf_entries (h : ∀ e ∈ entries, e.Regular) : linesOf (written (entries.map entryLine)) = entries.map entryLine := by
  refine linesOf_written fun line hline => ?_
  obtain ⟨e, he, rfl⟩ := List.mem_map.mp hline
  exact (h e he).isLine

/-- The entry is found unchanged: everything is copied. -/
theorem testLoop_unchanged (h : ∀ e ∈ entries, e.Regular) {e : Entry} (hfind : find Entry.filename entries name = some e)
    (hsame : e.hash = hash) : testLoop name hash (entries.map entryLine) = (entries.map entryLine, true) := by
  induction entries with
  | nil => cases hfind
  | cons d entries ih =>
    rw [List.map_cons, testLoop, (h d List.mem_cons_self).scanEntry_eq]
    dsimp only
    rw [find, List.find?_cons] at hfind
    by_cases hname : d.filename = name
    · rw [decide_eq_true hname] at hfind
      cases hfind
      rw [if_pos hname, if_pos hsame]
    · rw [decide_eq_false hname] at hfind
      rw [if_neg hname, ih (fun e he => h e (List.mem_cons_of_mem d he)) hfind]

/-- No entry is found unchanged: the old one is left out. -/
theorem testLoop_changed (h : ∀ e ∈ entries, e.Regular) (hold : ∀ e ∈ entries, e.filename = name → e.hash ≠ hash) :
    testLoop name hash (entries.map entryLine) = ((entries.filter fun e => decide (e.filename ≠ name)).map entryLine, false) := by
  induction entries with
  | nil => rfl
  | cons d entries ih =>
    have ih := ih (fun e he => h e (List.mem_cons_of_mem d he)) fun e he => hold e (List.mem_cons_of_mem d he)
    rw [List.map_cons, testLoop, (h d List.mem_cons_self).scanEntry_eq]
    dsimp only
    by_cases hname : d.filename = name
    · rw [if_pos hname, if_neg (hold d List.mem_cons_self hname), ih, List.filter_cons_of_neg (by simp [hname])]
    · rw [if_neg hname, ih, List.filter_cons_of_pos (by simp [hname]), List.map_cons]

/-- The record of a file is replaced, or made. -/
theorem represents_test {r : Record} {time : List Byte} {current : UInt32} (h : ∀ e ∈ entries, e.Regular)
    (hdistinct : Distinct Entry.filename entries)
    (hfind : ∀ name, (find Entry.filename entries name).map Entry.hash = (r name).map hashString) (hname : NameOk name)
    (htime : TimeOk time) :
    Represents (written ((entries.filter fun e => decide (e.filename ≠ name)).map entryLine ++
      [entryLine ⟨name, hashString current, time⟩])) (Function.update r name (some current)) := by
  have hnone : find Entry.filename (entries.filter fun e => decide (e.filename ≠ name)) name = none := by
    refine find_eq_none_iff.mpr fun e he => ?_
    exact of_decide_eq_true (List.mem_filter.mp he).2
  have hfilter : Distinct Entry.filename (entries.filter fun e => decide (e.filename ≠ name)) :=
    hdistinct.sublist (List.filter_sublist.map _)
  refine ⟨(entries.filter fun e => decide (e.filename ≠ name)) ++ [⟨name, hashString current, time⟩], ?_, fun e he => ?_,
    hfilter.push (find_eq_none_iff.mp hnone), fun k => ?_⟩
  · rw [List.map_append, List.map_singleton]
  · rw [List.mem_append, List.mem_singleton] at he
    cases he with
    | inl he => exact h e (List.mem_filter.mp he).1
    | inr he =>
      subst he
      exact ⟨hname, ⟨current, rfl⟩, htime⟩
  · rw [find_push hnone]
    by_cases hk : name = k
    · subst hk
      rw [if_pos rfl, Function.update_self]
      rfl
    · have hother : find Entry.filename (entries.filter fun e => decide (e.filename ≠ name)) k = find Entry.filename entries k := by
        rw [find, find, List.find?_filter]
        refine List.find?_congr fun e _ => ?_
        by_cases hek : e.filename = k
        · simp [hek, Ne.symm hk]
        · simp [hek]
      rw [if_neg hk, hother, Function.update_of_ne (Ne.symm hk), hfind]

/-- What an update makes of an entry, if it keeps it -/
def updateEntry (files : List Byte → Option (List Byte)) (time : List Byte) (e : Entry) : Option Entry :=
  let hash := fnv1aHashFile (files e.filename)
  if hash = 0 then none else if e.hash = hashString hash then some e else some ⟨e.filename, hashString hash, time⟩

section
variable {files : List Byte → Option (List Byte)} {time : List Byte}

theorem updateLine_entryLine {e : Entry} (h : e.Regular) :
    updateLine files time (entryLine e) = (updateEntry files time e).map entryLine := by
  rw [updateLine, h.scanEntry_eq, updateEntry]
  dsimp only
  split_ifs <;> rfl

/-- An entry that is kept names its file still. -/
theorem updateEntry_filename {d e : Entry} (h : updateEntry files time d = some e) : e.filename = d.filename := by
  rw [updateEntry] at h
  split_ifs at h with hzero hsame
  · cases h
    rfl
  · cases h
    rfl

theorem updateEntry_regular {d e : Entry} (hd : d.Regular) (htime : TimeOk time) (h : updateEntry files time d = some e) :
    e.Regular := by
  rw [updateEntry] at h
  split_ifs at h with hzero hsame
  · cases h
    exact hd
  · cases h
    exact ⟨hd.filename, ⟨_, rfl⟩, htime⟩

/-- Whether the entry is changed or not, it ends with the hash of the file. -/
theorem updateEntry_hash (e : Entry) : (updateEntry files time e).map Entry.hash =
    (if fnv1aHashFile (files e.filename) = 0 then none else some (fnv1aHashFile (files e.filename))).map hashString := by
  rw [updateEntry]
  split_ifs with hzero hsame
  · rfl
  · exact congrArg some hsame
  · rfl

variable {entries : List Entry}

theorem filterMap_updateLine (h : ∀ e ∈ entries, e.Regular) :
    (entries.map entryLine).filterMap (updateLine files time) = (entries.filterMap (updateEntry files time)).map entryLine := by
  rw [List.filterMap_map, List.map_filterMap]
  exact List.filterMap_congr fun e he => updateLine_entryLine (h e he)

/-- Each record is brought up to date, or forgotten. -/
theorem represents_update {r : Record} (h : ∀ e ∈ entries, e.Regular) (hdistinct : Distinct Entry.filename entries)
    (hfind : ∀ name, (find Entry.filename entries name).map Entry.hash = (r name).map hashString) (htime : TimeOk time) :
    Represents (written ((entries.filterMap (updateEntry files time)).map entryLine)) fun name => (r name).bind fun _ =>
      if fnv1aHashFile (files name) = 0 then none else some (fnv1aHashFile (files name)) := by
  have hkey : ∀ d e, updateEntry files time d = some e → e.filename = d.filename := fun _ _ => updateEntry_filename
  refine ⟨entries.filterMap (updateEntry files time), rfl, fun e he => ?_, hdistinct.filterMap hkey, fun name => ?_⟩
  · obtain ⟨d, hd, hde⟩ := List.mem_filterMap.mp he
    exact updateEntry_regular (h d hd) htime hde
  · have hname := hfind name
    rw [find_filterMap hkey hdistinct]
    beta_reduce
    cases hentry : find Entry.filename entries name with
    | none =>
      rw [hentry, Option.map_none] at hname
      rw [Option.map_eq_none_iff.mp hname.symm]
      rfl
    | some e =>
      rw [hentry, Option.map_some] at hname
      obtain ⟨hash, hhash, -⟩ := Option.map_eq_some_iff.mp hname.symm
      rw [hhash, Option.bind_some, Option.bind_some, updateEntry_hash, (find_eq_some hentry).2]

end

end

/-! ## All runs -/

/-- One test answers as the record does, and keeps it as the record is kept. -/
theorem testFile_agrees {db : Option (List Byte)} {r : Option Record} (h : Agrees db r) {filename : CString}
    (hname : NameOk filename.bytes) {time : List Byte} (htime : TimeOk time) (files : List Byte → Option (List Byte)) :
    (testFile time filename (files filename.bytes) db).status = (Step.record r (.test filename files time)).1 ∧
      Agrees (testFile time filename (files filename.bytes) db).db (Step.record r (.test filename files time)).2 := by
  obtain ⟨entries, hdb, hentries, hdistinct, hfind⟩ : Represents (db.getD []) (r.getD fun _ => none) := by
    cases h with
    | some h => exact h
    | none => exact ⟨[], rfl, List.forall_mem_nil _, List.nodup_nil, fun name => rfl⟩
  unfold testFile Step.record
  dsimp only
  by_cases hzero : fnv1aHashFile (files filename.bytes) = 0
  · rw [if_pos hzero, if_pos hzero]
    exact ⟨rfl, h⟩
  rw [if_neg hzero, if_neg hzero, hdb, linesOf_entries hentries]
  by_cases hsame : (r.getD fun _ => none) filename.bytes = some (fnv1aHashFile (files filename.bytes))
  · have hstored := hfind filename.bytes
    rw [hsame, Option.map_some] at hstored
    obtain ⟨e, he, hhash⟩ := Option.map_eq_some_iff.mp hstored
    rw [testLoop_unchanged hentries he hhash, if_pos hsame]
    dsimp only
    -- the file is written over with what it holds
    rw [List.drop_length, List.append_nil, Function.update_eq_self_iff.mpr hsame.symm]
    exact ⟨rfl, .some ⟨entries, rfl, hentries, hdistinct, hfind⟩⟩
  · have hold : ∀ e ∈ entries, e.filename = filename.bytes → e.hash ≠ hashString (fnv1aHashFile (files filename.bytes)) := by
      intro e he hkey hhash
      have hstored := hfind filename.bytes
      rw [(find_eq_some_iff hdistinct).mpr ⟨he, hkey⟩, Option.map_some, hhash] at hstored
      obtain ⟨hash, hknown, hstring⟩ := Option.map_eq_some_iff.mp hstored.symm
      exact hsame (hknown.trans (congrArg some (hashString_injective hstring)))
    rw [testLoop_changed hentries hold, if_neg hsame]
    exact ⟨rfl, .some (represents_test hentries hdistinct hfind hname htime)⟩

theorem fnvupdate_agrees {db : Option (List Byte)} {r : Option Record} (h : Agrees db r) {time : List Byte} (htime : TimeOk time)
    (files : List Byte → Option (List Byte)) :
    (fnvupdate time files db []).status = (Step.record r (.update files time)).1 ∧
      Agrees (fnvupdate time files db []).db (Step.record r (.update files time)).2 := by
  cases h with
  | none => exact ⟨rfl, .none⟩
  | @some old known h =>
    obtain ⟨entries, rfl, hentries, hdistinct, hfind⟩ := h
    refine ⟨rfl, .some ?_⟩
    -- where nothing is modified, the lines are those that would be written
    have hwritten : (if (linesOf (written (entries.map entryLine))).any fun line => decide (updateLine files time line ≠ some line)
        then written (update files time (linesOf (written (entries.map entryLine)))) else written (entries.map entryLine)) =
        written ((entries.filterMap (updateEntry files time)).map entryLine) := by
      rw [linesOf_entries hentries, ← filterMap_updateLine hentries, ← update_eq]
      unfold update
      dsimp only
      split_ifs <;> rfl
    rw [hwritten]
    exact represents_update hentries hdistinct hfind htime

theorem Step.run_agrees {db : Option (List Byte)} {r : Option Record} (h : Agrees db r) {step : Step} (hstep : step.Regular) :
    (step.run db).status = (step.record r).1 ∧ Agrees (step.run db).db (step.record r).2 := by
  cases step with
  | test filename files time =>
    obtain ⟨hhelp, hname, htime⟩ := hstep
    have hargs : fnvtest time files db [filename] = testFile time filename (files filename.bytes) db := by
      rw [fnvtest, if_neg (List.cons_ne_nil _ _), testArgs, hhelp, if_neg Bool.false_ne_true]
      rfl
    rw [Step.run, hargs]
    exact testFile_agrees h hname htime files
  | update files time => exact fnvupdate_agrees h hstep files

theorem runs_agree {db : Option (List Byte)} {r : Option Record} (h : Agrees db r) {steps : List Step}
    (hsteps : ∀ step ∈ steps, step.Regular) :
    (runs db steps).1 = (records r steps).1 ∧ Agrees (runs db steps).2 (records r steps).2 := by
  induction steps generalizing db r with
  | nil => exact ⟨rfl, h⟩
  | cons step steps ih =>
    obtain ⟨hstatus, hagrees⟩ := step.run_agrees h (hsteps step List.mem_cons_self)
    obtain ⟨hstatuses, hend⟩ := ih hagrees fun step hstep => hsteps step (List.mem_cons_of_mem _ hstep)
    rw [runs, records]
    exact ⟨by rw [hstatus, hstatuses], hend⟩

end ValidcTools.Fnv
