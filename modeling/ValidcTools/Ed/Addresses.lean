import ValidcTools.Ed.Prefix

/-! `parse_address` against `parse_ed_address`, on strings that are one address. -/
namespace ValidcTools.Ed

structure Digits where
  bytes : List Byte
  digits : ∀ c ∈ bytes, isDigit c = true

/-- `+n` or `-n`. -/
structure Offset where
  minus : Bool
  digits : Digits

/-- The addresses of `ed`, as they are written. -/
inductive AddressForm
  | number (ds : Digits) (nonempty : ds.bytes ≠ [])
  | current
  | last
  | relative (offset : Offset)
  | mark (i : Fin 26)
  /-- `/re/` and `?re?` -/
  | search (forward : Bool) (re : List Byte)
    (noDelim : (if forward then ('/' : Char) else ('?' : Char) : Byte) ∉ re) (offset : Option Offset)

def signByte (minus : Bool) : Byte := if minus then ('-' : Char) else ('+' : Char)

def delimByte (forward : Bool) : Byte := if forward then ('/' : Char) else ('?' : Char)

def Offset.text (o : Offset) : List Byte := signByte o.minus :: o.digits.bytes

def AddressForm.text : AddressForm → List Byte
  | number ds _ => ds.bytes
  | current => ['.']
  | last => ['$']
  | relative o => o.text
  | mark i => [('\'' : Char), ('a' : Char) + UInt8.ofNat i]
  | search forward re _ offset =>
    delimByte forward :: re ++ delimByte forward :: (offset.map Offset.text).getD []

/-- The signed number of lines that an offset names. -/
def Offset.value (o : Offset) : ℤ := (if o.minus then -1 else 1) * digitsValue 0 o.digits.bytes

/-- Both parsers name the same line, or neither names one. -/
def ParsersAgree (ed : Editor) (s : List Byte) : Prop :=
  ∀ k : ℤ, 0 ≤ k →
    (ed.parseAddress s = .ok k ↔
      ∃ a, parseEdAddress s ed.current1 ed.numLines ed.marks = some a ∧ a.addr1 = k + 1 ∧ a.rest = [])

/-- A search that names a line: one matches, and the offset stays in the buffer. -/
def AddressForm.Finds (ed : Editor) : AddressForm → Prop
  | search forward re _ offset =>
    ∃ found, ed.searchPattern re forward = .ok found ∧ found ≠ 0 ∧
      ∀ o ∈ offset, digitsValue 0 o.digits.bytes ≤ intMax ∧ 1 ≤ found + o.value ∧
        found + o.value ≤ ed.numLines
  | _ => False

/-! ## Addresses without a search -/

theorem addr1_of_rest_ne_nil {addr1 current lastLine : ℤ} {marks : Marks} {d : Byte} {t : List Byte}
    (hd : isDigit d = true) :
    parseSecondAddress addr1 (d :: t) current lastLine marks =
      some { addr1, addr2 := addr1, rest := d :: t } := by
  have hblank : isBlank d = false := by
    apply decide_eq_false
    rintro (h | h)
    · exact isDigit_ne hd (by decide) h
    · exact isDigit_ne hd (by decide) h
  unfold parseSecondAddress
  rw [skipBlanks_of_not_isBlank hblank]
  dsimp only
  rw [if_neg (isDigit_ne hd (by decide))]

/-- The parsers agree where the primitive they share reads the whole string, or 0. -/
theorem parsersAgree_of_one {ed : Editor} {c : Byte} {cs r : List Byte} {x : Address}
    (hblank : isBlank c = false) (hhash : c ≠ '#') (hslash : c ≠ '/') (hquestion : c ≠ '?')
    (hcomma : c ≠ ',')
    (hone : parseOneAddress (c :: cs) ed.current1 ed.numLines ed.marks = (x, r))
    (hx : ∀ a, x = .line a → r = [] ∨ (a = 0 ∧ ∃ d t, r = d :: t ∧ isDigit d = true)) :
    ParsersAgree ed (c :: cs) := by
  intro k hk
  unfold Editor.parseAddress parseEdAddress
  rw [skipBlanks_of_not_isBlank hblank]
  simp only [hslash, hquestion, hhash, reduceCtorEq, List.head?_cons, Option.some.injEq, or_self, if_false,
    hone]
  cases x with
  | none =>
    obtain rfl := parseOneAddress_none hone
    simp only [List.head?_cons, Option.some.injEq, hcomma, if_false]
    constructor
    · intro h
      have := Except.ok.inj h
      omega
    · rintro ⟨a, ha, -, hrest⟩
      rw [← ha] at hrest
      cases hrest
  | error =>
    constructor
    · intro h
      have := Except.ok.inj h
      omega
    · rintro ⟨a, ha, -, -⟩
      cases ha
  | line a =>
    obtain ⟨hlo, hhi⟩ := parseOneAddress_bounds hone
    dsimp only
    rcases hx a rfl with rfl | ⟨rfl, d, t, rfl, hd⟩
    · have hsecond : parseSecondAddress a [] ed.current1 ed.numLines ed.marks =
          some { addr1 := a, addr2 := a, rest := [] } := rfl
      rw [hsecond]
      constructor
      · intro h
        refine ⟨_, rfl, ?_, rfl⟩
        split_ifs at h with hn
        · have := Except.ok.inj h
          omega
        · have := Except.ok.inj h
          dsimp only
          omega
      · rintro ⟨a', ha', haddr1, -⟩
        rw [← Option.some.inj ha'] at haddr1
        dsimp only at haddr1
        rw [if_neg (by omega)]
        exact congrArg Except.ok (by omega)
    · rw [addr1_of_rest_ne_nil hd]
      constructor
      · intro h
        have := Except.ok.inj (h.symm.trans (if_pos (Or.inl rfl)))
        omega
      · rintro ⟨a', ha', -, hrest⟩
        rw [← Option.some.inj ha'] at hrest
        cases hrest

theorem dropWhile_isDigit {ds : List Byte} (h : ∀ c ∈ ds, isDigit c = true) :
    ds.dropWhile isDigit = [] := List.dropWhile_eq_nil_iff.mpr h

/-- A number is read whole, but for `0`, which is read alone. -/
theorem parsersAgree_number (ed : Editor) (ds : Digits) (hne : ds.bytes ≠ []) :
    ParsersAgree ed ds.bytes := by
  obtain ⟨bytes, hds⟩ := ds
  cases bytes with
  | nil => exact absurd rfl hne
  | cons d t =>
    have hd : isDigit d = true := hds d List.mem_cons_self
    have ht : ∀ c ∈ t, isDigit c = true := fun c hc => hds c (List.mem_cons_of_mem d hc)
    have hblank : isBlank d = false := by
      apply decide_eq_false
      rintro (h | h)
      · exact isDigit_ne hd (by decide) h
      · exact isDigit_ne hd (by decide) h
    cases hone : parseOneAddress (d :: t) ed.current1 ed.numLines ed.marks with
    | mk x r =>
      refine parsersAgree_of_one hblank (isDigit_ne hd (by decide)) (isDigit_ne hd (by decide))
        (isDigit_ne hd (by decide)) (isDigit_ne hd (by decide)) hone ?_
      rintro a rfl
      obtain ⟨c, cs, heq, -, offset, p, base, r', hnum, hbase, hoff⟩ := parseOneAddress_line hone
      obtain ⟨rfl, rfl⟩ := List.cons.inj heq
      obtain ⟨hval, -, -, rfl⟩ := applyOffset_line hoff
      have hsign : isSign d = false := isSign_of_isDigit hd
      rw [hsign] at hnum hbase hval
      obtain ⟨-, rfl⟩ := Prod.mk.inj (Option.some.inj hnum)
      simp only [parseBase] at hbase
      rw [if_neg (isDigit_ne hd (by decide)), if_neg (isDigit_ne hd (by decide)),
        dropWhile_isDigit ht] at hbase
      split_ifs at hbase with hzero
      · obtain ⟨hb, rfl⟩ := Prod.mk.inj hbase
        rw [← Address.line.inj hb] at hval
        cases t with
        | nil => exact Or.inl rfl
        | cons e es => exact Or.inr ⟨hval, e, es, rfl, ht e List.mem_cons_self⟩
      · left
        cases hp : parseDigits 0 (d :: t) with
        | none =>
          rw [hp] at hbase
          cases (Prod.mk.inj hbase).1
        | some v =>
          have hall : (d :: t).all isDigit = true := List.all_eq_true.mpr hds
          rw [hp] at hbase
          obtain ⟨-, rfl⟩ := Prod.mk.inj hbase
          exact (all_isDigit_iff hp).mp hall

theorem isSign_signByte (minus : Bool) : isSign (signByte minus) = true := by
  cases minus <;> decide

/-- What `+n` and `-n` are read as. -/
theorem parseOneAddress_offset (o : Offset) (current lastLine : ℤ) (marks : Marks) :
    parseOneAddress o.text current lastLine marks =
      if digitsValue 0 o.digits.bytes ≤ intMax ∧ 0 ≤ current + o.value ∧ current + o.value ≤ lastLine then
        (.line (current + o.value), [])
      else (.error, o.text) := by
  have hstop : ¬ (signByte o.minus = ',' ∨ signByte o.minus = ';' ∨ signByte o.minus = '\n' ∨
      isSpace (signByte o.minus) = true) := by
    cases o.minus <;> decide
  have hvalue : (if signByte o.minus = '-' then (-1 : ℤ) else 1) * digitsValue 0 o.digits.bytes =
      o.value := by
    unfold Offset.value
    cases o.minus <;> rfl
  unfold parseOneAddress Offset.text
  dsimp only
  rw [if_neg hstop, isSign_signByte, if_pos rfl, parseDigits_eq o.digits.digits le_rfl (by decide)]
  by_cases hmax : digitsValue 0 o.digits.bytes ≤ intMax
  · rw [if_pos hmax]
    simp only [parseBase, applyOffset, if_true, hvalue]
    by_cases hin : current + o.value < 0 ∨ current + o.value > lastLine
    · rw [if_pos hin, if_neg (by omega)]
    · rw [if_neg hin, if_pos (by omega)]
  · have hnot : ¬ (digitsValue 0 o.digits.bytes ≤ intMax ∧ 0 ≤ current + o.value ∧
        current + o.value ≤ lastLine) := fun h => hmax h.1
    rw [if_neg hmax, if_neg hnot]

theorem parsersAgree_relative (ed : Editor) (o : Offset) : ParsersAgree ed o.text := by
  have hone := parseOneAddress_offset o ed.current1 ed.numLines ed.marks
  have hsign := isSign_signByte o.minus
  have hne : ∀ d : Byte, isSign d = false → signByte o.minus ≠ d := by
    intro d hd heq
    rw [heq, hd] at hsign
    cases hsign
  split_ifs at hone
  all_goals
    refine parsersAgree_of_one (isBlank_of_isSign hsign) (hne _ (by decide)) (hne _ (by decide))
      (hne _ (by decide)) (hne _ (by decide)) hone ?_
    intro a ha
  · exact Or.inl rfl
  · cases ha

theorem markIndex_letter (i : Fin 26) : markIndex (('a' : Char) + UInt8.ofNat i) = some i := by
  revert i
  decide

theorem parsersAgree_mark (ed : Editor) (i : Fin 26) :
    ParsersAgree ed (AddressForm.mark i).text := by
  cases hone : parseOneAddress (AddressForm.mark i).text ed.current1 ed.numLines ed.marks with
  | mk x r =>
    refine parsersAgree_of_one (by decide) (by decide) (by decide) (by decide) (by decide) hone ?_
    rintro a rfl
    obtain ⟨c, cs, heq, -, offset, p, base, r', hnum, hbase, hoff⟩ := parseOneAddress_line hone
    obtain ⟨rfl, rfl⟩ := List.cons.inj heq
    obtain ⟨-, -, -, rfl⟩ := applyOffset_line hoff
    obtain ⟨-, rfl⟩ := Prod.mk.inj (Option.some.inj hnum)
    have hmark : ([('a' : Char) + UInt8.ofNat i] : List Byte).head?.bind markIndex = some i :=
      markIndex_letter i
    simp only [parseBase] at hbase
    rw [if_neg (by decide), if_neg (by decide), if_neg (by decide), if_neg (by decide), if_pos trivial, hmark] at hbase
    dsimp only at hbase
    split_ifs at hbase
    · cases (Prod.mk.inj hbase).1
    · exact Or.inl (Prod.mk.inj hbase).2.symm

/-- `.` and `$` -/
theorem parsersAgree_of_single {ed : Editor} {c : Byte} {n : ℤ} (hblank : isBlank c = false)
    (hhash : c ≠ '#') (hslash : c ≠ '/') (hquestion : c ≠ '?') (hcomma : c ≠ ',')
    (hsign : isSign c = false)
    (hbase : parseBase false ed.current1 ed.numLines ed.marks [c] = (.line n, [])) :
    ParsersAgree ed [c] := by
  cases hone : parseOneAddress [c] ed.current1 ed.numLines ed.marks with
  | mk x r =>
    refine parsersAgree_of_one hblank hhash hslash hquestion hcomma hone ?_
    rintro a rfl
    obtain ⟨d, ds, heq, -, offset, p, base, r', hnum, hbase', hoff⟩ := parseOneAddress_line hone
    obtain ⟨rfl, rfl⟩ := List.cons.inj heq
    obtain ⟨-, -, -, rfl⟩ := applyOffset_line hoff
    rw [hsign] at hnum hbase'
    obtain ⟨-, rfl⟩ := Prod.mk.inj (Option.some.inj hnum)
    rw [hbase] at hbase'
    exact Or.inl (Prod.mk.inj hbase').2.symm

/-! ## Searches -/

theorem Editor.firstMatch_bounds {ed : Editor} {pat : CString} {idxs : List ℕ} {found : ℤ}
    (h : ed.firstMatch pat idxs = .ok found) : 0 ≤ found ∧ found ≤ ed.numLines := by
  have hzero : (0 : ℤ) ≤ ed.numLines := Int.natCast_nonneg _
  induction idxs with
  | nil =>
    rw [← Except.ok.inj h]
    exact ⟨le_rfl, hzero⟩
  | cons idx idxs ih =>
    unfold Editor.firstMatch at h
    cases hline : ed.lines[idx]? with
    | none =>
      rw [hline] at h
      cases h
    | some line =>
      obtain ⟨hlt, -⟩ := List.getElem?_eq_some_iff.mp hline
      rw [hline] at h
      dsimp only at h
      cases hok : breOk line.text pat with
      | error f =>
        rw [hok] at h
        cases h
      | ok b =>
        rw [hok] at h
        cases b with
        | true =>
          rw [← Except.ok.inj h]
          unfold Editor.numLines
          omega
        | false => exact ih h

theorem Editor.searchPattern_bounds {ed : Editor} {re : List Byte} {forward : Bool} {found : ℤ}
    (h : ed.searchPattern re forward = .ok found) : 0 ≤ found ∧ found ≤ ed.numLines := by
  have hzero : (0 : ℤ) ≤ ed.numLines := Int.natCast_nonneg _
  unfold Editor.searchPattern at h
  by_cases hempty : ed.lines = []
  · rw [if_pos hempty] at h
    rw [← Except.ok.inj h]
    exact ⟨le_rfl, hzero⟩
  · rw [if_neg hempty] at h
    by_cases hlong : maxLine ≤ re.length
    · rw [if_pos hlong] at h
      rw [← Except.ok.inj h]
      exact ⟨le_rfl, hzero⟩
    · rw [if_neg hlong] at h
      exact Editor.firstMatch_bounds h

/-- What `parse_address` makes of a line found and the offset after it. -/
theorem parseRegexOffset_eq (ed : Editor) {found : ℤ} (hlo : 1 ≤ found) (hhi : found ≤ ed.numLines)
    (offset : Option Offset) {k : ℤ} (hk : 0 ≤ k) :
    ed.parseRegexOffset found ((offset.map Offset.text).getD []) = k ↔
      (∀ o ∈ offset, digitsValue 0 o.digits.bytes ≤ intMax ∧ 1 ≤ found + o.value ∧
        found + o.value ≤ ed.numLines) ∧ k = found - 1 + (offset.map Offset.value).getD 0 := by
  cases offset with
  | none =>
    simp only [Option.map_none, Option.getD_none, Editor.parseRegexOffset]
    rw [if_neg (by omega)]
    constructor
    · intro h
      exact ⟨by simp, by omega⟩
    · rintro ⟨-, h⟩
      omega
  | some o =>
    have hone := parseOneAddress_offset o found ed.numLines fun _ => -1
    obtain ⟨s, t, htext⟩ : ∃ s t, o.text = s :: t := ⟨_, _, rfl⟩
    simp only [Option.map_some, Option.getD_some, Option.mem_def, Option.some.injEq, forall_eq']
    unfold Editor.parseRegexOffset
    rw [htext] at hone ⊢
    dsimp only
    rw [hone]
    by_cases hin : digitsValue 0 o.digits.bytes ≤ intMax ∧ 0 ≤ found + o.value ∧
        found + o.value ≤ ed.numLines
    · rw [if_pos hin]
      dsimp only
      split_ifs with hout
      · constructor
        · intro h
          omega
        · rintro ⟨⟨-, h1, h2⟩, -⟩
          omega
      · constructor
        · intro h
          exact ⟨⟨hin.1, by omega, by omega⟩, by omega⟩
        · rintro ⟨-, h⟩
          omega
    · rw [if_neg hin]
      dsimp only
      constructor
      · intro h
        omega
      · rintro ⟨⟨hmax, h1, h2⟩, -⟩
        exact absurd ⟨hmax, by omega, h2⟩ hin

/-- `parse_ed_address` consumes nothing of a search. -/
theorem parseEdAddress_search (forward : Bool) (t : List Byte) (current lastLine : ℤ) (marks : Marks) :
    parseEdAddress (delimByte forward :: t) current lastLine marks =
      some { rest := delimByte forward :: t } := by
  have hblank : isBlank (delimByte forward) = false := by cases forward <;> decide
  have hstart : isAddressStart (delimByte forward) = false := by cases forward <;> decide
  have hhash : delimByte forward ≠ '#' := by cases forward <;> decide
  have hcomma : delimByte forward ≠ ',' := by cases forward <;> decide
  unfold parseEdAddress
  rw [skipBlanks_of_not_isBlank hblank]
  dsimp only
  rw [parseOneAddress_of_not_start hstart]
  simp [hhash, hcomma]

theorem parseAddress_search (ed : Editor) (forward : Bool) {re : List Byte}
    (hre : delimByte forward ∉ re) (p : List Byte) :
    ed.parseAddress (delimByte forward :: re ++ delimByte forward :: p) =
      if maxLine ≤ re.length then .ok (-1)
      else (ed.searchPattern re forward).map fun found =>
        if found = 0 then -1 else ed.parseRegexOffset found p := by
  have hblank : isBlank (delimByte forward) = false := by cases forward <;> decide
  have hdelim : delimByte forward = '/' ∨ delimByte forward = '?' := by cases forward <;> decide
  have hforward : decide (delimByte forward = '/') = forward := by cases forward <;> decide
  have htake : (re ++ delimByte forward :: p).takeWhile (· ≠ delimByte forward) = re := by
    rw [List.takeWhile_append_of_pos fun b hb => by simpa using ne_of_mem_of_not_mem hb hre]
    simp
  have hdrop : (re ++ delimByte forward :: p).drop (re.length + 1) = p := by
    rw [← List.drop_drop, List.drop_left, List.drop_one, List.tail_cons]
  have hlen : ¬ re.length = (re ++ delimByte forward :: p).length := by
    rw [List.length_append, List.length_cons]
    omega
  unfold Editor.parseAddress
  rw [List.cons_append, skipBlanks_of_not_isBlank hblank]
  dsimp only
  rw [if_pos hdelim, htake, hdrop, hforward]
  simp only [hlen, or_false]

/-! ## Agreement -/

/-- The parsers agree on an address exactly unless it is a search that names a line. -/
theorem parsersAgree_iff (ed : Editor) (f : AddressForm) :
    ParsersAgree ed f.text ↔ ¬ f.Finds ed := by
  cases f with
  | number ds hne => exact iff_of_true (parsersAgree_number ed ds hne) not_false
  | relative o => exact iff_of_true (parsersAgree_relative ed o) not_false
  | mark i => exact iff_of_true (parsersAgree_mark ed i) not_false
  | current =>
    exact iff_of_true (parsersAgree_of_single (by decide) (by decide) (by decide) (by decide)
      (by decide) (by decide) rfl) not_false
  | last =>
    exact iff_of_true (parsersAgree_of_single (by decide) (by decide) (by decide) (by decide)
      (by decide) (by decide) rfl) not_false
  | search forward re hre offset =>
    have hre' : delimByte forward ∉ re := by cases forward <;> exact hre
    have hnever : ∀ k : ℤ, ¬ ∃ a, parseEdAddress (AddressForm.search forward re hre offset).text
        ed.current1 ed.numLines ed.marks = some a ∧ a.addr1 = k + 1 ∧ a.rest = [] := by
      rintro k ⟨a, ha, -, hrest⟩
      rw [AddressForm.text, List.cons_append, parseEdAddress_search] at ha
      rw [← Option.some.inj ha] at hrest
      cases hrest
    have hnamed : (∃ k : ℤ, 0 ≤ k ∧
        ed.parseAddress (AddressForm.search forward re hre offset).text = .ok k) ↔
        (AddressForm.search forward re hre offset).Finds ed := by
      rw [AddressForm.text, parseAddress_search ed forward hre']
      unfold AddressForm.Finds
      constructor
      · rintro ⟨k, hk, heq⟩
        by_cases hlong : maxLine ≤ re.length
        · rw [if_pos hlong] at heq
          have := Except.ok.inj heq
          omega
        · rw [if_neg hlong] at heq
          cases hsearch : ed.searchPattern re forward with
          | error f =>
            rw [hsearch] at heq
            cases heq
          | ok found =>
            obtain ⟨hlo, hhi⟩ := Editor.searchPattern_bounds hsearch
            rw [hsearch] at heq
            have hresult : (if found = 0 then -1 else
                ed.parseRegexOffset found ((offset.map Offset.text).getD [])) = k := Except.ok.inj heq
            have hfound : found ≠ 0 := by
              intro h0
              rw [if_pos h0] at hresult
              omega
            rw [if_neg hfound] at hresult
            exact ⟨found, hsearch, hfound, ((parseRegexOffset_eq ed (by omega) hhi offset hk).mp hresult).1⟩
      · rintro ⟨found, hsearch, hfound, hin⟩
        obtain ⟨hlo, hhi⟩ := Editor.searchPattern_bounds hsearch
        have hshort : ¬ maxLine ≤ re.length := by
          intro hlong
          unfold Editor.searchPattern at hsearch
          rw [if_pos hlong, ite_self] at hsearch
          exact hfound (Except.ok.inj hsearch).symm
        have hk : 0 ≤ found - 1 + (offset.map Offset.value).getD 0 := by
          cases offset with
          | none => simp only [Option.map_none, Option.getD_none]; omega
          | some o =>
            have := (hin o rfl).2.1
            simp only [Option.map_some, Option.getD_some]
            omega
        refine ⟨_, hk, ?_⟩
        rw [if_neg hshort, hsearch]
        have hresult := (parseRegexOffset_eq ed (by omega) hhi offset hk).mpr ⟨hin, rfl⟩
        exact congrArg Except.ok ((if_neg hfound).trans hresult)
    constructor
    · intro h hfinds
      obtain ⟨k, hk, heq⟩ := hnamed.mpr hfinds
      exact hnever k ((h k hk).mp heq)
    · intro h k hk
      constructor
      · intro heq
        exact absurd (hnamed.mp ⟨k, hk, heq⟩) h
      · intro hex
        exact absurd hex (hnever k)

/-- `/b/` names the second of the lines `a` and `b` for one parser only. -/
theorem not_parsersAgree :
    ¬ ParsersAgree { lines := [⟨.lit "a", 0⟩, ⟨.lit "b", 1⟩], currentLine := 0 }
      (AddressForm.search true [('b' : Char)] (by decide) none).text := by
  intro h
  obtain ⟨a, ha, -, hrest⟩ := (h 1 (by decide)).mp (by decide)
  rw [← Option.some.inj ha] at hrest
  exact absurd hrest (by decide)

end ValidcTools.Ed
