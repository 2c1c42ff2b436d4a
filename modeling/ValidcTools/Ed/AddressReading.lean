import ValidcTools.Ed.Addresses

/-! Which addresses `parse_one_address` reads as they are written. -/
namespace ValidcTools.Ed

variable {current lastLine : ℤ} {marks : Marks} {rest : List Byte}

/-- Where a string of digits ends -/
def NoDigit (rest : List Byte) : Prop := ∀ c, rest.head? = some c → isDigit c = false

theorem noDigit_dropWhile (p : List Byte) : NoDigit (p.dropWhile isDigit) := by
  intro c hc
  have h := List.head?_dropWhile_not isDigit p
  rw [hc] at h
  exact h

/-! ## Numbers -/

theorem parseDigits_number (ds : Digits) (hrest : NoDigit rest) :
    parseDigits 0 (ds.bytes ++ rest) =
      if digitsValue 0 ds.bytes ≤ intMax then some (digitsValue 0 ds.bytes, rest) else none := by
  rw [parseDigits_append hrest, parseDigits_eq ds.digits le_rfl (by decide)]
  split_ifs <;> rfl

theorem isSpace_of_isDigit {c : Byte} (h : isDigit c = true) : isSpace c = false := by
  have hall : ∀ c : Byte, isDigit c = true → isSpace c = false := forall_byte (by decide)
  exact hall c h

/-- A digit begins no other address. -/
theorem parseOneAddress_digit {d : Byte} (hd : isDigit d = true) (t : List Byte) :
    parseOneAddress (d :: t) current lastLine marks =
      match parseBase false current lastLine marks (d :: t) with
      | (.none, _) => (.none, d :: t)
      | (.error, _) => (.error, d :: t)
      | (.line base, p) => if base < 0 ∨ base > lastLine then (.error, d :: t) else (.line base, p) := by
  have hstop : ¬ (d = ',' ∨ d = ';' ∨ d = '\n' ∨ isSpace d = true) := by
    rintro (h | h | h | h)
    · exact isDigit_ne hd (by decide) h
    · exact isDigit_ne hd (by decide) h
    · exact isDigit_ne hd (by decide) h
    · exact absurd h (Bool.eq_false_iff.mp (isSpace_of_isDigit hd))
  unfold parseOneAddress
  rcases hbase : parseBase false current lastLine marks (d :: t) with ⟨_ | base | _, p⟩ <;>
    simp only [hstop, if_false, isSign_of_isDigit hd, Bool.false_eq_true, applyOffset, hbase]

/-- A number without a leading zero is read whole. -/
theorem parseOneAddress_number (current : ℤ) (marks : Marks) {ds : Digits} (hne : ds.bytes ≠ []) (hzero : ds.bytes.head? ≠ some (('0' : Char) : Byte))
    (hrest : NoDigit rest) (hmax : lastLine ≤ intMax) :
    parseOneAddress (ds.bytes ++ rest) current lastLine marks =
      if digitsValue 0 ds.bytes ≤ lastLine then (.line (digitsValue 0 ds.bytes), rest) else (.error, ds.bytes ++ rest) := by
  have hdigits := parseDigits_number ds hrest
  have hnonneg : 0 ≤ digitsValue 0 ds.bytes := le_digitsValue le_rfl _
  obtain ⟨bytes, hds⟩ := ds
  cases bytes with
  | nil => exact absurd rfl hne
  | cons d t =>
    have hd : isDigit d = true := hds d List.mem_cons_self
    have hd0 : d ≠ '0' := fun h => hzero (congrArg some h)
    dsimp only at hdigits hnonneg ⊢
    rw [List.cons_append] at hdigits ⊢
    have hbase : parseBase false current lastLine marks (d :: (t ++ rest)) =
        if digitsValue 0 (d :: t) ≤ intMax then (.line (digitsValue 0 (d :: t)), rest) else (.error, d :: (t ++ rest)) := by
      simp only [parseBase]
      rw [if_neg (isDigit_ne hd (by decide)), if_neg (isDigit_ne hd (by decide)), if_neg fun h => hd0 h.1, if_pos hd,
        hdigits]
      by_cases hle : digitsValue 0 (d :: t) ≤ intMax
      · simp only [if_pos hle]
      · simp only [if_neg hle]
    rw [parseOneAddress_digit hd, hbase]
    by_cases hle : digitsValue 0 (d :: t) ≤ intMax
    · rw [if_pos hle]
      dsimp only
      by_cases hlast : digitsValue 0 (d :: t) ≤ lastLine
      · rw [if_pos hlast, if_neg (by omega)]
      · rw [if_neg hlast, if_pos (by omega)]
    · rw [if_neg hle, if_neg (by omega)]

/-- Of a number with a leading zero one byte is read, or none when a sign follows the digits. -/
theorem parseOneAddress_zero (t : List Byte) (current : ℤ) (marks : Marks) (hlast : 0 ≤ lastLine) :
    parseOneAddress (('0' : Char) :: t) current lastLine marks =
      (.line 0, if ((t.dropWhile isDigit).head?.any isSign) = true then (('0' : Char) : Byte) :: t else t) := by
  rw [parseOneAddress_digit (by decide)]
  simp only [parseBase]
  rw [if_neg (by decide), if_neg (by decide), if_pos ⟨trivial, trivial⟩]
  cases t.dropWhile isDigit with
  | nil => exact if_neg (by omega)
  | cons c u =>
    dsimp only
    by_cases hsign : isSign c = true
    · rw [if_pos hsign]
      simp [hsign, hlast]
    · rw [if_neg hsign]
      simp [hsign, hlast]

/-! ## Offsets -/

/-- A sign and a number, and what follows them -/
theorem parseOneAddress_sign (o : Offset) (current lastLine : ℤ) (marks : Marks) (hrest : NoDigit rest) :
    parseOneAddress (o.text ++ rest) current lastLine marks =
      if digitsValue 0 o.digits.bytes ≤ intMax then
        match parseBase true current lastLine marks rest with
        | (.none, _) => (.none, o.text ++ rest)
        | (.error, _) => (.error, o.text ++ rest)
        | (.line base, p) =>
          if base + o.value < 0 ∨ base + o.value > lastLine then (.error, o.text ++ rest) else (.line (base + o.value), p)
      else (.error, o.text ++ rest) := by
  have hstop : ¬ (signByte o.minus = ',' ∨ signByte o.minus = ';' ∨ signByte o.minus = '\n' ∨
      isSpace (signByte o.minus) = true) := by
    cases o.minus <;> decide
  have hvalue : (if signByte o.minus = '-' then (-1 : ℤ) else 1) * digitsValue 0 o.digits.bytes = o.value := by
    unfold Offset.value
    cases o.minus <;> rfl
  unfold parseOneAddress Offset.text
  rw [List.cons_append]
  dsimp only
  rw [if_neg hstop, isSign_signByte, if_pos rfl, parseDigits_number o.digits hrest]
  by_cases hmax : digitsValue 0 o.digits.bytes ≤ intMax
  · rw [if_pos hmax, if_pos hmax]
    rcases hbase : parseBase true current lastLine marks rest with ⟨_ | base | _, p⟩ <;>
      simp only [applyOffset, if_true, hvalue, hbase]
  · rw [if_neg hmax, if_neg hmax]

/-! ## Exact reading -/

/-- The line that an address names, when the buffer has it -/
def Reads (p0 : List Byte) (current lastLine : ℤ) (marks : Marks) (n : ℤ) (rest : List Byte) : Prop :=
  if 0 ≤ n ∧ n ≤ lastLine then parseOneAddress p0 current lastLine marks = (.line n, rest)
  else (parseOneAddress p0 current lastLine marks).1 = .error

/-- What is read is in the buffer and not empty; numbers, and signs with numbers, are read whole. -/
structure ReadsExactly (p0 : List Byte) (current lastLine : ℤ) (marks : Marks) : Prop where
  progress : ∀ n rest, parseOneAddress p0 current lastLine marks = (.line n, rest) →
    0 ≤ n ∧ n ≤ lastLine ∧ ∃ used, used ≠ [] ∧ p0 = used ++ rest
  number : ∀ (ds : Digits) (rest : List Byte), ds.bytes ≠ [] → NoDigit rest → p0 = ds.bytes ++ rest →
    Reads p0 current lastLine marks (digitsValue 0 ds.bytes) rest
  offset : ∀ (o : Offset) (rest : List Byte), o.digits.bytes ≠ [] → NoDigit rest → p0 = o.text ++ rest →
    Reads p0 current lastLine marks (current + o.value) rest

def Outside (lastLine n : ℤ) : Prop := n < 0 ∨ lastLine < n

/-- What follows a sign and a number is an address that fails with this offset, too. -/
def FailsBehind (lastLine : ℤ) (marks : Marks) (offset : ℤ) : List Byte → Prop
  | [] => False
  | c :: t => c = '.' ∨ c = '$' ∧ Outside lastLine (lastLine + offset) ∨
      c = '\'' ∧ ∃ i, t.head?.bind markIndex = some i ∧
        (marks i < 0 ∨ lastLine ≤ marks i ∨ Outside lastLine (marks i + 1 + offset))

/-- No digit or sign follows a zero. Nothing follows a sign and a number, or it is all the same: they name no line, and
what follows is an address that fails, too. -/
structure PlainNumbers (p0 : List Byte) (current lastLine : ℤ) (marks : Marks) : Prop where
  zero : ∀ t, p0 = (('0' : Char) : Byte) :: t → ∀ c, t.head? = some c → isDigit c = false ∧ isSign c = false
  offset : ∀ (o : Offset) (rest : List Byte), o.digits.bytes ≠ [] → NoDigit rest → p0 = o.text ++ rest →
    rest = [] ∨ intMax < digitsValue 0 o.digits.bytes ∨
      Outside lastLine (current + o.value) ∧ FailsBehind lastLine marks o.value rest

/-- Whether what follows a sign and a number makes an error, too -/
theorem parseBase_behind {c : Byte} (t : List Byte) (hc : isDigit c = false) {offset : ℤ}
    (hout : Outside lastLine (current + offset)) :
    (parseBase true current lastLine marks (c :: t)).1 ≠ .none ∧
        (∀ base p, parseBase true current lastLine marks (c :: t) = (.line base, p) → Outside lastLine (base + offset)) ↔
      FailsBehind lastLine marks offset (c :: t) := by
  have hzero : ¬ (c = '0' ∧ true = false) := fun h => absurd h.2 (by decide)
  have hdigit : ¬ isDigit c = true := by
    rw [hc]
    decide
  simp only [parseBase, FailsBehind]
  by_cases hdollar : c = '$'
  · subst hdollar
    have hdot : (('$' : Char) : Byte) ≠ '.' := by decide
    have hquote : (('$' : Char) : Byte) ≠ '\'' := by decide
    rw [if_pos rfl]
    simp [hdot, hquote]
  · rw [if_neg hdollar]
    by_cases hdot : c = '.'
    · rw [if_pos hdot]
      simpa [hdot] using hout
    · rw [if_neg hdot, if_neg hzero, if_neg hdigit]
      by_cases hquote : c = '\''
      · have hnotdot : (('\'' : Char) : Byte) ≠ '.' := by decide
        have hnotdollar : (('\'' : Char) : Byte) ≠ '$' := by decide
        rw [if_pos hquote]
        cases t.head?.bind markIndex with
        | none => simp [hdot, hdollar]
        | some i =>
          dsimp only
          by_cases hmark : marks i < 0 ∨ marks i ≥ lastLine
          · rw [if_pos hmark]
            simp only [hquote, Option.some.injEq]
            refine iff_of_true ⟨by simp, by simp⟩ (.inr (.inr ⟨trivial, i, rfl, hmark.imp_right .inl⟩))
          · rw [if_neg hmark]
            obtain ⟨hset, hin⟩ := not_or.mp hmark
            simp [hquote, hnotdot, hnotdollar, hset, hin]
      · rw [if_neg hquote]
        simp [hdot, hdollar, hquote]

/-- Every base but a zero takes at least one byte. -/
theorem parseBase_length {relative : Bool} {c : Byte} {t p : List Byte} {base : ℤ} (hc : ¬ (c = '0' ∧ relative = false))
    (h : parseBase relative current lastLine marks (c :: t) = (.line base, p)) : p.length ≤ t.length := by
  simp only [parseBase] at h
  split_ifs at h with hdollar hdot hdigit hquote
  · rw [(Prod.mk.inj h).2]
  · rw [(Prod.mk.inj h).2]
  · cases hv : parseDigits 0 (c :: t) with
    | none =>
      rw [hv] at h
      cases (Prod.mk.inj h).1
    | some v =>
      rw [hv] at h
      obtain ⟨-, rfl⟩ := Prod.mk.inj h
      obtain ⟨ds, hds, -, hend⟩ := parseDigits_consumed hv
      cases ds with
      | nil =>
        have := hend c (by rw [← List.nil_append v.2, ← hds]; rfl)
        rw [hdigit] at this
        cases this
      | cons d ds =>
        have htail : t = ds ++ v.2 := (List.cons.inj hds).2
        rw [htail, List.length_append]
        omega
  · cases hm : t.head?.bind markIndex with
    | none =>
      rw [hm] at h
      cases (Prod.mk.inj h).1
    | some i =>
      rw [hm] at h
      dsimp only at h
      split_ifs at h
      · cases (Prod.mk.inj h).1
      · rw [← (Prod.mk.inj h).2, List.length_tail]
        exact Nat.sub_le ..
  · cases (Prod.mk.inj h).1

theorem dropWhile_of_noDigit (hrest : NoDigit rest) : rest.dropWhile isDigit = rest := by
  cases rest with
  | nil => rfl
  | cons c t =>
    rw [List.dropWhile_cons_of_neg]
    rw [hrest c rfl]
    decide

section
variable {p0 : List Byte}

/-- Nothing is read without progress. -/
theorem ReadsExactly.moves (h : ReadsExactly p0 current lastLine marks) (n : ℤ) :
    parseOneAddress p0 current lastLine marks ≠ (.line n, p0) := by
  intro hn
  obtain ⟨-, -, used, hne, hused⟩ := h.progress n p0 hn
  exact hne (List.self_eq_append_left.mp hused)

theorem ReadsExactly.zero (h : ReadsExactly p0 current lastLine marks) (hlast : 0 ≤ lastLine) {c : Byte} {u : List Byte}
    (hp0 : p0 = (('0' : Char) : Byte) :: c :: u) : isDigit c = false ∧ isSign c = false := by
  have hone := parseOneAddress_zero (c :: u) current marks hlast
  rw [← hp0] at hone
  have hnosign : ¬ ((((c :: u).dropWhile isDigit).head?.any isSign) = true) := by
    intro hsign
    rw [if_pos hsign] at hone
    exact h.moves 0 hone
  rw [if_neg hnosign] at hone
  have hdigit : isDigit c = false := by
    by_contra hc
    have hc : isDigit c = true := by simpa using hc
    have hall : ∀ d ∈ (('0' : Char) : Byte) :: (c :: u).takeWhile isDigit, isDigit d = true := by
      intro d hd
      rcases List.mem_cons.mp hd with rfl | hd
      · decide
      · exact List.mem_takeWhile_imp hd
    have hsplit : p0 = (('0' : Char) : Byte) :: (c :: u).takeWhile isDigit ++ (c :: u).dropWhile isDigit := by
      rw [List.cons_append, List.takeWhile_append_dropWhile, hp0]
    have hreads := h.number ⟨_, hall⟩ ((c :: u).dropWhile isDigit) (List.cons_ne_nil _ _)
      (noDigit_dropWhile _) hsplit
    unfold Reads at hreads
    rw [hone] at hreads
    split at hreads
    · have hrest := (Prod.mk.inj hreads).2
      have hlen := congrArg List.length hrest
      have hle := (List.dropWhile_sublist isDigit (l := u)).length_le
      rw [List.dropWhile_cons_of_pos hc, List.length_cons] at hlen
      omega
    · cases hreads
  refine ⟨hdigit, ?_⟩
  by_contra hsign
  refine hnosign ?_
  have hrest : NoDigit (c :: u) := fun d hd => by rwa [← Option.some.inj hd]
  rw [dropWhile_of_noDigit hrest]
  simpa using hsign

theorem ReadsExactly.plainOffset (h : ReadsExactly p0 current lastLine marks) {o : Offset} (hne : o.digits.bytes ≠ [])
    (hrest : NoDigit rest) (hp0 : p0 = o.text ++ rest) : rest = [] ∨ intMax < digitsValue 0 o.digits.bytes ∨
      Outside lastLine (current + o.value) ∧ FailsBehind lastLine marks o.value rest := by
  have hreads := h.offset o rest hne hrest hp0
  have hone := parseOneAddress_sign o current lastLine marks hrest
  rw [← hp0] at hone
  cases rest with
  | nil => exact .inl rfl
  | cons c t =>
    right
    by_cases hmax : digitsValue 0 o.digits.bytes ≤ intMax
    · right
      rw [if_pos hmax] at hone
      unfold Reads at hreads
      cases hbase : parseBase true current lastLine marks (c :: t) with
      | mk x p =>
        rw [hbase] at hone
        have hlen : ∀ base, x = .line base → p.length ≤ t.length := by
          rintro base rfl
          exact parseBase_length (fun hc => absurd hc.2 (by decide)) hbase
        split at hreads
        · rw [hreads] at hone
          cases x with
          | none => cases (Prod.mk.inj hone).1
          | error => cases (Prod.mk.inj hone).1
          | line base =>
            dsimp only at hone
            split at hone
            · cases (Prod.mk.inj hone).1
            · have := hlen base rfl
              have hp := congrArg List.length (Prod.mk.inj hone).2
              rw [List.length_cons] at hp
              omega
        · rename_i hnot
          have hout : Outside lastLine (current + o.value) := by
            unfold Outside
            omega
          refine ⟨hout, (parseBase_behind t (hrest c rfl) hout).mp ?_⟩
          rw [hbase]
          rw [hone] at hreads
          cases x with
          | none => cases hreads
          | error => exact ⟨by simp, fun base p' h' => by cases (Prod.mk.inj h').1⟩
          | line base =>
            refine ⟨by simp, fun base' p' h' => ?_⟩
            obtain rfl := Address.line.inj (Prod.mk.inj h').1
            dsimp only at hreads
            split at hreads
            · rename_i hout'
              exact hout'
            · cases hreads
    · exact .inl (not_le.mp hmax)

theorem PlainNumbers.progress (h : PlainNumbers p0 current lastLine marks) (hlast : 0 ≤ lastLine) {n : ℤ}
    (hone : parseOneAddress p0 current lastLine marks = (.line n, rest)) : ∃ used, used ≠ [] ∧ p0 = used ++ rest := by
  obtain ⟨used, hused, -⟩ := parseOneAddress_consumed hone
  refine ⟨used, ?_, hused⟩
  rintro rfl
  rw [List.nil_append] at hused
  subst hused
  obtain ⟨c, cs, rfl, -, offset, p, base, r, hnum, hbase, hoff⟩ := parseOneAddress_line hone
  obtain ⟨-, -, -, rfl⟩ := applyOffset_line hoff
  by_cases hsign : isSign c = true
  · rw [if_pos hsign] at hnum
    obtain ⟨ds, hds, -⟩ := parseDigits_consumed hnum
    obtain ⟨u, hu, -⟩ := parseBase_consumed hbase
    have hlen := congrArg List.length hds
    rw [hu, List.length_append, List.length_append, List.length_cons] at hlen
    omega
  · rw [if_neg hsign] at hnum
    obtain ⟨-, rfl⟩ := Prod.mk.inj (Option.some.inj hnum)
    by_cases hzero : c = '0'
    · subst hzero
      -- a zero that no digit or sign follows
      have hnosign : ¬ ((cs.dropWhile isDigit).head?.any isSign) = true := by
        cases cs with
        | nil => decide
        | cons d ds =>
          obtain ⟨hdigit, hsign⟩ := h.zero _ rfl d rfl
          rw [List.dropWhile_cons_of_neg (by rw [hdigit]; decide)]
          simp [hsign]
      have hread := parseOneAddress_zero cs current marks hlast
      rw [hone, if_neg hnosign] at hread
      exact absurd (Prod.mk.inj hread).2.symm (List.cons_ne_self _ _).symm
    · have hlen := parseBase_length (fun hc => hzero hc.1) hbase
      rw [List.length_cons] at hlen
      omega

theorem PlainNumbers.number (h : PlainNumbers p0 current lastLine marks) (hlast : 0 ≤ lastLine) (hlastMax : lastLine ≤ intMax)
    {ds : Digits} (hne : ds.bytes ≠ []) (hrest : NoDigit rest) (hp0 : p0 = ds.bytes ++ rest) :
    Reads p0 current lastLine marks (digitsValue 0 ds.bytes) rest := by
  have hnonneg : 0 ≤ digitsValue 0 ds.bytes := le_digitsValue le_rfl _
  by_cases hzero : ds.bytes.head? = some (('0' : Char) : Byte)
  · obtain ⟨bytes, hds⟩ := ds
    obtain ⟨t, rfl⟩ : ∃ t, bytes = (('0' : Char) : Byte) :: t := by
      cases bytes with
      | nil => cases hzero
      | cons d t => exact ⟨t, by rw [Option.some.inj hzero]⟩
    have hnext := h.zero (t ++ rest) hp0
    -- the zero is the whole number
    obtain rfl : t = [] := by
      cases t with
      | nil => rfl
      | cons d t =>
        have hd := hds d (List.mem_cons_of_mem _ List.mem_cons_self)
        rw [(hnext d rfl).1] at hd
        cases hd
    have hnosign : ¬ ((rest.dropWhile isDigit).head?.any isSign) = true := by
      rw [dropWhile_of_noDigit hrest]
      cases rest with
      | nil => decide
      | cons c u => simp [(hnext c rfl).2]
    have hread := parseOneAddress_zero rest current marks hlast
    rw [if_neg hnosign] at hread
    have hvalue : digitsValue 0 [(('0' : Char) : Byte)] = 0 := by decide
    unfold Reads
    dsimp only
    rw [hvalue, if_pos ⟨le_rfl, hlast⟩, hp0]
    exact hread
  · have hread := parseOneAddress_number current marks hne hzero hrest hlastMax
    rw [← hp0] at hread
    unfold Reads
    by_cases hin : digitsValue 0 ds.bytes ≤ lastLine
    · rw [if_pos ⟨hnonneg, hin⟩, hread, if_pos hin]
    · rw [if_neg fun hboth => hin hboth.2, hread, if_neg hin]

theorem PlainNumbers.readsOffset (h : PlainNumbers p0 current lastLine marks) (hcurrent : 0 ≤ current)
    (hcurrentMax : current ≤ intMax) (hlastMax : lastLine ≤ intMax) {o : Offset} (hne : o.digits.bytes ≠ [])
    (hrest : NoDigit rest) (hp0 : p0 = o.text ++ rest) : Reads p0 current lastLine marks (current + o.value) rest := by
  have hone := parseOneAddress_sign o current lastLine marks hrest
  rw [← hp0] at hone
  have hvalue : o.value = digitsValue 0 o.digits.bytes ∨ o.value = -digitsValue 0 o.digits.bytes := by
    unfold Offset.value
    cases o.minus
    · exact .inl (one_mul _)
    · exact .inr (neg_one_mul _)
  unfold Reads
  by_cases hmax : digitsValue 0 o.digits.bytes ≤ intMax
  · rw [if_pos hmax] at hone
    rcases h.offset o rest hne hrest hp0 with rfl | hbig | ⟨hout, hfails⟩
    · rw [hone]
      simp only [parseBase]
      by_cases hin : 0 ≤ current + o.value ∧ current + o.value ≤ lastLine
      · rw [if_pos hin, if_neg (by omega)]
      · rw [if_neg hin, if_pos (by omega)]
    · omega
    · have hnot : ¬ (0 ≤ current + o.value ∧ current + o.value ≤ lastLine) := by
        unfold Outside at hout
        omega
      rw [if_neg hnot, hone]
      cases rest with
      | nil => exact hfails.elim
      | cons c t =>
        obtain ⟨hsome, hbase⟩ := (parseBase_behind t (hrest c rfl) hout).mpr hfails
        cases hread : parseBase true current lastLine marks (c :: t) with
        | mk x p =>
          cases x with
          | none => exact absurd (congrArg Prod.fst hread) hsome
          | error => rfl
          | line base =>
            have hbad := hbase base p hread
            exact congrArg Prod.fst (if_pos hbad)
  · rw [if_neg hmax] at hone
    rw [if_neg (by omega), hone]

/-- The code reads addresses exactly in the strings whose numbers are plain. -/
theorem readsExactly_iff (p0 : List Byte) (marks : Marks) (hcurrent : 0 ≤ current) (hcurrentMax : current ≤ intMax)
    (hlast : 0 ≤ lastLine) (hlastMax : lastLine ≤ intMax) :
    ReadsExactly p0 current lastLine marks ↔ PlainNumbers p0 current lastLine marks := by
  constructor
  · intro h
    refine ⟨fun t ht c hc => ?_, fun o rest hne hrest hp0 => h.plainOffset hne hrest hp0⟩
    cases t with
    | nil => cases hc
    | cons d u =>
      obtain rfl := Option.some.inj hc
      exact h.zero hlast ht
  · intro h
    refine ⟨fun n rest hn => ?_, fun ds rest hne hrest hp0 => h.number hlast hlastMax hne hrest hp0,
      fun o rest hne hrest hp0 => h.readsOffset hcurrent hcurrentMax hlastMax hne hrest hp0⟩
    obtain ⟨hlo, hhi⟩ := parseOneAddress_bounds hn
    exact ⟨hlo, hhi, h.progress hlast hn⟩

theorem readsExactly_iff_12 : ReadsExactly (CString.lit "12,$").bytes 1 20 (fun _ => -1) ↔
    PlainNumbers (CString.lit "12,$").bytes 1 20 fun _ => -1 :=
  readsExactly_iff _ _ (by decide) (by decide) (by decide) (by decide)

set_option maxRecDepth 8192 in
/-- Of `05` only the zero is read. -/
theorem not_readsExactly_05 : parseOneAddress (CString.lit "05").bytes 1 9 (fun _ => -1) = (.line 0, (CString.lit "5").bytes) ∧
    ¬ ReadsExactly (CString.lit "05").bytes 1 9 fun _ => -1 := by
  have hone : parseOneAddress (CString.lit "05").bytes 1 9 (fun _ => -1) = (.line 0, (CString.lit "5").bytes) := by decide
  refine ⟨hone, fun h => ?_⟩
  have hreads := h.number ⟨(CString.lit "05").bytes, by decide⟩ [] (by decide) (fun c hc => by cases hc) (List.append_nil _).symm
  have hvalue : digitsValue 0 (CString.lit "05").bytes = 5 := by decide
  unfold Reads at hreads
  rw [hone] at hreads
  dsimp only at hreads
  rw [hvalue, if_pos (by decide)] at hreads
  exact absurd hreads (by decide)

end

end ValidcTools.Ed
