import ValidcTools.Sed.Commands

/-! The operands of `s` and of `/regex/`, as they are read and as they are written. -/
namespace ValidcTools.Sed

/-- The operand as it is written, with what follows its delimiter: `\d` stands for `d`, any other pair for itself, and
there is none without a delimiter that closes it. -/
def operandText (d : Byte) : List Byte → Option (List Byte × List Byte)
  | [] => none
  | [c] => if c = d then some ([], []) else none
  | c :: next :: p =>
    if c = '\\' then (operandText d p).map (prepend (if next = d then [d] else ['\\', next]))
    else if c = d then some ([], next :: p)
    else (operandText d (next :: p)).map (prepend [c])

/-- `s` with its operands as they are written -/
def substituteText (d : Byte) (p : List Byte) : Option (Action × List Byte) := do
  let pat ← operandText d p
  let repl ← operandText d pat.2
  let f := parseFlags {} (skipWs repl.2)
  some (.s pat.1 repl.1 f.1.occurrence f.1.print f.1.wfile, f.2)

/-- An operand that is closed, with what follows, and where a backslash stands before the delimiter only -/
inductive PlainOperand (d : Byte) : List Byte → List Byte → Prop
  | close {p : List Byte} : PlainOperand d (d :: p) p
  | escaped {p q : List Byte} : PlainOperand d p q → PlainOperand d ('\\' :: d :: p) q
  | literal {c : Byte} {p q : List Byte} : c ≠ '\\' → c ≠ d → PlainOperand d p q → PlainOperand d (c :: p) q

variable {d : Byte}

theorem operandText_cons {c : Byte} (hc : c ≠ '\\') (hd : c ≠ d) (p : List Byte) :
    operandText d (c :: p) = (operandText d p).map (prepend [c]) := by
  cases p with
  | nil => simp [operandText, hd]
  | cons next p => rw [operandText, if_neg hc, if_neg hd]

theorem operandText_delim (hd : d ≠ '\\') (p : List Byte) : operandText d (d :: p) = some ([], p) := by
  cases p with
  | nil => exact if_pos rfl
  | cons next p => rw [operandText, if_neg hd, if_pos rfl]

theorem operandText_backslash (next : Byte) (p : List Byte) :
    operandText d (( '\\' : Byte) :: next :: p) =
      (operandText d p).map (prepend (if next = d then [d] else ['\\', next])) := by
  rw [operandText, if_pos rfl]

theorem PlainOperand.read (hd : d ≠ '\\') {p q : List Byte} (h : PlainOperand d p q) :
    ∃ x, operandText d p = some (x, q) ∧ parseDelimited d true p = (x, q) := by
  induction h with
  | close => exact ⟨[], operandText_delim hd _, parseDelimited_delim hd _⟩
  | @escaped p q _ ih =>
    obtain ⟨x, htext, hread⟩ := ih
    refine ⟨d :: x, ?_, ?_⟩
    · rw [operandText_backslash, htext, if_pos rfl]
      rfl
    · rw [parseDelimited_backslash, hread]
      rfl
  | @literal c p q hc hcd _ ih =>
    obtain ⟨x, htext, hread⟩ := ih
    refine ⟨c :: x, ?_, ?_⟩
    · rw [operandText_cons hc hcd, htext]
      rfl
    · rw [parseDelimited_cons hc hcd, hread]
      rfl

/-- A closed operand: as much is taken, and nothing is added. -/
theorem parseDelimited_of_operandText {p x q : List Byte} (hd : d ≠ '\\') (h : operandText d p = some (x, q)) :
    (parseDelimited d true p).2 = q ∧ (parseDelimited d true p).1.length ≤ x.length := by
  fun_induction operandText d p generalizing x q with
  | case1 => cases h
  | case2 =>
    obtain ⟨rfl, rfl⟩ := Prod.mk.inj (Option.some.inj h)
    rw [parseDelimited_delim hd]
    exact ⟨rfl, le_rfl⟩
  | case3 c hc => cases h
  | case4 next p ih =>
    obtain ⟨⟨y, q'⟩, hy, heq⟩ := Option.map_eq_some_iff.mp h
    obtain ⟨rfl, rfl⟩ := Prod.mk.inj heq
    obtain ⟨hq, hlen⟩ := ih hy
    rw [parseDelimited_backslash]
    refine ⟨hq, ?_⟩
    simp only [prepend, List.length_append]
    split_ifs <;> simp only [List.length_cons, List.length_nil] <;> omega
  | case5 next p hne =>
    obtain ⟨rfl, rfl⟩ := Prod.mk.inj (Option.some.inj h)
    rw [parseDelimited_delim hd]
    exact ⟨rfl, le_rfl⟩
  | case6 c next p hc hcd ih =>
    obtain ⟨⟨y, q'⟩, hy, heq⟩ := Option.map_eq_some_iff.mp h
    obtain ⟨rfl, rfl⟩ := Prod.mk.inj heq
    obtain ⟨hq, hlen⟩ := ih hy
    rw [parseDelimited_cons hc hcd]
    exact ⟨hq, Nat.succ_le_succ hlen⟩

/-- A backslash that is dropped leaves less than there was. -/
theorem plainOperand_of_eq {p : List Byte} (hd : d ≠ '\\') (h : operandText d p = some (parseDelimited d true p)) :
    ∃ q, PlainOperand d p q := by
  fun_induction operandText d p with
  | case1 => cases h
  | case2 => exact ⟨[], .close⟩
  | case3 c hc => cases h
  | case4 next p ih =>
    obtain ⟨⟨y, q⟩, hy, heq⟩ := Option.map_eq_some_iff.mp h
    obtain ⟨hq, hlen⟩ := parseDelimited_of_operandText hd hy
    rw [parseDelimited_backslash] at heq
    obtain ⟨htext, -⟩ := Prod.mk.inj heq
    by_cases hnext : next = d
    · subst hnext
      rw [if_pos rfl] at htext
      have hsame : operandText next p = some (parseDelimited next true p) := by
        rw [hy]
        exact congrArg some (Prod.ext (List.append_cancel_left htext) hq.symm)
      obtain ⟨q', hplain⟩ := ih hsame
      exact ⟨q', hplain.escaped⟩
    · rw [if_neg hnext] at htext
      have hcount := congrArg List.length htext
      simp only [List.length_append, List.length_cons, List.length_nil] at hcount
      omega
  | case5 next p hne => exact ⟨next :: p, .close⟩
  | case6 c next p hc hcd ih =>
    obtain ⟨⟨y, q⟩, hy, heq⟩ := Option.map_eq_some_iff.mp h
    rw [parseDelimited_cons hc hcd] at heq
    obtain ⟨htext, hq⟩ := Prod.mk.inj heq
    have hsame : operandText d (next :: p) = some (parseDelimited d true (next :: p)) := by
      rw [hy]
      exact congrArg some (Prod.ext (List.append_cancel_left htext) hq)
    obtain ⟨q', hplain⟩ := ih hsame
    exact ⟨q', .literal hc hcd hplain⟩

theorem operandText_eq_iff (hd : d ≠ '\\') (p : List Byte) :
    operandText d p = some (parseDelimited d true p) ↔ ∃ q, PlainOperand d p q := by
  constructor
  · exact plainOperand_of_eq hd
  · rintro ⟨q, h⟩
    obtain ⟨x, htext, hread⟩ := h.read hd
    rw [htext, hread]

/-! ## The commands -/

theorem parseAction_s (hnl : d ≠ '\n') (p : List Byte) :
    parseAction 's' (d :: p) =
      let pat := parseDelimited d true p
      let repl := parseDelimited d true pat.2
      let f := parseFlags {} (skipWs repl.2)
      some (.s pat.1 repl.1 f.1.occurrence f.1.print f.1.wfile, f.2) := by
  have hparse : parseAction 's' (d :: p) = (parseOperands (d :: p)).map fun o =>
      let f := parseFlags {} (skipWs o.2.2)
      (.s o.1 o.2.1 f.1.occurrence f.1.print f.1.wfile, f.2) := rfl
  rw [hparse, parseOperands, if_neg hnl]
  rfl

theorem parseAddress_slash (p : List Byte) :
    parseAddress (( '/' : Byte) :: p) = some (.regex (parseDelimited '/' true p).1, (parseDelimited '/' true p).2) := rfl

theorem parseAction_s_iff (hd : d ≠ '\\') (hnl : d ≠ '\n') (p : List Byte) :
    parseAction 's' (d :: p) = substituteText d p ↔ ∃ q r, PlainOperand d p q ∧ PlainOperand d q r := by
  rw [parseAction_s hnl]
  unfold substituteText
  constructor
  · intro h
    obtain ⟨⟨x, q⟩, hx, h⟩ := Option.bind_eq_some_iff.mp h.symm
    obtain ⟨⟨y, r⟩, hy, h⟩ := Option.bind_eq_some_iff.mp h
    obtain ⟨rfl, -⟩ := parseDelimited_of_operandText hd hx
    obtain ⟨rfl, -⟩ := parseDelimited_of_operandText hd hy
    obtain ⟨haction, -⟩ := Prod.mk.inj (Option.some.inj h)
    obtain ⟨rfl, rfl, -⟩ := Action.s.inj haction
    obtain ⟨q, hpat⟩ := plainOperand_of_eq hd hx
    obtain ⟨r, hrepl⟩ := plainOperand_of_eq hd hy
    obtain ⟨x, -, hread⟩ := hpat.read hd
    rw [hread] at hrepl
    exact ⟨q, r, hpat, hrepl⟩
  · rintro ⟨q, r, hpat, hrepl⟩
    obtain ⟨x, hx, hreadx⟩ := hpat.read hd
    obtain ⟨y, hy, hready⟩ := hrepl.read hd
    simp only [hx, hreadx, hy, hready, Option.bind_eq_bind, Option.bind_some]

/-- Operands are obtained as they are written exactly where each of them is closed and has a backslash before its
delimiter only: by the scanner, by `s` and by an address. -/
theorem operands_asWritten_iff (d : Byte) (hd : d ≠ '\\') (hnl : d ≠ '\n') (p : List Byte) :
    (some (parseDelimited d true p) = operandText d p ↔ ∃ q, PlainOperand d p q) ∧
    (parseAction 's' (d :: p) = substituteText d p ↔ ∃ q r, PlainOperand d p q ∧ PlainOperand d q r) ∧
    (parseAddress (( '/' : Byte) :: p) = (operandText '/' p).map (fun x => (.regex x.1, x.2)) ↔
      ∃ q, PlainOperand '/' p q) := by
  refine ⟨?_, parseAction_s_iff hd hnl p, ?_⟩
  · rw [eq_comm]
    exact operandText_eq_iff hd p
  · rw [parseAddress_slash, ← operandText_eq_iff (by decide), eq_comm, Option.map_eq_some_iff]
    constructor
    · rintro ⟨⟨x, q⟩, htext, heq⟩
      obtain ⟨hregex, hq⟩ := Prod.mk.inj heq
      rw [htext]
      exact congrArg some (Prod.ext (Address.regex.inj hregex) hq)
    · intro htext
      exact ⟨_, htext, rfl⟩

/-- `s|a|b|` -/
theorem operands_asWritten_bar : (( '|' : Byte) ≠ '\\' ∧ ( '|' : Byte) ≠ '\n') ∧
    parseAction 's' ['|', 'a', '|', 'b', '|'] = substituteText '|' ['a', '|', 'b', '|'] := by
  refine ⟨⟨by decide, by decide⟩, (operands_asWritten_iff '|' (by decide) (by decide) ['a', '|', 'b', '|']).2.1.mpr ?_⟩
  exact ⟨['b', '|'], [], .literal (by decide) (by decide) .close, .literal (by decide) (by decide) .close⟩

/-- `s/\(a\)/b/` looks for `(a)`, and `s/a` is no error. -/
theorem operands_not_asWritten :
    parseAction 's' ['/', '\\', '(', 'a', '\\', ')', '/', 'b', '/'] ≠
      substituteText '/' ['\\', '(', 'a', '\\', ')', '/', 'b', '/'] ∧
    parseAction 's' ['/', 'a'] ≠ substituteText '/' ['a'] := by
  have hpairs : ¬∃ q r, PlainOperand '/' ['\\', '(', 'a', '\\', ')', '/', 'b', '/'] q ∧ PlainOperand '/' q r := by
    rintro ⟨q, r, h, -⟩
    cases h with
    | literal hc => exact absurd rfl hc
  have hopen : ¬∃ q r, PlainOperand '/' ['a'] q ∧ PlainOperand '/' q r := by
    rintro ⟨q, r, h, -⟩
    cases h with
    | literal hc hcd h => cases h
  exact ⟨fun h => hpairs ((parseAction_s_iff (by decide) (by decide) _).mp h),
    fun h => hopen ((parseAction_s_iff (by decide) (by decide) _).mp h)⟩

end ValidcTools.Sed
