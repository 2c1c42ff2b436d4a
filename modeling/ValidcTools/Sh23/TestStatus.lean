import ValidcTools.Sh23.TestExpressions

/-! The status of `test`: expressions, and arguments that are none. -/
namespace ValidcTools.Sh23

section
variable {files : Files} {name : List Byte} {args : List (List Byte)} {pos : ℕ} {next : List (List Byte)}
variable {evaluate : ℕ → ℤ → Option Evaluation}

/-! ## Errors -/

variable (files) in
/-- Arguments that are found to be no expression, and the word that is left: a false expression with a word behind it,
another word for a `)`, an operand that is not numeric; also behind operands that do not decide the result -/
inductive Rejected : List (List Byte) → List Byte → Prop
  | leftover (chain : Chain files) (word : List Byte) (rest : List (List Byte)) (hchain : chain.Plain (word :: rest))
      (hvalue : chain.value = false) (hword : ¬Continues [word]) : Rejected (chain.words ++ word :: rest) word
  | unclosed (chain : Chain files) (word : List Byte) (rest : List (List Byte)) (hchain : chain.Plain (word :: rest))
      (hword : ¬Continues [word]) (hopen : word ≠ lit ")") : Rejected (lit "(" :: (chain.words ++ word :: rest)) word
  | notNumeric (comparison : Comparison) (arg1 arg2 : List Byte) (rest : List (List Byte)) (hfirst : PlainFirst arg1)
      (hword : ¬Continues [arg1]) (h : strtolAll arg1 = none ∨ strtolAll arg2 = none) :
      Rejected (arg1 :: comparison.word :: arg2 :: rest) arg1
  | behind (p : Primary files) (connective : Connective) (rest : List (List Byte)) (word : List Byte)
      (hp : p.Plain (connective.word :: rest)) (hvalue : connective = .or → p.value = false) (h : Rejected rest word) :
      Rejected (p.words ++ connective.word :: rest) word
  | inside (rest : List (List Byte)) (word : List Byte) (hopen : word ≠ lit ")") (h : Rejected rest word) :
      Rejected (lit "(" :: rest) word

/-- `evaluate_expr` returns false, at the word. -/
def StopsAt (files : Files) (words : List (List Byte)) (word : List Byte) : Prop :=
  ∀ name args pos fuel status, args.drop pos = words → words.length ≤ fuel → ∃ pos' status' rest,
    evaluateExpr files name args fuel pos status = some ⟨false, pos', status'⟩ ∧ args.drop pos' = word :: rest

theorem not_continues_cons {word : List Byte} (h : ¬Continues [word]) (rest : List (List Byte)) :
    ¬Continues (word :: rest) := h

theorem stopsAt_leftover (chain : Chain files) {word : List Byte} {rest : List (List Byte)}
    (hchain : chain.Plain (word :: rest)) (hvalue : chain.value = false) (hword : ¬Continues [word]) :
    StopsAt files (chain.words ++ word :: rest) word := by
  intro name args pos fuel status hdrop hfuel
  have hlen : chain.words.length ≤ fuel := by
    rw [List.length_append] at hfuel
    omega
  have heval := chain.evaluates _ (not_continues_cons hword rest) hchain name args pos fuel status hdrop hlen
  rw [hvalue] at heval
  exact ⟨_, _, rest, heval, drop_words hdrop⟩

theorem stopsAt_unclosed (chain : Chain files) {word : List Byte} {rest : List (List Byte)}
    (hchain : chain.Plain (word :: rest)) (hword : ¬Continues [word]) (hopen : word ≠ lit ")") :
    StopsAt files (lit "(" :: (chain.words ++ word :: rest)) word := by
  intro name args pos fuel status hdrop hfuel
  obtain ⟨depth, hdepth, hbody⟩ := evaluateExpr_body (List.cons_ne_nil _ _) hfuel
  have hrest := drop_word hdrop
  have hlen : chain.words.length ≤ depth := by
    rw [List.length_cons, List.length_append] at hdepth
    omega
  have heval := chain.evaluates _ (not_continues_cons hword rest) hchain name args _ depth status hrest hlen
  have hhead : (word :: rest).head? ≠ some (lit ")") := fun h => hopen (Option.some.inj h)
  refine ⟨_, 2, rest, ?_, drop_words hrest⟩
  rw [hbody, evaluateBody_group hdrop (List.append_ne_nil_of_left_ne_nil chain.words_ne_nil _), heval, Option.map_some,
    drop_words hrest, if_neg hhead]

theorem stopsAt_notNumeric (comparison : Comparison) {arg1 arg2 : List Byte} {rest : List (List Byte)}
    (hfirst : PlainFirst arg1) (h : strtolAll arg1 = none ∨ strtolAll arg2 = none) :
    StopsAt files (arg1 :: comparison.word :: arg2 :: rest) arg1 := by
  intro name args pos fuel status hdrop hfuel
  obtain ⟨depth, -, hbody⟩ := evaluateExpr_body (List.cons_ne_nil _ _) hfuel
  have hconnective : comparison.word ≠ lit "-o" ∧ comparison.word ≠ lit "-a" := by cases comparison <;> decide
  have htest : binaryTest arg1 comparison.word arg2 = some none := by
    have hop : binaryTest arg1 comparison.word arg2 =
        some ((strtolAll arg1).bind fun num1 => (strtolAll arg2).map fun num2 => comparison.holds num1 num2) := by
      cases comparison <;> rfl
    rw [hop]
    rcases h with h | h
    · rw [h, Option.bind_none]
    · rw [h]
      cases strtolAll arg1 <;> rfl
  have hprimary : primaryExpr files name args pos = none := by
    rw [primaryExpr, hdrop]
    simp only [List.head?_cons, Option.bind_some, htest, if_pos hconnective]
    rfl
  refine ⟨pos, 2, _, ?_, hdrop⟩
  rw [hbody, evaluateBody, hprimary, hdrop]
  simp only [if_neg hfirst.1, if_neg hfirst.2]

theorem stopsAt_behind {p : Primary files} {connective : Connective} {rest : List (List Byte)} {word : List Byte}
    (hp : p.Plain (connective.word :: rest)) (hvalue : connective = .or → p.value = false) (hrest : rest ≠ [])
    (hword : ¬Continues [word]) (h : StopsAt files rest word) : StopsAt files (p.words ++ connective.word :: rest) word := by
  intro name args pos fuel status hdrop hfuel
  have hne := List.append_ne_nil_of_right_ne_nil p.words (List.cons_ne_nil connective.word rest)
  obtain ⟨depth, hdepth, hbody⟩ := evaluateExpr_body hne hfuel
  have hconnective := drop_words hdrop
  have hlen : rest.length ≤ depth := by
    rw [List.length_append, List.length_cons] at hdepth
    omega
  obtain ⟨pos', status', next, heval, hdrop'⟩ := h name args _ depth status (drop_word hconnective) hlen
  refine ⟨pos', status', next, ?_, hdrop'⟩
  rw [hbody, evaluateBody_primary hdrop hp]
  cases connective with
  | or => rw [connectives_or hconnective hrest, heval, Option.map_some, hvalue rfl, Bool.false_or]
  | and =>
    obtain ⟨turns, hturns⟩ : ∃ turns, args.length = turns + 1 := by
      cases hargs : args with
      | nil =>
        rw [hargs, List.drop_nil] at hdrop'
        cases hdrop'
      | cons word args => exact ⟨args.length, rfl⟩
    rw [connectives_and hconnective hrest, heval, Option.bind_some, hturns, connectives_stop hdrop' hword]
    cases p.value <;> rfl

theorem stopsAt_inside {rest : List (List Byte)} {word : List Byte} (hopen : word ≠ lit ")") (hrest : rest ≠ [])
    (h : StopsAt files rest word) : StopsAt files (lit "(" :: rest) word := by
  intro name args pos fuel status hdrop hfuel
  obtain ⟨depth, hdepth, hbody⟩ := evaluateExpr_body (List.cons_ne_nil _ _) hfuel
  have hlen := Nat.le_of_succ_le_succ hdepth
  obtain ⟨pos', status', next, heval, hdrop'⟩ := h name args _ depth status (drop_word hdrop) hlen
  have hhead : (word :: next).head? ≠ some (lit ")") := fun h => hopen (Option.some.inj h)
  refine ⟨pos', 2, next, ?_, hdrop'⟩
  rw [hbody, evaluateBody_group hdrop hrest, heval, Option.map_some, hdrop', if_neg hhead]

theorem Rejected.spec {words : List (List Byte)} {word : List Byte} (h : Rejected files words word) :
    words ≠ [] ∧ ¬Continues [word] ∧ StopsAt files words word := by
  induction h with
  | leftover chain word rest hchain hvalue hword =>
    exact ⟨List.append_ne_nil_of_left_ne_nil chain.words_ne_nil _, hword, stopsAt_leftover chain hchain hvalue hword⟩
  | unclosed chain word rest hchain hword hopen =>
    exact ⟨List.cons_ne_nil _ _, hword, stopsAt_unclosed chain hchain hword hopen⟩
  | notNumeric comparison arg1 arg2 rest hfirst hword h =>
    exact ⟨List.cons_ne_nil _ _, hword, stopsAt_notNumeric comparison hfirst h⟩
  | behind p connective rest word hp hvalue h ih =>
    obtain ⟨hrest, hword, hstops⟩ := ih
    have hne : p.words ++ connective.word :: rest ≠ [] := List.append_ne_nil_of_right_ne_nil _ (List.cons_ne_nil _ _)
    exact ⟨hne, hword, stopsAt_behind hp hvalue hrest hword hstops⟩
  | inside rest word hopen h ih =>
    obtain ⟨hrest, hword, hstops⟩ := ih
    exact ⟨List.cons_ne_nil _ _, hword, stopsAt_inside hopen hrest hstops⟩

/-! ## The command -/

theorem primaryExpr_pos {left : Bool × ℕ} (h : primaryExpr files name args pos = some left) : pos ≤ left.2 := by
  have hmap : ∀ {result : Option Bool} {n : ℕ}, result.map (fun value => (value, pos + n)) = some left → pos ≤ left.2 := by
    intro result n hresult
    cases result with
    | none => cases hresult
    | some value =>
      rw [← Option.some.inj hresult]
      exact Nat.le_add_right pos n
  unfold primaryExpr at h
  split at h
  · cases h
  · rw [← Option.some.inj h]
    exact Nat.le_succ pos
  · split_ifs at h
    · split at h
      · exact hmap h
      · split at h
        · exact hmap h
        · rw [← Option.some.inj h]
    · rw [← Option.some.inj h]
      exact Nat.le_succ pos

/-- A call from a position returns, at that position or behind. -/
def ReturnsFrom (evaluate : ℕ → ℤ → Option Evaluation) (pos : ℕ) : Prop :=
  ∀ status, ∃ r, evaluate pos status = some r ∧ pos ≤ r.pos

theorem lt_of_drop {word : List Byte} (h : args.drop pos = word :: next) : pos < args.length := by
  by_contra hle
  rw [List.drop_eq_nil_of_le (Nat.le_of_not_lt hle)] at h
  cases h

theorem connectives_returns (h : ∀ pos' > pos, ReturnsFrom evaluate pos') (fuel : ℕ) :
    ∀ left start, pos ≤ start → args.length ≤ fuel + start →
      ReturnsFrom (connectives args evaluate (fuel + 1) left) start := by
  induction fuel with
  | zero =>
    intro left start _ hlen status
    have hdrop : args.drop start = [] := List.drop_eq_nil_of_le (by omega)
    have hstop : ¬Continues [] := by
      rw [Continues, List.head?_nil]
      decide
    exact ⟨_, connectives_stop hdrop hstop, le_rfl⟩
  | succ fuel ih =>
    intro left start hstart hlen status
    rw [connectives]
    split
    · exact ⟨_, rfl, le_rfl⟩
    · obtain ⟨right, heval, hpos⟩ := h (start + 1) (by omega) status
      split_ifs
      · exact ⟨_, rfl, Nat.le_succ start⟩
      · rw [heval]
        exact ⟨_, rfl, Nat.le_of_succ_le hpos⟩
      · exact ⟨_, rfl, Nat.le_succ start⟩
      · obtain ⟨r, hr, hle⟩ := ih right.result right.pos (by omega) (by omega) right.status
        rw [heval]
        exact ⟨r, hr, by omega⟩
      · rw [heval]
        exact ⟨_, rfl, Nat.le_of_succ_le hpos⟩
      · exact ⟨_, rfl, le_rfl⟩

/-- Each call is made at a later position than the one it is made from. -/
theorem evaluateBody_returns (h : ∀ pos' > pos, ReturnsFrom evaluate pos') :
    ReturnsFrom (evaluateBody files name args evaluate) pos := by
  intro status
  rw [evaluateBody]
  split
  · exact ⟨_, rfl, le_rfl⟩
  · obtain ⟨r, heval, hpos⟩ := h (pos + 1) (by omega) status
    split_ifs
    · exact ⟨_, rfl, Nat.le_succ pos⟩
    · rw [heval]
      exact ⟨_, rfl, Nat.le_of_succ_le hpos⟩
    · exact ⟨_, rfl, Nat.le_succ pos⟩
    · rw [heval, Option.map_some]
      refine ⟨_, rfl, ?_⟩
      split_ifs
      · exact Nat.le_succ_of_le (Nat.le_of_succ_le hpos)
      · exact Nat.le_of_succ_le hpos
    · split
      · exact ⟨_, rfl, le_rfl⟩
      · rename_i left hleft
        have hle := primaryExpr_pos hleft
        obtain ⟨r', hr', hle'⟩ := connectives_returns h args.length left.1 left.2 hle (Nat.le_add_right _ _) status
        exact ⟨r', hr', hle.trans hle'⟩

theorem evaluateExpr_returns {fuel : ℕ} (h : args.length ≤ fuel + pos) :
    ReturnsFrom (evaluateExpr files name args (fuel + 1)) pos := by
  induction fuel generalizing pos with
  | zero =>
    intro status
    have hdrop : args.drop pos = [] := List.drop_eq_nil_of_le (by omega)
    rw [evaluateExpr, evaluateBody, hdrop]
    exact ⟨_, rfl, le_rfl⟩
  | succ fuel ih => exact evaluateBody_returns fun pos' hpos => ih (by omega)

/-- The ways the command is called with these arguments -/
def Invokes (argv args : List (List Byte)) : Prop :=
  (∃ name, name ≠ lit "[" ∧ argv = name :: args) ∨ argv = lit "[" :: (args ++ [lit "]"])

/-- The command returns with the status, and changes nothing else. -/
def Reports (files : Files) (args : List (List Byte)) (status : ℤ) : Prop :=
  ∀ (σ : Type) (argv : List (List Byte)) (exec : Executor σ), Invokes argv args →
    ∃ ret, builtinTest files argv exec = some (ret, { exec with lastStatus := status })

theorem builtinTest_invoked {argv : List (List Byte)} (h : Invokes argv args) : ∃ name, ∀ (σ : Type) (exec : Executor σ),
    builtinTest files argv exec =
      (evaluateExpr files name args (args.length + 1) 0 exec.lastStatus).map (Evaluation.report exec args.length) := by
  rcases h with ⟨name, hname, rfl⟩ | rfl
  · refine ⟨name, fun σ exec => ?_⟩
    simp [builtinTest, hname]
  · refine ⟨lit "[", fun σ exec => ?_⟩
    simp [builtinTest]

theorem reports_of_evaluates {words : List (List Byte)} {value : Bool} (h : Evaluates files words value []) :
    Reports files words (if value then 0 else 1) := by
  intro σ argv exec hargv
  obtain ⟨name, htest⟩ := builtinTest_invoked hargv
  have heval := h name words 0 (words.length + 1) exec.lastStatus (by simp) (Nat.le_succ _)
  refine ⟨.success, ?_⟩
  rw [htest, heval, Option.map_some, Evaluation.report, if_neg (by simp)]

theorem reports_of_stopsAt {words : List (List Byte)} {word : List Byte} (h : StopsAt files words word) :
    Reports files words 2 := by
  intro σ argv exec hargv
  obtain ⟨name, htest⟩ := builtinTest_invoked hargv
  obtain ⟨pos', status', rest, heval, hdrop⟩ := h name words 0 (words.length + 1) exec.lastStatus rfl (Nat.le_succ _)
  have hleft : pos' ≠ words.length := (lt_of_drop hdrop).ne
  refine ⟨.failure, ?_⟩
  rw [htest, heval, Option.map_some, Evaluation.report, if_pos ⟨hleft, rfl⟩]

/-- The empty expression is false. -/
theorem reports_empty : Reports files [] 1 := by
  intro σ argv exec hargv
  obtain ⟨name, htest⟩ := builtinTest_invoked hargv
  exact ⟨.success, htest σ exec⟩

variable (files) in
/-- The calls return. Plain expressions are consumed and have their truth value, and rejected arguments have status 2. -/
theorem builtinTest_expressions :
    (∀ name args status, ∃ r, evaluateExpr files name args (args.length + 1) 0 status = some r) ∧
    (∀ chain : Chain files, chain.Plain [] →
      (∀ name status, evaluateExpr files name chain.words (chain.words.length + 1) 0 status =
        some ⟨chain.value, chain.words.length, status⟩) ∧
      Reports files chain.words (if chain.value then 0 else 1)) ∧
    Reports files [] 1 ∧ ∀ args word, Rejected files args word → Reports files args 2 := by
  have hempty : ¬Continues [] := by
    rw [Continues, List.head?_nil]
    decide
  refine ⟨?_, ?_, reports_empty, ?_⟩
  · intro name args status
    obtain ⟨r, hr, -⟩ := evaluateExpr_returns (Nat.le_add_right args.length 0) status
    exact ⟨r, hr⟩
  · intro chain hplain
    have heval := chain.evaluates [] hempty hplain
    refine ⟨fun name status => ?_, reports_of_evaluates heval⟩
    rw [heval name chain.words 0 _ status (by simp) (Nat.le_succ _), Nat.zero_add]
  · intro args word h
    exact reports_of_stopsAt h.spec.2.2

/-- No file exists. -/
def noFiles : Files := ⟨fun _ => none, fun _ => none, fun _ _ => false, fun _ => false⟩

/-- `a -o ! ( b = c )` -/
def aOrNotSame : Chain noFiles :=
  .cons (.primary (.word (lit "a"))) .or
    (.last (.not (.group (.last (.primary (.same (lit "b") (lit "c")))))))

theorem builtinTest_aOrNotSame :
    evaluateExpr noFiles (lit "test")
        [lit "a", lit "-o", lit "!", lit "(", lit "b", lit "=", lit "c", lit ")"] 9 0 0 = some ⟨true, 8, 0⟩ ∧
      Reports noFiles [lit "a", lit "-o", lit "!", lit "(", lit "b", lit "=", lit "c", lit ")"] 0 := by
  have hword : (Primary.word (lit "a") : Primary noFiles).Plain
      [lit "-o", lit "!", lit "(", lit "b", lit "=", lit "c", lit ")"] :=
    ⟨⟨by decide, by decide⟩, Or.inr (Or.inl rfl)⟩
  have hgroup : (Primary.same (lit "b") (lit "c") : Primary noFiles).Plain [lit ")"] := ⟨by decide, by decide⟩
  have hplain : aOrNotSame.Plain [] := ⟨⟨_, rfl, hword⟩, fun h => Connective.noConfusion h, hgroup⟩
  obtain ⟨heval, hreports⟩ := (builtinTest_expressions noFiles).2.1 aOrNotSame hplain
  exact ⟨heval (lit "test") 0, hreports⟩

/-- No arguments are no expression, and the status is 1. -/
theorem builtinTest_noArguments : (∀ chain : Chain noFiles, chain.words ≠ []) ∧
    builtinTest noFiles [lit "test"] (⟨0, 0, 0, 0, ()⟩ : Executor Unit) = some (.success, ⟨1, 0, 0, 0, ()⟩) ∧
      ¬Reports noFiles [] 2 := by
  refine ⟨Chain.words_ne_nil, rfl, fun h => ?_⟩
  obtain ⟨ret, hret⟩ := h Unit [lit "test"] ⟨0, 0, 0, 0, ()⟩ (Or.inl ⟨lit "test", by decide, rfl⟩)
  have hstatus : (1 : ℤ) = 2 := congrArg (fun r => Prod.snd r |>.lastStatus) (Option.some.inj hret)
  exact absurd hstatus (by decide)

end

end ValidcTools.Sh23
