import ValidcTools.Sh23.ArithmeticTokens

/-! `arithmetic_evaluate` on well-formed expressions: the plain ones are read as they are meant where white space
ends the text, and without it no expression is. -/
namespace ValidcTools.Sh23.Arithmetic

/-! ## What stands behind a text -/

section
variable {text : List Byte} {store : VariableStore}

/-- No operator of a level, nor a comma -/
def Below (k : ℕ) (type : TokenType) : Prop := type ≠ .comma ∧ ∀ l ∈ type.level, l < k

/-- Positions behind a text of a level: the first one has `s` before it, from each of them a token is read that the
level leaves alone, and stepping back from it leads to one of them again. -/
structure Ahead (text : List Byte) (k : ℕ) (s : List Byte) (F : ℕ → Prop) : Prop where
  apart : Apart s
  first : ∀ pos, At text pos s → F pos
  next : ∀ pos, F pos → ∃ token p, getToken text pos = some (token, p) ∧ Below k token.type ∧ F (rewind p)

namespace Ahead

theorem mono {k k' : ℕ} {s : List Byte} {F : ℕ → Prop} (h : Ahead text k s F) (hk : k ≤ k') : Ahead text k' s F where
  apart := h.apart
  first := h.first
  next := fun pos hpos => by
    obtain ⟨token, p, htoken, ⟨hcomma, hlevel⟩, hp⟩ := h.next pos hpos
    exact ⟨token, p, htoken, ⟨hcomma, fun l hl => Nat.lt_of_lt_of_le (hlevel l hl) hk⟩, hp⟩

theorem le {k : ℕ} {s : List Byte} {F : ℕ → Prop} (h : Ahead text k s F) {pos : ℕ} (hpos : F pos) : pos ≤ text.length := by
  obtain ⟨token, p, htoken, -⟩ := h.next pos hpos
  exact le_of_getToken htoken

/-- An operator of one byte -/
theorem operator {k : ℕ} {op : TokenType} {c : Byte} {ws rest : List Byte} (hop : op.symbol = [c]) (hws : IsBlank ws)
    (htoken : tokenAt (c :: rest) = (⟨op, 0, []⟩, 1)) (hbelow : Below k op) :
    Ahead text k (ws ++ c :: rest) (Before text c rest) where
  apart := hws.apart_append (apart_cons (operator_byte hop).2.2 rest)
  first := fun _ hat => ⟨ws, hws, hat⟩
  next := fun pos hpos => by
    obtain ⟨p, hget, -, hbefore⟩ := hpos.token (operator_byte hop).2.1 htoken
    exact ⟨_, p + 1, hget, hbelow, (rewind_succ p).symm ▸ hbefore⟩

end Ahead

/-! ## Values at a level -/

/-- A parser gives what an expression means, and ends at one of these positions. -/
def Yields (text : List Byte) (store : VariableStore) (r : Parsed) (meant : Except EvalError (ℤ × VariableStore))
    (F : ℕ → Prop) : Prop :=
  match meant with
  | .ok (v, after) => after = store ∧ ∃ pos, F pos ∧ r = .value v pos
  | .error .divisionByZero => ∃ e pos, pos ≤ text.length ∧ r = .failed e pos
  | .error .undefined => True

theorem Yields.andThen {r : Parsed} {meant : Except EvalError (ℤ × VariableStore)} {F F' : ℕ → Prop}
    (h : Yields text store r meant F) {f : ℤ → ℕ → Parsed} {g : ℤ × VariableStore → Except EvalError (ℤ × VariableStore)}
    (hf : ∀ v pos, F pos → meant = .ok (v, store) → Yields text store (f v pos) (g (v, store)) F') :
    Yields text store (r.andThen f) (meant.bind g) F' := by
  rcases meant with (_ | _) | ⟨v, after⟩
  · obtain ⟨e, pos, hpos, rfl⟩ := h
    exact ⟨e, pos, hpos, rfl⟩
  · trivial
  · obtain ⟨rfl, pos, hpos, rfl⟩ := h
    exact hf v pos hpos rfl

theorem Yields.value {v : ℤ} {pos : ℕ} {F : ℕ → Prop} (h : F pos) : Yields text store (.value v pos) (.ok (v, store)) F :=
  ⟨rfl, pos, h, rfl⟩

/-! ## Levels -/

/-- The operators of a level without a short circuit -/
def operators : ℕ → List TokenType
  | 5 => [.bitOr]
  | 6 => [.bitXor]
  | 7 => [.bitAnd]
  | 8 => [.equal, .notEqual]
  | 9 => [.less, .greater, .lessEqual, .greaterEqual]
  | 10 => [.leftShift, .rightShift]
  | 11 => [.plus, .minus]
  | 12 => [.multiply, .divide, .modulo]
  | _ => []

/-- The parser of a level -/
def levelParser (text : List Byte) (store : VariableStore) (n m : ℕ) : ℕ → ℕ → Parsed
  | 0 | 1 | 2 => parseTernary text store (parseComma text store n) m
  | 3 => parseLogicalOr text store (parseComma text store n) m
  | 4 => parseLogicalAnd text store (parseComma text store n) m
  | 5 => parseBitOr text store (parseComma text store n) m
  | 6 => parseBitXor text store (parseComma text store n) m
  | 7 => parseBitAnd text store (parseComma text store n) m
  | 8 => parseEquality text store (parseComma text store n) m
  | 9 => parseComparison text store (parseComma text store n) m
  | 10 => parseShift text store (parseComma text store n) m
  | 11 => parseAdditive text store (parseComma text store n) m
  | 12 => parseMultiplicative text store (parseComma text store n) m
  | _ => parseUnary text store (parseComma text store n) m

theorem levelParser_loop (n m : ℕ) {k : ℕ} (hk : 5 ≤ k) (hk' : k ≤ 12) : levelParser text store n m k =
    parseLevel text (levelParser text store n m (k + 1)) (operators k) m := by
  interval_cases k <;> rfl

theorem mem_operators {k : ℕ} (hk : 5 ≤ k) (hk' : k ≤ 12) (type : TokenType) : type ∈ operators k ↔ type.level = some k := by
  interval_cases k <;> cases type <;> decide

/-- The texts of an expression at a level are read as they are meant. -/
def Right (text : List Byte) (store : VariableStore) (k : ℕ) (t : List Byte) (e : Expr) : Prop :=
  ∀ n m pos s F, t.length ≤ n → t.length < m → At text pos (t ++ s) → Ahead text k s F →
    Yields text store (levelParser text store n m k pos) (e.eval store) F

/-- So they are at a level with a loop, whatever the loop goes on with. -/
def RightThen (text : List Byte) (store : VariableStore) (k : ℕ) (t : List Byte) (e : Expr) : Prop :=
  ∀ n m pos s F F' g, t.length ≤ n → t.length < m → At text pos (t ++ s) → Ahead text (k + 1) s F →
    (∀ v p j, F p → m ≤ j + t.length → e.eval store = .ok (v, store) →
      Yields text store (parseLoop text (levelParser text store n m (k + 1)) (operators k) j v p) (g (v, store)) F') →
    Yields text store (levelParser text store n m k pos) ((e.eval store).bind g) F'

theorem bind_ok (x : Except EvalError (ℤ × VariableStore)) : x.bind .ok = x := by
  cases x with
  | error => rfl
  | ok => rfl

theorem RightThen.right {k : ℕ} {t : List Byte} {e : Expr} (hk : 5 ≤ k) (hk' : k ≤ 12) (h : RightThen text store k t e) :
    Right text store k t e := by
  intro n m pos s F hn hm hat hahead
  rw [← bind_ok (e.eval store)]
  refine h n m pos s F F .ok hn hm hat (hahead.mono (Nat.le_succ k)) fun v p j hp hj _ => ?_
  obtain ⟨token, next, hget, ⟨-, hlevel⟩, hback⟩ := hahead.next p hp
  obtain ⟨j, rfl⟩ : ∃ j', j = j' + 1 := ⟨j - 1, by omega⟩
  have hnot : token.type ∉ operators k := fun hmem =>
    Nat.lt_irrefl k (hlevel k ((mem_operators hk hk' _).mp hmem))
  unfold parseLoop withToken
  rw [hget]
  dsimp only
  rw [if_neg hnot]
  exact .value hback

theorem Right.then {k : ℕ} {t : List Byte} {e : Expr} (hk : 5 ≤ k) (hk' : k ≤ 12) (h : Right text store (k + 1) t e) :
    RightThen text store k t e := by
  intro n m pos s F F' g hn hm hat hahead hthen
  rw [levelParser_loop n m hk hk']
  exact (h n m pos s F hn hm hat hahead).andThen fun v p hp hv => hthen v p m hp (Nat.le_add_right m _) hv

theorem bind_assoc (x : Except EvalError (ℤ × VariableStore)) (f g : ℤ × VariableStore → Except EvalError (ℤ × VariableStore)) :
    (x.bind f).bind g = x.bind fun y => (f y).bind g := by
  cases x with
  | error => rfl
  | ok => rfl

theorem level_le {op : TokenType} {k : ℕ} (h : op.level = some k) : k ≤ 12 := by
  cases op <;> cases h <;> decide

theorem RightThen.binary {op : TokenType} {c : Byte} {k : ℕ} {t ws t' : List Byte} {a b : Expr} (hlevel : op.level = some k)
    (hk : 5 ≤ k) (hop : op.symbol = [c]) (ha : RightThen text store k t a) (hws : IsBlank ws)
    (hb : Right text store (k + 1) t' b) (ht' : Opens t') :
    RightThen text store k (t ++ (ws ++ (op.symbol ++ t'))) (.binary op a b) := by
  have hk' := level_le hlevel
  have hbelow : Below (k + 1) op := by
    refine ⟨?_, fun l hl => ?_⟩
    · rintro rfl
      exact absurd hk (by rw [← Option.some.inj hlevel]; decide)
    · rw [hlevel] at hl
      exact Option.some.inj hl ▸ Nat.lt_succ_self k
  rw [hop]
  intro n m pos s F F' g hn hm hat hahead hthen
  simp only [List.length_append, List.length_cons, List.length_nil] at hn hm hthen
  rw [List.append_assoc, List.append_assoc, List.append_assoc] at hat
  have htoken := tokenAt_operator hop (ht'.append s)
  have hoperator : Ahead text _ _ (Before text c _) := .operator hop hws htoken hbelow
  change Yields text store _ (((a.eval store).bind _).bind g) F'
  rw [bind_assoc]
  refine ha n m pos _ _ F' _ (by omega) (by omega) hat hoperator fun v p j hp hj hv => ?_
  obtain ⟨j, rfl⟩ : ∃ j', j = j' + 1 := ⟨j - 1, by omega⟩
  obtain ⟨q, hget, hbehind, -⟩ := hp.token (operator_byte hop).2.1 htoken
  unfold parseLoop withToken
  rw [hget]
  dsimp only
  rw [if_pos ((mem_operators hk hk' op).mpr hlevel), bind_assoc]
  refine (hb n m (q + 1) s F (by omega) (by omega) hbehind hahead).andThen fun w r hr hw => ?_
  unfold binaryValue
  rcases harith : arithBinary op v w with _ | (e | u)
  · trivial
  · exact ⟨e, r, hahead.le hr, rfl⟩
  · refine hthen u r j hr (by omega) ?_
    simp only [Expr.eval, hv, hw, binaryValue, harith, Except.bind, Except.map]

/-! ## Operands -/

/-- The last byte of a word is a number or a name of its own. -/
theorem parsePrimary_last {pc : ℕ → Parsed} {pos : ℕ} {d : Byte} {s : List Byte} {v : ℤ} (hd : isNameByte d = true)
    (hs : Apart s) (hat : At text pos (d :: s)) (hv : lastValue store [d] = some v) :
    parsePrimary text store pc pos = .value v (pos + 1) := by
  have hget := @getToken_at text pos [] (d :: s) hat (by simp [IsBlank]) fun c hc => Option.some.inj hc ▸ (nameByte_opens d hd).1
  rw [tokenAt_last hd hs] at hget
  unfold parsePrimary withToken
  rw [hget]
  change (if isDigit d then some (digitValue d : ℤ) else (store.getVariable [d]).bind strtolAll) = some v at hv
  cases hdigit : isDigit d with
  | true =>
    rw [hdigit, if_pos rfl] at hv
    rw [← Option.some.inj hv]
    rfl
  | false =>
    rw [hdigit, if_neg Bool.false_ne_true] at hv
    obtain ⟨value, hvalue, hnum⟩ := Option.bind_eq_some_iff.mp hv
    dsimp only
    rw [if_neg Bool.false_ne_true, if_neg TokenType.noConfusion, if_pos rfl, hvalue]
    dsimp only
    rw [hnum]
    rfl

/-- A word is read twice: the second time from its last byte on. -/
theorem parseUnary_word {pc : ℕ → Parsed} {m pos : ℕ} {ws w s : List Byte} {v : ℤ} (hws : IsBlank ws) (hw : IsWord w)
    (hs : Apart s) (hat : At text pos (ws ++ (w ++ s))) (hv : lastValue store w = some v) :
    ∃ p, At text p s ∧ parseUnary text store pc (m + 1) pos = .value v p := by
  obtain ⟨token, htoken, htype⟩ := hw.tokenAt hs
  have hhead : ∀ c ∈ (w ++ s).head?, isSpace c = false := by
    obtain ⟨b, p, rfl⟩ := List.exists_cons_of_ne_nil hw.ne_nil
    exact fun c hc => Option.some.inj hc ▸ (nameByte_opens b (hw.nameByte b List.mem_cons_self)).1
  obtain ⟨init, d, rfl⟩ : ∃ init d, w = init ++ [d] := ⟨_, _, (List.dropLast_concat_getLast hw.ne_nil).symm⟩
  have hd : isNameByte d = true := hw.nameByte d (List.mem_append_right init List.mem_cons_self)
  have hget := getToken_at hat hws hhead
  rw [htoken, List.length_append, List.length_singleton] at hget
  have hback : rewind (pos + ws.length + (init.length + 1)) = pos + ws.length + init.length := rewind_succ _
  have hlast : At text (pos + ws.length + init.length) (d :: s) := by
    rw [List.append_assoc] at hat
    exact hat.skip.skip
  have hunary : arithUnary token.type = none := by
    rcases htype with h | h
    · rw [h]
      rfl
    · rw [h]
      rfl
  have hv' : lastValue store [d] = some v := by
    unfold lastValue at hv
    rwa [List.getLast?_concat] at hv
  refine ⟨_, At.skip (a := [d]) hlast, ?_⟩
  unfold parseUnary withToken
  rw [hget]
  dsimp only
  rw [hunary, hback]
  exact parsePrimary_last hd hs hlast hv'

theorem right_word {ws w : List Byte} {e : Expr} (hws : IsBlank ws) (hw : IsWord w)
    (he : ∀ r, e.eval store = .ok r → r.2 = store ∧ lastValue store w = some r.1)
    (hne : e.eval store ≠ .error .divisionByZero) : Right text store 14 (ws ++ w) e := by
  intro n m pos s F hn hm hat hahead
  obtain ⟨m, rfl⟩ : ∃ m', m = m' + 1 := ⟨m - 1, by omega⟩
  rw [List.append_assoc] at hat
  rcases hmeant : e.eval store with (_ | _) | ⟨v, after⟩
  · exact absurd hmeant hne
  · trivial
  · obtain ⟨hafter, hv⟩ := he _ hmeant
    obtain ⟨p, hp, hvalue⟩ : ∃ p, At text p s ∧ parseUnary text store (parseComma text store n) (m + 1) pos = .value v p :=
      parseUnary_word hws hw hahead.apart hat hv
    exact ⟨hafter, p, hahead.first p hp, hvalue⟩

/-- Behind a text, a token that is not looked for is put back. -/
theorem Ahead.value {k : ℕ} {s : List Byte} {F : ℕ → Prop} (h : Ahead text k s F) {pos : ℕ} (hpos : F pos) (v : ℤ)
    {looked : TokenType} (hlooked : ¬Below k looked) (f : Token → ℕ → Parsed) : Yields text store
      (withToken text pos fun token next => if token.type = looked then f token next else .value v (rewind next))
      (.ok (v, store)) F := by
  obtain ⟨token, next, hget, hbelow, hback⟩ := h.next pos hpos
  unfold withToken
  rw [hget]
  dsimp only
  have hne : token.type ≠ looked := by
    rintro rfl
    exact hlooked hbelow
  rw [if_neg hne]
  exact .value hback

theorem Right.comma {k : ℕ} {t : List Byte} {e : Expr} (hk : k ≤ 2) (h : Right text store k t e) {n pos : ℕ} {s : List Byte}
    {F : ℕ → Prop} (hn : t.length + 1 < n) (hat : At text pos (t ++ s)) (hahead : Ahead text k s F) :
    Yields text store (parseComma text store n pos) (e.eval store) F := by
  obtain ⟨n, rfl⟩ : ∃ n', n = n' + 1 := ⟨n - 1, by omega⟩
  have hternary := h n n pos s F (by omega) (by omega) hat hahead
  have hparser : levelParser text store n n k = parseTernary text store (parseComma text store n) n := by
    interval_cases k <;> rfl
  rw [hparser] at hternary
  rw [← bind_ok (e.eval store)]
  unfold parseComma
  refine hternary.andThen fun v p hp _ => ?_
  simp only [ne_eq, ite_not]
  exact hahead.value hp v (fun hbelow => hbelow.1 rfl) _

theorem right_unary {op : TokenType} {c : Byte} {ws t : List Byte} {e : Expr} (hop : op.symbol = [c])
    (hunary : (arithUnary op).isSome = true) (hws : IsBlank ws) (ht : Opens t) (h : Right text store 13 t e) :
    Right text store 13 (ws ++ (op.symbol ++ t)) (.unary op e) := by
  rw [hop]
  intro n m pos s F hn hm hat hahead
  rw [List.length_append, List.length_append, List.length_singleton] at hn hm
  rw [List.append_assoc, List.append_assoc] at hat
  obtain ⟨m, rfl⟩ : ∃ m', m = m' + 1 := ⟨m - 1, by omega⟩
  have hbefore : Before text c (t ++ s) pos := ⟨ws, hws, hat⟩
  obtain ⟨p, hget, hbehind, -⟩ := hbefore.token (operator_byte hop).2.1 (tokenAt_operator hop (ht.append s))
  obtain ⟨f, hf⟩ := Option.isSome_iff_exists.mp hunary
  have hoperand := h n m (p + 1) s F (by omega) (by omega) hbehind hahead
  change Yields text store (parseUnary text store (parseComma text store n) (m + 1) pos) ((e.eval store).bind _) F
  unfold parseUnary withToken
  rw [hget]
  dsimp only
  rw [hf]
  refine hoperand.andThen fun v q hq _ => ?_
  unfold unaryValue
  rw [hf, Option.bind_some]
  dsimp only
  rcases f v with _ | u
  · trivial
  · exact .value hq

theorem right_paren {ws t ws' : List Byte} {e : Expr} (hws : IsBlank ws) (ht : Opens t)
    (h : Right text store 0 t e) (hws' : IsBlank ws') :
    Right text store 14 (ws ++ (lit "(" ++ (t ++ (ws' ++ lit ")")))) e := by
  have hopen : TokenType.lparen.symbol = [('(' : Byte)] := rfl
  have hclose : TokenType.rparen.symbol = [(')' : Byte)] := rfl
  change Right text store 14 (ws ++ (TokenType.lparen.symbol ++ (t ++ (ws' ++ TokenType.rparen.symbol)))) e
  rw [hopen, hclose]
  intro n m pos s F hn hm hat hahead
  simp only [List.length_append, List.length_singleton] at hn hm
  rw [List.append_assoc, List.append_assoc, List.append_assoc, List.append_assoc] at hat
  obtain ⟨m, rfl⟩ : ∃ m', m = m' + 1 := ⟨m - 1, by omega⟩
  have hbefore : Before text '(' (t ++ (ws' ++ ([(')' : Byte)] ++ s))) pos := ⟨ws, hws, hat⟩
  have htoken := tokenAt_operator hopen (ht.append (ws' ++ ([(')' : Byte)] ++ s)))
  obtain ⟨p, hget, -, hagain⟩ := hbefore.token (operator_byte hopen).2.1 htoken
  obtain ⟨q, hget', hbehind, -⟩ := hagain.token (operator_byte hopen).2.1 htoken
  have hrparen : tokenAt ((')' : Byte) :: s) = (⟨.rparen, 0, []⟩, 1) := rfl
  have hahead' : Ahead text 0 _ (Before text ')' s) :=
    .operator hclose hws' hrparen ⟨TokenType.noConfusion, fun l hl => by cases hl⟩
  change Yields text store (parseUnary text store (parseComma text store n) (m + 1) pos) _ F
  unfold parseUnary withToken
  rw [hget]
  dsimp only
  have hunary : arithUnary .lparen = none := rfl
  rw [hunary, rewind_succ]
  unfold parsePrimary withToken
  rw [hget', ← bind_ok (e.eval store)]
  have hcomma := h.comma (by decide) (n := n) (by omega) hbehind hahead'
  refine hcomma.andThen fun v r hr _ => ?_
  obtain ⟨r', hget'', hbehind', -⟩ := hr.token (operator_byte hclose).2.1 hrparen
  rw [hget'']
  exact .value (hahead.first _ hbehind')

theorem Ahead.logicalLoop {k : ℕ} {s : List Byte} {F : ℕ → Prop} (h : Ahead text k s F) {op : TokenType} (hop : op.level = some k)
    (operand : ℕ → Parsed) (decided : ℤ → Bool) {m : ℕ} (hm : 0 < m) {pos : ℕ} (hpos : F pos) (v : ℤ) :
    Yields text store (parseLogicalLoop text operand op decided m v pos) (.ok (v, store)) F := by
  obtain ⟨m, rfl⟩ : ∃ m', m = m' + 1 := ⟨m - 1, by omega⟩
  unfold parseLogicalLoop
  simp only [ne_eq, ite_not]
  exact h.value hpos v (fun hbelow => Nat.lt_irrefl k (hbelow.2 k hop)) _

/-- At a level whose operator does not follow, the text is read as at the next one. -/
theorem Right.lift {k : ℕ} {t : List Byte} {e : Expr} (hk : k < 5 ∨ k = 13) (h : Right text store (k + 1) t e) :
    Right text store k t e := by
  intro n m pos s F hn hm hat hahead
  have hnext := h n m pos s F hn hm hat (hahead.mono (Nat.le_succ k))
  have hpositive : 0 < m := Nat.zero_lt_of_lt hm
  obtain rfl | rfl | rfl | rfl | rfl | rfl : k = 0 ∨ k = 1 ∨ k = 2 ∨ k = 3 ∨ k = 4 ∨ k = 13 := by omega
  · exact hnext
  · exact hnext
  · rw [← bind_ok (e.eval store)]
    refine hnext.andThen fun v p hp _ => ?_
    simp only [ne_eq, ite_not]
    exact hahead.value hp v (fun hbelow => Nat.lt_irrefl 2 (hbelow.2 2 rfl)) _
  · rw [← bind_ok (e.eval store)]
    exact hnext.andThen fun v p hp _ => hahead.logicalLoop rfl _ _ hpositive hp v
  · rw [← bind_ok (e.eval store)]
    exact hnext.andThen fun v p hp _ => hahead.logicalLoop rfl _ _ hpositive hp v
  · exact hnext

theorem right_ternary {t ws t' ws' t'' : List Byte} {cond a b : Expr} (hcond : Right text store 3 t cond) (hws : IsBlank ws)
    (ha : Right text store 0 t' a) (ht' : Opens t') (hws' : IsBlank ws') (hb : Right text store 2 t'' b) (ht'' : Opens t'')
    (hother : ∀ v after, cond.eval store = .ok (v, after) → ∃ r, (if v ≠ 0 then b else a).eval store = .ok r) :
    Right text store 2 (t ++ (ws ++ (lit "?" ++ (t' ++ (ws' ++ (lit ":" ++ t''))))) ) (.ternary cond a b) := by
  have hquestion : TokenType.question.symbol = [('?' : Byte)] := rfl
  have hcolon : TokenType.colon.symbol = [(':' : Byte)] := rfl
  change Right text store 2 (t ++ (ws ++ (TokenType.question.symbol ++ (t' ++ (ws' ++ (TokenType.colon.symbol ++ t'')))))) _
  rw [hquestion, hcolon]
  intro n m pos s F hn hm hat hahead
  simp only [List.length_append, List.length_singleton] at hn hm
  simp only [List.append_assoc] at hat
  have htoken := tokenAt_operator hquestion (ht'.append (ws' ++ ([(':' : Byte)] ++ (t'' ++ s))))
  have htoken' := tokenAt_operator hcolon (ht''.append s)
  have hahead' : Ahead text 3 _ (Before text '?' _) := .operator hquestion hws htoken
    ⟨TokenType.noConfusion, fun l hl => Option.some.inj hl ▸ Nat.lt_succ_self 2⟩
  have hahead'' : Ahead text 0 _ (Before text ':' _) :=
    .operator hcolon hws' htoken' ⟨TokenType.noConfusion, fun l hl => by cases hl⟩
  refine (hcond n m pos _ _ (by omega) (by omega) hat hahead').andThen fun v p hp hv => ?_
  obtain ⟨q, hget, hbehind, -⟩ := hp.token (operator_byte hquestion).2.1 htoken
  have htrue := ha.comma (by decide) (n := n) (by omega) hbehind hahead''
  have hfalse : ∀ r, Before text ':' (t'' ++ s) r → ∃ p, getToken text r = some (⟨.colon, 0, []⟩, p) ∧
      Yields text store (parseComma text store n p) (b.eval store) F := by
    intro r hr
    obtain ⟨q', hget', hbehind', -⟩ := hr.token (operator_byte hcolon).2.1 htoken'
    exact ⟨q' + 1, hget', hb.comma (by decide) (by omega) hbehind' hahead⟩
  unfold withToken
  rw [hget]
  dsimp only
  rw [if_neg (by decide)]
  by_cases hzero : v = 0
  · have hnot : ¬v ≠ 0 := not_not.mpr hzero
    obtain ⟨⟨u, after⟩, hu⟩ := hother v store hv
    rw [if_neg hnot] at hu ⊢
    rw [hu] at htrue
    obtain ⟨-, r, hr, htrue⟩ := htrue
    obtain ⟨q', hget', hvalue⟩ := hfalse r hr
    rw [htrue, ← bind_ok (b.eval store)]
    change Yields text store (withToken text r _) _ F
    unfold withToken
    rw [hget']
    dsimp only
    rw [if_neg (by decide)]
    refine hvalue.andThen fun w q'' hq'' _ => ?_
    rw [if_neg hnot]
    exact .value hq''
  · obtain ⟨⟨w, after⟩, hw⟩ := hother v store hv
    rw [if_pos hzero] at hw ⊢
    rw [← bind_ok (a.eval store)]
    refine htrue.andThen fun u r hr _ => ?_
    obtain ⟨q', hget', hvalue⟩ := hfalse r hr
    rw [hw] at hvalue
    obtain ⟨-, q'', hq'', hvalue⟩ := hvalue
    rw [hget']
    dsimp only
    rw [if_neg (by decide), hvalue]
    change Yields text store (.value (if v ≠ 0 then u else w) q'') _ F
    rw [if_pos hzero]
    exact .value hq''

/-- Every plain expression is read as it is meant. -/
theorem Reads.right {k : ℕ} {t : List Byte} {e : Expr} (h : Reads k t e) (hplain : Plain store e) :
    Right text store k t e ∧ (5 ≤ k → k ≤ 12 → RightThen text store k t e) := by
  induction h with
  | number hws hliteral =>
    refine ⟨right_word hws (.inl hliteral) (fun r hr => ?_) (fun h => by cases h), fun _ h => absurd h (by decide)⟩
    obtain rfl := Except.ok.inj hr
    exact ⟨rfl, hplain⟩
  | var hws hname =>
    refine ⟨right_word hws (.inr hname) (fun r hr => ?_) (fun h => ?_), fun _ h => absurd h (by decide)⟩
    · unfold Expr.eval at hr
      rcases hvalue : numericValue store _ with _ | v
      · rw [hvalue] at hr
        cases hr
      · rw [hvalue] at hr
        obtain rfl := Except.ok.inj hr
        exact ⟨rfl, hplain v hvalue⟩
    · unfold Expr.eval numericValue at h
      rcases hvalue : (store.getVariable _).bind strtolAll with _ | v
      · rw [hvalue] at h
        cases h
      · rw [hvalue] at h
        cases h
  | paren hws h hws' ih => exact ⟨right_paren hws h.opens (ih hplain).1 hws', fun _ h => absurd h (by decide)⟩
  | unary hop hws h ih =>
    obtain ⟨c, hsymbol, -⟩ := unary_symbol hop
    exact ⟨right_unary hsymbol hop hws h.opens (ih hplain).1, fun _ h => absurd h (by decide)⟩
  | binary hlevel hk ha hws hb iha ihb =>
    obtain ⟨hone, hplaina, hplainb⟩ := hplain
    obtain ⟨c, hsymbol⟩ := List.length_eq_one_iff.mp hone
    have hk' := level_le hlevel
    have hthen := ((iha hplaina).2 hk hk').binary hlevel hk hsymbol hws (ihb hplainb).1 hb.opens
    exact ⟨hthen.right hk hk', fun _ _ => hthen⟩
  | logicalAnd _ _ _ _ _ => exact hplain.elim
  | logicalOr _ _ _ _ _ => exact hplain.elim
  | ternary hcond hws ha hws' hb ihcond iha ihb =>
    obtain ⟨hplaincond, hplaina, hplainb, hother⟩ := hplain
    have hright := right_ternary (ihcond hplaincond).1 hws (iha hplaina).1 ha.opens hws' (ihb hplainb).1 hb.opens hother
    exact ⟨hright, fun h _ => absurd h (by decide)⟩
  | assign _ _ _ _ _ _ => exact hplain.elim
  | comma _ _ _ _ _ => exact hplain.elim
  | @lift k t e hk h ih =>
    obtain ⟨hright, -⟩ := ih hplain
    have hthen : 5 ≤ k → k ≤ 12 → RightThen text store k t e := fun h5 h12 => hright.then h5 h12
    refine ⟨?_, hthen⟩
    by_cases hloop : 5 ≤ k ∧ k ≤ 12
    · exact (hthen hloop.1 hloop.2).right hloop.1 hloop.2
    · exact hright.lift (by omega)

/-! ## The end of the text -/

/-- In the white space at the end -/
def Trailing (text : List Byte) (pos : ℕ) : Prop := ∃ ws, ws ≠ [] ∧ IsBlank ws ∧ At text pos ws

theorem Ahead.trailing {ws : List Byte} (hne : ws ≠ []) (hws : IsBlank ws) : Ahead text 0 ws (Trailing text) where
  apart := hws.apart
  first := fun _ hat => ⟨ws, hne, hws, hat⟩
  next := fun pos hpos => by
    obtain ⟨ws, hne, hws, hat⟩ := hpos
    have hat' : At text pos (ws ++ []) := by rwa [List.append_nil]
    obtain ⟨init, last, rfl⟩ : ∃ init last, ws = init ++ [last] := ⟨_, _, (List.dropLast_concat_getLast hne).symm⟩
    refine ⟨_, _, getToken_at hat' hws (by simp), ⟨TokenType.noConfusion, fun l hl => by cases hl⟩, [last],
      List.cons_ne_nil _ _, fun c hc => hws c (List.mem_append_right _ hc), ?_⟩
    have hrewind : rewind (pos + (init ++ [last]).length + (tokenAt []).2) = pos + init.length := by
      rw [List.length_append, List.length_singleton]
      exact rewind_succ _
    rw [hrewind]
    exact hat.skip

/-- At the end the last byte is read once more. -/
theorem Ahead.ending {init : List Byte} {d : Byte} (hd : isNameByte d = true ∨ d = (')' : Byte)) :
    Ahead (init ++ [d]) 0 [] fun pos => pos = init.length ∨ pos = init.length + 1 where
  apart := fun c hc => by cases hc
  first := fun pos hat => by
    have hlength := congrArg List.length hat.2
    have hle := hat.1
    rw [List.length_drop, List.length_append, List.length_singleton, List.length_nil] at hlength
    rw [List.length_append, List.length_singleton] at hle
    omega
  next := fun pos hpos => by
    have hlast : At (init ++ [d]) init.length ([] ++ [d]) := by
      refine ⟨?_, List.drop_left⟩
      rw [List.length_append]
      omega
    have hend : At (init ++ [d]) (init.length + 1) ([] ++ []) := At.skip (a := [d]) hlast
    obtain ⟨htype, hspace, hone⟩ : Below 0 (tokenAt [d]).1.type ∧ isSpace d = false ∧ (tokenAt [d]).2 = 1 := by
      rcases hd with hname | rfl
      · have hapart : Apart [] := fun c hc => by cases hc
        rw [tokenAt_last hname hapart]
        refine ⟨?_, (nameByte_opens d hname).1, rfl⟩
        split_ifs <;> exact ⟨TokenType.noConfusion, fun l hl => by cases hl⟩
      · exact ⟨⟨TokenType.noConfusion, fun l hl => by cases hl⟩, by decide, rfl⟩
    rcases hpos with rfl | rfl
    · refine ⟨_, _, getToken_at hlast (by simp [IsBlank]) fun c hc => Option.some.inj hc ▸ hspace, htype, .inl ?_⟩
      rw [hone]
      exact rewind_succ _
    · refine ⟨_, _, getToken_at hend (by simp [IsBlank]) (by simp), ⟨TokenType.noConfusion, fun l hl => by cases hl⟩, .inl ?_⟩
      exact rewind_succ _

theorem andThen_value {r : Parsed} {f : ℤ → ℕ → Parsed} {v : ℤ} {p : ℕ} (h : r.andThen f = .value v p) :
    ∃ u q, r = .value u q ∧ f u q = .value v p := by
  cases r with
  | value u q => exact ⟨u, q, rfl, h⟩
  | failed => cases h
  | undefined => cases h
  | outOfFuel => cases h

theorem withToken_value {pos : ℕ} {f : Token → ℕ → Parsed} {v : ℤ} {p : ℕ} (h : withToken text pos f = .value v p) :
    ∃ token next, getToken text pos = some (token, next) ∧ f token next = .value v p := by
  unfold withToken at h
  rcases hget : getToken text pos with _ | ⟨token, next⟩
  · rw [hget] at h
    cases h
  · rw [hget] at h
    exact ⟨token, next, rfl, h⟩

/-- A value ends where the last token read was put back. -/
theorem parseComma_rewind {fuel pos p : ℕ} {v : ℤ} (h : parseComma text store fuel pos = .value v p) :
    ∃ q token next, getToken text q = some (token, next) ∧ p = rewind next := by
  induction fuel generalizing pos v p with
  | zero => cases h
  | succ fuel ih =>
    obtain ⟨left, q, -, h⟩ := andThen_value h
    obtain ⟨token, next, hget, h⟩ := withToken_value h
    split_ifs at h with hcomma
    · obtain ⟨-, rfl⟩ := Parsed.value.inj h
      exact ⟨q, token, next, hget, rfl⟩
    · obtain ⟨right, q', hright, h⟩ := andThen_value h
      obtain ⟨-, rfl⟩ := Parsed.value.inj h
      exact ih hright

end

/-! ## Evaluation -/

section
variable {store : VariableStore}

/-- What is read as it is meant, with nothing but white space behind it, is evaluated as it is meant. -/
theorem evaluate_of_yields {text : List Byte} {fuel : ℕ} {meant : Except EvalError (ℤ × VariableStore)} {F : ℕ → Prop}
    (h : Yields text store (parseComma text store fuel 0) meant F)
    (hend : ∀ r, meant = .ok r → ∀ pos, F pos → ∃ token next, getToken text pos = some (token, next) ∧ token.type = .eof) :
    AsInC (arithmeticEvaluate text store fuel) meant := by
  rcases meant with (_ | _) | ⟨v, after⟩
  · obtain ⟨e, pos, hpos, hfailed⟩ := h
    obtain ⟨⟨token, next⟩, hget⟩ : ∃ x, getToken text pos = some x := ⟨_, getToken_eq hpos⟩
    refine ⟨e, next, ?_⟩
    unfold arithmeticEvaluate
    rw [hfailed]
    dsimp only
    unfold withToken
    rw [hget]
  · trivial
  · obtain ⟨rfl, pos, hpos, hvalue⟩ := h
    obtain ⟨token, next, hget, htype⟩ := hend _ rfl pos hpos
    refine ⟨⟨next, ?_⟩, rfl⟩
    unfold arithmeticEvaluate
    rw [hvalue]
    dsimp only
    unfold withToken
    rw [hget]
    dsimp only
    rw [if_neg (not_not.mpr htype)]

/-- Without white space at the end the text has no value: its last byte is found behind it. -/
theorem evaluate_ne_value {t : List Byte} {e : Expr} (h : Reads 0 t e) (fuel : ℕ) (v : ℤ) (pos : ℕ) :
    (arithmeticEvaluate t store fuel).1 ≠ .value v pos := by
  have hknown := h.known
  obtain ⟨init, d, rfl, hd⟩ := h.last
  have hspace : isSpace d = false := by
    rcases hd with hname | rfl
    · exact (nameByte_opens d hname).1
    · decide
  intro hvalue
  unfold arithmeticEvaluate at hvalue
  rcases hcomma : parseComma (init ++ [d]) store fuel 0 with ⟨w, p⟩ | ⟨e, p⟩ | _ | _
  · obtain ⟨q, token, next, hget, rfl⟩ := parseComma_rewind hcomma
    obtain ⟨hle, hpositive⟩ := getToken_le hget
    rw [List.length_append, List.length_singleton] at hle hpositive
    obtain ⟨next, rfl⟩ : ∃ n, next = n + 1 := ⟨next - 1, by omega⟩
    rw [rewind_succ] at hcomma
    obtain ⟨last, behind, hlast, htype⟩ := @getToken_known init d hknown hspace next
      (by rw [List.length_append, List.length_singleton]; omega)
    rw [hcomma] at hvalue
    dsimp only at hvalue
    unfold withToken at hvalue
    rw [hlast] at hvalue
    dsimp only at hvalue
    rw [if_pos htype] at hvalue
    cases hvalue
  · rw [hcomma] at hvalue
    obtain ⟨_, _, -, hvalue⟩ := withToken_value hvalue
    cases hvalue
  · rw [hcomma] at hvalue
    cases hvalue
  · rw [hcomma] at hvalue
    cases hvalue

theorem Reads.lower {k : ℕ} {t : List Byte} {e : Expr} (h : Reads k t e) (hk : k ≤ 14) {l : ℕ} (hl : l ≤ k) : Reads l t e := by
  induction hl with
  | refl => exact h
  | @step k _ ih => exact ih (.lift (by omega) h) (by omega)

theorem digit_reads {c : Byte} (h : isDigit c = true) : Reads 14 [c] (.number [c]) := by
  have hlength : (strtolAuto [c]).2 = 1 := by rw [strtolAuto_digit c h]
  exact @Reads.number [] [c] (by simp [IsBlank]) ⟨⟨c, rfl, h⟩, hlength⟩

-- a number of two digits is read from its last one on
example : (arithmeticEvaluate (lit "12 ") (.create none 1) 9).1 = .value 2 3 := by decide +kernel

end

end ValidcTools.Sh23.Arithmetic
