import ValidcTools.Lib.Cells
import ValidcTools.Sh23.Variables

/-! The expansion of a command line in a buffer of 1024 bytes. -/
namespace ValidcTools.Sh23

/-- A byte of the buffer, or `none` before it is written -/
abbrev Cell := Option Byte

/-- Where the first NUL is, when no byte before it has been left out -/
def nulAt : List Cell → Option ℕ
  | [] => none
  | none :: _ => none
  | some b :: cells => if b = 0 then some 0 else (nulAt cells).map (· + 1)

/-- `strncat(out + p, value, n)`: `none` is an access outside the buffer or the read of a byte that is not written. -/
def strncat (out : List Cell) (p : ℕ) (value : List Byte) (n : ℕ) : Option (List Cell) :=
  (nulAt (out.drop p)).bind fun k => Cells.setAll out (p + k : ℕ) ((value.take n ++ [0]).map some)

/-- A byte of a variable name -/
def isNameByte (c : Byte) : Bool := isAlnum c || decide (c = '_')

/-- The name behind a `$`, of at most 1023 bytes, and what is behind it -/
def readName (cmd : List Byte) : List Byte × List Byte :=
  match cmd with
  | [] => ([], [])
  | c :: s =>
    if c = '{' then
      let name := (s.takeWhile (· ≠ (0x7D : Byte))).take 1023
      let rest := s.drop name.length
      (name, if rest.head? = some 0x7D then rest.tail else rest)
    else
      let name := ((c :: s).takeWhile isNameByte).take 1023
      (name, (c :: s).drop name.length)

theorem length_readName_le (cmd : List Byte) : (readName cmd).2.length ≤ cmd.length := by
  unfold readName
  cases cmd with
  | nil => exact le_rfl
  | cons c s =>
    simp only
    split_ifs
    · simp only [List.length_tail, List.length_drop, List.length_cons]
      omega
    · simp only [List.length_drop, List.length_cons]
      omega
    · simp only [List.length_drop, List.length_cons]
      omega

/-- The loop of `expand_command`, with `out_ptr - out` bytes behind it -/
def expandLoop (store : VariableStore) (cmd : List Byte) (out : List Cell) (p : ℕ) : Option (List Cell × ℕ) :=
  match cmd with
  | [] => some (out, p)
  | c :: s =>
    if c = '#' then some (out, p)
    else if c = '$' then
      (store.getVariable (readName s).1).bind fun value =>
        (strncat out p value (1024 - p - 1)).bind fun out => expandLoop store (readName s).2 out (p + value.length)
    else if p < 1024 - 1 then (Cells.set? out p (some c)).bind fun out => expandLoop store s out (p + 1)
    else some (out, p)
termination_by cmd.length
decreasing_by
  · have := length_readName_le s
    rw [List.length_cons]
    omega
  · rw [List.length_cons]
    omega

/-- `expand_command` with the buffer of `execute_command`, and where it puts the last NUL -/
def expandCommand (store : VariableStore) (cmd : CString) : Option (List Cell × ℕ) :=
  (Cells.set? (List.replicate 1024 none) 0 (some 0)).bind fun out =>
    (expandLoop store cmd.bytes out 0).bind fun r => (Cells.set? r.1 r.2 (some 0)).map (·, r.2)

/-! ## What the command line says -/

/-- A byte that stands for itself, or a reference to a variable -/
inductive Piece
  | literal (c : Byte)
  | reference (name : List Byte)

/-- The pieces that the loop reads -/
def readPieces (cmd : List Byte) : List Piece :=
  match cmd with
  | [] => []
  | c :: s =>
    if c = '#' then []
    else if c = '$' then .reference (readName s).1 :: readPieces (readName s).2
    else .literal c :: readPieces s
termination_by cmd.length
decreasing_by
  · have := length_readName_le s
    rw [List.length_cons]
    omega
  · rw [List.length_cons]
    omega

/-- The whole name behind a `$`, and what is behind it -/
def wholeName (cmd : List Byte) : List Byte × List Byte :=
  if cmd.head? = some ('{' : Byte) then
    let name := cmd.tail.takeWhile (· ≠ (0x7D : Byte))
    (name, (cmd.tail.drop name.length).tail)
  else (cmd.takeWhile isNameByte, cmd.dropWhile isNameByte)

theorem length_wholeName_le (cmd : List Byte) : (wholeName cmd).2.length ≤ cmd.length := by
  unfold wholeName
  split_ifs
  · simp only [List.length_tail, List.length_drop]
    omega
  · exact (List.dropWhile_sublist _).length_le

/-- The pieces of a text without comments -/
def pieces (text : List Byte) : List Piece :=
  match text with
  | [] => []
  | c :: s =>
    if c = '$' then .reference (wholeName s).1 :: pieces (wholeName s).2 else .literal c :: pieces s
termination_by text.length
decreasing_by
  · have := length_wholeName_le s
    rw [List.length_cons]
    omega
  · rw [List.length_cons]
    omega

namespace Piece

/-- The value of a parameter; all the positional ones are joined. -/
def text (store : VariableStore) : Piece → List Byte
  | .literal c => [c]
  | .reference name => (store.getVariable name).getD (VariableStore.joined store.positionalParams)

def IsReference : Piece → Prop
  | .literal _ => False
  | .reference _ => True

end Piece

/-- The pieces with their values -/
def expansion (store : VariableStore) (l : List Piece) : List Byte := l.flatMap (Piece.text store)

/-- The accesses stay in what is written of the buffer, and up to the last NUL it is the command line before its
first `#`, expanded and cut. -/
def ExpandsExactly (store : VariableStore) (cmd : CString) : Prop :=
  ∃ out p, expandCommand store cmd = some (out, p) ∧
    out.take p = ((expansion store (pieces (cmd.bytes.takeWhile (· ≠ ('#' : Byte))))).take 1023).map some

/-- With `n` bytes before the pieces: each reference is behind more text than the buffer holds, or has only
references before it and its value ends within the buffer. -/
def Ordered (store : VariableStore) (n : ℕ) (l : List Piece) : Prop :=
  ∀ a name b, l = a ++ .reference name :: b →
    ((∀ piece ∈ a, piece.IsReference) ∧ ∃ value, store.getVariable name = some value ∧
      n + (expansion store a).length + value.length ≤ 1023) ∨ 1023 < n + (expansion store a).length

/-- Behind a literal byte a reference must not be reached. -/
def Unreached (store : VariableStore) (n : ℕ) (l : List Piece) : Prop :=
  ∀ a name b, l = a ++ .reference name :: b → 1023 < n + (expansion store a).length

section

variable {store : VariableStore} {n : ℕ} {l : List Piece}

@[simp] theorem expansion_nil (store : VariableStore) : expansion store [] = [] := rfl

@[simp] theorem expansion_cons (store : VariableStore) (piece : Piece) (l : List Piece) :
    expansion store (piece :: l) = piece.text store ++ expansion store l := List.flatMap_cons

theorem unreached_nil : Unreached store n [] := by
  intro a name b heq
  cases (List.append_eq_nil_iff.mp heq.symm).2

theorem unreached_of_lt (h : 1023 < n) (l : List Piece) : Unreached store n l := by
  intro a name b heq
  omega

theorem unreached_literal_iff (c : Byte) : Unreached store n (.literal c :: l) ↔ Unreached store (n + 1) l := by
  constructor
  · rintro h a name b rfl
    have hlen := h (.literal c :: a) name b rfl
    simp only [expansion_cons, Piece.text, List.length_append, List.length_singleton] at hlen
    omega
  · intro h a name b heq
    cases a with
    | nil => cases heq
    | cons piece a =>
      obtain ⟨rfl, rfl⟩ := List.cons.inj heq
      have hlen := h a name b rfl
      simp only [expansion_cons, Piece.text, List.length_append, List.length_singleton]
      omega

theorem ordered_nil : Ordered store n [] := by
  intro a name b heq
  cases (List.append_eq_nil_iff.mp heq.symm).2

theorem ordered_literal_iff (c : Byte) : Ordered store n (.literal c :: l) ↔ Unreached store (n + 1) l := by
  rw [← unreached_literal_iff c]
  constructor
  · intro h a name b heq
    refine (h a name b heq).resolve_left fun hleft => ?_
    cases a with
    | nil => cases heq
    | cons piece a =>
      obtain ⟨rfl, -⟩ := List.cons.inj heq
      exact hleft.1 _ List.mem_cons_self
  · intro h a name b heq
    exact Or.inr (h a name b heq)

theorem ordered_reference_iff (hn : n ≤ 1023) (name : List Byte) : Ordered store n (.reference name :: l) ↔
    ∃ value, store.getVariable name = some value ∧ n + value.length ≤ 1023 ∧ Ordered store (n + value.length) l := by
  constructor
  · intro h
    have hfirst := (h [] name l rfl).resolve_right fun hlong => by
      rw [expansion_nil, List.length_nil] at hlong
      omega
    obtain ⟨-, value, hvalue, hlen⟩ := hfirst
    rw [expansion_nil, List.length_nil, Nat.add_zero] at hlen
    refine ⟨value, hvalue, hlen, ?_⟩
    rintro a name' b rfl
    have hrest := h (.reference name :: a) name' b rfl
    simp only [expansion_cons, Piece.text, hvalue, Option.getD_some, List.length_append, ← Nat.add_assoc] at hrest
    exact hrest.imp_left fun hleft => ⟨fun piece hp => hleft.1 piece (List.mem_cons_of_mem _ hp), hleft.2⟩
  · rintro ⟨value, hvalue, hlen, h⟩ a name' b heq
    cases a with
    | nil =>
      obtain ⟨hname, -⟩ := List.cons.inj heq
      cases hname
      exact Or.inl ⟨fun piece hp => absurd hp List.not_mem_nil, value, hvalue, hlen⟩
    | cons piece a =>
      obtain ⟨rfl, rfl⟩ := List.cons.inj heq
      have hrest := h a name' b rfl
      simp only [expansion_cons, Piece.text, hvalue, Option.getD_some, List.length_append, ← Nat.add_assoc]
      refine hrest.imp_left fun hleft => ⟨fun piece hp => ?_, hleft.2⟩
      cases hp with
      | head => trivial
      | tail _ hp => exact hleft.1 piece hp

end

/-! ## The buffer -/

/-- The buffer while only values have been appended -/
def afterReferences (t : List Byte) : List Cell := t.map some ++ some 0 :: List.replicate (1023 - t.length) none

/-- The buffer once a byte has been stored without a NUL behind it -/
def afterLiterals (t : List Byte) : List Cell := t.map some ++ List.replicate (1024 - t.length) none

theorem length_afterReferences {t : List Byte} (h : t.length ≤ 1023) : (afterReferences t).length = 1024 := by
  unfold afterReferences
  simp only [List.length_append, List.length_map, List.length_cons, List.length_replicate]
  omega

theorem drop_map_append (t : List Byte) (cells : List Cell) : (t.map some ++ cells).drop t.length = cells := by
  have hdrop : (t.map some ++ cells).drop (t.map some).length = cells := List.drop_left
  rwa [List.length_map] at hdrop

theorem take_map_append (t : List Byte) (cells : List Cell) : (t.map some ++ cells).take t.length = t.map some := by
  have htake : (t.map some ++ cells).take (t.map some).length = t.map some := List.take_left
  rwa [List.length_map] at htake

theorem set?_map_append (t : List Byte) (x y : Cell) (cells : List Cell) :
    Cells.set? (t.map some ++ x :: cells) t.length y = some (t.map some ++ y :: cells) := by
  have hset := Cells.set?_append (t.map some) cells x y
  rwa [List.length_map] at hset

theorem strncat_afterReferences {t value : List Byte} (h : t.length + value.length ≤ 1023) :
    strncat (afterReferences t) t.length value (1024 - t.length - 1) = some (afterReferences (t ++ value)) := by
  have hcells : List.replicate (1023 - t.length) (none : Cell) =
      List.replicate value.length none ++ List.replicate (1023 - (t ++ value).length) none := by
    rw [List.replicate_append_replicate, List.length_append]
    congr 1
    omega
  have hlen : (some 0 :: List.replicate value.length (none : Cell)).length = ((value ++ [0]).map some).length := by simp
  have hset := Cells.setAll_append (t.map some) (List.replicate (1023 - (t ++ value).length) (none : Cell)) hlen
  rw [List.length_map] at hset
  unfold strncat afterReferences
  rw [drop_map_append, nulAt, if_pos rfl, Option.bind_some, Nat.add_zero, List.take_of_length_le (by omega), hcells]
  simpa using hset

theorem strncat_afterLiterals {t : List Byte} (h : t.length ≤ 1023) (value : List Byte) (n : ℕ) :
    strncat (afterLiterals t) t.length value n = none := by
  unfold strncat afterLiterals
  rw [drop_map_append, show 1024 - t.length = (1023 - t.length) + 1 by omega, List.replicate_succ]
  rfl

theorem set?_afterReferences {t : List Byte} (h : t.length ≤ 1023) (c : Byte) :
    Cells.set? (afterReferences t) t.length (some c) = some (afterLiterals (t ++ [c])) := by
  unfold afterReferences afterLiterals
  rw [set?_map_append, List.length_append, List.length_singleton, show 1024 - (t.length + 1) = 1023 - t.length by omega]
  simp

theorem set?_afterLiterals {t : List Byte} (h : t.length ≤ 1023) (c : Byte) :
    Cells.set? (afterLiterals t) t.length (some c) = some (afterLiterals (t ++ [c])) := by
  unfold afterLiterals
  rw [show 1024 - t.length = (1023 - t.length) + 1 by omega, List.replicate_succ, set?_map_append, List.length_append,
    List.length_singleton, show 1024 - (t.length + 1) = 1023 - t.length by omega]
  simp

/-! ## The run -/

/-- The last NUL -/
def terminate (r : List Cell × ℕ) : Option (List Cell × ℕ) := (Cells.set? r.1 r.2 (some 0)).map (·, r.2)

/-- The buffer holds the text. -/
def Filled (r : Option (List Cell × ℕ)) (text : List Byte) : Prop :=
  ∃ out p, r = some (out, p) ∧ out.take p = text.map some

theorem terminate_afterReferences {t : List Byte} (h : t.length ≤ 1023) :
    Filled (terminate (afterReferences t, t.length)) (t.take 1023) := by
  refine ⟨afterReferences t, t.length, ?_, ?_⟩
  · unfold terminate afterReferences
    rw [set?_map_append]
    rfl
  · rw [List.take_of_length_le h]
    exact take_map_append t _

theorem terminate_afterLiterals {t : List Byte} (h : t.length ≤ 1023) :
    Filled (terminate (afterLiterals t, t.length)) (t.take 1023) := by
  refine ⟨t.map some ++ some 0 :: List.replicate (1023 - t.length) none, t.length, ?_, ?_⟩
  · unfold terminate afterLiterals
    rw [show 1024 - t.length = (1023 - t.length) + 1 by omega, List.replicate_succ, set?_map_append]
    rfl
  · rw [List.take_of_length_le h]
    exact take_map_append t _

variable {store : VariableStore}

/-- Behind the buffer nothing can be done any more. -/
theorem expandLoop_beyond {out : List Cell} {p : ℕ} (hout : out.length = 1024) (hp : 1024 ≤ p) (cmd : List Byte) :
    (expandLoop store cmd out p).bind terminate = none := by
  have hend : terminate (out, p) = none := by
    unfold terminate
    rw [Cells.set?_eq_none_iff.mpr (Or.inr (by rw [hout]; exact_mod_cast hp))]
    rfl
  unfold expandLoop
  cases cmd with
  | nil => exact hend
  | cons c s =>
    simp only
    split_ifs with hhash hdollar hroom
    · exact hend
    · cases store.getVariable (readName s).1 with
      | none => rfl
      | some value =>
        have hcat : strncat out p value (1024 - p - 1) = none := by
          unfold strncat
          rw [List.drop_eq_nil_of_le (by omega)]
          rfl
        rw [Option.bind_some, hcat]
        rfl
    · omega
    · exact hend

/-- A byte for which there is no room ends the loop. -/
theorem take_append_of_full {t : List Byte} (h : t.length = 1023) (u : List Byte) : (t ++ u).take 1023 = t.take 1023 := by
  rw [List.take_append_of_le_length h.ge]

theorem expandLoop_afterLiterals (cmd : List Byte) {t : List Byte} (h : t.length ≤ 1023) :
    (Unreached store t.length (readPieces cmd) →
      Filled ((expandLoop store cmd (afterLiterals t) t.length).bind terminate)
        ((t ++ expansion store (readPieces cmd)).take 1023)) ∧
    (¬Unreached store t.length (readPieces cmd) →
      (expandLoop store cmd (afterLiterals t) t.length).bind terminate = none) := by
  induction cmd using readPieces.induct generalizing t with
  | case1 =>
    rw [readPieces, expandLoop, expansion_nil, List.append_nil]
    exact ⟨fun _ => terminate_afterLiterals h, fun hnot => absurd unreached_nil hnot⟩
  | case2 s =>
    rw [readPieces, if_pos rfl, expandLoop, if_pos rfl, expansion_nil, List.append_nil]
    exact ⟨fun _ => terminate_afterLiterals h, fun hnot => absurd unreached_nil hnot⟩
  | case3 s hhash ih =>
    have hreached : ¬Unreached store t.length (.reference (readName s).1 :: readPieces (readName s).2) := by
      intro hun
      have hlong := hun [] _ _ rfl
      rw [expansion_nil, List.length_nil] at hlong
      omega
    rw [readPieces, if_neg hhash, if_pos rfl, expandLoop, if_neg hhash, if_pos rfl]
    refine ⟨fun hun => absurd hun hreached, fun _ => ?_⟩
    cases store.getVariable (readName s).1 with
    | none => rfl
    | some value =>
      rw [Option.bind_some, strncat_afterLiterals h]
      rfl
  | case4 c s hhash hdollar ih =>
    rw [readPieces, if_neg hhash, if_neg hdollar, expandLoop, if_neg hhash, if_neg hdollar, unreached_literal_iff,
      expansion_cons, Piece.text]
    by_cases hroom : t.length < 1024 - 1
    · have hnext := ih (t := t ++ [c]) (by rw [List.length_append, List.length_singleton]; omega)
      rw [List.length_append, List.length_singleton, List.append_assoc] at hnext
      rw [if_pos hroom, set?_afterLiterals h]
      exact hnext
    · have hfull : t.length = 1023 := by omega
      rw [if_neg hroom, take_append_of_full hfull]
      exact ⟨fun _ => terminate_afterLiterals h, fun hnot => absurd (unreached_of_lt (by omega) _) hnot⟩

theorem expandLoop_afterReferences (cmd : List Byte) {t : List Byte} (h : t.length ≤ 1023) :
    (Ordered store t.length (readPieces cmd) →
      Filled ((expandLoop store cmd (afterReferences t) t.length).bind terminate)
        ((t ++ expansion store (readPieces cmd)).take 1023)) ∧
    (¬Ordered store t.length (readPieces cmd) →
      (expandLoop store cmd (afterReferences t) t.length).bind terminate = none) := by
  induction cmd using readPieces.induct generalizing t with
  | case1 =>
    rw [readPieces, expandLoop, expansion_nil, List.append_nil]
    exact ⟨fun _ => terminate_afterReferences h, fun hnot => absurd ordered_nil hnot⟩
  | case2 s =>
    rw [readPieces, if_pos rfl, expandLoop, if_pos rfl, expansion_nil, List.append_nil]
    exact ⟨fun _ => terminate_afterReferences h, fun hnot => absurd ordered_nil hnot⟩
  | case3 s hhash ih =>
    rw [readPieces, if_neg hhash, if_pos rfl, expandLoop, if_neg hhash, if_pos rfl, ordered_reference_iff h, expansion_cons,
      Piece.text]
    cases hvalue : store.getVariable (readName s).1 with
    | none =>
      refine ⟨fun hex => ?_, fun _ => rfl⟩
      obtain ⟨_, hnone, -⟩ := hex
      cases hnone
    | some value =>
      rw [Option.bind_some, Option.getD_some]
      by_cases hlen : t.length + value.length ≤ 1023
      · have hnext := ih (t := t ++ value) (by rw [List.length_append]; exact hlen)
        rw [List.length_append, List.append_assoc] at hnext
        have hiff : (∃ v, some value = some v ∧ t.length + v.length ≤ 1023 ∧
            Ordered store (t.length + v.length) (readPieces (readName s).2)) ↔
            Ordered store (t.length + value.length) (readPieces (readName s).2) := by
          simp [hlen]
        rw [hiff, strncat_afterReferences hlen]
        exact hnext
      · refine ⟨fun hex => ?_, fun _ => ?_⟩
        · obtain ⟨v, hv, hvlen, -⟩ := hex
          obtain rfl := Option.some.inj hv
          exact absurd hvlen hlen
        · cases hcat : strncat (afterReferences t) t.length value (1024 - t.length - 1) with
          | none => rfl
          | some out =>
            have hout : out.length = 1024 := by
              unfold strncat at hcat
              obtain ⟨k, -, hset⟩ := Option.bind_eq_some_iff.mp hcat
              rw [Cells.length_of_setAll hset, length_afterReferences h]
            exact expandLoop_beyond hout (by omega) _
  | case4 c s hhash hdollar ih =>
    rw [readPieces, if_neg hhash, if_neg hdollar, expandLoop, if_neg hhash, if_neg hdollar, ordered_literal_iff,
      expansion_cons, Piece.text]
    by_cases hroom : t.length < 1024 - 1
    · have hnext := @expandLoop_afterLiterals store s (t ++ [c])
        (by rw [List.length_append, List.length_singleton]; omega)
      rw [List.length_append, List.length_singleton, List.append_assoc] at hnext
      rw [if_pos hroom, set?_afterReferences h]
      exact hnext
    · have hfull : t.length = 1023 := by omega
      rw [if_neg hroom, take_append_of_full hfull]
      exact ⟨fun _ => terminate_afterReferences h, fun hnot => absurd (unreached_of_lt (by omega) _) hnot⟩

theorem expandCommand_eq (store : VariableStore) (cmd : CString) :
    expandCommand store cmd = (expandLoop store cmd.bytes (afterReferences []) 0).bind terminate := by
  have hempty : Cells.set? (List.replicate 1024 (none : Cell)) 0 (some 0) = some (afterReferences []) := by
    unfold afterReferences
    rw [List.replicate_succ]
    exact set?_map_append [] none (some 0) _
  unfold expandCommand
  rw [hempty]
  rfl

/-! ## The two readings -/

theorem drop_length_takeWhile (p : Byte → Bool) (l : List Byte) : l.drop (l.takeWhile p).length = l.dropWhile p := by
  have hdrop : (l.takeWhile p ++ l.dropWhile p).drop (l.takeWhile p).length = l.dropWhile p := List.drop_left
  rwa [List.takeWhile_append_dropWhile] at hdrop

theorem dropWhile_close (s : List Byte) :
    s.dropWhile (· ≠ (0x7D : Byte)) = [] ∨ ∃ r, s.dropWhile (· ≠ (0x7D : Byte)) = 0x7D :: r := by
  cases hrest : s.dropWhile (· ≠ (0x7D : Byte)) with
  | nil => exact Or.inl rfl
  | cons b r =>
    have hb := List.head?_dropWhile_not (fun x : Byte => decide (x ≠ 0x7D)) s
    rw [hrest] at hb
    have hclose : b = 0x7D := by simpa using hb
    exact Or.inr ⟨r, by rw [hclose]⟩

theorem readName_brace {s : List Byte} (hlen : (readName (('{' : Byte) :: s)).1.length < 1023) :
    readName (('{' : Byte) :: s) = (s.takeWhile (· ≠ (0x7D : Byte)), (s.dropWhile (· ≠ (0x7D : Byte))).tail) := by
  have hname : (readName (('{' : Byte) :: s)).1 = (s.takeWhile (· ≠ (0x7D : Byte))).take 1023 := rfl
  rw [hname, List.length_take] at hlen
  have hwhole : (s.takeWhile (· ≠ (0x7D : Byte))).take 1023 = s.takeWhile (· ≠ (0x7D : Byte)) :=
    List.take_of_length_le (by omega)
  unfold readName
  simp only [if_true]
  rw [hwhole, drop_length_takeWhile]
  congr 1
  rcases dropWhile_close s with hnil | ⟨r, hclose⟩
  · rw [hnil]
    rfl
  · rw [hclose, List.head?_cons, if_pos rfl]

theorem readName_plain {c : Byte} (hc : c ≠ '{') {s : List Byte} (hlen : (readName (c :: s)).1.length < 1023) :
    readName (c :: s) = ((c :: s).takeWhile isNameByte, (c :: s).dropWhile isNameByte) := by
  unfold readName at hlen ⊢
  simp only [if_neg hc] at hlen ⊢
  rw [List.length_take] at hlen
  have hwhole : ((c :: s).takeWhile isNameByte).take 1023 = (c :: s).takeWhile isNameByte :=
    List.take_of_length_le (by omega)
  rw [hwhole, drop_length_takeWhile]

theorem takeWhile_takeWhile_append {p : Byte → Bool} {l : List Byte} (h : ('#' : Byte) ∉ l.takeWhile p) :
    l.takeWhile (· ≠ ('#' : Byte)) = l.takeWhile p ++ (l.dropWhile p).takeWhile (· ≠ ('#' : Byte)) := by
  conv_lhs => rw [← List.takeWhile_append_dropWhile (p := p) (l := l)]
  exact List.takeWhile_append_of_pos fun b hb => by simpa using ne_of_mem_of_not_mem hb h

/-- Cutting off the comment does not make the name longer. -/
theorem takeWhile_cut {p : Byte → Bool} {l : List Byte} (h : ('#' : Byte) ∉ l.takeWhile p) :
    (l.takeWhile (· ≠ ('#' : Byte))).takeWhile p = l.takeWhile p ∧
      (l.takeWhile (· ≠ ('#' : Byte))).dropWhile p = (l.dropWhile p).takeWhile (· ≠ ('#' : Byte)) := by
  have hall : ∀ b ∈ l.takeWhile p, p b = true := fun b hb => List.mem_takeWhile_imp hb
  have hstop : ((l.dropWhile p).takeWhile (· ≠ ('#' : Byte))).takeWhile p = [] ∧
      ((l.dropWhile p).takeWhile (· ≠ ('#' : Byte))).dropWhile p = (l.dropWhile p).takeWhile (· ≠ ('#' : Byte)) := by
    cases hrest : l.dropWhile p with
    | nil => exact ⟨rfl, rfl⟩
    | cons b r =>
      have hb := List.head?_dropWhile_not p l
      rw [hrest] at hb
      have hnot : p b = false := by simpa using hb
      by_cases hhash : b = '#'
      · rw [List.takeWhile_cons_of_neg (by simpa using hhash)]
        exact ⟨rfl, rfl⟩
      · rw [List.takeWhile_cons_of_pos (by simpa using hhash), List.takeWhile_cons_of_neg (by rw [hnot]; exact Bool.false_ne_true),
          List.dropWhile_cons_of_neg (by rw [hnot]; exact Bool.false_ne_true)]
        exact ⟨rfl, rfl⟩
  rw [takeWhile_takeWhile_append h, List.takeWhile_append_of_pos hall, List.dropWhile_append_of_pos hall, hstop.1, hstop.2,
    List.append_nil]
  exact ⟨rfl, rfl⟩

/-- A name that is whole ends in the same place before a comment is cut off and after it. -/
theorem wholeName_takeWhile {s : List Byte} (hlen : (readName s).1.length < 1023) (hhash : ('#' : Byte) ∉ (readName s).1) :
    wholeName (s.takeWhile (· ≠ ('#' : Byte))) = ((readName s).1, (readName s).2.takeWhile (· ≠ ('#' : Byte))) := by
  cases s with
  | nil => rfl
  | cons c s =>
    by_cases hbrace : c = '{'
    · subst hbrace
      rw [readName_brace hlen] at hhash ⊢
      obtain ⟨htake, hdrop⟩ := takeWhile_cut hhash
      have hcons : (('{' : Byte) :: s).takeWhile (· ≠ ('#' : Byte)) = ('{' : Byte) :: s.takeWhile (· ≠ ('#' : Byte)) :=
        List.takeWhile_cons_of_pos (by decide)
      unfold wholeName
      rw [hcons, List.head?_cons, if_pos rfl, List.tail_cons]
      simp only
      rw [drop_length_takeWhile, htake, hdrop]
      congr 1
      rcases dropWhile_close s with hnil | ⟨r, hclose⟩
      · rw [hnil]
        rfl
      · rw [hclose, List.takeWhile_cons_of_pos (by decide), List.tail_cons, List.tail_cons]
    · rw [readName_plain hbrace hlen] at hhash ⊢
      obtain ⟨htake, hdrop⟩ := takeWhile_cut hhash
      have hhead : ¬((c :: s).takeWhile (· ≠ ('#' : Byte))).head? = some ('{' : Byte) := by
        by_cases hc : c = '#'
        · rw [List.takeWhile_cons_of_neg (by simpa using hc)]
          simp
        · rw [List.takeWhile_cons_of_pos (by simpa using hc)]
          simpa using hbrace
      unfold wholeName
      rw [if_neg hhead, htake, hdrop]

/-- Where no name is cut and no `#` stands in braces, the loop reads what the command line says. -/
theorem pieces_eq_readPieces (cmd : List Byte)
    (h : ∀ name, .reference name ∈ readPieces cmd → name.length < 1023 ∧ ('#' : Byte) ∉ name) :
    pieces (cmd.takeWhile (· ≠ ('#' : Byte))) = readPieces cmd := by
  induction cmd using readPieces.induct with
  | case1 => rw [List.takeWhile_nil, pieces, readPieces]
  | case2 s =>
    rw [List.takeWhile_cons_of_neg (by simp), pieces, readPieces, if_pos rfl]
  | case3 s hhash ih =>
    rw [readPieces, if_neg hhash, if_pos rfl] at h ⊢
    obtain ⟨hlen, hnohash⟩ := h _ List.mem_cons_self
    have hrest := ih fun name hname => h name (List.mem_cons_of_mem _ hname)
    rw [List.takeWhile_cons_of_pos (by simpa using hhash), pieces, if_pos rfl, wholeName_takeWhile hlen hnohash, hrest]
  | case4 c s hhash hdollar ih =>
    rw [readPieces, if_neg hhash, if_neg hdollar] at h ⊢
    rw [List.takeWhile_cons_of_pos (by simpa using hhash), pieces, if_neg hdollar,
      ih fun name hname => h name (List.mem_cons_of_mem _ hname)]

/-- The references must be read in order, each within the buffer or behind more text than it holds, and the loop must
read the same text as the command line says, as far as the buffer goes. -/
theorem expandsExactly_iff (store : VariableStore) (cmd : CString) :
    ExpandsExactly store cmd ↔ Ordered store 0 (readPieces cmd.bytes) ∧
      (expansion store (readPieces cmd.bytes)).take 1023 =
        (expansion store (pieces (cmd.bytes.takeWhile (· ≠ ('#' : Byte))))).take 1023 := by
  obtain ⟨hfilled, hfails⟩ := @expandLoop_afterReferences store cmd.bytes [] (Nat.zero_le _)
  unfold ExpandsExactly
  rw [expandCommand_eq]
  by_cases hordered : Ordered store 0 (readPieces cmd.bytes)
  · obtain ⟨out, p, hrun, htext⟩ := hfilled hordered
    rw [List.nil_append] at htext
    rw [List.length_nil] at hrun
    simp only [hrun, Option.some.injEq, Prod.mk.injEq, hordered, true_and]
    constructor
    · rintro ⟨out', p', ⟨rfl, rfl⟩, htext'⟩
      exact List.map_injective_iff.mpr (Option.some_injective _) (htext.symm.trans htext')
    · intro hsame
      exact ⟨out, p, ⟨rfl, rfl⟩, hsame ▸ htext⟩
  · have hnone := hfails hordered
    rw [List.length_nil] at hnone
    refine iff_of_false ?_ fun h => hordered h.1
    rintro ⟨out, p, hrun, -⟩
    rw [hnone] at hrun
    cases hrun

/-- A reference behind a literal byte -/
theorem not_expandsExactly : ¬ExpandsExactly (.create none 1) (.lit "a$x") := by
  have hreached : ¬Ordered (.create none 1) 0 (readPieces (CString.lit "a$x").bytes) := by
    have hpieces : readPieces (CString.lit "a$x").bytes = [.literal 0x61] ++ .reference [0x78] :: [] := by
      have hbytes : (CString.lit "a$x").bytes = [0x61, 0x24, 0x78] := by decide
      have hname : readName [0x78] = ([0x78], []) := by decide
      rw [hbytes, readPieces, if_neg (by decide), if_neg (by decide), readPieces, if_neg (by decide), if_pos (by decide),
        hname, readPieces]
      rfl
    intro h
    rcases h _ _ _ hpieces with hleft | hlong
    · exact hleft.1 _ List.mem_cons_self
    · simp [Piece.text] at hlong
  rintro ⟨out, p, hrun, -⟩
  rw [expandCommand_eq] at hrun
  have hnone := (@expandLoop_afterReferences (.create none 1) (CString.lit "a$x").bytes [] (Nat.zero_le _)).2 hreached
  rw [List.length_nil] at hnone
  rw [hnone] at hrun
  cases hrun

end ValidcTools.Sh23
