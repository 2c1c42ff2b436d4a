import ValidcTools.Tr.Filter

/-! Operands of literal bytes, ranges and classes, and what `expand_string` makes of them. -/
namespace ValidcTools.Tr

/-! ## Substrings -/

theorem strstr_cons (b : Byte) (s sub : List Byte) :
    strstr (b :: s) sub = if sub.isPrefixOf (b :: s) then some 0 else (strstr s sub).map (· + 1) := by
  unfold strstr
  rw [List.tails, List.findIdx?_cons]

/-- The first place of a pair is after what does not have it. -/
theorem strstr_append {x y : Byte} (hxy : x ≠ y) {body : List Byte} (h : ¬[x, y] <:+: body) (s : List Byte) :
    strstr (body ++ x :: y :: s) [x, y] = some body.length := by
  induction body with
  | nil =>
    rw [List.nil_append, strstr_cons, if_pos (by simp [List.isPrefixOf])]
    rfl
  | cons b body ih =>
    have hno : ¬[x, y].isPrefixOf (b :: (body ++ x :: y :: s)) = true := by
      intro hstart
      cases body with
      | nil => simp [List.isPrefixOf, hxy.symm] at hstart
      | cons c body =>
        refine h ⟨[], body, ?_⟩
        simp only [List.isPrefixOf, List.cons_append, Bool.and_eq_true, beq_iff_eq] at hstart
        simp [hstart.1, hstart.2.1]
    rw [List.cons_append, strstr_cons, if_neg hno, ih fun hpair => h (hpair.trans ⟨[b], [], by simp⟩)]
    rfl

theorem eq_of_strstr {s sub : List Byte} {n : ℕ} (h : strstr s sub = some n) :
    s = s.take n ++ sub ++ s.drop (n + sub.length) := by
  induction s generalizing n with
  | nil =>
    unfold strstr at h
    cases sub with
    | nil => simp
    | cons b sub => simp [List.isPrefixOf] at h
  | cons b s ih =>
    rw [strstr_cons] at h
    split_ifs at h with hstart
    · obtain rfl := Option.some.inj h
      obtain ⟨t, ht⟩ := List.isPrefixOf_iff_prefix.mp hstart
      rw [← ht]
      simp
    · obtain ⟨m, hm, rfl⟩ := Option.map_eq_some_iff.mp h
      have hs := ih hm
      rw [show m + 1 + sub.length = (m + sub.length) + 1 by omega, List.take_succ_cons, List.drop_succ_cons]
      simpa using hs

/-! ## The names of the classes -/

theorem mem_allBytes (b : Byte) : b ∈ allBytes :=
  List.mem_map.mpr ⟨b.toNat, List.mem_range.mpr b.toNat_lt, UInt8.ofNat_toNat⟩

theorem classFunc_spec {name : List Byte} {func : Byte → Bool} (h : classFunc name = some func) :
    ¬[0x3A, 0x5D] <:+: name ∧ name ≠ [] ∧ name.length < 32 ∧ name.head? ≠ some 0x2A ∧ allBytes.filter func ≠ [] := by
  have hall : ∀ c ∈ classes, 0x3A ∉ c.1.bytes ∧ c.1.bytes ≠ [] ∧ c.1.bytes.length < 32 ∧
      c.1.bytes.head? ≠ some 0x2A ∧ allBytes.filter c.2 ≠ [] := by
    decide
  obtain ⟨c, hc, rfl⟩ := Option.map_eq_some_iff.mp h
  have hfound := List.find?_some hc
  have hname := of_decide_eq_true hfound
  obtain ⟨hcolon, hrest⟩ := hall c (List.mem_of_find?_eq_some hc)
  rw [hname] at hcolon hrest
  exact ⟨fun hpair => hcolon (hpair.subset List.mem_cons_self), hrest⟩

/-! ## Operands -/

/-- What an operand consists of. -/
inductive Element
  | literal (b : Byte)
  | range (a c : Byte)
  | cls (func : Byte → Bool)

def Element.bytes : Element → List Byte
  | .literal b => [b]
  | .range a c => rangeBytes a c
  | .cls func => allBytes.filter func

def StartsClass (s : List Byte) : Prop :=
  ∃ name rest, classFunc name ≠ none ∧ s = 0x5B :: 0x3A :: (name ++ 0x3A :: 0x5D :: rest)

def StartsEquivalence (s : List Byte) : Prop :=
  ∃ body rest, s = 0x5B :: 0x3D :: (body ++ 0x3D :: 0x5D :: rest)

/-- `s` starts with "[c*]" or "[c*n]". -/
def StartsRepeat (s : List Byte) : Prop :=
  ∃ c n rest, s = 0x5B :: c :: 0x2A :: (n ++ 0x5D :: rest) ∧ c ≠ '*' ∧ c ≠ ']' ∧ 0x5D ∉ n ∧
    (n = [] ∨ (n.length < 32 ∧ ∃ val, strtol n = some val ∧ 0 < val ∧ val ≤ MAX_STRING))

/-- No construct but a range can start `s`. -/
structure Plain (isString2 : Bool) (s : List Byte) : Prop where
  noRepeat : isString2 = true → ¬StartsRepeat s
  noClass : ¬StartsClass s
  noEquivalence : ¬StartsEquivalence s

/-- The elements of a string. An equivalence class is not supported, and its text is literal; a string
for STRING2 has no repetition. -/
inductive Spells (isString2 : Bool) : List Byte → List Element → Prop
  | nil : Spells isString2 [] []
  | cls {name s : List Byte} {func : Byte → Bool} {es : List Element} (hname : classFunc name = some func)
      (hs : Spells isString2 s es) : Spells isString2 (0x5B :: 0x3A :: (name ++ 0x3A :: 0x5D :: s)) (.cls func :: es)
  | equivalence {body s : List Byte} {es : List Element} (hbody : ¬[0x3D, 0x5D] <:+: body)
      (hrepeat : isString2 = true → ¬StartsRepeat (0x5B :: 0x3D :: (body ++ 0x3D :: 0x5D :: s)))
      (hs : Spells isString2 s es) :
      Spells isString2 (0x5B :: 0x3D :: (body ++ 0x3D :: 0x5D :: s))
        ((0x5B :: 0x3D :: (body ++ [0x3D, 0x5D])).map .literal ++ es)
  | range {a c : Byte} {s : List Byte} {es : List Element} (ha : a ≠ '-') (hc : c ≠ '-')
      (hplain : Plain isString2 (a :: 0x2D :: c :: s)) (hs : Spells isString2 s es) :
      Spells isString2 (a :: 0x2D :: c :: s) (.range a c :: es)
  | literal {b : Byte} {s : List Byte} {es : List Element}
      (hrange : ∀ c rest, s = 0x2D :: c :: rest → b = '-' ∨ c = '-')
      (hplain : Plain isString2 (b :: s)) (hs : Spells isString2 s es) : Spells isString2 (b :: s) (.literal b :: es)

structure Operand (isString2 : Bool) where
  string : CString
  elements : List Element
  spells : Spells isString2 string.bytes elements

def Operand.bytes {isString2 : Bool} (s : Operand isString2) : List Byte := s.elements.flatMap Element.bytes

/-! ## One turn -/

theorem parseClass_eq_none {s : List Byte} (h : ¬StartsClass s) (len : ℕ) : parseClass s len = none := by
  unfold parseClass
  split
  · next p =>
    split
    · rfl
    · next n hn =>
      have hp := eq_of_strstr hn
      split_ifs
      · rfl
      · cases hfunc : classFunc (p.take n) with
        | none => rfl
        | some func =>
          refine absurd ⟨p.take n, p.drop (n + 2), by simp [hfunc], ?_⟩ h
          rw [List.append_assoc] at hp
          exact congrArg (0x5B :: 0x3A :: ·) hp
  · rfl

theorem equivalenceClass_eq_none {s : List Byte} (h : ¬StartsEquivalence s) : equivalenceClass s = none := by
  unfold equivalenceClass
  split
  · next p =>
    rw [Option.map_eq_none_iff, Option.eq_none_iff_forall_ne_some]
    intro n hn
    have hp := eq_of_strstr hn
    rw [List.append_assoc] at hp
    exact h ⟨p.take n, p.drop (n + 2), congrArg (0x5B :: 0x3D :: ·) hp⟩
  · rfl

theorem parseRepeat_eq_none {s : List Byte} (h : ¬StartsRepeat s) (len : ℕ) : parseRepeat s len = some none := by
  unfold parseRepeat
  split
  · next c p =>
    dsimp only
    by_cases hc : c = '*' ∨ c = ']' ∨ 0x5D ∉ p
    · rw [if_pos hc]
    rw [if_neg hc]
    push Not at hc
    obtain ⟨hstar, hbracket, hmem⟩ := hc
    obtain ⟨n, rest, rfl, hno⟩ := List.eq_append_cons_of_mem hmem
    have htake : (n ++ 0x5D :: rest).takeWhile (· ≠ 0x5D) = n := by
      rw [List.takeWhile_append_of_pos fun b hb => decide_eq_true (ne_of_mem_of_not_mem hb hno)]
      exact (congrArg (n ++ ·) (List.takeWhile_cons_of_neg (by decide))).trans (List.append_nil n)
    have hnever (hn : n = [] ∨ (n.length < 32 ∧ ∃ val, strtol n = some val ∧ 0 < val ∧ val ≤ MAX_STRING)) : False :=
      h ⟨c, n, rest, rfl, hstar, hbracket, hno, hn⟩
    rw [htake, if_neg fun hnil => hnever (Or.inl hnil)]
    split_ifs with hlong
    · rfl
    · split
      · rfl
      · next val hval =>
        rw [if_pos]
        by_contra hin
        push Not at hin
        exact hnever (Or.inr ⟨by omega, val, hval, hin.1, hin.2⟩)
  · rfl

theorem parseRepeat_if_eq_none {isString2 : Bool} {s : List Byte} (h : isString2 = true → ¬StartsRepeat s) (len : ℕ) :
    (if isString2 = true then parseRepeat s len else some none) = some none := by
  split_ifs with h2
  · exact parseRepeat_eq_none (h h2) len
  · rfl

theorem expandTurn_cls {name : List Byte} {func : Byte → Bool} (hname : classFunc name = some func) (isString2 : Bool)
    (s : List Byte) {len : ℕ} (hlen : len < MAX_STRING) :
    expandTurn isString2 (0x5B :: 0x3A :: (name ++ 0x3A :: 0x5D :: s)) len =
      some (s, (Element.cls func).bytes.take (MAX_STRING - len)) := by
  obtain ⟨hpair, hnil, hlong, hhead, -⟩ := classFunc_spec hname
  have hrepeat : ¬StartsRepeat (0x5B :: 0x3A :: (name ++ 0x3A :: 0x5D :: s)) := by
    rintro ⟨c, n, rest, hs, -⟩
    cases name with
    | nil => exact hnil rfl
    | cons b name =>
      exact hhead (congrArg some (List.cons.inj (List.cons.inj (List.cons.inj hs).2).2).1)
  have hclass : parseClass (0x5B :: 0x3A :: (name ++ 0x3A :: 0x5D :: s)) len =
      some (s, (allBytes.filter func).take (MAX_STRING - len)) := by
    have hlength : ¬(name.length = 0 ∨ 32 ≤ name.length) := by
      rw [List.length_eq_zero_iff]
      exact not_or.mpr ⟨hnil, not_le.mpr hlong⟩
    unfold parseClass
    simp only [strstr_append (by decide : (0x3A : Byte) ≠ 0x5D) hpair, if_neg hlength, List.take_left, hname]
    rw [show name ++ 0x3A :: 0x5D :: s = (name ++ [0x3A, 0x5D]) ++ s by simp, List.drop_left' (by simp)]
  unfold expandTurn
  rw [if_neg (not_le.mpr hlen), parseRepeat_if_eq_none fun _ => hrepeat]
  simp only [hclass]
  rfl

theorem expandTurn_equivalence {isString2 : Bool} {body s : List Byte} (hbody : ¬[0x3D, 0x5D] <:+: body)
    (hrepeat : isString2 = true → ¬StartsRepeat (0x5B :: 0x3D :: (body ++ 0x3D :: 0x5D :: s))) {len : ℕ}
    (hlen : len < MAX_STRING) :
    expandTurn isString2 (0x5B :: 0x3D :: (body ++ 0x3D :: 0x5D :: s)) len =
      some ((0x5B :: 0x3D :: (body ++ 0x3D :: 0x5D :: s)).drop (min (body.length + 4) (MAX_STRING - len)),
        (0x5B :: 0x3D :: (body ++ 0x3D :: 0x5D :: s)).take (min (body.length + 4) (MAX_STRING - len))) := by
  have hclass : ¬StartsClass (0x5B :: 0x3D :: (body ++ 0x3D :: 0x5D :: s)) := by
    rintro ⟨name, rest, -, hs⟩
    exact absurd (congrArg (·[1]?) hs) (by simp)
  unfold expandTurn
  rw [if_neg (not_le.mpr hlen), parseRepeat_if_eq_none hrepeat]
  simp only [parseClass_eq_none hclass]
  unfold equivalenceClass
  simp only [strstr_append (by decide : (0x3D : Byte) ≠ 0x5D) hbody, Option.map_some]

theorem expandTurn_plain {isString2 : Bool} {b : Byte} {s : List Byte} (h : Plain isString2 (b :: s)) {len : ℕ}
    (hlen : len < MAX_STRING) :
    expandTurn isString2 (b :: s) len = rangeOrLiteral (b :: s) len := by
  unfold expandTurn
  rw [if_neg (not_le.mpr hlen), parseRepeat_if_eq_none h.noRepeat]
  simp only [parseClass_eq_none h.noClass, equivalenceClass_eq_none h.noEquivalence]

theorem expandTurn_range {isString2 : Bool} {a c : Byte} {s : List Byte} (ha : a ≠ '-') (hc : c ≠ '-')
    (h : Plain isString2 (a :: 0x2D :: c :: s)) {len : ℕ} (hlen : len < MAX_STRING) :
    expandTurn isString2 (a :: 0x2D :: c :: s) len =
      some (s, (Element.range a c).bytes.take (MAX_STRING - len)) := by
  rw [expandTurn_plain h hlen]
  exact if_pos ⟨ha, hc⟩

theorem expandTurn_literal {isString2 : Bool} {b : Byte} {s : List Byte}
    (hrange : ∀ c rest, s = 0x2D :: c :: rest → b = '-' ∨ c = '-') (h : Plain isString2 (b :: s)) {len : ℕ}
    (hlen : len < MAX_STRING) :
    expandTurn isString2 (b :: s) len = some (s, (Element.literal b).bytes.take (MAX_STRING - len)) := by
  have htake : (Element.literal b).bytes.take (MAX_STRING - len) = [b] :=
    List.take_of_length_le (show 1 ≤ MAX_STRING - len by omega)
  rw [expandTurn_plain h hlen, htake]
  unfold rangeOrLiteral
  split
  · next a c rest heq =>
    obtain ⟨rfl, rfl⟩ := List.cons.inj heq
    rw [if_neg fun hne => (hrange c rest rfl).elim hne.1 hne.2]
  · next a rest _ heq =>
    obtain ⟨rfl, rfl⟩ := List.cons.inj heq
    rfl
  · next heq => cases heq

/-! ## The whole operand -/

theorem mem_rangeBytes_left (a c : Byte) : a ∈ rangeBytes a c := by
  unfold rangeBytes between
  split_ifs with h
  · exact List.mem_filter.mpr ⟨mem_allBytes a, decide_eq_true ⟨UInt8.le_refl a, h⟩⟩
  · have hca : c ≤ a := (UInt8.le_total a c).resolve_left h
    exact List.mem_filter.mpr ⟨mem_allBytes a, decide_eq_true ⟨hca, UInt8.le_refl a⟩⟩

/-- A string that is not empty has an element, and no element is without a byte. -/
theorem Spells.bytes_ne_nil {isString2 : Bool} {s : List Byte} {es : List Element} (h : Spells isString2 s es)
    (hs : s ≠ []) : es.flatMap Element.bytes ≠ [] := by
  cases h with
  | nil => exact absurd rfl hs
  | cls hname => exact fun hnil => (classFunc_spec hname).2.2.2.2 (List.append_eq_nil_iff.mp hnil).1
  | equivalence => exact List.cons_ne_nil _ _
  | @range a c => exact fun hnil => List.ne_nil_of_mem (mem_rangeBytes_left a c) (List.append_eq_nil_iff.mp hnil).1
  | literal => exact List.cons_ne_nil _ _

/-- Bytes that do not fit are cut off, wherever the room runs out. -/
theorem take_append_take (n : ℕ) (out adds more : List Byte) :
    ((out ++ adds.take (n - out.length)) ++ more).take n = (out ++ (adds ++ more)).take n := by
  have hrest : n - out.length - min (n - out.length) adds.length = n - out.length - adds.length := by omega
  simp only [List.append_assoc, List.take_append, List.length_take, List.take_take, min_self, hrest]

theorem expandLoop_cons {isString2 : Bool} {s rest adds out : List Byte} (hs : s ≠ [])
    (h : expandTurn isString2 s out.length = some (rest, adds)) :
    expandLoop isString2 s out = expandLoop isString2 rest (out ++ adds) := by
  conv_lhs => unfold expandLoop
  rw [dif_neg hs]
  split
  · next hnone => cases hnone.symm.trans h
  · next rest' adds' hsome =>
    cases hsome.symm.trans h
    rfl

/-- What the loop comes to: every byte is in the buffer, or those that fit; else it stops for lack of
room. -/
def Comes (isString2 : Bool) (s out bytes : List Byte) : Prop :=
  expandLoop isString2 s out = some ((out ++ bytes).take MAX_STRING) ∨
    (expandLoop isString2 s out = none ∧ MAX_STRING < out.length + bytes.length)

theorem expandLoop_full {isString2 : Bool} {s out : List Byte} (hs : s ≠ []) (hout : out.length = MAX_STRING) :
    expandLoop isString2 s out = none := by
  unfold expandLoop
  rw [dif_neg hs]
  split
  · rfl
  · next rest adds hsome =>
    unfold expandTurn at hsome
    rw [if_pos hout.ge] at hsome
    cases hsome

/-- A turn whose element is written whole, or as far as there is room -/
theorem Comes.turn {isString2 : Bool} {s rest adds more out : List Byte} (hs : s ≠ []) 
    (hturn : expandTurn isString2 s out.length = some (rest, adds.take (MAX_STRING - out.length)))
    (h : Comes isString2 rest (out ++ adds.take (MAX_STRING - out.length)) more) :
    Comes isString2 s out (adds ++ more) := by
  unfold Comes at h ⊢
  rw [take_append_take] at h
  rw [expandLoop_cons hs hturn]
  refine h.imp_right fun h => ⟨h.1, h.2.trans_le ?_⟩
  simp only [List.length_append, List.length_take]
  omega

theorem length_append_take_le {out : List Byte} (hout : out.length < MAX_STRING) (adds : List Byte) :
    (out ++ adds.take (MAX_STRING - out.length)).length ≤ MAX_STRING := by
  rw [List.length_append, List.length_take]
  omega

theorem comes_of_spells {isString2 : Bool} {s : List Byte} {es : List Element} (h : Spells isString2 s es)
    {out : List Byte} (hout : out.length ≤ MAX_STRING) : Comes isString2 s out (es.flatMap Element.bytes) := by
  have hfull {s : List Byte} {es : List Element} (h : Spells isString2 s es) (hs : s ≠ []) {out : List Byte}
      (hout : out.length ≤ MAX_STRING) (hlen : ¬out.length < MAX_STRING) :
      Comes isString2 s out (es.flatMap Element.bytes) := by
    have heq := le_antisymm hout (not_lt.mp hlen)
    have hpos := List.length_pos_iff.mpr (h.bytes_ne_nil hs)
    exact Or.inr ⟨expandLoop_full hs heq, by omega⟩
  induction h generalizing out with
  | nil =>
    left
    rw [List.flatMap_nil, List.append_nil, List.take_of_length_le hout]
    unfold expandLoop
    exact dif_pos rfl
  | cls hname hs ih =>
    by_cases hlen : out.length < MAX_STRING
    · exact .turn (List.cons_ne_nil _ _) (expandTurn_cls hname _ _ hlen) (ih (length_append_take_le hlen _))
    · exact hfull (.cls hname hs) (List.cons_ne_nil _ _) hout hlen
  | @equivalence body s es hbody hrepeat hs ih =>
    by_cases hlen : out.length < MAX_STRING
    · have htext : 0x5B :: 0x3D :: (body ++ 0x3D :: 0x5D :: s) = (0x5B :: 0x3D :: (body ++ [0x3D, 0x5D])) ++ s := by
        simp
      have hlength : (0x5B :: 0x3D :: (body ++ [0x3D, 0x5D])).length = body.length + 4 := by simp
      have hturn := expandTurn_equivalence hbody hrepeat hlen
      rw [← hlength, htext] at hturn
      rw [htext, List.flatMap_append, List.flatMap_map]
      generalize (0x5B :: 0x3D :: (body ++ [0x3D, 0x5D])) = text at hturn hlength ⊢
      have hbytes : text.flatMap (fun b => (Element.literal b).bytes) = text := List.flatMap_singleton' text
      have hne : text ++ s ≠ [] := fun hnil => by
        rw [(List.append_eq_nil_iff.mp hnil).1] at hlength
        cases hlength
      rw [hbytes]
      by_cases hfits : text.length ≤ MAX_STRING - out.length
      · rw [min_eq_left hfits, List.drop_left, List.take_left] at hturn
        refine .turn hne ?_ (ih (length_append_take_le hlen _))
        rw [List.take_of_length_le hfits]
        exact hturn
      · have hless : MAX_STRING - out.length < text.length := not_le.mp hfits
        rw [min_eq_right hless.le] at hturn
        refine Or.inr ⟨?_, by rw [List.length_append]; omega⟩
        rw [expandLoop_cons hne hturn]
        refine expandLoop_full (fun hnil => ?_) ?_
        · have hlen := congrArg List.length hnil
          rw [List.length_drop, List.length_append, List.length_nil] at hlen
          omega
        · rw [List.length_append, List.length_take, List.length_append]
          omega
    · exact hfull (.equivalence hbody hrepeat hs) (List.cons_ne_nil _ _) hout hlen
  | range ha hc hplain hs ih =>
    by_cases hlen : out.length < MAX_STRING
    · exact .turn (List.cons_ne_nil _ _) (expandTurn_range ha hc hplain hlen) (ih (length_append_take_le hlen _))
    · exact hfull (.range ha hc hplain hs) (List.cons_ne_nil _ _) hout hlen
  | literal hrange hplain hs ih =>
    by_cases hlen : out.length < MAX_STRING
    · exact .turn (List.cons_ne_nil _ _) (expandTurn_literal hrange hplain hlen) (ih (length_append_take_le hlen _))
    · exact hfull (.literal hrange hplain hs) (List.cons_ne_nil _ _) hout hlen

theorem Operand.comes {isString2 : Bool} (s : Operand isString2) : Comes isString2 s.string.bytes [] s.bytes :=
  comes_of_spells s.spells (show ([] : List Byte).length ≤ MAX_STRING from Nat.zero_le _)

/-- An operand that fits is expanded. -/
theorem expandString_of_fits {isString2 : Bool} (s : Operand isString2) (h : s.bytes.length ≤ MAX_STRING) :
    expandString s.string isString2 = some s.bytes := by
  cases s.comes with
  | inl heq =>
    rw [List.nil_append, List.take_of_length_le h] at heq
    exact heq
  | inr hnone => exact absurd (hnone.2.trans_eq (Nat.zero_add _)) (not_lt.mpr h)

/-- An expansion holds the bytes of the operand that fit. -/
theorem expandString_eq_some {isString2 : Bool} {s : Operand isString2} {out : List Byte}
    (h : expandString s.string isString2 = some out) : out = s.bytes.take MAX_STRING := by
  cases s.comes with
  | inl heq =>
    rw [List.nil_append] at heq
    exact Option.some.inj (h.symm.trans heq)
  | inr hnone => cases h.symm.trans hnone.1

theorem exists_first_pair {x y : Byte} (body rest : List Byte) : ∃ first rest',
    body ++ x :: y :: rest = first ++ x :: y :: rest' ∧ ¬[x, y] <:+: first := by
  by_cases h : [x, y] <:+: body
  · obtain ⟨u, v, rfl⟩ := h
    have : u.length < (u ++ [x, y] ++ v).length := by
      simp only [List.length_append, List.length_cons]
      omega
    obtain ⟨first, rest', heq, hno⟩ := exists_first_pair (x := x) (y := y) u (v ++ x :: y :: rest)
    refine ⟨first, rest', ?_, hno⟩
    rw [← heq]
    simp
  · exact ⟨body, rest, rfl, h⟩
termination_by body.length

/-- Every string for STRING1 is such an operand, and every one for STRING2 in which no repetition
starts. -/
theorem exists_spells {isString2 : Bool} (s : List Byte) (h : isString2 = true → ∀ t, t <:+ s → ¬StartsRepeat t) :
    ∃ es, Spells isString2 s es := by
  have hrest (t : List Byte) (ht : t <:+ s) (hlt : t.length < s.length) : ∃ es, Spells isString2 t es :=
    exists_spells t fun h2 u hu => h h2 u (hu.trans ht)
  have hrepeat (h2 : isString2 = true) : ¬StartsRepeat s := h h2 s (List.suffix_refl s)
  by_cases hclass : StartsClass s
  · obtain ⟨name, rest, hname, rfl⟩ := hclass
    obtain ⟨func, hfunc⟩ := Option.ne_none_iff_exists'.mp hname
    have hsuffix : rest <:+ 0x5B :: 0x3A :: (name ++ 0x3A :: 0x5D :: rest) :=
      ⟨0x5B :: 0x3A :: (name ++ [0x3A, 0x5D]), by simp⟩
    obtain ⟨es, hes⟩ := hrest rest hsuffix (by simp only [List.length_cons, List.length_append]; omega)
    exact ⟨_, .cls hfunc hes⟩
  by_cases hequivalence : StartsEquivalence s
  · obtain ⟨body', rest', rfl⟩ := hequivalence
    obtain ⟨body, rest, heq, hbody⟩ := exists_first_pair (x := 0x3D) (y := 0x5D) body' rest'
    rw [heq] at hrest hrepeat ⊢
    have hsuffix : rest <:+ 0x5B :: 0x3D :: (body ++ 0x3D :: 0x5D :: rest) :=
      ⟨0x5B :: 0x3D :: (body ++ [0x3D, 0x5D]), by simp⟩
    obtain ⟨es, hes⟩ := hrest rest hsuffix (by simp only [List.length_cons, List.length_append]; omega)
    exact ⟨_, .equivalence hbody hrepeat hes⟩
  have hplain : Plain isString2 s := ⟨hrepeat, hclass, hequivalence⟩
  cases s with
  | nil => exact ⟨[], .nil⟩
  | cons b s =>
    by_cases hrange : ∀ c rest, s = 0x2D :: c :: rest → b = '-' ∨ c = '-'
    · obtain ⟨es, hes⟩ := hrest s (List.suffix_cons b s) (Nat.lt_succ_self _)
      exact ⟨_, .literal hrange hplain hes⟩
    · push Not at hrange
      obtain ⟨c, rest, rfl, hb, hc⟩ := hrange
      have hsuffix : rest <:+ b :: 0x2D :: c :: rest := ⟨[b, 0x2D, c], rfl⟩
      obtain ⟨es, hes⟩ := hrest rest hsuffix (by simp only [List.length_cons]; omega)
      exact ⟨_, .range hb hc hplain hes⟩
termination_by s.length

end ValidcTools.Tr
