import ValidcTools.Sh23.CasePatterns
import ValidcTools.Sh23.Strings
import ValidcTools.Sh23.Variables

/-! The removal of a prefix or a suffix of a variable's value, beside what its pattern matches. -/
namespace ValidcTools.Sh23

open Occurrences

/-- `pattern_matches` -/
def patternMatches (str pattern : List Byte) : Bool :=
  if ('*' : Byte) ∈ pattern then
    if pattern.head? = some ('*' : Byte) ∧ pattern.length = 1 then true
    else if pattern.head? = some ('*' : Byte) ∧ (strstr str pattern.tail).isSome then true
    else if pattern.getLast? = some ('*' : Byte) ∧ pattern.dropLast.isPrefixOf str then true
    else false
  else (strstr str pattern).isSome

/-- `variable_store_remove_suffix` for a value: `none` is an access outside the buffer of 1024 bytes. -/
def suffixRemoved (value pattern : List Byte) (longest : Bool) : Option (List Byte) :=
  let result := value.take 1023
  if patternMatches value pattern then
    if pattern.head? = some ('*' : Byte) ∧ 1 < pattern.length then
      match strstr value pattern.tail with
      | some pos =>
        if longest = false ∨ (longest = true ∧ pos = value.length - (pattern.length - 1)) then
          if 1023 < pos then none else some (result.take pos)
        else some result
      | none => some result
    else if pattern.length ≤ value.length then
      let i := value.length - pattern.length
      -- `strcmp` is also asked for with `!longest || longest`
      if 1023 < i then none else if result.drop i = pattern then some (result.take i) else some result
    else some result
  else some result

/-- `variable_store_remove_prefix` for a value: `none` is the read of `pattern[-1]`. -/
def prefixRemoved (value pattern : List Byte) (_longest : Bool) : Option (List Byte) :=
  let result := value.take 1023
  if patternMatches value pattern then
    if pattern = [] then none
    else if pattern.getLast? = some ('*' : Byte) ∧ 1 < pattern.length then
      if pattern.dropLast.isPrefixOf value then some ((value.drop (pattern.length - 1)).take 1023) else some result
    else if pattern.length ≤ value.length then
      if pattern.isPrefixOf result then some ((value.drop pattern.length).take 1023) else some result
    else some result
  else some result

namespace VariableStore

/-- `variable_store_remove_suffix` -/
def removeSuffix (store : VariableStore) (name pattern : List Byte) (longest : Bool) : Option (List Byte) :=
  (store.getVariable name).bind fun value => suffixRemoved value pattern longest

/-- `variable_store_remove_prefix` -/
def removePrefix (store : VariableStore) (name pattern : List Byte) (longest : Bool) : Option (List Byte) :=
  (store.getVariable name).bind fun value => prefixRemoved value pattern longest

end VariableStore

/-! ## The shortest and the longest match -/

/-- No length at which the text matches is to be taken before this one. -/
def Best (longest : Bool) (M : ℕ → Prop) (N k : ℕ) : Prop := ∀ m ≤ N, M m → if longest then m ≤ k else k ≤ m

/-- The length to be taken off: the least, or the greatest, at which the text matches, and 0 when it matches at none. -/
def TakesOff (longest : Bool) (M : ℕ → Prop) (N k : ℕ) : Prop :=
  (k ≤ N ∧ M k ∧ Best longest M N k) ∨ (k = 0 ∧ ∀ m ≤ N, ¬M m)

section

variable {longest : Bool} {M : ℕ → Prop} {N k k' : ℕ}

theorem TakesOff.le (h : TakesOff longest M N k) : k ≤ N := by
  cases h with
  | inl h => exact h.1
  | inr h => exact h.1 ▸ Nat.zero_le N

theorem TakesOff.unique (h : TakesOff longest M N k) (h' : TakesOff longest M N k') : k = k' := by
  rcases h with ⟨hk, hmatch, hbest⟩ | ⟨h0, hnone⟩
  · rcases h' with ⟨hk', hmatch', hbest'⟩ | ⟨-, hnone'⟩
    · have hle := hbest k' hk' hmatch'
      have hle' := hbest' k hk hmatch
      cases longest with
      | false => exact le_antisymm hle hle'
      | true => exact le_antisymm hle' hle
    · exact absurd hmatch (hnone' k hk)
  · rcases h' with ⟨hk', hmatch', -⟩ | ⟨h0', -⟩
    · exact absurd hmatch' (hnone k' hk')
    · exact h0.trans h0'.symm

theorem exists_takesOff (longest : Bool) (M : ℕ → Prop) (N : ℕ) : ∃ k, TakesOff longest M N k := by
  classical
  by_cases hany : ∃ m, m ≤ N ∧ M m
  · cases longest with
    | false =>
      obtain ⟨hle, hmatch⟩ := Nat.find_spec hany
      exact ⟨Nat.find hany, Or.inl ⟨hle, hmatch, fun m hm hM => Nat.find_min' hany ⟨hm, hM⟩⟩⟩
    | true =>
      obtain ⟨m, hm, hM⟩ := hany
      exact ⟨Nat.findGreatest M N, Or.inl ⟨Nat.findGreatest_le N, Nat.findGreatest_spec hm hM,
        fun m hm hM => Nat.le_findGreatest hm hM⟩⟩
  · push Not at hany
    exact ⟨0, Or.inr ⟨rfl, hany⟩⟩

theorem takesOff_iff_best (hk : k ≤ N) (hM : M k) : TakesOff longest M N k ↔ Best longest M N k := by
  constructor
  · intro h
    cases h with
    | inl h => exact h.2.2
    | inr h => exact absurd hM (h.2 k hk)
  · intro h
    exact Or.inl ⟨hk, hM, h⟩

/-- What holds of the length to be taken off can be said of any. -/
theorem forall_takesOff_iff (h : TakesOff longest M N k) {P : ℕ → Prop} : (∀ k, TakesOff longest M N k → P k) ↔ P k := by
  constructor
  · intro hP
    exact hP k h
  · intro hP k' h'
    exact h.unique h' ▸ hP

end

/-- A text matches itself as a pattern. -/
theorem glob_self (pattern : List Byte) : Glob pattern pattern := by
  induction pattern with
  | nil => exact .nil
  | cons c pattern ih =>
    by_cases hstar : c = '*'
    · subst hstar
      exact .star ['*'] ih
    by_cases hany : c = '?'
    · subst hany
      exact .any '?' ih
    · exact .char hstar hany ih

theorem glob_dropLast {pattern : List Byte} (h : pattern.getLast? = some ('*' : Byte)) : Glob pattern pattern.dropLast := by
  have hsplit : pattern = pattern.dropLast ++ [('*' : Byte)] := by
    rw [List.dropLast_append_getLast?]
    exact h
  nth_rewrite 1 [hsplit]
  rw [glob_append_iff]
  exact ⟨pattern.dropLast, [], (List.append_nil _).symm, glob_self _, .star [] .nil⟩

/-! ## Prefixes -/

/-- What is taken off as it stands: the pattern, without the star at its end when there is more. -/
def literal (pattern : List Byte) : List Byte :=
  if pattern.getLast? = some ('*' : Byte) ∧ 1 < pattern.length then pattern.dropLast else pattern

/-- The value begins with it. Without a star at the end it must lie in the buffer, and a star in the pattern
must stand first. -/
def StartsLiterally (value pattern : List Byte) : Prop :=
  literal pattern <+: value ∧ (literal pattern = pattern →
    pattern.length ≤ 1023 ∧ (('*' : Byte) ∈ pattern → pattern.head? = some ('*' : Byte)))

def PrefixMatches (value pattern : List Byte) (m : ℕ) : Prop := Glob pattern (value.take m)

theorem strstr_isSome_iff (str sub : List Byte) : (strstr str sub).isSome = true ↔ sub <:+: str := by
  rw [← not_iff_not, Bool.not_eq_true, Option.isSome_eq_false_iff, Option.isNone_iff_eq_none]
  exact firstAt_eq_none_iff

theorem literal_of_star {pattern : List Byte} (h : pattern.getLast? = some ('*' : Byte) ∧ 1 < pattern.length) :
    literal pattern = pattern.dropLast := if_pos h

theorem literal_of_not_star {pattern : List Byte} (h : ¬(pattern.getLast? = some ('*' : Byte) ∧ 1 < pattern.length)) :
    literal pattern = pattern := if_neg h

theorem literal_ne_of_star {pattern : List Byte} (h : pattern.getLast? = some ('*' : Byte) ∧ 1 < pattern.length) :
    literal pattern ≠ pattern := by
  rw [literal_of_star h]
  intro heq
  have hlen := congrArg List.length heq
  rw [List.length_dropLast] at hlen
  omega

theorem glob_literal (pattern : List Byte) : Glob pattern (literal pattern) := by
  unfold literal
  split_ifs with h
  · exact glob_dropLast h.1
  · exact glob_self pattern

theorem patternMatches_of_dropLast {value pattern : List Byte} (hlast : pattern.getLast? = some ('*' : Byte))
    (hbegins : pattern.dropLast <+: value) : patternMatches value pattern = true := by
  have hmem : ('*' : Byte) ∈ pattern := List.mem_of_getLast? hlast
  unfold patternMatches
  rw [if_pos hmem]
  split_ifs with hone hinfix hstart
  · rfl
  · rfl
  · rfl
  · exact absurd ⟨hlast, List.isPrefixOf_iff_prefix.mpr hbegins⟩ hstart

/-- For a text that begins with the pattern itself -/
theorem patternMatches_of_begins {value pattern : List Byte} (hbegins : pattern <+: value)
    (hlast : ¬(pattern.getLast? = some ('*' : Byte) ∧ 1 < pattern.length)) :
    patternMatches value pattern = true ↔ (('*' : Byte) ∈ pattern → pattern.head? = some ('*' : Byte)) := by
  unfold patternMatches
  by_cases hmem : ('*' : Byte) ∈ pattern
  · rw [if_pos hmem]
    by_cases hhead : pattern.head? = some ('*' : Byte)
    · have htail : pattern.tail <:+: value := (List.tail_suffix pattern).isInfix.trans hbegins.isInfix
      simp only [hhead, true_and, (strstr_isSome_iff value pattern.tail).mpr htail, if_true, ite_self, implies_true]
    · have hend : ¬pattern.getLast? = some ('*' : Byte) := by
        intro hstar
        have hlen : pattern.length = 1 := by
          have hpos := List.length_pos_of_mem hmem
          have hshort : ¬1 < pattern.length := fun hlong => hlast ⟨hstar, hlong⟩
          omega
        obtain ⟨c, rfl⟩ := List.length_eq_one_iff.mp hlen
        exact hhead hstar
      simp only [hhead, hend, false_and, if_false, hmem, true_implies, Bool.false_eq_true]
  · rw [if_neg hmem, strstr_isSome_iff]
    exact iff_of_true hbegins.isInfix fun h => absurd h hmem

theorem prefixRemoved_nil (value : List Byte) (longest : Bool) : prefixRemoved value [] longest = none := by
  have hmatches : patternMatches value [] = true :=
    (patternMatches_of_begins List.nil_prefix (by simp)).mpr fun h => absurd h List.not_mem_nil
  unfold prefixRemoved
  rw [if_pos hmatches, if_pos rfl]

theorem prefixRemoved_of_starts {value pattern : List Byte} (longest : Bool) (hne : pattern ≠ [])
    (h : StartsLiterally value pattern) :
    prefixRemoved value pattern longest = some ((value.drop (literal pattern).length).take 1023) := by
  obtain ⟨hbegins, hbuffer⟩ := h
  unfold prefixRemoved
  by_cases hstar : pattern.getLast? = some ('*' : Byte) ∧ 1 < pattern.length
  · rw [literal_of_star hstar] at hbegins ⊢
    rw [if_pos (patternMatches_of_dropLast hstar.1 hbegins), if_neg hne, if_pos hstar,
      if_pos (List.isPrefixOf_iff_prefix.mpr hbegins), List.length_dropLast]
  · rw [literal_of_not_star hstar] at hbegins ⊢
    obtain ⟨hlen, hgate⟩ := hbuffer (literal_of_not_star hstar)
    have hcut : pattern <+: value.take 1023 := by
      rw [List.prefix_take_iff]
      exact ⟨hbegins, hlen⟩
    rw [if_pos ((patternMatches_of_begins hbegins hstar).mpr hgate), if_neg hne, if_neg hstar,
      if_pos hbegins.length_le, if_pos (List.isPrefixOf_iff_prefix.mpr hcut)]

theorem prefixRemoved_of_not_starts {value pattern : List Byte} (longest : Bool) (hne : pattern ≠ [])
    (h : ¬StartsLiterally value pattern) : prefixRemoved value pattern longest = some (value.take 1023) := by
  unfold prefixRemoved
  by_cases hmatches : patternMatches value pattern = true
  · rw [if_pos hmatches, if_neg hne]
    by_cases hstar : pattern.getLast? = some ('*' : Byte) ∧ 1 < pattern.length
    · have hno : ¬pattern.dropLast <+: value := by
        intro hbegins
        rw [← literal_of_star hstar] at hbegins
        exact h ⟨hbegins, fun heq => absurd heq (literal_ne_of_star hstar)⟩
      rw [if_pos hstar, if_neg (mt List.isPrefixOf_iff_prefix.mp hno)]
    · have hno : ¬pattern <+: value.take 1023 := by
        intro hcut
        rw [List.prefix_take_iff] at hcut
        have hgate := (patternMatches_of_begins hcut.1 hstar).mp hmatches
        exact h ⟨(literal_of_not_star hstar).symm ▸ hcut.1, fun _ => ⟨hcut.2, hgate⟩⟩
      rw [if_neg hstar, if_neg (mt List.isPrefixOf_iff_prefix.mp hno), ite_self]
  · rw [if_neg hmatches]

/-- What is left is the value without its first `k` bytes only when it is taken off there, or when the end of the
buffer cuts a text that repeats itself. -/
theorem take_drop_eq_drop_iff {value : List Byte} {n k : ℕ} (hn : n ≤ value.length) (hk : k ≤ value.length) :
    (value.drop n).take 1023 = value.drop k ↔ (k = n ∧ value.length ≤ n + 1023) ∨
      (n < k ∧ value.length = k + 1023 ∧ value.drop k <+: value.drop n) := by
  constructor
  · intro h
    have hlen := congrArg List.length h
    rw [List.length_take, List.length_drop, List.length_drop] at hlen
    by_cases hshort : value.length ≤ n + 1023
    · exact Or.inl ⟨by omega, hshort⟩
    · exact Or.inr ⟨by omega, by omega, h ▸ List.take_prefix 1023 _⟩
  · rintro (⟨rfl, hshort⟩ | ⟨hlt, hlen, hbegins⟩)
    · exact List.take_of_length_le (by rw [List.length_drop]; omega)
    · rw [List.prefix_iff_eq_take, List.length_drop, show value.length - k = 1023 by omega] at hbegins
      exact hbegins.symm

/-- What is taken off literally is what the pattern asks for, and the buffer holds the rest. -/
inductive PrefixFits (value pattern : List Byte) (longest : Bool) : Prop
  | literal : StartsLiterally value pattern → value.length ≤ (literal pattern).length + 1023 →
      Best longest (PrefixMatches value pattern) value.length (literal pattern).length → PrefixFits value pattern longest
  | kept : ¬StartsLiterally value pattern → value.length ≤ 1023 →
      TakesOff longest (PrefixMatches value pattern) value.length 0 → PrefixFits value pattern longest
  | repeats {n k : ℕ} : (StartsLiterally value pattern ∧ n = (literal pattern).length) ∨
        (¬StartsLiterally value pattern ∧ n = 0) → n < k → value.length = k + 1023 → value.drop k <+: value.drop n →
      TakesOff longest (PrefixMatches value pattern) value.length k → PrefixFits value pattern longest

theorem takesOff_literal_iff {value pattern : List Byte} (longest : Bool) (h : StartsLiterally value pattern) :
    TakesOff longest (PrefixMatches value pattern) value.length (literal pattern).length ↔
      Best longest (PrefixMatches value pattern) value.length (literal pattern).length := by
  refine takesOff_iff_best h.1.length_le ?_
  unfold PrefixMatches
  rw [← List.prefix_iff_eq_take.mp h.1]
  exact glob_literal pattern

theorem prefixFits_iff {value pattern : List Byte} {longest : Bool} {n k : ℕ}
    (hn : (StartsLiterally value pattern ∧ n = (literal pattern).length) ∨ (¬StartsLiterally value pattern ∧ n = 0))
    (hk : TakesOff longest (PrefixMatches value pattern) value.length k) :
    PrefixFits value pattern longest ↔ (k = n ∧ value.length ≤ n + 1023) ∨
      (n < k ∧ value.length = k + 1023 ∧ value.drop k <+: value.drop n) := by
  constructor
  · intro h
    cases h with
    | literal hstarts hlen hbest =>
      obtain rfl : n = (literal pattern).length := (hn.resolve_right fun h => h.1 hstarts).2
      rw [← takesOff_literal_iff longest hstarts] at hbest
      exact Or.inl ⟨hk.unique hbest, hlen⟩
    | kept hstarts hlen hnothing =>
      obtain rfl : n = 0 := (hn.resolve_left fun h => hstarts h.1).2
      exact Or.inl ⟨hk.unique hnothing, by rwa [Nat.zero_add]⟩
    | @repeats n' k' hn' hlt hlen hbegins hk' =>
      have hnn : n = n' := by
        rcases hn with ⟨hs, rfl⟩ | ⟨hs, rfl⟩
        · exact (hn'.resolve_right fun h => h.1 hs).2.symm
        · exact (hn'.resolve_left fun h => hs h.1).2.symm
      rw [hnn, hk.unique hk']
      exact Or.inr ⟨hlt, hlen, hbegins⟩
  · rintro (⟨rfl, hlen⟩ | ⟨hlt, hlen, hbegins⟩)
    · rcases hn with ⟨hstarts, rfl⟩ | ⟨hstarts, rfl⟩
      · exact .literal hstarts hlen ((takesOff_literal_iff longest hstarts).mp hk)
      · exact .kept hstarts (by rwa [Nat.zero_add] at hlen) hk
    · exact .repeats hn hlt hlen hbegins hk

/-- The value is returned without the prefix that the pattern asks for. -/
def VariableStore.RemovesPrefix (store : VariableStore) (name pattern : List Byte) (longest : Bool)
    (value : List Byte) : Prop :=
  ∃ result, store.removePrefix name pattern longest = some result ∧
    ∀ k, TakesOff longest (PrefixMatches value pattern) value.length k → result = value.drop k

theorem removesPrefix_iff {store : VariableStore} {name value : List Byte} (h : store.getVariable name = some value)
    (pattern : List Byte) (longest : Bool) :
    store.RemovesPrefix name pattern longest value ↔ pattern ≠ [] ∧ PrefixFits value pattern longest := by
  obtain ⟨k, hk⟩ := exists_takesOff longest (PrefixMatches value pattern) value.length
  unfold VariableStore.RemovesPrefix VariableStore.removePrefix
  simp only [h, Option.bind_some, forall_takesOff_iff hk]
  by_cases hne : pattern = []
  · subst hne
    rw [prefixRemoved_nil]
    exact iff_of_false (by simp) fun h => h.1 rfl
  rw [and_iff_right hne]
  by_cases hstarts : StartsLiterally value pattern
  · rw [prefixRemoved_of_starts longest hne hstarts, prefixFits_iff (Or.inl ⟨hstarts, rfl⟩) hk,
      ← take_drop_eq_drop_iff hstarts.1.length_le hk.le]
    simp
  · rw [prefixRemoved_of_not_starts longest hne hstarts, prefixFits_iff (Or.inr ⟨hstarts, rfl⟩) hk,
      ← take_drop_eq_drop_iff (Nat.zero_le _) hk.le]
    simp

/-! ## Suffixes -/

def SuffixMatches (value pattern : List Byte) (m : ℕ) : Prop := Glob pattern (value.drop (value.length - m))

/-- The place that is looked for behind a star at the beginning -/
def FoundAt (value pattern : List Byte) (longest : Bool) (pos : ℕ) : Prop :=
  (pattern.head? = some ('*' : Byte) ∧ 1 < pattern.length) ∧ strstr value pattern.tail = some pos ∧
    (longest = true → pos + (pattern.length - 1) = value.length)

/-- The end of the value is compared with the pattern as it stands. -/
def TakenLiterally (value pattern : List Byte) : Prop :=
  ¬(pattern.head? = some ('*' : Byte) ∧ 1 < pattern.length) ∧ patternMatches value pattern = true ∧
    pattern.length ≤ value.length

theorem lt_of_strstr {value sub : List Byte} {pos : ℕ} (h : strstr value sub = some pos) :
    pos + sub.length ≤ value.length := by
  have hat := firstAt_eq_some_iff.mp h
  have hlen := hat.2.1.length_le
  rw [List.length_drop] at hlen
  omega

theorem patternMatches_of_strstr {value pattern : List Byte} (hhead : pattern.head? = some ('*' : Byte))
    {pos : ℕ} (h : strstr value pattern.tail = some pos) : patternMatches value pattern = true := by
  unfold patternMatches
  rw [if_pos (List.mem_of_head? hhead)]
  split_ifs with hone hinfix hstart
  · rfl
  · rfl
  · rfl
  · exact absurd ⟨hhead, by rw [h]; rfl⟩ hinfix

theorem suffixRemoved_of_foundAt {value pattern : List Byte} {longest : Bool} {pos : ℕ}
    (h : FoundAt value pattern longest pos) :
    suffixRemoved value pattern longest = if 1023 < pos then none else some (value.take pos) := by
  obtain ⟨hstar, hat, hend⟩ := h
  have hlen := lt_of_strstr hat
  rw [List.length_tail] at hlen
  have hcut : longest = false ∨ (longest = true ∧ pos = value.length - (pattern.length - 1)) := by
    cases longest with
    | false => exact Or.inl rfl
    | true => exact Or.inr ⟨rfl, by have := hend rfl; omega⟩
  unfold suffixRemoved
  rw [if_pos (patternMatches_of_strstr hstar.1 hat), if_pos hstar, hat]
  simp only
  rw [if_pos hcut]
  split_ifs with hover
  · rfl
  · rw [List.take_take, min_eq_left (not_lt.mp hover)]

theorem suffixRemoved_of_takenLiterally {value pattern : List Byte} (longest : Bool) (h : TakenLiterally value pattern) :
    suffixRemoved value pattern longest = if pattern.length + 1023 < value.length then none
      else if value.length ≤ 1023 ∧ pattern <:+ value then some (value.take (value.length - pattern.length))
      else some (value.take 1023) := by
  obtain ⟨hstar, hmatches, hlen⟩ := h
  unfold suffixRemoved
  rw [if_pos hmatches, if_neg hstar, if_pos hlen]
  simp only
  by_cases hover : pattern.length + 1023 < value.length
  · rw [if_pos hover, if_pos (by omega)]
  rw [if_neg hover, if_neg (by omega)]
  have hiff : (value.take 1023).drop (value.length - pattern.length) = pattern ↔
      value.length ≤ 1023 ∧ pattern <:+ value := by
    constructor
    · intro heq
      have hshort := congrArg List.length heq
      rw [List.length_drop, List.length_take] at hshort
      by_cases hlong : value.length ≤ 1023
      · rw [List.take_of_length_le hlong] at heq
        exact ⟨hlong, heq ▸ List.drop_suffix _ _⟩
      · omega
    · rintro ⟨hlong, hsuffix⟩
      rw [List.take_of_length_le hlong]
      exact (List.suffix_iff_eq_drop.mp hsuffix).symm
  by_cases hends : value.length ≤ 1023 ∧ pattern <:+ value
  · rw [if_pos (hiff.mpr hends), if_pos hends, List.take_take, min_eq_left (by omega)]
  · rw [if_neg (mt hiff.mp hends), if_neg hends]

theorem suffixRemoved_of_neither {value pattern : List Byte} {longest : Bool}
    (hfound : ∀ pos, ¬FoundAt value pattern longest pos) (hliteral : ¬TakenLiterally value pattern) :
    suffixRemoved value pattern longest = some (value.take 1023) := by
  unfold suffixRemoved
  by_cases hmatches : patternMatches value pattern = true
  · rw [if_pos hmatches]
    by_cases hstar : pattern.head? = some ('*' : Byte) ∧ 1 < pattern.length
    · rw [if_pos hstar]
      cases hat : strstr value pattern.tail with
      | none => rfl
      | some pos =>
        have hlen := lt_of_strstr hat
        rw [List.length_tail] at hlen
        have hcut : ¬(longest = false ∨ (longest = true ∧ pos = value.length - (pattern.length - 1))) := by
          intro hcut
          refine hfound pos ⟨hstar, hat, fun hlong => ?_⟩
          have hpos := (hcut.resolve_left (by simp [hlong])).2
          omega
        simp only
        rw [if_neg hcut]
    · rw [if_neg hstar, if_neg fun hlen => hliteral ⟨hstar, hmatches, hlen⟩]
  · rw [if_neg hmatches]

/-- What is cut off is what the pattern asks for, or nothing is cut off and the buffer holds just what remains. -/
inductive SuffixFits (value pattern : List Byte) (longest : Bool) : Prop
  | found {pos : ℕ} : FoundAt value pattern longest pos → pos ≤ 1023 →
      TakesOff longest (SuffixMatches value pattern) value.length (value.length - pos) → SuffixFits value pattern longest
  | literal : TakenLiterally value pattern → value.length ≤ 1023 → pattern <:+ value →
      Best longest (SuffixMatches value pattern) value.length pattern.length → SuffixFits value pattern longest
  | kept : (∀ pos, ¬FoundAt value pattern longest pos) → (TakenLiterally value pattern →
        value.length ≤ pattern.length + 1023 ∧ ¬(value.length ≤ 1023 ∧ pattern <:+ value)) →
      TakesOff longest (SuffixMatches value pattern) value.length (value.length - 1023) → SuffixFits value pattern longest

theorem FoundAt.unique {value pattern : List Byte} {longest : Bool} {pos pos' : ℕ} (h : FoundAt value pattern longest pos)
    (h' : FoundAt value pattern longest pos') : pos = pos' :=
  Option.some.inj (h.2.1.symm.trans h'.2.1)

theorem takesOff_suffix_iff {value pattern : List Byte} (longest : Bool) (h : pattern <:+ value) :
    TakesOff longest (SuffixMatches value pattern) value.length pattern.length ↔
      Best longest (SuffixMatches value pattern) value.length pattern.length := by
  refine takesOff_iff_best h.length_le ?_
  unfold SuffixMatches
  rw [← List.suffix_iff_eq_drop.mp h]
  exact glob_self pattern

theorem take_eq_take_sub_iff {value : List Byte} {j k : ℕ} (hj : j ≤ value.length) (hk : k ≤ value.length) :
    value.take j = value.take (value.length - k) ↔ k = value.length - j := by
  rw [List.take_eq_take_iff]
  omega

theorem take_buffer_eq_iff {value : List Byte} {k : ℕ} (hk : k ≤ value.length) :
    value.take 1023 = value.take (value.length - k) ↔ k = value.length - 1023 := by
  rw [List.take_eq_take_iff]
  omega

/-- The value is returned without the suffix that the pattern asks for. -/
def VariableStore.RemovesSuffix (store : VariableStore) (name pattern : List Byte) (longest : Bool)
    (value : List Byte) : Prop :=
  ∃ result, store.removeSuffix name pattern longest = some result ∧
    ∀ k, TakesOff longest (SuffixMatches value pattern) value.length k → result = value.take (value.length - k)

theorem removesSuffix_iff {store : VariableStore} {name value : List Byte} (h : store.getVariable name = some value)
    (pattern : List Byte) (longest : Bool) :
    store.RemovesSuffix name pattern longest value ↔ SuffixFits value pattern longest := by
  obtain ⟨k, hk⟩ := exists_takesOff longest (SuffixMatches value pattern) value.length
  have htakes (n : ℕ) : TakesOff longest (SuffixMatches value pattern) value.length n ↔ k = n :=
    ⟨hk.unique, fun heq => heq ▸ hk⟩
  unfold VariableStore.RemovesSuffix VariableStore.removeSuffix
  simp only [h, Option.bind_some, forall_takesOff_iff hk]
  by_cases hfound : ∃ pos, FoundAt value pattern longest pos
  · obtain ⟨pos, hpos⟩ := hfound
    have hlen := lt_of_strstr hpos.2.1
    have hfits : SuffixFits value pattern longest ↔ pos ≤ 1023 ∧ k = value.length - pos := by
      rw [← htakes]
      constructor
      · intro hfits
        cases hfits with
        | found hpos' hbuffer htake => exact hpos.unique hpos' ▸ ⟨hbuffer, htake⟩
        | literal hliteral => exact absurd hpos.1 hliteral.1
        | kept hnone => exact absurd hpos (hnone pos)
      · intro hfits
        exact .found hpos hfits.1 hfits.2
    rw [suffixRemoved_of_foundAt hpos, hfits]
    split_ifs with hover
    · exact iff_of_false (by simp) fun h => by omega
    · rw [and_iff_right (not_lt.mp hover), ← take_eq_take_sub_iff (by omega) hk.le]
      simp
  push Not at hfound
  by_cases hliteral : TakenLiterally value pattern
  · rw [suffixRemoved_of_takenLiterally longest hliteral]
    split_ifs with hover hends
    · refine iff_of_false (by simp) fun hfits => ?_
      cases hfits with
      | found hpos => exact hfound _ hpos
      | literal _ hlen _ _ => omega
      | kept _ hnot _ => exact absurd (hnot hliteral).1 (by omega)
    · have hfits : SuffixFits value pattern longest ↔ k = pattern.length := by
        rw [← htakes, takesOff_suffix_iff longest hends.2]
        constructor
        · intro hfits
          cases hfits with
          | found hpos => exact absurd hpos (hfound _)
          | literal _ _ _ hbest => exact hbest
          | kept _ hnot _ => exact absurd hends (hnot hliteral).2
        · intro hbest
          exact .literal hliteral hends.1 hends.2 hbest
      have hle := hends.2.length_le
      rw [hfits, show k = pattern.length ↔ k = value.length - (value.length - pattern.length) by omega,
        ← take_eq_take_sub_iff (Nat.sub_le _ _) hk.le]
      simp
    · have hfits : SuffixFits value pattern longest ↔ k = value.length - 1023 := by
        rw [← htakes]
        constructor
        · intro hfits
          cases hfits with
          | found hpos => exact absurd hpos (hfound _)
          | literal _ hlen hsuffix _ => exact absurd ⟨hlen, hsuffix⟩ hends
          | kept _ _ htake => exact htake
        · intro htake
          exact .kept hfound (fun _ => ⟨not_lt.mp hover, hends⟩) htake
      rw [hfits, ← take_buffer_eq_iff hk.le]
      simp
  · have hfits : SuffixFits value pattern longest ↔ k = value.length - 1023 := by
      rw [← htakes]
      constructor
      · intro hfits
        cases hfits with
        | found hpos => exact absurd hpos (hfound _)
        | literal hliteral' => exact absurd hliteral' hliteral
        | kept _ _ htake => exact htake
      · intro htake
        exact .kept hfound (fun h => absurd h hliteral) htake
    rw [suffixRemoved_of_neither hfound hliteral, hfits, ← take_buffer_eq_iff hk.le]
    simp

/-! ## Both -/

theorem removesAffix_iff {store : VariableStore} {name value : List Byte} (h : store.getVariable name = some value)
    (pattern : List Byte) (longest : Bool) :
    (store.RemovesPrefix name pattern longest value ↔ pattern ≠ [] ∧ PrefixFits value pattern longest) ∧
      (store.RemovesSuffix name pattern longest value ↔ SuffixFits value pattern longest) :=
  ⟨removesPrefix_iff h pattern longest, removesSuffix_iff h pattern longest⟩

/-- `v=a.b.c` -/
def dotted : VariableStore :=
  { VariableStore.create none 1 with vars := [variableCreate (lit "v") (lit "a.b.c")] }

theorem removesAffix_iff_dotted :
    (dotted.RemovesPrefix (lit "v") (lit "a.") false (lit "a.b.c") ↔
        lit "a." ≠ [] ∧ PrefixFits (lit "a.b.c") (lit "a.") false) ∧
      (dotted.RemovesSuffix (lit "v") (lit "a.") false (lit "a.b.c") ↔ SuffixFits (lit "a.b.c") (lit "a.") false) :=
  removesAffix_iff (by decide) (lit "a.") false

/-- `${v#?}` and `${v%.*}` leave the value as it is. -/
theorem not_removesAffix :
    dotted.getVariable (lit "v") = some (lit "a.b.c") ∧ ¬dotted.RemovesPrefix (lit "v") (lit "?") false (lit "a.b.c") ∧
      ¬dotted.RemovesSuffix (lit "v") (lit ".*") false (lit "a.b.c") := by
  have hvalue : dotted.getVariable (lit "v") = some (lit "a.b.c") := by decide
  refine ⟨hvalue, ?_, ?_⟩
  · rintro ⟨result, hresult, hall⟩
    have hkept : dotted.removePrefix (lit "v") (lit "?") false = some (lit "a.b.c") := by decide
    have htake : TakesOff false (PrefixMatches (lit "a.b.c") (lit "?")) 5 1 := by
      refine Or.inl ⟨by decide, .any _ .nil, fun m hm hM => ?_⟩
      cases m with
      | zero => cases hM
      | succ m => exact Nat.succ_le_succ (Nat.zero_le m)
    obtain rfl := Option.some.inj (hkept.symm.trans hresult)
    exact absurd (hall 1 htake) (by decide)
  · rintro ⟨result, hresult, hall⟩
    have hkept : dotted.removeSuffix (lit "v") (lit ".*") false = some (lit "a.b.c") := by decide
    have htake : TakesOff false (SuffixMatches (lit "a.b.c") (lit ".*")) 5 2 := by
      refine Or.inl ⟨by decide, .char (by decide) (by decide) (.star (lit "c") .nil), fun m hm hM => ?_⟩
      by_contra hlt
      have hshort : m = 0 ∨ m = 1 := by simp only [Bool.false_eq_true, if_false] at hlt; omega
      rcases hshort with rfl | rfl
      · cases hM
      · cases hM
    obtain rfl := Option.some.inj (hkept.symm.trans hresult)
    exact absurd (hall 2 htake) (by decide)

end ValidcTools.Sh23
