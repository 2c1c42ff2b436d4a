import Mathlib

/-! Codes whose words tell their length by their first letter. -/
namespace PrefixCode

open InformationTheory Computability

variable {α : Type}

/-- A word of the code has a first letter, which gives the length of the word. -/
def ByHead (width : α → ℕ) (S : Language α) : Prop :=
  ∀ w ∈ S, ∃ a v, w = a :: v ∧ w.length = width a

theorem ByHead.mono {width : α → ℕ} {S T : Language α} (hT : ByHead width T) (hsub : S ≤ T) :
    ByHead width S :=
  fun w hw => hT w (hsub hw)

section

variable {width : α → ℕ} {S : Language α} (hS : ByHead width S)

include hS

theorem ByHead.take_append {w l : List α} (hw : w ∈ S) {a : α} {v : List α} (heq : w ++ l = a :: v) :
    (a :: v).take (width a) = w ∧ (a :: v).drop (width a) = l := by
  obtain ⟨b, u, rfl, hlen⟩ := hS w hw
  obtain ⟨rfl, -⟩ := List.cons.inj (List.cons_append.symm.trans heq)
  rw [← heq, ← hlen]
  exact ⟨List.take_left, List.drop_left⟩

theorem ByHead.uniquelyDecodable : UniquelyDecodable S := by
  intro L
  induction L with
  | nil =>
    intro L' _ hL' heq
    cases L' with
    | nil => rfl
    | cons w L' =>
      obtain ⟨a, v, rfl, -⟩ := hS w (hL' w List.mem_cons_self)
      cases heq
  | cons w L ih =>
    intro L' hL hL' heq
    have hw := hL w List.mem_cons_self
    obtain ⟨a, v, hav, -⟩ := hS w hw
    have hflat : w ++ L.flatten = a :: (v ++ L.flatten) := by rw [hav]; rfl
    cases L' with
    | nil =>
      rw [List.flatten_cons, hflat] at heq
      cases heq
    | cons w' L' =>
      have hflat' : w' ++ L'.flatten = a :: (v ++ L.flatten) := by
        rw [← hflat]
        exact heq.symm
      obtain ⟨htake, hdrop⟩ := hS.take_append hw hflat
      obtain ⟨htake', hdrop'⟩ := hS.take_append (hL' w' List.mem_cons_self) hflat'
      rw [← htake, htake', ih L' (fun u hu => hL u (List.mem_cons_of_mem w hu))
        (fun u hu => hL' u (List.mem_cons_of_mem w' hu)) (hdrop.symm.trans hdrop')]

/-- A text is read word by word. -/
theorem ByHead.cons_mem_kstar_iff (a : α) (l : List α) :
    a :: l ∈ S∗ ↔
      (a :: l).take (width a) ∈ S ∧ (a :: l).drop (width a) ∈ S∗ := by
  constructor
  · intro h
    obtain ⟨L, hL, hwords⟩ := Language.mem_kstar.mp h
    cases L with
    | nil => cases hL
    | cons w L =>
      have hw : w ∈ S := hwords w List.mem_cons_self
      obtain ⟨htake, hdrop⟩ := hS.take_append hw hL.symm
      rw [htake, hdrop]
      exact ⟨hw, Language.join_mem_kstar fun u hu => hwords u (List.mem_cons_of_mem w hu)⟩
  · rintro ⟨hw, hrest⟩
    obtain ⟨L, hL, hwords⟩ := Language.mem_kstar.mp hrest
    refine Language.mem_kstar.mpr ⟨(a :: l).take (width a) :: L, ?_, ?_⟩
    · rw [List.flatten_cons, ← hL, List.take_append_drop]
    · intro u hu
      cases hu with
      | head => exact hw
      | tail _ hu => exact hwords u hu

theorem ByHead.not_mem_kstar_of_short {a : α} {l : List α} (h : (a :: l).length < width a) : a :: l ∉ S∗ := by
  rw [hS.cons_mem_kstar_iff, List.take_of_length_le h.le]
  rintro ⟨hw, -⟩
  obtain ⟨b, v, heq, hlen⟩ := hS _ hw
  obtain ⟨rfl, -⟩ := List.cons.inj heq
  exact h.ne hlen

end

/-- A text of a decodable code is one of a smaller code when its words are. -/
theorem flatten_mem_kstar_iff {S U : Language α} (hU : UniquelyDecodable U) (hsub : S ≤ U)
    {L : List (List α)} (hL : ∀ w ∈ L, w ∈ U) :
    L.flatten ∈ S∗ ↔ ∀ w ∈ L, w ∈ S := by
  refine ⟨fun h => ?_, fun h => Language.join_mem_kstar h⟩
  obtain ⟨L', hflat, hwords⟩ := Language.mem_kstar.mp h
  have hsame : L = L' := hU L L' hL (fun w hw => hsub (hwords w hw)) hflat
  rw [hsame]
  exact hwords

/-- When a text belongs to both of two parts of a decodable code or to neither. -/
theorem kstar_iff_kstar_iff {S T U : Language α} (hU : UniquelyDecodable U) (hS : S ≤ U) (hT : T ≤ U)
    (l : List α) :
    (l ∈ S∗ ↔ l ∈ T∗) ↔ ∀ L : List (List α), L.flatten = l → (∀ w ∈ L, w ∈ S ∨ w ∈ T) →
      ((∀ w ∈ L, w ∈ S) ↔ ∀ w ∈ L, w ∈ T) := by
  constructor
  · rintro h L rfl hL
    have hwords : ∀ w ∈ L, w ∈ U := fun w hw => (hL w hw).elim (fun h => hS h) fun h => hT h
    rw [← flatten_mem_kstar_iff hU hS hwords, ← flatten_mem_kstar_iff hU hT hwords]
    exact h
  · intro h
    constructor
    · intro hl
      obtain ⟨L, rfl, hwords⟩ := Language.mem_kstar.mp hl
      exact Language.join_mem_kstar ((h L rfl fun w hw => Or.inl (hwords w hw)).mp hwords)
    · intro hl
      obtain ⟨L, rfl, hwords⟩ := Language.mem_kstar.mp hl
      exact Language.join_mem_kstar ((h L rfl fun w hw => Or.inr (hwords w hw)).mpr hwords)

/-! ## Codes of symbols -/

section

variable {β : Type} {enc : α → List β}

/-- The symbol at the beginning of a text can be told from the text. -/
def Instantaneous (enc : α → List β) : Prop := ∀ a b u v, enc a ++ u = enc b ++ v → a = b

/-- It is enough that a function reads the first symbol. -/
theorem Instantaneous.of_read {read : List β → α} (h : ∀ a u, read (enc a ++ u) = a) : Instantaneous enc := by
  intro a b u v heq
  rw [← h a u, heq, h b v]

/-- A text stands for one list of symbols. -/
theorem Instantaneous.flatMap_injective (h : Instantaneous enc) (hne : ∀ a, enc a ≠ []) {l l' : List α}
    (heq : l.flatMap enc = l'.flatMap enc) : l = l' := by
  induction l generalizing l' with
  | nil =>
    cases l' with
    | nil => rfl
    | cons b l' => exact absurd (List.append_eq_nil_iff.mp heq.symm).1 (hne b)
  | cons a l ih =>
    cases l' with
    | nil => exact absurd (List.append_eq_nil_iff.mp heq).1 (hne a)
    | cons b l' =>
      rw [List.flatMap_cons, List.flatMap_cons] at heq
      obtain rfl := h a b _ _ heq
      rw [ih (List.append_cancel_left heq)]

end

end PrefixCode
