import Mathlib

/-! Lists ordered by a key. Such a list is determined by its elements of each key, in their order,
and so is the outcome of a stable sort. -/
namespace KeyOrder

variable {α κ : Type} [LinearOrder κ] {key : α → κ}

/-- The elements of `l` with the key `k`, in their order. -/
def atKey (key : α → κ) (k : κ) (l : List α) : List α := l.filter fun a => key a = k

theorem mem_atKey {k : κ} {l : List α} {a : α} : a ∈ atKey key k l ↔ a ∈ l ∧ key a = k := by
  simp [atKey]

theorem atKey_cons_self (a : α) (l : List α) : atKey key (key a) (a :: l) = a :: atKey key (key a) l := by
  simp [atKey]

theorem atKey_cons_of_ne {k : κ} {a : α} (h : key a ≠ k) (l : List α) :
    atKey key k (a :: l) = atKey key k l := by
  simp [atKey, h]

theorem atKey_reverse (k : κ) (l : List α) : atKey key k l.reverse = (atKey key k l).reverse :=
  List.filter_reverse

theorem key_head_le {a b : α} {l l' : List α} (hl : (a :: l).Pairwise fun x y => key x ≤ key y)
    (h : ∀ k, atKey key k (a :: l) = atKey key k (b :: l')) : key a ≤ key b := by
  have hmem : b ∈ atKey key (key b) (a :: l) := by
    rw [h, atKey_cons_self]
    exact List.mem_cons_self
  rcases List.mem_cons.mp (mem_atKey.mp hmem).1 with rfl | hb
  · exact le_rfl
  · exact (List.pairwise_cons.mp hl).1 b hb

theorem eq_of_atKey_eq {l l' : List α} (hl : l.Pairwise fun x y => key x ≤ key y)
    (hl' : l'.Pairwise fun x y => key x ≤ key y) (h : ∀ k, atKey key k l = atKey key k l') :
    l = l' := by
  induction l generalizing l' with
  | nil =>
    cases l' with
    | nil => rfl
    | cons b l' =>
      have hb := h (key b)
      rw [atKey_cons_self] at hb
      cases hb
  | cons a l ih =>
    cases l' with
    | nil =>
      have ha := h (key a)
      rw [atKey_cons_self] at ha
      cases ha
    | cons b l' =>
      have hkey : key a = key b := le_antisymm (key_head_le hl h) (key_head_le hl' fun k => (h k).symm)
      have hhead := h (key a)
      rw [atKey_cons_self, hkey, atKey_cons_self] at hhead
      obtain ⟨rfl, -⟩ := List.cons.inj hhead
      congr 1
      refine ih (List.pairwise_cons.mp hl).2 (List.pairwise_cons.mp hl').2 fun k => ?_
      have hk := h k
      by_cases hka : key a = k
      · subst hka
        rw [atKey_cons_self, atKey_cons_self] at hk
        exact (List.cons.inj hk).2
      · rwa [atKey_cons_of_ne hka, atKey_cons_of_ne hka] at hk

/-- A list is what a stable sort makes of its reverse when it is ordered and the elements of each
key read the same in both directions. -/
theorem eq_sort_reverse_iff {l sorted : List α} (hsorted : sorted.Pairwise fun x y => key x ≤ key y)
    (hstable : ∀ k, atKey key k sorted = atKey key k l.reverse) :
    sorted = l ↔
      (l.Pairwise fun x y => key x ≤ key y) ∧ ∀ k, (atKey key k l).reverse = atKey key k l := by
  constructor
  · rintro rfl
    exact ⟨hsorted, fun k => by rw [← atKey_reverse, ← hstable]⟩
  · rintro ⟨hl, hpal⟩
    exact eq_of_atKey_eq hsorted hl fun k => by rw [hstable, atKey_reverse, hpal]

/-- Where all but the last element of a key are known by it, a list reads the same in both
directions at each key only when equal keys mean equal elements. -/
theorem atKey_reverse_eq_iff (null : α → Prop) {l : List α}
    (hnull : ∀ a b, null a → null b → key a = key b → a = b)
    (hl : l.Pairwise fun x y => key x = key y → null x) :
    (∀ k, (atKey key k l).reverse = atKey key k l) ↔ l.Pairwise fun x y => key x = key y → x = y := by
  constructor
  · intro hpal
    have hback (k : κ) : (atKey key k l).Pairwise fun x y => null x ∧ null y := by
      have hk : (atKey key k l).Pairwise fun x _ => null x :=
        List.pairwise_filter.mpr (hl.imp fun h hx hy => h (by simp_all))
      refine hk.and ?_
      have hr : (atKey key k l).reverse.Pairwise fun x _ => null x := by rwa [hpal k]
      exact List.pairwise_reverse.mp hr
    rw [List.pairwise_iff_forall_sublist]
    intro a b hab hkey
    have hsub : [a, b].Sublist (atKey key (key a) l) := by
      have := hab.filter fun x => decide (key x = key a)
      simpa [atKey, hkey] using this
    obtain ⟨ha, hb⟩ := List.pairwise_iff_forall_sublist.mp (hback (key a)) hsub
    exact hnull a b ha hb hkey
  · intro hsame k
    have hk : (atKey key k l).Pairwise Eq :=
      List.pairwise_filter.mpr (hsame.imp fun h hx hy => h (by simp_all))
    cases hl : atKey key k l with
    | nil => rfl
    | cons a t =>
      rw [hl] at hk
      have hrep : a :: t = List.replicate (t.length + 1) a :=
        List.eq_replicate_iff.mpr ⟨rfl, fun b hb => ?_⟩
      · rw [hrep, List.reverse_replicate]
      · rcases List.mem_cons.mp hb with rfl | hb
        · rfl
        · exact ((List.pairwise_cons.mp hk).1 b hb).symm

end KeyOrder
