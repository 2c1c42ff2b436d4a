import Mathlib

/-! Parent links: a partial map from each key to the key of its parent, and when following it ends at a root. -/
namespace ParentLinks

variable {κ : Type*} {parent parent' : κ → Option κ} {root k x p : κ}

/-- Following the links from a key reaches the root. -/
inductive Reaches (parent : κ → Option κ) (root : κ) : κ → Prop
  | root : Reaches parent root root
  | step {k p : κ} (hparent : parent k = some p) (h : Reaches parent root p) : Reaches parent root k

/-- A key is `x`, or following the links from it reaches `x`. -/
def Below (parent : κ → Option κ) (x k : κ) : Prop := Reaches parent x k

/-- Links that agree on all keys but one, at which none of the others points -/
theorem Reaches.of_agree (h : Reaches parent root k) (hagree : ∀ j, j ≠ x → parent' j = parent j)
    (hleaf : ∀ j, parent j ≠ some x) (hk : k ≠ x) : Reaches parent' root k := by
  induction h with
  | root => exact .root
  | step hparent _ ih =>
    have hp := ih fun hp => hleaf _ (hp ▸ hparent)
    exact .step ((hagree _ hk).trans hparent) hp

/-- A new key below one that reaches the root -/
theorem Reaches.of_leaf (h : Reaches parent root p) (hp : p ≠ x) (hagree : ∀ j, j ≠ x → parent' j = parent j)
    (hleaf : ∀ j, parent j ≠ some x) (hx : parent' x = some p) : Reaches parent' root x :=
  .step hx (h.of_agree hagree hleaf hp)

/-- What is not below a key reaches the root without it. -/
theorem Reaches.of_not_below (h : Reaches parent root k) (hagree : ∀ j, j ≠ x → parent' j = parent j)
    (hk : ¬ Below parent x k) : Reaches parent' root k := by
  induction h with
  | root => exact .root
  | step hparent _ ih =>
    have hne : _ ≠ x := fun h => hk (h ▸ Reaches.root)
    exact .step ((hagree _ hne).trans hparent) (ih fun h => hk (.step hparent h))

/-- A key moved to a parent that is not below it takes what is below it along. -/
theorem Reaches.of_moved (h : Reaches parent root k) (hagree : ∀ j, j ≠ x → parent' j = parent j)
    (hx : parent' x = some p) (hp : Reaches parent root p) (hbelow : ¬ Below parent x p) : Reaches parent' root k := by
  have hmoved : Reaches parent' root x := .step hx (hp.of_not_below hagree hbelow)
  induction h with
  | root => exact .root
  | @step k q hparent _ ih =>
    by_cases hk : k = x
    · exact hk ▸ hmoved
    · exact .step ((hagree k hk).trans hparent) ih

theorem Reaches.congr (h : Reaches parent root k) (hagree : ∀ j, parent' j = parent j) : Reaches parent' root k := by
  rwa [funext hagree]

end ParentLinks
