import Mathlib

/-! Messages that tell their own length, cut from a stream that arrives in pieces. -/
namespace Framing

variable {α : Type*} {size : List α → Option ℕ} {l d r r' : List α} {ms ms' : List (List α)} {n : ℕ}

/-- The first message of the stream is not all there yet. -/
def Waits (size : List α → Option ℕ) (l : List α) : Prop := ∀ n, size l = some n → l.length < n

/-- The messages that are there, one behind the other, and the start of the next one -/
inductive Frames (size : List α → Option ℕ) : List α → List (List α) → List α → Prop
  | wait {l : List α} (hwait : Waits size l) : Frames size l [] l
  | next {l : List α} {ms : List (List α)} {r : List α} {n : ℕ} (hsize : size l = some n) (hle : n ≤ l.length)
      (hrest : Frames size (l.drop n) ms r) : Frames size l (l.take n :: ms) r

/-- One of the messages is empty, so that the stream behind it is never reached. -/
inductive Jams (size : List α → Option ℕ) : List α → Prop
  | here {l : List α} (hsize : size l = some 0) : Jams size l
  | next {l : List α} {n : ℕ} (hsize : size l = some n) (hle : n ≤ l.length) (hrest : Jams size (l.drop n)) : Jams size l

/-- A length that is known does not change with what arrives later. -/
def Stable (size : List α → Option ℕ) : Prop := ∀ l d n, size l = some n → size (l ++ d) = some n

namespace Frames

theorem waits (h : Frames size l ms r) : Waits size r := by
  induction h with
  | wait hwait => exact hwait
  | next _ _ _ ih => exact ih

/-- Nothing of the stream is lost and nothing is there twice. -/
theorem flatten_append (h : Frames size l ms r) : ms.flatten ++ r = l := by
  induction h with
  | wait => rfl
  | @next l ms r n _ _ _ ih => rw [List.flatten_cons, List.append_assoc, ih, List.take_append_drop]

theorem unique (h : Frames size l ms r) (h' : Frames size l ms' r') : ms = ms' ∧ r = r' := by
  induction h generalizing ms' with
  | wait hwait =>
    cases h' with
    | wait => exact ⟨rfl, rfl⟩
    | next hsize hle => exact absurd hle (hwait _ hsize).not_ge
  | next hsize hle _ ih =>
    cases h' with
    | wait hwait => exact absurd hle (hwait _ hsize).not_ge
    | next hsize' _ hrest' =>
      obtain rfl := Option.some.inj (hsize.symm.trans hsize')
      obtain ⟨rfl, rfl⟩ := ih hrest'
      exact ⟨rfl, rfl⟩

/-- A receiver that keeps what is left of the stream and goes on from there cuts it as if it had seen the whole. -/
theorem append (hstable : Stable size) (h : Frames size l ms r) (h' : Frames size (r ++ d) ms' r') :
    Frames size (l ++ d) (ms ++ ms') r' := by
  induction h with
  | wait => exact h'
  | @next l ms r n hsize hle _ ih =>
    have hnext := Frames.next (hstable l d n hsize) (by rw [List.length_append]; omega)
      (by rw [List.drop_append_of_le_length hle]; exact ih h')
    rwa [List.take_append_of_le_length hle] at hnext

theorem not_jams (h : Frames size l ms r) : ¬ Jams size l := by
  intro hjams
  induction h with
  | wait hwait =>
    cases hjams with
    | here hsize => exact absurd (hwait 0 hsize) (Nat.not_lt_zero _)
    | next hsize hle => exact absurd hle (hwait _ hsize).not_ge
  | @next l ms r n hsize hle hrest ih =>
    cases hjams with
    | here hsize' =>
      -- the rest of the stream is the stream, which is cut in one way only
      obtain rfl := Option.some.inj (hsize.symm.trans hsize')
      have hself := (Frames.next hsize hle hrest).unique (by rw [List.drop_zero] at hrest; exact hrest)
      have hlen := congrArg List.length hself.1
      rw [List.length_cons] at hlen
      omega
    | next hsize' _ hjams =>
      obtain rfl := Option.some.inj (hsize.symm.trans hsize')
      exact ih hjams

/-- What was sent is what is cut from it, as far as it has arrived. -/
theorem eq_take (hstable : Stable size) (h : Frames size l ms r) {fs : List (List α)}
    (hfs : ∀ f ∈ fs, size f = some f.length) (hpre : l <+: fs.flatten) :
    ms = fs.take ms.length ∧ ∀ f rest, fs.drop ms.length = f :: rest → r <+: (f :: rest).flatten ∧ r.length < f.length := by
  induction h generalizing fs with
  | @wait l hwait =>
    refine ⟨rfl, fun f rest hdrop => ?_⟩
    obtain rfl : fs = f :: rest := hdrop
    refine ⟨hpre, ?_⟩
    by_contra hle
    obtain ⟨t, ht⟩ := List.prefix_of_prefix_length_le (List.prefix_append f rest.flatten) hpre (Nat.le_of_not_lt hle)
    have hsize := hstable f t _ (hfs f (List.mem_cons_self ..))
    rw [ht] at hsize
    exact hle (hwait _ hsize)
  | @next l ms r n hsize hle hrest ih =>
    cases fs with
    | nil =>
      obtain rfl := List.prefix_nil.mp hpre
      obtain rfl : n = 0 := Nat.le_zero.mp hle
      exact absurd (Jams.here hsize) (Frames.next hsize hle hrest).not_jams
    | cons f fs =>
      obtain ⟨u, hu⟩ := hpre
      have hn : n = f.length := by
        have hlong := hstable l u _ hsize
        rw [hu, List.flatten_cons, hstable f _ _ (hfs f (List.mem_cons_self ..))] at hlong
        exact (Option.some.inj hlong).symm
      rw [List.flatten_cons] at hu
      have htake : l.take n = f := by
        have := congrArg (List.take n) hu
        rwa [List.take_append_of_le_length hle, hn, List.take_left, ← hn] at this
      have hdrop : l.drop n ++ u = fs.flatten := by
        have := congrArg (List.drop n) hu
        rwa [List.drop_append_of_le_length hle, hn, List.drop_left, ← hn] at this
      obtain ⟨hms, hr⟩ := ih (fun f' hf' => hfs f' (List.mem_cons_of_mem f hf')) ⟨u, hdrop⟩
      refine ⟨?_, hr⟩
      rw [htake, List.length_cons, List.take_succ_cons, ← hms]

/-- A message that was sent has been cut off the stream exactly when all of it has arrived. -/
theorem length_le_iff (hstable : Stable size) (h : Frames size l ms r) {fs : List (List α)}
    (hfs : ∀ f ∈ fs, size f = some f.length) (hpre : l <+: fs.flatten) {j : ℕ} (hj : j ≤ fs.length) :
    (fs.take j).flatten.length ≤ l.length ↔ j ≤ ms.length := by
  obtain ⟨hms, hnext⟩ := h.eq_take hstable hfs hpre
  have hlen : l.length = (fs.take ms.length).flatten.length + r.length := by
    rw [← hms, ← List.length_append, h.flatten_append]
  have hmono {i k : ℕ} (hik : i ≤ k) : (fs.take i).flatten.length ≤ (fs.take k).flatten.length := by
    obtain ⟨t, ht⟩ := List.take_prefix_take_left hik (l := fs)
    rw [← ht, List.flatten_append, List.length_append]
    omega
  constructor
  · intro hle
    by_contra hlt
    cases hdrop : fs.drop ms.length with
    | nil =>
      have := List.drop_eq_nil_iff.mp hdrop
      omega
    | cons f rest =>
      have hshort := (hnext f rest hdrop).2
      have htake : fs.take (ms.length + 1) = fs.take ms.length ++ [f] := by
        rw [List.take_add, hdrop]
        rfl
      have hstep := hmono (show ms.length + 1 ≤ j by omega)
      rw [htake, List.flatten_append, List.length_append, List.flatten_singleton] at hstep
      omega
  · intro hle
    have := hmono hle
    omega

end Frames

/-- A stream is cut into its messages unless one of them is empty. -/
theorem exists_frames_iff : (∃ ms r, Frames size l ms r) ↔ ¬ Jams size l := by
  constructor
  · rintro ⟨ms, r, h⟩
    exact h.not_jams
  · intro hjams
    induction hlen : l.length using Nat.strong_induction_on generalizing l with
    | _ k ih =>
      by_cases hwait : Waits size l
      · exact ⟨[], l, .wait hwait⟩
      · simp only [Waits, not_forall, not_lt] at hwait
        obtain ⟨n, hsize, hle⟩ := hwait
        have hpos : n ≠ 0 := by
          rintro rfl
          exact hjams (.here hsize)
        have hshort : (l.drop n).length < k := by
          rw [List.length_drop]
          omega
        obtain ⟨ms, r, h⟩ := ih _ hshort (fun h => hjams (.next hsize hle h)) rfl
        exact ⟨_, r, .next hsize hle h⟩

end Framing
