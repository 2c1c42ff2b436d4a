import ValidcTools.Tr.Documented

/-! The request `[c*]` of STRING2: what `expand_string` keeps of it in the buffer, and what `resolve_string2_padding`
makes of that in place. -/
namespace ValidcTools.Tr

/-! ## Markers in a list -/

/-- The bytes without the markers that are met from the left -/
def strip : List Byte → List Byte
  | 0xFF :: 0xFE :: _ :: rest => strip rest
  | b :: rest => b :: strip rest
  | [] => []

theorem strip_sublist (l : List Byte) : (strip l).Sublist l := by
  induction l using strip.induct with
  | case1 c rest ih =>
    rw [strip]
    exact ((ih.cons c).cons _).cons _
  | case2 b rest hno ih =>
    rw [strip]
    · exact ih.cons_cons b
    · exact hno
  | case3 => exact List.Sublist.refl _

/-- What is lost of a list is markers, with both of their bytes. -/
theorem strip_count (l : List Byte) :
    strip l = l ∨ ((strip l).count 0xFF < l.count 0xFF ∧ (strip l).count 0xFE < l.count 0xFE) := by
  induction l using strip.induct with
  | case1 c rest ih =>
    right
    have hFF := (strip_sublist rest).count_le 0xFF
    have hFE := (strip_sublist rest).count_le 0xFE
    rw [strip]
    simp only [List.count_cons, beq_self_eq_true, if_true]
    constructor
    · omega
    · omega
  | case2 b rest hno ih =>
    rw [strip]
    · refine ih.imp (congrArg (b :: ·)) fun h => ?_
      simp only [List.count_cons]
      exact ⟨Nat.add_lt_add_right h.1 _, Nat.add_lt_add_right h.2 _⟩
    · exact hno
  | case3 => exact .inl rfl

theorem strip_eq_self {l : List Byte} (h : ¬HasMarker l) : strip l = l := by
  induction l using strip.induct with
  | case1 c rest ih => exact absurd ⟨[], c, rest, rfl⟩ h
  | case2 b rest hno ih =>
    rw [strip]
    · refine congrArg (b :: ·) (ih fun hrest => h ?_)
      obtain ⟨u, c, v, rfl⟩ := hrest
      exact ⟨b :: u, c, v, rfl⟩
    · exact hno
  | case3 => rfl

theorem not_hasMarker_of_strip {l : List Byte} (h : strip l = l) : ¬HasMarker l := by
  induction l using strip.induct with
  | case1 c rest ih =>
    rw [strip] at h
    have hle := (strip_sublist rest).length_le
    rw [h] at hle
    simp only [List.length_cons] at hle
    omega
  | case2 b rest hno ih =>
    rw [strip] at h
    · rintro ⟨u, c, v, heq⟩
      cases u with
      | nil =>
        obtain ⟨rfl, rfl⟩ := List.cons.inj heq
        exact hno c v rfl rfl
      | cons a u => exact ih (List.cons.inj h).2 ⟨u, c, v, (List.cons.inj heq).2⟩
    · exact hno
  | case3 =>
    rintro ⟨u, c, v, heq⟩
    exact absurd heq.symm (by simp)

/-! ## The loop -/

theorem fill_eq (c : Byte) (n : ℕ) (str : ℕ → Byte) (dst : ℕ) :
    fill c n str dst = (fun i => if dst ≤ i ∧ i < dst + n then c else str i, dst + n) := by
  induction n generalizing str dst with
  | zero => exact Prod.ext (funext fun i => (if_neg (by omega)).symm) rfl
  | succ n ih =>
    rw [fill, ih]
    refine Prod.ext (funext fun i => ?_) (Nat.add_right_comm dst 1 n)
    dsimp only
    by_cases hi : i = dst
    · rw [hi, if_neg (by omega), if_pos (by omega), Function.update_self]
    · rw [Function.update_of_ne hi]
      exact if_congr (by omega) rfl rfl

/-- A marker is met at `src`. -/
abbrev MarkerAt (len2 : ℕ) (str : ℕ → Byte) (src : ℕ) : Prop := src + 2 < len2 ∧ str src = 0xFF ∧ str (src + 1) = 0xFE

theorem resolveLoop_marker {len1 len2 : ℕ} {str : ℕ → Byte} {src : ℕ} (h : MarkerAt len2 str src) (dst : ℕ) :
    resolveLoop len1 len2 str src dst =
      if dst + (min len1 MAX_STRING - dst) ≥ MAX_STRING then none
      else
        resolveLoop len1 len2
          (fun i => if dst ≤ i ∧ i < dst + (min len1 MAX_STRING - dst) then str (src + 2) else str i) (src + 3)
          (dst + (min len1 MAX_STRING - dst)) := by
  rw [resolveLoop, if_pos (by have := h.1; omega), if_pos h, fill_eq]

theorem resolveLoop_copy {len1 len2 : ℕ} {str : ℕ → Byte} {src : ℕ} (hlt : src < len2) (h : ¬MarkerAt len2 str src)
    (dst : ℕ) :
    resolveLoop len1 len2 str src dst =
      if dst + 1 ≥ MAX_STRING then none
      else resolveLoop len1 len2 (Function.update str dst (str src)) (src + 1) (dst + 1) := by
  rw [resolveLoop, if_pos hlt, if_neg h]

theorem resolveLoop_stop {len1 len2 src : ℕ} (h : len2 ≤ src) (str : ℕ → Byte) (dst : ℕ) :
    resolveLoop len1 len2 str src dst = some (str, dst) := by
  rw [resolveLoop, if_neg (not_lt.mpr h)]

section Run
variable {len1 len2 : ℕ} {r : (ℕ → Byte) × ℕ}

/-- The turns of the loop: it ends, it fills, or it copies a byte. -/
theorem resolveLoop_cases {str : ℕ → Byte} {src dst : ℕ} (h : resolveLoop len1 len2 str src dst = some r) :
    (len2 ≤ src ∧ r = (str, dst)) ∨
    (MarkerAt len2 str src ∧ dst + (min len1 MAX_STRING - dst) < MAX_STRING ∧
      resolveLoop len1 len2
        (fun i => if dst ≤ i ∧ i < dst + (min len1 MAX_STRING - dst) then str (src + 2) else str i) (src + 3)
        (dst + (min len1 MAX_STRING - dst)) = some r) ∨
    (src < len2 ∧ ¬MarkerAt len2 str src ∧ dst + 1 < MAX_STRING ∧
      resolveLoop len1 len2 (Function.update str dst (str src)) (src + 1) (dst + 1) = some r) := by
  by_cases hlt : src < len2
  · right
    by_cases hmarker : MarkerAt len2 str src
    · left
      rw [resolveLoop_marker hmarker] at h
      split_ifs at h with hroom
      exact ⟨hmarker, not_le.mp hroom, h⟩
    · right
      rw [resolveLoop_copy hlt hmarker] at h
      split_ifs at h with hroom
      exact ⟨hlt, hmarker, not_le.mp hroom, h⟩
  · rw [resolveLoop_stop (not_lt.mp hlt)] at h
    exact .inl ⟨not_lt.mp hlt, (Option.some.inj h).symm⟩

/-- Nothing before `dst` is written again, and there is room for all of it. -/
theorem resolveLoop_frame {str : ℕ → Byte} {src dst : ℕ} (h : resolveLoop len1 len2 str src dst = some r) :
    dst ≤ r.2 ∧ (r.2 = dst ∨ r.2 < MAX_STRING) ∧ ∀ i < dst, r.1 i = str i := by
  obtain ⟨-, rfl⟩ | ⟨hmarker, hroom, hrest⟩ | ⟨hlt, -, hroom, hrest⟩ := resolveLoop_cases h
  · exact ⟨le_refl _, .inl rfl, fun _ _ => rfl⟩
  · have hlt := hmarker.1
    obtain ⟨hle, hsize, hbefore⟩ := resolveLoop_frame hrest
    refine ⟨by omega, .inr (by omega), fun i hi => (hbefore i (by omega)).trans (if_neg (by omega))⟩
  · obtain ⟨hle, hsize, hbefore⟩ := resolveLoop_frame hrest
    refine ⟨by omega, .inr (by omega), fun i hi => (hbefore i (by omega)).trans ?_⟩
    exact Function.update_of_ne hi.ne _ _
termination_by len2 - src

/-- When there is nothing to fill, only markers are lost. -/
theorem resolveLoop_length {str : ℕ → Byte} {src dst : ℕ} (hlen1 : len1 ≤ dst) (hsrc : src ≤ len2)
    (h : resolveLoop len1 len2 str src dst = some r) : ∃ m, r.2 + 3 * m = dst + (len2 - src) := by
  obtain ⟨hle, rfl⟩ | ⟨hmarker, hroom, hrest⟩ | ⟨hlt, -, hroom, hrest⟩ := resolveLoop_cases h
  · exact ⟨0, by dsimp only; omega⟩
  · have hlt := hmarker.1
    obtain ⟨m, hm⟩ := resolveLoop_length (by omega) (by omega) hrest
    exact ⟨m + 1, by omega⟩
  · obtain ⟨m, hm⟩ := resolveLoop_length (by omega) (by omega) hrest
    exact ⟨m, by omega⟩
termination_by len2 - src

theorem exists_resolveLoop {str : ℕ → Byte} {src dst : ℕ} (hlen1 : len1 ≤ dst) (hroom : dst + (len2 - src) < MAX_STRING) :
    ∃ r, resolveLoop len1 len2 str src dst = some r := by
  by_cases hlt : src < len2
  · by_cases hmarker : MarkerAt len2 str src
    · rw [resolveLoop_marker hmarker, if_neg (by omega)]
      exact exists_resolveLoop (by omega) (by have := hmarker.1; omega)
    · rw [resolveLoop_copy hlt hmarker, if_neg (by omega)]
      exact exists_resolveLoop (by omega) (by omega)
  · exact ⟨_, resolveLoop_stop (not_lt.mp hlt) ..⟩
termination_by len2 - src

/-- Where the reads are ahead of the writes, they find what was there. -/
theorem resolveLoop_strip {str : ℕ → Byte} {src dst : ℕ} {l : List Byte} (hlen1 : len1 ≤ dst) (hdst : dst ≤ src)
    (hlen2 : src + l.length = len2) (hl : ∀ i, (h : i < l.length) → str (src + i) = l[i])
    (h : resolveLoop len1 len2 str src dst = some r) :
    (List.range r.2).map r.1 = (List.range dst).map str ++ strip l := by
  induction l using strip.induct generalizing str src dst with
  | case1 c rest ih =>
    simp only [List.length_cons] at hlen2
    have hmarker : MarkerAt len2 str src :=
      ⟨by omega, hl 0 (by simp), hl 1 (by simp)⟩
    obtain ⟨hle, -⟩ | ⟨-, hroom, hrest⟩ | ⟨-, hno, -⟩ := resolveLoop_cases h
    · omega
    · have hnone : min len1 MAX_STRING - dst = 0 := by omega
      have hsame : (fun i => if dst ≤ i ∧ i < dst + 0 then str (src + 2) else str i) = str :=
        funext fun i => if_neg (by omega)
      rw [hnone, hsame, Nat.add_zero] at hrest
      rw [strip]
      refine ih hlen1 (by omega) (by omega) (fun i hi => ?_) hrest
      rw [Nat.add_assoc, Nat.add_comm 3 i]
      exact hl (i + 3) (by simp only [List.length_cons]; omega)
    · exact absurd hmarker hno
  | case2 b rest hno ih =>
    rw [List.length_cons] at hlen2
    obtain ⟨hle, -⟩ | ⟨hmarker, -, -⟩ | ⟨hlt, -, -, hrest⟩ := resolveLoop_cases h
    · omega
    · exfalso
      have hlt := hmarker.1
      have h0 := hl 0 (by simp)
      have h1 := hl 1 (by rw [List.length_cons]; omega)
      cases rest with
      | nil =>
        rw [List.length_nil] at hlen2
        omega
      | cons x rest =>
        cases rest with
        | nil =>
          simp only [List.length_cons, List.length_nil] at hlen2
          omega
        | cons y rest => exact hno y rest (h0.symm.trans hmarker.2.1) (by rw [← hmarker.2.2, h1]; rfl)
    · rw [strip]
      · rw [ih (by omega) (by omega) (by omega) (fun i hi => ?_) hrest, List.range_succ, List.map_append,
          List.map_singleton, Function.update_self, List.append_assoc, show str src = b from hl 0 (by simp)]
        · refine congrArg (· ++ _) (List.map_congr_left fun i hi => ?_)
          exact Function.update_of_ne (List.mem_range.mp hi).ne _ _
        · rw [Function.update_of_ne (by omega), Nat.add_assoc, Nat.add_comm 1 i]
          exact hl (i + 1) (by rw [List.length_cons]; omega)
      · exact hno
  | case3 =>
    rw [resolveLoop_stop (by rw [← hlen2]; exact (Nat.add_zero _).le)] at h
    rw [← Option.some.inj h, strip, List.append_nil]

/-- Where the writes are ahead of the reads by two, or all that is read is one byte, nothing looks like a marker. -/
theorem resolveLoop_same {str : ℕ → Byte} {src dst : ℕ} {c : Byte} (all : Prop) (hlen1 : len1 ≤ dst) (hsrc : src ≤ len2)
    (hdst : src ≤ dst) (hahead : all ∨ src + 2 ≤ dst) (hc : ∀ i, src ≤ i → i < len2 → all ∨ i < dst → str i = c)
    (h : resolveLoop len1 len2 str src dst = some r) : r.2 = dst + (len2 - src) := by
  obtain ⟨hle, rfl⟩ | ⟨hmarker, -, -⟩ | ⟨hlt, -, hroom, hrest⟩ := resolveLoop_cases h
  · dsimp only
    omega
  · have hlt := hmarker.1
    have h0 := hc src (le_refl _) (by omega) (hahead.imp_right fun h => by omega)
    have h1 := hc (src + 1) (by omega) (by omega) (hahead.imp_right fun h => by omega)
    exact absurd (hmarker.2.1.symm.trans (h0.trans (h1.symm.trans hmarker.2.2))) (by decide)
  · have hread := hc src (le_refl _) hlt (hahead.imp_right fun h => by omega)
    have hwritten : ∀ i, src + 1 ≤ i → i < len2 → all ∨ i < dst + 1 → Function.update str dst (str src) i = c := by
      intro i hi hi2 hin
      by_cases hid : i = dst
      · rw [hid, Function.update_self, hread]
      · rw [Function.update_of_ne hid]
        exact hc i (by omega) hi2 (hin.imp_right fun h => by omega)
    have hnext := resolveLoop_same all (by omega) (by omega) (by omega) (hahead.imp_right fun h => by omega) hwritten hrest
    omega
termination_by len2 - src

end Run

/-! ## The buffer with its first marker -/

theorem not_markerAt {a rest : List Byte} (hno : ¬[0xFF, 0xFE] <:+: a) (hrest : rest.head? ≠ some 0xFE) {i : ℕ}
    (hi : i < a.length) (len2 : ℕ) : ¬MarkerAt len2 (fun i => (a ++ rest).getD i 0) i := by
  rintro ⟨-, h0, h1⟩
  dsimp only at h0 h1
  rw [List.getD_append _ _ _ _ hi, List.getD_eq_getElem _ _ hi] at h0
  by_cases hi1 : i + 1 < a.length
  · rw [List.getD_append _ _ _ _ hi1, List.getD_eq_getElem _ _ hi1] at h1
    refine hno ⟨a.take i, a.drop (i + 2), ?_⟩
    rw [← h0, ← h1, List.append_assoc, List.cons_append, List.singleton_append, ← List.drop_eq_getElem_cons hi1,
      ← List.drop_eq_getElem_cons hi, List.take_append_drop]
  · rw [List.getD_append_right _ _ _ _ (by omega), show i + 1 - a.length = 0 by omega] at h1
    cases rest with
    | nil => exact absurd h1 (by decide)
    | cons b rest => exact hrest (congrArg some h1)

/-- What comes before the first marker stays where it is. -/
theorem resolveLoop_front {a rest : List Byte} (hno : ¬[0xFF, 0xFE] <:+: a) (hrest : rest.head? ≠ some 0xFE)
    (hroom : a.length < MAX_STRING) (len1 : ℕ) {i : ℕ} (hi : i ≤ a.length) :
    resolveLoop len1 (a ++ rest).length (fun i => (a ++ rest).getD i 0) i i =
      resolveLoop len1 (a ++ rest).length (fun i => (a ++ rest).getD i 0) a.length a.length := by
  obtain rfl | hlt := hi.eq_or_lt
  · rfl
  · rw [resolveLoop_copy (by rw [List.length_append]; omega) (not_markerAt hno hrest hlt _), if_neg (by omega),
      Function.update_eq_self]
    exact resolveLoop_front hno hrest hroom len1 hlt
termination_by a.length - i

/-- The buffer once `[c*]` after `a` has been filled up -/
def filled (a b : List Byte) (c : Byte) (len1 : ℕ) : ℕ → Byte := fun i =>
  if a.length ≤ i ∧ i < a.length + (len1 - a.length) then c else (a ++ 0xFF :: 0xFE :: c :: b).getD i 0

theorem map_filled (a b : List Byte) (c : Byte) (len1 : ℕ) :
    (List.range (a.length + (len1 - a.length))).map (filled a b c len1) = a ++ List.replicate (len1 - a.length) c := by
  refine List.ext_getElem (by simp) fun i hi _ => ?_
  rw [List.length_map, List.length_range] at hi
  rw [List.getElem_map, List.getElem_range, filled]
  by_cases hlt : i < a.length
  · rw [if_neg (by omega), List.getD_append _ _ _ _ hlt, List.getD_eq_getElem _ _ hlt, List.getElem_append_left hlt]
  · rw [if_pos ⟨by omega, hi⟩, List.getElem_append_right (by omega), List.getElem_replicate]

theorem filled_after {a b : List Byte} (c : Byte) {len1 i : ℕ} (hi : i < b.length) (h : len1 ≤ a.length + 3 + i) :
    filled a b c len1 (a.length + 3 + i) = b[i] := by
  rw [filled, if_neg (by omega), List.getD_append_right _ _ _ _ (by omega),
    show a.length + 3 + i - a.length = i + 3 by omega, List.getD_cons_succ, List.getD_cons_succ, List.getD_cons_succ, List.getD_eq_getElem _ _ hi]

section First
variable {a b : List Byte} {c : Byte} {len1 : ℕ}

theorem resolveString2Padding_first (hno : ¬[0xFF, 0xFE] <:+: a) (hroom : a.length < MAX_STRING) :
    resolveString2Padding (a ++ 0xFF :: 0xFE :: c :: b) len1 =
      if len1 ≥ MAX_STRING then none
      else
        (resolveLoop len1 (a.length + 3 + b.length) (filled a b c len1) (a.length + 3) (a.length + (len1 - a.length))).map
          fun r => (List.range r.2).map r.1 := by
  have hlength : (a ++ 0xFF :: 0xFE :: c :: b).length = a.length + 3 + b.length := by
    simp only [List.length_append, List.length_cons]
    omega
  have hget (k : ℕ) : (a ++ 0xFF :: 0xFE :: c :: b).getD (a.length + k) 0 = (0xFF :: 0xFE :: c :: b).getD k 0 := by
    rw [List.getD_append_right _ _ _ _ (by omega), Nat.add_sub_cancel_left]
  have hmarker : MarkerAt (a ++ 0xFF :: 0xFE :: c :: b).length (fun i => (a ++ 0xFF :: 0xFE :: c :: b).getD i 0) a.length :=
    ⟨by omega, hget 0, hget 1⟩
  have hc : (a ++ 0xFF :: 0xFE :: c :: b).getD (a.length + 2) 0 = c := hget 2
  have hhead : (0xFF :: 0xFE :: c :: b).head? ≠ some 0xFE := fun h => absurd (Option.some.inj h) (by decide)
  unfold resolveString2Padding
  rw [resolveLoop_front hno hhead hroom len1 (Nat.zero_le _), resolveLoop_marker hmarker, hlength, hc]
  by_cases hlen1 : len1 ≥ MAX_STRING
  · rw [if_pos hlen1, if_pos (by omega)]
    rfl
  · rw [if_neg hlen1, if_neg (by omega), min_eq_left (not_le.mp hlen1).le]
    rfl

/-- What comes of a buffer that holds a marker -/
theorem exists_of_marker (hno : ¬[0xFF, 0xFE] <:+: a) (hroom : a.length < MAX_STRING) {out : List Byte}
    (h : resolveString2Padding (a ++ 0xFF :: 0xFE :: c :: b) len1 = some out) :
    ∃ r, resolveLoop len1 (a.length + 3 + b.length) (filled a b c len1) (a.length + 3)
          (a.length + (len1 - a.length)) = some r ∧
      out = (List.range r.2).map r.1 ∧ out.length = r.2 ∧
      ∃ w m, out = a ++ List.replicate (len1 - a.length) c ++ w ∧ w.length + 3 * m = b.length := by
  rw [resolveString2Padding_first hno hroom] at h
  split_ifs at h with hlen1
  obtain ⟨r, hr, rfl⟩ := Option.map_eq_some_iff.mp h
  have hlength : ((List.range r.2).map r.1).length = r.2 := by rw [List.length_map, List.length_range]
  refine ⟨r, hr, rfl, hlength, ?_⟩
  obtain ⟨hle, -, hbefore⟩ := resolveLoop_frame hr
  obtain ⟨m, hm⟩ := resolveLoop_length (by omega) (by omega) hr
  refine ⟨((List.range r.2).map r.1).drop (a.length + (len1 - a.length)), m, ?_, ?_⟩
  · rw [← map_filled a b c len1]
    conv_lhs => rw [← List.take_append_drop (a.length + (len1 - a.length)) ((List.range r.2).map r.1)]
    rw [← List.map_take, List.take_range, min_eq_left hle]
    exact congrArg (· ++ _) (List.map_congr_left fun i hi => hbefore i (List.mem_range.mp hi))
  · rw [List.length_drop, hlength]
    omega

/-- Nothing is filled: only the markers are lost. -/
theorem eq_strip_of_le (hno : ¬[0xFF, 0xFE] <:+: a) (hroom : a.length < MAX_STRING) (hlen1 : len1 ≤ a.length)
    {out : List Byte} (h : resolveString2Padding (a ++ 0xFF :: 0xFE :: c :: b) len1 = some out) : out = a ++ strip b := by
  obtain ⟨r, hr, rfl, -⟩ := exists_of_marker hno hroom h
  have hstrip := resolveLoop_strip (l := b) (by omega) (by omega) rfl (fun i hi => filled_after c hi (by omega)) hr
  rw [map_filled, Nat.sub_eq_zero_of_le hlen1, List.replicate_zero, List.append_nil] at hstrip
  exact hstrip

end First

/-! ## Buffers that stay as they are -/

theorem exists_first_marker (u v : List Byte) (c : Byte) : ∃ a c' b,
    u ++ 0xFF :: 0xFE :: c :: v = a ++ 0xFF :: 0xFE :: c' :: b ∧ ¬[0xFF, 0xFE] <:+: a := by
  by_cases h : [0xFF, 0xFE] <:+: u
  · obtain ⟨x, y, rfl⟩ := h
    have : x.length < (x ++ [0xFF, 0xFE] ++ y).length := by
      simp only [List.length_append, List.length_cons]
      omega
    cases y with
    | nil =>
      obtain ⟨a, c', b, heq, hno⟩ := exists_first_marker x (0xFE :: c :: v) 0xFF
      exact ⟨a, c', b, by rw [← heq]; simp, hno⟩
    | cons d y =>
      obtain ⟨a, c', b, heq, hno⟩ := exists_first_marker x (y ++ 0xFF :: 0xFE :: c :: v) d
      exact ⟨a, c', b, by rw [← heq]; simp, hno⟩
  · exact ⟨u, c, v, rfl, h⟩
termination_by u.length

theorem length_lt_of_eq {set2 out : List Byte} {len1 : ℕ} (h : resolveString2Padding set2 len1 = some out) :
    out.length < MAX_STRING := by
  obtain ⟨r, hr, rfl⟩ := Option.map_eq_some_iff.mp h
  have hsize := (resolveLoop_frame hr).2.1
  have hpos : 0 < MAX_STRING := by decide
  rw [List.length_map, List.length_range]
  omega

/-- Filling after `a` does not bring the two bytes of a marker. -/
theorem not_marker_of_replicate {n : ℕ} {c : Byte} {w t : List Byte} (h : List.replicate n c ++ w = 0xFF :: 0xFE :: t) :
    n ≤ 1 := by
  match n, h with
  | 0, _ => exact Nat.zero_le 1
  | 1, _ => exact le_refl 1
  | n + 2, h =>
    rw [List.replicate_succ, List.replicate_succ] at h
    obtain ⟨hFF, h⟩ := List.cons.inj h
    exact absurd (hFF.symm.trans (List.cons.inj h).1) (by decide)

theorem resolveString2Padding_eq_self_iff (set2 : List Byte) (len1 : ℕ) :
    resolveString2Padding set2 len1 = some set2 ↔ ¬HasMarker set2 ∧ set2.length < MAX_STRING := by
  refine ⟨fun h => ?_, fun h => resolveString2Padding_eq h.2 h.1 len1⟩
  have hlen := length_lt_of_eq h
  refine ⟨?_, hlen⟩
  rintro ⟨u, c, v, rfl⟩
  obtain ⟨a, c', b, heq, hno⟩ := exists_first_marker u v c
  rw [heq] at h hlen
  have hlength : (a ++ 0xFF :: 0xFE :: c' :: b).length = a.length + 3 + b.length := by
    simp only [List.length_append, List.length_cons]
    omega
  obtain ⟨r, -, -, -, w, m, hout, hm⟩ := exists_of_marker hno (by omega) h
  have hsize := congrArg List.length hout
  rw [hlength, List.length_append, List.length_append, List.length_replicate] at hsize
  rw [List.append_assoc] at hout
  have hone := not_marker_of_replicate (List.append_cancel_left hout).symm
  omega

/-! ## An operand with a request -/

/-- `u[c*]v`, where `u` and `v` have no byte that is not literal -/
structure PadOperand where
  u : List Byte
  c : Byte
  v : List Byte
  plain : ∀ b ∈ u ++ v, b ≠ 0 ∧ b ≠ '[' ∧ b ≠ '-'
  c_ne : c ≠ 0

def PadOperand.string (p : PadOperand) : CString where
  bytes := p.u ++ 0x5B :: p.c :: 0x2A :: 0x5D :: p.v
  nulFree h := by
    obtain hu | hv := List.mem_append.mp h
    · exact (p.plain 0 (List.mem_append_left _ hu)).1 rfl
    · simp only [List.mem_cons] at hv
      obtain h | h | h | h | hv := hv
      · exact absurd h (by decide)
      · exact p.c_ne h.symm
      · exact absurd h (by decide)
      · exact absurd h (by decide)
      · exact (p.plain 0 (List.mem_append_right _ hv)).1 rfl

/-- STRING2 is filled up with `c`, between `u` and `v`, to the length of STRING1. -/
def PadOperand.Padded (p : PadOperand) (len1 : ℕ) : Prop :=
  ∃ k, p.u.length + k + p.v.length = max len1 (p.u.length + p.v.length) ∧
    (expandString p.string true).bind (resolveString2Padding · len1) = some (p.u ++ (List.replicate k p.c ++ p.v))

/-- The request is read as one, nothing before it looks like a marker, and either it comes last or it is for nothing. -/
structure PadOperand.Served (p : PadOperand) (len1 : ℕ) : Prop where
  read : p.c ≠ '*' ∧ p.c ≠ ']'
  fits : p.u.length + 3 + p.v.length ≤ MAX_STRING
  room : len1 < MAX_STRING
  before : ¬[0xFF, 0xFE] <:+: p.u
  after : p.v = [] ∨ (len1 ≤ p.u.length ∧ ¬HasMarker p.v)

theorem plain_of_ne {b : Byte} (hb : b ≠ '[') (s : List Byte) : Plain true (b :: s) where
  noRepeat _ h := by
    obtain ⟨c, n, rest, heq, -⟩ := h
    exact hb (List.cons.inj heq).1
  noClass h := by
    obtain ⟨name, rest, -, heq⟩ := h
    exact hb (List.cons.inj heq).1
  noEquivalence h := by
    obtain ⟨body, rest, heq⟩ := h
    exact hb (List.cons.inj heq).1

/-- Bytes that begin nothing are copied as long as there is room. -/
theorem expandLoop_literals {l : List Byte} (hl : ∀ b ∈ l, b ≠ '[' ∧ b ≠ '-') {s : List Byte} (hs : s.head? ≠ some 0x2D)
    {out : List Byte} (hout : out.length ≤ MAX_STRING) :
    expandLoop true (l ++ s) out = if out.length + l.length ≤ MAX_STRING then expandLoop true s (out ++ l) else none := by
  induction l generalizing out with
  | nil =>
    rw [List.append_nil, List.length_nil, Nat.add_zero, if_pos hout]
    rfl
  | cons b l ih =>
    rw [List.length_cons]
    by_cases hlen : out.length < MAX_STRING
    · have hrange : ∀ c rest, l ++ s = 0x2D :: c :: rest → b = '-' ∨ c = '-' := by
        intro c rest heq
        exfalso
        cases l with
        | nil =>
          rw [List.nil_append] at heq
          rw [heq] at hs
          exact hs rfl
        | cons d l => exact (hl d (List.mem_cons_of_mem _ List.mem_cons_self)).2 (List.cons.inj heq).1
      have hturn := expandTurn_literal hrange (plain_of_ne (hl b List.mem_cons_self).1 _) hlen
      have htake : (Element.literal b).bytes.take (MAX_STRING - out.length) = [b] :=
        List.take_of_length_le (show 1 ≤ MAX_STRING - out.length by omega)
      rw [htake] at hturn
      rw [List.cons_append, expandLoop_cons (List.cons_ne_nil _ _) hturn,
        ih (fun d hd => hl d (List.mem_cons_of_mem _ hd)) (by rw [List.length_append, List.length_singleton]; omega),
        List.length_append, List.length_singleton, List.append_assoc]
      exact if_congr (by omega) rfl rfl
    · rw [List.cons_append, expandLoop_full (List.cons_ne_nil _ _) (by omega), if_neg (by omega)]

theorem expandLoop_nil (out : List Byte) : expandLoop true [] out = some out := by
  unfold expandLoop
  exact dif_pos rfl

theorem expandLoop_rest {l : List Byte} (hl : ∀ b ∈ l, b ≠ '[' ∧ b ≠ '-') {out : List Byte}
    (hout : out.length ≤ MAX_STRING) :
    expandLoop true l out = if out.length + l.length ≤ MAX_STRING then some (out ++ l) else none := by
  have hwhole := expandLoop_literals hl (s := []) (fun h => nomatch h) hout
  rw [List.append_nil, expandLoop_nil] at hwhole
  exact hwhole

/-- `[c*]` is read where there is room for its marker. -/
theorem expandLoop_request {c : Byte} (hc : c ≠ '*' ∧ c ≠ ']') {v out : List Byte} (hv : ∀ b ∈ v, b ≠ '[' ∧ b ≠ '-')
    (hout : out.length ≤ MAX_STRING) :
    expandLoop true (0x5B :: c :: 0x2A :: 0x5D :: v) out =
      if out.length + 3 + v.length ≤ MAX_STRING then some (out ++ 0xFF :: 0xFE :: c :: v) else none := by
  have hparse : parseRepeat (0x5B :: c :: 0x2A :: 0x5D :: v) out.length =
      if out.length + 3 ≤ MAX_STRING then some (some (v, [0xFF, 0xFE, c])) else none := by
    have hguard : ¬(c = '*' ∨ c = ']' ∨ (0x5D : Byte) ∉ 0x5D :: v) := by simpa using hc
    unfold parseRepeat
    exact (if_neg hguard).trans (if_pos rfl)
  by_cases hfits : out.length + 3 ≤ MAX_STRING
  · rw [if_pos hfits] at hparse
    have hturn : expandTurn true (0x5B :: c :: 0x2A :: 0x5D :: v) out.length = some (v, [0xFF, 0xFE, c]) := by
      unfold expandTurn
      rw [if_neg (by omega), if_pos rfl, hparse]
    rw [expandLoop_cons (List.cons_ne_nil _ _) hturn, expandLoop_rest hv (by simpa using hfits), List.append_assoc,
      List.length_append]
    rfl
  · rw [if_neg (by omega)]
    by_cases hlen : out.length < MAX_STRING
    · rw [if_neg hfits] at hparse
      have hturn : expandTurn true (0x5B :: c :: 0x2A :: 0x5D :: v) out.length = none := by
        unfold expandTurn
        rw [if_neg (by omega), if_pos rfl, hparse]
      unfold expandLoop
      rw [dif_neg (List.cons_ne_nil _ _)]
      split
      · rfl
      · next rest adds hsome => cases hsome.symm.trans hturn
    · exact expandLoop_full (List.cons_ne_nil _ _) (by omega)

/-- With `*` or `]` for `c` the text is not a construct. -/
theorem expandLoop_noRequest {c : Byte} (hc : c = '*' ∨ c = ']') {v out : List Byte} (hv : ∀ b ∈ v, b ≠ '[' ∧ b ≠ '-')
    (hout : out.length ≤ MAX_STRING) :
    expandLoop true (0x5B :: c :: 0x2A :: 0x5D :: v) out =
      if out.length + 4 + v.length ≤ MAX_STRING then some (out ++ 0x5B :: c :: 0x2A :: 0x5D :: v) else none := by
  have hplain : ∀ b ∈ c :: 0x2A :: 0x5D :: v, b ≠ '[' ∧ b ≠ '-' := by
    intro b hb
    simp only [List.mem_cons] at hb
    obtain rfl | rfl | rfl | hb := hb
    · obtain rfl | rfl := hc
      · decide
      · decide
    · decide
    · decide
    · exact hv b hb
  by_cases hlen : out.length < MAX_STRING
  · have hno : Plain true (0x5B :: c :: 0x2A :: 0x5D :: v) := by
      refine ⟨fun _ h => ?_, fun h => ?_, fun h => ?_⟩
      · obtain ⟨d, n, rest, heq, hstar, hbracket, -⟩ := h
        obtain rfl : c = d := (List.cons.inj (List.cons.inj heq).2).1
        exact hc.elim hstar hbracket
      · obtain ⟨name, rest, -, heq⟩ := h
        obtain rfl : c = 0x3A := (List.cons.inj (List.cons.inj heq).2).1
        exact absurd hc (by decide)
      · obtain ⟨body, rest, heq⟩ := h
        obtain rfl : c = 0x3D := (List.cons.inj (List.cons.inj heq).2).1
        exact absurd hc (by decide)
    have hturn := expandTurn_literal (fun d rest heq =>
      absurd (List.cons.inj heq).1 (hplain c List.mem_cons_self).2) hno hlen
    have htake : (Element.literal 0x5B).bytes.take (MAX_STRING - out.length) = [0x5B] :=
      List.take_of_length_le (show 1 ≤ MAX_STRING - out.length by omega)
    rw [htake] at hturn
    rw [expandLoop_cons (List.cons_ne_nil _ _) hturn, expandLoop_rest hplain (by simpa using hlen), List.append_assoc]
    simp only [List.length_append, List.length_cons, List.length_nil, List.singleton_append]
    exact if_congr (by omega) rfl rfl
  · rw [expandLoop_full (List.cons_ne_nil _ _) (by omega), if_neg (by omega)]

theorem PadOperand.expandString_eq (p : PadOperand) :
    expandString p.string true =
      if p.c ≠ '*' ∧ p.c ≠ ']' then
        if p.u.length + 3 + p.v.length ≤ MAX_STRING then some (p.u ++ 0xFF :: 0xFE :: p.c :: p.v) else none
      else if p.u.length + 4 + p.v.length ≤ MAX_STRING then some p.string.bytes else none := by
  have hu := fun b hb => (p.plain b (List.mem_append_left _ hb)).2
  have hv := fun b hb => (p.plain b (List.mem_append_right _ hb)).2
  have hbegin : expandString p.string true =
      if p.u.length ≤ MAX_STRING then expandLoop true (0x5B :: p.c :: 0x2A :: 0x5D :: p.v) p.u else none := by
    have hhead : (0x5B :: p.c :: 0x2A :: 0x5D :: p.v).head? ≠ some 0x2D := fun h => absurd (Option.some.inj h) (by decide)
    have hloop := expandLoop_literals hu hhead (show ([] : List Byte).length ≤ MAX_STRING from Nat.zero_le _)
    rw [List.nil_append, List.length_nil, Nat.zero_add] at hloop
    exact hloop
  rw [hbegin]
  by_cases hroom : p.u.length ≤ MAX_STRING
  · rw [if_pos hroom]
    split_ifs with hc hfits hfits
    · rw [expandLoop_request hc hv hroom, if_pos hfits]
    · rw [expandLoop_request hc hv hroom, if_neg hfits]
    · rw [expandLoop_noRequest (by tauto) hv hroom, if_pos hfits]
      rfl
    · rw [expandLoop_noRequest (by tauto) hv hroom, if_neg hfits]
  · rw [if_neg hroom]
    split_ifs
    · omega
    · rfl
    · omega
    · rfl

/-! ## What the request comes to -/

section Comes
variable {u v : List Byte} {c : Byte} {k len1 : ℕ}

/-- When the bytes come out as they should, none before the request were taken for a marker. -/
theorem before_of_eq {text : List Byte} (htext : text = [0xFF, 0xFE, c] ∨ text.length = 4) (hroom : u.length < MAX_STRING)
    (hk : u.length + k + v.length = max len1 (u.length + v.length))
    (h : resolveString2Padding (u ++ (text ++ v)) len1 = some (u ++ (List.replicate k c ++ v))) : ¬[0xFF, 0xFE] <:+: u := by
  rintro ⟨x, y, rfl⟩
  obtain ⟨a, t, heq, hno⟩ := exists_first_pair (x := (0xFF : Byte)) (y := (0xFE : Byte)) x y
  have hu : x ++ [0xFF, 0xFE] ++ y = a ++ 0xFF :: 0xFE :: t := by rw [← heq, List.append_assoc]; rfl
  have hsize : text.length = 3 ∨ text.length = 4 := htext.imp_left fun h => congrArg List.length h
  obtain ⟨c', b, hb⟩ := List.exists_cons_of_length_pos (l := t ++ (text ++ v)) (by simp only [List.length_append]; omega)
  have hblength := congrArg List.length hb
  rw [hu] at h hk hroom
  simp only [List.length_append, List.length_cons] at hblength hk hroom
  have hbuffer : (a ++ 0xFF :: 0xFE :: t) ++ (text ++ v) = a ++ 0xFF :: 0xFE :: c' :: b := by
    rw [List.append_assoc, List.cons_append, List.cons_append, hb]
  rw [hbuffer] at h
  obtain ⟨r, -, -, -, w, m, hout, hm⟩ := exists_of_marker hno (by omega) h
  rw [List.append_assoc, List.append_assoc] at hout
  have hout := List.append_cancel_left hout
  have hone := not_marker_of_replicate hout.symm
  have hlength := congrArg List.length hout
  simp only [List.cons_append, List.length_append, List.length_cons, List.length_replicate] at hlength
  have hstrip := eq_strip_of_le hno (by omega) (show len1 ≤ a.length by omega) h
  rw [List.append_assoc] at hstrip
  have hstrip := List.append_cancel_left hstrip
  obtain rfl : k = 0 := by omega
  have hall : strip b = b := (strip_sublist b).eq_of_length (by rw [← hstrip]; simp; omega)
  have hno := not_hasMarker_of_strip hall
  obtain rfl | hfour := htext
  · cases t with
    | nil =>
      obtain ⟨-, rfl⟩ := List.cons.inj hb
      rw [hall] at hstrip
      exact absurd (List.cons.inj hstrip).1 (by decide)
    | cons d t =>
      obtain ⟨-, rfl⟩ := List.cons.inj hb
      exact hno ⟨t, c, v, rfl⟩
  · omega

/-- Nothing that is filled is in the place of `v`. -/
theorem le_of_eq (hno : ¬[0xFF, 0xFE] <:+: u) (hroom : u.length < MAX_STRING) (hv : v ≠ [])
    (hk : u.length + k + v.length = max len1 (u.length + v.length))
    (h : resolveString2Padding (u ++ 0xFF :: 0xFE :: c :: v) len1 = some (u ++ (List.replicate k c ++ v))) :
    len1 ≤ u.length := by
  by_contra hlt
  have hpos := List.length_pos_iff.mpr hv
  obtain ⟨r, hr, hmap, hsize, w, m, hout, hm⟩ := exists_of_marker hno hroom h
  simp only [List.length_append, List.length_replicate] at hsize
  rw [List.append_assoc] at hout
  have hout := List.append_cancel_left hout
  -- `v` begins with the copies that it does not get
  have hsplit : len1 - u.length = k + (len1 - u.length - k) := by omega
  rw [hsplit, List.replicate_add, List.append_assoc] at hout
  have hv' := List.append_cancel_left hout
  have hlength := congrArg List.length hv'
  rw [List.length_append, List.length_replicate] at hlength
  by_cases hk0 : k = 0
  · subst hk0
    by_cases hone : m = 1
    · -- three bytes are filled: `v` is read where it stands
      have hstrip := resolveLoop_strip (l := v) (by omega) (by omega) rfl (fun i hi => filled_after c hi (by omega)) hr
      rw [map_filled, ← hmap, List.append_assoc] at hstrip
      have hcopies := List.append_cancel_left hstrip
      rw [show len1 - u.length = 3 by omega] at hcopies
      have hFF := congrArg (List.count 0xFF) hcopies
      have hFE := congrArg (List.count 0xFE) hcopies
      simp only [List.replicate_zero, List.nil_append, List.count_append, List.count_replicate] at hFF hFE
      obtain hall | ⟨hltFF, hltFE⟩ := strip_count v
      · have hwhole := congrArg List.length hcopies
        rw [hall, List.length_append, List.length_append, List.length_replicate, List.length_replicate] at hwhole
        omega
      · split_ifs at hFF hFE with hcFF hcFE
        · exact absurd ((eq_of_beq hcFF).symm.trans (eq_of_beq hcFE)) (by decide)
        · omega
        · omega
        · omega
    · have hsame := resolveLoop_same (c := c) False (by omega) (by omega) (by omega) (.inr (by omega))
        (fun i hi _ hin => if_pos ⟨by omega, hin.resolve_left id⟩) hr
      omega
  · obtain rfl : w = [] := List.length_eq_zero_iff.mp (by omega)
    rw [List.append_nil] at hv'
    have hall : ∀ b ∈ v, b = c := by
      intro b hb
      rw [hv'] at hb
      exact List.eq_of_mem_replicate hb
    have hread : ∀ i, u.length + 3 ≤ i → i < u.length + 3 + v.length → filled u v c len1 i = c := by
      intro i hi hi2
      by_cases hin : i < len1
      · exact if_pos ⟨by omega, by omega⟩
      · obtain ⟨j, rfl⟩ := Nat.exists_eq_add_of_le hi
        rw [filled_after c (by omega) (not_lt.mp hin)]
        exact hall _ (List.getElem_mem _)
    have hsame := resolveLoop_same True (by omega) (by omega) (by omega) (.inl trivial)
      (fun i hi hi2 _ => hread i hi hi2) hr
    omega

end Comes

theorem PadOperand.padded_of_served {p : PadOperand} {len1 : ℕ} (h : p.Served len1) : p.Padded len1 := by
  have hroom : p.u.length < MAX_STRING := by have := h.fits; omega
  have hexpand := p.expandString_eq
  rw [if_pos h.read, if_pos h.fits] at hexpand
  refine ⟨len1 - (p.u.length + p.v.length), by omega, ?_⟩
  rw [hexpand, Option.bind_some]
  obtain hv | ⟨hlen1, hmarker⟩ := h.after
  · rw [hv, resolveString2Padding_first h.before hroom, if_neg (not_le.mpr h.room), List.length_nil, Nat.add_zero,
      resolveLoop_stop (le_refl _), Option.map_some, map_filled, Nat.add_zero, List.append_nil]
  · have hsome : ∃ out, resolveString2Padding (p.u ++ 0xFF :: 0xFE :: p.c :: p.v) len1 = some out := by
      have hfits := h.fits
      have hrun : ∃ r, resolveLoop len1 (p.u.length + 3 + p.v.length) (filled p.u p.v p.c len1) (p.u.length + 3)
          (p.u.length + (len1 - p.u.length)) = some r := exists_resolveLoop (by omega) (by omega)
      obtain ⟨r, hr⟩ := hrun
      rw [resolveString2Padding_first h.before hroom, if_neg (not_le.mpr h.room), hr]
      exact ⟨_, rfl⟩
    obtain ⟨out, hout⟩ := hsome
    rw [hout, eq_strip_of_le h.before hroom hlen1 hout, strip_eq_self hmarker, Nat.sub_eq_zero_of_le (by omega)]
    rfl

theorem PadOperand.served_of_padded {p : PadOperand} {len1 : ℕ} (h : p.Padded len1) : p.Served len1 := by
  obtain ⟨k, hk, h⟩ := h
  rw [p.expandString_eq] at h
  split_ifs at h with hc hfits hfits
  · rw [Option.bind_some] at h
    have hroom : p.u.length < MAX_STRING := by omega
    have hbefore := before_of_eq (.inl rfl) hroom hk h
    have hlength := length_lt_of_eq h
    simp only [List.length_append, List.length_replicate] at hlength
    refine ⟨hc, hfits, by omega, hbefore, or_iff_not_imp_left.mpr fun hv => ?_⟩
    have hlen1 := le_of_eq hbefore hroom hv hk h
    have hstrip := eq_strip_of_le hbefore hroom hlen1 h
    obtain rfl : k = 0 := by omega
    exact ⟨hlen1, not_hasMarker_of_strip (List.append_cancel_left hstrip).symm⟩
  · cases h
  · exfalso
    have hstar : p.c = '*' ∨ p.c = ']' := by tauto
    have hroom : p.u.length + 1 < MAX_STRING := by omega
    rw [Option.bind_some] at h
    have hbefore := before_of_eq (.inr (show [0x5B, p.c, 0x2A, 0x5D].length = 4 from rfl)) (by omega) hk h
    -- so the bracket comes out after `u`
    have hno : ¬[0xFF, 0xFE] <:+: p.u ++ [0x5B] := by
      rw [List.infix_concat_iff]
      rintro (⟨t, ht⟩ | hinfix)
      · have hlast := congrArg List.getLast? ht
        simp at hlast
      · exact hbefore hinfix
    have hhead : (p.c :: 0x2A :: 0x5D :: p.v).head? ≠ some 0xFE := by
      intro heq
      rw [Option.some.inj heq] at hstar
      exact absurd hstar (by decide)
    obtain ⟨r, hr, hmap⟩ := Option.map_eq_some_iff.mp h
    have htext : p.string.bytes = (p.u ++ [0x5B]) ++ p.c :: 0x2A :: 0x5D :: p.v := by simp [PadOperand.string]
    rw [htext, resolveLoop_front hno hhead (by simpa using hroom) len1 (Nat.zero_le _)] at hr
    have hframe := resolveLoop_frame hr
    rw [List.length_append, List.length_singleton] at hframe
    have hat := congrArg (·[p.u.length]?) hmap
    have hget : r.1 p.u.length = 0x5B := by
      rw [hframe.2.2 _ (Nat.lt_succ_self _)]
      simp
    simp only [List.getElem?_map, List.getElem?_range (show p.u.length < r.2 by omega), Option.map_some, hget,
      List.getElem?_append_right (le_refl p.u.length), Nat.sub_self] at hat
    cases k with
    | zero =>
      rw [List.replicate_zero, List.nil_append] at hat
      exact (p.plain 0x5B (List.mem_append_right _ (List.mem_of_getElem? hat.symm))).2.1 rfl
    | succ k =>
      rw [List.replicate_succ, List.cons_append, List.getElem?_cons_zero] at hat
      rw [← Option.some.inj hat] at hstar
      exact absurd hstar (by decide)
  · cases h

/-- The request pads just when it comes last, or is for nothing, and nothing else looks like one; without a request the
buffer stays as it is just when nothing in it looks like one. -/
theorem padding_iff (p : PadOperand) (set2 : List Byte) (len1 : ℕ) :
    (p.Padded len1 ↔ p.Served len1) ∧
      (resolveString2Padding set2 len1 = some set2 ↔ ¬HasMarker set2 ∧ set2.length < MAX_STRING) :=
  ⟨⟨PadOperand.served_of_padded, PadOperand.padded_of_served⟩, resolveString2Padding_eq_self_iff set2 len1⟩

/-- `tr abc '[x*]b'`, and the bytes `\377\376x` in STRING2. -/
theorem not_padding : (¬∀ (p : PadOperand) (len1 : ℕ), p.Padded len1) ∧
    ¬∀ (set2 : List Byte) (len1 : ℕ), resolveString2Padding set2 len1 = some set2 := by
  constructor
  · intro h
    have hplain : ∀ b : Byte, b ∈ ([] : List Byte) ++ [0x62] → b ≠ 0 ∧ b ≠ '[' ∧ b ≠ '-' := by
      intro b hb
      rw [List.mem_singleton.mp hb]
      decide
    have hserved := PadOperand.served_of_padded (h ⟨[], 0x78, [0x62], hplain, by decide⟩ 3)
    exact hserved.after.elim (List.cons_ne_nil _ _) fun hafter => absurd hafter.1 (Nat.not_succ_le_zero 2)
  · intro h
    exact ((resolveString2Padding_eq_self_iff _ _).mp (h [0xFF, 0xFE, 0x78] 0)).1 ⟨[], 0x78, [], rfl⟩

end ValidcTools.Tr
