import ValidcTools.Bre.Search

/-! `bre_substitute`: two passes over the replacement, the first for the size of the buffer and the second to fill it. -/
namespace ValidcTools.Bre

/-- The first pass: `rep_len` -/
def repLength (m : BreMatch) : List Byte → ℕ
  | [] => 0
  | [_] => 1
  | r :: d :: rest =>
    if r = '\\' ∧ '1' ≤ d ∧ d ≤ '9' then
      match m.groups[(d - '1').toNat]? with
      | some g => if 0 ≤ g.start then g.length.toNat + repLength m rest else repLength m rest
      | none => repLength m rest
    else 1 + repLength m (d :: rest)

/-- `bre_substitute` with its buffer of `out_len` bytes and a NUL: it is a string when the bytes written, all that goes
before the NUL, are `out_len`. -/
def breSubstituteSized (text pattern replacement : CString) : Substitution :=
  match breMatch text pattern with
  | .stop .error => .null
  | .stop _ => .undefined
  | .noMatch => .string text
  | .ok m =>
    if m.start < 0 then .string text
    else
      let suffixStart := m.start + m.length
      let suffixLen := text.length - suffixStart
      let outLen := m.start + repLength m replacement.bytes + suffixLen
      match copyBytes text 0 m.start, expandReplacement text m replacement.bytes, copyBytes text suffixStart suffixLen with
      | some pre, some mid, some suf =>
        if ((pre ++ mid ++ suf).length : ℤ) = outLen then .string (.ofBytes (pre ++ mid ++ suf)) else .undefined
      | _, _, _ => .undefined

/-! ## What it is for -/

/-- The spans of a match lie in the text. -/
structure InRange (text : CString) (m : BreMatch) : Prop where
  start : 0 ≤ m.start
  length : 0 ≤ m.length
  stop : m.start + m.length ≤ text.length
  groups : ∀ g ∈ m.groups, 0 ≤ g.start → 0 ≤ g.length ∧ g.start + g.length ≤ text.length

/-- The text of group `k + 1`, which is empty if the group is absent -/
def groupText (text : CString) (m : BreMatch) (k : ℕ) : List Byte :=
  match m.groups[k]? with
  | some g => if 0 ≤ g.start then text.slice g.start.toNat (g.start + g.length).toNat else []
  | none => []

/-- A reference `\1` to `\9` begins the text. -/
def BeginsReference (l : List Byte) : Prop :=
  ∃ (d : Byte) (rest : List Byte), l = (('\\' : Char) : Byte) :: d :: rest ∧ '1' ≤ d ∧ d ≤ '9'

/-- The replacement with each reference replaced by the text of its group and everything else copied -/
inductive Expansion (group : ℕ → List Byte) : List Byte → List Byte → Prop
  | nil : Expansion group [] []
  | reference {d : Byte} {rest out : List Byte} (hlo : '1' ≤ d) (hhi : d ≤ '9') (h : Expansion group rest out) :
    Expansion group ('\\' :: d :: rest) (group (d - '1').toNat ++ out)
  | copied {c : Byte} {rest out : List Byte} (hno : ¬BeginsReference (c :: rest)) (h : Expansion group rest out) :
    Expansion group (c :: rest) (c :: out)

section
variable {text : CString} {m : BreMatch}

theorem beginsReference_cons_iff {r d : Byte} {rest : List Byte} :
    BeginsReference (r :: d :: rest) ↔ r = '\\' ∧ '1' ≤ d ∧ d ≤ '9' := by
  constructor
  · rintro ⟨d', rest', heq, hlo, hhi⟩
    obtain ⟨rfl, rfl, -⟩ : r = '\\' ∧ d = d' ∧ rest = rest' := by simpa using heq
    exact ⟨rfl, hlo, hhi⟩
  · rintro ⟨rfl, hlo, hhi⟩
    exact ⟨d, rest, rfl, hlo, hhi⟩

theorem not_beginsReference_singleton (r : Byte) : ¬BeginsReference [r] := by
  rintro ⟨d, rest, heq, -⟩
  cases heq

theorem copyBytes_eq {i n : ℤ} (hi : 0 ≤ i) (hn : 0 ≤ n) (h : i + n ≤ text.length) :
    copyBytes text i n = some (text.slice i.toNat (i + n).toNat) := if_pos ⟨hi, hn, h⟩

theorem length_slice_toNat {i n : ℤ} (hi : 0 ≤ i) (hn : 0 ≤ n) (h : i + n ≤ text.length) :
    (text.slice i.toNat (i + n).toNat).length = n.toNat := by
  rw [CString.length_slice (by omega)]
  omega

/-- Both passes make the same turns. -/
theorem expandReplacement_of_inRange (hin : InRange text m) (l : List Byte) :
    ∃ out, Expansion (groupText text m) l out ∧ expandReplacement text m l = some out ∧ repLength m l = out.length := by
  fun_induction repLength m l with
  | case1 => exact ⟨[], .nil, rfl, rfl⟩
  | case2 r => exact ⟨[r], .copied (not_beginsReference_singleton r) .nil, rfl, rfl⟩
  | case3 r d rest href g hg hstart ih =>
    obtain ⟨out, hexp, hwrite, hlength⟩ := ih
    obtain ⟨hpos, hle⟩ := hin.groups g (List.mem_of_getElem? hg) hstart
    refine ⟨groupText text m (d - '1').toNat ++ out, ?_, ?_, ?_⟩
    · obtain ⟨rfl, hlo, hhi⟩ := href
      exact .reference hlo hhi hexp
    · rw [expandReplacement, if_pos href, hg]
      simp only [groupText, hg, if_pos hstart, copyBytes_eq hstart hpos hle, hwrite]
      rfl
    · rw [List.length_append, hlength]
      simp only [groupText, hg, if_pos hstart, length_slice_toNat hstart hpos hle]
  | case4 r d rest href g hg hstart ih =>
    obtain ⟨out, hexp, hwrite, hlength⟩ := ih
    have hgroup : groupText text m (d - '1').toNat = [] := by simp only [groupText, hg, if_neg hstart]
    refine ⟨out, ?_, ?_, hlength⟩
    · obtain ⟨rfl, hlo, hhi⟩ := href
      have h := Expansion.reference hlo hhi hexp
      rwa [hgroup] at h
    · rw [expandReplacement, if_pos href, hg]
      simp only [if_neg hstart, hwrite]
  | case5 r d rest href hg ih =>
    obtain ⟨out, hexp, hwrite, hlength⟩ := ih
    have hgroup : groupText text m (d - '1').toNat = [] := by simp only [groupText, hg]
    refine ⟨out, ?_, ?_, hlength⟩
    · obtain ⟨rfl, hlo, hhi⟩ := href
      have h := Expansion.reference hlo hhi hexp
      rwa [hgroup] at h
    · rw [expandReplacement, if_pos href, hg, hwrite]
  | case6 r d rest href ih =>
    obtain ⟨out, hexp, hwrite, hlength⟩ := ih
    refine ⟨r :: out, .copied (fun h => href (beginsReference_cons_iff.mp h)) hexp, ?_, ?_⟩
    · rw [expandReplacement, if_neg href, hwrite]
      rfl
    · rw [hlength, List.length_cons, Nat.add_comm]

theorem zero_notMem_slice (text : CString) (i j : ℕ) : (0 : Byte) ∉ text.slice i j := fun h =>
  text.nulFree (List.mem_of_mem_take (List.mem_of_mem_drop h))

theorem zero_notMem_copyBytes {i n : ℤ} {l : List Byte} (h : copyBytes text i n = some l) : (0 : Byte) ∉ l := by
  unfold copyBytes at h
  split_ifs at h
  rw [← Option.some.inj h]
  exact zero_notMem_slice text _ _

theorem zero_notMem_expandReplacement {m : BreMatch} {l new : List Byte} (hl : (0 : Byte) ∉ l)
    (h : expandReplacement text m l = some new) : (0 : Byte) ∉ new := by
  fun_induction expandReplacement text m l generalizing new with
  | case1 =>
    rw [← Option.some.inj h]
    exact List.not_mem_nil
  | case2 r =>
    rw [← Option.some.inj h]
    exact hl
  | case3 r d rest hesc g hg hset ih =>
    obtain ⟨span, hspan, h⟩ := Option.bind_eq_some_iff.mp h
    obtain ⟨tail, htail, h⟩ := Option.bind_eq_some_iff.mp h
    rw [← Option.some.inj h]
    exact List.not_mem_append (zero_notMem_copyBytes hspan) (ih (fun h0 => hl (by simp [h0])) htail)
  | case4 r d rest hesc g hg hset ih => exact ih (fun h0 => hl (by simp [h0])) h
  | case5 r d rest hesc hg ih => exact ih (fun h0 => hl (by simp [h0])) h
  | case6 r d rest hesc ih =>
    obtain ⟨tail, htail, rfl⟩ := Option.map_eq_some_iff.mp h
    rw [List.mem_cons, not_or] at hl ⊢
    exact ⟨hl.1, ih hl.2 htail⟩

/-- The string is the text before the match, the expansion of the replacement and the text behind the match. -/
theorem breSubstituteSized_of_inRange {text pattern replacement : CString} {m : BreMatch}
    (hm : breMatch text pattern = .ok m) (hin : InRange text m) {out : List Byte}
    (hwrite : expandReplacement text m replacement.bytes = some out) (hlength : repLength m replacement.bytes = out.length) :
    ∃ s, breSubstituteSized text pattern replacement = .string s ∧
      s.bytes = text.slice 0 m.start.toNat ++ out ++ text.slice (m.start + m.length).toNat text.length := by
  have hstart := hin.start
  have hmlength := hin.length
  have hstop := hin.stop
  have hpre : copyBytes text 0 m.start = some (text.slice 0 m.start.toNat) := by
    rw [copyBytes_eq le_rfl hstart (by omega), zero_add, Int.toNat_zero]
  have hsuf : copyBytes text (m.start + m.length) (text.length - (m.start + m.length)) =
      some (text.slice (m.start + m.length).toNat text.length) := by
    rw [copyBytes_eq (by omega) (by omega) (by omega), add_sub_cancel, Int.toNat_natCast]
  have hnul : (0 : Byte) ∉ text.slice 0 m.start.toNat ++ out ++ text.slice (m.start + m.length).toNat text.length :=
    List.not_mem_append (List.not_mem_append (zero_notMem_slice text _ _)
      (zero_notMem_expandReplacement replacement.nulFree hwrite)) (zero_notMem_slice text _ _)
  have hsize : ((text.slice 0 m.start.toNat ++ out ++ text.slice (m.start + m.length).toNat text.length).length : ℤ) =
      m.start + repLength m replacement.bytes + (text.length - (m.start + m.length)) := by
    rw [List.length_append, List.length_append, CString.length_slice (by omega), CString.length_slice le_rfl, hlength]
    omega
  refine ⟨_, ?_, CString.ofBytes_bytes_of_nulFree hnul⟩
  unfold breSubstituteSized
  rw [hm]
  dsimp only
  rw [if_neg (not_lt.mpr hstart), hpre, hwrite, hsuf]
  dsimp only
  rw [if_pos hsize]

end

/-- Where the spans lie in the text, the passes stay in step, and the result is the text with the match replaced; without a
match it is the text. -/
theorem breSubstitute_exact (text pattern replacement : CString) :
    (∀ m, breMatch text pattern = .ok m → InRange text m → ∃ out s,
      Expansion (groupText text m) replacement.bytes out ∧ expandReplacement text m replacement.bytes = some out ∧
        repLength m replacement.bytes = out.length ∧ breSubstituteSized text pattern replacement = .string s ∧
        s.bytes = text.slice 0 m.start.toNat ++ out ++ text.slice (m.start + m.length).toNat text.length) ∧
      (breMatch text pattern = .noMatch → breSubstituteSized text pattern replacement = .string text) := by
  constructor
  · intro m hm hin
    obtain ⟨out, hexp, hwrite, hlength⟩ := expandReplacement_of_inRange hin replacement.bytes
    obtain ⟨s, hs, hbytes⟩ := breSubstituteSized_of_inRange hm hin hwrite hlength
    exact ⟨out, s, hexp, hwrite, hlength, hs, hbytes⟩
  · intro hno
    unfold breSubstituteSized
    rw [hno]

/-- An absent group and a backslash at the end -/
theorem breSubstitute_exact_abc : ∃ m s, breMatch (.lit "abc") (.lit "a\\(b\\)") = .ok m ∧ InRange (.lit "abc") m ∧
    breSubstituteSized (.lit "abc") (.lit "a\\(b\\)") (.lit "<\\1\\2>\\") = .string s ∧
      s.bytes = (['<', 'b', '>', '\\', 'c'] : List Char).map Char.toUInt8 := by
  have hm : breMatch (.lit "abc") (.lit "a\\(b\\)") = .ok { start := 0, length := 2, groups := [⟨1, 1⟩] } := by decide
  have hin : InRange (.lit "abc") { start := 0, length := 2, groups := [⟨1, 1⟩] } :=
    ⟨by decide, by decide, by decide, by decide⟩
  obtain ⟨out, s, -, hwrite, -, hs, hbytes⟩ := (breSubstitute_exact (.lit "abc") (.lit "a\\(b\\)") (.lit "<\\1\\2>\\")).1
    _ hm hin
  have hout : expandReplacement (.lit "abc") { start := 0, length := 2, groups := [⟨1, 1⟩] } (CString.lit "<\\1\\2>\\").bytes =
      some ((['<', 'b', '>', '\\'] : List Char).map Char.toUInt8) := by decide
  obtain rfl := Option.some.inj (hwrite.symm.trans hout)
  exact ⟨_, s, hm, hin, hs, hbytes⟩

end ValidcTools.Bre
