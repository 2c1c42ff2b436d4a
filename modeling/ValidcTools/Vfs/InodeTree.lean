import ValidcTools.Vfs.Inodes
import ValidcTools.Lib.ParentLinks

/-! The inode table as a tree: what the calls of the VFS keep of it, and when. -/
namespace ValidcTools.Vfs

open KeyedList ParentLinks

variable {l : List Inode} {k : ℕ}

/-! ## Trees -/

/-- The number of the parent of an inode -/
def parentOf (l : List Inode) (k : ℕ) : Option ℕ := (find Inode.inode l k).map Inode.parent_inode

/-- The number of children of an inode -/
def children (l : List Inode) (k : ℕ) : ℕ := l.countP fun n => decide (n.parent_inode = k)

/-- The inode table is a tree below the inode 1. -/
structure IsTree (l : List Inode) : Prop where
  unique : Distinct Inode.inode l
  parents : ∀ n ∈ l, n.inode ≠ 1 → ∃ p ∈ l, p.inode = n.parent_inode ∧ p.type = VFS_TYPE_DIR
  reaches : ∀ n ∈ l, Reaches (parentOf l) 1 n.inode
  names : ∀ n ∈ l, ∀ m ∈ l, n.parent_inode = m.parent_inode → n.name = m.name → n = m
  counts : ∀ n ∈ l, n.child_count = children l n.inode

/-- Free blocks are counted, and no block belongs to two files. -/
structure BlocksOwned (fs : FileSystem) : Prop where
  free : fs.free_blocks = fs.block_map.count 0
  disjoint : ∀ n ∈ fs.inodes, ∀ m ∈ fs.inodes, n.type = VFS_TYPE_FILE → m.type = VFS_TYPE_FILE →
    n.block_index = m.block_index → n.inode = m.inode

/-- What the calls rely on besides: the root stands first, and names end within their arrays. -/
structure TreeInv (l : List Inode) : Prop extends IsTree l where
  root : ∃ r, l[0]? = some r ∧ r.inode = 1 ∧ r.parent_inode = 0 ∧ r.type = VFS_TYPE_DIR
  positive : ∀ n ∈ l, 0 < n.inode
  terminated : ∀ n ∈ l, n.name.length < VFS_MAX_NAME
  short : l.length < 2 ^ 32

/-- The entry of a file in the block map is its number. -/
structure BlocksInv (fs : FileSystem) : Prop extends BlocksOwned fs where
  mapped : ∀ n ∈ fs.inodes, n.type = VFS_TYPE_FILE → fs.block_map[n.block_index]? = some n.inode
  total : fs.block_map.length = VFS_TOTAL_BLOCKS

/-- The blocks of the files that were there before -/
theorem BlocksInv.of_files {fs fs' : FileSystem} (h : BlocksInv fs) (hfree : fs'.free_blocks = fs.free_blocks)
    (hmap : fs'.block_map = fs.block_map) (hfiles : ∀ n ∈ fs'.inodes, n.type = VFS_TYPE_FILE →
      ∃ m ∈ fs.inodes, m.type = VFS_TYPE_FILE ∧ m.inode = n.inode ∧ m.block_index = n.block_index) : BlocksInv fs' := by
  refine { free := by rw [hfree, hmap, h.free], disjoint := ?_, mapped := ?_, total := by rw [hmap, h.total] }
  · intro n hn m hm hnfile hmfile hblock
    obtain ⟨n', hn', hnfile', hni, hnb⟩ := hfiles n hn hnfile
    obtain ⟨m', hm', hmfile', hmi, hmb⟩ := hfiles m hm hmfile
    have := h.disjoint n' hn' m' hm' hnfile' hmfile' (by rw [hnb, hmb, hblock])
    rwa [hni, hmi] at this
  · intro n hn hnfile
    obtain ⟨m, hm, hmfile, hmi, hmb⟩ := hfiles n hn hnfile
    rw [hmap, ← hmb, ← hmi]
    exact h.mapped m hm hmfile

theorem parentOf_eq (h : Distinct Inode.inode l) {n : Inode} (hn : n ∈ l) : parentOf l n.inode = some n.parent_inode := by
  rw [parentOf, (find_eq_some_iff h).mpr ⟨hn, rfl⟩, Option.map_some]

theorem exists_of_parentOf {p : ℕ} (h : parentOf l k = some p) : ∃ n ∈ l, n.inode = k ∧ n.parent_inode = p := by
  obtain ⟨n, hn, hp⟩ := Option.map_eq_some_iff.mp h
  obtain ⟨hmem, hk⟩ := find_eq_some hn
  exact ⟨n, hmem, hk, hp⟩

/-- A number that no inode has is nobody's parent. -/
theorem TreeInv.parent_ne (h : TreeInv l) (hk : ∀ n ∈ l, n.inode ≠ k) (hpos : 0 < k) {n : Inode} (hn : n ∈ l) :
    n.parent_inode ≠ k := by
  by_cases hroot : n.inode = 1
  · obtain ⟨r, hr, hr1, hr0, -⟩ := h.root
    obtain rfl := List.inj_on_of_nodup_map h.unique hn (List.mem_of_getElem? hr) (hroot.trans hr1.symm)
    omega
  · obtain ⟨p, hp, hpn, -⟩ := h.parents n hn hroot
    exact hpn ▸ hk p hp

theorem children_eq_zero_iff : children l k = 0 ↔ ∀ n ∈ l, n.parent_inode ≠ k := by
  rw [children, List.countP_eq_zero]
  simp

theorem children_le : children l k ≤ l.length := List.countP_le_length

/-- A change that leaves the numbers, the links and the names of the inodes as they are -/
def KeepsLinks (g : Inode → Inode) : Prop :=
  ∀ n, (g n).inode = n.inode ∧ (g n).parent_inode = n.parent_inode ∧ (g n).name = n.name ∧ (g n).type = n.type ∧
    (g n).block_index = n.block_index

section
variable {g : Inode → Inode} (hg : KeepsLinks g)
include hg

theorem KeepsLinks.parentOf (k : ℕ) : Vfs.parentOf (l.map g) k = Vfs.parentOf l k := by
  rw [Vfs.parentOf, find_map fun n => (hg n).1, Option.map_map, Vfs.parentOf]
  congr 1
  exact funext fun n => (hg n).2.1

theorem KeepsLinks.children (k : ℕ) : Vfs.children (l.map g) k = Vfs.children l k := by
  rw [Vfs.children, List.countP_map, Vfs.children]
  congr 1
  exact funext fun n => by rw [Function.comp_apply, (hg n).2.1]

end

/-! ## A new inode -/

/-- The parent of a new inode has one more child. -/
def countChild (d n : Inode) : Inode := if n.inode = d.inode then { n with child_count := word (n.child_count + 1) } else n

theorem keepsLinks_countChild (d : Inode) : KeepsLinks (countChild d) := by
  intro n
  unfold countChild
  split_ifs <;> exact ⟨rfl, rfl, rfl, rfl, rfl⟩

theorem addChild_eq (h : Distinct Inode.inode l) {p : ℕ} {d c : Inode} (hd : l[p]? = some d)
    (hc : ∀ n ∈ l, n.inode ≠ c.inode) : addChild l p c = l.map (countChild d) ++ [c] := by
  have hd' : (l ++ [c])[p]? = some d := by
    rw [List.getElem?_append_left (List.getElem?_eq_some_iff.mp hd).1, hd]
  rw [addChild, (h.push hc).modify_eq_map hd', List.map_append, List.map_singleton,
    if_neg (hc d (List.mem_of_getElem? hd)).symm]
  rfl

section
variable {p : ℕ} {d c : Inode}

theorem children_addChild (h : TreeInv l) (hd : l[p]? = some d) (hfresh : ∀ n ∈ l, n.inode ≠ c.inode)
    (hparent : c.parent_inode = d.inode) (k : ℕ) :
    children (addChild l p c) k = children l k + if d.inode = k then 1 else 0 := by
  have hkeep : (l.map (countChild d)).countP (fun n => decide (n.parent_inode = k)) = children l k :=
    (keepsLinks_countChild d).children k
  rw [addChild_eq h.unique hd hfresh, children, List.countP_append, List.countP_singleton, hparent, hkeep]
  simp

theorem parentOf_addChild (h : TreeInv l) (hd : l[p]? = some d) (hfresh : ∀ n ∈ l, n.inode ≠ c.inode) {j : ℕ}
    (hj : j ≠ c.inode) : parentOf (addChild l p c) j = parentOf l j := by
  have hnone : find Inode.inode (l.map (countChild d)) c.inode = none := by
    refine find_eq_none_iff.mpr fun m hm => ?_
    obtain ⟨n, hn, rfl⟩ := List.mem_map.mp hm
    rw [(keepsLinks_countChild d n).1]
    exact hfresh n hn
  rw [addChild_eq h.unique hd hfresh, parentOf, find_push hnone, if_neg hj.symm]
  exact (keepsLinks_countChild d).parentOf j

theorem TreeInv.addChild (h : TreeInv l) (hd : l[p]? = some d) (hdir : d.type = VFS_TYPE_DIR)
    (hfresh : ∀ n ∈ l, n.inode ≠ c.inode) (hpos : 0 < c.inode) (hparent : c.parent_inode = d.inode)
    (hcount : c.child_count = 0) (hname : ∀ n ∈ l, n.parent_inode = d.inode → n.name ≠ c.name)
    (hterm : c.name.length < VFS_MAX_NAME) (hshort : l.length + 1 < 2 ^ 32) : TreeInv (addChild l p c) := by
  have hd' := List.mem_of_getElem? hd
  have heq := addChild_eq h.unique hd hfresh
  have hkeep := keepsLinks_countChild d
  have hunique : Distinct Inode.inode (Vfs.addChild l p c) := by
    rw [heq]
    refine ((Distinct.of_map fun n => (hkeep n).1).mpr h.unique).push fun m hm => ?_
    obtain ⟨n, hn, rfl⟩ := List.mem_map.mp hm
    rw [(hkeep n).1]
    exact hfresh n hn
  have hmem (n : Inode) : n ∈ Vfs.addChild l p c ↔ (∃ m ∈ l, countChild d m = n) ∨ n = c := by
    rw [heq, List.mem_append, List.mem_map, List.mem_singleton]
  have hold (m : Inode) (hm : m ∈ l) : countChild d m ∈ Vfs.addChild l p c := (hmem _).mpr (.inl ⟨m, hm, rfl⟩)
  have hagree (j : ℕ) (hj : j ≠ c.inode) : parentOf (Vfs.addChild l p c) j = parentOf l j := parentOf_addChild h hd hfresh hj
  have hleaf (j : ℕ) : parentOf l j ≠ some c.inode := by
    intro hj
    obtain ⟨n, hn, -, hp⟩ := exists_of_parentOf hj
    exact h.parent_ne hfresh hpos hn hp
  refine { unique := hunique, parents := ?_, reaches := ?_, names := ?_, counts := ?_, root := ?_, positive := ?_,
           terminated := ?_, short := ?_ }
  · intro n hn hne
    obtain ⟨m, hm, rfl⟩ | rfl := (hmem n).mp hn
    · obtain ⟨q, hq, hqn, hqt⟩ := h.parents m hm (by rwa [(hkeep m).1] at hne)
      exact ⟨countChild d q, hold q hq, by rw [(hkeep q).1, (hkeep m).2.1, hqn], by rw [(hkeep q).2.2.2.1, hqt]⟩
    · exact ⟨countChild d d, hold d hd', by rw [(hkeep d).1, hparent], by rw [(hkeep d).2.2.2.1, hdir]⟩
  · intro n hn
    obtain ⟨m, hm, rfl⟩ | rfl := (hmem n).mp hn
    · rw [(hkeep m).1]
      exact (h.reaches m hm).of_agree hagree hleaf (hfresh m hm)
    · exact (h.reaches d hd').of_leaf (hfresh d hd') hagree hleaf (by rw [parentOf_eq hunique hn, hparent])
  · intro n hn m hm hlink hsame
    obtain ⟨n, hn₀, rfl⟩ | rfl := (hmem n).mp hn
    · rw [(hkeep n).2.1] at hlink
      rw [(hkeep n).2.2.1] at hsame
      obtain ⟨m, hm₀, rfl⟩ | rfl := (hmem m).mp hm
      · rw [(hkeep m).2.1] at hlink
        rw [(hkeep m).2.2.1] at hsame
        rw [h.names n hn₀ m hm₀ hlink hsame]
      · exact absurd hsame (hname n hn₀ (hlink.trans hparent))
    · obtain ⟨m, hm₀, rfl⟩ | rfl := (hmem m).mp hm
      · rw [(hkeep m).2.1] at hlink
        rw [(hkeep m).2.2.1] at hsame
        exact absurd hsame.symm (hname m hm₀ (hlink.symm.trans hparent))
      · rfl
  · intro n hn
    rw [children_addChild h hd hfresh hparent]
    obtain ⟨m, hm, rfl⟩ | rfl := (hmem n).mp hn
    · have hle : children l m.inode ≤ l.length := children_le
      rw [(hkeep m).1, countChild]
      by_cases hmd : m.inode = d.inode
      · rw [if_pos hmd, if_pos hmd.symm, h.counts m hm]
        exact word_of_lt (by omega)
      · rw [if_neg hmd, if_neg (Ne.symm hmd), h.counts m hm, Nat.add_zero]
    · rw [hcount, children_eq_zero_iff.mpr fun m hm => h.parent_ne hfresh hpos hm, if_neg (hfresh d hd')]
  · obtain ⟨r, hr, hr1, hr0, hrd⟩ := h.root
    refine ⟨countChild d r, ?_, by rw [(hkeep r).1, hr1], by rw [(hkeep r).2.1, hr0], by rw [(hkeep r).2.2.2.1, hrd]⟩
    rw [heq, List.getElem?_append_left (by rw [List.length_map]; exact (List.getElem?_eq_some_iff.mp hr).1), List.getElem?_map,
      hr, Option.map_some]
  · intro n hn
    obtain ⟨m, hm, rfl⟩ | rfl := (hmem n).mp hn
    · rw [(hkeep m).1]
      exact h.positive m hm
    · exact hpos
  · intro n hn
    obtain ⟨m, hm, rfl⟩ | rfl := (hmem n).mp hn
    · rw [(hkeep m).2.2.1]
      exact h.terminated m hm
    · exact hterm
  · rw [heq, List.length_append, List.length_map, List.length_singleton]
    exact hshort

end

/-! ## An inode without children is removed -/

/-- The parent of a removed inode has one child less. -/
def uncountChild (d n : Inode) : Inode := if n.inode = d.inode then { n with child_count := pred n.child_count } else n

theorem keepsLinks_uncountChild (d : Inode) : KeepsLinks (uncountChild d) := by
  intro n
  unfold uncountChild
  split_ifs <;> exact ⟨rfl, rfl, rfl, rfl, rfl⟩

theorem modify_uncount (h : Distinct Inode.inode l) {p : ℕ} {d : Inode} (hd : l[p]? = some d) :
    l.modify p (fun n => { n with child_count := pred n.child_count }) = l.map (uncountChild d) :=
  h.modify_eq_map hd _

theorem pred_of_pos {n : ℕ} (hpos : 0 < n) (hlt : n < 2 ^ 32) : pred n = n - 1 := by
  unfold pred word
  omega

section
variable {i p : ℕ} {x d : Inode}

theorem getElem?_uncount (hx : l[i]? = some x) : (l.map (uncountChild d))[i]? = some (uncountChild d x) := by
  rw [List.getElem?_map, hx, Option.map_some]

/-- An inode with a parent in the table is not the root. -/
theorem TreeInv.ne_root (h : TreeInv l) (hx : x ∈ l) (hd : d ∈ l) (hdx : d.inode = x.parent_inode) : x.inode ≠ 1 := by
  intro hone
  obtain ⟨r, hr, hr1, hr0, -⟩ := h.root
  obtain rfl := List.inj_on_of_nodup_map h.unique hx (List.mem_of_getElem? hr) (hone.trans hr1.symm)
  have := h.positive d hd
  omega

theorem TreeInv.remove (h : TreeInv l) (hx : l[i]? = some x) (hleaf : x.child_count = 0) (hd : d ∈ l)
    (hdx : d.inode = x.parent_inode) : TreeInv ((l.map (uncountChild d)).eraseIdx i) := by
  have hx' := List.mem_of_getElem? hx
  have hkeep := keepsLinks_uncountChild d
  have hdistinct : Distinct Inode.inode (l.map (uncountChild d)) := (Distinct.of_map fun n => (hkeep n).1).mpr h.unique
  have hat := getElem?_uncount (d := d) hx
  have hmem (n : Inode) : n ∈ (l.map (uncountChild d)).eraseIdx i ↔ ∃ m ∈ l, m.inode ≠ x.inode ∧ uncountChild d m = n := by
    rw [hdistinct.eraseIdx_eq_filter hat, List.mem_filter, List.mem_map, decide_eq_true_iff, (hkeep x).1]
    constructor
    · rintro ⟨⟨m, hm, rfl⟩, hne⟩
      exact ⟨m, hm, by rwa [(hkeep m).1] at hne, rfl⟩
    · rintro ⟨m, hm, hne, rfl⟩
      exact ⟨⟨m, hm, rfl⟩, by rwa [(hkeep m).1]⟩
  have hzero : children l x.inode = 0 := (h.counts x hx').symm.trans hleaf
  have hnochild := children_eq_zero_iff.mp hzero
  have hagree (j : ℕ) (hj : j ≠ x.inode) : parentOf ((l.map (uncountChild d)).eraseIdx i) j = parentOf l j := by
    rw [parentOf, find_eraseIdx hdistinct hat, (hkeep x).1, if_neg hj.symm]
    exact hkeep.parentOf j
  have hcount (k : ℕ) : children ((l.map (uncountChild d)).eraseIdx i) k + (if d.inode = k then 1 else 0) = children l k := by
    have herase := countP_eraseIdx hat fun n => decide (n.parent_inode = k)
    have hsame : (l.map (uncountChild d)).countP (fun n => decide (n.parent_inode = k)) = children l k := hkeep.children k
    rw [hsame, (hkeep x).2.1, ← hdx] at herase
    simp only [decide_eq_true_eq] at herase
    exact herase
  refine { unique := hdistinct.eraseIdx hat, parents := ?_, reaches := ?_, names := ?_, counts := ?_, root := ?_,
           positive := ?_, terminated := ?_, short := ?_ }
  · intro n hn hne
    obtain ⟨m, hm, -, rfl⟩ := (hmem n).mp hn
    obtain ⟨q, hq, hqn, hqt⟩ := h.parents m hm (by rwa [(hkeep m).1] at hne)
    have hqx : q.inode ≠ x.inode := hqn ▸ hnochild m hm
    exact ⟨uncountChild d q, (hmem _).mpr ⟨q, hq, hqx, rfl⟩, by rw [(hkeep q).1, (hkeep m).2.1, hqn],
      by rw [(hkeep q).2.2.2.1, hqt]⟩
  · intro n hn
    obtain ⟨m, hm, hne, rfl⟩ := (hmem n).mp hn
    rw [(hkeep m).1]
    refine (h.reaches m hm).of_agree hagree (fun j hj => ?_) hne
    obtain ⟨c, hc, -, hp⟩ := exists_of_parentOf hj
    exact hnochild c hc hp
  · intro n hn m hm hlink hsame
    obtain ⟨n, hn₀, -, rfl⟩ := (hmem n).mp hn
    obtain ⟨m, hm₀, -, rfl⟩ := (hmem m).mp hm
    rw [(hkeep n).2.1, (hkeep m).2.1] at hlink
    rw [(hkeep n).2.2.1, (hkeep m).2.2.1] at hsame
    rw [h.names n hn₀ m hm₀ hlink hsame]
  · intro n hn
    obtain ⟨m, hm, hne, rfl⟩ := (hmem n).mp hn
    have hle : children l m.inode ≤ l.length := children_le
    have hshort := h.short
    have hsum := hcount m.inode
    rw [(hkeep m).1, uncountChild]
    by_cases hmd : m.inode = d.inode
    · rw [if_pos hmd.symm] at hsum
      rw [if_pos hmd]
      change pred m.child_count = _
      rw [h.counts m hm, pred_of_pos (by omega) (by omega)]
      omega
    · rw [if_neg (Ne.symm hmd)] at hsum
      rw [if_neg hmd, h.counts m hm]
      exact hsum.symm
  · obtain ⟨r, hr, hr1, hr0, hrd⟩ := h.root
    have hi : 0 < i := by
      by_contra hi
      obtain rfl : i = 0 := by omega
      obtain rfl := Option.some.inj (hr.symm.trans hx)
      exact h.ne_root hx' hd hdx hr1
    refine ⟨uncountChild d r, ?_, by rw [(hkeep r).1, hr1], by rw [(hkeep r).2.1, hr0], by rw [(hkeep r).2.2.2.1, hrd]⟩
    rw [List.getElem?_eraseIdx_of_lt hi, getElem?_uncount hr]
  · intro n hn
    obtain ⟨m, hm, -, rfl⟩ := (hmem n).mp hn
    rw [(hkeep m).1]
    exact h.positive m hm
  · intro n hn
    obtain ⟨m, hm, -, rfl⟩ := (hmem n).mp hn
    rw [(hkeep m).2.2.1]
    exact h.terminated m hm
  · exact ((List.length_eraseIdx_le ..).trans_eq (List.length_map _)).trans_lt h.short

end

/-! ## An inode is moved and renamed -/

/-- The inode gets its new name and parent. -/
def relink (x : Inode) (name : List Byte) (parent_inode now : ℕ) (n : Inode) : Inode :=
  if n.inode = x.inode then { n with name := name, parent_inode := parent_inode, mtime := now } else n

/-- What a rename makes of each inode: `d` is the old parent and `e` the new one. -/
def moveInode (x d e : Inode) (name : List Byte) (now : ℕ) (n : Inode) : Inode :=
  relink x name e.inode now (countChild e (uncountChild d n))

section
variable {i : ℕ} {x d e : Inode} {name : List Byte} {now : ℕ}

theorem moveInode_of_ne {n : Inode} (h : n.inode ≠ x.inode) :
    moveInode x d e name now n = countChild e (uncountChild d n) := by
  refine if_neg ?_
  rwa [(keepsLinks_countChild e _).1, (keepsLinks_uncountChild d n).1]

theorem moveInode_of_eq {n : Inode} (h : n.inode = x.inode) : moveInode x d e name now n =
    { countChild e (uncountChild d n) with name := name, parent_inode := e.inode, mtime := now } := by
  refine if_pos ?_
  rwa [(keepsLinks_countChild e _).1, (keepsLinks_uncountChild d n).1]

theorem keepsLinks_recount (d e : Inode) : KeepsLinks fun n => countChild e (uncountChild d n) := by
  intro n
  obtain ⟨h₁, h₂, h₃, h₄, h₅⟩ := keepsLinks_uncountChild d n
  obtain ⟨h₁', h₂', h₃', h₄', h₅'⟩ := keepsLinks_countChild e (uncountChild d n)
  exact ⟨h₁'.trans h₁, h₂'.trans h₂, h₃'.trans h₃, h₄'.trans h₄, h₅'.trans h₅⟩

/-- A move keeps the number, the type and the block of an inode. -/
theorem moveInode_keeps (n : Inode) : (moveInode x d e name now n).inode = n.inode ∧
    (moveInode x d e name now n).type = n.type ∧ (moveInode x d e name now n).block_index = n.block_index := by
  obtain ⟨h₁, -, -, h₄, h₅⟩ := keepsLinks_recount d e n
  by_cases h : n.inode = x.inode
  · rw [moveInode_of_eq h]
    exact ⟨h₁, h₄, h₅⟩
  · rw [moveInode_of_ne h]
    exact ⟨h₁, h₄, h₅⟩

theorem moveInode_parent (n : Inode) :
    (moveInode x d e name now n).parent_inode = if n.inode = x.inode then e.inode else n.parent_inode := by
  split_ifs with h
  · rw [moveInode_of_eq h]
  · rw [moveInode_of_ne h]
    exact (keepsLinks_recount d e n).2.1

theorem moveInode_name (n : Inode) :
    (moveInode x d e name now n).name = if n.inode = x.inode then name else n.name := by
  split_ifs with h
  · rw [moveInode_of_eq h]
  · rw [moveInode_of_ne h]
    exact (keepsLinks_recount d e n).2.2.1

theorem moveInode_child_count (n : Inode) :
    (moveInode x d e name now n).child_count = (countChild e (uncountChild d n)).child_count := by
  by_cases h : n.inode = x.inode
  · rw [moveInode_of_eq h]
  · rw [moveInode_of_ne h]

/-- The three changes of a rename, as one of each inode -/
theorem modify_move (h : Distinct Inode.inode l) (hx : l[i]? = some x) {p q : ℕ} (hd : l[p]? = some d) (he : l[q]? = some e) :
    ((l.modify p fun n => { n with child_count := pred n.child_count }).modify q
      fun n => { n with child_count := word (n.child_count + 1) }).modify i
        (fun n => { n with name := name, parent_inode := e.inode, mtime := now }) = l.map (moveInode x d e name now) := by
  have hd' := keepsLinks_uncountChild d
  have hde := keepsLinks_recount d e
  have hold : Distinct Inode.inode (l.map (uncountChild d)) := (Distinct.of_map fun n => (hd' n).1).mpr h
  have hnew : Distinct Inode.inode (l.map fun n => countChild e (uncountChild d n)) :=
    (Distinct.of_map fun n => (hde n).1).mpr h
  have hcount : (l.map (uncountChild d)).modify q (fun n => { n with child_count := word (n.child_count + 1) }) =
      l.map fun n => countChild e (uncountChild d n) := by
    rw [hold.modify_eq_map (getElem?_uncount he), List.map_map, (hd' e).1]
    rfl
  rw [modify_uncount h hd, hcount, hnew.modify_eq_map (by rw [List.getElem?_map, hx, Option.map_some]), List.map_map, (hde x).1]
  rfl

/-- The moved inode is no longer a child of `d`, and is one of `e`. -/
theorem children_move (e : Inode) (name : List Byte) (now : ℕ) (h : Distinct Inode.inode l) (hx : l[i]? = some x)
    (hdx : d.inode = x.parent_inode) (k : ℕ) :
    children (l.map (moveInode x d e name now)) k + (if d.inode = k then 1 else 0) =
      children l k + if e.inode = k then 1 else 0 := by
  obtain ⟨a, b, rfl, rfl⟩ := exists_eq_append hx
  have hne := (distinct_append_cons.mp h).1
  have hsame (c : List Inode) (hc : ∀ y ∈ c, y.inode ≠ x.inode) :
      children (c.map (moveInode x d e name now)) k = children c k := by
    rw [children, List.countP_map, children]
    refine List.countP_congr fun n hn => ?_
    rw [Function.comp_apply, moveInode_parent, if_neg (hc n hn)]
  have ha := hsame a fun y hy => hne y (List.mem_append_left b hy)
  have hb := hsame b fun y hy => hne y (List.mem_append_right a hy)
  have hmoved : (moveInode x d e name now x).parent_inode = e.inode := by rw [moveInode_parent, if_pos rfl]
  unfold children at ha hb ⊢
  rw [List.map_append, List.map_cons, List.countP_append, List.countP_cons, ha, hb, hmoved, List.countP_append,
    List.countP_cons, ← hdx]
  simp only [decide_eq_true_eq]
  omega

theorem TreeInv.move (h : TreeInv l) (hx : l[i]? = some x) (hd : d ∈ l) (hdx : d.inode = x.parent_inode) (he : e ∈ l)
    (hdir : e.type = VFS_TYPE_DIR) (hbelow : ¬ Below (parentOf l) x.inode e.inode)
    (hname : ∀ n ∈ l, n.parent_inode = e.inode → n.name = name → n.inode = x.inode) (hterm : name.length < VFS_MAX_NAME) :
    TreeInv (l.map (moveInode x d e name now)) := by
  have hx' := List.mem_of_getElem? hx
  have hkey (n : Inode) : (moveInode x d e name now n).inode = n.inode := (moveInode_keeps n).1
  have htype (n : Inode) : (moveInode x d e name now n).type = n.type := (moveInode_keeps n).2.1
  have hmem (n : Inode) (hn : n ∈ l) : moveInode x d e name now n ∈ l.map (moveInode x d e name now) :=
    List.mem_map_of_mem hn
  have heq (n m : Inode) (hn : n ∈ l) (hm : m ∈ l) (hnm : n.inode = m.inode) : n = m :=
    List.inj_on_of_nodup_map h.unique hn hm hnm
  have hparent (j : ℕ) : parentOf (l.map (moveInode x d e name now)) j =
      if j = x.inode then some e.inode else parentOf l j := by
    rw [parentOf, find_map hkey, Option.map_map, parentOf]
    split_ifs with hj
    · rw [hj, (find_eq_some_iff h.unique).mpr ⟨hx', rfl⟩, Option.map_some, Function.comp_apply, moveInode_parent, if_pos rfl]
    · refine Option.map_congr fun n hn => ?_
      rw [Function.comp_apply, moveInode_parent, if_neg fun hnx => hj ((find_eq_some hn).2.symm.trans hnx)]
  refine { unique := (Distinct.of_map hkey).mpr h.unique, parents := ?_, reaches := ?_, names := ?_, counts := ?_, root := ?_,
           positive := ?_, terminated := ?_, short := ?_ }
  · intro n hn hne
    obtain ⟨m, hm, rfl⟩ := List.mem_map.mp hn
    rw [hkey] at hne
    by_cases hmx : m.inode = x.inode
    · exact ⟨_, hmem e he, by rw [hkey, moveInode_parent, if_pos hmx], by rw [htype, hdir]⟩
    · obtain ⟨q, hq, hqn, hqt⟩ := h.parents m hm hne
      exact ⟨_, hmem q hq, by rw [hkey, moveInode_parent, if_neg hmx, hqn], by rw [htype, hqt]⟩
  · intro n hn
    obtain ⟨m, hm, rfl⟩ := List.mem_map.mp hn
    rw [hkey]
    exact (h.reaches m hm).of_moved (fun j hj => by rw [hparent, if_neg hj]) (by rw [hparent, if_pos rfl]) (h.reaches e he) hbelow
  · intro n hn m hm hlink hsame
    obtain ⟨n, hn₀, rfl⟩ := List.mem_map.mp hn
    obtain ⟨m, hm₀, rfl⟩ := List.mem_map.mp hm
    rw [moveInode_parent, moveInode_parent] at hlink
    rw [moveInode_name, moveInode_name] at hsame
    suffices n = m by rw [this]
    by_cases hnx : n.inode = x.inode
    · by_cases hmx : m.inode = x.inode
      · exact heq n m hn₀ hm₀ (hnx.trans hmx.symm)
      · rw [if_pos hnx, if_neg hmx] at hlink hsame
        exact absurd (hname m hm₀ hlink.symm hsame.symm) hmx
    · by_cases hmx : m.inode = x.inode
      · rw [if_neg hnx, if_pos hmx] at hlink hsame
        exact absurd (hname n hn₀ hlink hsame) hnx
      · rw [if_neg hnx, if_neg hmx] at hlink hsame
        exact h.names n hn₀ m hm₀ hlink hsame
  · intro n hn
    obtain ⟨m, hm, rfl⟩ := List.mem_map.mp hn
    have hle : children l m.inode ≤ l.length := children_le
    have hshort := h.short
    have hsum := children_move e name now h.unique hx hdx m.inode
    have hone : d.inode = m.inode → 0 < children l m.inode := fun hdm =>
      List.countP_pos_iff.mpr ⟨x, hx', decide_eq_true (hdx.symm.trans hdm)⟩
    rw [hkey, moveInode_child_count, countChild, (keepsLinks_uncountChild d m).1, uncountChild]
    by_cases hmd : m.inode = d.inode
    · have hpos := hone hmd.symm
      rw [if_pos hmd.symm] at hsum
      by_cases hme : m.inode = e.inode
      · rw [if_pos hme.symm] at hsum
        rw [if_pos hme, if_pos hmd]
        change word (pred m.child_count + 1) = _
        rw [h.counts m hm, pred_of_pos hpos (by omega), word_of_lt (by omega)]
        omega
      · rw [if_neg (Ne.symm hme)] at hsum
        rw [if_neg hme, if_pos hmd]
        change pred m.child_count = _
        rw [h.counts m hm, pred_of_pos hpos (by omega)]
        omega
    · rw [if_neg (Ne.symm hmd)] at hsum
      by_cases hme : m.inode = e.inode
      · rw [if_pos hme.symm] at hsum
        rw [if_pos hme, if_neg hmd]
        change word (m.child_count + 1) = _
        have hlt : children (l.map (moveInode x d e name now)) m.inode ≤ l.length :=
          children_le.trans_eq (List.length_map _)
        rw [h.counts m hm, word_of_lt (by omega)]
        omega
      · rw [if_neg (Ne.symm hme)] at hsum
        rw [if_neg hme, if_neg hmd, h.counts m hm]
        omega
  · obtain ⟨r, hr, hr1, hr0, hrd⟩ := h.root
    have hrx : r.inode ≠ x.inode := fun hrx => h.ne_root hx' hd hdx (hrx.symm.trans hr1)
    exact ⟨moveInode x d e name now r, by rw [List.getElem?_map, hr, Option.map_some], by rw [hkey, hr1],
      by rw [moveInode_parent, if_neg hrx, hr0], by rw [htype, hrd]⟩
  · intro n hn
    obtain ⟨m, hm, rfl⟩ := List.mem_map.mp hn
    rw [hkey]
    exact h.positive m hm
  · intro n hn
    obtain ⟨m, hm, rfl⟩ := List.mem_map.mp hn
    rw [moveInode_name]
    split_ifs
    · exact hterm
    · exact h.terminated m hm
  · rw [List.length_map]
    exact h.short

end

/-- A change of the other fields -/
theorem TreeInv.map (h : TreeInv l) {g : Inode → Inode} (hg : KeepsLinks g) (hcount : ∀ n, (g n).child_count = n.child_count) :
    TreeInv (l.map g) := by
  refine { unique := (Distinct.of_map fun n => (hg n).1).mpr h.unique, parents := ?_, reaches := ?_, names := ?_,
           counts := ?_, root := ?_, positive := ?_, terminated := ?_, short := (List.length_map g).trans_lt h.short }
  · intro n hn hne
    obtain ⟨m, hm, rfl⟩ := List.mem_map.mp hn
    obtain ⟨q, hq, hqn, hqt⟩ := h.parents m hm (by rwa [(hg m).1] at hne)
    exact ⟨g q, List.mem_map_of_mem hq, by rw [(hg q).1, (hg m).2.1, hqn], by rw [(hg q).2.2.2.1, hqt]⟩
  · intro n hn
    obtain ⟨m, hm, rfl⟩ := List.mem_map.mp hn
    rw [(hg m).1]
    exact (h.reaches m hm).congr hg.parentOf
  · intro n hn m hm hlink hsame
    obtain ⟨n, hn₀, rfl⟩ := List.mem_map.mp hn
    obtain ⟨m, hm₀, rfl⟩ := List.mem_map.mp hm
    rw [(hg n).2.1, (hg m).2.1] at hlink
    rw [(hg n).2.2.1, (hg m).2.2.1] at hsame
    rw [h.names n hn₀ m hm₀ hlink hsame]
  · intro n hn
    obtain ⟨m, hm, rfl⟩ := List.mem_map.mp hn
    rw [hg.children, (hg m).1, hcount, h.counts m hm]
  · obtain ⟨r, hr, hr1, hr0, hrd⟩ := h.root
    exact ⟨g r, by rw [List.getElem?_map, hr, Option.map_some], by rw [(hg r).1, hr1], by rw [(hg r).2.1, hr0],
      by rw [(hg r).2.2.2.1, hrd]⟩
  · intro n hn
    obtain ⟨m, hm, rfl⟩ := List.mem_map.mp hn
    rw [(hg m).1]
    exact h.positive m hm
  · intro n hn
    obtain ⟨m, hm, rfl⟩ := List.mem_map.mp hn
    rw [(hg m).2.2.1]
    exact h.terminated m hm

end ValidcTools.Vfs
