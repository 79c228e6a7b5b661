import Mathlib.Data.List.Pairwise
import Mathlib.Data.Nat.Log
import Mathlib.Tactic.Ring
import Mathlib.Tactic.Linarith

/-!
# Blocks in an 8-ary bitmap tree

The tree has a node for every level `l` and index `n < 8 ^ l`; bit `j` of that node stands for the
*cell* `8 * n + j` of level `l`, which is also the index of the node below that bit. A block is a
run of neighbouring cells of one node. A set of blocks determines a bitmap: a bit is set when a
block lies on the cell or below it, so that a node is zero exactly when nothing is allocated in its
subtree *by a block of that level or a deeper one*. Nodes strictly inside a block stay zero.

Two blocks conflict when they cover a common cell on the shallower of their two levels. The facts
the allocator proof rests on are then

* `not_conflict_of_clear`: a block whose cells are clear on some level, below a non-empty node or
  the root, conflicts with nothing;
* `bitmap_erase_iff_child`: after a block is removed, the bit above it stays set exactly when the
  node below is not empty.

`Mem` gives a block its bytes, in an address space of `2 ^ M` bytes; `covers_iff_exists_mem` and
`conflict_of_mem` translate between the cells and the bytes.
-/

namespace FpgaOs.Octree

/-- `width` cells of one node, starting at `cell`; `level` is the level of the node. -/
structure Block where
  level : ℕ
  cell : ℕ
  width : ℕ
  deriving DecidableEq, Repr

namespace Block

/-- The block is not empty and does not leave its node. -/
structure WF (b : Block) : Prop where
  width_pos : 0 < b.width
  within : b.cell % 8 + b.width ≤ 8

/-- The cell of level `l` above the block's first cell. -/
def anchor (b : Block) (l : ℕ) : ℕ := b.cell / 8 ^ (b.level - l)

/-- The block lies on cell `c` of level `l`, or below it. -/
def Covers (b : Block) (l c : ℕ) : Prop :=
  (l = b.level ∧ b.cell ≤ c ∧ c < b.cell + b.width) ∨ (l < b.level ∧ c = b.anchor l)

instance (b : Block) (l c : ℕ) : Decidable (b.Covers l c) := by
  unfold Covers; infer_instance

theorem anchor_level (b : Block) : b.anchor b.level = b.cell := by
  rw [anchor, Nat.sub_self, pow_zero, Nat.div_one]

theorem anchor_div {b : Block} {l k : ℕ} (h : l + k ≤ b.level) :
    b.anchor (l + k) / 8 ^ k = b.anchor l := by
  rw [anchor, anchor, Nat.div_div_eq_div_mul, ← pow_add,
    show b.level - (l + k) + k = b.level - l from by omega]

theorem Covers.level_le {b : Block} {l c : ℕ} (h : b.Covers l c) : l ≤ b.level := by
  rcases h with ⟨rfl, -⟩ | ⟨h, -⟩
  · exact le_rfl
  · exact h.le

theorem covers_level_iff {b : Block} {c : ℕ} :
    b.Covers b.level c ↔ b.cell ≤ c ∧ c < b.cell + b.width := by
  simp [Covers]

theorem covers_iff_of_lt {b : Block} {l c : ℕ} (h : l < b.level) :
    b.Covers l c ↔ c = b.anchor l := by
  simp [Covers, h, h.ne]

theorem WF.covers_anchor {b : Block} (hb : b.WF) {l : ℕ} (h : l ≤ b.level) :
    b.Covers l (b.anchor l) := by
  rcases h.eq_or_lt with rfl | h'
  · rw [covers_level_iff, anchor_level]
    exact ⟨le_rfl, Nat.lt_add_of_pos_right hb.width_pos⟩
  · exact (covers_iff_of_lt h').mpr rfl

theorem WF.covers_div_eight {b : Block} (hb : b.WF) {l c : ℕ} (h : b.Covers l c) :
    c / 8 = b.anchor l / 8 := by
  rcases h with ⟨rfl, h1, h2⟩ | ⟨-, rfl⟩
  · rw [anchor_level]
    have := hb.within
    omega
  · rfl

theorem WF.covers_parent {b : Block} (hb : b.WF) {l c : ℕ} (h : b.Covers (l + 1) c) :
    b.Covers l (c / 8) := by
  have hl := h.level_le
  refine (covers_iff_of_lt (by omega)).mpr ?_
  have := anchor_div (b := b) (l := l) (k := 1) hl
  rw [hb.covers_div_eight h, ← this, pow_one]

theorem WF.covers_ancestor {b : Block} (hb : b.WF) {l k c : ℕ} (h : b.Covers (l + k) c) :
    b.Covers l (c / 8 ^ k) := by
  induction k generalizing c with
  | zero => simpa using h
  | succ k ih =>
    have := ih (hb.covers_parent h)
    rwa [Nat.div_div_eq_div_mul, ← pow_succ'] at this

theorem WF.exists_covers_child {b : Block} (hb : b.WF) {l c : ℕ} (h : b.Covers l c)
    (hl : l < b.level) : ∃ c', c' / 8 = c ∧ b.Covers (l + 1) c' := by
  refine ⟨b.anchor (l + 1), ?_, hb.covers_anchor hl⟩
  have := anchor_div (b := b) (l := l) (k := 1) hl
  rw [(covers_iff_of_lt hl).mp h, ← this, pow_one]

/-- Two blocks cover a common cell on the level of one of them. -/
def Conflict (a b : Block) : Prop :=
  ∃ l c, a.Covers l c ∧ b.Covers l c ∧ (l = a.level ∨ l = b.level)

theorem Conflict.symm {a b : Block} : Conflict a b → Conflict b a := by
  rintro ⟨l, c, ha, hb, hl⟩
  exact ⟨l, c, hb, ha, hl.symm⟩

theorem WF.conflict_self {b : Block} (hb : b.WF) : Conflict b b :=
  ⟨b.level, _, hb.covers_anchor le_rfl, hb.covers_anchor le_rfl, Or.inl rfl⟩

/-! ## Bytes -/

/-- The block in an address space of `2 ^ M` bytes. -/
def Mem (M : ℕ) (b : Block) (x : ℕ) : Prop :=
  b.cell * 2 ^ (M - 3 * (b.level + 1)) ≤ x ∧
    x < (b.cell + b.width) * 2 ^ (M - 3 * (b.level + 1))

theorem div_cell_div {M l k x : ℕ} (h : 3 * (l + k + 1) ≤ M) :
    x / 2 ^ (M - 3 * (l + k + 1)) / 8 ^ k = x / 2 ^ (M - 3 * (l + 1)) := by
  rw [Nat.div_div_eq_div_mul, show (8 : ℕ) = 2 ^ 3 from rfl, ← pow_mul, ← pow_add]
  congr 2
  omega

theorem Mem.covers {M : ℕ} {b : Block} (hb : b.WF) (hM : 3 * (b.level + 1) ≤ M) {x l : ℕ}
    (hx : b.Mem M x) (hl : l ≤ b.level) : b.Covers l (x / 2 ^ (M - 3 * (l + 1))) := by
  have hpos : 0 < 2 ^ (M - 3 * (b.level + 1)) := by positivity
  have hbot : b.Covers b.level (x / 2 ^ (M - 3 * (b.level + 1))) :=
    covers_level_iff.mpr
      ⟨(Nat.le_div_iff_mul_le hpos).mpr hx.1, (Nat.div_lt_iff_lt_mul hpos).mpr hx.2⟩
  obtain ⟨k, hk⟩ := Nat.exists_eq_add_of_le hl
  rw [← div_cell_div (l := l) (k := k) (by omega)]
  rw [hk] at hbot
  exact hb.covers_ancestor hbot

theorem covers_iff_exists_mem {M : ℕ} {b : Block} (hb : b.WF) (hM : 3 * (b.level + 1) ≤ M)
    {l c : ℕ} :
    b.Covers l c ↔ l ≤ b.level ∧ ∃ x, b.Mem M x ∧ x / 2 ^ (M - 3 * (l + 1)) = c := by
  constructor
  · intro h
    refine ⟨h.level_le, ?_⟩
    have hpos : 0 < 2 ^ (M - 3 * (b.level + 1)) := by positivity
    rcases h with ⟨rfl, h1, h2⟩ | ⟨hl, rfl⟩
    · refine ⟨c * 2 ^ (M - 3 * (b.level + 1)), ⟨Nat.mul_le_mul_right _ h1, ?_⟩,
        Nat.mul_div_cancel _ hpos⟩
      exact Nat.mul_lt_mul_of_pos_right h2 hpos
    · refine ⟨b.cell * 2 ^ (M - 3 * (b.level + 1)), ⟨le_rfl, ?_⟩, ?_⟩
      · exact Nat.mul_lt_mul_of_pos_right (Nat.lt_add_of_pos_right hb.width_pos) hpos
      · obtain ⟨k, hk⟩ := Nat.exists_eq_add_of_le hl.le
        rw [← div_cell_div (l := l) (k := k) (by omega), ← hk, Nat.mul_div_cancel _ hpos, anchor,
          show b.level - l = k from by omega]
  · rintro ⟨hl, x, hx, rfl⟩
    exact hx.covers hb hM hl

/-- **Blocks with a common byte conflict.** -/
theorem conflict_of_mem {M : ℕ} {a b : Block} (ha : a.WF) (hb : b.WF)
    (haM : 3 * (a.level + 1) ≤ M) (hbM : 3 * (b.level + 1) ≤ M) {x : ℕ}
    (hxa : a.Mem M x) (hxb : b.Mem M x) : Conflict a b := by
  rcases le_total a.level b.level with h | h
  · exact ⟨a.level, _, hxa.covers ha haM le_rfl, hxb.covers hb hbM h, Or.inl rfl⟩
  · exact ⟨b.level, _, hxa.covers ha haM h, hxb.covers hb hbM le_rfl, Or.inr rfl⟩

end Block

/-! ## The bitmap of a set of blocks -/

open Block

/-- The bit of cell `c` of level `l`. -/
def bitmap (U : List Block) (l c : ℕ) : Prop := ∃ b ∈ U, b.Covers l c

instance (U : List Block) (l c : ℕ) : Decidable (bitmap U l c) := by
  unfold bitmap; infer_instance

theorem bitmap_cons {b : Block} {U : List Block} {l c : ℕ} :
    bitmap (b :: U) l c ↔ b.Covers l c ∨ bitmap U l c := by
  simp [bitmap]

/-- A set of blocks as an allocator may hand them out. -/
structure Valid (U : List Block) : Prop where
  wf : ∀ b ∈ U, b.WF
  apart : U.Pairwise fun a b ↦ ¬Conflict a b

theorem Valid.not_conflict {U : List Block} (hU : Valid U) {a b : Block} (ha : a ∈ U) (hb : b ∈ U)
    (hne : a ≠ b) : ¬Conflict a b := by
  have : Std.Symm fun a b : Block ↦ ¬Conflict a b := ⟨fun _ _ h h' ↦ h h'.symm⟩
  exact hU.apart.forall ha hb hne

theorem Valid.bitmap_ancestor {U : List Block} (hU : Valid U) {l k c : ℕ}
    (h : bitmap U (l + k) c) : bitmap U l (c / 8 ^ k) := by
  obtain ⟨b, hb, hc⟩ := h
  exact ⟨b, hb, (hU.wf b hb).covers_ancestor hc⟩

theorem Valid.bitmap_parent {U : List Block} (hU : Valid U) {l c : ℕ}
    (h : bitmap U (l + 1) c) : bitmap U l (c / 8) := by
  simpa using hU.bitmap_ancestor (k := 1) h

/-- **A clear window is free.** The cells of `b` are clear on level `st`, and the node above them is
the root or is not empty; then `b` conflicts with no block of the set. A conflict above level `st`
would be with a block that covers the whole node, and the block that makes the node non-empty
would conflict with that one. -/
theorem Valid.not_conflict_of_clear {U : List Block} (hU : Valid U) {b : Block} (hb : b.WF) {st : ℕ}
    (hst : st ≤ b.level) (hclear : ∀ c, b.Covers st c → ¬bitmap U st c)
    (hnode : st = 0 ∨ ∃ c, bitmap U st c ∧ c / 8 = b.anchor st / 8) {a : Block} (ha : a ∈ U) :
    ¬Conflict b a := by
  rintro ⟨l, c, hbc, hac, hl⟩
  rcases Nat.lt_or_ge l st with hlt | hge
  · obtain rfl : l = a.level := hl.resolve_left (by omega)
    obtain ⟨e, ⟨f, hf, hfe⟩, hdiv⟩ := hnode.resolve_left (by omega)
    have hne : f ≠ a := by
      rintro rfl
      exact absurd hfe.level_le (by omega)
    refine hU.not_conflict hf ha hne ⟨a.level, c, ?_, hac, Or.inr rfl⟩
    obtain ⟨k, rfl⟩ := Nat.exists_eq_add_of_lt hlt
    have hanc := (hU.wf f hf).covers_ancestor (l := a.level) (k := k + 1) (by rwa [← add_assoc])
    have hc := (covers_iff_of_lt (by omega)).mp hbc
    have hac' := anchor_div (b := b) (l := a.level) (k := k + 1) (by omega)
    rw [pow_succ', ← Nat.div_div_eq_div_mul] at hanc hac'
    rw [hc, ← hac', ← add_assoc, ← hdiv]
    exact hanc
  · obtain ⟨k, rfl⟩ := Nat.exists_eq_add_of_le hge
    exact hclear _ (hb.covers_ancestor hbc) ⟨a, ha, (hU.wf a ha).covers_ancestor hac⟩

theorem Valid.cons {U : List Block} (hU : Valid U) {b : Block} (hb : b.WF)
    (hfree : ∀ a ∈ U, ¬Conflict b a) : Valid (b :: U) where
  wf a ha := by
    rcases List.mem_cons.mp ha with rfl | ha
    · exact hb
    · exact hU.wf a ha
  apart := List.pairwise_cons.mpr ⟨hfree, hU.apart⟩

/-! ## The order of the blocks does not matter -/

theorem bitmap_perm {U V : List Block} (h : U.Perm V) {l c : ℕ} : bitmap U l c ↔ bitmap V l c :=
  ⟨fun ⟨a, ha, hc⟩ ↦ ⟨a, h.mem_iff.mp ha, hc⟩, fun ⟨a, ha, hc⟩ ↦ ⟨a, h.mem_iff.mpr ha, hc⟩⟩

theorem Valid.perm {U V : List Block} (hU : Valid U) (h : U.Perm V) : Valid V where
  wf a ha := hU.wf a (h.mem_iff.mpr ha)
  apart := hU.apart.perm h fun hab hba ↦ hab hba.symm

/-! ## Removing a block -/

theorem Valid.erase {U : List Block} (hU : Valid U) (b : Block) : Valid (U.erase b) where
  wf a ha := hU.wf a (List.mem_of_mem_erase ha)
  apart := hU.apart.sublist List.erase_sublist

theorem Valid.nodup {U : List Block} (hU : Valid U) : U.Nodup := by
  refine List.Pairwise.imp_of_mem ?_ hU.apart
  rintro a b ha - hab rfl
  exact hab (hU.wf a ha).conflict_self

theorem bitmap_iff_erase {U : List Block} {b : Block} (hb : b ∈ U) {l c : ℕ} :
    bitmap U l c ↔ b.Covers l c ∨ bitmap (U.erase b) l c := by
  rw [← bitmap_cons]
  exact bitmap_perm (List.perm_cons_erase hb)

/-- On its own level the removed block leaves all its cells clear. -/
theorem Valid.bitmap_erase_of_level {U : List Block} (hU : Valid U) {b : Block} (hb : b ∈ U)
    {c : ℕ} :
    bitmap (U.erase b) b.level c ↔ bitmap U b.level c ∧ ¬b.Covers b.level c := by
  rw [bitmap_iff_erase hb]
  constructor
  · rintro ⟨a, ha, hac⟩
    refine ⟨Or.inr ⟨a, ha, hac⟩, fun hbc ↦ ?_⟩
    obtain ⟨hne, ha'⟩ := (List.Nodup.mem_erase_iff hU.nodup).mp ha
    exact hU.not_conflict ha' hb hne ⟨b.level, c, hac, hbc, Or.inr rfl⟩
  · rintro ⟨h, hbc⟩
    exact h.resolve_left hbc

/-- **The bit above a removed block** stays set exactly when the node below it is not empty. -/
theorem Valid.bitmap_erase_iff_child {U : List Block} (hU : Valid U) {b : Block} (hb : b ∈ U)
    {l c : ℕ} (hc : b.Covers l c) :
    bitmap (U.erase b) l c ↔ ∃ c', c' / 8 = c ∧ bitmap (U.erase b) (l + 1) c' := by
  constructor
  · rintro ⟨a, ha, hac⟩
    obtain ⟨hne, ha'⟩ := (List.Nodup.mem_erase_iff hU.nodup).mp ha
    have hla : l < a.level := by
      refine lt_of_le_of_ne hac.level_le ?_
      intro h
      exact hU.not_conflict ha' hb hne ⟨l, c, hac, hc, Or.inl h⟩
    obtain ⟨c', hdiv, hc'⟩ := (hU.wf a ha').exists_covers_child hac hla
    exact ⟨c', hdiv, a, ha, hc'⟩
  · rintro ⟨c', rfl, h⟩
    exact (hU.erase b).bitmap_parent h

end FpgaOs.Octree
