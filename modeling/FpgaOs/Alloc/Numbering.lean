import FpgaOs.Alloc.Codec
import Mathlib.Data.Nat.Bitwise
import Mathlib.Data.Set.Operations
import Mathlib.Order.Interval.Set.Defs

/-!
# The numbering of the nodes

The translation helpers of `buddy.cpp` find a node of the tree from an address, from the tag of its
parent and from the tag of one of its children; `tag_idx_codec` says that all ways agree. And they
find its metadata: level after level, and by tag within a level, the bytes of the nodes fill the
metadata area (`metadata_layout`).

If the order of the tree is no multiple of three, the index on the bottom level has bits below those
of a tag. An address has bits there, a tag is padded with zeros; so only what is aligned for its
order survives there.
-/

namespace FpgaOs.Alloc

variable {c : Config}

/-! ## Ancestors -/

/-- `tag_to_ancestor_tag`. -/
def tagToAncestorTag (tag : BitVec c.orderMax) (level : ℕ) : BitVec c.orderMax :=
  tag &&& ~~~(BitVec.allOnes c.orderMax >>> (level * 3))

/-- `tag_to_ancestor_idx`. -/
def tagToAncestorIdx (tag : BitVec c.orderMax) (level : ℕ) : BitVec 3 :=
  let tagPad : BitVec c.orderMaxPad := tag ++ 0#c.orderPadBits
  tagPad.extractLsb' (c.orderMaxPad - 3 - level * 3) 3

theorem tagToAncestorTag_nodeTag {l m : ℕ} (hl : l + 1 < c.levelMax) (hm : m < 8 ^ (l + 1)) :
    tagToAncestorTag (nodeTag c (l + 1) m) l = nodeTag c l (m / 8) := by
  have h3 := Config.three_mul_le_orderMax hl
  have hdiv : m / 8 < 8 ^ l := by
    rw [pow_succ] at hm
    omega
  apply BitVec.eq_of_toNat_eq
  rw [tagToAncestorTag, toNat_and_not_allOnes_shiftRight _ (by omega), toNat_nodeTag hl hm,
    toNat_nodeTag (by omega) hdiv, mul_comm l 3,
    show c.orderMax - 3 * l = 3 + (c.orderMax - 3 * (l + 1)) from by omega, pow_add,
    Nat.mul_div_mul_right _ _ (by positivity), show (2 : ℕ) ^ 3 = 8 from rfl]

theorem toNat_tagToAncestorIdx_nodeTag {l m : ℕ} (hl : l + 1 < c.levelMax) (hm : m < 8 ^ (l + 1)) :
    (tagToAncestorIdx (nodeTag c (l + 1) m) l).toNat = m % 8 := by
  have h1 := Config.three_mul_levelMax (c := c)
  have h3 := Config.three_mul_le_orderMax hl
  have hslice : (tagToAncestorIdx (nodeTag c (l + 1) m) l).toNat
      = (nodeTag c (l + 1) m ++ 0#c.orderPadBits).toNat >>> (c.orderMaxPad - 3 - l * 3) % 2 ^ 3 :=
    BitVec.extractLsb'_toNat _ _ _
  rw [hslice, BitVec.toNat_append, BitVec.toNat_ofNat, Nat.zero_mod, Nat.or_zero, Nat.shiftLeft_eq,
    Nat.shiftRight_eq_div_pow, toNat_nodeTag hl hm, mul_assoc, ← pow_add, Config.orderMaxPad,
    show c.orderMax - 3 * (l + 1) + c.orderPadBits = c.orderMax + c.orderPadBits - 3 - l * 3
      from by omega,
    Nat.mul_div_cancel _ (by positivity), show (2 : ℕ) ^ 3 = 8 from rfl]

/-! ## Addresses -/

/-- An address that is aligned for its order is that of the first byte of its cell. -/
theorem addrCell_mul (hc : c.Ok) {addr : BitVec 32} {o : ℕ} (ho : o < c.orderMax)
    (halign : 2 ^ (o + minShift) ∣ addr.toNat) (hlt : addr.toNat < 2 ^ c.maxShift) :
    addrCell c addr (orderToLevel c o) * 2 ^ (c.maxShift - 3 * (orderToLevel c o + 1))
      = addr.toNat := by
  have hM := hc.maxShift_eq
  have hle : c.maxShift - 3 * (orderToLevel c o + 1) ≤ o + minShift := by
    rw [orderToLevel, minShift]
    omega
  rw [addrCell, Nat.mod_eq_of_lt hlt]
  exact Nat.div_mul_cancel ((Nat.pow_dvd_pow 2 hle).trans halign)

theorem minShift_dvd_idx (hc : c.Ok) {addr : BitVec 32} {o : ℕ} (ho : o < c.orderMax)
    (halign : 2 ^ (o + minShift) ∣ addr.toNat) (hlt : addr.toNat < 2 ^ c.maxShift) :
    2 ^ minShift ∣ (addrToIdx c addr (orderToLevel c o)).toNat
      * 2 ^ (c.maxShift - 3 * (orderToLevel c o + 1)) := by
  have hL := orderToLevel_lt hc o
  have hM := hc.maxShift_eq
  have h3 := Config.three_mul_le_orderMax hL
  have hcell := addrCell_mul hc ho halign hlt
  rw [addrToIdx_toNat hc hL]
  generalize orderToLevel c o = l at hL h3 hcell ⊢
  have hdvd : 2 ^ minShift ∣ addr.toNat := (Nat.pow_dvd_pow 2 (Nat.le_add_left _ _)).trans halign
  have hblock : 2 ^ minShift ∣ 8 * 2 ^ (c.maxShift - 3 * (l + 1)) := by
    rw [show (8 : ℕ) = 2 ^ 3 from rfl, ← pow_add]
    exact Nat.pow_dvd_pow 2 (by rw [minShift]; omega)
  rw [← hcell, ← Nat.div_add_mod (addrCell c addr l) 8, add_mul] at hdvd
  refine (Nat.dvd_add_right ?_).mp hdvd
  rw [mul_comm 8, mul_assoc]
  exact hblock.mul_left _

/-- **The codec.** Index and tag of an address make up the tag of the level below, from which both
are recovered; and an address that is aligned for its order is recovered from them. -/
theorem tag_idx_codec (hc : c.Ok) (addr : BitVec 32) :
    (∀ l, l < c.levelMax - 1 →
      parenttagIdxToTag (addrToTag c addr l) l (addrToIdx c addr l) = addrToTag c addr (l + 1)
        ∧ tagToAncestorTag (addrToTag c addr (l + 1)) l = addrToTag c addr l
        ∧ tagToAncestorIdx (addrToTag c addr (l + 1)) l = addrToIdx c addr l)
      ∧ ∀ o, o < c.orderMax → 2 ^ (o + minShift) ∣ addr.toNat → addr.toNat < 2 ^ c.maxShift →
        tagToAddr (parenttagIdxToTag (addrToTag c addr (orderToLevel c o)) (orderToLevel c o)
          (addrToIdx c addr (orderToLevel c o))) = addr := by
  constructor
  · intro l hl
    have hl' : l + 1 < c.levelMax := by omega
    have hcell : addrCell c addr (l + 1) / 8 = addrCell c addr l := by
      rw [addrCell_div_eight hc hl', addrCell]
    have hlt : addrCell c addr l < 8 ^ (l + 1) := addrCell_lt hc (by omega)
    have hdiv : addrCell c addr l / 8 < 8 ^ l := by
      rw [pow_succ] at hlt
      omega
    rw [addrToTag_eq hc hl', addrToTag_eq hc (Nat.lt_of_succ_lt hl'), hcell]
    refine ⟨?_, tagToAncestorTag_nodeTag hl' hlt, ?_⟩
    · rw [parenttagIdxToTag_eq hc hl' hdiv, addrToIdx_toNat hc (Nat.lt_of_succ_lt hl'),
        Nat.div_add_mod]
    · apply BitVec.eq_of_toNat_eq
      rw [toNat_tagToAncestorIdx_nodeTag hl' hlt, addrToIdx_toNat hc (Nat.lt_of_succ_lt hl')]
  · intro o ho halign hlt
    have hL := orderToLevel_lt hc o
    have hcell : addrCell c addr (orderToLevel c o) < 8 ^ (orderToLevel c o + 1) :=
      addrCell_lt hc hL
    have hdiv : addrCell c addr (orderToLevel c o) / 8 < 8 ^ orderToLevel c o := by
      rw [pow_succ] at hcell
      omega
    apply BitVec.eq_of_toNat_eq
    rw [addrToTag_eq hc hL, toNat_tagToAddr_parenttagIdxToTag hc hL hdiv _
      (minShift_dvd_idx hc ho halign hlt), addrToIdx_toNat hc hL, Nat.div_add_mod,
      addrCell_mul hc ho halign hlt]

/-- The address of the test bench, in the heap allocator; it is aligned for order 5. -/
theorem tag_idx_codec_virt :
    Config.virt.Ok ∧ 2 ^ (5 + minShift) ∣ (0x3AD4E000 : BitVec 32).toNat
      ∧ tagToAncestorIdx (addrToTag .virt 0x3AD4E000 5) 4 = addrToIdx .virt 0x3AD4E000 4
      ∧ tagToAddr (parenttagIdxToTag (addrToTag .virt 0x3AD4E000 6) 6
        (addrToIdx .virt 0x3AD4E000 6)) = 0x3AD4E000 := by
  obtain ⟨htags, haddr⟩ := tag_idx_codec Config.ok_virt 0x3AD4E000
  refine ⟨Config.ok_virt, by decide, (htags 4 (by decide)).2.2, ?_⟩
  exact haddr 5 (by decide) (by decide) (by decide)

/-! ## Metadata -/

theorem Config.metaSize_eq (c : Config) : c.metaSize = 8 ^ c.levelMax / 7 := by
  rw [metaSize, Nat.one_shiftLeft, pow_mul, show (2 : ℕ) ^ 3 = 8 from rfl]

/-- A node below the root: a level, and a tag that only has its top `3 * level` bits. -/
structure TreeNode (c : Config) where
  level : ℕ
  tag : BitVec c.orderMax
  level_pos : 1 ≤ level
  level_lt : level < c.levelMax
  low_eq : ∀ i < c.orderMax - 3 * level, tag.getLsbD i = false

namespace TreeNode

/-- Level after level, and by tag within a level. -/
def Before (p q : TreeNode c) : Prop := p.level < q.level ∨ p.level = q.level ∧ p.tag < q.tag

/-- The metadata byte of the node, from the beginning of the managed memory on. -/
def metaOffset (base : BitVec 64) (p : TreeNode c) : ℕ :=
  (tagLevelToDrambuddy base p.tag p.level - base).toNat

/-- The number of the node among those of its level. -/
def index (p : TreeNode c) : ℕ := p.tag.toNat / 2 ^ (c.orderMax - 3 * p.level)

/-- The node with a number. -/
def ofIndex {l n : ℕ} (hpos : 1 ≤ l) (hl : l < c.levelMax) (hn : n < 8 ^ l) : TreeNode c where
  level := l
  tag := nodeTag c l n
  level_pos := hpos
  level_lt := hl
  low_eq i hi := by
    rw [BitVec.getLsbD, toNat_nodeTag hl hn, Nat.testBit_mul_two_pow, decide_eq_false (by omega),
      Bool.false_and]

variable (p : TreeNode c)

theorem index_mul : p.index * 2 ^ (c.orderMax - 3 * p.level) = p.tag.toNat := by
  refine Nat.div_mul_cancel (Nat.dvd_of_mod_eq_zero (Nat.zero_of_testBit_eq_false fun i ↦ ?_))
  rw [Nat.testBit_mod_two_pow]
  by_cases hi : i < c.orderMax - 3 * p.level
  · rw [← BitVec.getLsbD, p.low_eq i hi, Bool.and_false]
  · rw [decide_eq_false hi, Bool.false_and]

theorem index_lt : p.index < 8 ^ p.level := by
  have h3 := Config.three_mul_le_orderMax p.level_lt
  rw [index, Nat.div_lt_iff_lt_mul (by positivity), show (8 : ℕ) = 2 ^ 3 from rfl, ← pow_mul,
    ← pow_add, Nat.add_sub_cancel' h3]
  exact p.tag.isLt

theorem tag_eq : p.tag = nodeTag c p.level p.index := by
  apply BitVec.eq_of_toNat_eq
  rw [toNat_nodeTag p.level_lt p.index_lt, p.index_mul]

theorem metaOffset_eq (hmax : 8 ^ c.levelMax < 2 ^ 31) (base : BitVec 64) :
    p.metaOffset base = nodeOffset p.level p.index := by
  have hmeta := nodeOffset_lt_metaSize p.level_lt p.index_lt
  rw [Config.metaSize_eq] at hmeta
  rw [metaOffset, p.tag_eq, tagLevelToDrambuddy_nodeTag base p.level_lt p.index_lt,
    BitVec.add_comm, BitVec.add_sub_cancel, BitVec.toNat_ofNat, Nat.mod_eq_of_lt]
  omega

variable {p} {q : TreeNode c}

theorem eq_of_index_eq (hlevel : p.level = q.level) (hindex : p.index = q.index) : p = q := by
  have htag : p.tag = q.tag := by rw [p.tag_eq, q.tag_eq, hlevel, hindex]
  cases p
  cases q
  cases hlevel
  cases htag
  rfl

theorem index_ofIndex {l n : ℕ} (hpos : 1 ≤ l) (hl : l < c.levelMax) (hn : n < 8 ^ l) :
    (ofIndex hpos hl hn).index = n := by
  rw [index, ofIndex, toNat_nodeTag hl hn]
  exact Nat.mul_div_cancel n (by positivity)

theorem Before.index_lt (h : p.Before q) (hlevel : p.level = q.level) : p.index < q.index := by
  obtain hlt | ⟨-, htag⟩ := h
  · exact absurd hlevel hlt.ne
  · rw [BitVec.lt_def, ← p.index_mul, ← q.index_mul, hlevel] at htag
    exact Nat.lt_of_mul_lt_mul_right htag

end TreeNode

theorem nodeOffset_lt_of_lt {l m n : ℕ} (hn : n < 8 ^ l) (h : l < m) (k : ℕ) :
    nodeOffset l n < nodeOffset m k :=
  calc nodeOffset l n < 8 ^ (l + 1) / 7 := nodeOffset_lt hn
    _ ≤ 8 ^ m / 7 := Nat.div_le_div_right (Nat.pow_le_pow_right (by decide) h)
    _ ≤ nodeOffset m k := Nat.le_add_left _ _

/-- Every number below the size of `l` levels is that of a node, and all but the first of one below
the root. -/
theorem exists_nodeOffset_eq {k l : ℕ} (hpos : 1 ≤ k) (hk : k < 8 ^ l / 7) :
    ∃ m n, 1 ≤ m ∧ m < l ∧ n < 8 ^ m ∧ nodeOffset m n = k := by
  induction l with
  | zero => exact absurd hk (Nat.not_lt_zero k)
  | succ l ih =>
    rcases Nat.lt_or_ge k (8 ^ l / 7) with hlt | hge
    · obtain ⟨m, n, hm, hml, hn⟩ := ih hlt
      exact ⟨m, n, hm, Nat.lt_succ_of_lt hml, hn⟩
    · -- the number falls on the last level, which has `8 ^ l` nodes
      have h1 := eight_pow_div_seven l
      have h2 := eight_pow_div_seven (l + 1)
      rw [pow_succ] at h2 hk
      refine ⟨l, k - 8 ^ l / 7, ?_, Nat.lt_succ_self l, by omega, Nat.sub_add_cancel hge⟩
      refine Nat.pos_of_ne_zero fun hzero ↦ ?_
      rw [hzero] at hk
      omega

/-- **The metadata area.** The nodes below the root have the bytes from 1 to `BUDDY_META_SIZE - 1`,
one each, in order of their levels and on a level in order of their tags. -/
theorem metadata_layout (hmax : 8 ^ c.levelMax < 2 ^ 31) (base : BitVec 64) :
    Function.Injective (TreeNode.metaOffset (c := c) base)
      ∧ Set.range (TreeNode.metaOffset (c := c) base) = Set.Icc 1 (c.metaSize - 1)
      ∧ ∀ p q : TreeNode c, p.Before q → p.metaOffset base < q.metaOffset base := by
  have hoff (p : TreeNode c) := p.metaOffset_eq hmax base
  refine ⟨fun p q h ↦ ?_, Set.Subset.antisymm ?_ ?_, fun p q h ↦ ?_⟩
  · rw [hoff, hoff] at h
    obtain ⟨hlevel, hindex⟩ := nodeOffset_inj p.index_lt q.index_lt h
    exact TreeNode.eq_of_index_eq hlevel hindex
  · rintro _ ⟨p, rfl⟩
    rw [hoff]
    -- the byte of the root is byte 0
    have hpos : nodeOffset 0 0 < nodeOffset p.level p.index :=
      nodeOffset_lt_of_lt Nat.one_pos p.level_pos _
    refine ⟨Nat.one_le_of_lt hpos, Nat.le_sub_one_of_lt ?_⟩
    exact nodeOffset_lt_metaSize p.level_lt p.index_lt
  · rintro k ⟨hpos, hk⟩
    rw [Config.metaSize_eq] at hk
    obtain ⟨m, n, hm, hml, hn, rfl⟩ := exists_nodeOffset_eq (l := c.levelMax) hpos (by omega)
    refine ⟨.ofIndex hm hml hn, ?_⟩
    rw [hoff, TreeNode.index_ofIndex]
    rfl
  · rw [hoff, hoff]
    rcases Nat.lt_or_ge p.level q.level with hlt | hge
    · exact nodeOffset_lt_of_lt p.index_lt hlt _
    · have hlevel : p.level = q.level := h.elim (fun hlt ↦ absurd hlt (Nat.not_lt.mpr hge)) And.left
      rw [nodeOffset, nodeOffset, hlevel]
      exact Nat.add_lt_add_right (h.index_lt hlevel) _

/-- The physical allocator, whose order 22 is no multiple of three. -/
theorem metadata_layout_phys : 8 ^ Config.phys.levelMax < 2 ^ 31
    ∧ Set.range (TreeNode.metaOffset (c := .phys) 0) = Set.Icc 1 (Config.phys.metaSize - 1) :=
  ⟨by decide, (metadata_layout (by decide) 0).2.1⟩

end FpgaOs.Alloc
