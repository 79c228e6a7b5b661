import FpgaOs.Alloc.Config
import Mathlib.Tactic.IntervalCases
import Mathlib.Tactic.Ring
import Mathlib.Tactic.Linarith

/-!
# Tags, indices and addresses of the buddy tree

The translation helpers at the end of `buddy.cpp`. A tag keeps the node index of a level in its top
`3 * level` bits, so the same register holds a node of any level; `nodeTag` is that encoding, and
the lemmas below say what each helper computes in terms of the index.

`ap_uint` arithmetic is `BitVec` arithmetic: a shift keeps the width, and a concatenation is `++`.
-/

namespace FpgaOs.Alloc

variable (c : Config)

/-- `order_to_level`. -/
def orderToLevel (order : ℕ) : ℕ := (c.orderMax - 1 - order) / 3

/-- `order_to_width`. -/
def orderToWidth (order : ℕ) : ℕ := 1 <<< (2 - (c.orderMax - 1 - order) % 3)

/-- `addr_to_tag`: the top `3 * level` bits of the managed address. -/
def addrToTag (addr : BitVec 32) (level : ℕ) : BitVec c.orderMax :=
  addr.extractLsb' minShift c.orderMax &&& ~~~(BitVec.allOnes c.orderMax >>> (level * 3))

/-- `addr_to_idx`: the three bits below the tag. -/
def addrToIdx (addr : BitVec 32) (level : ℕ) : BitVec 3 :=
  -- top 3 bits are 1, 0 elsewhere
  let mask := BitVec.allOnes c.maxShift ^^^ (BitVec.allOnes c.maxShift >>> 3)
  let tmpIdx := (addr.setWidth c.maxShift <<< (3 * level)) &&& mask
  tmpIdx.extractLsb' (c.maxShift - 3) 3

variable {c}

/-- `tag_to_addr`. -/
def tagToAddr (tag : BitVec c.orderMax) : BitVec 32 := tag.setWidth 32 <<< minShift

/-- `parenttag_idx_to_tag`. -/
def parenttagIdxToTag (parentTag : BitVec c.orderMax) (parentLevel : ℕ) (idx : BitVec 3) :
    BitVec c.orderMax :=
  parentTag ||| ((idx ++ 0#(c.orderMax - 3)).setWidth c.orderMax >>> (parentLevel * 3))

/-- `tag_level_to_drambuddy`: for the `i`-th level the starting address is
`8^0 + 8^1 + ... + 8^(i-1) = (8^i) / 7`. The assertion `level > 0` is kept in the caller. -/
def tagLevelToDrambuddy (base : BitVec 64) (tag : BitVec c.orderMax) (level : ℕ) : BitVec 64 :=
  let tagPad : BitVec c.orderMaxPad := tag ++ 0#c.orderPadBits
  base + (tagPad >>> (3 * (c.levelMax - level))).setWidth 64 +
    BitVec.ofNat 64 ((1 <<< (3 * level)) / 7)

/-! ## Orders -/

theorem orderToWidth_cases (o : ℕ) :
    (orderToWidth c o = 4 ∧ (c.orderMax - 1 - o) % 3 = 0) ∨
      (orderToWidth c o = 2 ∧ (c.orderMax - 1 - o) % 3 = 1) ∨
      (orderToWidth c o = 1 ∧ (c.orderMax - 1 - o) % 3 = 2) := by
  have h : (c.orderMax - 1 - o) % 3 < 3 := Nat.mod_lt _ (by decide)
  rw [orderToWidth]
  interval_cases h' : (c.orderMax - 1 - o) % 3 <;> simp

theorem orderToLevel_lt (hc : c.Ok) (o : ℕ) : orderToLevel c o < c.levelMax := by
  have h1 := Config.three_mul_levelMax (c := c)
  have h2 := hc.levelMax_pos
  rw [orderToLevel]
  omega

theorem orderToWidth_mul (hc : c.Ok) {o : ℕ} (ho : o < c.orderMax) :
    orderToWidth c o * 2 ^ (c.maxShift - 3 * (orderToLevel c o + 1)) = 2 ^ (o + minShift) := by
  have hM := hc.maxShift_eq
  have h3 := hc.three_mul_succ_le (orderToLevel_lt hc o)
  have hw : orderToWidth c o = 2 ^ (2 - (c.orderMax - 1 - o) % 3) := by
    rw [orderToWidth, Nat.one_shiftLeft]
  rw [hw, ← pow_add, minShift]
  congr 1
  rw [orderToLevel] at h3 ⊢
  omega

/-! ## Masks -/

/-- Masking with the complement of a shifted all-ones word rounds down. -/
theorem toNat_and_not_allOnes_shiftRight {w k : ℕ} (x : BitVec w) (hk : k ≤ w) :
    (x &&& ~~~(BitVec.allOnes w >>> k)).toNat = x.toNat / 2 ^ (w - k) * 2 ^ (w - k) := by
  have h : x &&& ~~~(BitVec.allOnes w >>> k) = (x >>> (w - k)) <<< (w - k) := by
    ext i hi
    rcases Nat.lt_or_ge i (w - k) with h | h
    · simp [h, show k + i < w from by omega]
    · simp [show ¬i < w - k from by omega, show ¬k + i < w from by omega,
        show w - k + (i - (w - k)) = i from by omega, BitVec.getLsbD_eq_getElem hi]
  rw [h, BitVec.toNat_shiftLeft, BitVec.toNat_ushiftRight, Nat.shiftLeft_eq,
    Nat.shiftRight_eq_div_pow, Nat.mod_eq_of_lt]
  exact lt_of_le_of_lt (Nat.div_mul_le_self _ _) x.isLt

/-! ## The address as a path

The managed part of an address is its value modulo `2 ^ BUDDY_MAX_SHIFT`; level `l` sees the top
`3 * l` bits of it as the node, and the next three as the bit in that node. -/

variable (c)

/-- The cell of level `l` that holds the address: node and index together. -/
def addrCell (addr : BitVec 32) (l : ℕ) : ℕ :=
  addr.toNat % 2 ^ c.maxShift / 2 ^ (c.maxShift - 3 * (l + 1))

/-- The tag of node `n` of level `l`. -/
def nodeTag (l n : ℕ) : BitVec c.orderMax := BitVec.ofNat c.orderMax (n * 2 ^ (c.orderMax - 3 * l))

variable {c}

theorem toNat_nodeTag {l n : ℕ} (hl : l < c.levelMax) (hn : n < 8 ^ l) :
    (nodeTag c l n).toNat = n * 2 ^ (c.orderMax - 3 * l) := by
  have h3 := Config.three_mul_le_orderMax hl
  rw [nodeTag, BitVec.toNat_ofNat, Nat.mod_eq_of_lt]
  calc n * 2 ^ (c.orderMax - 3 * l) < 8 ^ l * 2 ^ (c.orderMax - 3 * l) :=
        Nat.mul_lt_mul_of_pos_right hn (by positivity)
    _ = 2 ^ c.orderMax := by
      rw [show (8 : ℕ) = 2 ^ 3 from rfl, ← pow_mul, ← pow_add]
      congr 1
      omega

theorem nodeTag_inj {l m n : ℕ} (hl : l < c.levelMax) (hm : m < 8 ^ l) (hn : n < 8 ^ l)
    (h : nodeTag c l m = nodeTag c l n) : m = n := by
  have := congrArg BitVec.toNat h
  rw [toNat_nodeTag hl hm, toNat_nodeTag hl hn] at this
  exact Nat.eq_of_mul_eq_mul_right (by positivity) this

theorem addrCell_div_eight {addr : BitVec 32} {l : ℕ} (hc : c.Ok) (hl : l < c.levelMax) :
    addrCell c addr l / 8 = addr.toNat % 2 ^ c.maxShift / 2 ^ (c.maxShift - 3 * l) := by
  have h3 := hc.three_mul_succ_le hl
  rw [addrCell, Nat.div_div_eq_div_mul, show (8 : ℕ) = 2 ^ 3 from rfl, ← pow_add]
  congr 2
  omega

theorem addrCell_lt {addr : BitVec 32} {l : ℕ} (hc : c.Ok) (hl : l < c.levelMax) :
    addrCell c addr l < 8 ^ (l + 1) := by
  have h3 := hc.three_mul_succ_le hl
  rw [addrCell, Nat.div_lt_iff_lt_mul (by positivity), show (8 : ℕ) = 2 ^ 3 from rfl, ← pow_mul,
    ← pow_add, show 3 * (l + 1) + (c.maxShift - 3 * (l + 1)) = c.maxShift from by omega]
  exact Nat.mod_lt _ (by positivity)

theorem addrToTag_eq {addr : BitVec 32} {l : ℕ} (hc : c.Ok) (hl : l < c.levelMax) :
    addrToTag c addr l = nodeTag c l (addrCell c addr l / 8) := by
  have h3 := Config.three_mul_le_orderMax hl
  have hM := hc.maxShift_eq
  have hlt : addrCell c addr l / 8 < 8 ^ l := by
    have : addrCell c addr l < 8 ^ (l + 1) := addrCell_lt hc hl
    rw [pow_succ] at this
    omega
  apply BitVec.eq_of_toNat_eq
  rw [toNat_nodeTag hl hlt, addrToTag, toNat_and_not_allOnes_shiftRight _ (by omega),
    addrCell_div_eight hc hl, BitVec.extractLsb'_toNat, minShift, Nat.shiftRight_eq_div_pow,
    mul_comm l 3]
  congr 1
  rw [hM, show c.orderMax + 8 - 3 * l = 8 + (c.orderMax - 3 * l) from by omega, pow_add 2 8,
    ← Nat.div_div_eq_div_mul, add_comm c.orderMax 8, pow_add 2 8, Nat.mod_mul_right_div_self]

theorem addrToIdx_toNat {addr : BitVec 32} {l : ℕ} (hc : c.Ok) (hl : l < c.levelMax) :
    (addrToIdx c addr l).toNat = addrCell c addr l % 8 := by
  have h3 := hc.three_mul_succ_le hl
  have h4 := hc.maxShift_le
  have key : addrToIdx c addr l = addr.extractLsb' (c.maxShift - 3 * (l + 1)) 3 := by
    ext i hi
    simp [addrToIdx, show c.maxShift - 3 + i < c.maxShift from by omega,
      show ¬c.maxShift - 3 + i < 3 * l from by omega,
      show ¬3 + (c.maxShift - 3 + i) < c.maxShift from by omega,
      show c.maxShift - 3 + i - 3 * l = c.maxShift - 3 * (l + 1) + i from by omega]
  rw [key, BitVec.extractLsb'_toNat, Nat.shiftRight_eq_div_pow, addrCell]
  rw [show (2 : ℕ) ^ 3 = 8 from rfl]
  have hsplit : c.maxShift = (c.maxShift - 3 * (l + 1)) + 3 * (l + 1) := by omega
  conv_rhs => rw [hsplit, Nat.add_sub_cancel, pow_add, Nat.mod_mul_right_div_self]
  rw [show 3 * (l + 1) = 3 + 3 * l from by ring, pow_add, show (2 : ℕ) ^ 3 = 8 from rfl,
    Nat.mod_mul_right_mod]

/-! ## Descending -/

theorem toNat_parenttagIdxToTag {l n : ℕ} (hc : c.Ok) (hl : l < c.levelMax) (hn : n < 8 ^ l)
    (idx : BitVec 3) :
    (parenttagIdxToTag (nodeTag c l n) l idx).toNat
      = n * 2 ^ (c.orderMax - 3 * l) + idx.toNat * 2 ^ (c.orderMax - 3) / 2 ^ (3 * l) := by
  have h3 := Config.three_mul_le_orderMax hl
  have hom : 3 ≤ c.orderMax := by
    have h1 := hc.maxShift_eq
    have h2 := hc.lt_maxShift
    omega
  have hidx : idx.toNat * 2 ^ (c.orderMax - 3) < 2 ^ c.orderMax := by
    calc idx.toNat * 2 ^ (c.orderMax - 3) < 2 ^ 3 * 2 ^ (c.orderMax - 3) :=
          Nat.mul_lt_mul_of_pos_right idx.isLt (by positivity)
      _ = 2 ^ c.orderMax := by rw [← pow_add, Nat.add_sub_cancel' hom]
  have hsmall : idx.toNat * 2 ^ (c.orderMax - 3) / 2 ^ (3 * l) < 2 ^ (c.orderMax - 3 * l) := by
    rw [Nat.div_lt_iff_lt_mul (by positivity), ← pow_add,
      show c.orderMax - 3 * l + 3 * l = c.orderMax from by omega]
    exact hidx
  rw [parenttagIdxToTag, BitVec.toNat_or, toNat_nodeTag hl hn, BitVec.toNat_ushiftRight,
    BitVec.toNat_setWidth, BitVec.toNat_append, BitVec.toNat_ofNat, Nat.zero_mod, Nat.or_zero,
    Nat.shiftLeft_eq, Nat.mod_eq_of_lt hidx, Nat.shiftRight_eq_div_pow, mul_comm l 3, mul_comm n,
    ← Nat.two_pow_add_eq_or_of_lt hsmall]

theorem parenttagIdxToTag_eq {l n : ℕ} (hc : c.Ok) (hl : l + 1 < c.levelMax) (hn : n < 8 ^ l)
    (idx : BitVec 3) :
    parenttagIdxToTag (nodeTag c l n) l idx = nodeTag c (l + 1) (8 * n + idx.toNat) := by
  have h3 := Config.three_mul_le_orderMax hl
  have hlt : 8 * n + idx.toNat < 8 ^ (l + 1) := by
    have := idx.isLt
    rw [pow_succ]
    omega
  apply BitVec.eq_of_toNat_eq
  rw [toNat_parenttagIdxToTag hc (by omega) hn, toNat_nodeTag hl hlt, add_mul,
    show c.orderMax - 3 * l = 3 + (c.orderMax - 3 * (l + 1)) from by omega,
    show c.orderMax - 3 = 3 * l + (c.orderMax - 3 * (l + 1)) from by omega, pow_add 2 (3 * l),
    mul_left_comm, Nat.mul_div_cancel_left _ (by positivity), pow_add 2 3]
  ring

/-- The address of the cell, once the block is a whole number of smallest blocks. At the bottom
level of a padded tree this is what makes the dropped low bits of the index zero. -/
theorem toNat_tagToAddr_parenttagIdxToTag {l n : ℕ} (hc : c.Ok) (hl : l < c.levelMax)
    (hn : n < 8 ^ l) (idx : BitVec 3)
    (halign : 2 ^ minShift ∣ idx.toNat * 2 ^ (c.maxShift - 3 * (l + 1))) :
    (tagToAddr (parenttagIdxToTag (nodeTag c l n) l idx)).toNat
      = (8 * n + idx.toNat) * 2 ^ (c.maxShift - 3 * (l + 1)) := by
  have h3 := Config.three_mul_le_orderMax hl
  have h4 := hc.three_mul_succ_le hl
  have hM := hc.maxShift_eq
  have hM32 := hc.maxShift_le
  -- the address of a cell fits into 32 bits
  have hcell : (8 * n + idx.toNat) * 2 ^ (c.maxShift - 3 * (l + 1)) < 2 ^ 32 := by
    have hlt : 8 * n + idx.toNat < 8 ^ (l + 1) := by
      have := idx.isLt
      rw [pow_succ]
      omega
    calc (8 * n + idx.toNat) * 2 ^ (c.maxShift - 3 * (l + 1))
        < 8 ^ (l + 1) * 2 ^ (c.maxShift - 3 * (l + 1)) :=
          Nat.mul_lt_mul_of_pos_right hlt (by positivity)
      _ = 2 ^ c.maxShift := by
        rw [show (8 : ℕ) = 2 ^ 3 from rfl, ← pow_mul, ← pow_add]
        congr 1
        omega
      _ ≤ 2 ^ 32 := Nat.pow_le_pow_right (by decide) hM32
  -- the bits of the index that the shift drops are zero, by the alignment
  have hidx : idx.toNat * 2 ^ (c.orderMax - 3) / 2 ^ (3 * l) * 2 ^ minShift
      = idx.toNat * 2 ^ (c.maxShift - 3 * (l + 1)) := by
    have hbig : idx.toNat * 2 ^ (c.orderMax - 3) * 2 ^ minShift
        = idx.toNat * 2 ^ (c.maxShift - 3 * (l + 1)) * 2 ^ (3 * l) := by
      rw [mul_assoc, ← pow_add, mul_assoc, ← pow_add, minShift]
      congr 2
      have h5 := hc.lt_maxShift
      omega
    obtain ⟨q, hq⟩ := halign
    rw [hq] at hbig ⊢
    have : idx.toNat * 2 ^ (c.orderMax - 3) = q * 2 ^ (3 * l) := by
      apply Nat.eq_of_mul_eq_mul_right (show 0 < 2 ^ minShift by positivity)
      rw [hbig]
      ring
    rw [this, Nat.mul_div_cancel _ (by positivity), mul_comm]
  have hval : (parenttagIdxToTag (nodeTag c l n) l idx).toNat * 2 ^ minShift
      = (8 * n + idx.toNat) * 2 ^ (c.maxShift - 3 * (l + 1)) := by
    rw [toNat_parenttagIdxToTag hc hl hn, add_mul, hidx, add_mul, mul_assoc n, ← pow_add, minShift,
      show c.orderMax - 3 * l + 8 = 3 + (c.maxShift - 3 * (l + 1)) from by omega, pow_add 2 3]
    ring
  have hsmall : (parenttagIdxToTag (nodeTag c l n) l idx).toNat < 2 ^ 32 := by
    refine lt_of_le_of_lt (Nat.le_mul_of_pos_right _ (show 0 < 2 ^ minShift by positivity)) ?_
    rw [hval]
    exact hcell
  rw [tagToAddr, BitVec.toNat_shiftLeft, BitVec.toNat_setWidth, Nat.shiftLeft_eq,
    Nat.mod_eq_of_lt hsmall, hval, Nat.mod_eq_of_lt hcell]

/-! ## The metadata bytes -/

/-- Level after level, the nodes of the tree have consecutive metadata bytes. -/
def nodeOffset (l n : ℕ) : ℕ := n + 8 ^ l / 7

theorem eight_pow_div_seven (l : ℕ) : 7 * (8 ^ l / 7) + 1 = 8 ^ l := by
  have hmod : 8 ^ l % 7 = 1 := by
    rw [Nat.pow_mod]
    norm_num
  omega

theorem nodeOffset_lt {l n : ℕ} (hn : n < 8 ^ l) : nodeOffset l n < 8 ^ (l + 1) / 7 := by
  have h1 := eight_pow_div_seven l
  have h2 := eight_pow_div_seven (l + 1)
  rw [pow_succ] at h2
  rw [nodeOffset, pow_succ]
  omega

theorem nodeOffset_inj {l m n k : ℕ} (hn : n < 8 ^ l) (hk : k < 8 ^ m)
    (h : nodeOffset l n = nodeOffset m k) : l = m ∧ n = k := by
  have hmono : ∀ {a b : ℕ}, a ≤ b → 8 ^ a / 7 ≤ 8 ^ b / 7 := fun hab ↦
    Nat.div_le_div_right (Nat.pow_le_pow_right (by decide) hab)
  rcases Nat.lt_trichotomy l m with hlt | rfl | hgt
  · have h1 := nodeOffset_lt hn
    have h2 := hmono (show l + 1 ≤ m from hlt)
    rw [h, nodeOffset] at h1
    omega
  · rw [nodeOffset, nodeOffset] at h
    omega
  · have h1 := nodeOffset_lt hk
    have h2 := hmono (show m + 1 ≤ l from hgt)
    rw [← h, nodeOffset] at h1
    omega

theorem nodeOffset_lt_metaSize {l n : ℕ} (hl : l < c.levelMax) (hn : n < 8 ^ l) :
    nodeOffset l n < c.metaSize := by
  refine lt_of_lt_of_le (nodeOffset_lt hn) ?_
  rw [Config.metaSize, Nat.one_shiftLeft, pow_mul]
  exact Nat.div_le_div_right (Nat.pow_le_pow_right (by decide) hl)

theorem tagLevelToDrambuddy_nodeTag {l n : ℕ} (base : BitVec 64) (hl : l < c.levelMax)
    (hn : n < 8 ^ l) :
    tagLevelToDrambuddy base (nodeTag c l n) l = base + BitVec.ofNat 64 (nodeOffset l n) := by
  have h1 := Config.three_mul_levelMax (c := c)
  have h3 := Config.three_mul_le_orderMax hl
  have hshift : ((nodeTag c l n ++ 0#c.orderPadBits) >>> (3 * (c.levelMax - l))).toNat = n := by
    rw [BitVec.toNat_ushiftRight, BitVec.toNat_append, BitVec.toNat_ofNat, Nat.zero_mod,
      Nat.or_zero, Nat.shiftLeft_eq, Nat.shiftRight_eq_div_pow, toNat_nodeTag hl hn, mul_assoc,
      ← pow_add, show c.orderMax - 3 * l + c.orderPadBits = 3 * (c.levelMax - l) from by omega,
      Nat.mul_div_cancel _ (by positivity)]
  have hset : ((nodeTag c l n ++ 0#c.orderPadBits) >>> (3 * (c.levelMax - l))).setWidth 64
      = BitVec.ofNat 64 n := by
    apply BitVec.eq_of_toNat_eq
    rw [BitVec.toNat_setWidth, hshift, BitVec.toNat_ofNat]
  rw [tagLevelToDrambuddy, nodeOffset, BitVec.ofNat_add, ← BitVec.add_assoc, Nat.one_shiftLeft,
    pow_mul]
  exact congrArg (fun x ↦ base + x + _) hset

theorem tagLevelToDrambuddy_inj {l m n k : ℕ} (hc : c.Ok) (base : BitVec 64) (hl : l < c.levelMax)
    (hn : n < 8 ^ l) (hm : m < c.levelMax) (hk : k < 8 ^ m)
    (h : tagLevelToDrambuddy base (nodeTag c l n) l = tagLevelToDrambuddy base (nodeTag c m k) m) :
    l = m ∧ n = k := by
  have hsmall : c.metaSize ≤ 2 ^ 64 := by
    have h1 := Config.three_mul_levelMax (c := c)
    have h2 := Config.orderPadBits_le (c := c)
    have h3 := hc.maxShift_eq
    have h4 := hc.maxShift_le
    rw [Config.metaSize, Nat.one_shiftLeft]
    exact (Nat.div_le_self _ _).trans (Nat.pow_le_pow_right (by decide) (by omega))
  rw [tagLevelToDrambuddy_nodeTag base hl hn, tagLevelToDrambuddy_nodeTag base hm hk] at h
  have h' := congrArg BitVec.toNat ((BitVec.add_right_inj base).mp h)
  rw [BitVec.toNat_ofNat, BitVec.toNat_ofNat,
    Nat.mod_eq_of_lt ((nodeOffset_lt_metaSize hl hn).trans_le hsmall),
    Nat.mod_eq_of_lt ((nodeOffset_lt_metaSize hm hk).trans_le hsmall)] at h'
  exact nodeOffset_inj hn hk h'

end FpgaOs.Alloc
