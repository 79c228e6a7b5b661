import FpgaOs.AxiRab.AsyncFifo
import Mathlib.Data.Nat.Find

/-!
# Pointers in Gray code

A pointer of `async_fifo` is sampled by the other clock while it may be changing, each bit on its
own. This is harmless because the Gray codes of a number and of the next one differ in a single bit:
an increment flips the bits of a carry chain, and flipping a whole range of bits shows in the code
only at its upper end. At the wrap the chain is the whole word, and its upper end is the highest
bit.
-/

namespace FpgaOs.AxiRab

open BitField

variable {k : ℕ}

/-! ## The loops of the source -/

/-- The loop of `bin2gray`, over the bits below `i`. -/
def bin2grayLoop (bin gray : BitVec k) : ℕ → BitVec k
  | 0 => gray
  | i + 1 => setBit (bin2grayLoop bin gray i) i (bin.getLsbD (i + 1) ^^ bin.getLsbD i)

theorem getLsbD_bin2grayLoop {bin gray : BitVec k} {i : ℕ} (hi : i ≤ k) (j : ℕ) :
    (bin2grayLoop bin gray i).getLsbD j
      = if j < i then (bin2gray bin).getLsbD j else gray.getLsbD j := by
  induction i with
  | zero => rw [bin2grayLoop, if_neg (Nat.not_lt_zero j)]
  | succ i ih =>
    rw [bin2grayLoop, getLsbD_setBit hi, ih (Nat.le_of_succ_le hi)]
    rcases Nat.lt_trichotomy j i with hlt | rfl | hgt
    · rw [if_neg hlt.ne, if_pos hlt, if_pos (Nat.lt_succ_of_lt hlt)]
    · rw [if_pos rfl, if_pos (Nat.lt_succ_self j), getLsbD_bin2gray]
    · rw [if_neg hgt.ne', if_neg hgt.not_gt, if_neg (Nat.not_lt.mpr hgt)]

/-- The function as it is written, whatever its result holds before it is assigned. -/
theorem bin2gray_eq_loop (hk : 1 ≤ k) (bin gray : BitVec k) :
    setBit (bin2grayLoop bin gray (k - 1)) (k - 1) (bin.getLsbD (k - 1)) = bin2gray bin := by
  apply BitVec.eq_of_getLsbD_eq
  intro j hj
  rw [getLsbD_setBit (by omega), getLsbD_bin2grayLoop (Nat.sub_le k 1)]
  by_cases hjk : j = k - 1
  · rw [if_pos hjk, hjk, getLsbD_bin2gray, BitVec.getLsbD_of_ge bin (k - 1 + 1) (by omega),
      Bool.false_xor]
  · rw [if_neg hjk, if_pos (by omega)]

/-- Each bit that the loop of `gray2bin` sets is computed from the bit above it, which keeps the
value that it has then. -/
theorem getLsbD_gray2binLoop_succ {gray bin : BitVec k} {i : ℕ} (hi : i ≤ k) (j : ℕ) :
    (gray2binLoop gray i bin).getLsbD j
      = if j < i then (gray2binLoop gray i bin).getLsbD (j + 1) ^^ gray.getLsbD j
        else bin.getLsbD j := by
  induction i generalizing bin j with
  | zero => rw [gray2binLoop, if_neg (Nat.not_lt_zero j)]
  | succ i ih =>
    have hle := Nat.le_of_succ_le hi
    rw [gray2binLoop, ih hle]
    rcases Nat.lt_trichotomy j i with hlt | rfl | hgt
    · rw [if_pos hlt, if_pos (Nat.lt_succ_of_lt hlt)]
    · -- the bit that is set in this round
      rw [if_neg (Nat.lt_irrefl j), if_pos (Nat.lt_succ_self j), getLsbD_setBit hi, if_pos rfl,
        ih hle, if_neg (Nat.not_lt.mpr (Nat.le_succ j)), getLsbD_setBit hi,
        if_neg (Nat.succ_ne_self j)]
    · rw [if_neg hgt.not_gt, if_neg (Nat.not_lt.mpr hgt), getLsbD_setBit hi, if_neg hgt.ne']

/-- **Converting a code to the pointer and back.** -/
theorem bin2gray_gray2bin (gray : BitVec k) : bin2gray (gray2bin gray) = gray := by
  apply BitVec.eq_of_getLsbD_eq
  intro j hj
  rw [getLsbD_bin2gray, gray2bin, getLsbD_gray2binLoop_succ (Nat.sub_le k 1) j]
  by_cases hjk : j < k - 1
  · rw [if_pos hjk, ← Bool.xor_assoc, Bool.xor_self, Bool.false_xor]
  · obtain rfl : j = k - 1 := by omega
    rw [if_neg hjk, BitVec.getLsbD_of_ge _ (k - 1 + 1) (by omega), Bool.false_xor,
      getLsbD_setBit (by omega), if_pos rfl]

/-! ## One bit at a time -/

/-- All bits below bit `i` are set, so that an increment carries into it. -/
def Carries (b : BitVec k) (i : ℕ) : Prop := ∀ j < i, b.getLsbD j = true

theorem getLsbD_add_one_ne_iff {b : BitVec k} {i : ℕ} (hi : i < k) :
    b.getLsbD i ≠ (b + 1).getLsbD i ↔ Carries b i := by
  have hpos := Nat.zero_lt_of_lt hi
  have hadd : (b + 1).getLsbD i
      = (b.getLsbD i ^^ ((1#k).getLsbD i ^^ BitVec.carry i b 1#k false)) :=
    BitVec.getLsbD_add hi b 1#k
  have hflip : ((1#k).getLsbD i ^^ BitVec.carry i b 1#k false) = true ↔ Carries b i := by
    rw [BitVec.getLsbD_one, decide_eq_true hpos, Bool.true_and]
    cases i with
    | zero => simp [Carries]
    | succ i =>
      rw [BitVec.carry_succ_one i b hpos, decide_eq_false (Nat.succ_ne_zero i), Bool.false_xor,
        decide_eq_true_iff]
      exact forall_congr' fun j ↦ by rw [Nat.lt_succ_iff]
  rw [← hflip, hadd]
  cases b.getLsbD i <;> simp

/-- The carry ends in bit `i`. -/
def CarryEnds (b : BitVec k) (i : ℕ) : Prop := Carries b i ∧ ¬(i + 1 < k ∧ Carries b (i + 1))

/-- A bit of the code is changed where the carry ends, and nowhere else. -/
theorem bin2gray_add_one_ne_iff {b : BitVec k} {i : ℕ} (hi : i < k) :
    (bin2gray b).getLsbD i ≠ (bin2gray (b + 1)).getLsbD i ↔ CarryEnds b i := by
  have hflip : b.getLsbD (i + 1) ≠ (b + 1).getLsbD (i + 1)
      ↔ i + 1 < k ∧ Carries b (i + 1) := by
    by_cases hnext : i + 1 < k
    · rw [getLsbD_add_one_ne_iff hnext, and_iff_right hnext]
    · simp [BitVec.getLsbD_of_ge _ (i + 1) (Nat.le_of_not_lt hnext), hnext]
  -- a bit that is flipped has a flipped bit below it
  have himp : b.getLsbD (i + 1) ≠ (b + 1).getLsbD (i + 1) → b.getLsbD i ≠ (b + 1).getLsbD i :=
    fun h ↦ (getLsbD_add_one_ne_iff hi).mpr fun j hj ↦ (hflip.mp h).2 j (Nat.lt_succ_of_lt hj)
  rw [CarryEnds, getLsbD_bin2gray, getLsbD_bin2gray, ← hflip, ← getLsbD_add_one_ne_iff hi]
  revert himp
  generalize b.getLsbD i = x, b.getLsbD (i + 1) = y, (b + 1).getLsbD i = x',
    (b + 1).getLsbD (i + 1) = y'
  decide +revert

/-- A carry ends in one bit. -/
theorem existsUnique_carryEnds (hk : 1 ≤ k) (b : BitVec k) : ∃! i, i < k ∧ CarryEnds b i := by
  classical
  have hex : ∃ i, ¬(i + 1 < k ∧ Carries b (i + 1)) := ⟨k, fun h ↦ absurd h.1 (by omega)⟩
  -- the first bit that is not carried out of
  have hbelow : ∀ i, i < Nat.find hex → i + 1 < k ∧ Carries b (i + 1) :=
    fun i hi ↦ not_not.mp (Nat.find_min hex hi)
  refine ⟨Nat.find hex, ⟨?_, ?_, Nat.find_spec hex⟩, ?_⟩
  · cases hfind : Nat.find hex with
    | zero => exact hk
    | succ i => exact (hbelow i (by omega)).1
  · cases hfind : Nat.find hex with
    | zero => exact fun j hj ↦ absurd hj (Nat.not_lt_zero j)
    | succ i => exact (hbelow i (by omega)).2
  · rintro i ⟨hi, hcarry, hend⟩
    refine Nat.le_antisymm (Nat.le_of_not_lt fun hlt ↦ ?_) (Nat.find_min' hex hend)
    refine Nat.find_spec hex ⟨by omega, fun j hj ↦ hcarry j (by omega)⟩

/-! ## Sampling -/

/-- A value of which every bit was taken before or after the pointer has changed. -/
def SampledBetween (g g' s : BitVec k) : Prop :=
  ∀ i < k, s.getLsbD i = g.getLsbD i ∨ s.getLsbD i = g'.getLsbD i

theorem SampledBetween.eq_or_eq {g g' s : BitVec k} (h : SampledBetween g g' s)
    (hone : ∃! i, i < k ∧ g.getLsbD i ≠ g'.getLsbD i) : s = g ∨ s = g' := by
  obtain ⟨i, ⟨hi, -⟩, hunique⟩ := hone
  have hother : ∀ j, j < k → j ≠ i → g.getLsbD j = g'.getLsbD j := fun j hj hji ↦
    by_contra fun hne ↦ hji (hunique j ⟨hj, hne⟩)
  refine (h i hi).imp (fun hbit ↦ ?_) fun hbit ↦ ?_
  · apply BitVec.eq_of_getLsbD_eq
    intro j hj
    by_cases hji : j = i
    · rw [hji, hbit]
    · exact (h j hj).elim id fun hj' ↦ hj'.trans (hother j hj hji).symm
  · apply BitVec.eq_of_getLsbD_eq
    intro j hj
    by_cases hji : j = i
    · rw [hji, hbit]
    · exact (h j hj).elim (fun hj' ↦ hj'.trans (hother j hj hji)) id

/-- **Pointers in Gray code.** The conversions are inverse to each other, and the codes of a pointer
and of the next one, which may be the first, differ in exactly one bit; so the pointer that the
other clock samples is the old one or the new one. -/
theorem gray_pointer (hk : 1 ≤ k) (b : BitVec k) :
    gray2bin (bin2gray b) = b ∧ bin2gray (gray2bin b) = b
      ∧ (∃! i, i < k ∧ (bin2gray b).getLsbD i ≠ (bin2gray (b + 1)).getLsbD i)
      ∧ ∀ s, SampledBetween (bin2gray b) (bin2gray (b + 1)) s →
        gray2bin s = b ∨ gray2bin s = b + 1 := by
  have hone : ∃! i, i < k ∧ (bin2gray b).getLsbD i ≠ (bin2gray (b + 1)).getLsbD i := by
    have hends : ∀ i, i < k ∧ (bin2gray b).getLsbD i ≠ (bin2gray (b + 1)).getLsbD i
        ↔ i < k ∧ CarryEnds b i := fun i ↦ and_congr_right bin2gray_add_one_ne_iff
    rw [existsUnique_congr hends]
    exact existsUnique_carryEnds hk b
  refine ⟨gray2bin_bin2gray b, bin2gray_gray2bin b, hone, fun s hs ↦ ?_⟩
  refine (hs.eq_or_eq hone).imp (fun h ↦ ?_) fun h ↦ ?_
  · rw [h, gray2bin_bin2gray]
  · rw [h, gray2bin_bin2gray]

/-- A pointer of two bits, at the wrap. -/
theorem gray_pointer_wrap :
    1 ≤ 2 ∧ (3 : BitVec 2) + 1 = 0
      ∧ gray2bin (bin2gray (3 : BitVec 2)) = 3
      ∧ ∃! i, i < 2 ∧ (bin2gray (3 : BitVec 2)).getLsbD i
        ≠ (bin2gray ((3 : BitVec 2) + 1)).getLsbD i := by
  obtain ⟨hdecode, -, hone, -⟩ := gray_pointer (by decide) (3 : BitVec 2)
  exact ⟨by decide, rfl, hdecode, hone⟩

end FpgaOs.AxiRab
