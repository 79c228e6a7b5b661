import FpgaOs.Alloc.Config
import Mathlib.Logic.Function.Iterate
import Mathlib.Order.Bounds.Basic

/-!
# The logarithm helpers

`log2` finds the highest set bit of a word by halving. The window in which the bit can be is always
at the top of the word: when its upper half is empty, the word is shifted up by as many bits. So the
number of leading zeros of what is left of the word is smaller than the window, and it is also what
is still to be taken from the result; when the window has one bit left, it is zero.
-/

namespace FpgaOs.Alloc

variable {W : ℕ}

/-! ## The code -/

/-- The variables of the search loop. -/
structure Log2State (W : ℕ) where
  num : BitVec W
  shift : BitVec W
  word : BitVec W

namespace Log2State

/-- Before the loop. -/
def start (word : BitVec W) : Log2State W :=
  ⟨BitVec.ofNat W (W - 1), BitVec.ofNat W (W >>> 1), word⟩

/-- A round of the loop. -/
def round (s : Log2State W) : Log2State W :=
  if s.word &&& (BitVec.allOnes W <<< (W - s.shift.toNat)) = 0 then
    ⟨s.num - s.shift, s.shift >>> 1, s.word <<< s.shift.toNat⟩
  else ⟨s.num, s.shift >>> 1, s.word⟩

end Log2State

/-- `Buddy::order_base_2_hls`. -/
def orderBase2Hls (n : BitVec 32) : BitVec 32 :=
  if 1#32 < n then log2Loop 32 (32 - 1) (32 >>> 1) (n - 1) + 1 else 0

/-! ## The search -/

/-- The mask of the test covers the bits from `m` on. -/
theorem and_allOnes_shiftLeft_eq_zero_iff {word : BitVec W} {m : ℕ} :
    word &&& (BitVec.allOnes W <<< m) = 0 ↔ word.toNat < 2 ^ m := by
  have hbit (i : ℕ) : (word &&& (BitVec.allOnes W <<< m)).getLsbD i
      = (word.getLsbD i && decide (m ≤ i)) := by
    by_cases hi : i < W
    · by_cases him : m ≤ i
      · simp [hi, him]
      · simp [him, show i < m from by omega]
    · rw [BitVec.getLsbD_of_ge _ i (Nat.le_of_not_lt hi), BitVec.getLsbD_of_ge _ i
        (Nat.le_of_not_lt hi), Bool.false_and]
  constructor
  · intro h
    refine Nat.lt_pow_two_of_testBit _ fun i hi ↦ ?_
    have hzero := hbit i
    rw [h, BitVec.ofNat_eq_ofNat, BitVec.getLsbD_zero, decide_eq_true hi, Bool.and_true] at hzero
    exact hzero.symm
  · intro h
    apply BitVec.eq_of_getLsbD_eq
    intro i hi
    rw [hbit, BitVec.ofNat_eq_ofNat, BitVec.getLsbD_zero]
    by_cases him : m ≤ i
    · have hlt : word.toNat < 2 ^ i := h.trans_le (Nat.pow_le_pow_right (by decide) him)
      rw [BitVec.getLsbD, Nat.testBit_lt_two_pow hlt, Bool.false_and]
    · rw [decide_eq_false him, Bool.and_false]

theorem toNat_shiftRight_one {shift : BitVec W} {e : ℕ} (h : shift.toNat = 2 ^ e) :
    (shift >>> 1).toNat = 2 ^ e / 2 := by
  rw [BitVec.toNat_ushiftRight, h, Nat.shiftRight_eq_div_pow, pow_one]

theorem toNat_shiftLeft_of_lt {word : BitVec W} {s : ℕ} (hs : s ≤ W)
    (h : word.toNat < 2 ^ (W - s)) : (word <<< s).toNat = word.toNat * 2 ^ s := by
  rw [BitVec.toNat_shiftLeft, Nat.shiftLeft_eq, Nat.mod_eq_of_lt]
  calc word.toNat * 2 ^ s < 2 ^ (W - s) * 2 ^ s := Nat.mul_lt_mul_of_pos_right h (by positivity)
    _ = 2 ^ W := by rw [← pow_add, Nat.sub_add_cancel hs]

theorem log_mul_two_pow {n : ℕ} (hn : n ≠ 0) (s : ℕ) :
    Nat.log 2 (n * 2 ^ s) = Nat.log 2 n + s := by
  induction s with
  | zero => rw [pow_zero, mul_one, add_zero]
  | succ s ih =>
    rw [pow_succ, ← mul_assoc, Nat.log_mul_base (by decide) (by positivity), ih, add_assoc]

/-- With a window of `2 ^ e` bits the loop takes the number of leading zeros from `num`. -/
theorem toNat_log2Loop {e fuel : ℕ} (hfuel : e < fuel) (he : 2 ^ e ≤ W) {num shift word : BitVec W}
    (hshift : shift.toNat = 2 ^ e / 2) (hword : 2 ^ (W - 2 ^ e) ≤ word.toNat)
    (hnum : W - 1 ≤ num.toNat + Nat.log 2 word.toNat) :
    (log2Loop fuel num shift word).toNat + (W - 1) = num.toNat + Nat.log 2 word.toNat := by
  induction e generalizing fuel num shift word with
  | zero =>
    obtain ⟨fuel, rfl⟩ := Nat.exists_eq_add_of_lt hfuel
    -- the window is the highest bit, which is set
    have hzero : shift = 0 := BitVec.eq_of_toNat_eq hshift
    have hlog : Nat.log 2 word.toNat = W - 1 := by
      refine Nat.log_eq_of_pow_le_of_lt_pow hword ?_
      rw [Nat.sub_add_cancel (show 1 ≤ W from he)]
      exact word.isLt
    rw [log2Loop, if_pos hzero, hlog]
  | succ e ih =>
    obtain ⟨fuel, rfl⟩ := Nat.exists_eq_add_of_lt hfuel
    have hhalf : shift.toNat = 2 ^ e := by rw [hshift, pow_succ, Nat.mul_div_cancel _ Nat.two_pos]
    have hne : shift ≠ 0 := fun h ↦ by
      rw [h] at hhalf
      exact absurd hhalf.symm (Nat.two_pow_pos e).ne'
    have hlow : 2 ^ e ≤ W := (Nat.pow_le_pow_right (by decide) (Nat.le_succ e)).trans he
    have hnext := toNat_shiftRight_one hhalf
    rw [log2Loop, if_neg hne, hhalf]
    split
    · next htest =>
      have hempty := and_allOnes_shiftLeft_eq_zero_iff.mp htest
      have hpos : word.toNat ≠ 0 := (Nat.lt_of_lt_of_le (Nat.two_pow_pos _) hword).ne'
      have hup := toNat_shiftLeft_of_lt hlow hempty
      have hlogup := log_mul_two_pow hpos (2 ^ e)
      have hlog : Nat.log 2 word.toNat < W - 2 ^ e := Nat.log_lt_of_lt_pow hpos hempty
      have hsub : (num - shift).toNat + 2 ^ e = num.toNat := by
        rw [BitVec.toNat_sub_of_le (BitVec.le_def.mpr (by omega)), hhalf, Nat.sub_add_cancel]
        omega
      have hnum' : W - 1 ≤ (num - shift).toNat + Nat.log 2 (word <<< 2 ^ e).toNat := by
        rw [hup, hlogup]
        omega
      have hword' : 2 ^ (W - 2 ^ e) ≤ (word <<< 2 ^ e).toNat := by
        rw [hup]
        calc 2 ^ (W - 2 ^ e) = 2 ^ (W - 2 ^ (e + 1)) * 2 ^ 2 ^ e := by
              rw [← pow_add]
              congr 1
              rw [pow_succ] at he ⊢
              omega
          _ ≤ word.toNat * 2 ^ 2 ^ e := Nat.mul_le_mul_right _ hword
      rw [ih (by omega) hlow hnext hword' hnum', hup, hlogup]
      omega
    · next htest =>
      have hfull := Nat.le_of_not_lt fun hlt ↦ htest (and_allOnes_shiftLeft_eq_zero_iff.mpr hlt)
      exact ih (by omega) hlow hnext hfull hnum

/-- **The logarithm.** -/
theorem toNat_log2 (hW : W.isPowerOfTwo) {word : BitVec W} (h : word.toNat ≠ 0) :
    (log2 word).toNat = Nat.log 2 word.toNat := by
  obtain ⟨k, rfl⟩ := hW
  have hpos := Nat.two_pow_pos k
  have hlt : 2 ^ k < 2 ^ 2 ^ k := Nat.lt_two_pow_self
  have hnum : (BitVec.ofNat (2 ^ k) (2 ^ k - 1)).toNat = 2 ^ k - 1 := by
    rw [BitVec.toNat_ofNat, Nat.mod_eq_of_lt (by omega)]
  have hshift : (BitVec.ofNat (2 ^ k) (2 ^ k >>> 1)).toNat = 2 ^ k / 2 := by
    rw [BitVec.toNat_ofNat, Nat.shiftRight_eq_div_pow, Nat.mod_eq_of_lt (by omega), pow_one]
  -- at first the window is the whole word
  have hword : 2 ^ (2 ^ k - 2 ^ k) ≤ word.toNat := by
    rw [Nat.sub_self]
    exact Nat.one_le_iff_ne_zero.mpr h
  have hloop := toNat_log2Loop Nat.lt_two_pow_self le_rfl hshift hword
    (hnum.ge.trans (Nat.le_add_right _ _))
  rw [hnum, Nat.add_comm (2 ^ k - 1)] at hloop
  exact Nat.add_right_cancel hloop

theorem orderBase2_of_le {n : BitVec W} (h : n.toNat ≤ 1) (hW : W ≠ 0) : orderBase2 n = 0 := by
  rw [orderBase2, if_neg]
  rw [BitVec.lt_def, BitVec.toNat_ofNat, Nat.mod_eq_of_lt (Nat.one_lt_two_pow hW)]
  omega

theorem toNat_orderBase2 (hW : W.isPowerOfTwo) {n : BitVec W} (h : 1 < n.toNat) :
    (orderBase2 n).toNat = Nat.log 2 (n.toNat - 1) + 1 := by
  have hpos : 0 < W := Nat.pos_of_isPowerOfTwo hW
  have hone : (1#W).toNat = 1 := by
    rw [BitVec.toNat_ofNat, Nat.mod_eq_of_lt (Nat.one_lt_two_pow hpos.ne')]
  have hsub : (n - 1#W).toNat = n.toNat - 1 := by
    rw [BitVec.toNat_sub_of_le (BitVec.le_def.mpr (hone.trans_le h.le)), hone]
  have hlog : Nat.log 2 (n.toNat - 1) < W := Nat.log_lt_of_lt_pow (by omega) (by omega)
  -- the order is at most the width, which a word of the width can hold
  have hW' : W < 2 ^ W := Nat.lt_two_pow_self
  have hval : (log2 (n - 1#W)).toNat = Nat.log 2 (n.toNat - 1) := by
    rw [toNat_log2 hW (by omega), hsub]
  rw [orderBase2, if_pos (by rw [BitVec.lt_def, hone]; exact h)]
  calc (log2 (n - 1#W) + 1#W).toNat = (Nat.log 2 (n.toNat - 1) + 1) % 2 ^ W := by
        rw [BitVec.toNat_add, hval, hone]
    _ = Nat.log 2 (n.toNat - 1) + 1 := Nat.mod_eq_of_lt (by omega)

theorem isLeast_orderBase2 (hW : W.isPowerOfTwo) (n : BitVec W) :
    IsLeast {j | n.toNat ≤ 2 ^ j} (orderBase2 n).toNat := by
  have hpos := Nat.pos_of_isPowerOfTwo hW
  rcases Nat.lt_or_ge 1 n.toNat with h | h
  · rw [toNat_orderBase2 hW h]
    constructor
    · have hlt : n.toNat - 1 < 2 ^ (Nat.log 2 (n.toNat - 1) + 1) :=
        Nat.lt_pow_succ_log_self (by decide) _
      exact Nat.le_of_pred_lt hlt
    · intro j hj
      have hlt : n.toNat - 1 < 2 ^ j := Nat.lt_of_lt_of_le (by omega) hj
      exact Nat.log_lt_of_lt_pow (by omega) hlt
  · rw [orderBase2_of_le h hpos.ne', BitVec.ofNat_eq_ofNat, BitVec.toNat_ofNat, Nat.zero_mod]
    exact ⟨h, fun _ _ ↦ Nat.zero_le _⟩

/-! ## The rounds -/

namespace Log2State

theorem toNat_shift_start (word : BitVec W) : (start word).shift.toNat = W / 2 := by
  have hlt : W < 2 ^ W := Nat.lt_two_pow_self
  rw [start, BitVec.toNat_ofNat, Nat.shiftRight_eq_div_pow, Nat.mod_eq_of_lt (by omega), pow_one]

theorem toNat_shift_round (s : Log2State W) : s.round.shift.toNat = s.shift.toNat / 2 := by
  rw [round]
  split
  · exact BitVec.toNat_ushiftRight _ _
  · exact BitVec.toNat_ushiftRight _ _

theorem toNat_shift_iterate (s : Log2State W) (j : ℕ) :
    (round^[j] s).shift.toNat = s.shift.toNat / 2 ^ j := by
  induction j with
  | zero => rw [Function.iterate_zero, id, pow_zero, Nat.div_one]
  | succ j ih =>
    rw [Function.iterate_succ_apply', toNat_shift_round, ih, Nat.div_div_eq_div_mul, pow_succ]

/-- Once the loop has ended, further rounds would change nothing. -/
theorem round_of_shift_eq_zero {s : Log2State W} (h : s.shift = 0) : s.round = s := by
  obtain ⟨num, shift, word⟩ := s
  dsimp only at h
  rw [h, round]
  simp

theorem log2Loop_of_shift_eq_zero {shift : BitVec W} (h : shift = 0) (fuel : ℕ)
    (num word : BitVec W) : log2Loop fuel num shift word = num := by
  cases fuel with
  | zero => rfl
  | succ fuel => rw [log2Loop, if_pos h]

theorem log2Loop_eq_iterate {s : Log2State W} {j fuel : ℕ} (hfuel : j ≤ fuel)
    (h : (round^[j] s).shift = 0) : log2Loop fuel s.num s.shift s.word = (round^[j] s).num := by
  induction j generalizing s fuel with
  | zero =>
    exact log2Loop_of_shift_eq_zero h _ _ _
  | succ j ih =>
    obtain ⟨fuel, rfl⟩ := Nat.exists_eq_add_of_le hfuel
    rw [Function.iterate_succ_apply] at h ⊢
    rw [← ih (Nat.le_add_right j fuel) h, Nat.add_right_comm, log2Loop]
    by_cases hshift : s.shift = 0
    · -- the loop had ended before
      rw [if_pos hshift, round_of_shift_eq_zero hshift, log2Loop_of_shift_eq_zero hshift]
    · rw [if_neg hshift, round]
      split
      · rfl
      · rfl

end Log2State

/-- **The logarithm helpers.** -/
theorem log2_helpers (hW : W.isPowerOfTwo) (n : BitVec W) :
    (1 ≤ n.toNat → 2 ^ (log2 n).toNat ≤ n.toNat ∧ n.toNat < 2 ^ ((log2 n).toNat + 1))
      ∧ IsLeast {j | n.toNat ≤ 2 ^ j} (orderBase2 n).toNat
      ∧ (n.toNat ≤ 1 → orderBase2 n = 0)
      ∧ (∀ j, (Log2State.round^[j] (.start n)).shift = 0 ↔ Nat.log 2 W ≤ j)
      ∧ log2 n = (Log2State.round^[Nat.log 2 W] (.start n)).num
      ∧ ∀ m, orderBase2Hls m = orderBase2 m := by
  have hpos := Nat.pos_of_isPowerOfTwo hW
  have hrounds (j : ℕ) : (Log2State.round^[j] (.start n)).shift = 0 ↔ Nat.log 2 W ≤ j := by
    rw [← BitVec.toNat_inj, Log2State.toNat_shift_iterate, Log2State.toNat_shift_start,
      BitVec.ofNat_eq_ofNat, BitVec.toNat_ofNat, Nat.zero_mod, Nat.div_div_eq_div_mul, ← pow_succ',
      Nat.div_eq_zero_iff_lt (Nat.two_pow_pos _), ← Nat.log_lt_iff_lt_pow (by decide) hpos.ne',
      Nat.lt_succ_iff]
  refine ⟨fun h ↦ ?_, isLeast_orderBase2 hW n, fun h ↦ orderBase2_of_le h hpos.ne', hrounds, ?_,
    fun m ↦ rfl⟩
  · rw [toNat_log2 hW (by omega)]
    exact ⟨Nat.pow_log_le_self 2 (by omega), Nat.lt_pow_succ_log_self (by decide) _⟩
  · exact Log2State.log2Loop_eq_iterate (Nat.log_le_self 2 W) ((hrounds _).mpr le_rfl)

/-- In a byte. -/
theorem log2_helpers_byte : Nat.isPowerOfTwo 8 ∧ 1 ≤ (100 : BitVec 8).toNat
    ∧ 2 ^ (log2 (100 : BitVec 8)).toNat ≤ (100 : BitVec 8).toNat
    ∧ IsLeast {j | (100 : BitVec 8).toNat ≤ 2 ^ j} (orderBase2 (100 : BitVec 8)).toNat := by
  have hW : Nat.isPowerOfTwo 8 := ⟨3, rfl⟩
  obtain ⟨hlog, horder, -⟩ := log2_helpers hW (100 : BitVec 8)
  exact ⟨hW, by decide, (hlog (by decide)).1, horder⟩

end FpgaOs.Alloc
