import Mathlib.Data.Nat.Notation
import Mathlib.Tactic.Basic

/-!
# Fields of a machine word

The range operators of an arbitrary precision word: `x(hi, lo)` on the right of an assignment is
`slice`, on the left it is `setSlice`; a single bit is a slice of width one. A word is never
compared with another as a whole in what follows, so the lemmas only say what a later read of a
field sees: the value last stored in it, and nothing of stores to other fields.
-/

namespace FpgaOs.BitField

variable {n w : ℕ}

/-- `x(off + w - 1, off)`. -/
def slice (x : BitVec n) (off w : ℕ) : BitVec w := x.extractLsb' off w

/-- `x(off + w - 1, off) = v`. -/
def setSlice (x : BitVec n) (off : ℕ) (v : BitVec w) : BitVec n :=
  (x &&& ~~~((BitVec.allOnes w).setWidth n <<< off)) ||| (v.setWidth n <<< off)

/-- `x[i] = b`. -/
def setBit (x : BitVec n) (i : ℕ) (b : Bool) : BitVec n := setSlice x i (BitVec.ofBool b)

theorem getLsbD_setSlice {x : BitVec n} {off : ℕ} {v : BitVec w} (h : off + w ≤ n) (i : ℕ) :
    (setSlice x off v).getLsbD i
      = if off ≤ i ∧ i < off + w then v.getLsbD (i - off) else x.getLsbD i := by
  rw [setSlice, BitVec.getLsbD_or, BitVec.getLsbD_and, BitVec.getLsbD_not, BitVec.getLsbD_shiftLeft,
    BitVec.getLsbD_shiftLeft, BitVec.getLsbD_setWidth, BitVec.getLsbD_setWidth,
    BitVec.getLsbD_allOnes]
  by_cases hin : off ≤ i ∧ i < off + w
  · rw [if_pos hin]
    have h1 : i < n := by omega
    have h2 : i - off < n := by omega
    have h3 : i - off < w := by omega
    simp [h1, h2, h3, Nat.not_lt.mpr hin.1]
  · rw [if_neg hin]
    by_cases hn : i < n
    · by_cases hlow : i < off
      · simp [hn, hlow]
      · have h3 : ¬i - off < w := by omega
        simp [hn, hlow, h3, BitVec.getLsbD_of_ge v (i - off) (by omega)]
    · simp [hn, BitVec.getLsbD_of_ge x i (by omega)]

theorem slice_setSlice_self {x : BitVec n} {off : ℕ} {v : BitVec w} (h : off + w ≤ n) :
    slice (setSlice x off v) off w = v := by
  apply BitVec.eq_of_getLsbD_eq
  intro i hi
  rw [slice, BitVec.getLsbD_extractLsb', decide_eq_true hi, Bool.true_and, getLsbD_setSlice h,
    if_pos ⟨Nat.le_add_right off i, Nat.add_lt_add_left hi off⟩, Nat.add_sub_cancel_left]

/-- A store to one field does not show in another. -/
theorem slice_setSlice_of_disjoint {x : BitVec n} {off off' w' : ℕ} {v : BitVec w} (h : off + w ≤ n)
    (hd : off' + w' ≤ off ∨ off + w ≤ off') :
    slice (setSlice x off v) off' w' = slice x off' w' := by
  apply BitVec.eq_of_getLsbD_eq
  intro i hi
  rw [slice, slice, BitVec.getLsbD_extractLsb', BitVec.getLsbD_extractLsb', getLsbD_setSlice h,
    if_neg (by omega)]

/-- Storing what is there already changes nothing. -/
theorem setSlice_slice {x : BitVec n} {off w : ℕ} (h : off + w ≤ n) :
    setSlice x off (slice x off w) = x := by
  apply BitVec.eq_of_getLsbD_eq
  intro i hi
  rw [getLsbD_setSlice h]
  split
  · next hin =>
    rw [slice, BitVec.getLsbD_extractLsb', decide_eq_true (Nat.sub_lt_left_of_lt_add hin.1 hin.2),
      Bool.true_and, Nat.add_sub_cancel' hin.1]
  · rfl

theorem getLsbD_setBit {x : BitVec n} {i : ℕ} {b : Bool} (h : i < n) (j : ℕ) :
    (setBit x i b).getLsbD j = if j = i then b else x.getLsbD j := by
  rw [setBit, getLsbD_setSlice h]
  by_cases hj : j = i
  · subst hj
    simp
  · rw [if_neg hj, if_neg (by omega)]

end FpgaOs.BitField
