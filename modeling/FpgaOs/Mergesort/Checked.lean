import FpgaOs.Lib.Loop
import FpgaOs.Mergesort.Merge

/-!
# The sort with its bounds

Here MERGE_SORT and `merge` run with everything that can go wrong in them: an index of one of the
three arrays that is out of bounds, an `int` that overflows, a loop that does not end. The size of
the scratch array is a parameter. Whatever the size, if a merge finds its two blocks inside the
array then no access goes wrong and the blocks are merged as `mergeLists` merges them, so a pass and
the whole sort do what the unchecked ones do.

What limits the size is the type of the counters: the last round of a pass leaves the counter at the
size of the array, and from 2 ^ 31 on an `int` does not hold it.
-/

namespace FpgaOs.Mergesort.Checked

open Loop

/-- `scratch_arr`, and the two static arrays of `merge`. -/
structure Arrays where
  scratchArr : Scratch
  leftList : Scratch
  rightList : Scratch

/-- The arrays and the variables of `merge`. -/
structure Merging where
  arrays : Arrays
  lInd : ℤ
  rInd : ℤ
  arrInd : ℤ

/-! ## The code -/

section Code

variable (size : ℕ)

/-- `scratch_arr[l + arr_ind] = x`. -/
def Merging.put (l : ℤ) (s : Merging) (x : BitVec 32) : Option Merging := do
  let scratchArr ← store s.arrays.scratchArr size (← int (l + s.arrInd)) x
  return { s with arrays := { s.arrays with scratchArr } }

/-- A round of the loop that fills the two lists. -/
def fillBody (l m : ℤ) (s : Arrays × ℤ) : Option (Arrays × ℤ) := do
  let left ← load s.1.scratchArr size (← int (l + s.2))
  let leftList ← store s.1.leftList (size / 2) s.2 left
  let right ← load s.1.scratchArr size (← int ((← int (m + 1)) + s.2))
  let rightList ← store s.1.rightList (size / 2) s.2 right
  let i ← int (s.2 + 1)
  return ({ s.1 with leftList, rightList }, i)

/-- A round of the loop that takes the smaller word. -/
def mergeBody (l : ℤ) (s : Merging) : Option Merging := do
  let left ← load s.arrays.leftList (size / 2) s.lInd
  let right ← load s.arrays.rightList (size / 2) s.rInd
  let s ← if left ≤ right then do
      let s ← s.put size l left
      pure { s with lInd := ← int (s.lInd + 1) }
    else do
      let s ← s.put size l right
      pure { s with rInd := ← int (s.rInd + 1) }
  return { s with arrInd := ← int (s.arrInd + 1) }

/-- A round of the loop that writes what is left in the left list. -/
def leftBody (l : ℤ) (s : Merging) : Option Merging := do
  let left ← load s.arrays.leftList (size / 2) s.lInd
  let s ← s.put size l left
  return { s with lInd := ← int (s.lInd + 1), arrInd := ← int (s.arrInd + 1) }

/-- A round of the loop that writes what is left in the right list. -/
def rightBody (l : ℤ) (s : Merging) : Option Merging := do
  let right ← load s.arrays.rightList (size / 2) s.rInd
  let s ← s.put size l right
  return { s with rInd := ← int (s.rInd + 1), arrInd := ← int (s.arrInd + 1) }

/-- `merge`, which does not use `r`. -/
def merge (fuel : ℕ) (arrays : Arrays) (l m _r : ℤ) : Option Arrays := do
  let subArrSize ← int ((← int (m - l)) + 1)
  let (arrays, _) ← whileLoop (fun s ↦ s.2 < subArrSize) (fillBody size l m) fuel (arrays, 0)
  let s ← whileLoop (fun s ↦ s.lInd < subArrSize ∧ s.rInd < subArrSize) (mergeBody size l) fuel
    ⟨arrays, 0, 0, 0⟩
  let s ← whileLoop (fun s ↦ s.lInd < subArrSize) (leftBody size l) fuel s
  let s ← whileLoop (fun s ↦ s.rInd < subArrSize) (rightBody size l) fuel s
  return s.arrays

/-- A round of the inner loop of MERGE_SORT. -/
def passBody (fuel : ℕ) (subsize : ℤ) (s : Arrays × ℤ) : Option (Arrays × ℤ) := do
  let mid ← int ((← int (s.2 + subsize)) - 1)
  let r ← int ((← int (s.2 + (← int (2 * subsize)))) - 1)
  let arrays ← merge size fuel s.1 s.2 mid r
  let l ← int (s.2 + (← int (2 * subsize)))
  return (arrays, l)

/-- The inner loop of MERGE_SORT. -/
def passLoop (fuel : ℕ) (subsize : ℤ) (s : Arrays × ℤ) : Option (Arrays × ℤ) :=
  whileLoop (fun s ↦ s.2 < (size : ℤ) - 1) (passBody size fuel subsize) fuel s

/-- A round of the outer loop of MERGE_SORT. -/
def sortBody (fuel : ℕ) (s : Arrays × ℤ) : Option (Arrays × ℤ) := do
  let (arrays, _) ← passLoop size fuel s.2 (s.1, 0)
  let subsize ← int (s.2 * 2)
  return (arrays, subsize)

/-- MERGE_SORT. -/
def mergeSort (fuel : ℕ) (arrays : Arrays) : Option Arrays := do
  let (arrays, _) ← whileLoop (fun s ↦ s.2 < (size : ℤ)) (sortBody size fuel) fuel (arrays, 1)
  return arrays

end Code

/-! ## One round -/

section Rounds

variable {size l m i lInd rInd arrInd : ℕ} (hsize : size ≤ 2 ^ 30)

include hsize

theorem put_bind {β : Type} (arrays : Arrays) (lInd rInd : ℤ) (h : l + arrInd < size)
    (x : BitVec 32) (f : Merging → Option β) :
    (Merging.put size l ⟨arrays, lInd, rInd, arrInd⟩ x >>= f)
      = f ⟨⟨Function.update arrays.scratchArr (l + arrInd) x, arrays.leftList,
        arrays.rightList⟩, lInd, rInd, arrInd⟩ := by
  simp (disch := omega) only [Merging.put, int_bind, store_add_bind]
  rfl

theorem fillBody_natCast (arrays : Arrays) (hi : i < size / 2) (hl : l + i < size)
    (hm : m + i < size) :
    fillBody size l ((m : ℤ) - 1) (arrays, i)
      = some (⟨arrays.scratchArr, Function.update arrays.leftList i (arrays.scratchArr (l + i)),
        Function.update arrays.rightList i (arrays.scratchArr (m + i))⟩, (i : ℤ) + 1) := by
  simp (disch := omega) only [fillBody, int_bind, load_add_bind, store_bind,
    Int.sub_add_cancel]
  rfl

variable {arrays : Arrays}

theorem mergeBody_of_le (hl : lInd < size / 2) (hr : rInd < size / 2) (h : l + arrInd < size)
    (hle : arrays.leftList lInd ≤ arrays.rightList rInd) :
    mergeBody size l ⟨arrays, lInd, rInd, arrInd⟩
      = some ⟨⟨Function.update arrays.scratchArr (l + arrInd) (arrays.leftList lInd),
        arrays.leftList, arrays.rightList⟩, (lInd : ℤ) + 1, rInd, (arrInd : ℤ) + 1⟩ := by
  simp (disch := omega) only [mergeBody, load_bind, if_pos hle, put_bind hsize, int_bind, pure_bind]
  rfl

theorem mergeBody_of_gt (hl : lInd < size / 2) (hr : rInd < size / 2) (h : l + arrInd < size)
    (hgt : ¬arrays.leftList lInd ≤ arrays.rightList rInd) :
    mergeBody size l ⟨arrays, lInd, rInd, arrInd⟩
      = some ⟨⟨Function.update arrays.scratchArr (l + arrInd) (arrays.rightList rInd),
        arrays.leftList, arrays.rightList⟩, lInd, (rInd : ℤ) + 1, (arrInd : ℤ) + 1⟩ := by
  simp (disch := omega) only [mergeBody, load_bind, if_neg hgt, put_bind hsize, int_bind, pure_bind]
  rfl

theorem leftBody_natCast (hl : lInd < size / 2) (h : l + arrInd < size) :
    leftBody size l ⟨arrays, lInd, rInd, arrInd⟩
      = some ⟨⟨Function.update arrays.scratchArr (l + arrInd) (arrays.leftList lInd),
        arrays.leftList, arrays.rightList⟩, (lInd : ℤ) + 1, rInd, (arrInd : ℤ) + 1⟩ := by
  simp (disch := omega) only [leftBody, load_bind, put_bind hsize, int_bind]
  rfl

theorem rightBody_natCast (hr : rInd < size / 2) (h : l + arrInd < size) :
    rightBody size l ⟨arrays, lInd, rInd, arrInd⟩
      = some ⟨⟨Function.update arrays.scratchArr (l + arrInd) (arrays.rightList rInd),
        arrays.leftList, arrays.rightList⟩, lInd, (rInd : ℤ) + 1, (arrInd : ℤ) + 1⟩ := by
  simp (disch := omega) only [rightBody, load_bind, put_bind hsize, int_bind]
  rfl

end Rounds

/-! ## The loops of `merge` -/

/-- The first `i` words of the two blocks of `n` words at `l` have been copied. -/
structure Filled (arr : Scratch) (n l i : ℕ) (s : Arrays × ℤ) : Prop where
  ind : s.2 = i
  scratchArr : s.1.scratchArr = arr
  left : ∀ k, k < i → s.1.leftList k = arr (l + k)
  right : ∀ k, k < i → s.1.rightList k = arr (l + n + k)

/-- The words that are still to be written are what is left of the two lists: what the loops of
`mergeLists` write from here on is `result`. -/
structure Merges (left right : Scratch) (n l : ℕ) (result : Scratch) (a b : ℕ) (s : Merging) :
    Prop where
  lInd : s.lInd = a
  rInd : s.rInd = b
  arrInd : s.arrInd = (a + b : ℕ)
  leftList : s.arrays.leftList = left
  rightList : s.arrays.rightList = right
  result : mergeLists left right n l s.arrays.scratchArr a b (a + b) = result

section Loops

variable {size n l fuel : ℕ} (hsize : size ≤ 2 ^ 30) (hend : l + 2 * n ≤ size)

theorem update_of_lt_succ {arr list : Scratch} {d i : ℕ} (h : ∀ k, k < i → list k = arr (d + k))
    (k : ℕ) (hk : k < i + 1) :
    Function.update list i (arr (d + i)) k = arr (d + k) := by
  rcases Nat.lt_or_eq_of_le (Nat.le_of_lt_succ hk) with hlt | rfl
  · rw [Function.update_of_ne (by omega), h k hlt]
  · rw [Function.update_self]

include hsize hend

theorem Filled.fillBody {arr : Scratch} {i : ℕ} {s : Arrays × ℤ} (h : Filled arr n l i s)
    (hi : i < n) :
    ∃ s', Checked.fillBody size l (((l + n : ℕ) : ℤ) - 1) s = some s'
      ∧ Filled arr n l (i + 1) s' := by
  obtain ⟨⟨scratchArr, leftList, rightList⟩, ind⟩ := s
  obtain ⟨rfl, rfl, hleft, hright⟩ := h
  refine ⟨_, fillBody_natCast hsize _ (by omega) (by omega) (by omega), ?_⟩
  exact ⟨rfl, rfl, update_of_lt_succ hleft, update_of_lt_succ hright⟩

theorem fill_spec (hfuel : n < fuel) (arrays : Arrays) :
    ∃ left right i, whileLoop (fun s ↦ s.2 < (n : ℤ))
        (fillBody size l (((l + n : ℕ) : ℤ) - 1)) fuel (arrays, 0)
        = some (⟨arrays.scratchArr, left, right⟩, i)
      ∧ window left 0 n = window arrays.scratchArr l (l + n)
      ∧ window right 0 n = window arrays.scratchArr (l + n) (l + 2 * n) := by
  obtain ⟨s', hrun, ⟨i, hi, hinv⟩, hexit⟩ := whileLoop_total
    (fun s : Arrays × ℤ ↦ s.2 < (n : ℤ))
    (fillBody size l (((l + n : ℕ) : ℤ) - 1))
    (fun s ↦ ∃ i, i ≤ n ∧ Filled arrays.scratchArr n l i s)
    (fun s ↦ ((n : ℤ) - s.2).toNat) fuel (by
      rintro s ⟨i, -, hinv⟩ hcond
      have hi : i < n := by have hind := hinv.ind; omega
      obtain ⟨s', hbody, hinv'⟩ := hinv.fillBody hsize hend hi
      exact ⟨s', hbody, ⟨i + 1, hi, hinv'⟩, by have h := hinv.ind; have h' := hinv'.ind; omega⟩)
    (s := (arrays, 0)) ⟨0, Nat.zero_le n, rfl, rfl, fun _ hk ↦ absurd hk (Nat.not_lt_zero _),
      fun _ hk ↦ absurd hk (Nat.not_lt_zero _)⟩ (by omega)
  obtain ⟨⟨scratchArr, left, right⟩, ind⟩ := s'
  obtain ⟨hind, hscratch, hleft, hright⟩ := hinv
  dsimp only at hind hscratch hleft hright hexit
  obtain rfl : i = n := by omega
  refine ⟨left, right, ind, by rw [hrun, hscratch], ?_, ?_⟩
  · rw [← window_add]
    exact window_congr fun k _ hk ↦ hleft k hk
  · rw [show l + 2 * i = l + i + i by omega, ← window_add]
    exact window_congr fun k _ hk ↦ hright k hk

variable {left right result : Scratch} {a b : ℕ} {s : Merging}

theorem Merges.mergeBody (h : Merges left right n l result a b s) (ha : a < n) (hb : b < n) :
    ∃ s', Checked.mergeBody size l s = some s'
      ∧ (Merges left right n l result (a + 1) b s'
        ∨ Merges left right n l result a (b + 1) s') := by
  obtain ⟨⟨scratchArr, leftList, rightList⟩, lInd, rInd, arrInd⟩ := s
  obtain ⟨rfl, rfl, rfl, rfl, rfl, hres⟩ := h
  by_cases hle : leftList a ≤ rightList b
  · have hind : ((a + b : ℕ) : ℤ) + 1 = (a + 1 + b : ℕ) := by omega
    refine ⟨_, mergeBody_of_le hsize (by omega) (by omega) (by omega) hle, Or.inl ?_⟩
    rw [mergeLists_of_le leftList rightList n l ⟨ha, hb⟩ hle] at hres
    exact ⟨rfl, rfl, hind, rfl, rfl, by rw [Nat.add_right_comm]; exact hres⟩
  · refine ⟨_, mergeBody_of_gt hsize (by omega) (by omega) (by omega) hle, Or.inr ?_⟩
    rw [mergeLists_of_gt leftList rightList n l ⟨ha, hb⟩ hle] at hres
    exact ⟨rfl, rfl, rfl, rfl, rfl, hres⟩

theorem Merges.leftBody (h : Merges left right n l result a b s) (ha : a < n) (hb : b = n) :
    ∃ s', Checked.leftBody size l s = some s' ∧ Merges left right n l result (a + 1) b s' := by
  obtain ⟨⟨scratchArr, leftList, rightList⟩, lInd, rInd, arrInd⟩ := s
  obtain ⟨rfl, rfl, rfl, rfl, rfl, hres⟩ := h
  have hind : ((a + b : ℕ) : ℤ) + 1 = (a + 1 + b : ℕ) := by omega
  refine ⟨_, leftBody_natCast hsize (by omega) (by omega), ?_⟩
  rw [mergeLists_of_left leftList rightList n l _ ha (by omega)] at hres
  exact ⟨rfl, rfl, hind, rfl, rfl, by rw [Nat.add_right_comm]; exact hres⟩

theorem Merges.rightBody (h : Merges left right n l result a b s) (ha : a = n) (hb : b < n) :
    ∃ s', Checked.rightBody size l s = some s' ∧ Merges left right n l result a (b + 1) s' := by
  obtain ⟨⟨scratchArr, leftList, rightList⟩, lInd, rInd, arrInd⟩ := s
  obtain ⟨rfl, rfl, rfl, rfl, rfl, hres⟩ := h
  refine ⟨_, rightBody_natCast hsize (by omega) (by omega), ?_⟩
  rw [mergeLists_of_right leftList rightList n l _ (by omega) hb] at hres
  exact ⟨rfl, rfl, rfl, rfl, rfl, hres⟩

theorem Merges.mergeLoop (h : Merges left right n l result 0 0 s) (hfuel : 2 * n < fuel) :
    ∃ s' a b, whileLoop (fun s ↦ s.lInd < (n : ℤ) ∧ s.rInd < (n : ℤ)) (Checked.mergeBody size l)
        fuel s = some s'
      ∧ Merges left right n l result a b s' ∧ a ≤ n ∧ b ≤ n ∧ (a = n ∨ b = n) := by
  obtain ⟨s', hrun, ⟨a, b, ha, hb, hinv⟩, hexit⟩ := whileLoop_total
    (fun s : Merging ↦ s.lInd < (n : ℤ) ∧ s.rInd < (n : ℤ))
    (Checked.mergeBody size l)
    (fun s ↦ ∃ a b, a ≤ n ∧ b ≤ n ∧ Merges left right n l result a b s)
    (fun s ↦ ((n : ℤ) - s.lInd).toNat + ((n : ℤ) - s.rInd).toNat) fuel (by
      rintro s ⟨a, b, -, -, hinv⟩ ⟨hl, hr⟩
      have hla := hinv.lInd
      have hrb := hinv.rInd
      have ha : a < n := by omega
      have hb : b < n := by omega
      obtain ⟨s', hbody, hinv' | hinv'⟩ := hinv.mergeBody hsize hend ha hb
      · have hla' := hinv'.lInd
        have hrb' := hinv'.rInd
        exact ⟨s', hbody, ⟨a + 1, b, ha, hb.le, hinv'⟩, by omega⟩
      · have hla' := hinv'.lInd
        have hrb' := hinv'.rInd
        exact ⟨s', hbody, ⟨a, b + 1, ha.le, hb, hinv'⟩, by omega⟩)
    ⟨0, 0, Nat.zero_le n, Nat.zero_le n, h⟩
    (by have hla := h.lInd; have hrb := h.rInd; omega)
  have hla := hinv.lInd
  have hrb := hinv.rInd
  exact ⟨s', a, b, hrun, hinv, ha, hb, by omega⟩

theorem Merges.leftLoop (h : Merges left right n l result a b s) (ha : a ≤ n)
    (hab : a = n ∨ b = n) (hfuel : n < fuel) :
    ∃ s', whileLoop (fun s ↦ s.lInd < (n : ℤ)) (Checked.leftBody size l) fuel s = some s'
      ∧ Merges left right n l result n b s' := by
  obtain ⟨s', hrun, ⟨a', ha', -, hinv⟩, hexit⟩ := whileLoop_total
    (fun s : Merging ↦ s.lInd < (n : ℤ)) (Checked.leftBody size l)
    (fun s ↦ ∃ a, a ≤ n ∧ (a = n ∨ b = n) ∧ Merges left right n l result a b s)
    (fun s ↦ ((n : ℤ) - s.lInd).toNat) fuel (by
      rintro s ⟨a, -, hab, hinv⟩ hl
      have hla := hinv.lInd
      have ha : a < n := by omega
      obtain ⟨s', hbody, hinv'⟩ := hinv.leftBody hsize hend ha (by omega)
      have hla' := hinv'.lInd
      exact ⟨s', hbody, ⟨a + 1, ha, by omega, hinv'⟩, by omega⟩)
    ⟨a, ha, hab, h⟩ (by have hla := h.lInd; omega)
  have hla := hinv.lInd
  obtain rfl : a' = n := by omega
  exact ⟨s', hrun, hinv⟩

theorem Merges.rightLoop (h : Merges left right n l result n b s) (hb : b ≤ n) (hfuel : n < fuel) :
    ∃ s', whileLoop (fun s ↦ s.rInd < (n : ℤ)) (Checked.rightBody size l) fuel s = some s'
      ∧ s'.arrays.scratchArr = result := by
  obtain ⟨s', hrun, ⟨b', hb', hinv⟩, hexit⟩ := whileLoop_total
    (fun s : Merging ↦ s.rInd < (n : ℤ)) (Checked.rightBody size l)
    (fun s ↦ ∃ b, b ≤ n ∧ Merges left right n l result n b s)
    (fun s ↦ ((n : ℤ) - s.rInd).toNat) fuel (by
      rintro s ⟨b, -, hinv⟩ hr
      have hrb := hinv.rInd
      have hb : b < n := by omega
      obtain ⟨s', hbody, hinv'⟩ := hinv.rightBody hsize hend rfl hb
      have hrb' := hinv'.rInd
      exact ⟨s', hbody, ⟨b + 1, hb, hinv'⟩, by omega⟩)
    ⟨b, hb, h⟩ (by have hrb := h.rInd; omega)
  have hrb := hinv.rInd
  obtain rfl : b' = n := by omega
  have hres := hinv.result
  rw [hinv.leftList.symm, hinv.rightList.symm, mergeLists_of_end _ _ _ _ _ le_rfl le_rfl] at hres
  exact ⟨s', hrun, hres⟩

/-- **`merge` stays inside the arrays and merges the two blocks of `n` words at `l`.** -/
theorem merge_spec (hn : 0 < n) (hfuel : 2 * n < fuel) (arrays : Arrays) (r : ℤ) :
    ∃ arrays', merge size fuel arrays l (((l + n : ℕ) : ℤ) - 1) r = some arrays'
      ∧ Merged n l arrays.scratchArr arrays'.scratchArr := by
  obtain ⟨left, right, i, hfill, hleft, hright⟩ :=
    fill_spec hsize hend (show n < fuel by omega) arrays
  have hstart : Merges left right n l (mergeLists left right n l arrays.scratchArr 0 0 0) 0 0
    ⟨⟨arrays.scratchArr, left, right⟩, 0, 0, 0⟩ := ⟨rfl, rfl, rfl, rfl, rfl, rfl⟩
  obtain ⟨s₁, a, b, hloop₁, hmerges₁, ha, hb, hab⟩ := hstart.mergeLoop hsize hend hfuel
  obtain ⟨s₂, hloop₂, hmerges₂⟩ := hmerges₁.leftLoop hsize hend ha hab (show n < fuel by omega)
  obtain ⟨s₃, hloop₃, hres⟩ := hmerges₂.rightLoop hsize hend hb (show n < fuel by omega)
  refine ⟨s₃.arrays, ?_, hres ▸ merged_mergeLists hleft hright⟩
  have hsub : ((l + n : ℕ) : ℤ) - 1 - l + 1 = n := by omega
  simp (disch := omega) only [merge, int_bind, hsub]
  rw [hfill, Option.bind_eq_bind, Option.bind_some]
  dsimp only
  rw [hloop₁, Option.bind_eq_bind, Option.bind_some, hloop₂, Option.bind_some, hloop₃]
  rfl

end Loops

/-! ## The passes -/

section Passes

variable {size n fuel : ℕ} (hsize : size ≤ 2 ^ 30)

include hsize

theorem passBody_spec {l : ℕ} {start : Scratch} {s : Arrays × ℤ} (hn : 0 < n) (hl : 2 * n ∣ l)
    (hend : l + 2 * n ≤ size) (hfuel : size < fuel) (hind : s.2 = l)
    (hp : InPass n size start l s.1.scratchArr) :
    ∃ s', passBody size fuel n s = some s' ∧ s'.2 = ((l + 2 * n : ℕ) : ℤ)
      ∧ InPass n size start (l + 2 * n) s'.1.scratchArr := by
  obtain ⟨arrays, ind⟩ := s
  obtain rfl : ind = l := hind
  obtain ⟨arrays', hmerge, hmerged⟩ := merge_spec hsize hend hn (show 2 * n < fuel by omega) arrays
    ((l : ℤ) + 2 * n - 1)
  refine ⟨(arrays', (l : ℤ) + 2 * n), ?_, by dsimp only; omega, hmerged.inPass hl hend hp⟩
  simp (disch := omega) only [passBody, int_bind, show (l : ℤ) + n = (l + n : ℕ) by omega, hmerge]
  rfl

/-- **A pass doubles the runs that are sorted.** -/
theorem passLoop_spec (hn : 0 < n) (hdvd : 2 * n ∣ size) (hfuel : size < fuel) {arrays : Arrays}
    (hsorted : SortedBlocks n 0 size arrays.scratchArr) :
    ∃ s', passLoop size fuel n (arrays, 0) = some s'
      ∧ InPass n size arrays.scratchArr size s'.1.scratchArr := by
  obtain ⟨s', hrun, ⟨l, hl, hle, hind, hp⟩, hexit⟩ := whileLoop_total
    (fun s : Arrays × ℤ ↦ s.2 < (size : ℤ) - 1) (passBody size fuel n)
    (fun s ↦ ∃ l : ℕ, 2 * n ∣ l ∧ l ≤ size ∧ s.2 = l
      ∧ InPass n size arrays.scratchArr l s.1.scratchArr)
    (fun s ↦ ((size : ℤ) - s.2).toNat) fuel (by
      rintro s ⟨l, hl, -, hind, hp⟩ hcond
      have hend : l + 2 * n ≤ size := add_le_of_dvd_of_lt hl hdvd (by omega)
      obtain ⟨s', hbody, hind', hp'⟩ := passBody_spec hsize hn hl hend hfuel hind hp
      exact ⟨s', hbody, ⟨l + 2 * n, Nat.dvd_add hl (Nat.dvd_refl _), hend, hind', hp'⟩, by omega⟩)
    (s := (arrays, 0)) ⟨0, Nat.dvd_zero _, Nat.zero_le _, rfl, inPass_start hsorted⟩
    (by dsimp only; omega)
  obtain rfl : l = size := by
    by_contra hne
    have hend : l + 2 * n ≤ size := add_le_of_dvd_of_lt hl hdvd (by omega)
    omega
  exact ⟨s', hrun, hp⟩

theorem sortBody_spec {s : Arrays × ℤ} (hn : 0 < n) (hdvd : 2 * n ∣ size) (hpos : 0 < size)
    (hfuel : size < fuel) (hind : s.2 = n) (hsorted : SortedBlocks n 0 size s.1.scratchArr) :
    ∃ s', sortBody size fuel s = some s' ∧ s'.2 = ((2 * n : ℕ) : ℤ)
      ∧ InPass n size s.1.scratchArr size s'.1.scratchArr := by
  obtain ⟨arrays, ind⟩ := s
  obtain rfl : ind = n := hind
  obtain ⟨⟨arrays', l⟩, hpass, hp⟩ := passLoop_spec hsize hn hdvd hfuel hsorted
  have hle := Nat.le_of_dvd hpos hdvd
  refine ⟨(arrays', (n : ℤ) * 2), ?_, by dsimp only; omega, hp⟩
  rw [sortBody, hpass, Option.bind_eq_bind, Option.bind_some]
  simp (disch := omega) only [int_bind]
  rfl

/-- **The sort**, of an array whose size is a power of two. -/
theorem mergeSort_spec {k : ℕ} (hpow : size = 2 ^ k) (hfuel : size < fuel) (arrays : Arrays) :
    ∃ arrays', mergeSort size fuel arrays = some arrays'
      ∧ (window arrays'.scratchArr 0 size).Pairwise (· ≤ ·)
      ∧ (window arrays'.scratchArr 0 size).Perm (window arrays.scratchArr 0 size) := by
  have hpos : 0 < size := hpow ▸ Nat.two_pow_pos k
  -- after `j` passes the runs of `2 ^ j` words are sorted, and the next pass fits into the array
  obtain ⟨⟨arrays', ind⟩, hrun, ⟨j, hj, hind, hsorted, hperm⟩, hexit⟩ := whileLoop_total
    (fun s : Arrays × ℤ ↦ s.2 < (size : ℤ)) (sortBody size fuel)
    (fun s ↦ ∃ j, j ≤ k ∧ s.2 = ((2 ^ j : ℕ) : ℤ)
      ∧ SortedBlocks (2 ^ j) 0 size s.1.scratchArr
      ∧ (window s.1.scratchArr 0 size).Perm (window arrays.scratchArr 0 size))
    (fun s ↦ ((size : ℤ) - s.2).toNat) fuel (by
      rintro s ⟨j, -, hind, hsorted, hperm⟩ hcond
      have hlt : 2 ^ j < 2 ^ k := by omega
      have hj : j < k := (Nat.pow_lt_pow_iff_right Nat.one_lt_two).mp hlt
      have hdouble : 2 * 2 ^ j = 2 ^ (j + 1) := (Nat.pow_succ').symm
      have hdvd : 2 * 2 ^ j ∣ size := by
        rw [hdouble, hpow]
        exact Nat.pow_dvd_pow 2 hj
      have hjpos := Nat.two_pow_pos j
      obtain ⟨s', hbody, hind', hp⟩ :=
        sortBody_spec hsize hjpos hdvd hpos hfuel hind hsorted
      have hdone := hp.done
      rw [hdouble] at hind' hdone
      exact ⟨s', hbody, ⟨j + 1, hj, hind', hdone, hp.perm.trans hperm⟩, by omega⟩)
    (s := (arrays, 1)) ⟨0, Nat.zero_le k, rfl, sortedBlocks_one size _, List.Perm.refl _⟩
    (by dsimp only; omega)
  dsimp only at hexit hind hsorted hperm
  have hle : 2 ^ j ≤ 2 ^ k := Nat.pow_le_pow_right Nat.two_pos hj
  have heq : 2 ^ j = size := by omega
  refine ⟨arrays', by rw [mergeSort, hrun]; rfl, ?_, hperm⟩
  have hblock := hsorted 0 (Nat.dvd_zero _) (Nat.le_refl 0) (by omega)
  rwa [heq, Nat.zero_add] at hblock

end Passes

/-! ## The sizes for which it sorts -/

/-- What MERGE_SORT and `merge` do to a scratch array of `size` words: with enough fuel everything
ends and stays inside the arrays, the array is sorted, a pass over sorted runs of `s` words leaves
sorted runs of `2 * s` words that have kept their words, and a merge touches its own two runs
only. -/
structure MergeSorts (size : ℕ) : Prop where
  sort : ∀ arrays, ∃ bound, ∀ fuel, bound ≤ fuel →
    ∃ arrays', mergeSort size fuel arrays = some arrays'
      ∧ (window arrays'.scratchArr 0 size).Pairwise (· ≤ ·)
      ∧ (window arrays'.scratchArr 0 size).Perm (window arrays.scratchArr 0 size)
  pass : ∀ s, 0 < s → 2 * s ∣ size → ∀ arrays : Arrays, SortedBlocks s 0 size arrays.scratchArr →
    ∃ bound, ∀ fuel, bound ≤ fuel → ∃ s', passLoop size fuel s (arrays, 0) = some s'
      ∧ SortedBlocks (2 * s) 0 size s'.1.scratchArr
      ∧ ∀ a, 2 * s ∣ a → a + 2 * s ≤ size →
        (window s'.1.scratchArr a (a + 2 * s)).Perm (window arrays.scratchArr a (a + 2 * s))
  merge : ∀ s l, 0 < s → l + 2 * s ≤ size → ∀ arrays : Arrays,
    (window arrays.scratchArr l (l + s)).Pairwise (· ≤ ·) →
    (window arrays.scratchArr (l + s) (l + 2 * s)).Pairwise (· ≤ ·) →
    ∃ bound, ∀ fuel, bound ≤ fuel →
    ∃ arrays', merge size fuel arrays l ((l : ℤ) + s - 1) ((l : ℤ) + 2 * s - 1) = some arrays'
      ∧ (window arrays'.scratchArr l (l + 2 * s)).Pairwise (· ≤ ·)
      ∧ (window arrays'.scratchArr l (l + 2 * s)).Perm (window arrays.scratchArr l (l + 2 * s))
      ∧ ∀ j, j < l ∨ l + 2 * s ≤ j → arrays'.scratchArr j = arrays.scratchArr j

/-- **MERGE_SORT is right for every power of two up to 2 ^ 30.** -/
theorem mergeSorts_two_pow {k : ℕ} (hk : k ≤ 30) : MergeSorts (2 ^ k) where
  sort arrays := ⟨2 ^ k + 1, fun _ hfuel ↦
    mergeSort_spec (Nat.pow_le_pow_right Nat.two_pos hk) rfl hfuel arrays⟩
  pass s hs hdvd arrays hsorted := by
    refine ⟨2 ^ k + 1, fun fuel hfuel ↦ ?_⟩
    obtain ⟨s', hrun, hp⟩ :=
      passLoop_spec (Nat.pow_le_pow_right Nat.two_pos hk) hs hdvd hfuel hsorted
    exact ⟨s', hrun, hp.done, hp.block⟩
  merge s l hs hend arrays hleft hright := by
    refine ⟨2 * s + 1, fun fuel hfuel ↦ ?_⟩
    obtain ⟨arrays', hrun, hmerged⟩ := merge_spec (Nat.pow_le_pow_right Nat.two_pos hk) hend hs
      hfuel arrays ((l : ℤ) + 2 * s - 1)
    rw [Int.natCast_add] at hrun
    exact ⟨arrays', hrun, hmerged.pairwise hleft hright, hmerged.window_perm_block, hmerged.rest⟩

/-- Four words. -/
theorem mergeSorts_four : MergeSorts (2 ^ 2) := mergeSorts_two_pow (by decide)

/-- In an array of six words the last merge of the second pass would leave the array. -/
example : mergeSort 6 7 ⟨fun _ ↦ 0, fun _ ↦ 0, fun _ ↦ 0⟩ = none := by
  have hnone : (mergeSort 6 7 ⟨fun _ ↦ 0, fun _ ↦ 0, fun _ ↦ 0⟩).isNone := by decide
  exact Option.isNone_iff_eq_none.mp hnone

/-- The sort of the scratch array of the source computes what the loops without checks do. -/
theorem mergeSort_eq_mergeSort {fuel : ℕ} (hfuel : SCRATCH_ARRAY_SIZE < fuel) (arrays : Arrays) :
    ∃ arrays', mergeSort SCRATCH_ARRAY_SIZE fuel arrays = some arrays'
      ∧ window arrays'.scratchArr 0 SCRATCH_ARRAY_SIZE
        = window (Mergesort.mergeSort arrays.scratchArr) 0 SCRATCH_ARRAY_SIZE := by
  obtain ⟨arrays', hrun, hsorted, hperm⟩ :=
    mergeSort_spec (by decide) (show SCRATCH_ARRAY_SIZE = 2 ^ 12 from rfl) hfuel arrays
  obtain ⟨hsorted', hperm'⟩ := Mergesort.mergeSort_spec arrays.scratchArr
  exact ⟨arrays', hrun, (hperm.trans hperm'.symm).eq_of_pairwise
    (fun _ _ _ _ hle hge ↦ BitVec.le_antisymm hle hge) hsorted hsorted'⟩

/-- The first pass counts in twos and ends when an `int` reaches the size. -/
theorem passLoop_eq_none {size : ℕ} (hsize : 2 ^ 31 ≤ size) (fuel : ℕ) (arrays : Arrays) :
    passLoop size fuel 1 (arrays, 0) = none := by
  by_contra hsome
  obtain ⟨s', hrun⟩ := Option.ne_none_iff_exists'.mp hsome
  obtain ⟨⟨j, hj, hlt⟩, hexit⟩ := whileLoop_partial
    (fun s : Arrays × ℤ ↦ ∃ j, s.2 = 2 * j ∧ s.2 < 2 ^ 31) (by
      rintro s t ⟨j, hj, -⟩ - hbody
      simp only [passBody, Option.bind_eq_bind, Option.bind_eq_some_iff, int_eq_some] at hbody
      obtain ⟨_, -, _, -, _, -, _, -, _, -, _, -, _, ⟨htwo, -⟩, _, ⟨hl, -, hlt⟩, ht⟩ := hbody
      obtain rfl := Option.some.inj ht
      exact ⟨j + 1, by dsimp only; omega, by dsimp only; omega⟩)
    (s := (arrays, 0)) ⟨0, rfl, by dsimp only; omega⟩ hrun
  omega

/-- From 2 ^ 31 words on the sort does not return. -/
theorem mergeSort_eq_none {size : ℕ} (hsize : 2 ^ 31 ≤ size) (fuel : ℕ) (arrays : Arrays) :
    mergeSort size fuel arrays = none := by
  cases fuel with
  | zero => rfl
  | succ fuel =>
    rw [mergeSort, whileLoop, if_pos (by dsimp only; omega), sortBody,
      passLoop_eq_none hsize]
    rfl

/-- **The type of the counters bounds the size.** -/
theorem not_mergeSorts_two_pow : ¬MergeSorts (2 ^ 31) := by
  intro h
  obtain ⟨bound, hsort⟩ := h.sort ⟨fun _ ↦ 0, fun _ ↦ 0, fun _ ↦ 0⟩
  obtain ⟨arrays', hrun, -⟩ := hsort bound (Nat.le_refl _)
  rw [mergeSort_eq_none (Nat.le_refl _)] at hrun
  contradiction

end FpgaOs.Mergesort.Checked
