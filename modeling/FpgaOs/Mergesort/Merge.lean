import FpgaOs.Lib.Window
import Mathlib.Algebra.Group.Nat.Defs
import Mathlib.Data.List.Perm.Basic
import Mathlib.Logic.Function.Basic

/-!
# Sorting the scratch array

The state MERGE_SORT sorts the scratch array bottom up: blocks of `subsize` words that are sorted
are merged pairwise into blocks of twice the size. The loops of `merge` write what `List.merge`
makes of the two blocks, so a pass over the array permutes it and doubles the size of the blocks
that are sorted.
-/

namespace FpgaOs.Mergesort

/-- `SCRATCH_ARRAY_SIZE`. -/
abbrev SCRATCH_ARRAY_SIZE : ℕ := 4096

/-- `scratch_arr`. -/
abbrev Scratch := ℕ → BitVec 32

/-! ## The code -/

/-- The first loop of `merge`: while both lists have words, the smaller one is written. -/
def mergeLoop (left right : Scratch) (size l : ℕ) (arr : Scratch) (lInd rInd arrInd : ℕ) :
    Scratch × ℕ × ℕ × ℕ :=
  if lInd < size ∧ rInd < size then
    if left lInd ≤ right rInd then
      mergeLoop left right size l (Function.update arr (l + arrInd) (left lInd)) (lInd + 1) rInd
        (arrInd + 1)
    else
      mergeLoop left right size l (Function.update arr (l + arrInd) (right rInd)) lInd (rInd + 1)
        (arrInd + 1)
  else (arr, lInd, rInd, arrInd)
termination_by (size - lInd) + (size - rInd)

/-- The other loops of `merge`: the words that are left in one list are written. -/
def restLoop (list : Scratch) (size l : ℕ) (arr : Scratch) (ind arrInd : ℕ) : Scratch × ℕ :=
  if ind < size then restLoop list size l (Function.update arr (l + arrInd) (list ind)) (ind + 1)
    (arrInd + 1)
  else (arr, arrInd)
termination_by size - ind

/-- `merge`, once `left_list` and `right_list` have been filled from the two halves. -/
def mergeLists (left right : Scratch) (size l : ℕ) (arr : Scratch) (lInd rInd arrInd : ℕ) :
    Scratch :=
  let s := mergeLoop left right size l arr lInd rInd arrInd
  let t := restLoop left size l s.1 s.2.1 s.2.2.2
  (restLoop right size l t.1 s.2.2.1 t.2).1

/-- `merge`. -/
def merge (arr : Scratch) (l m : ℕ) : Scratch :=
  mergeLists (fun i ↦ arr (l + i)) (fun i ↦ arr (m + 1 + i)) (m + 1 - l) l arr 0 0 0

/-- The inner loop of MERGE_SORT. The size is never zero. -/
def passLoop (subsize l : ℕ) (arr : Scratch) : Scratch :=
  if 0 < subsize ∧ l < SCRATCH_ARRAY_SIZE - 1 then
    passLoop subsize (l + 2 * subsize) (merge arr l (l + subsize - 1))
  else arr
termination_by SCRATCH_ARRAY_SIZE - l

/-- The outer loop of MERGE_SORT. The size is never zero. -/
def sortLoop (subsize : ℕ) (arr : Scratch) : Scratch :=
  if 0 < subsize ∧ subsize < SCRATCH_ARRAY_SIZE then sortLoop (subsize * 2) (passLoop subsize 0 arr)
  else arr
termination_by SCRATCH_ARRAY_SIZE - subsize

/-- MERGE_SORT. -/
def mergeSort (arr : Scratch) : Scratch := sortLoop 1 arr

/-! ## Merging two lists -/

section Lists

variable (left right : Scratch) (size l : ℕ)

theorem restLoop_of_lt (list arr : Scratch) {ind : ℕ} (arrInd : ℕ) (h : ind < size) :
    restLoop list size l arr ind arrInd
      = restLoop list size l (Function.update arr (l + arrInd) (list ind)) (ind + 1)
        (arrInd + 1) := by
  rw [restLoop, if_pos h]

theorem restLoop_of_ge (list arr : Scratch) {ind : ℕ} (arrInd : ℕ) (h : size ≤ ind) :
    restLoop list size l arr ind arrInd = (arr, arrInd) := by
  rw [restLoop, if_neg (Nat.not_lt.mpr h)]

/-- The words that are left are written one after the other, and nothing else is. -/
theorem restLoop_spec (list arr : Scratch) (ind arrInd : ℕ) :
    (restLoop list size l arr ind arrInd).2 = arrInd + (size - ind)
      ∧ window (restLoop list size l arr ind arrInd).1 (l + arrInd) (l + arrInd + (size - ind))
        = window list ind size
      ∧ ∀ j, j < l + arrInd ∨ l + arrInd + (size - ind) ≤ j →
        (restLoop list size l arr ind arrInd).1 j = arr j := by
  induction arr, ind, arrInd using restLoop.induct list size l with
  | case1 arr ind arrInd hlt ih =>
    rw [restLoop_of_lt size l list arr arrInd hlt]
    obtain ⟨hind, hwindow, hrest⟩ := ih
    -- the word written here lies below everything that the remaining rounds write
    have hfirst := (hrest (l + arrInd) (Or.inl (by omega))).trans (Function.update_self ..)
    have hend : l + (arrInd + 1) + (size - (ind + 1)) = l + arrInd + (size - ind) := by omega
    rw [hend, ← Nat.add_assoc] at hwindow
    rw [hend] at hrest
    refine ⟨by omega, ?_, ?_⟩
    · rw [window_cons (by omega), hfirst, hwindow, ← window_cons hlt]
    · intro j hj
      rw [hrest j (by omega), Function.update_of_ne (by omega)]
  | case2 arr ind arrInd hge =>
    have hle : size ≤ ind := Nat.not_lt.mp hge
    rw [restLoop_of_ge size l list arr arrInd hle, Nat.sub_eq_zero_of_le hle]
    refine ⟨rfl, ?_, fun _ _ ↦ rfl⟩
    rw [Nat.add_zero, window_self, window, Nat.sub_eq_zero_of_le hle]
    rfl

theorem mergeLists_of_le {arr : Scratch} {lInd rInd arrInd : ℕ} (h : lInd < size ∧ rInd < size)
    (hle : left lInd ≤ right rInd) :
    mergeLists left right size l arr lInd rInd arrInd
      = mergeLists left right size l (Function.update arr (l + arrInd) (left lInd)) (lInd + 1) rInd
        (arrInd + 1) := by
  rw [mergeLists, mergeLoop, if_pos h, if_pos hle, ← mergeLists]

theorem mergeLists_of_gt {arr : Scratch} {lInd rInd arrInd : ℕ} (h : lInd < size ∧ rInd < size)
    (hgt : ¬left lInd ≤ right rInd) :
    mergeLists left right size l arr lInd rInd arrInd
      = mergeLists left right size l (Function.update arr (l + arrInd) (right rInd)) lInd (rInd + 1)
        (arrInd + 1) := by
  rw [mergeLists, mergeLoop, if_pos h, if_neg hgt, ← mergeLists]

theorem mergeLists_of_ge {arr : Scratch} {lInd rInd arrInd : ℕ} (h : ¬(lInd < size ∧ rInd < size)) :
    mergeLists left right size l arr lInd rInd arrInd
      = (restLoop right size l (restLoop left size l arr lInd arrInd).1 rInd
        (arrInd + (size - lInd))).1 := by
  rw [mergeLists, mergeLoop, if_neg h]
  dsimp only
  rw [(restLoop_spec size l left arr lInd arrInd).1]

theorem mergeLists_of_left {arr : Scratch} {lInd rInd : ℕ} (arrInd : ℕ) (hl : lInd < size)
    (hr : size ≤ rInd) :
    mergeLists left right size l arr lInd rInd arrInd
      = mergeLists left right size l (Function.update arr (l + arrInd) (left lInd)) (lInd + 1) rInd
        (arrInd + 1) := by
  have hind : arrInd + 1 + (size - (lInd + 1)) = arrInd + (size - lInd) := by omega
  rw [mergeLists_of_ge left right size l (by omega), mergeLists_of_ge left right size l (by omega),
    restLoop_of_lt size l left arr arrInd hl, hind]

theorem mergeLists_of_right {arr : Scratch} {lInd rInd : ℕ} (arrInd : ℕ) (hl : size ≤ lInd)
    (hr : rInd < size) :
    mergeLists left right size l arr lInd rInd arrInd
      = mergeLists left right size l (Function.update arr (l + arrInd) (right rInd)) lInd (rInd + 1)
        (arrInd + 1) := by
  rw [mergeLists_of_ge left right size l (by omega), mergeLists_of_ge left right size l (by omega),
    restLoop_of_ge size l left _ _ hl, restLoop_of_ge size l left _ _ hl,
    Nat.sub_eq_zero_of_le hl, Nat.add_zero, Nat.add_zero, restLoop_of_lt size l right _ _ hr]

theorem mergeLists_of_end {arr : Scratch} {lInd rInd : ℕ} (arrInd : ℕ) (hl : size ≤ lInd)
    (hr : size ≤ rInd) :
    mergeLists left right size l arr lInd rInd arrInd = arr := by
  rw [mergeLists_of_ge left right size l (by omega), restLoop_of_ge size l left _ _ hl,
    restLoop_of_ge size l right _ _ hr]

/-- **The loops of `merge` write what merging the two lists gives**, and nothing else. -/
theorem mergeLists_spec (arr : Scratch) (lInd rInd arrInd : ℕ) (hl : lInd ≤ size) (hr : rInd ≤ size)
    (hind : arrInd = lInd + rInd) :
    window (mergeLists left right size l arr lInd rInd arrInd) (l + arrInd) (l + 2 * size)
        = (window left lInd size).merge (window right rInd size)
      ∧ ∀ j, j < l + arrInd ∨ l + 2 * size ≤ j → mergeLists left right size l arr lInd rInd arrInd j
        = arr j := by
  induction arr, lInd, rInd, arrInd using mergeLoop.induct left right size l with
  | case1 arr lInd rInd arrInd h hle ih =>
    rw [mergeLists_of_le left right size l h hle]
    obtain ⟨hwindow, hrest⟩ := ih (by omega) hr (by omega)
    have hfirst := (hrest (l + arrInd) (Or.inl (by omega))).trans (Function.update_self ..)
    refine ⟨?_, ?_⟩
    · rw [window_cons (by omega), hfirst, Nat.add_assoc, hwindow, window_cons h.1, window_cons h.2,
        List.cons_merge_cons_pos _ _ _ (decide_eq_true hle)]
    · intro j hj
      rw [hrest j (by omega), Function.update_of_ne (by omega)]
  | case2 arr lInd rInd arrInd h hgt ih =>
    rw [mergeLists_of_gt left right size l h hgt]
    obtain ⟨hwindow, hrest⟩ := ih hl (by omega) (by omega)
    have hfirst := (hrest (l + arrInd) (Or.inl (by omega))).trans (Function.update_self ..)
    refine ⟨?_, ?_⟩
    · rw [window_cons (by omega), hfirst, Nat.add_assoc, hwindow, window_cons h.1, window_cons h.2,
        List.cons_merge_cons_neg _ _ _ (by simpa using hgt)]
    · intro j hj
      rw [hrest j (by omega), Function.update_of_ne (by omega)]
  | case3 arr lInd rInd arrInd h =>
    rw [mergeLists_of_ge left right size l h]
    obtain ⟨-, hleft, hrestL⟩ := restLoop_spec size l left arr lInd arrInd
    obtain ⟨-, hright, hrestR⟩ :=
      restLoop_spec size l right (restLoop left size l arr lInd arrInd).1 rInd
        (arrInd + (size - lInd))
    have hmid : l + (arrInd + (size - lInd)) = l + arrInd + (size - lInd) := by omega
    have hend : l + (arrInd + (size - lInd)) + (size - rInd) = l + 2 * size := by omega
    rw [hend] at hright hrestR
    refine ⟨?_, ?_⟩
    · -- the second loop leaves what the first one wrote
      have hkeep := window_congr (a := l + arrInd) fun k _ hk ↦ hrestR k (Or.inl hk)
      rw [← window_append (b := l + arrInd + (size - lInd)) (by omega) (by omega), ← hmid, hright,
        hkeep, hmid, hleft]
      -- one of the two lists is empty
      rcases not_and_or.mp h with hge | hge
      · rw [show lInd = size by omega, window_self, List.nil_append, List.nil_merge]
      · rw [show rInd = size by omega, window_self, List.append_nil, List.merge_right]
    · intro j hj
      rw [hrestR j (by omega), hrestL j (by omega)]

end Lists

/-- The two blocks of `n` words at `l` have been merged, and nothing else has changed. -/
structure Merged (n l : ℕ) (arr arr' : Scratch) : Prop where
  merged : window arr' l (l + 2 * n) = (window arr l (l + n)).merge (window arr (l + n) (l + 2 * n))
  rest : ∀ j, j < l ∨ l + 2 * n ≤ j → arr' j = arr j

theorem merged_mergeLists {arr : Scratch} {left right : Scratch} {n l : ℕ}
    (hleft : window left 0 n = window arr l (l + n))
    (hright : window right 0 n = window arr (l + n) (l + 2 * n)) :
    Merged n l arr (mergeLists left right n l arr 0 0 0) := by
  obtain ⟨hwindow, hrest⟩ :=
    mergeLists_spec left right n l arr 0 0 0 (Nat.zero_le n) (Nat.zero_le n) rfl
  exact ⟨by rw [← hleft, ← hright, ← hwindow, Nat.add_zero], hrest⟩

/-- **`merge` merges the two blocks of `n` words at `l`**, and writes nothing else. -/
theorem merge_spec (arr : Scratch) (l : ℕ) {n : ℕ} (hn : 0 < n) :
    Merged n l arr (merge arr l (l + n - 1)) := by
  rw [merge, show l + n - 1 + 1 = l + n by omega, Nat.add_sub_cancel_left]
  apply merged_mergeLists
  · rw [window_add]
  · rw [window_add, show l + n + n = l + 2 * n by omega]

/-! ## A pass -/

/-- The blocks of `s` words between `lo` and `hi` are sorted. -/
def SortedBlocks (s lo hi : ℕ) (arr : Scratch) : Prop :=
  ∀ a, s ∣ a → lo ≤ a → a + s ≤ hi → (window arr a (a + s)).Pairwise (· ≤ ·)

/-- In a pass over the `size` words of `start` the blocks below `l` have been merged: they are
sorted, those above are the smaller ones that were there, and each block has kept its words. -/
structure InPass (n size : ℕ) (start : Scratch) (l : ℕ) (arr : Scratch) : Prop where
  done : SortedBlocks (2 * n) 0 l arr
  todo : SortedBlocks n l size arr
  block : ∀ a, 2 * n ∣ a → a + 2 * n ≤ size →
    (window arr a (a + 2 * n)).Perm (window start a (a + 2 * n))
  perm : (window arr 0 size).Perm (window start 0 size)

section Pass

variable {arr arr' start : Scratch} {n l size : ℕ}

theorem add_le_of_dvd_of_lt {d a b : ℕ} (ha : d ∣ a) (hb : d ∣ b) (hlt : a < b) : a + d ≤ b := by
  have hle : d ≤ b - a := Nat.le_of_dvd (Nat.sub_pos_of_lt hlt) (Nat.dvd_sub hb ha)
  omega

theorem pairwise_merge {xs ys : List (BitVec 32)} (hx : xs.Pairwise (· ≤ ·))
    (hy : ys.Pairwise (· ≤ ·)) :
    (xs.merge ys).Pairwise (· ≤ ·) := by
  have hdecide : ∀ zs : List (BitVec 32), zs.Pairwise (fun x y ↦ decide (x ≤ y) = true)
    ↔ zs.Pairwise (· ≤ ·) := by simp
  apply (hdecide _).mp
  apply List.pairwise_merge _ _ _ _ ((hdecide xs).mpr hx) ((hdecide ys).mpr hy)
  · intro x y z hxy hyz
    exact decide_eq_true (BitVec.le_trans (of_decide_eq_true hxy) (of_decide_eq_true hyz))
  · intro x y
    rw [Bool.or_eq_true, decide_eq_true_iff, decide_eq_true_iff]
    exact BitVec.le_total x y

namespace Merged

variable (h : Merged n l arr arr')

include h

theorem window_perm_block : (window arr' l (l + 2 * n)).Perm (window arr l (l + 2 * n)) := by
  have hparts := window_append (g := arr) (a := l) (b := l + n) (c := l + 2 * n)
    (by omega) (by omega)
  rw [h.merged, ← hparts]
  exact List.merge_perm_append _

/-- Merging two blocks permutes every window around them. -/
theorem window_perm {a d : ℕ} (ha : a ≤ l) (hd : l + 2 * n ≤ d) :
    (window arr' a d).Perm (window arr a d) :=
  FpgaOs.window_perm ha (by omega) hd h.rest h.window_perm_block

theorem window_eq {a d : ℕ} (had : d ≤ l ∨ l + 2 * n ≤ a) : window arr' a d = window arr a d :=
  window_congr fun k hak hkd ↦ h.rest k (by omega)

/-- Two sorted blocks become one. -/
theorem pairwise (hleft : (window arr l (l + n)).Pairwise (· ≤ ·))
    (hright : (window arr (l + n) (l + 2 * n)).Pairwise (· ≤ ·)) :
    (window arr' l (l + 2 * n)).Pairwise (· ≤ ·) := by
  rw [h.merged]
  exact pairwise_merge hleft hright

/-- **A round of a pass.** -/
theorem inPass (hl : 2 * n ∣ l) (hend : l + 2 * n ≤ size) (hp : InPass n size start l arr) :
    InPass n size start (l + 2 * n) arr' where
  done := by
    intro a ha _ hae
    rcases Nat.lt_or_ge a l with hlt | hge
    · -- a block that an earlier round has merged
      have hle := add_le_of_dvd_of_lt ha hl hlt
      rw [h.window_eq (Or.inl hle)]
      exact hp.done a ha (Nat.zero_le a) hle
    · -- the two blocks that are merged now
      obtain rfl : a = l := by omega
      have hn : n ∣ a := Nat.dvd_trans (Nat.dvd_mul_left n 2) hl
      have hleft := hp.todo a hn (Nat.le_refl a) (by omega)
      have hright := hp.todo (a + n) (Nat.dvd_add hn (Nat.dvd_refl n)) (by omega) (by omega)
      rw [show a + n + n = a + 2 * n by omega] at hright
      exact h.pairwise hleft hright
  todo := by
    intro a ha hla hae
    rw [h.window_eq (Or.inr hla)]
    exact hp.todo a ha (by omega) hae
  block := by
    intro a ha hae
    have hsame := hp.block a ha hae
    rcases Nat.lt_trichotomy a l with hlt | rfl | hgt
    · rwa [h.window_eq (Or.inl (add_le_of_dvd_of_lt ha hl hlt))]
    · exact h.window_perm_block.trans hsame
    · rwa [h.window_eq (Or.inr (add_le_of_dvd_of_lt hl ha hgt))]
  perm := (h.window_perm (Nat.zero_le l) hend).trans hp.perm

end Merged

theorem inPass_start (h : SortedBlocks n 0 size start) : InPass n size start 0 start :=
  ⟨fun a _ _ ha ↦ by
    obtain ⟨rfl, hn⟩ : a = 0 ∧ 2 * n = 0 := by omega
    rw [hn, window_self]
    exact List.Pairwise.nil, h, fun _ _ _ ↦ List.Perm.refl _, List.Perm.refl _⟩

/-- **A pass permutes the array and doubles the blocks that are sorted.** -/
theorem passLoop_spec (hn : 0 < n) (hsize : 2 * n ∣ SCRATCH_ARRAY_SIZE) (hl : 2 * n ∣ l)
    (hle : l ≤ SCRATCH_ARRAY_SIZE) (hp : InPass n SCRATCH_ARRAY_SIZE start l arr) :
    InPass n SCRATCH_ARRAY_SIZE start SCRATCH_ARRAY_SIZE (passLoop n l arr) := by
  induction l, arr using passLoop.induct n with
  | case1 l arr h ih =>
    have hend := add_le_of_dvd_of_lt hl hsize (by omega)
    rw [passLoop, if_pos h]
    exact ih (Nat.dvd_add hl (Nat.dvd_refl _)) hend ((merge_spec arr l hn).inPass hl hend hp)
  | case2 l arr h =>
    rw [passLoop, if_neg h]
    obtain rfl : l = SCRATCH_ARRAY_SIZE := by
      by_contra hne
      have hend := add_le_of_dvd_of_lt hl hsize (by omega)
      omega
    exact hp

/-- The passes end with one sorted block. -/
theorem sortLoop_spec (hn : 0 < n) (hpow : ∃ k, n * 2 ^ k = SCRATCH_ARRAY_SIZE)
    (hsorted : SortedBlocks n 0 SCRATCH_ARRAY_SIZE arr) :
    (window (sortLoop n arr) 0 SCRATCH_ARRAY_SIZE).Pairwise (· ≤ ·)
      ∧ (window (sortLoop n arr) 0 SCRATCH_ARRAY_SIZE).Perm (window arr 0 SCRATCH_ARRAY_SIZE) := by
  obtain ⟨k, hk⟩ := hpow
  induction k generalizing n arr with
  | zero =>
    obtain rfl : n = SCRATCH_ARRAY_SIZE := by rw [← hk, Nat.pow_zero, Nat.mul_one]
    rw [sortLoop, if_neg (by omega)]
    have hblock := hsorted 0 (Nat.dvd_zero _) (Nat.le_refl 0) (by omega)
    rw [Nat.zero_add] at hblock
    exact ⟨hblock, List.Perm.refl _⟩
  | succ k ih =>
    have hk' : n * 2 * 2 ^ k = SCRATCH_ARRAY_SIZE := by
      rw [← hk, Nat.pow_succ, Nat.mul_assoc, Nat.mul_comm 2]
    have hdvd : 2 * n ∣ SCRATCH_ARRAY_SIZE := ⟨2 ^ k, by rw [← hk', Nat.mul_comm 2 n]⟩
    have hle := Nat.le_of_dvd (by decide) hdvd
    have hpass := passLoop_spec hn hdvd (Nat.dvd_zero _) (Nat.zero_le _) (inPass_start hsorted)
    obtain ⟨hend, hperm⟩ := ih (by omega) (Nat.mul_comm 2 n ▸ hpass.done) hk'
    rw [sortLoop, if_pos ⟨hn, by omega⟩]
    exact ⟨hend, hperm.trans hpass.perm⟩

theorem sortedBlocks_one (size : ℕ) (arr : Scratch) : SortedBlocks 1 0 size arr := by
  intro a _ _ _
  rw [window_concat (Nat.le_refl a), window_self]
  exact List.pairwise_singleton _ _

/-- **MERGE_SORT sorts the scratch array.** -/
theorem mergeSort_spec (arr : Scratch) :
    (window (mergeSort arr) 0 SCRATCH_ARRAY_SIZE).Pairwise (· ≤ ·)
      ∧ (window (mergeSort arr) 0 SCRATCH_ARRAY_SIZE).Perm (window arr 0 SCRATCH_ARRAY_SIZE) := by
  exact sortLoop_spec Nat.one_pos ⟨12, rfl⟩ (sortedBlocks_one _ arr)

end Pass

end FpgaOs.Mergesort
