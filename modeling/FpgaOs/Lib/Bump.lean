import Mathlib

/-!
# Allocation by a counter

The simplest allocator of addresses is a counter: an allocation gets its value, and the counter is
advanced by the length of the allocation, rounded up to pages. With a counter of bounded width the
values come round again, and so do the lengths, when they are rounded beyond the top. This file says
exactly when the ranges of the first `n` allocations are disjoint, provided that their addresses
differ in some lower bits. The counter starts at the second page, so the first page is left for one
last allocation.
-/

namespace FpgaOs.Bump

/-- Where allocation `i` would start if the counter had no bound. -/
def start (first : ℕ) (r : ℕ → ℕ) : ℕ → ℕ
  | 0 => first
  | i + 1 => start first r i + r i

/-- Lengths `l`, and what they are rounded up to; zero if that is not below the top. -/
structure Rounds (page top : ℕ) (l r : ℕ → ℕ) : Prop where
  dvd : ∀ i, page ∣ r i
  lt : ∀ i, r i < top
  zero : ∀ i, l i = 0 → r i = 0
  fits : ∀ i, r i ≠ 0 → l i ≤ r i ∧ r i < l i + page

/-- The range of allocation `i`. -/
def range (page top : ℕ) (l r : ℕ → ℕ) (i : ℕ) : Set ℕ :=
  Set.Ico (start page r i % top) (start page r i % top + l i)

section Start

variable {page : ℕ} {r : ℕ → ℕ}

theorem start_add_le (page : ℕ) (r : ℕ → ℕ) {i j : ℕ} (h : i < j) :
    start page r i + r i ≤ start page r j := by
  induction j with
  | zero => exact absurd h (Nat.not_lt_zero i)
  | succ j ih =>
    rcases Nat.lt_succ_iff_lt_or_eq.mp h with hlt | heq
    · exact (ih hlt).trans (Nat.le_add_right _ _)
    · rw [heq]
      exact Nat.le_refl _

theorem start_succ_eq (first : ℕ) (r : ℕ → ℕ) (i : ℕ) :
    start first r (i + 1) = start (first + r 0) (fun i ↦ r (i + 1)) i := by
  induction i with
  | zero => rfl
  | succ i ih => rw [start, ih, start]

theorem dvd_start (h : ∀ i, page ∣ r i) (i : ℕ) : page ∣ start page r i := by
  induction i with
  | zero => exact Nat.dvd_refl page
  | succ i ih => exact Nat.dvd_add ih (h i)

theorem exists_start_le {j x : ℕ} (hpage : page ≤ x) (hx : x < start page r j) :
    ∃ i < j, start page r i ≤ x ∧ x < start page r i + r i := by
  induction j with
  | zero => exact absurd hpage (Nat.not_le_of_lt hx)
  | succ j ih =>
    by_cases hlt : x < start page r j
    · obtain ⟨i, hi, hle⟩ := ih hlt
      exact ⟨i, Nat.lt_succ_of_lt hi, hle⟩
    · exact ⟨j, Nat.lt_succ_self j, Nat.le_of_not_lt hlt, hx⟩

/-- If the counter goes beyond the top, it does so in one step. -/
theorem exists_first_above {top j : ℕ} (htop : page ≤ top) (h : top < start page r j) :
    ∃ k < j, start page r k ≤ top ∧ top < start page r (k + 1) := by
  induction j with
  | zero => exact absurd htop (Nat.not_le_of_lt h)
  | succ j ih =>
    by_cases hlt : top < start page r j
    · obtain ⟨k, hk, hle⟩ := ih hlt
      exact ⟨k, Nat.lt_succ_of_lt hk, hle⟩
    · exact ⟨j, Nat.lt_succ_self j, Nat.le_of_not_lt hlt, h⟩

end Start

section Disjoint

variable {page top key n : ℕ} {l r : ℕ → ℕ} (hr : Rounds page top l r)
  (hkeys : ∀ i j, i < j → j < n → start page r i % key ≠ start page r j % key)

include hkeys

/-- The counter is advanced by every allocation but the last. -/
theorem ne_zero_of_keys {i j : ℕ} (hij : i < j) (hj : j < n) : r i ≠ 0 := by
  intro hzero
  apply hkeys i (i + 1) (Nat.lt_succ_self i) (Nat.lt_of_le_of_lt hij hj)
  rw [start, hzero]
  rfl

include hr

/-- While the counter has not come round, an allocation ends before the next ones start. -/
theorem disjoint_of_lt {i j : ℕ} (hij : i < j) (hj : j < n) (htop : start page r j < top) :
    Disjoint (range page top l r i) (range page top l r j) := by
  have hle := start_add_le page r hij
  have hfit := (hr.fits i (ne_zero_of_keys hkeys hij hj)).1
  rw [range, range, Nat.mod_eq_of_lt htop, Nat.mod_eq_of_lt (by omega : start page r i < top)]
  rw [Set.Ico_disjoint_Ico]
  omega

variable (hpage : page ∣ top)

include hpage

/-- The first page has room for one last allocation. -/
theorem disjoint_of_le {i j : ℕ} (hij : i < j) (hj : j < n) (htop : top ≤ start page r j)
    (hl : l j ≠ 0) (hle : start page r j + l j ≤ top + page) :
      Disjoint (range page top l r i) (range page top l r j) := by
  have heq : start page r j = top := by
    have hdvd : page ∣ start page r j - top := Nat.dvd_sub (dvd_start hr.dvd j) hpage
    have hzero : start page r j - top = 0 := Nat.eq_zero_of_dvd_of_lt hdvd (by omega)
    omega
  have hlt : start page r i < top := by
    have hne := ne_zero_of_keys hkeys hij hj
    have hadd := start_add_le page r hij
    omega
  have hfirst : page ≤ start page r i := by
    cases i with
    | zero => exact Nat.le_refl page
    | succ i =>
      have hadd := start_add_le page r (Nat.succ_pos i)
      exact (Nat.le_add_right _ _).trans hadd
  rw [range, range, Nat.mod_eq_of_lt hlt, heq, Nat.mod_self]
  rw [Set.Ico_disjoint_Ico]
  omega

variable (hkey : key ∣ top) (htop : page < top)

include hkey htop

/-- An allocation that starts after the counter has come round is within another one, the first page
apart. -/
theorem start_le_of_disjoint
    (hdisj : ∀ i j, i < j → j < n → Disjoint (range page top l r i) (range page top l r j)) {j : ℕ}
    (hj : j < n) (hl : l j ≠ 0) : start page r j ≤ top := by
  by_contra hgt
  obtain ⟨k, hk, hle, habove⟩ := exists_first_above htop.le (Nat.lt_of_not_le hgt)
  -- `k + 1` is the first allocation beyond the top; it has some length, and starts at `x` below the
  -- top
  have hkn : k + 1 < n := Nat.lt_of_le_of_lt hk hj
  have hlk : l (k + 1) ≠ 0 := by
    rcases Nat.lt_or_eq_of_le (Nat.succ_le_of_lt hk) with hlt | heq
    · exact fun hzero ↦ ne_zero_of_keys hkeys hlt hj (hr.zero _ hzero)
    · rwa [← heq] at hl
  have hlt : start page r (k + 1) < top + top := by
    rw [start]
    exact Nat.add_lt_add_of_le_of_lt hle (hr.lt k)
  obtain ⟨x, hx⟩ := Nat.exists_eq_add_of_le habove.le
  have hxpos : 0 < x := by omega
  have hxdvd : page ∣ x := by
    have hsub : start page r (k + 1) - top = x := by omega
    rw [← hsub]
    exact Nat.dvd_sub (dvd_start hr.dvd (k + 1)) hpage
  have hxlt : x < top := by omega
  obtain ⟨i, hi, hstart, hend⟩ :=
    @exists_start_le page r (k + 1) x (Nat.le_of_dvd hxpos hxdvd) (by omega)
  -- `x` is not where another one starts, so it is on a page that the other one has some bytes of
  have hne : start page r i ≠ x := by
    intro heq
    apply hkeys i (k + 1) hi hkn
    obtain ⟨m, hm⟩ := hkey
    rw [hx, heq, hm, Nat.add_comm, Nat.add_mul_mod_self_left]
  have hroom : page ≤ start page r i + r i - x :=
    Nat.le_of_dvd (by omega) (Nat.dvd_sub (dvd_start hr.dvd (i + 1)) hxdvd)
  have hfit := (hr.fits i (ne_zero_of_keys hkeys hi hkn)).2
  have hmem : x ∈ range page top l r i := by
    rw [range, Nat.mod_eq_of_lt (by omega : start page r i < top)]
    exact ⟨hstart, by omega⟩
  have hmem' : x ∈ range page top l r (k + 1) := by
    rw [range, hx, Nat.add_mod_left, Nat.mod_eq_of_lt hxlt]
    exact ⟨Nat.le_refl x, by omega⟩
  exact Set.disjoint_left.mp (hdisj i (k + 1) hi hkn) hmem hmem'

/-- **When the ranges are disjoint.** -/
theorem disjoint_iff :
    (∀ i j, i < j → j < n → Disjoint (range page top l r i) (range page top l r j)) ↔
    ∀ j < n, start page r j < top ∨ l j = 0 ∨ start page r j + l j ≤ top + page := by
  constructor
  · intro hdisj j hj
    by_cases hl : l j = 0
    · exact .inr (.inl hl)
    have hle := start_le_of_disjoint hr hkeys hpage hkey htop hdisj hj hl
    rcases Nat.lt_or_eq_of_le hle with hlt | heq
    · exact .inl hlt
    -- the counter is at zero again, and the first allocation is above
    have hjpos : 0 < j := by
      refine Nat.pos_of_ne_zero fun hzero ↦ ?_
      rw [hzero] at heq
      exact htop.ne heq
    have hl₀ : l 0 ≠ 0 := fun hzero ↦ ne_zero_of_keys hkeys hjpos hj (hr.zero 0 hzero)
    have hdisj₀ := hdisj 0 j hjpos hj
    rw [range, range, heq, Nat.mod_self, start, Nat.mod_eq_of_lt htop,
      Set.Ico_disjoint_Ico] at hdisj₀
    refine .inr (.inr ?_)
    omega
  · intro h i j hij hj
    rcases h j hj with hlt | hzero | hle
    · exact disjoint_of_lt hr hkeys hij hj hlt
    · rw [range, range, hzero, Nat.add_zero, Set.Ico_self]
      exact disjoint_bot_right
    · by_cases hlt : start page r j < top
      · exact disjoint_of_lt hr hkeys hij hj hlt
      by_cases hl : l j = 0
      · rw [range, range, hl, Nat.add_zero, Set.Ico_self]
        exact disjoint_bot_right
      exact disjoint_of_le hr hkeys hpage hij hj (Nat.le_of_not_lt hlt) hl hle

end Disjoint

end FpgaOs.Bump
