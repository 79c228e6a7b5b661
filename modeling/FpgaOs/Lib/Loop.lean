import Mathlib.Algebra.Group.Int.Defs
import Mathlib.Data.Int.Notation
import Mathlib.Data.Nat.Notation
import Mathlib.Logic.Function.Basic

/-!
# Loops of a program that can go wrong

`whileLoop` is a `while` whose body can go wrong: an index that is out of bounds, an integer that
overflows. It also has `fuel`, and a loop whose fuel runs out gives nothing either, so that a result
for some fuel means that the loop ends and that no round of it went wrong.

There is one rule for each direction. With an invariant and a measure that each round makes smaller,
every amount of fuel above the measure is enough (`whileLoop_total`); and whatever a loop gives has
the invariant and ends the loop (`whileLoop_partial`), so a loop whose invariant excludes its end
gives nothing.

At the end are the arrays of such a program: an access is checked against the length of the array.
-/

namespace FpgaOs.Loop

variable {σ : Type*} (cond : σ → Prop) [DecidablePred cond] (body : σ → Option σ)

/-- `while (cond) body`. -/
def whileLoop : ℕ → σ → Option σ
  | 0, _ => none
  | fuel + 1, s => if cond s then (body s).bind (whileLoop fuel) else some s

/-- **Total correctness.** -/
theorem whileLoop_total (inv : σ → Prop) (measure : σ → ℕ) (fuel : ℕ)
    (hround : ∀ s, inv s → cond s → ∃ s', body s = some s' ∧ inv s' ∧ measure s' < measure s)
    {s : σ} (hs : inv s) (hfuel : measure s < fuel) :
    ∃ s', whileLoop cond body fuel s = some s' ∧ inv s' ∧ ¬cond s' := by
  induction fuel generalizing s with
  | zero => exact absurd hfuel (Nat.not_lt_zero _)
  | succ fuel ih =>
    rw [whileLoop]
    split
    · next hcond =>
      obtain ⟨t, hbody, ht, hlt⟩ := hround s hs hcond
      obtain ⟨s', hrun, hend⟩ := ih ht (Nat.lt_of_lt_of_le hlt (Nat.lt_succ_iff.mp hfuel))
      exact ⟨s', by rw [hbody, Option.bind_some, hrun], hend⟩
    · next hcond => exact ⟨s, rfl, hs, hcond⟩

variable {cond body}

/-- **Partial correctness.** -/
theorem whileLoop_partial (inv : σ → Prop)
    (hround : ∀ s t, inv s → cond s → body s = some t → inv t) {s s' : σ} (hs : inv s) {fuel : ℕ}
    (hrun : whileLoop cond body fuel s = some s') : inv s' ∧ ¬cond s' := by
  induction fuel generalizing s with
  | zero => rw [whileLoop] at hrun; contradiction
  | succ fuel ih =>
    rw [whileLoop] at hrun
    split at hrun
    · next hcond =>
      obtain ⟨t, hbody, hrest⟩ := Option.bind_eq_some_iff.mp hrun
      exact ih (hround s t hs hcond hbody) hrest
    · next hcond =>
      obtain rfl := Option.some.inj hrun
      exact ⟨hs, hcond⟩

/-! ## Arrays and integers -/

section Access

variable {α β : Type} {n j k : ℕ}

/-- The element of an array of `n` elements at an index. -/
def load (arr : ℕ → α) (n : ℕ) (i : ℤ) : Option α :=
  if 0 ≤ i ∧ i < n then some (arr i.toNat) else none

/-- An array of `n` elements with a new element at an index. -/
def store (arr : ℕ → α) (n : ℕ) (i : ℤ) (x : α) : Option (ℕ → α) :=
  if 0 ≤ i ∧ i < n then some (Function.update arr i.toNat x) else none

/-- The value of an expression of type `int`. -/
def int (x : ℤ) : Option ℤ := if -2 ^ 31 ≤ x ∧ x < 2 ^ 31 then some x else none

theorem load_bind (arr : ℕ → α) (f : α → Option β) (h : k < n) :
    (load arr n k >>= f) = f (arr k) := by
  rw [load, if_pos ⟨Int.natCast_nonneg k, Int.ofNat_lt.mpr h⟩, Int.toNat_natCast]
  rfl

theorem load_add_bind (arr : ℕ → α) (f : α → Option β) (h : j + k < n) :
    (load arr n ((j : ℤ) + k) >>= f) = f (arr (j + k)) := load_bind arr f h

theorem store_bind (arr : ℕ → α) (x : α) (f : (ℕ → α) → Option β) (h : k < n) :
    (store arr n k x >>= f) = f (Function.update arr k x) := by
  rw [store, if_pos ⟨Int.natCast_nonneg k, Int.ofNat_lt.mpr h⟩, Int.toNat_natCast]
  rfl

theorem store_add_bind (arr : ℕ → α) (x : α) (f : (ℕ → α) → Option β) (h : j + k < n) :
    (store arr n ((j : ℤ) + k) x >>= f) = f (Function.update arr (j + k) x) := store_bind arr x f h

theorem int_bind {x : ℤ} (f : ℤ → Option β) (hlow : -2 ^ 31 ≤ x) (hhigh : x < 2 ^ 31) :
    (int x >>= f) = f x := by
  rw [int, if_pos ⟨hlow, hhigh⟩]
  rfl

theorem int_eq_some {x y : ℤ} : int x = some y ↔ y = x ∧ -2 ^ 31 ≤ x ∧ x < 2 ^ 31 := by
  rw [int]
  split
  · next h => rw [Option.some.injEq, eq_comm, and_iff_left h]
  · next h => exact ⟨fun hx ↦ by contradiction, fun hx ↦ absurd hx.2 h⟩

end Access

end FpgaOs.Loop
