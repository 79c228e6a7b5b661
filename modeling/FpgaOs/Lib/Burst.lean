import Mathlib.Data.List.Basic
import Mathlib.Data.Nat.Notation

/-!
# Bursts cut from a stream

A sender has a stream of data and a sequence of lengths. It cuts the stream into bursts of these
lengths, one after another, and marks the final unit of each. Where a burst begins is decided by
counting only, so a burst has the data that its length was meant for exactly if all data before it
were meant for the lengths before it.
-/

namespace FpgaOs.Burst

variable {α β : Type*} (mark : α → Bool → β)

/-- The next `n` units of the stream, the final one marked. -/
def cut : ℕ → List α → List β
  | 0, _ => []
  | _ + 1, [] => []
  | n + 1, x :: xs => mark x (n == 0) :: cut n xs

/-- The bursts of the given lengths. -/
def cutAll : List ℕ → List α → List β
  | [], _ => []
  | n :: ns, xs => cut mark n xs ++ cutAll ns (xs.drop n)

/-- The number of units that the lengths ask for. -/
def total : List ℕ → ℕ
  | [] => 0
  | n :: ns => n + total ns

theorem total_append (ns ns' : List ℕ) : total (ns ++ ns') = total ns + total ns' := by
  induction ns with
  | nil => exact (Nat.zero_add _).symm
  | cons n ns ih => rw [List.cons_append, total, total, ih, Nat.add_assoc]

variable {mark}

/-- A burst has nothing to do with the data after it. -/
theorem cut_append {n : ℕ} {xs : List α} (h : n ≤ xs.length) (ys : List α) :
    cut mark n (xs ++ ys) = cut mark n xs := by
  induction n generalizing xs with
  | zero => rfl
  | succ n ih =>
    match xs, h with
    | x :: xs, h => rw [List.cons_append, cut, cut, ih (Nat.le_of_succ_le_succ h)]

theorem cutAll_append {ns : List ℕ} {xs : List α} (h : total ns ≤ xs.length) (ys : List α) :
    cutAll mark ns (xs ++ ys) = cutAll mark ns xs := by
  induction ns generalizing xs with
  | nil => rfl
  | cons n ns ih =>
    rw [total] at h
    have hn : n ≤ xs.length := Nat.le_of_add_right_le h
    rw [cutAll, cutAll, cut_append hn, List.drop_append_of_le_length hn, ih]
    rw [List.length_drop]
    exact Nat.le_sub_of_add_le' h

theorem cutAll_lengths_append (ns ns' : List ℕ) (xs : List α) :
    cutAll mark (ns ++ ns') xs = cutAll mark ns xs ++ cutAll mark ns' (xs.drop (total ns)) := by
  induction ns generalizing xs with
  | nil => rfl
  | cons n ns ih =>
    rw [List.cons_append, cutAll, cutAll, ih, total, List.drop_drop, List.append_assoc]

section Data

variable {f : β → α} (hf : ∀ x b, f (mark x b) = x)

include hf

theorem map_cut (n : ℕ) (xs : List α) : (cut mark n xs).map f = xs.take n := by
  induction n generalizing xs with
  | zero => rfl
  | succ n ih =>
    match xs with
    | [] => rfl
    | x :: xs => rw [cut, List.map_cons, hf, ih, List.take_succ_cons]

theorem map_cutAll (ns : List ℕ) (xs : List α) :
    (cutAll mark ns xs).map f = xs.take (total ns) := by
  induction ns generalizing xs with
  | nil => rfl
  | cons n ns ih => rw [cutAll, List.map_append, map_cut hf, ih, total, List.take_add]

/-- **Where the bursts come from.** Two streams are cut alike exactly if what is asked for of the
one is a beginning of the other. -/
theorem cutAll_eq_iff {ns : List ℕ} {xs ys : List α} (hx : xs.length = total ns) :
    cutAll mark ns ys = cutAll mark ns xs ↔ xs <+: ys := by
  constructor
  · intro h
    have hdata := congrArg (List.map f) h
    rw [map_cutAll hf, map_cutAll hf, ← hx, List.take_length] at hdata
    rw [← hdata]
    exact List.take_prefix _ _
  · rintro ⟨zs, rfl⟩
    exact cutAll_append (Nat.le_of_eq hx.symm) zs

end Data

end FpgaOs.Burst
