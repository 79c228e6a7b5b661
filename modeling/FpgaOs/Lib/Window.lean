import Mathlib.Data.List.Basic
import Mathlib.Data.List.Nodup
import Mathlib.Data.List.Range
import Mathlib.Data.Nat.Notation

/-!
# Windows of a sequence

When stages are connected by queues, all that ever passes through a queue is one sequence, and what
is in the queue at a moment is a window of it: `window g a b` are the values `g a, …, g (b - 1)`. A
reader takes the first value and moves the lower end of the window, a writer moves the upper end by
a value that must be the next of the sequence. So the state of a network of queues is described by
positions in sequences that do not change.
-/

namespace FpgaOs

variable {α β : Type*}

/-- The values of a sequence from position `a` up to, and without, position `b`. -/
def window (g : ℕ → α) (a b : ℕ) : List α := (List.range' a (b - a)).map g

section Window

variable {g g' : ℕ → α} {a b c k : ℕ}

@[simp] theorem window_self (g : ℕ → α) (a : ℕ) : window g a a = [] := by simp [window]

theorem window_cons (h : a < b) : window g a b = g a :: window g (a + 1) b := by
  obtain ⟨n, hn⟩ := Nat.exists_eq_add_of_lt h
  rw [window, window, hn, show a + n + 1 - a = n + 1 by omega,
    show a + n + 1 - (a + 1) = n by omega, List.range'_succ, List.map_cons]

theorem window_concat (h : a ≤ b) : window g a (b + 1) = window g a b ++ [g b] := by
  rw [window, window, show b + 1 - a = (b - a) + 1 by omega, List.range'_concat, List.map_append,
    List.map_singleton, Nat.one_mul, Nat.add_sub_cancel' h]

@[simp] theorem length_window (g : ℕ → α) (a b : ℕ) : (window g a b).length = b - a := by
  simp [window]

theorem window_congr (h : ∀ k, a ≤ k → k < b → g k = g' k) : window g a b = window g' a b := by
  apply List.map_congr_left
  intro k hk
  have hmem := List.mem_range'_1.mp hk
  exact h k hmem.1 (by omega)

theorem window_eq_nil (h : a ≤ b) : window g a b = [] ↔ a = b := by
  rw [← List.length_eq_zero_iff, length_window]
  omega

theorem mem_window {x : α} : x ∈ window g a b ↔ ∃ k, a ≤ k ∧ k < b ∧ g k = x := by
  simp only [window, List.mem_map, List.mem_range'_1]
  constructor
  · rintro ⟨k, ⟨hak, hkb⟩, rfl⟩
    exact ⟨k, hak, by omega, rfl⟩
  · rintro ⟨k, hak, hkb, rfl⟩
    exact ⟨k, ⟨hak, by omega⟩, rfl⟩

/-- A reader of a queue gets the next value of the sequence. -/
theorem window_eq_cons {x : α} {l : List α} (h : window g a b = x :: l) :
    a < b ∧ x = g a ∧ l = window g (a + 1) b := by
  have hlt : a < b := by
    have hlen := congrArg List.length h
    rw [length_window, List.length_cons] at hlen
    omega
  rw [window_cons hlt] at h
  obtain ⟨hx, hl⟩ := List.cons.inj h
  exact ⟨hlt, hx.symm, hl.symm⟩

theorem window_map (f : α → β) : (window g a b).map f = window (fun k ↦ f (g k)) a b := by
  simp [window, Function.comp_def]

theorem window_append (hab : a ≤ b) (hbc : b ≤ c) :
    window g a b ++ window g b c = window g a c := by
  rw [window, window, window, ← List.map_append, show c - a = (b - a) + (c - b) by omega]
  congr 1
  rw [← List.range'_append_1, Nat.add_sub_cancel' hab]

theorem window_add (g : ℕ → α) (a n : ℕ) : window (fun k ↦ g (a + k)) 0 n = window g a (a + n) := by
  rw [window, window, Nat.sub_zero, Nat.add_sub_cancel_left, List.range'_eq_map_range,
    List.range'_eq_map_range, List.map_map, List.map_map]
  exact List.map_congr_left fun k _ ↦ by rw [Function.comp_apply, Function.comp_apply, Nat.zero_add]

/-- What permutes a part of a window, and leaves the rest, permutes the window. -/
theorem window_perm {d : ℕ} (hab : a ≤ b) (hbc : b ≤ c) (hcd : c ≤ d)
    (hout : ∀ k, k < b ∨ c ≤ k → g k = g' k) (h : (window g b c).Perm (window g' b c)) :
    (window g a d).Perm (window g' a d) := by
  have hleft : window g a b = window g' a b := window_congr fun k _ hk ↦ hout k (Or.inl hk)
  have hright : window g c d = window g' c d := window_congr fun k hk _ ↦ hout k (Or.inr hk)
  rw [← window_append hab (hbc.trans hcd), ← window_append hab (hbc.trans hcd),
    ← window_append hbc hcd, ← window_append hbc hcd, hleft, hright]
  exact (h.append_right _).append_left _

/-- What holds of every two members of a window, in their order, holds of the values at two
positions. -/
theorem rel_of_pairwise_window {r : α → α → Prop} (h : (window g a b).Pairwise r) {j k : ℕ}
    (haj : a ≤ j) (hjk : j < k) (hkb : k < b) : r (g j) (g k) := by
  rw [← window_append (haj.trans hjk.le) hkb.le, List.pairwise_append] at h
  exact h.2.2 _ (mem_window.mpr ⟨j, haj, hjk, rfl⟩) _ (mem_window.mpr ⟨k, Nat.le_refl k, hkb, rfl⟩)

theorem window_ne (h : (window g a b).Nodup) {j k : ℕ} (haj : a ≤ j) (hjk : j < k) (hkb : k < b) :
    g j ≠ g k :=
  rel_of_pairwise_window h haj hjk hkb

end Window

end FpgaOs
