import Mathlib.Data.List.Basic
import Mathlib.Data.Nat.Notation

/-!
# Packets on a stream

A packet is a sequence of units of which the final one, and no other, is marked. Packets are sent
one after another, so where a packet ends can only be seen from the marks. `tagAll` attaches to each
unit of a stream of packets the packet it belongs to and its place there: what a reader makes of a
unit can then be compared with where the unit came from.
-/

namespace FpgaOs

variable {α : Type*} {last : α → Prop}

/-- The final unit is marked, and no other. -/
def Marked (last : α → Prop) : List α → Prop
  | [] => False
  | [u] => last u
  | u :: v :: us => ¬last u ∧ Marked last (v :: us)

instance Marked.decidable [DecidablePred last] : ∀ us : List α, Decidable (Marked last us)
  | [] => inferInstanceAs (Decidable False)
  | [u] => inferInstanceAs (Decidable (last u))
  | u :: v :: us =>
    have := Marked.decidable (v :: us)
    inferInstanceAs (Decidable (¬last u ∧ Marked last (v :: us)))

theorem Marked.ne_nil {us : List α} (h : Marked last us) : us ≠ [] := by
  rintro rfl
  exact h

/-- A packet is its final unit, or goes on after an unmarked one. -/
theorem marked_cons {u : α} {us : List α} :
    Marked last (u :: us) ↔ (us = [] ∧ last u) ∨ (¬last u ∧ Marked last us) := by
  cases us with
  | nil => exact ⟨fun h ↦ .inl ⟨rfl, h⟩, fun h ↦ h.elim And.right fun h ↦ h.2.elim⟩
  | cons v us =>
    exact ⟨fun h ↦ .inr h, fun h ↦ h.elim (fun h ↦ absurd h.1 (List.cons_ne_nil _ _)) id⟩

theorem marked_concat {us : List α} {u : α} (hus : ∀ v ∈ us, ¬last v) (hu : last u) :
    Marked last (us ++ [u]) := by
  induction us with
  | nil => exact hu
  | cons v us ih =>
    obtain ⟨hv, hus⟩ := List.forall_mem_cons.mp hus
    exact marked_cons.mpr (.inr ⟨hv, ih hus⟩)

theorem Marked.of_cons {u v : α} {us : List α} (h : Marked last (u :: v :: us)) :
    Marked last (v :: us) := h.2

/-- Nothing follows a marked unit. -/
theorem Marked.eq_nil_of_last {u : α} {us : List α} (h : Marked last (u :: us)) (hu : last u) :
    us = [] :=
  (marked_cons.mp h).elim And.left fun h ↦ absurd hu h.1

theorem Marked.of_not_last {u : α} {us : List α} (h : Marked last (u :: us)) (hu : ¬last u) :
    Marked last us :=
  (marked_cons.mp h).elim (fun h ↦ absurd h.2 hu) And.right

theorem Marked.split {l l' : List α} (h : Marked last (l ++ l')) (hl' : l' ≠ []) :
    (∀ a ∈ l, ¬last a) ∧ Marked last l' := by
  induction l with
  | nil => exact ⟨List.forall_mem_nil _, h⟩
  | cons a l ih =>
    obtain ⟨hnil, -⟩ | ⟨hlast, hmarked⟩ := marked_cons.mp h
    · exact absurd (List.append_eq_nil_iff.mp hnil).2 hl'
    · obtain ⟨hall, hmarked'⟩ := ih hmarked
      exact ⟨List.forall_mem_cons.mpr ⟨hlast, hall⟩, hmarked'⟩

theorem Marked.last_of_getLast? {us : List α} (h : Marked last us) {u : α}
    (hu : us.getLast? = some u) : last u := by
  induction us with
  | nil => exact absurd rfl h.ne_nil
  | cons v us ih =>
    obtain ⟨rfl, hlast⟩ | ⟨-, h⟩ := marked_cons.mp h
    · exact Option.some.inj hu ▸ hlast
    · refine ih h ?_
      rwa [List.getLast?_cons_of_ne_nil h.ne_nil] at hu

/-- A packet of one or more units. -/
structure Frame (last : α → Prop) where
  first : α
  rest : List α
  marked : Marked last (first :: rest)

namespace Frame

variable (p : Frame last)

def units : List α := p.first :: p.rest

theorem units_ne_nil : p.units ≠ [] := List.cons_ne_nil _ _

theorem rest_eq_nil_or_marked :
    (p.rest = [] ∧ last p.first) ∨ (¬last p.first ∧ Marked last p.rest) :=
  marked_cons.mp p.marked

end Frame

/-! ## Where a unit comes from -/

/-- The packet that a unit belongs to, and its place there. -/
structure Origin where
  packet : ℕ
  place : ℕ
  deriving DecidableEq

/-- The units of packet `k` from place `j` on. -/
def tagFrom (k : ℕ) : ℕ → List α → List (α × Origin)
  | _, [] => []
  | j, u :: us => (u, ⟨k, j⟩) :: tagFrom k (j + 1) us

/-- The units of packets, the first of which is number `k`. -/
def tagAll : ℕ → List (List α) → List (α × Origin)
  | _, [] => []
  | k, us :: uss => tagFrom k 0 us ++ tagAll (k + 1) uss

theorem tagFrom_append (k j : ℕ) (us us' : List α) :
    tagFrom k j (us ++ us') = tagFrom k j us ++ tagFrom k (j + us.length) us' := by
  induction us generalizing j with
  | nil => rfl
  | cons u us ih =>
    rw [List.cons_append, tagFrom, tagFrom, ih, List.length_cons, Nat.add_right_comm]; rfl

theorem map_fst_tagFrom (k j : ℕ) (us : List α) : (tagFrom k j us).map Prod.fst = us := by
  induction us generalizing j with
  | nil => rfl
  | cons u us ih => rw [tagFrom, List.map_cons, ih]

end FpgaOs
