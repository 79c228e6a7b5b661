import Mathlib.Data.List.Basic
import Mathlib.Data.List.Nodup

/-!
# Linked chains

Cells of a store that point to at most one next cell each. `Chain next a l` says that following the
links from `a` visits exactly the cells of `l` and then stops; there is at most one such list, and
none when the links run in a circle. A store that changes cells off the chain does not change it,
and linking a new cell behind the last one adds it at the end.
-/

namespace FpgaOs.Linked

variable {α : Type*}

/-- Following `next` from a cell visits the cells of the list, in this order, and stops. -/
inductive Chain (next : α → Option α) : α → List α → Prop
  | last {a : α} : next a = none → Chain next a [a]
  | link {a b : α} {l : List α} : next a = some b → Chain next b l → Chain next a (a :: l)

variable {next next' : α → Option α} {a b x : α} {l l' : List α}

theorem Chain.exists_cons (h : Chain next a l) : ∃ l', l = a :: l' := by
  cases h with
  | last => exact ⟨_, rfl⟩
  | link => exact ⟨_, rfl⟩

theorem Chain.head_mem (h : Chain next a l) : a ∈ l := by
  obtain ⟨l', rfl⟩ := h.exists_cons
  exact List.mem_cons_self

theorem Chain.unique (h : Chain next a l) (h' : Chain next a l') : l = l' := by
  induction h generalizing l' with
  | last hnone =>
    cases h' with
    | last => rfl
    | link hsome => rw [hnone] at hsome; cases hsome
  | link hsome _ ih =>
    cases h' with
    | last hnone => rw [hsome] at hnone; cases hnone
    | link hsome' hrest =>
      rw [hsome] at hsome'
      obtain rfl := Option.some.inj hsome'
      rw [ih hrest]

/-- The cell at which the links stop is the last one. -/
theorem Chain.eq_nil_of_next {x : α} {l₁ l₂ : List α} (h : Chain next x (l₁ ++ a :: l₂))
    (hnone : next a = none) : l₂ = [] := by
  induction l₁ generalizing x with
  | nil =>
    cases h with
    | last => rfl
    | link hsome => rw [hnone] at hsome; cases hsome
  | cons y l₁ ih =>
    cases hrest : l₁ ++ a :: l₂ with
    | nil => exact absurd hrest (List.append_ne_nil_of_right_ne_nil _ (List.cons_ne_nil _ _))
    | cons z l =>
      rw [List.cons_append, hrest] at h
      cases h with
      | link _ hchain => exact ih (hrest ▸ hchain)

theorem Chain.congr (h : Chain next a l) (heq : ∀ x ∈ l, next' x = next x) : Chain next' a l := by
  induction h with
  | last hnone => exact .last ((heq _ List.mem_cons_self).trans hnone)
  | link hsome _ ih =>
    exact .link ((heq _ List.mem_cons_self).trans hsome)
      (ih fun x hx ↦ heq x (List.mem_cons_of_mem _ hx))

theorem Chain.suffix (h : Chain next a l) (hx : x ∈ l) : ∃ l', Chain next x l' ∧ l' <:+ l := by
  induction h with
  | last hnone =>
    rw [List.mem_singleton.mp hx]
    exact ⟨_, .last hnone, List.suffix_refl _⟩
  | link hsome hrest ih =>
    rcases List.mem_cons.mp hx with rfl | hx
    · exact ⟨_, .link hsome hrest, List.suffix_refl _⟩
    · obtain ⟨l', hl', hsuf⟩ := ih hx
      exact ⟨l', hl', hsuf.trans (List.suffix_cons _ _)⟩

theorem Chain.next_mem (h : Chain next a l) (hx : x ∈ l) (hb : next x = some b) : b ∈ l := by
  obtain ⟨l', hl', hsuf⟩ := h.suffix hx
  cases hl' with
  | last hnone => rw [hnone] at hb; cases hb
  | link hsome hrest =>
    rw [hsome] at hb
    obtain rfl := Option.some.inj hb
    exact hsuf.subset (List.mem_cons_of_mem _ hrest.head_mem)

theorem Chain.getLastD (h : Chain next a l) (d : α) :
    l.getLastD d ∈ l ∧ next (l.getLastD d) = none := by
  induction h with
  | last hnone => exact ⟨List.mem_singleton_self _, hnone⟩
  | link _ hrest ih =>
    obtain ⟨l', rfl⟩ := hrest.exists_cons
    exact ⟨List.mem_cons_of_mem _ ih.1, ih.2⟩

/-- **Linking a new cell behind the last one.** -/
theorem Chain.extend (h : Chain next a l) (hnodup : l.Nodup) {z : α} (hz : z ∈ l)
    (hzlast : next z = none) (heq : ∀ x ∈ l, x ≠ z → next' x = next x) (hnew : next' z = some b)
    (hb : next' b = none) : Chain next' a (l ++ [b]) := by
  induction h with
  | last hnone =>
    obtain rfl := List.mem_singleton.mp hz
    exact .link hnew (.last hb)
  | @link a' b' l' hsome hrest ih =>
    have hne : a' ≠ z := by
      rintro rfl
      rw [hsome] at hzlast
      cases hzlast
    have hz' := (List.mem_cons.mp hz).resolve_left hne.symm
    refine .link ((heq _ List.mem_cons_self hne).trans hsome) ?_
    exact ih (List.nodup_cons.mp hnodup).2 hz' fun x hx ↦ heq x (List.mem_cons_of_mem _ hx)

end FpgaOs.Linked
