import Mathlib.Data.List.Basic
import Mathlib.Data.List.Flatten

/-!
# Queues between stages

Stages of a pipeline go through the same list of jobs, each at its own pace, and every job sends
some units from one stage to the next. `Link` says what is in the queue between the two: with what
the stage in front still has to send, it is what the stage behind has still to take. The stage in
front is at job `a` and has `up` left of an earlier one; the stage behind is at job `b` and has
`down` left.

Whatever the stages do, a unit is the one that its reader expects, and a reader that needs a unit of
each job cannot be ahead of the writer.
-/

namespace FpgaOs

variable {α β : Type*}

/-- The queue between a stage at job `a` and one at job `b`. -/
def Link (units : α → List β) (js : List α) (queue up : List β) (a : ℕ) (down : List β) (b : ℕ) :
    Prop :=
  queue ++ (up ++ (js.drop a).flatMap units) = down ++ (js.drop b).flatMap units

variable {units : α → List β} {js : List α} {queue up down : List β} {a b n : ℕ} {x y : β} {j : α}

theorem drop_of_getElem? (h : js[n]? = some j) : js.drop n = j :: js.drop (n + 1) := by
  obtain ⟨hlt, rfl⟩ := List.getElem?_eq_some_iff.mp h
  exact List.drop_eq_getElem_cons hlt

theorem flatMap_drop (h : js[n]? = some j) :
    (js.drop n).flatMap units = units j ++ (js.drop (n + 1)).flatMap units := by
  rw [drop_of_getElem? h, List.flatMap_cons]

namespace Link

theorem start (units : α → List β) (js : List α) : Link units js [] [] 0 [] 0 := rfl

theorem push (h : Link units js queue (x :: up) a down b) :
    Link units js (queue ++ [x]) up a down b := by
  rw [Link, List.append_assoc]
  exact h

theorem push_list {xs : List β} (h : Link units js queue (xs ++ up) a down b) :
    Link units js (queue ++ xs) up a down b := by
  rw [Link, List.append_assoc, ← List.append_assoc xs]
  exact h

theorem take (h : Link units js (x :: queue) up a (y :: down) b) :
    x = y ∧ Link units js queue up a down b := List.cons.inj h

theorem begin_up (h : Link units js queue [] a down b) (hj : js[a]? = some j) :
    Link units js queue (units j) (a + 1) down b := by
  rw [Link, ← flatMap_drop hj]
  exact h

theorem begin_down (h : Link units js queue up a [] b) (hj : js[b]? = some j) :
    Link units js queue up a (units j) (b + 1) := by
  rw [Link, ← flatMap_drop hj]
  exact h

theorem exists_job (h : Link units js (x :: queue) up a [] b) : ∃ j, js[b]? = some j := by
  cases hj : js[b]? with
  | some j => exact ⟨j, rfl⟩
  | none =>
    rw [Link, List.drop_eq_nil_of_le (List.getElem?_eq_none_iff.mp hj)] at h
    exact absurd h (List.cons_ne_nil _ _)

/-! ## Who is ahead -/

/-- The number of units that jobs from the `n`th on still cause. -/
def remaining (units : α → List β) (js : List α) (n : ℕ) : ℕ :=
  ((js.drop n).flatMap units).length

theorem remaining_of_getElem? (h : js[n]? = some j) :
    remaining units js n = (units j).length + remaining units js (n + 1) := by
  rw [remaining, flatMap_drop h, List.length_append]
  rfl

theorem remaining_le (hab : a ≤ b) : remaining units js b ≤ remaining units js a := by
  obtain ⟨d, rfl⟩ := Nat.exists_eq_add_of_le hab
  have hsplit : (js.drop a).flatMap units
      = ((js.drop a).take d).flatMap units ++ (js.drop (a + d)).flatMap units := by
    rw [← List.flatMap_append, ← List.drop_drop, List.take_append_drop]
  rw [remaining, remaining, hsplit, List.length_append]
  exact Nat.le_add_left _ _

theorem remaining_lt (hne : ∀ j ∈ js, units j ≠ []) (hab : a < b) (ha : a < js.length) :
    remaining units js b < remaining units js a := by
  rw [remaining_of_getElem? (List.getElem?_eq_getElem ha)]
  have hpos := List.length_pos_iff.mpr (hne _ (List.getElem_mem ha))
  have hle : remaining units js b ≤ remaining units js (a + 1) := remaining_le hab
  omega

/-- What is on its way is what the stage behind lacks and the stage in front has sent. -/
theorem length_eq (h : Link units js queue up a down b) :
    queue.length + (up.length + remaining units js a) = down.length + remaining units js b := by
  have hlength := congrArg List.length h
  rwa [List.length_append, List.length_append, List.length_append] at hlength

theorem le (h : Link units js queue up a [] b) (hne : ∀ j ∈ js, units j ≠ []) (hb : b ≤ js.length) :
    b ≤ a := by
  by_contra hlt
  have hlength := h.length_eq
  have hless := remaining_lt hne (Nat.lt_of_not_le hlt) (by omega)
  rw [List.length_nil] at hlength
  omega

theorem lt (h : Link units js (x :: queue) [] a [] b) (hne : ∀ j ∈ js, units j ≠ [])
    (hb : b < js.length) : b < a := by
  refine Nat.lt_of_le_of_ne (h.le hne (Nat.le_of_lt hb)) fun heq ↦ ?_
  rw [Link, heq] at h
  exact List.cons_ne_nil x queue (List.append_left_eq_self.mp h)

theorem eq_of_nil (h : Link units js [] [] a [] b) (hne : ∀ j ∈ js, units j ≠ [])
    (ha : a ≤ js.length) (hb : b ≤ js.length) : b = a := by
  refine Nat.le_antisymm (h.le hne hb) ?_
  by_contra hlt
  have hlength := h.length_eq
  have hless := remaining_lt hne (Nat.lt_of_not_le hlt) (by omega)
  rw [List.length_nil] at hlength
  omega

end Link

end FpgaOs
