import FpgaOs.Lib.Machine
import Mathlib.Order.Nat

/-!
# Parts that do not get in each other's way

The inputs of a machine can stand for its parts: the input `i` lets part `i` move, if it is ready.
Parts that are joined by queues do not get in each other's way. A part that is ready stays so
whatever another one does, since that one only adds to what the first one reads; and when two are
ready, it does not matter which of them moves first.

Such a machine has one end at most. If some moves lead to a state in which no part is ready, then so
do all others, and it takes as many of them (`Commutes.exists_through`); a schedule that forgets no
part gets there (`Commutes.run_rounds`). What a run makes can therefore be computed along the
schedule that is easiest to follow.
-/

namespace FpgaOs.Machine

variable {σ ι : Type*} (step : σ → ι → σ) (ready : σ → ι → Prop)

/-- The parts do not get in each other's way. -/
structure Commutes : Prop where
  idle : ∀ s i, ¬ready s i → step s i = s
  stays : ∀ s i j, i ≠ j → ready s i → ready s j → ready (step s j) i
  comm : ∀ s i j, i ≠ j → ready s i → ready s j → step (step s i) j = step (step s j) i

/-- These moves lead from one state to the other. -/
def Through (s : σ) (is : List ι) (t : σ) : Prop := Guarded step ready s is ∧ run step s is = t

/-- No part is ready. -/
def Ended (t : σ) : Prop := ∀ i, ¬ready t i

variable {step ready} {s t : σ} {is : List ι}

variable (step ready) in
/-- Some moves lead from one state to the other. -/
def Reaches (s t : σ) : Prop := ∃ is, Through step ready s is t

theorem Reaches.refl (s : σ) : Reaches step ready s s := ⟨[], trivial, rfl⟩

theorem Reaches.head {i : ι} (hi : ready s i) (h : Reaches step ready (step s i) t) :
    Reaches step ready s t := by
  obtain ⟨is, hguarded, hrun⟩ := h
  exact ⟨i :: is, ⟨hi, hguarded⟩, hrun⟩

theorem Reaches.trans {u : σ} (h : Reaches step ready s t) (h' : Reaches step ready t u) :
    Reaches step ready s u := by
  obtain ⟨is, hguarded, rfl⟩ := h
  obtain ⟨js, hguarded', hrun⟩ := h'
  exact ⟨is ++ js, guarded_append.mpr ⟨hguarded, hguarded'⟩, (run_append step s is js).trans hrun⟩

/-- What a part does on its own it does as a part, too. -/
theorem Reaches.map {τ κ : Type*} {part : τ → κ → τ} {able : τ → κ → Prop} {f : τ → σ} {g : κ → ι}
    (hstep : ∀ x k, able x k → step (f x) (g k) = f (part x k))
    (hready : ∀ x k, able x k → ready (f x) (g k)) {x y : τ} (h : Reaches part able x y) :
    Reaches step ready (f x) (f y) := by
  obtain ⟨ks, hguarded, rfl⟩ := h
  induction ks generalizing x with
  | nil => exact .refl _
  | cons k ks ih =>
    refine .head (hready x k hguarded.1) ?_
    rw [hstep x k hguarded.1]
    exact ih hguarded.2

/-- A schedule leads on. -/
theorem Commutes.reaches_step (h : Commutes step ready) (hst : Reaches step ready s t) (i : ι) :
    Reaches step ready s (step t i) := by
  by_cases hi : ready t i
  · exact hst.trans (.head hi (.refl _))
  · rwa [h.idle t i hi]

theorem Commutes.run_of_ended (h : Commutes step ready) (ht : Ended ready t) (js : List ι) :
    run step t js = t := by
  induction js with
  | nil => rfl
  | cons j js ih => rw [run_cons, h.idle t j (ht j), ih]

/-- Whichever part moves first, it is one move less to the end. -/
theorem Commutes.through_step (h : Commutes step ready) (ht : Ended ready t)
    (hs : Through step ready s is t) {j : ι} (hj : ready s j) :
    ∃ js, Through step ready (step s j) js t ∧ js.length + 1 = is.length := by
  induction is generalizing s with
  | nil =>
    obtain ⟨-, rfl⟩ := hs
    exact absurd hj (ht j)
  | cons i is ih =>
    obtain ⟨⟨hi, hguarded⟩, hrun⟩ := hs
    by_cases hij : i = j
    · exact ⟨is, hij ▸ ⟨hguarded, hrun⟩, rfl⟩
    · -- `j` can still move after `i`, and then the rest of the moves is one shorter
      obtain ⟨js, hjs, hlen⟩ := ih ⟨hguarded, hrun⟩ (h.stays s j i (Ne.symm hij) hj hi)
      rw [h.comm s i j hij hi hj] at hjs
      refine ⟨i :: js, ⟨⟨h.stays s i j hij hi hj, hjs.1⟩, hjs.2⟩, ?_⟩
      rw [List.length_cons, List.length_cons, hlen]

/-- The schedule has made some of the moves, or none of its parts was ready. -/
theorem Commutes.lt_or_forall (h : Commutes step ready) (ht : Ended ready t)
    (hs : Through step ready s is t) (js : List ι) :
    (∃ ks, Through step ready (run step s js) ks t ∧ ks.length < is.length)
      ∨ run step s js = s ∧ ∀ j ∈ js, ¬ready s j := by
  induction js generalizing s is with
  | nil => exact .inr ⟨rfl, List.forall_mem_nil _⟩
  | cons j js ih =>
    rw [run_cons]
    by_cases hj : ready s j
    · obtain ⟨is', hs', hlen⟩ := h.through_step ht hs hj
      obtain ⟨ks, hks, hlt⟩ | ⟨heq, -⟩ := ih hs'
      · exact .inl ⟨ks, hks, hlt.trans (Nat.lt_of_succ_le hlen.le)⟩
      · exact .inl ⟨is', by rwa [heq], Nat.lt_of_succ_le hlen.le⟩
    · rw [h.idle s j hj]
      exact (ih hs).imp_right fun hall ↦ ⟨hall.1, List.forall_mem_cons.mpr ⟨hj, hall.2⟩⟩

/-- **The end can be reached from wherever a schedule has led.** -/
theorem Commutes.exists_through (h : Commutes step ready) (ht : Ended ready t)
    (hs : Through step ready s is t) (js : List ι) :
    ∃ ks, Through step ready (run step s js) ks t ∧ ks.length ≤ is.length := by
  obtain ⟨ks, hks, hlt⟩ | ⟨heq, -⟩ := h.lt_or_forall ht hs js
  · exact ⟨ks, hks, hlt.le⟩
  · exact ⟨is, by rwa [heq], le_rfl⟩

/-- **A schedule that forgets no part gets to the end.** -/
theorem Commutes.run_rounds (h : Commutes step ready) (ht : Ended ready t)
    (hs : Through step ready s is t) {rounds : List (List ι)} (hrounds : ∀ r ∈ rounds, ∀ i, i ∈ r)
    (hlen : is.length ≤ rounds.length) : run step s rounds.flatten = t := by
  induction rounds generalizing s is with
  | nil =>
    obtain rfl := List.length_eq_zero_iff.mp (Nat.le_zero.mp hlen)
    exact hs.2
  | cons r rounds ih =>
    obtain ⟨hr, hrounds⟩ := List.forall_mem_cons.mp hrounds
    rw [List.flatten_cons, run_append]
    obtain ⟨ks, hks, hlt⟩ | ⟨heq, hnone⟩ := h.lt_or_forall ht hs r
    · exact ih hks hrounds (Nat.le_of_lt_succ (Nat.lt_of_lt_of_le hlt hlen))
    · have hended : Ended ready s := fun i ↦ hnone i (hr i)
      have hst : s = t := (h.run_of_ended hended is).symm.trans hs.2
      rw [heq, hst, h.run_of_ended ht]

/-- What is put out and not taken back is at any time a part of what there is at the end. -/
theorem Commutes.prefix_run {β : Type*} {out : σ → List β} (h : Commutes step ready)
    (hout : ∀ s i, out s <+: out (step s i)) (ht : Ended ready t) (hs : Through step ready s is t)
    (js : List ι) : out (run step s js) <+: out t := by
  obtain ⟨ks, ⟨-, rfl⟩, -⟩ := h.exists_through ht hs js
  have hstep : ∀ s' i, out (run step s js) <+: out s' → out (run step s js) <+: out (step s' i) :=
    fun s' i hs' ↦ hs'.trans (hout s' i)
  exact run_invariant hstep List.prefix_rfl ks

end FpgaOs.Machine
