import Mathlib.Data.List.Basic
import Mathlib.Data.Nat.Notation

/-!
# A server that is asked one thing at a time

A client sends requests into a queue, and a server answers them in order, some time later, into
another queue; the answer to the `n`-th request `r` is `f n r`. The client here waits for an answer
before it asks again. `taken` is the number of answers it has read, so the next answer it will read
is number `taken`, whether or not it has been given yet.
-/

namespace FpgaOs

variable {α β : Type*}

/-- The requests that have not been answered, the number of those that have, and the answers that
have not been read. -/
structure Query (α β : Type*) where
  reqs : List α
  answered : ℕ
  rets : List β

namespace Query

def empty : Query α β := ⟨[], 0, []⟩

def ask (q : Query α β) (r : α) : Query α β := { q with reqs := q.reqs ++ [r] }

/-- The server answers its oldest request. -/
def answer (f : ℕ → α → β) (q : Query α β) : Query α β :=
  match q.reqs with
  | [] => q
  | r :: reqs => ⟨reqs, q.answered + 1, q.rets ++ [f q.answered r]⟩

/-- The number of answers that have been read. -/
def taken (q : Query α β) : ℕ := q.answered - q.rets.length

/-- Nothing is outstanding. -/
def Idle (q : Query α β) : Prop := q.reqs = [] ∧ q.rets = []

/-- One request is outstanding, `r`. -/
def Waiting (f : ℕ → α → β) (q : Query α β) (r : α) : Prop :=
  (q.reqs = [r] ∧ q.rets = []) ∨ (q.reqs = [] ∧ q.rets = [f q.taken r] ∧ 0 < q.answered)

variable {f : ℕ → α → β} {q : Query α β} {r : α} {a : β} {rest : List β}

theorem idle_empty : (empty : Query α β).Idle := ⟨rfl, rfl⟩

theorem Idle.ask (h : q.Idle) (r : α) : (q.ask r).Waiting f r := by
  left
  rw [Query.ask, h.1]
  exact ⟨rfl, h.2⟩

theorem Idle.answer (h : q.Idle) : q.answer f = q := by rw [Query.answer, h.1]

theorem Waiting.answer (h : q.Waiting f r) :
    (q.answer f).Waiting f r ∧ (q.answer f).taken = q.taken := by
  obtain ⟨hreqs, hrets⟩ | ⟨hreqs, hrets, hpos⟩ := h
  · have htaken : q.taken = q.answered := by rw [taken, hrets]; rfl
    have htaken' : (q.answer f).taken = q.answered := by
      rw [Query.answer, hreqs, hrets]
      exact Nat.add_sub_cancel q.answered 1
    refine ⟨.inr ?_, htaken'.trans htaken.symm⟩
    rw [htaken', Query.answer, hreqs, hrets]
    exact ⟨rfl, rfl, Nat.succ_pos _⟩
  · have hsame : q.answer f = q := by rw [Query.answer, hreqs]
    rw [hsame]
    exact ⟨.inr ⟨hreqs, hrets, hpos⟩, rfl⟩

theorem Waiting.read (h : q.Waiting f r) (hrets : q.rets = a :: rest) :
    a = f q.taken r ∧ ({ q with rets := rest } : Query α β).Idle
      ∧ ({ q with rets := rest } : Query α β).taken = q.taken + 1 := by
  obtain ⟨-, hnil⟩ | ⟨hreqs, hone, hpos⟩ := h
  · rw [hnil] at hrets
    cases hrets
  · have heq := hrets.symm.trans hone
    obtain ⟨ha, hrest⟩ := List.cons.inj heq
    refine ⟨ha, ⟨hreqs, hrest⟩, ?_⟩
    rw [taken, taken, hrest, hone]
    exact (Nat.sub_add_cancel hpos).symm

theorem Waiting.ready (h : q.Waiting f r) : (q.answer f).rets ≠ [] := by
  obtain ⟨hreqs, hrets⟩ | ⟨hreqs, hrets, -⟩ := h
  · rw [Query.answer, hreqs]
    exact List.append_ne_nil_of_right_ne_nil _ (List.cons_ne_nil _ _)
  · rw [Query.answer, hreqs]
    dsimp only
    rw [hrets]
    exact List.cons_ne_nil _ _

end Query

end FpgaOs
