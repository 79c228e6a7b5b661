import Mathlib.Data.Nat.ModEq
import Mathlib.Data.List.Basic
import Mathlib.Logic.Function.Basic

/-!
# Bounded queues in ring memories

A memory of `2 ^ k` words holds a queue: the words from one position on, where positions are counted
on without end and a word is kept at its position modulo `2 ^ k`. As long as no more than `2 ^ k`
words are stored, a word is not overwritten, however often the positions have wrapped around.

`Fifo.step` is the queue by itself, in cycles in which a word may be taken out and another one put
in at the same time.
-/

namespace FpgaOs

variable {α : Type*} {k : ℕ}

/-! ## Positions -/

namespace Ring

section Position

variable {a b : ℕ}

/-- Positions are kept at the same place when they differ by a multiple of the size. -/
theorem ofNat_eq_iff (h : a ≤ b) : BitVec.ofNat k a = BitVec.ofNat k b ↔ 2 ^ k ∣ b - a := by
  rw [← BitVec.toNat_inj, BitVec.toNat_ofNat, BitVec.toNat_ofNat]
  exact Nat.modEq_iff_dvd' h

/-- Positions that differ by less than the size are kept at different places. -/
theorem ofNat_ne (h : a < b) (hlt : b < a + 2 ^ k) : BitVec.ofNat k a ≠ BitVec.ofNat k b := by
  intro heq
  have hdvd := (ofNat_eq_iff h.le).mp heq
  have hzero := Nat.eq_zero_of_dvd_of_lt hdvd (by omega)
  omega

/-- With the whole range in use, the same place means the same position, or one that is a whole
round away. -/
theorem ofNat_eq_iff_of_le (h : a ≤ b) (hle : b ≤ a + 2 ^ k) :
    BitVec.ofNat k a = BitVec.ofNat k b ↔ b = a ∨ b = a + 2 ^ k := by
  constructor
  · intro heq
    by_contra hne
    exact ofNat_ne (by omega) (by omega) heq
  · rintro (rfl | rfl)
    · rfl
    · rw [ofNat_eq_iff h, Nat.add_sub_cancel_left]

theorem setWidth_ofNat (a : ℕ) : (BitVec.ofNat (k + 1) a).setWidth k = BitVec.ofNat k a :=
  BitVec.setWidth_ofNat_of_le (Nat.le_succ k) a

end Position

/-! ## Words -/

section Words

/-- The words are stored from position `r` on. -/
structure Stores (mem : BitVec k → α) (r : ℕ) (q : List α) : Prop where
  length_le : q.length ≤ 2 ^ k
  get : ∀ i (h : i < q.length), mem (BitVec.ofNat k (r + i)) = q[i]

variable {mem : BitVec k → α} {r : ℕ} {q : List α}

theorem stores_nil (mem : BitVec k → α) (r : ℕ) : Stores mem r [] :=
  ⟨Nat.zero_le _, fun i h ↦ absurd h (Nat.not_lt_zero i)⟩

/-- The word at the first position is the first one. -/
theorem Stores.head {a : α} (h : Stores mem r (a :: q)) : mem (BitVec.ofNat k r) = a :=
  h.get 0 (Nat.zero_lt_succ _)

theorem Stores.tail {a : α} (h : Stores mem r (a :: q)) : Stores mem (r + 1) q := by
  refine ⟨(Nat.le_succ _).trans h.length_le, fun i hi ↦ ?_⟩
  rw [Nat.add_assoc, Nat.add_comm 1 i]
  exact h.get (i + 1) (Nat.succ_lt_succ hi)

/-- As long as there is room, the next word is stored without touching the others. -/
theorem Stores.push (h : Stores mem r q) (hlt : q.length < 2 ^ k) (a : α) :
    Stores (Function.update mem (BitVec.ofNat k (r + q.length)) a) r (q ++ [a]) := by
  refine ⟨by rw [List.length_append]; exact hlt, fun i hi ↦ ?_⟩
  rw [List.length_append, List.length_singleton] at hi
  rcases Nat.lt_succ_iff_lt_or_eq.mp hi with hi' | rfl
  · rw [Function.update_of_ne (ofNat_ne (by omega) (by omega)), List.getElem_append_left hi']
    exact h.get i hi'
  · rw [Function.update_self, List.getElem_concat_length rfl]

end Words

end Ring

/-! ## The queue -/

namespace Fifo

/-- In a cycle the first word may be taken out, and a word may be put in if there is room at the
start of the cycle. -/
def step (capacity : ℕ) (q : List α) (pop : Bool) (push : Option α) : List α :=
  (if pop then q.tail else q) ++ (if q.length < capacity then push.toList else [])

/-- The word that is taken out. -/
def popped (q : List α) (pop : Bool) : List α := if pop then q.head?.toList else []

/-- The word that is put in. -/
def pushed (capacity : ℕ) (q : List α) (push : Option α) : List α :=
  if q.length < capacity then push.toList else []

variable {capacity : ℕ} {q : List α}

theorem append_pushed (capacity : ℕ) (q : List α) (pop : Bool) (push : Option α) :
    q ++ pushed capacity q push = popped q pop ++ step capacity q pop push := by
  rw [step, popped, ← pushed]
  cases pop with
  | false => rfl
  | true =>
    rw [if_pos rfl, if_pos rfl, ← List.append_assoc]
    cases q <;> rfl

end Fifo

end FpgaOs
