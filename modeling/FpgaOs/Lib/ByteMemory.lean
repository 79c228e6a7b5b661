import Mathlib

/-!
# A memory of bytes that is accessed in wider units

A memory gives a byte for each address. It is read and written in units of `w` bits, the lowest byte
first, at any address. A unit is read as it was written last if nothing has been written since to a
byte of it.
-/

namespace FpgaOs.ByteMemory

/-- The unit at address `a`. -/
def readUnit (w : ℕ) (m : ℕ → BitVec 8) (a : ℕ) : BitVec w :=
  BitVec.ofFnLE fun i ↦ (m (a + i / 8)).getLsbD (i % 8)

variable {w : ℕ}

def writeUnit (m : ℕ → BitVec 8) (a : ℕ) (x : BitVec w) : ℕ → BitVec 8 :=
  fun b ↦ if a ≤ b ∧ b < a + w / 8 then x.extractLsb' (8 * (b - a)) 8 else m b

/-- Units are written one after another. -/
def writeAll (m : ℕ → BitVec 8) (us : List (ℕ × BitVec w)) : ℕ → BitVec 8 :=
  us.foldl (fun m u ↦ writeUnit m u.1 u.2) m

/-- Units at two addresses have no byte in common. -/
def Apart (w a b : ℕ) : Prop := a + w / 8 ≤ b ∨ b + w / 8 ≤ a

instance (w a b : ℕ) : Decidable (Apart w a b) := inferInstanceAs (Decidable (_ ∨ _))

section

variable {m : ℕ → BitVec 8} {a b : ℕ} {x : BitVec w} (hw : 8 ∣ w)

include hw

theorem readUnit_writeUnit : readUnit w (writeUnit m a x) a = x := by
  apply BitVec.eq_of_getLsbD_eq
  intro i hi
  have hin : a ≤ a + i / 8 ∧ a + i / 8 < a + w / 8 := by omega
  have hbit : 8 * (a + i / 8 - a) + i % 8 = i := by omega
  rw [readUnit, BitVec.getLsbD_ofFnLE, dif_pos hi]
  dsimp only
  rw [writeUnit, if_pos hin, BitVec.getLsbD_extractLsb', hbit,
    decide_eq_true (Nat.mod_lt i (by decide))]
  rfl

theorem readUnit_writeUnit_of_apart (h : Apart w a b) :
    readUnit w (writeUnit m b x) a = readUnit w m a := by
  apply BitVec.eq_of_getLsbD_eq
  intro i hi
  rw [Apart] at h
  have hout : ¬(b ≤ a + i / 8 ∧ a + i / 8 < b + w / 8) := by omega
  rw [readUnit, readUnit, BitVec.getLsbD_ofFnLE, BitVec.getLsbD_ofFnLE, dif_pos hi, dif_pos hi]
  dsimp only
  rw [writeUnit, if_neg hout]

theorem readUnit_writeAll_of_apart {us : List (ℕ × BitVec w)} (h : ∀ u ∈ us, Apart w a u.1) :
    readUnit w (writeAll m us) a = readUnit w m a := by
  induction us generalizing m with
  | nil => rfl
  | cons u us ih =>
    obtain ⟨hu, hus⟩ := List.forall_mem_cons.mp h
    exact (ih hus).trans (readUnit_writeUnit_of_apart hw hu)

/-- **The latest write counts.** -/
theorem readUnit_writeAll {us us' : List (ℕ × BitVec w)} (h : ∀ u ∈ us', Apart w a u.1) :
    readUnit w (writeAll m (us ++ (a, x) :: us')) a = x := by
  rw [writeAll, List.foldl_append]
  exact (readUnit_writeAll_of_apart hw h).trans (readUnit_writeUnit hw)

end

end FpgaOs.ByteMemory
