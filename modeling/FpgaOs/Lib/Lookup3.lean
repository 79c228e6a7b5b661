import FpgaOs.Lib.Bytes
import Mathlib.Data.List.GetD

/-!
# A hash function on bytes

The key is taken in blocks of twelve bytes. Three words are added to an accumulator for each block,
and after each block but the last the accumulator is mixed. The last block may be shorter; it is
filled up with zeros and followed by another mixing. A key without bytes is not mixed at all.
-/

namespace FpgaOs.Lookup3

open BitField

/-- The first four bytes as a word, the lowest one first. -/
def le32 (bs : List (BitVec 8)) : BitVec 32 :=
  bs.getD 3 0 ++ bs.getD 2 0 ++ bs.getD 1 0 ++ bs.getD 0 0

def rot (x : BitVec 32) (k : ℕ) : BitVec 32 := x <<< k ||| x >>> (32 - k)

/-- The accumulator. -/
structure Acc where
  a : BitVec 32
  b : BitVec 32
  c : BitVec 32
  deriving DecidableEq

namespace Acc

variable (s : Acc)

/-- The words of a block are added. -/
def add (block : List (BitVec 8)) : Acc :=
  ⟨s.a + le32 block, s.b + le32 (block.drop 4), s.c + le32 (block.drop 8)⟩

/-- `a -= c; a ^= rot(c, j); c += b;`, `b -= a; b ^= rot(a, k); a += c;` and
`c -= b; c ^= rot(b, l); b += a`. -/
def turn (j k l : ℕ) : Acc :=
  let a := (s.a - s.c) ^^^ rot s.c j
  let c := s.c + s.b
  let b := (s.b - a) ^^^ rot a k
  let a := a + c
  let c := (c - b) ^^^ rot b l
  ⟨a, b + a, c⟩

def mix : Acc := (s.turn 4 6 8).turn 16 19 4

/-- The last mixing. -/
def final : BitVec 32 :=
  let c := (s.c ^^^ s.b) - rot s.b 14
  let a := (s.a ^^^ c) - rot c 11
  let b := (s.b ^^^ a) - rot a 25
  let c := (c ^^^ b) - rot b 16
  let a := (a ^^^ c) - rot c 4
  let b := (b ^^^ a) - rot a 14
  (c ^^^ b) - rot b 24

end Acc

/-- What becomes of the accumulator with the rest of the key. -/
def absorb (s : Acc) (key : List (BitVec 8)) : BitVec 32 :=
  if 12 < key.length then absorb (s.add key).mix (key.drop 12)
  else if key = [] then s.c
  else (s.add key).final
termination_by key.length
decreasing_by
  rw [List.length_drop]
  omega

/-- The accumulator before the first block. -/
def init (length : ℕ) (initval : BitVec 32) : Acc :=
  let x := 0xdeadbeef + BitVec.ofNat 32 length + initval
  ⟨x, x, x⟩

def hash (key : List (BitVec 8)) (initval : BitVec 32) : BitVec 32 :=
  absorb (init key.length initval) key

/-! ## Words of a key -/

section Words

variable {n : ℕ}

theorem getLsbD_le32 (bs : List (BitVec 8)) {i : ℕ} (hi : i < 32) :
    (le32 bs).getLsbD i = (bs.getD (i / 8) 0).getLsbD (i % 8) := by
  obtain ⟨q, r, hr, rfl⟩ : ∃ q r, r < 8 ∧ i = 8 * q + r := ⟨i / 8, i % 8, by omega, by omega⟩
  rw [le32, BitVec.getLsbD_append, BitVec.getLsbD_append, BitVec.getLsbD_append,
    show (8 * q + r) / 8 = q by omega, show (8 * q + r) % 8 = r by omega]
  match q, (by omega : q < 4) with
  | 0, _ => simp [hr]
  | 1, _ => simp [hr, show ¬8 + r < 8 by omega]
  | 2, _ => simp [hr, show ¬16 + r < 8 by omega, show 16 + r - 8 - 8 = r by omega,
      show ¬16 + r - 8 < 8 by omega]
  | 3, _ => simp [show ¬24 + r < 8 by omega, show 24 + r - 8 - 8 - 8 = r by omega,
      show ¬24 + r - 8 < 8 by omega, show ¬24 + r - 8 - 8 < 8 by omega]

/-- A word of a part of a key: what does not belong to it is reset. -/
theorem le32_drop_take {m o : ℕ} (h : o + 4 ≤ m) (x : BitVec n) (k : ℕ) :
    le32 (((bytes m x).take k).drop o)
      = slice x (8 * o) 32 &&& (BitVec.allOnes (8 * (k - o))).setWidth 32 := by
  apply BitVec.eq_of_getLsbD_eq
  intro i hi
  rw [getLsbD_le32 _ hi, BitVec.getLsbD_and, BitVec.getLsbD_setWidth, BitVec.getLsbD_allOnes,
    slice, BitVec.getLsbD_extractLsb', decide_eq_true hi, Bool.true_and, Bool.true_and]
  by_cases hk : o + i / 8 < k
  · have hlt : i / 8 < (((bytes m x).take k).drop o).length := by
      rw [List.length_drop, List.length_take, length_bytes]
      omega
    rw [List.getD_eq_getElem _ _ hlt, List.getElem_drop, List.getElem_take, getElem_bytes, slice,
      BitVec.getLsbD_extractLsb', decide_eq_true (by omega), decide_eq_true (by omega),
      Bool.true_and, Bool.and_true]
    congr 1
    omega
  · rw [List.getD_eq_default, decide_eq_false (by omega), Bool.and_false]
    · exact BitVec.getLsbD_zero
    · rw [List.length_drop, List.length_take, length_bytes]
      omega

theorem le32_drop {m o : ℕ} (h : o + 4 ≤ m) (x : BitVec n) :
    le32 ((bytes m x).drop o) = slice x (8 * o) 32 := by
  have hword := le32_drop_take h x m
  rw [List.take_of_length_le (Nat.le_of_eq (length_bytes m x))] at hword
  rw [hword]
  apply BitVec.eq_of_getLsbD_eq
  intro i hi
  rw [BitVec.getLsbD_and, BitVec.getLsbD_setWidth, BitVec.getLsbD_allOnes, decide_eq_true hi,
    decide_eq_true (by omega), Bool.and_self, Bool.and_true]

/-- A block of which only the first twelve bytes matter. -/
theorem Acc.add_take (s : Acc) {k : ℕ} (hk : 12 ≤ k) (bs : List (BitVec 8)) :
    s.add (bs.take k) = s.add bs := by
  have hword : ∀ o, o + 4 ≤ k → le32 ((bs.take k).drop o) = le32 (bs.drop o) := by
    intro o ho
    have hget : ∀ i < 4, ((bs.take k).drop o).getD i 0 = (bs.drop o).getD i 0 := by
      intro i hi
      rw [List.getD_eq_getElem?_getD, List.getD_eq_getElem?_getD, List.getElem?_drop,
        List.getElem?_drop, List.getElem?_take_of_lt (by omega)]
    rw [le32, le32, hget 0 (by decide), hget 1 (by decide), hget 2 (by decide),
      hget 3 (by decide)]
  rw [add, add, ← hword 4 (by omega), ← hword 8 (by omega)]
  have hzero := hword 0 (by omega)
  rw [List.drop_zero, List.drop_zero] at hzero
  rw [hzero]

end Words

end FpgaOs.Lookup3
