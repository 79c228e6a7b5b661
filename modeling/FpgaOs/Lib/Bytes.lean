import FpgaOs.Lib.BitField
import Mathlib.Data.List.Basic
import Mathlib.Order.Nat

/-!
# The bytes of machine words

`bytes k x` are the first `k` bytes of a word, the lowest one first. A range of a word that begins
and ends at bytes is a part of these, and assigning to such a range replaces it. So what is done to
words with range operators can be said of lists of bytes.

A sequence of bytes is sent as words of some length, and what the last word has room for beyond its
end may be anything (`Fills`).
-/

namespace FpgaOs.BitField

variable {n : ℕ}

def bytes (k : ℕ) (x : BitVec n) : List (BitVec 8) := (List.range k).map fun i ↦ slice x (8 * i) 8

variable {k m o : ℕ} {x : BitVec n}

@[simp] theorem length_bytes (k : ℕ) (x : BitVec n) : (bytes k x).length = k := by
  rw [bytes, List.length_map, List.length_range]

@[simp] theorem getElem_bytes {i : ℕ} (hi : i < (bytes k x).length) :
    (bytes k x)[i] = slice x (8 * i) 8 := by
  simp only [bytes, List.getElem_map, List.getElem_range]

theorem slice_slice {off w off' w' : ℕ} (h : off' + w' ≤ w) :
    slice (slice x off w) off' w' = slice x (off + off') w' := by
  apply BitVec.eq_of_getLsbD_eq
  intro i hi
  rw [slice, slice, slice, BitVec.getLsbD_extractLsb', BitVec.getLsbD_extractLsb',
    BitVec.getLsbD_extractLsb', decide_eq_true hi, decide_eq_true (by omega : off' + i < w),
    Bool.true_and, Bool.true_and, Bool.true_and, Nat.add_assoc]

theorem bytes_slice (h : o + k ≤ m) (x : BitVec n) :
    bytes k (slice x (8 * o) (8 * k)) = ((bytes m x).drop o).take k := by
  refine List.ext_getElem ?_ fun i hi hi' ↦ ?_
  · rw [length_bytes, List.length_take, List.length_drop, length_bytes]
    omega
  · rw [length_bytes] at hi
    rw [getElem_bytes, List.getElem_take, List.getElem_drop, getElem_bytes,
      slice_slice (by omega), Nat.mul_add]

theorem bytes_zero (k : ℕ) : bytes k (0 : BitVec n) = List.replicate k 0 := by
  refine List.ext_getElem ?_ fun i _ _ ↦ ?_
  · rw [length_bytes, List.length_replicate]
  · rw [getElem_bytes, List.getElem_replicate]
    exact BitVec.extractLsb'_zero

theorem bytes_setWidth_setWidth (h : k ≤ m) (x : BitVec (8 * m)) :
    bytes m ((x.setWidth (8 * k)).setWidth (8 * m))
      = (bytes m x).take k ++ List.replicate (m - k) 0 := by
  refine List.ext_getElem ?_ fun i hi _ ↦ ?_
  · rw [length_bytes, List.length_append, List.length_take, length_bytes, List.length_replicate]
    omega
  · rw [length_bytes] at hi
    rw [getElem_bytes, List.getElem_append]
    apply BitVec.eq_of_getLsbD_eq
    intro b hb
    rw [slice, BitVec.getLsbD_extractLsb', BitVec.getLsbD_setWidth, BitVec.getLsbD_setWidth,
      decide_eq_true hb, decide_eq_true (by omega : 8 * i + b < 8 * m), Bool.true_and,
      Bool.true_and]
    split
    · next hlow =>
      rw [List.length_take, length_bytes] at hlow
      rw [List.getElem_take, getElem_bytes, slice, BitVec.getLsbD_extractLsb', decide_eq_true hb,
        decide_eq_true (by omega : 8 * i + b < 8 * k), Bool.true_and]
    · next hlow =>
      rw [List.length_take, length_bytes] at hlow
      rw [List.getElem_replicate, decide_eq_false (by omega : ¬8 * i + b < 8 * k), Bool.false_and]
      exact BitVec.getLsbD_zero.symm

/-- **Assigning to a range.** -/
theorem bytes_setSlice (h : o + k ≤ m) (hm : 8 * m ≤ n) (v : BitVec (8 * k)) :
    bytes m (setSlice x (8 * o) v)
      = (bytes m x).take o ++ (bytes k v ++ (bytes m x).drop (o + k)) := by
  refine List.ext_getElem ?_ fun i hi _ ↦ ?_
  · rw [List.length_append, List.length_append, List.length_take, List.length_drop, length_bytes,
      length_bytes, length_bytes]
    omega
  · have hfit : 8 * o + 8 * k ≤ n := by omega
    rw [getElem_bytes, List.getElem_append]
    split
    · next hlow =>
      rw [List.length_take, length_bytes] at hlow
      rw [List.getElem_take, getElem_bytes, slice_setSlice_of_disjoint hfit (by omega)]
    · next hlow =>
      rw [List.length_take, length_bytes] at hlow
      have hmin : min o m = o := Nat.min_eq_left (by omega)
      rw [List.getElem_append]
      simp only [List.length_take, length_bytes, hmin] at *
      split
      · next hmid =>
        obtain ⟨j, rfl⟩ := Nat.exists_eq_add_of_le (Nat.not_lt.mp hlow)
        rw [getElem_bytes]
        apply BitVec.eq_of_getLsbD_eq
        intro b hb
        rw [slice, slice, BitVec.getLsbD_extractLsb', BitVec.getLsbD_extractLsb',
          getLsbD_setSlice hfit, if_pos (by omega)]
        congr 2
        omega
      · next hmid =>
        rw [List.getElem_drop, getElem_bytes, slice_setSlice_of_disjoint hfit (by omega)]
        congr 2
        omega

theorem bytes_setSlice_setSlice (hm : 8 * (k + m) ≤ n) (x : BitVec n) (u : BitVec (8 * k))
    (v : BitVec (8 * m)) :
    bytes (k + m) (setSlice (setSlice x 0 u) (8 * k) v) = bytes k u ++ bytes m v := by
  have hlow : bytes (k + m) (setSlice x 0 u) = bytes k u ++ (bytes (k + m) x).drop k := by
    have hset := @bytes_setSlice n k (k + m) 0 x (by omega) hm u
    rwa [List.take_zero, List.nil_append, Nat.zero_add] at hset
  have hnone : (bytes (k + m) (setSlice x 0 u)).drop (k + m) = [] :=
    List.drop_of_length_le (Nat.le_of_eq (length_bytes _ _))
  rw [bytes_setSlice (Nat.le_refl _) hm, hnone, hlow, List.append_nil,
    List.take_left' (length_bytes k u)]

/-- A word is told by its bytes. -/
theorem bytes_injective (k : ℕ) {y z : BitVec (8 * k)} (h : bytes k y = bytes k z) : y = z := by
  apply BitVec.eq_of_getLsbD_eq
  intro i hi
  have hlt : i / 8 < k := by omega
  have hget : slice y (8 * (i / 8)) 8 = slice z (8 * (i / 8)) 8 := by
    have hbyte : (bytes k y)[i / 8]? = (bytes k z)[i / 8]? := congrArg (·[i / 8]?) h
    rwa [List.getElem?_eq_getElem (by rwa [length_bytes]),
      List.getElem?_eq_getElem (by rwa [length_bytes]), getElem_bytes, getElem_bytes,
      Option.some_inj] at hbyte
  have hbit := congrArg (BitVec.getLsbD · (i % 8)) hget
  rwa [slice, slice, BitVec.getLsbD_extractLsb', BitVec.getLsbD_extractLsb',
    decide_eq_true (by omega), Bool.true_and, Bool.true_and, Nat.div_add_mod] at hbit

/-- The bytes from `o` on are replaced by others. -/
def setBytes (x : BitVec n) (o : ℕ) : List (BitVec 8) → BitVec n
  | [] => x
  | b :: bs => setBytes (setSlice x (8 * o) b) (o + 1) bs

theorem setBytes_append (x : BitVec n) (o : ℕ) (bs cs : List (BitVec 8)) :
    setBytes x o (bs ++ cs) = setBytes (setBytes x o bs) (o + bs.length) cs := by
  induction bs generalizing x o with
  | nil => rfl
  | cons b bs ih =>
    rw [List.cons_append, setBytes, ih, setBytes, List.length_cons, Nat.add_right_comm]
    rfl

theorem bytes_setBytes (hm : 8 * m ≤ n) (x : BitVec n) {bs : List (BitVec 8)}
    (h : o + bs.length ≤ m) :
    bytes m (setBytes x o bs) = (bytes m x).take o ++ (bs ++ (bytes m x).drop (o + bs.length)) := by
  induction bs generalizing x o with
  | nil => rw [List.nil_append, List.length_nil, Nat.add_zero, List.take_append_drop]; rfl
  | cons b bs ih =>
    rw [List.length_cons] at h
    have hone : bytes 1 b = [b] := by
      rw [bytes, List.range_one, List.map_singleton, Nat.mul_zero]
      exact congrArg ([·]) (BitVec.extractLsb'_eq_self)
    have hset := @bytes_setSlice n 1 m o x (by omega) hm b
    rw [hone, ← List.append_assoc] at hset
    have hlen : ((bytes m x).take o ++ [b]).length = o + 1 := by
      rw [List.length_append, List.length_take, length_bytes, Nat.min_eq_left (by omega),
        List.length_singleton]
    rw [setBytes, ih _ (by omega), hset, List.take_left' hlen,
      List.drop_append, hlen, List.drop_of_length_le (by omega), List.drop_drop, List.length_cons,
      List.append_assoc, List.nil_append, Nat.add_sub_cancel_left, Nat.add_assoc,
      Nat.add_comm 1 bs.length]
    rfl

theorem bytes_setBytes_zero (hm : 8 * m ≤ n) (x : BitVec n) {bs : List (BitVec 8)}
    (h : bs.length ≤ m) : bytes m (setBytes x 0 bs) = bs ++ (bytes m x).drop bs.length := by
  rw [bytes_setBytes hm x ((Nat.zero_add _).symm ▸ h), List.take_zero, List.nil_append,
    Nat.zero_add]

section SetBytes

variable {x : BitVec (8 * m)} {bs cs : List (BitVec 8)}

theorem setSlice_eq_setBytes (h : o + k ≤ m) (v : BitVec (8 * k)) :
    setSlice x (8 * o) v = setBytes x o (bytes k v) := by
  apply bytes_injective
  rw [bytes_setSlice h (Nat.le_refl _), bytes_setBytes (Nat.le_refl _) x, length_bytes]
  rwa [length_bytes]

/-- What is replaced does not matter. -/
theorem setBytes_setBytes (hle : bs.length ≤ cs.length) (h : cs.length ≤ m) :
    setBytes (setBytes x 0 bs) 0 cs = setBytes x 0 cs := by
  apply bytes_injective
  rw [bytes_setBytes_zero (Nat.le_refl _) _ h, bytes_setBytes_zero (Nat.le_refl _) _ h,
    bytes_setBytes_zero (Nat.le_refl _) _ (hle.trans h), List.drop_append,
    List.drop_of_length_le hle, List.nil_append, List.drop_drop, Nat.add_sub_cancel' hle]

theorem setBytes_take_append (h : k + bs.length ≤ m) :
    setBytes x 0 ((bytes m x).take k ++ bs) = setBytes x k bs := by
  have hlen : ((bytes m x).take k).length = k := by
    rw [List.length_take, length_bytes]
    omega
  have hself : setBytes x 0 ((bytes m x).take k) = x := by
    apply bytes_injective
    rw [bytes_setBytes_zero (Nat.le_refl _) _ (by omega), hlen, List.take_append_drop]
  rw [setBytes_append, hself, hlen, Nat.zero_add]

/-- When the bits above the bytes are reset, it does not matter what was there before. -/
theorem setWidth_setBytes (h : bs.length ≤ m) :
    ((setBytes x 0 bs).setWidth (8 * bs.length)).setWidth (8 * m) = setBytes 0 0 bs := by
  apply bytes_injective
  rw [bytes_setWidth_setWidth h, bytes_setBytes_zero (Nat.le_refl _) _ h,
    bytes_setBytes_zero (Nat.le_refl _) _ h, bytes_zero, List.take_left' rfl, List.drop_replicate]

end SetBytes

/-! ## Words that hold a sequence -/

section Agree

variable {α : Type*} {b b' l : List α}

/-- The two lists are the same as far as both go. -/
def Agree (b l : List α) : Prop := ∀ i (hb : i < b.length) (hl : i < l.length), b[i] = l[i]

theorem agree_iff : Agree b l ↔ b.take l.length = l.take b.length := by
  constructor
  · intro h
    refine List.ext_getElem ?_ fun i hi hi' ↦ ?_
    · rw [List.length_take, List.length_take, Nat.min_comm]
    · rw [List.length_take] at hi hi'
      rw [List.getElem_take, List.getElem_take]
      exact h i (by omega) (by omega)
  · intro h i hb hl
    have hget : (b.take l.length)[i]? = (l.take b.length)[i]? := congrArg (·[i]?) h
    rwa [List.getElem?_take_of_lt hl, List.getElem?_take_of_lt hb, List.getElem?_eq_getElem hb,
      List.getElem?_eq_getElem hl, Option.some_inj] at hget

theorem Agree.nil (b : List α) : Agree b [] := fun i _ hi ↦ absurd hi (Nat.not_lt_zero i)

theorem agree_take (b : List α) (k : ℕ) : Agree b (b.take k) := fun _ _ _ ↦ List.getElem_take.symm

theorem Agree.take (h : Agree b l) (k : ℕ) : Agree (b.take k) l := by
  intro i hb hl
  rw [List.length_take] at hb
  rw [List.getElem_take]
  exact h i (by omega) hl

theorem Agree.drop (h : Agree b l) (k : ℕ) : Agree (b.drop k) (l.drop k) := by
  intro i hb hl
  rw [List.length_drop] at hb hl
  rw [List.getElem_drop, List.getElem_drop]
  exact h (k + i) (by omega) (by omega)

theorem Agree.of_append (h : Agree (b ++ b') l) : Agree b l := by
  have htake := h.take b.length
  rwa [List.take_left' rfl] at htake

theorem Agree.append_right (h : Agree (b ++ b') l) {k : ℕ} (hk : b.length = k) :
    Agree b' (l.drop k) := by
  have hdrop := h.drop k
  rwa [List.drop_left' hk] at hdrop

theorem Agree.append (h : Agree b l) (h' : Agree b' (l.drop b.length)) : Agree (b ++ b') l := by
  intro i hi hl
  rw [List.getElem_append]
  split
  · next hb => exact h i hb hl
  · next hb =>
    obtain ⟨j, rfl⟩ := Nat.exists_eq_add_of_le (Nat.not_lt.mp hb)
    rw [List.length_append] at hi
    have hget := h' j (by omega) (by rw [List.length_drop]; omega)
    rw [List.getElem_drop] at hget
    rw [← hget]
    congr 1
    omega

end Agree

/-- The blocks have `k` elements each and hold the sequence. What the last one holds beyond it does
not matter. -/
def Fills {α : Type*} (k : ℕ) : List α → List (List α) → Prop
  | l, [] => l = []
  | l, b :: bs => l ≠ [] ∧ b.length = k ∧ b.take l.length = l.take k ∧ Fills k (l.drop k) bs

section Fills

variable {α : Type*} {l b : List α} {bs : List (List α)}

@[simp] theorem fills_cons : Fills k l (b :: bs)
    ↔ l ≠ [] ∧ b.length = k ∧ b.take l.length = l.take k ∧ Fills k (l.drop k) bs := Iff.rfl

theorem Fills.eq_nil (h : Fills k ([] : List α) bs) : bs = [] := by
  cases bs with
  | nil => rfl
  | cons => exact absurd rfl h.1

theorem Fills.of_le (h : Fills k l (b :: bs)) (hle : l.length ≤ k) :
    bs = [] ∧ b.take l.length = l := by
  obtain ⟨-, -, htake, hrest⟩ := h
  rw [List.drop_of_length_le hle] at hrest
  rw [List.take_of_length_le hle] at htake
  exact ⟨hrest.eq_nil, htake⟩

theorem Fills.of_lt (h : Fills k l (b :: bs)) (hlt : k < l.length) :
    b = l.take k ∧ Fills k (l.drop k) bs ∧ bs ≠ [] := by
  obtain ⟨-, hlen, htake, hrest⟩ := h
  refine ⟨by rwa [List.take_of_length_le (Nat.le_of_lt (hlen ▸ hlt))] at htake, hrest, ?_⟩
  rintro rfl
  have hzero := congrArg List.length hrest
  rw [List.length_drop, List.length_nil] at hzero
  omega

theorem Fills.eq_take_flatten (h : Fills k l bs) : l = bs.flatten.take l.length := by
  induction bs generalizing l with
  | nil =>
    obtain rfl : l = [] := h
    rfl
  | cons b bs ih =>
    by_cases hle : l.length ≤ k
    · obtain ⟨rfl, htake⟩ := h.of_le hle
      rw [List.flatten_singleton, htake]
    · obtain ⟨rfl, hrest, -⟩ := h.of_lt (Nat.not_le.mp hle)
      have hlen : (l.take k).length = k := List.length_take_of_le (Nat.le_of_not_le hle)
      have hdrop := ih hrest
      rw [List.length_drop] at hdrop
      rw [List.flatten_cons, List.take_append, List.take_take, hlen, ← hdrop,
        Nat.min_eq_right (Nat.le_of_not_le hle), List.take_append_drop]

/-- There are just as many blocks as are needed. -/
theorem Fills.length_bounds (h : Fills k l bs) (hk : 0 < k) :
    l.length ≤ k * bs.length ∧ k * bs.length < l.length + k := by
  induction bs generalizing l with
  | nil =>
    obtain rfl : l = [] := h
    exact ⟨Nat.zero_le _, Nat.lt_add_left _ hk⟩
  | cons b bs ih =>
    have hpos := List.length_pos_iff.mpr h.1
    rw [List.length_cons, Nat.mul_succ]
    by_cases hle : l.length ≤ k
    · obtain ⟨rfl, -⟩ := h.of_le hle
      rw [List.length_nil, Nat.mul_zero, Nat.zero_add]
      exact ⟨hle, Nat.lt_add_of_pos_left hpos⟩
    · obtain ⟨hlow, hhigh⟩ := ih h.2.2.2
      rw [List.length_drop] at hlow hhigh
      omega

end Fills

end FpgaOs.BitField
