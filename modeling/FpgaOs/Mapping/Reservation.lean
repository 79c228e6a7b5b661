import Mathlib.Algebra.NeZero
import Mathlib.Data.Fin.Basic
import Mathlib.Data.List.FinRange
import Mathlib.Logic.Function.Basic

/-!
# The reservation table

Before a request reads its BRAM bucket it reserves the index, and the reservation is released when
the request has been answered. Requests are answered in the order in which they were accepted, so
the table is a ring: an index is entered at the rear and released at the head. Of the sixteen
entries one stays empty, which tells a full ring from an empty one.

`Ring rt l` says that the ring holds the indices of `l`, in this order.
-/

namespace FpgaOs.Mapping

/-- `enum TABLE_OP`. -/
inductive TableOp
  | resv
  | pop
  deriving DecidableEq

/-- `struct table_request`. -/
structure TableRequest where
  opcode : TableOp
  index : BitVec 6
  deriving DecidableEq

def resvSuccess : BitVec 2 := 0
def addrExist : BitVec 2 := 1
def tableFull : BitVec 2 := 2

/-- The static variables of `address_reservation_table`. An entry is `none` when its top bit is
clear; the ring indices wrap by themselves. -/
structure ResvTable where
  table : Fin 16 → Option (BitVec 6)
  head : Fin 16
  rear : Fin 16

namespace ResvTable

def empty : ResvTable := ⟨fun _ ↦ none, 0, 0⟩

/-- The entry at the head is released. -/
def pop (rt : ResvTable) : ResvTable :=
  { rt with table := Function.update rt.table rt.head none, head := rt.head + 1 }

/-- Some valid entry has the index. -/
def has (rt : ResvTable) (index : BitVec 6) : Bool :=
  (List.finRange 16).any fun i ↦ rt.table i == some index

/-- An index is to be reserved. -/
def resv (rt : ResvTable) (index : BitVec 6) : ResvTable × BitVec 2 :=
  if rt.rear + 1 = rt.head then (rt, tableFull)
  else if rt.has index then (rt, addrExist)
  else ({ rt with table := Function.update rt.table rt.rear (some index), rear := rt.rear + 1 },
    resvSuccess)

/-- The entries from the head on are those of the list, and the others are not valid. -/
structure Ring (rt : ResvTable) (l : List (BitVec 6)) : Prop where
  length_lt : l.length < 16
  rear_eq : rt.rear = rt.head + Fin.ofNat 16 l.length
  table_eq : ∀ i : Fin 16, rt.table i = l[(i - rt.head).val]?

section Ring

variable {rt : ResvTable} {l : List (BitVec 6)} {x index : BitVec 6}

theorem Ring.empty : Ring .empty [] where
  length_lt := by decide
  rear_eq := rfl
  table_eq _ := rfl

theorem sub_succ : ∀ i h : Fin 16, i ≠ h → (i - h).val = (i - (h + 1)).val + 1 := by decide

theorem self_sub_succ : ∀ h : Fin 16, (h - (h + 1)).val = 15 := by decide

theorem add_sub_self : ∀ h k : Fin 16, h + k - h = k := by decide

theorem add_sub_other : ∀ h i : Fin 16, h + (i - h) = i := by decide

theorem Ring.pop (h : Ring rt (x :: l)) : Ring rt.pop l := by
  have hlen := h.length_lt
  rw [List.length_cons] at hlen
  constructor
  · exact Nat.lt_of_succ_lt hlen
  · change rt.rear = rt.head + 1 + Fin.ofNat 16 l.length
    rw [h.rear_eq, List.length_cons]
    apply Fin.ext
    simp only [Fin.val_add, Fin.val_ofNat, Fin.val_one]
    omega
  · intro i
    change Function.update rt.table rt.head none i = l[(i - (rt.head + 1)).val]?
    by_cases hi : i = rt.head
    · rw [hi, Function.update_self, self_sub_succ, List.getElem?_eq_none (by omega)]
    · rw [Function.update_of_ne hi, h.table_eq, sub_succ i rt.head hi, List.getElem?_cons_succ]

theorem Ring.has_iff (h : Ring rt l) : rt.has index = true ↔ index ∈ l := by
  simp only [has, List.any_eq_true, List.mem_finRange, true_and, beq_iff_eq, h.table_eq]
  constructor
  · rintro ⟨i, hi⟩
    exact List.mem_of_getElem? hi
  · intro hmem
    obtain ⟨k, hk⟩ := List.mem_iff_getElem?.mp hmem
    have hlt : k < l.length := (List.getElem?_eq_some_iff.mp hk).1
    refine ⟨rt.head + ⟨k, hlt.trans h.length_lt⟩, ?_⟩
    rw [add_sub_self]
    exact hk

/-- The ring is full when it has fifteen entries. -/
theorem Ring.full_iff (h : Ring rt l) : rt.rear + 1 = rt.head ↔ l.length = 15 := by
  have hlen := h.length_lt
  rw [h.rear_eq, Fin.ext_iff]
  simp only [Fin.val_add, Fin.val_ofNat, Fin.val_one]
  omega

/-- **A reservation** is granted when the ring is not full and does not have the index. -/
theorem Ring.resv (h : Ring rt l) (index : BitVec 6) :
    ((rt.resv index).2 = resvSuccess ∧ index ∉ l ∧ Ring (rt.resv index).1 (l ++ [index]))
      ∨ ((rt.resv index).2 ≠ resvSuccess ∧ (rt.resv index).1 = rt
        ∧ (l.length = 15 ∨ index ∈ l)) := by
  rw [ResvTable.resv]
  by_cases hfull : rt.rear + 1 = rt.head
  · rw [if_pos hfull]
    exact .inr ⟨(by decide : tableFull ≠ resvSuccess), rfl, .inl (h.full_iff.mp hfull)⟩
  rw [if_neg hfull]
  by_cases hhas : rt.has index = true
  · rw [if_pos hhas]
    exact .inr ⟨(by decide : addrExist ≠ resvSuccess), rfl, .inr (h.has_iff.mp hhas)⟩
  rw [if_neg hhas]
  have hlen := h.length_lt
  have hne := mt h.full_iff.mpr hfull
  refine .inl ⟨rfl, mt h.has_iff.mpr hhas, ?_, ?_, ?_⟩
  · rw [List.length_append, List.length_singleton]
    omega
  · change rt.rear + 1 = _
    rw [h.rear_eq, List.length_append, List.length_singleton]
    apply Fin.ext
    simp only [Fin.val_add, Fin.val_ofNat, Fin.val_one]
    omega
  · intro i
    change Function.update rt.table rt.rear (some index) i = (l ++ [index])[(i - rt.head).val]?
    -- the only cell that changes is the one behind the list
    by_cases hi : i = rt.rear
    · have hoff : (i - rt.head).val = l.length := by
        rw [hi, h.rear_eq, add_sub_self, Fin.val_ofNat, Nat.mod_eq_of_lt hlen]
      rw [hi, Function.update_self, ← hi, hoff, List.getElem?_concat_length]
    · have hoff : (i - rt.head).val ≠ l.length := by
        intro hoff
        apply hi
        rw [h.rear_eq, ← hoff, Fin.ofNat_val_eq_self, add_sub_other]
      rw [Function.update_of_ne hi, h.table_eq]
      rcases Nat.lt_or_gt_of_ne hoff with hlt | hgt
      · rw [List.getElem?_append_left hlt]
      · rw [List.getElem?_eq_none (by omega), List.getElem?_eq_none]
        rw [List.length_append, List.length_singleton]
        omega

end Ring

end ResvTable

end FpgaOs.Mapping
