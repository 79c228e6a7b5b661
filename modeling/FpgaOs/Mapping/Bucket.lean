import FpgaOs.Lib.BitField
import Mathlib.Algebra.Group.Nat.Defs
import Mathlib.Algebra.NeZero
import Mathlib.Data.Fin.Basic
import Mathlib.Data.List.FinRange

/-!
# Hash buckets

A bucket of the hashed page table is one word of the memory bus. It has room for seven mappings:
their keys stand first, then their values, then one permission bit and one bitmap bit for each, and
at the top the address of the next bucket of the chain with a flag that says whether there is one.

```text
 511    510 .. 485   484 .. 462   461 .. 455   454 .. 448   447 .. 224   223 .. 0
 chain  chain addr   reserved     bitmap       permission   values       keys
```

The fields are a type of their own, so that "a store to one field is not seen in another" is one
lemma. After it the word is read and written through the fields only, and the four ways in which the
pipeline writes a bucket (a slot of a DRAM bucket, a slot of a BRAM bucket, a promotion, a link)
come with what each of them does to every field.
-/

namespace FpgaOs.Mapping

open BitField

/-- A slot of a bucket; `NR_SLOTS_PER_BUCKET` is 7. -/
abbrev Slot := Fin 7

/-- The first slot. -/
abbrev slot0 : Slot := 0

/-- A bucket, `NR_BITS_BUCKET` bits. -/
abbrev Bucket := BitVec 512

/-! ## The layout -/

/-- The fields of a bucket. -/
inductive Field
  | key (i : Slot)
  | val (i : Slot)
  | perm (i : Slot)
  | bitmap (i : Slot)
  | chainAddr
  | chained
  deriving DecidableEq

namespace Field

/-- The width of a field: `NR_BITS_KEY`, `NR_BITS_VAL`, `NR_BITS_PERM`, one bit of the bitmap,
`NR_BITS_CHAIN_ADDR` and `NR_BITS_CHAIN_FLAG`. -/
@[reducible] def width : Field → ℕ
  | key _ => 32
  | val _ => 32
  | perm _ => 1
  | bitmap _ => 1
  | chainAddr => 26
  | chained => 1

/-- The lowest bit of a field: `NR_BITS_VAL_OFF` is 224, `NR_BITS_PERM_OFF` 448,
`NR_BITS_BITMAP_OFF` 455, `NR_BITS_CHAIN_ADDR_OFF` 485 and `NR_BITS_CHAIN_FLAG_OFF` 511. -/
def off : Field → ℕ
  | key i => i * 32
  | val i => i * 32 + 224
  | perm i => 448 + i
  | bitmap i => 455 + i
  | chainAddr => 485
  | chained => 511

theorem off_add_width_le (f : Field) : f.off + f.width ≤ 512 := by
  cases f <;> simp only [off, width] <;> omega

theorem off_disjoint {f g : Field} (h : g ≠ f) :
    g.off + g.width ≤ f.off ∨ f.off + f.width ≤ g.off := by
  cases f <;> cases g <;>
    simp only [off, width, ne_eq, reduceCtorEq, not_false_eq_true, not_true_eq_false, key.injEq,
      val.injEq, perm.injEq, bitmap.injEq, Fin.ext_iff] at h ⊢ <;> omega

end Field

namespace Bucket

def get (hb : Bucket) (f : Field) : BitVec f.width := slice hb f.off f.width

def set (hb : Bucket) (f : Field) (v : BitVec f.width) : Bucket := setSlice hb f.off v

theorem get_set_self (hb : Bucket) (f : Field) (v : BitVec f.width) : (hb.set f v).get f = v :=
  slice_setSlice_self f.off_add_width_le

theorem get_set_of_ne (hb : Bucket) {f g : Field} (v : BitVec f.width) (h : g ≠ f) :
    (hb.set f v).get g = hb.get g :=
  slice_setSlice_of_disjoint f.off_add_width_le (Field.off_disjoint h)

theorem set_get (hb : Bucket) (f : Field) : hb.set f (hb.get f) = hb :=
  setSlice_slice f.off_add_width_le

@[simp] theorem get_zero (f : Field) : get 0 f = 0 := by
  rw [get, slice]
  apply BitVec.eq_of_getLsbD_eq
  intro i hi
  simp

def key (hb : Bucket) (i : Slot) : BitVec 32 := hb.get (.key i)

def val (hb : Bucket) (i : Slot) : BitVec 32 := hb.get (.val i)

/-- The permission bit: read only, or read and write. -/
def perm (hb : Bucket) (i : Slot) : Bool := hb.get (.perm i) == 1#1

/-- The bitmap bit. -/
def used (hb : Bucket) (i : Slot) : Bool := hb.get (.bitmap i) == 1#1

def chained (hb : Bucket) : Bool := hb.get .chained == 1#1

def chainAddr (hb : Bucket) : BitVec 26 := hb.get .chainAddr

@[simp] theorem key_zero (i : Slot) : key 0 i = 0 := get_zero _

@[simp] theorem val_zero (i : Slot) : val 0 i = 0 := get_zero _

@[simp] theorem used_zero (i : Slot) : used 0 i = false := by rw [used, get_zero]; rfl

@[simp] theorem perm_zero (i : Slot) : perm 0 i = false := by rw [perm, get_zero]; rfl

@[simp] theorem chained_zero : chained 0 = false := by rw [chained, get_zero]; rfl

/-! ## Searching -/

/-- `__compare`: the first slot with the key, whatever the bitmap says. -/
def compare (hb : Bucket) (input : BitVec 32) : Option Slot :=
  (List.finRange 7).find? fun i ↦ hb.key i == input

/-- `find_empty_slot_dram`: the first slot whose bitmap bit is clear; `none` is the source's
`-1`. -/
def findEmptySlotDram (hb : Bucket) : Option Slot :=
  (List.finRange 7).find? fun i ↦ !hb.used i

/-- `find_empty_slot`: the same, but slot 0 when there is none. -/
def findEmptySlot (hb : Bucket) : Slot :=
  ((List.finRange 7).find? fun i ↦ !hb.used i).getD slot0

section Searching

variable {hb : Bucket} {i : Slot} {k : BitVec 32}

theorem key_of_compare (h : hb.compare k = some i) : hb.key i = k := by
  simpa using List.find?_some h

theorem compare_eq_none : hb.compare k = none ↔ ∀ i, hb.key i ≠ k := by
  simp [compare]

theorem used_of_findEmptySlotDram (h : hb.findEmptySlotDram = some i) : hb.used i = false := by
  simpa using List.find?_some h

theorem findEmptySlotDram_eq_none : hb.findEmptySlotDram = none ↔ ∀ i, hb.used i = true := by
  simp [findEmptySlotDram]

/-- The slots below the one found do not have what was looked for. -/
theorem of_lt_of_find {p : Slot → Bool} (h : (List.finRange 7).find? p = some i) {j : Slot}
    (hj : j < i) : p j = false := by
  obtain ⟨-, as, bs, heq, hbefore⟩ := List.find?_eq_some_iff_append.mp h
  have hsorted := List.pairwise_lt_finRange 7
  have hmem : j ∈ as ++ i :: bs := heq ▸ List.mem_finRange j
  rw [heq, List.pairwise_append] at hsorted
  rcases List.mem_append.mp hmem with hj' | hj'
  · simpa using hbefore j hj'
  · rcases List.mem_cons.mp hj' with rfl | hj'
    · exact absurd hj (lt_irrefl _)
    · exact absurd hj (not_lt.mpr ((List.pairwise_cons.mp hsorted.2.1).1 j hj').le)

theorem used_of_lt (h : hb.findEmptySlotDram = some i) {j : Slot} (hj : j < i) :
    hb.used j = true := by
  simpa using of_lt_of_find h hj

theorem key_ne_of_lt (h : hb.compare k = some i) {j : Slot} (hj : j < i) : hb.key j ≠ k := by
  simpa using of_lt_of_find h hj

/-- `find_empty_slot` finds the lowest slot that is not taken, or there is none. -/
theorem findEmptySlot_spec (hb : Bucket) :
    (hb.used hb.findEmptySlot = false ∧ ∀ j < hb.findEmptySlot, hb.used j = true)
      ∨ ((∀ j, hb.used j = true) ∧ hb.findEmptySlot = slot0) := by
  cases hfind : hb.findEmptySlotDram with
  | none =>
    refine .inr ⟨findEmptySlotDram_eq_none.mp hfind, ?_⟩
    rw [findEmptySlotDram] at hfind
    rw [findEmptySlot, hfind, Option.getD_none]
  | some i =>
    have hslot : hb.findEmptySlot = i := by
      have hfind' := hfind
      rw [findEmptySlotDram] at hfind'
      rw [findEmptySlot, hfind', Option.getD_some]
    rw [hslot]
    exact .inl ⟨used_of_findEmptySlotDram hfind, fun j ↦ used_of_lt hfind⟩

end Searching

/-! ## Writing -/

/-- A mapping is stored in a slot whose bitmap bit is left as it is. -/
def replace (hb : Bucket) (i : Slot) (k v : BitVec 32) (p : Bool) : Bucket :=
  ((hb.set (.key i) k).set (.val i) v).set (.perm i) (BitVec.ofBool p)

/-- A slot is taken. -/
def take (hb : Bucket) (i : Slot) : Bucket := hb.set (.bitmap i) 1#1

/-- Key and value are stored in a slot, which is taken; its permission bit is left as it is. -/
def promote (hb : Bucket) (i : Slot) (k v : BitVec 32) : Bucket :=
  ((hb.take i).set (.key i) k).set (.val i) v

/-- The next bucket of the chain is set. -/
def link (hb : Bucket) (a : BitVec 26) : Bucket := (hb.set .chained 1#1).set .chainAddr a

section Writing

variable (hb : Bucket) (i j : Slot) (k v : BitVec 32) (p : Bool) (a : BitVec 26)

theorem key_replace : (hb.replace i k v p).key j = if j = i then k else hb.key j := by
  by_cases h : j = i
  · subst h
    simp [key, replace, get_set_of_ne, get_set_self]
  · simp [key, replace, get_set_of_ne, h]

theorem val_replace : (hb.replace i k v p).val j = if j = i then v else hb.val j := by
  by_cases h : j = i
  · subst h
    simp [val, replace, get_set_of_ne, get_set_self]
  · simp [val, replace, get_set_of_ne, h]

theorem perm_replace : (hb.replace i k v p).perm j = if j = i then p else hb.perm j := by
  by_cases h : j = i
  · subst h
    cases p <;> simp [perm, replace, get_set_self]
  · simp [perm, replace, get_set_of_ne, h]

@[simp] theorem used_replace : (hb.replace i k v p).used j = hb.used j := by
  simp [used, replace, get_set_of_ne]

@[simp] theorem chained_replace : (hb.replace i k v p).chained = hb.chained := by
  simp [chained, replace, get_set_of_ne]

@[simp] theorem chainAddr_replace : (hb.replace i k v p).chainAddr = hb.chainAddr := by
  simp [chainAddr, replace, get_set_of_ne]

theorem replace_self : hb.replace i (hb.key i) (hb.val i) (hb.perm i) = hb := by
  have hperm : BitVec.ofBool (hb.perm i) = hb.get (.perm i) := by
    rw [perm]
    rcases BitVec.eq_zero_or_eq_one (hb.get (.perm i)) with h | h <;> rw [h] <;> rfl
  rw [replace, key, val, hperm, set_get, set_get, set_get]

@[simp] theorem key_take : (hb.take i).key j = hb.key j := by simp [key, take, get_set_of_ne]

@[simp] theorem val_take : (hb.take i).val j = hb.val j := by simp [val, take, get_set_of_ne]

@[simp] theorem perm_take : (hb.take i).perm j = hb.perm j := by simp [perm, take, get_set_of_ne]

theorem used_take : (hb.take i).used j = if j = i then true else hb.used j := by
  by_cases h : j = i
  · subst h
    simp [used, take, get_set_self]
  · simp [used, take, get_set_of_ne, h]

@[simp] theorem chained_take : (hb.take i).chained = hb.chained := by
  simp [chained, take, get_set_of_ne]

@[simp] theorem chainAddr_take : (hb.take i).chainAddr = hb.chainAddr := by
  simp [chainAddr, take, get_set_of_ne]

theorem key_promote : (hb.promote i k v).key j = if j = i then k else hb.key j := by
  by_cases h : j = i
  · subst h
    simp [key, promote, get_set_of_ne, get_set_self]
  · simp [key, promote, take, get_set_of_ne, h]

theorem val_promote : (hb.promote i k v).val j = if j = i then v else hb.val j := by
  by_cases h : j = i
  · subst h
    simp [val, promote, get_set_self]
  · simp [val, promote, take, get_set_of_ne, h]

theorem used_promote : (hb.promote i k v).used j = if j = i then true else hb.used j := by
  by_cases h : j = i
  · subst h
    simp [used, promote, take, get_set_of_ne, get_set_self]
  · simp [used, promote, take, get_set_of_ne, h]

@[simp] theorem perm_promote : (hb.promote i k v).perm j = hb.perm j := by
  simp [perm, promote, take, get_set_of_ne]

@[simp] theorem key_link : (hb.link a).key j = hb.key j := by simp [key, link, get_set_of_ne]

@[simp] theorem val_link : (hb.link a).val j = hb.val j := by simp [val, link, get_set_of_ne]

@[simp] theorem perm_link : (hb.link a).perm j = hb.perm j := by simp [perm, link, get_set_of_ne]

@[simp] theorem used_link : (hb.link a).used j = hb.used j := by simp [used, link, get_set_of_ne]

@[simp] theorem chained_link : (hb.link a).chained = true := by
  simp [chained, link, get_set_of_ne, get_set_self]

@[simp] theorem chainAddr_link : (hb.link a).chainAddr = a := by
  simp [chainAddr, link, get_set_self]

end Writing

end Bucket

end FpgaOs.Mapping
