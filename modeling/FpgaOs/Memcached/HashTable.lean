import FpgaOs.Alloc.Config
import FpgaOs.Lib.BitField
import Mathlib.Data.Fin.Basic
import Mathlib.Data.List.FinRange

/-!
# The hash table of the buddy-based memcached

A bucket of the hash table is eight words of memory. The first one, the head, has 128 bits for each
of four bins; the words after it hold the keys, 16 bytes of each of the four in one word.

```text
 bin i of the head, from bit 128 * i:

 127 .. 88    87 .. 56        55 .. 40       39 .. 8    7 .. 0
 unused       value address   value length   0x18       key length
```

A `SET` reads its bucket (`memRead`), compares its key with the four that are there (`ht_compare`)
and writes head and keys back with one bin changed (`memWriteWithBuddy`). A new entry is announced
to the buddy allocator, but its address is taken from a counter. Here a `SET` is one step; that
requests overlap is a matter of the stages it consists of.
-/

namespace FpgaOs.Memcached

open BitField Alloc

/-! ## Words of the table -/

/-- A bin of a bucket; `noOfBins` is 4. -/
abbrev Bin := Fin 4

/-- A word of memory, `memIntWidth` bits. -/
abbrev Word := BitVec 512

/-- The fields of a head. -/
inductive Field
  | keyLength (i : Bin)
  | reserved (i : Bin)
  | valueLength (i : Bin)
  | address (i : Bin)
  deriving DecidableEq

namespace Field

@[reducible] def width : Field → ℕ
  | keyLength _ => 8
  | reserved _ => 32
  | valueLength _ => 16
  | address _ => 32

/-- The lowest bit of a field; `bitsPerBin` is 128. -/
def off : Field → ℕ
  | keyLength i => 128 * i
  | reserved i => 128 * i + 8
  | valueLength i => 128 * i + 40
  | address i => 128 * i + 56

theorem off_add_width_le (f : Field) : f.off + f.width ≤ 512 := by
  cases f <;> simp only [off, width] <;> omega

theorem off_disjoint {f g : Field} (h : g ≠ f) :
    g.off + g.width ≤ f.off ∨ f.off + f.width ≤ g.off := by
  cases f <;> cases g <;>
    simp only [off, width, ne_eq, reduceCtorEq, not_false_eq_true,
      keyLength.injEq, reserved.injEq, valueLength.injEq, address.injEq, Fin.ext_iff] at h ⊢ <;>
    omega

end Field

namespace Word

def get (w : Word) (f : Field) : BitVec f.width := slice w f.off f.width

def set (w : Word) (f : Field) (v : BitVec f.width) : Word := setSlice w f.off v

theorem get_set_self (w : Word) (f : Field) (v : BitVec f.width) : (w.set f v).get f = v :=
  slice_setSlice_self f.off_add_width_le

theorem get_set_of_ne (w : Word) {f g : Field} (v : BitVec f.width) (h : g ≠ f) :
    (w.set f v).get g = w.get g :=
  slice_setSlice_of_disjoint f.off_add_width_le (Field.off_disjoint h)

/-- The part of the key of bin `i` that a word after the head holds. -/
def key (w : Word) (i : Bin) : BitVec 128 := slice w (128 * i) 128

def setKey (w : Word) (i : Bin) (k : BitVec 128) : Word := setSlice w (128 * i) k

end Word

/-! ## Requests -/

/-- The number of words that are read and written for a key: the head and one word for every 16
bytes. -/
def memCount (keyLength : BitVec 8) : BitVec 8 :=
  let count := keyLength / 16
  if count * 16 < keyLength then count + 2 else count + 1

/-- A `SET`, as it reaches `memRead`. The metadata is the hash of the key; `ht_inputLogic` lets no
empty key through, and cuts the key into as many words as there are to compare. -/
structure SetRequest where
  metadata : BitVec 32
  keyLength : BitVec 8
  valueLength : BitVec 16
  key : List (BitVec 128)
  keyLength_ne : keyLength ≠ 0
  length_key : key.length + 1 = (memCount keyLength).toNat

namespace SetRequest

variable (r : SetRequest)

/-- The bucket: seven bits of the hash. -/
def bucket : Fin 128 := (r.metadata.setWidth 7).toFin

/-- The key as `memRead` hands it on: the bits of a short key that do not belong to it are reset. -/
def words : List (BitVec 128) :=
  if r.keyLength ≤ 16 then
    r.key.map fun w ↦ (w.setWidth (8 * r.keyLength.toNat)).setWidth 128
  else r.key

theorem length_words : r.words.length = r.key.length := by
  rw [words]
  split
  · rw [List.length_map]
  · rfl

end SetRequest

/-! ## `ht_compare` -/

/-- `struct binStatus`. -/
structure BinStatus where
  free : Bool
  isMatch : Bool
  deriving DecidableEq

/-- State `CMP_HEAD`: the length of the key is compared. -/
def compareHead (head : Word) (keyLength : BitVec 8) (i : Bin) : BinStatus :=
  if head.get (.keyLength i) = 0 then ⟨true, false⟩
  else if head.get (.keyLength i) = keyLength then ⟨false, true⟩
  else ⟨false, false⟩

/-- State `CMP_COMPARE`: one word of the key is compared with the saved ones. -/
def compareWord (status : Bin → BinStatus) (saved : Word) (data : BitVec 128) (i : Bin) :
    BinStatus :=
  if saved.key i ≠ data then { status i with isMatch := false } else status i

/-- The comparison status of the four bins. -/
def htCompare (head : Word) (saved : List Word) (keyLength : BitVec 8) (words : List (BitVec 128)) :
    Bin → BinStatus :=
  (saved.zip words).foldl (fun status x ↦ compareWord status x.1 x.2) (compareHead head keyLength)

/-! ## `memWriteWithBuddy` -/

/-- `dummy_allocator`, at its call number `nr`. -/
def dummyAllocator (nr : ℕ) : BitVec 32 := 0x100000 + 0x100 * BitVec.ofNat 32 nr

/-- The order that the allocator is asked for: `order_base_2<16>(LENGTH_TO_ORDER(valueLength))`. -/
def orderOf (valueLength : BitVec 16) : BitVec 22 :=
  (orderBase2 (valueLength >>> minShift)).setWidth 22

/-- The loop of a `SET` goes down, so the lowest bin that is free or matches is the one it ends
with. -/
def location (status : Bin → BinStatus) : Option Bin :=
  (List.finRange 4).find? fun i ↦ (status i).free || (status i).isMatch

/-- And the lowest one that matches is to be replaced. -/
def replaceLocation (status : Bin → BinStatus) : Option Bin :=
  (List.finRange 4).find? fun i ↦ (status i).isMatch

/-- The head with the changed bin. -/
def newHead (head : Word) (i : Bin) (r : SetRequest) (addr : BitVec 32) : Word :=
  (((head.set (.keyLength i) r.keyLength).set (.reserved i) 0x18).set (.valueLength i)
    r.valueLength).set (.address i) addr

/-- Head and keys are in memory; `nr` counts the calls of `dummy_allocator`. -/
structure HashTable where
  mem : ℕ → Word
  nr : ℕ

/-- What a `SET` returns, and the order of the request to the allocator if there is one. -/
structure SetResult where
  status : BitVec 1
  address : BitVec 32
  order : Option (BitVec 22)
  deriving DecidableEq

/-- The address of a head: `address.range(9, 3)` is the number of the bucket. -/
def headAddress (b : Fin 128) : ℕ := 8 * b

namespace HashTable

variable (h : HashTable) (r : SetRequest)

def readWords (addr count : ℕ) : List Word := (List.range count).map fun i ↦ h.mem (addr + i)

def writeWords (addr : ℕ) (data : List Word) : HashTable :=
  { h with mem := fun a ↦ if addr ≤ a then data.getD (a - addr) (h.mem a) else h.mem a }

/-- The saved keys that a request is compared with. -/
def saved : List Word := h.readWords (headAddress r.bucket + 1) r.key.length

/-- What `memWriteWithBuddy` receives about the bins. -/
def binStatus : Bin → BinStatus :=
  htCompare (h.mem (headAddress r.bucket)) (h.saved r) r.keyLength r.words

/-- The head of the bucket (state `MW_EVAL`) and the keys (state `MW_SET_REST`) are written back
with one bin changed. -/
def writeBin (i : Bin) (addr : BitVec 32) : HashTable :=
  h.writeWords (headAddress r.bucket) <|
    newHead (h.mem (headAddress r.bucket)) i r addr :: (h.saved r).zipWith (·.setKey i ·) r.words

/-- A `SET` in state `MW_EVAL`. -/
def set : HashTable × SetResult :=
  match location (h.binStatus r) with
  | none => (h, ⟨1, 0, none⟩)
  | some i =>
    match replaceLocation (h.binStatus r) with
    | some j =>
      let addressPointer := (h.mem (headAddress r.bucket)).get (.address j)
      (h.writeBin r j addressPointer, ⟨0, addressPointer, none⟩)
    | none =>
      let addressPointer := dummyAllocator h.nr
      ({ h.writeBin r i addressPointer with nr := h.nr + 1 },
        ⟨0, addressPointer, some (orderOf r.valueLength)⟩)

/-- The table after a `SET`. -/
def step : HashTable := (h.set r).1

end HashTable

end FpgaOs.Memcached
