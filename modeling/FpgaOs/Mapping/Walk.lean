import FpgaOs.Lib.Linked
import FpgaOs.Mapping.Pipeline

/-!
# The walk along a chain

The DRAM commands carry bucket indices relative to the table, of which only the low 26 bits matter
for the byte address; the links between buckets are such indices. So DRAM is seen here as a function
of 26 bits, `Tables.bucket`, on which chains are chains of `Linked`.

On a chain that ends, `fill_S1` finds what a search through the list of its buckets finds: the first
bucket that holds the key, or else the first with an empty slot, or else the last one. `walk_eq`
says so and is all that later files know about the walk.
-/

namespace FpgaOs.Mapping

open Linked

/-! ## Buckets by index -/

theorem Env.startAddress_inj {e : Env} {a b : BitVec 32} :
    e.startAddress a = e.startAddress b ↔ a.setWidth 26 = b.setWidth 26 := by
  rw [Env.startAddress, Env.startAddress, BitVec.add_left_inj]
  simp only [← BitVec.toNat_inj, BitVec.toNat_mul, BitVec.toNat_setWidth]
  rw [show (64 : BitVec 32).toNat = 64 from rfl]
  omega

namespace Tables

variable (e : Env) (t : Tables)

/-- The bucket with an index relative to the table. -/
def bucket (a : BitVec 26) : Bucket := t.readDram e (a.setWidth 32)

theorem readDram_eq (a : BitVec 32) : t.readDram e a = t.bucket e (a.setWidth 26) := by
  rw [bucket, readDram, readDram]
  congr 1
  rw [Env.startAddress_inj]
  simp

@[simp] theorem bucket_writeDram (a : BitVec 32) (hb : Bucket) :
    (t.writeDram e a hb).bucket e = Function.update (t.bucket e) (a.setWidth 26) hb := by
  funext x
  simp only [bucket, readDram, writeDram, Function.update_apply, Env.startAddress_inj]
  simp

@[simp] theorem bucket_writeBram (i : BitVec 6) (hb : Bucket) :
    (t.writeBram i hb).bucket e = t.bucket e := rfl

@[simp] theorem bram_writeBram (i : BitVec 6) (hb : Bucket) :
    (t.writeBram i hb).bram = Function.update t.bram i hb := rfl

@[simp] theorem bram_writeDram (a : BitVec 32) (hb : Bucket) : (t.writeDram e a hb).bram = t.bram :=
  rfl

@[simp] theorem allocs_writeBram (i : BitVec 6) (hb : Bucket) :
    (t.writeBram i hb).allocs = t.allocs := rfl

@[simp] theorem allocs_writeDram (a : BitVec 32) (hb : Bucket) :
    (t.writeDram e a hb).allocs = t.allocs := rfl

end Tables

/-! ## Searching a list of buckets -/

/-- A store of buckets, by index. -/
abbrev Store := BitVec 26 → Bucket

section Search

variable (m : Store)

/-- The link of a bucket. -/
def next (a : BitVec 26) : Option (BitVec 26) :=
  if (m a).chained then some (m a).chainAddr else none

/-- The first bucket of the list that holds the key, and the slot. -/
def findKey (l : List (BitVec 26)) (k : BitVec 32) : Option (BitVec 26 × Slot) :=
  l.findSome? fun a ↦ ((m a).compare k).map (a, ·)

/-- The first bucket of the list with an empty slot, and the slot. -/
def findRoom (l : List (BitVec 26)) : Option (BitVec 26 × Slot) :=
  l.findSome? fun a ↦ (m a).findEmptySlotDram.map (a, ·)

/-- Where a `SET` of the key puts its mapping: in the slot that has the key, in the first empty
slot, or behind the last bucket. -/
def place (l : List (BitVec 26)) (k : BitVec 32) : BitVec 26 × Option Slot :=
  match findKey m l k with
  | some (a, i) => (a, some i)
  | none =>
    match findRoom m l with
    | some (a, i) => (a, some i)
    | none => (l.getLastD 0, none)

variable {m} {l : List (BitVec 26)} {k : BitVec 32} {a : BitVec 26} {i : Slot}

theorem findKey_cons_some (h : (m a).compare k = some i) : findKey m (a :: l) k = some (a, i) := by
  simp [findKey, h]

theorem findKey_cons_none (h : (m a).compare k = none) : findKey m (a :: l) k = findKey m l k := by
  simp [findKey, h]

theorem findRoom_cons_some (h : (m a).findEmptySlotDram = some i) :
    findRoom m (a :: l) = some (a, i) := by
  simp [findRoom, h]

theorem findRoom_cons_none (h : (m a).findEmptySlotDram = none) :
    findRoom m (a :: l) = findRoom m l := by
  simp [findRoom, h]

theorem findKey_eq_none : findKey m l k = none ↔ ∀ a ∈ l, ∀ i, (m a).key i ≠ k := by
  simp [findKey, Bucket.compare_eq_none]

theorem findRoom_eq_none : findRoom m l = none ↔ ∀ a ∈ l, ∀ i, (m a).used i = true := by
  simp [findRoom, Bucket.findEmptySlotDram_eq_none]

theorem mem_of_findKey (h : findKey m l k = some (a, i)) : a ∈ l ∧ (m a).key i = k := by
  obtain ⟨b, hb, hfound⟩ := List.exists_of_findSome?_eq_some h
  obtain ⟨j, hj, heq⟩ := Option.map_eq_some_iff.mp hfound
  obtain ⟨rfl, rfl⟩ := Prod.mk.inj heq
  exact ⟨hb, Bucket.key_of_compare hj⟩

theorem mem_of_findRoom (h : findRoom m l = some (a, i)) :
    a ∈ l ∧ (m a).findEmptySlotDram = some i := by
  obtain ⟨b, hb, hfound⟩ := List.exists_of_findSome?_eq_some h
  obtain ⟨j, hj, heq⟩ := Option.map_eq_some_iff.mp hfound
  obtain ⟨rfl, rfl⟩ := Prod.mk.inj heq
  exact ⟨hb, hj⟩

end Search

/-! ## The walk is a search -/

namespace PipelineInfo

variable {m : Store} {l : List (BitVec 26)} {a : BitVec 26} {n : ℕ} {pi : PipelineInfo}

/-- The request when the walk is over. -/
def walked (m : Store) (l : List (BitVec 26)) (pi : PipelineInfo) : PipelineInfo :=
  match findKey m l pi.input with
  | some (a, i) => pi.hitDram (a.setWidth 32) (m a) i
  | none =>
    { pi with
      slotDram := if pi.isSet then (place m l pi.input).2 else pi.slotDram
      hbDram := m (if pi.isSet then (place m l pi.input).1 else l.getLastD 0)
      hbDramAddr := if pi.isSet then (place m l pi.input).1 else l.getLastD 0
      piState := pi.piState ||| piStateMissDram
      outputStatus := piOutputFailure
      output := 0 }

theorem isGet_eq_false (h : pi.isSet = true) : pi.isGet = false := by
  simp only [isSet, isGet, beq_iff_eq, piOpcodeSet, piOpcodeGet] at h ⊢
  rw [h]
  rfl

/-- What a `SET` has noted on the way is forgotten when the key turns up. -/
theorem hitDram_of_noted (h : pi.isSet = true) (s : Option Slot) (b : Bucket) (c : BitVec 26)
    (addr : BitVec 32) (hb : Bucket) (i : Slot) :
    { pi with slotDram := s, hbDram := b, hbDramAddr := c }.hitDram addr hb i
      = pi.hitDram addr hb i := by
  have hget := isGet_eq_false h
  simp only [isGet] at hget
  simp only [hitDram, denied, isGet, hget, Bool.false_and, Bool.false_eq_true, if_false]

/-- A `SET` walks on past a full bucket. -/
theorem walked_cons_full (hset : pi.isSet = true) (hcmp : (m a).compare pi.input = none)
    (hfull : (m a).findEmptySlotDram = none) (hl : l ≠ []) :
    pi.walked m (a :: l) = { pi with slotDram := none }.walked m l := by
  have hlast : (a :: l).getLastD 0 = l.getLastD 0 := by
    obtain ⟨b, l', rfl⟩ := List.exists_cons_of_ne_nil hl
    rfl
  have hset' : { pi with slotDram := none }.isSet = true := hset
  have hplace : place m (a :: l) pi.input = place m l pi.input := by
    rw [place, place, findKey_cons_none hcmp, findRoom_cons_none hfull, hlast]
  rw [walked, walked, findKey_cons_none hcmp, hplace, hlast]
  cases hkey : findKey m l pi.input with
  | none => simp only [hset, hset', if_true]
  | some x => exact (hitDram_of_noted hset none pi.hbDram pi.hbDramAddr _ _ _).symm

section Read

variable {mem : BitVec 32 → Bucket} (hmem : ∀ x, mem x = m (x.setWidth 26)) {found : Bool}

include hmem

theorem walk_hit {i : Slot} (h : (m a).compare pi.input = some i) :
    pi.walk mem (n + 1) found (a.setWidth 32) = some (pi.hitDram (a.setWidth 32) (m a) i) := by
  have hread : mem (a.setWidth 32) = m a := by rw [hmem]; simp
  rw [walk, hread, readBucket, h]

theorem walk_last (h : (m a).compare pi.input = none) (hnone : next m a = none) :
    pi.walk mem (n + 1) found (a.setWidth 32)
      = some ((pi.noteSlot found (a.setWidth 32) (m a)).1.missDram
          (pi.noteSlot found (a.setWidth 32) (m a)).2 (a.setWidth 32) (m a)) := by
  have hread : mem (a.setWidth 32) = m a := by rw [hmem]; simp
  have hch : (m a).chained = false := by simpa [next] using hnone
  rw [walk, hread, readBucket, h]
  simp only [hch, Bool.false_eq_true, if_false]

theorem walk_link {b : BitVec 26} (h : (m a).compare pi.input = none) (hsome : next m a = some b) :
    pi.walk mem (n + 1) found (a.setWidth 32)
      = (pi.noteSlot found (a.setWidth 32) (m a)).1.walk mem n
          (pi.noteSlot found (a.setWidth 32) (m a)).2 (b.setWidth 32) := by
  have hread : mem (a.setWidth 32) = m a := by rw [hmem]; simp
  have hch : (m a).chained = true ∧ (m a).chainAddr = b := by simpa [next] using hsome
  rw [walk, hread, readBucket, h]
  simp only [hch.1, hch.2, if_true]

/-- The walk when there is nothing to note: the request is no `SET`, or an empty slot was found. -/
theorem walk_noted (hl : Chain (next m) a l) (hn : l.length ≤ n)
    (hnote : (pi.isSet && !found) = false) :
    pi.walk mem n found (a.setWidth 32) = some (match findKey m l pi.input with
      | some (b, i) => pi.hitDram (b.setWidth 32) (m b) i
      | none => pi.missDram found ((l.getLastD 0).setWidth 32) (m (l.getLastD 0))) := by
  have hsame : ∀ addr hb, pi.noteSlot found addr hb = (pi, found) := by
    intro addr hb
    simp only [noteSlot, hnote, Bool.false_eq_true, if_false]
  induction hl generalizing n with
  | @last a hnone =>
    obtain ⟨n, rfl⟩ := Nat.exists_eq_add_of_le' hn
    cases hcmp : (m a).compare pi.input with
    | none =>
      rw [List.length_singleton, walk_last hmem hcmp hnone, hsame, findKey_cons_none hcmp]; rfl
    | some i => rw [List.length_singleton, walk_hit hmem hcmp, findKey_cons_some hcmp]
  | @link a b l hsome hrest ih =>
    obtain ⟨n, rfl⟩ := Nat.exists_eq_add_of_le' hn
    rw [List.length_cons, ← Nat.add_assoc]
    cases hcmp : (m a).compare pi.input with
    | none =>
      have hlast : (a :: l).getLastD 0 = l.getLastD 0 := by
        obtain ⟨l', rfl⟩ := hrest.exists_cons
        rfl
      rw [walk_link hmem hcmp hsome, hsame, findKey_cons_none hcmp, hlast]
      exact ih (Nat.le_add_left _ _)
    | some i => rw [walk_hit hmem hcmp, findKey_cons_some hcmp]

/-- **The walk of `fill_S1` is a search through the chain.** -/
theorem walk_eq (hl : Chain (next m) a l) (hn : l.length ≤ n) :
    pi.walk mem n false (a.setWidth 32) = some (pi.walked m l) := by
  by_cases hset : pi.isSet = true
  swap
  · have hset : pi.isSet = false := by simpa using hset
    rw [walk_noted hmem hl hn (by rw [hset]; rfl), walked]
    cases hkey : findKey m l pi.input with
    | none => simp [missDram, hset]
    | some x => rfl
  -- The induction is on the chain; on the way the request changes only by what it notes.
  induction hl generalizing n pi with
  | @last a hnone =>
    obtain ⟨n, rfl⟩ := Nat.exists_eq_add_of_le' hn
    rw [List.length_singleton]
    cases hcmp : (m a).compare pi.input with
    | none =>
      rw [walk_last hmem hcmp hnone, walked, findKey_cons_none hcmp]
      cases hroom : (m a).findEmptySlotDram with
      | none => simp [noteSlot, hset, hroom, missDram, place, findKey, findRoom, hcmp]
      | some i => simp [noteSlot, hset, hroom, missDram, place, findKey, findRoom, hcmp]
    | some i => rw [walk_hit hmem hcmp, walked, findKey_cons_some hcmp]
  | @link a b l hsome hrest ih =>
    obtain ⟨n, rfl⟩ := Nat.exists_eq_add_of_le' hn
    rw [List.length_cons, ← Nat.add_assoc]
    cases hcmp : (m a).compare pi.input with
    | none =>
      rw [walk_link hmem hcmp hsome]
      cases hroom : (m a).findEmptySlotDram with
      | none =>
        have hnote : pi.noteSlot false (a.setWidth 32) (m a)
          = ({ pi with slotDram := none }, false) := by
          simp [noteSlot, hset, hroom]
        have hl : l ≠ [] := by
          obtain ⟨l', rfl⟩ := hrest.exists_cons
          exact List.cons_ne_nil _ _
        have hset' : { pi with slotDram := none }.isSet = true := hset
        rw [hnote, walked_cons_full hset hcmp hroom hl]
        exact ih (Nat.le_add_left _ _) hset'
      | some i =>
        have hnote : pi.noteSlot false (a.setWidth 32) (m a)
            = ({ pi with slotDram := some i, hbDram := m a, hbDramAddr := a }, true) := by
          simp [noteSlot, hset, hroom]
        have hplace (hkey : findKey m l pi.input = none) :
            place m (a :: l) pi.input = (a, some i) := by
          rw [place, findKey_cons_none hcmp, hkey, findRoom_cons_some hroom]
        rw [hnote, walk_noted hmem hrest (Nat.le_add_left _ _) (Bool.and_false _), walked,
          findKey_cons_none hcmp]
        cases hkey : findKey m l pi.input with
        | none => simp [missDram, hset, hplace hkey]
        | some x => exact congrArg some (hitDram_of_noted hset _ _ _ _ _ _)
    | some i => rw [walk_hit hmem hcmp, walked, findKey_cons_some hcmp]

end Read

end PipelineInfo

end FpgaOs.Mapping
