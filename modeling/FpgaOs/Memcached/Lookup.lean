import FpgaOs.Lib.SlotMap
import FpgaOs.Memcached.Values

/-!
# The hash table is a map

Beside `SET`, `memWriteWithBuddy` knows `GET` and `DELETE`. All three compare the key of the request
with the four entries of its bucket. What a sequence of requests sees is a map from keys to an
address and a length of the value, with at most four keys in a bucket: a `SET` of a new key fails
exactly when its bucket has four others, an overwritten entry keeps its address, and a `DELETE`
makes room again.

`Store` is this map, `HashTable.apply` is the code on its memory. Keys have at most 112 bytes, so
that a bucket ends before the next one begins (`Short`).
-/

namespace FpgaOs.Memcached

open BitField

/-! ## The code -/

/-- The operations, as `metadata.range(111, 104)` has them. -/
inductive Operation
  | get
  | set
  | delete
  deriving DecidableEq

namespace Operation

def code : Operation → BitVec 8
  | get => 0
  | set => 1
  | delete => 4

end Operation

/-- A request to the table. The value length of a `GET` or `DELETE` is not used. -/
structure TableRequest extends SetRequest where
  op : Operation

/-- `struct decideResultWord`. A status of 1 means that the request has failed. -/
structure DecideResult where
  address : BitVec 32 := 0
  valueLength : BitVec 16 := 0
  operation : BitVec 8
  status : BitVec 1
  deriving DecidableEq

/-- `struct buddy_alloc_if`, as `memWriteWithBuddy` fills it. -/
inductive BuddyRequest
  | alloc (order : BitVec 22)
  | free (addr : BitVec 32) (order : BitVec 22)
  deriving DecidableEq

/-- The loop of a `DELETE` goes up, so it ends with the highest bin that matches. -/
def deleteLocation (status : Bin → BinStatus) : Option Bin :=
  (List.finRange 4).reverse.find? fun i ↦ (status i).isMatch

namespace HashTable

variable (h : HashTable) (r : SetRequest)

/-- A `GET` in state `MW_EVAL`. -/
def get : DecideResult :=
  match replaceLocation (h.binStatus r) with
  | none => { operation := Operation.get.code, status := 1 }
  | some i =>
    { address := (h.mem (headAddress r.bucket)).get (.address i)
      valueLength := (h.mem (headAddress r.bucket)).get (.valueLength i)
      operation := Operation.get.code
      status := 0 }

/-- A `DELETE` in state `MW_EVAL`. The address that is freed has lost its highest bit. -/
def delete : HashTable × DecideResult × Option BuddyRequest :=
  match deleteLocation (h.binStatus r) with
  | none => (h, { operation := Operation.delete.code, status := 1 }, none)
  | some i =>
    let head := h.mem (headAddress r.bucket)
    (h.writeWords (headAddress r.bucket) [(head.set (.keyLength i) 0).set (.valueLength i) 0],
      { operation := Operation.delete.code, status := 0 },
      some (.free (((head.get (.address i)).setWidth 31).setWidth 32)
        (orderOf (head.get (.valueLength i)))))

/-- A request in state `MW_EVAL` and after it: the table, the result, and what the allocator is
asked for. -/
def apply (r : TableRequest) : HashTable × DecideResult × Option BuddyRequest :=
  match r.op with
  | .get => (h, h.get r.toSetRequest, none)
  | .set =>
    let result := h.set r.toSetRequest
    (result.1,
      { address := result.2.address, operation := Operation.set.code, status := result.2.status },
      result.2.order.map .alloc)
  | .delete => h.delete r.toSetRequest

end HashTable

/-! ## The map -/

/-- What tells two entries apart. -/
structure Key where
  bucket : Fin 128
  keyLength : BitVec 8
  words : List (BitVec 128)
  deriving DecidableEq

/-- The address and the length of a value. -/
abbrev Value := BitVec 32 × BitVec 16

def SetRequest.toKey (r : SetRequest) : Key := ⟨r.bucket, r.keyLength, r.words⟩

/-- The keys with their values, and the number of addresses that have been handed out. -/
structure Store where
  map : Key → Option Value
  nr : ℕ

namespace Store

/-- The bucket has no room for another key. -/
def Full (s : Store) (b : Fin 128) : Prop := 4 ≤ {k | k.bucket = b ∧ (s.map k).isSome}.ncard

open Classical in
/-- What a request does to the map. -/
noncomputable def apply (s : Store) (r : TableRequest) :
    Store × DecideResult × Option BuddyRequest :=
  match r.op, s.map r.toKey with
  | .get, none => (s, { operation := Operation.get.code, status := 1 }, none)
  | .get, some (a, l) => (s, ⟨a, l, Operation.get.code, 0⟩, none)
  | .set, some (a, _) =>
    ({ s with map := Function.update s.map r.toKey (some (a, r.valueLength)) },
      { address := a, operation := Operation.set.code, status := 0 }, none)
  | .set, none =>
    if s.Full r.bucket then (s, { operation := Operation.set.code, status := 1 }, none)
    else
      (⟨Function.update s.map r.toKey (some (dummyAllocator s.nr, r.valueLength)), s.nr + 1⟩,
        { address := dummyAllocator s.nr, operation := Operation.set.code, status := 0 },
        some (.alloc (orderOf r.valueLength)))
  | .delete, none => (s, { operation := Operation.delete.code, status := 1 }, none)
  | .delete, some (a, l) =>
    ({ s with map := Function.update s.map r.toKey none },
      { operation := Operation.delete.code, status := 0 },
      some (.free ((a.setWidth 31).setWidth 32) (orderOf l)))

/-- No keys. -/
def empty : Store := ⟨fun _ ↦ none, 0⟩

end Store

/-- What is answered along a sequence of requests. -/
def answers {σ : Type} (apply : σ → TableRequest → σ × DecideResult × Option BuddyRequest) :
    σ → List TableRequest → List (DecideResult × Option BuddyRequest)
  | _, [] => []
  | s, r :: rs => (apply s r).2 :: answers apply (apply s r).1 rs

/-! ## What an entry holds -/

namespace HashTable

variable (h : HashTable) (e : Entry)

def keyLength : BitVec 8 := (h.head e.1).get (.keyLength e.2)

/-- The key of an entry, as it lies behind the head. -/
def keyAt : Key where
  bucket := e.1
  keyLength := h.keyLength e
  words := (h.readWords (headAddress e.1 + 1) ((memCount (h.keyLength e)).toNat - 1)).map
    (Word.key · e.2)

def valueAt : Value := ((h.head e.1).get (.address e.2), (h.head e.1).get (.valueLength e.2))

/-- The entry as a slot of a map. -/
def content : Option (Key × Value) := if h.Live e then some (h.keyAt e, h.valueAt e) else none

/-- The keys of all live entries end before the next bucket. -/
def AllShort : Prop := ∀ e, h.Live e → (h.keyLength e).toNat ≤ 112

variable {h e}

theorem content_eq_some {x : Key × Value} :
    h.content e = some x ↔ h.Live e ∧ (h.keyAt e, h.valueAt e) = x := by
  rw [content]
  split
  · next hlive => rw [Option.some.injEq, and_iff_right hlive]
  · next hlive => exact iff_of_false nofun fun hx ↦ hlive hx.1

theorem isSome_content : (h.content e).isSome ↔ h.Live e := by
  rw [content]
  split
  · next hlive => exact iff_of_true rfl hlive
  · next hlive => exact iff_of_false Bool.false_ne_true hlive

end HashTable

/-! ## Comparing -/

section Compare

variable {head : Word} {saved : List Word} {keyLength : BitVec 8} {words : List (BitVec 128)}
  {i : Bin} {h : HashTable} {r : SetRequest}

theorem match_foldl_compareWord (xs : List (Word × BitVec 128)) (status : Bin → BinStatus) :
    (xs.foldl (fun status x ↦ compareWord status x.1 x.2) status i).isMatch = true
      ↔ (status i).isMatch = true ∧ ∀ x ∈ xs, x.1.key i = x.2 := by
  induction xs generalizing status with
  | nil => exact (and_iff_left (List.forall_mem_nil _)).symm
  | cons x xs ih =>
    rw [List.foldl_cons, ih, List.forall_mem_cons, ← and_assoc]
    refine and_congr_left fun _ ↦ ?_
    rw [compareWord]
    by_cases hx : x.1.key i = x.2
    · rw [if_neg (not_not.mpr hx), and_iff_left hx]
    · rw [if_pos hx]
      exact iff_of_false Bool.false_ne_true fun hm ↦ hx hm.2

/-- Words agree one by one exactly when they are the same list. -/
theorem forall_zip_key_iff (hlen : saved.length = words.length) :
    (∀ x ∈ saved.zip words, x.1.key i = x.2) ↔ saved.map (Word.key · i) = words := by
  induction saved generalizing words with
  | nil =>
    obtain rfl := List.length_eq_zero_iff.mp hlen.symm
    exact iff_of_true (List.forall_mem_nil _) rfl
  | cons w saved ih =>
    match words, hlen with
    | word :: words, hlen =>
      rw [List.zip_cons_cons, List.forall_mem_cons, ih (Nat.succ.inj hlen), List.map_cons,
        List.cons.injEq]

theorem match_compareHead_iff :
    (compareHead head keyLength i).isMatch = true
      ↔ head.get (.keyLength i) ≠ 0 ∧ head.get (.keyLength i) = keyLength := by
  rw [compareHead]
  split
  · next hzero => exact iff_of_false Bool.false_ne_true fun hne ↦ hne.1 hzero
  · next hne =>
    split
    · next heq => exact iff_of_true rfl ⟨hne, heq⟩
    · next hneq => exact iff_of_false Bool.false_ne_true fun h ↦ hneq h.2

theorem length_saved (h : HashTable) (r : SetRequest) : (h.saved r).length = r.key.length := by
  rw [HashTable.saved, HashTable.readWords, List.length_map, List.length_range]

/-- **A bin matches** exactly when it holds the key. -/
theorem match_binStatus_iff :
    (h.binStatus r i).isMatch = true ↔ h.Live (r.bucket, i) ∧ h.keyAt (r.bucket, i) = r.toKey := by
  have hcount : r.key.length = (memCount r.keyLength).toNat - 1 := by rw [← r.length_key]; rfl
  rw [HashTable.binStatus, htCompare, match_foldl_compareWord, match_compareHead_iff,
    forall_zip_key_iff ((length_saved h r).trans r.length_words.symm), and_assoc]
  refine and_congr_right fun _ ↦ ?_
  rw [HashTable.keyAt, SetRequest.toKey, Key.mk.injEq, HashTable.saved, hcount]
  constructor
  · rintro ⟨hlen, hwords⟩
    have hlen' : h.keyLength (r.bucket, i) = r.keyLength := hlen
    exact ⟨rfl, hlen', by rw [hlen', hwords]⟩
  · rintro ⟨-, hlen, hwords⟩
    rw [hlen] at hwords
    exact ⟨hlen, hwords⟩

theorem free_binStatus_iff : (h.binStatus r i).free = true ↔ ¬h.Live (r.bucket, i) := by
  rw [HashTable.binStatus, free_htCompare]
  exact not_not.symm

end Compare

/-! ## Writing -/

section Write

variable {h : HashTable} {r : SetRequest} {i j : Bin} {a : BitVec 32} {e : Entry}

theorem key_setKey (w : Word) (i j : Bin) (k : BitVec 128) :
    (w.setKey i k).key j = if j = i then k else w.key j := by
  rw [Word.key, Word.setKey]
  split
  · next hj =>
    rw [hj]
    exact slice_setSlice_self (by omega)
  · next hj =>
    have hne : (j : ℕ) ≠ i := fun heq ↦ hj (Fin.ext heq)
    exact slice_setSlice_of_disjoint (by omega) (by omega)

theorem pred_memCount_le {keyLength : BitVec 8} (hshort : keyLength.toNat ≤ 112) :
    (memCount keyLength).toNat - 1 ≤ 7 := by
  have hcount : ∀ k : BitVec 8, k.toNat ≤ 112 → (memCount k).toNat - 1 ≤ 7 := by decide +kernel
  exact hcount keyLength hshort

theorem mem_writeBin (hshort : r.Short) (b : Fin 128) {j : ℕ} (hj : j < 7) :
    (h.writeBin r i a).mem (headAddress b + 1 + j)
      = if b = r.bucket then
          ((r.words[j]?).map ((h.mem (headAddress b + 1 + j)).setKey i)).getD
            (h.mem (headAddress b + 1 + j))
        else h.mem (headAddress b + 1 + j) := by
  have hlen := hshort.length_key
  rw [HashTable.writeBin, HashTable.mem_writeWords]
  by_cases hb : b = r.bucket
  · rw [if_pos hb, if_pos (by rw [hb, Nat.add_assoc]; exact Nat.le_add_right _ _), hb,
      show headAddress r.bucket + 1 + j - headAddress r.bucket = j + 1 by omega,
      List.getD_cons_succ, List.getD_eq_getElem?_getD, List.getElem?_zipWith, HashTable.saved,
      HashTable.readWords, List.getElem?_map]
    by_cases hjlen : j < r.key.length
    · rw [List.getElem?_range hjlen, Option.map_some]
      cases r.words[j]? with
      | none => rfl
      | some w => rfl
    · rw [List.getElem?_eq_none (by rw [List.length_range]; omega),
        List.getElem?_eq_none (by rw [r.length_words]; omega)]
      rfl
  · have hne : (b : ℕ) ≠ r.bucket := fun heq ↦ hb (Fin.ext heq)
    rw [if_neg hb]
    split
    · apply List.getD_eq_default
      rw [List.length_cons, List.length_zipWith, r.length_words, length_saved, Nat.min_self]
      simp only [headAddress] at *
      omega
    · rfl

theorem keyLength_writeBin (hshort : r.Short) (e : Entry) :
    (h.writeBin r i a).keyLength e = if e = (r.bucket, i) then r.keyLength else h.keyLength e := by
  rw [HashTable.keyLength, HashTable.keyLength, HashTable.head_writeBin hshort]
  by_cases hb : e.1 = r.bucket
  · rw [if_pos hb, get_keyLength_newHead]
    exact if_congr ⟨fun hi ↦ Prod.ext hb hi, congrArg Prod.snd⟩ rfl rfl
  · rw [if_neg hb, if_neg fun heq ↦ hb (congrArg Prod.fst heq)]

theorem keyAt_writeBin_of_ne (hshort : r.Short) (he : (h.keyLength e).toNat ≤ 112)
    (hne : e ≠ (r.bucket, i)) : (h.writeBin r i a).keyAt e = h.keyAt e := by
  rw [HashTable.keyAt, HashTable.keyAt, keyLength_writeBin hshort, if_neg hne, Key.mk.injEq,
    HashTable.readWords, HashTable.readWords, List.map_map, List.map_map]
  refine ⟨rfl, rfl, List.map_congr_left fun j hj ↦ ?_⟩
  have hj7 : j < 7 := (List.mem_range.mp hj).trans_le (pred_memCount_le he)
  rw [Function.comp_apply, Function.comp_apply, mem_writeBin hshort _ hj7]
  split
  · next hb =>
    cases r.words[j]? with
    | none => rfl
    | some w => exact (key_setKey ..).trans (if_neg fun hi ↦ hne (Prod.ext hb hi))
  · rfl

theorem keyAt_writeBin_self (hshort : r.Short) :
    (h.writeBin r i a).keyAt (r.bucket, i) = r.toKey := by
  have hcount : (memCount r.keyLength).toNat - 1 = r.words.length := by
    rw [r.length_words, ← r.length_key]
    rfl
  have hlen := hshort.length_key
  rw [HashTable.keyAt, SetRequest.toKey, keyLength_writeBin hshort, if_pos rfl, Key.mk.injEq,
    hcount, HashTable.readWords, List.map_map]
  refine ⟨rfl, rfl, List.ext_getElem (by rw [List.length_map, List.length_range]) ?_⟩
  intro j _ hj
  have hj7 : j < 7 := hj.trans_le (by rwa [r.length_words])
  rw [List.getElem_map, List.getElem_range, Function.comp_apply, mem_writeBin hshort _ hj7,
    if_pos rfl, List.getElem?_eq_getElem hj]
  exact (key_setKey ..).trans (if_pos rfl)

theorem valueAt_writeBin (hshort : r.Short) (e : Entry) :
    (h.writeBin r i a).valueAt e
      = if e = (r.bucket, i) then (a, r.valueLength) else h.valueAt e := by
  rw [HashTable.valueAt, HashTable.valueAt, HashTable.head_writeBin hshort]
  by_cases hb : e.1 = r.bucket
  · rw [if_pos hb, get_address_newHead, get_valueLength_newHead]
    by_cases hi : e.2 = i
    · rw [if_pos hi, if_pos hi, if_pos (Prod.ext hb hi)]
    · rw [if_neg hi, if_neg hi, if_neg fun heq ↦ hi (congrArg Prod.snd heq)]
  · rw [if_neg hb, if_neg fun heq ↦ hb (congrArg Prod.fst heq)]

/-- **Writing a bin** writes a slot. -/
theorem content_writeBin (hshort : r.Short) (hall : h.AllShort) (i : Bin) (a : BitVec 32) :
    (h.writeBin r i a).content
      = Function.update h.content (r.bucket, i) (some (r.toKey, (a, r.valueLength))) := by
  funext e
  rw [Function.update_apply]
  split
  · next he =>
    rw [he, HashTable.content_eq_some, keyAt_writeBin_self hshort, valueAt_writeBin hshort,
      if_pos rfl]
    exact ⟨(HashTable.live_writeBin hshort).mpr (.inl rfl), rfl⟩
  · next he =>
    have hlive : (h.writeBin r i a).Live e ↔ h.Live e :=
      (HashTable.live_writeBin hshort).trans (or_iff_right he)
    rw [HashTable.content, HashTable.content]
    by_cases hl : h.Live e
    · rw [if_pos (hlive.mpr hl), if_pos hl, keyAt_writeBin_of_ne hshort (hall e hl) he,
        valueAt_writeBin hshort, if_neg he]
    · rw [if_neg (hlive.not.mpr hl), if_neg hl]

theorem allShort_writeBin (hshort : r.Short) (hall : h.AllShort) (i : Bin) (a : BitVec 32) :
    (h.writeBin r i a).AllShort := by
  intro e he
  rw [keyLength_writeBin hshort]
  split
  · exact hshort
  · next hne =>
    exact hall e (((HashTable.live_writeBin hshort).mp he).resolve_left hne)

/-! ## Deleting -/

/-- The head of a bucket with a bin that is free. -/
def freedHead (head : Word) (i : Bin) : Word := (head.set (.keyLength i) 0).set (.valueLength i) 0

/-- The table with a bin that is free. -/
def HashTable.freeBin (h : HashTable) (b : Fin 128) (i : Bin) : HashTable :=
  h.writeWords (headAddress b) [freedHead (h.head b) i]

theorem mem_freeBin (h : HashTable) (b : Fin 128) (i : Bin) (addr : ℕ) :
    (h.freeBin b i).mem addr
      = if addr = headAddress b then freedHead (h.head b) i else h.mem addr := by
  rw [HashTable.freeBin, HashTable.mem_writeWords]
  by_cases haddr : addr = headAddress b
  · rw [if_pos haddr, if_pos haddr.ge, haddr, Nat.sub_self, List.getD_cons_zero]
  · rw [if_neg haddr]
    split
    · apply List.getD_eq_default
      rw [List.length_singleton]
      omega
    · rfl

theorem head_freeBin (h : HashTable) (b b' : Fin 128) (i : Bin) :
    (h.freeBin b i).head b' = if b' = b then freedHead (h.head b) i else h.head b' := by
  rw [HashTable.head, mem_freeBin]
  refine if_congr ?_ rfl rfl
  rw [headAddress, headAddress, Fin.ext_iff]
  omega

theorem get_freedHead (head : Word) {i : Bin} {f : Field} (hkey : f ≠ .keyLength i)
    (hvalue : f ≠ .valueLength i) : (freedHead head i).get f = head.get f := by
  rw [freedHead, Word.get_set_of_ne _ _ hvalue, Word.get_set_of_ne _ _ hkey]

theorem keyLength_freeBin (h : HashTable) (b : Fin 128) (i : Bin) (e : Entry) :
    (h.freeBin b i).keyLength e = if e = (b, i) then 0 else h.keyLength e := by
  rw [HashTable.keyLength, HashTable.keyLength, head_freeBin]
  by_cases hb : e.1 = b
  · rw [if_pos hb]
    by_cases hi : e.2 = i
    · rw [if_pos (Prod.ext hb hi), hi, freedHead, Word.get_set_of_ne _ _ (by simp),
        Word.get_set_self]
    · rw [if_neg fun heq ↦ hi (congrArg Prod.snd heq), get_freedHead _ (by simpa using hi)
        (by simp), hb]
  · rw [if_neg hb, if_neg fun heq ↦ hb (congrArg Prod.fst heq)]

theorem live_freeBin (h : HashTable) (b : Fin 128) (i : Bin) (e : Entry) :
    (h.freeBin b i).Live e ↔ e ≠ (b, i) ∧ h.Live e := by
  have hlive : (h.freeBin b i).Live e ↔ (h.freeBin b i).keyLength e ≠ 0 := Iff.rfl
  rw [hlive, keyLength_freeBin]
  by_cases he : e = (b, i)
  · rw [if_pos he]
    exact iff_of_false (fun hne ↦ hne rfl) fun hne ↦ hne.1 he
  · rw [if_neg he, and_iff_right he]
    rfl

theorem keyAt_freeBin_of_ne {b : Fin 128} (he : (h.keyLength e).toNat ≤ 112) (hne : e ≠ (b, i)) :
    (h.freeBin b i).keyAt e = h.keyAt e := by
  rw [HashTable.keyAt, HashTable.keyAt, keyLength_freeBin, if_neg hne, Key.mk.injEq,
    HashTable.readWords, HashTable.readWords]
  refine ⟨rfl, rfl, congrArg _ (List.map_congr_left fun j hj ↦ ?_)⟩
  have hj7 : j < 7 := (List.mem_range.mp hj).trans_le (pred_memCount_le he)
  rw [mem_freeBin, if_neg]
  simp only [headAddress]
  omega

theorem valueAt_freeBin_of_ne {b : Fin 128} (hne : e ≠ (b, i)) :
    (h.freeBin b i).valueAt e = h.valueAt e := by
  rw [HashTable.valueAt, HashTable.valueAt, head_freeBin]
  by_cases hb : e.1 = b
  · have hi : e.2 ≠ i := fun hi ↦ hne (Prod.ext hb hi)
    rw [if_pos hb, get_freedHead _ (by simp) (by simp), get_freedHead _ (by simp)
      (by simpa using hi), hb]
  · rw [if_neg hb]

/-- **Freeing a bin** empties a slot. -/
theorem content_freeBin (hall : h.AllShort) (b : Fin 128) (i : Bin) :
    (h.freeBin b i).content = Function.update h.content (b, i) none := by
  funext e
  rw [Function.update_apply]
  split
  · next he => exact if_neg fun hl ↦ ((live_freeBin ..).mp hl).1 he
  · next he =>
    rw [HashTable.content, HashTable.content]
    by_cases hl : h.Live e
    · rw [if_pos ((live_freeBin ..).mpr ⟨he, hl⟩), if_pos hl,
        keyAt_freeBin_of_ne (hall e hl) he, valueAt_freeBin_of_ne he]
    · rw [if_neg fun hl' ↦ hl ((live_freeBin ..).mp hl').2, if_neg hl]

theorem allShort_freeBin (hall : h.AllShort) (b : Fin 128) (i : Bin) :
    (h.freeBin b i).AllShort := by
  intro e he
  obtain ⟨hne, hl⟩ := (live_freeBin ..).mp he
  rw [keyLength_freeBin, if_neg hne]
  exact hall e hl

end Write

/-! ## The refinement -/

/-- The memory of the table holds the map. -/
structure Refines (h : HashTable) (s : Store) : Prop where
  represents : SlotMap.Represents h.content s.map
  distinct : SlotMap.Distinct h.content
  allShort : h.AllShort
  nr : h.nr = s.nr

section Refines

variable {h : HashTable} {s : Store} {r : SetRequest} {i : Bin}

theorem content_eq_of_match (hmatch : (h.binStatus r i).isMatch = true) :
    h.content (r.bucket, i) = some (r.toKey, h.valueAt (r.bucket, i)) := by
  obtain ⟨hlive, hkey⟩ := match_binStatus_iff.mp hmatch
  rw [HashTable.content_eq_some, hkey]
  exact ⟨hlive, rfl⟩

theorem match_of_content {e : Entry} {v : Value} (he : h.content e = some (r.toKey, v)) :
    e = (r.bucket, e.2) ∧ (h.binStatus r e.2).isMatch = true := by
  obtain ⟨hlive, hkey⟩ := HashTable.content_eq_some.mp he
  rw [Prod.mk.injEq] at hkey
  have hbucket : e.1 = r.bucket := congrArg Key.bucket hkey.1
  have hentry : e = (r.bucket, e.2) := Prod.ext hbucket rfl
  rw [hentry] at hlive hkey
  exact ⟨hentry, match_binStatus_iff.mpr ⟨hlive, hkey.1⟩⟩

theorem Refines.map_of_match (h' : Refines h s) (hmatch : (h.binStatus r i).isMatch = true) :
    s.map r.toKey = some (h.valueAt (r.bucket, i)) :=
  (h'.represents _ _).mpr ⟨_, content_eq_of_match hmatch⟩

theorem Refines.map_of_no_match (h' : Refines h s)
    (hnone : ∀ i, (h.binStatus r i).isMatch = false) : s.map r.toKey = none := by
  rw [Option.eq_none_iff_forall_ne_some]
  intro v hv
  obtain ⟨e, he⟩ := (h'.represents _ _).mp hv
  exact Bool.false_ne_true ((hnone e.2).symm.trans (match_of_content he).2)

theorem replaceLocation_eq_none {status : Bin → BinStatus} :
    replaceLocation status = none ↔ ∀ i, (status i).isMatch = false := by
  rw [replaceLocation, List.find?_eq_none]
  exact forall_congr' fun i ↦ by simp

theorem match_of_replaceLocation {status : Bin → BinStatus} (hi : replaceLocation status = some i) :
    (status i).isMatch = true := by
  simpa using List.find?_some hi

theorem deleteLocation_eq_none {status : Bin → BinStatus} :
    deleteLocation status = none ↔ ∀ i, (status i).isMatch = false := by
  rw [deleteLocation, List.find?_eq_none]
  exact forall_congr' fun i ↦ by simp

theorem match_of_deleteLocation {status : Bin → BinStatus} (hi : deleteLocation status = some i) :
    (status i).isMatch = true := by
  simpa using List.find?_some hi

theorem Refines.full_iff (h' : Refines h s) (b : Fin 128) : s.Full b ↔ ∀ i, h.Live (b, i) := by
  have hpart : ∀ (e : Entry) (x : Key × Value), h.content e = some x → x.1.bucket = e.1 := by
    rintro e x he
    obtain ⟨-, rfl⟩ := HashTable.content_eq_some.mp he
    rfl
  have hslots : {e : Entry | e.1 = b ∧ (h.content e).isSome}
      = Prod.mk b '' {i | h.Live (b, i)} := by
    ext ⟨b', i⟩
    simp only [Set.mem_ofPred_eq, HashTable.isSome_content, Set.mem_image, Prod.mk.injEq]
    constructor
    · rintro ⟨rfl, hl⟩
      exact ⟨i, hl, rfl, rfl⟩
    · rintro ⟨i, hl, rfl, rfl⟩
      exact ⟨rfl, hl⟩
  rw [Store.Full, SlotMap.ncard_keys h'.represents h'.distinct hpart, hslots,
    Set.ncard_image_of_injective _ (Prod.mk_right_injective b)]
  constructor
  · intro hcard i
    have huniv : {i : Bin | h.Live (b, i)} = Set.univ := by
      apply Set.eq_of_subset_of_ncard_le (Set.subset_univ _)
      rwa [Set.ncard_univ, Nat.card_fin]
    exact (huniv.symm ▸ Set.mem_univ i : i ∈ {i : Bin | h.Live (b, i)})
  · intro hall
    have huniv : {i : Bin | h.Live (b, i)} = Set.univ := Set.eq_univ_of_forall hall
    rw [huniv, Set.ncard_univ, Nat.card_fin]

theorem Refines.place_of_match (h' : Refines h s) (hmatch : (h.binStatus r i).isMatch = true) :
    SlotMap.Place h.content (r.bucket, i) r.toKey where
  own x hx := by
    rw [content_eq_of_match hmatch] at hx
    rw [← Option.some.inj hx]
  other e x he hx := h'.distinct he (content_eq_of_match hmatch) hx

theorem Refines.place_of_free (hfree : (h.binStatus r i).free = true)
    (hnone : ∀ i, (h.binStatus r i).isMatch = false) :
    SlotMap.Place h.content (r.bucket, i) r.toKey where
  own x hx := absurd (HashTable.content_eq_some.mp hx).1 (free_binStatus_iff.mp hfree)
  other e x he hx := by
    obtain ⟨k, v⟩ := x
    obtain rfl : k = r.toKey := hx
    exact absurd ((hnone e.2).symm.trans (match_of_content he).2) Bool.false_ne_true

theorem Refines.writeBin (h' : Refines h s) (hshort : r.Short)
    (hplace : SlotMap.Place h.content (r.bucket, i) r.toKey) (a : BitVec 32) :
    SlotMap.Represents (h.writeBin r i a).content
        (Function.update s.map r.toKey (some (a, r.valueLength)))
      ∧ SlotMap.Distinct (h.writeBin r i a).content ∧ (h.writeBin r i a).AllShort := by
  rw [content_writeBin hshort h'.allShort]
  exact ⟨h'.represents.insert hplace _, h'.distinct.insert hplace _,
    allShort_writeBin hshort h'.allShort i a⟩

theorem location_eq_none {status : Bin → BinStatus} :
    location status = none ↔ ∀ i, (status i).free = false ∧ (status i).isMatch = false := by
  rw [location, List.find?_eq_none]
  exact forall_congr' fun i ↦ by simp

/-- **A `SET`.** -/
theorem Refines.set (h' : Refines h s) (hshort : r.Short) :
    Refines (h.apply ⟨r, .set⟩).1 (s.apply ⟨r, .set⟩).1
      ∧ (h.apply ⟨r, .set⟩).2 = (s.apply ⟨r, .set⟩).2 := by
  rw [HashTable.apply, Store.apply]
  dsimp only
  rw [HashTable.set]
  cases hrep : replaceLocation (h.binStatus r) with
  | some j =>
    have hmatch := match_of_replaceLocation hrep
    have hmap := h'.map_of_match hmatch
    obtain ⟨i, hloc⟩ : ∃ i, location (h.binStatus r) = some i := by
      rw [← Option.isSome_iff_exists, location, List.find?_isSome]
      exact ⟨j, List.mem_finRange j, by rw [hmatch, Bool.or_true]⟩
    obtain ⟨hrepresents, hdistinct, hall⟩ := h'.writeBin hshort (h'.place_of_match hmatch)
      ((h.head r.bucket).get (.address j))
    rw [hloc, hmap]
    exact ⟨⟨hrepresents, hdistinct, hall, h'.nr⟩, rfl⟩
  | none =>
    have hnone := replaceLocation_eq_none.mp hrep
    rw [h'.map_of_no_match hnone]
    cases hloc : location (h.binStatus r) with
    | none =>
      have hfull : s.Full r.bucket := by
        rw [h'.full_iff]
        intro i
        by_contra hl
        exact Bool.false_ne_true
          ((location_eq_none.mp hloc i).1.symm.trans (free_binStatus_iff.mpr hl))
      dsimp only
      rw [if_pos hfull]
      exact ⟨h', rfl⟩
    | some i =>
      have hfree : (h.binStatus r i).free = true := by
        simpa [hnone i] using List.find?_some hloc
      have hfull : ¬s.Full r.bucket := by
        rw [h'.full_iff]
        exact fun hl ↦ free_binStatus_iff.mp hfree (hl i)
      obtain ⟨hrepresents, hdistinct, hall⟩ := h'.writeBin hshort
        (Refines.place_of_free hfree hnone) (dummyAllocator h.nr)
      dsimp only
      rw [if_neg hfull]
      rw [h'.nr] at hrepresents hdistinct hall ⊢
      exact ⟨⟨hrepresents, hdistinct, hall, rfl⟩, rfl⟩

/-- **A `GET`.** -/
theorem Refines.get (h' : Refines h s) (r : SetRequest) :
    Refines (h.apply ⟨r, .get⟩).1 (s.apply ⟨r, .get⟩).1
      ∧ (h.apply ⟨r, .get⟩).2 = (s.apply ⟨r, .get⟩).2 := by
  rw [HashTable.apply, Store.apply]
  dsimp only
  rw [HashTable.get]
  cases hrep : replaceLocation (h.binStatus r) with
  | some j =>
    rw [h'.map_of_match (match_of_replaceLocation hrep)]
    exact ⟨h', rfl⟩
  | none =>
    rw [h'.map_of_no_match (replaceLocation_eq_none.mp hrep)]
    exact ⟨h', rfl⟩

/-- **A `DELETE`.** -/
theorem Refines.delete (h' : Refines h s) (r : SetRequest) :
    Refines (h.apply ⟨r, .delete⟩).1 (s.apply ⟨r, .delete⟩).1
      ∧ (h.apply ⟨r, .delete⟩).2 = (s.apply ⟨r, .delete⟩).2 := by
  rw [HashTable.apply, Store.apply]
  dsimp only
  rw [HashTable.delete]
  cases hdel : deleteLocation (h.binStatus r) with
  | some j =>
    have hmatch := match_of_deleteLocation hdel
    have hcontent := content_freeBin h'.allShort r.bucket j
    rw [h'.map_of_match hmatch]
    refine ⟨⟨?_, ?_, allShort_freeBin h'.allShort r.bucket j, h'.nr⟩, rfl⟩
    · exact hcontent ▸ h'.represents.erase h'.distinct (content_eq_of_match hmatch)
    · exact hcontent ▸ h'.distinct.erase
  | none =>
    rw [h'.map_of_no_match (deleteLocation_eq_none.mp hdel)]
    exact ⟨h', rfl⟩

/-- **A request.** -/
theorem Refines.apply (h' : Refines h s) {r : TableRequest} (hshort : r.Short) :
    Refines (h.apply r).1 (s.apply r).1 ∧ (h.apply r).2 = (s.apply r).2 := by
  obtain ⟨r, op⟩ := r
  cases op with
  | get => exact h'.get r
  | set => exact h'.set hshort
  | delete => exact h'.delete r

theorem HashTable.Initial.refines (hinit : h.Initial) : Refines h .empty := by
  have hcontent : h.content = fun _ ↦ none := funext fun e ↦ if_neg (hinit.free e)
  refine ⟨?_, ?_, fun e he ↦ absurd he (hinit.free e), hinit.nr⟩
  · rw [hcontent]
    exact SlotMap.represents_none
  · rw [hcontent]
    exact SlotMap.distinct_none

theorem Refines.answers_eq {rs : List TableRequest} (h' : Refines h s)
    (hshort : ∀ r ∈ rs, r.Short) : answers HashTable.apply h rs = answers Store.apply s rs := by
  induction rs generalizing h s with
  | nil => rfl
  | cons r rs ih =>
    obtain ⟨hr, hrs⟩ := List.forall_mem_cons.mp hshort
    obtain ⟨hnext, hout⟩ := h'.apply hr
    rw [answers, answers, hout, ih hnext hrs]

/-- **The hash table is a map.** Every sequence of `GET`s, `SET`s and `DELETE`s whose keys have at
most 112 bytes is answered as the map answers it. -/
theorem table_answers_eq {rs : List TableRequest} (hinit : h.Initial) (hshort : ∀ r ∈ rs, r.Short) :
    answers HashTable.apply h rs = answers Store.apply .empty rs :=
  hinit.refines.answers_eq hshort

end Refines

/-- A key is stored, found, deleted and no longer found. -/
theorem table_answers_sample :
    answers HashTable.apply .blank
        [⟨.sample 0 9, .set⟩, ⟨.sample 0 0, .get⟩, ⟨.sample 0 0, .delete⟩, ⟨.sample 0 0, .get⟩]
      = answers Store.apply .empty
        [⟨.sample 0 9, .set⟩, ⟨.sample 0 0, .get⟩, ⟨.sample 0 0, .delete⟩, ⟨.sample 0 0, .get⟩] :=
  table_answers_eq HashTable.initial_blank (by
    simp only [List.forall_mem_cons]
    exact ⟨by decide, by decide, by decide, by decide, nofun⟩)

/-- What the code answers. -/
example : (answers HashTable.apply .blank
    [⟨.sample 0 9, .set⟩, ⟨.sample 0 0, .get⟩, ⟨.sample 0 0, .delete⟩, ⟨.sample 0 0, .get⟩]).map
      (fun x ↦ (x.1.status, x.1.valueLength)) = [(0, 0), (0, 9), (0, 0), (1, 0)] := by
  decide +kernel

end FpgaOs.Memcached
