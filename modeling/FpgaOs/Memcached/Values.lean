import FpgaOs.Alloc.Logarithm
import FpgaOs.Lib.Machine
import FpgaOs.Memcached.HashTable
import Mathlib.Data.Fintype.Card
import Mathlib.Data.Fintype.Prod
import Mathlib.Data.List.GetD
import Mathlib.Order.CompletePartialOrder
import Mathlib.Order.Interval.Set.Disjoint

/-!
# Where the values are

Every live entry of the hash table records where its value is: an address and a length. The address
comes from a counter that goes up by 256 bytes, whatever the length; an overwritten entry keeps its
address and gets a new length. So the values of two entries can overlap.

`Separate` is what should hold. Whether it does after a `SET` is a matter of lengths and of the
order in which the entries were created: a value may have 256 bytes for every entry from its own one
up to the next that is not empty (`Fits`). `values_separate_iff` says that this is exact. The order
that is sent to the buddy allocator is enough unless the length, in units of 256 bytes, lies just
above a power of two: the shift drops what does not fill a unit.
-/

namespace FpgaOs.Memcached

open BitField Alloc

/-! ## Entries -/

/-- A bin of a bucket. -/
abbrev Entry := Fin 128 × Bin

namespace HashTable

variable (h : HashTable) (e : Entry)

def head (b : Fin 128) : Word := h.mem (headAddress b)

/-- The entry is in use. -/
def Live : Prop := (h.head e.1).get (.keyLength e.2) ≠ 0

instance : DecidablePred h.Live := fun _ ↦ inferInstanceAs (Decidable (_ ≠ _))

def addr : ℕ := ((h.head e.1).get (.address e.2)).toNat

def len : ℕ := ((h.head e.1).get (.valueLength e.2)).toNat

/-- The bytes of the value. -/
def value : Set ℕ := Set.Ico (h.addr e) (h.addr e + h.len e)

/-- No two live entries share a byte. -/
def Separate : Prop := ∀ e e', e ≠ e' → h.Live e → h.Live e' → Disjoint (h.value e) (h.value e')

end HashTable

theorem disjoint_Ico_add {a l b m : ℕ} : Disjoint (Set.Ico a (a + l)) (Set.Ico b (b + m))
    ↔ l = 0 ∨ m = 0 ∨ a + l ≤ b ∨ b + m ≤ a := by
  rw [Set.Ico_disjoint_Ico]
  omega

/-! ## What a `SET` writes -/

section NewHead

variable (w : Word) (i j : Bin) (r : SetRequest) (a : BitVec 32)

theorem get_keyLength_newHead : (newHead w i r a).get (.keyLength j)
    = if j = i then r.keyLength else w.get (.keyLength j) := by
  by_cases h : j = i
  · subst h
    simp [newHead, Word.get_set_of_ne, Word.get_set_self]
  · simp [newHead, Word.get_set_of_ne, h]

theorem get_valueLength_newHead : (newHead w i r a).get (.valueLength j)
    = if j = i then r.valueLength else w.get (.valueLength j) := by
  by_cases h : j = i
  · subst h
    simp [newHead, Word.get_set_of_ne, Word.get_set_self]
  · simp [newHead, Word.get_set_of_ne, h]

theorem get_address_newHead : (newHead w i r a).get (.address j)
    = if j = i then a else w.get (.address j) := by
  by_cases h : j = i
  · subst h
    simp [newHead, Word.get_set_self]
  · simp [newHead, Word.get_set_of_ne, h]

end NewHead

/-- A key of at most 112 bytes, which fits into the seven words behind a head. -/
@[reducible] def SetRequest.Short (r : SetRequest) : Prop := r.keyLength.toNat ≤ 112

theorem SetRequest.Short.length_key {r : SetRequest} (h : r.Short) : r.key.length ≤ 7 := by
  have hcount : ∀ k : BitVec 8, k.toNat ≤ 112 → (memCount k).toNat ≤ 8 := by decide +kernel
  have hle := hcount r.keyLength h
  have hlen := r.length_key
  omega

namespace HashTable

variable {h : HashTable} {r : SetRequest} {i : Bin} {a : BitVec 32} {e : Entry}

theorem mem_writeWords (addr : ℕ) (data : List Word) (a : ℕ) : (h.writeWords addr data).mem a
    = if addr ≤ a then data.getD (a - addr) (h.mem a) else h.mem a := rfl

theorem head_writeBin (hshort : r.Short) (b : Fin 128) :
    (h.writeBin r i a).head b = if b = r.bucket then newHead (h.head b) i r a else h.head b := by
  have hlen := hshort.length_key
  rw [head, writeBin, mem_writeWords]
  by_cases hb : b = r.bucket
  · rw [if_pos hb, hb, if_pos le_rfl, Nat.sub_self, List.getD_cons_zero, head]
  · have hne : (b : ℕ) ≠ r.bucket := fun heq ↦ hb (Fin.ext heq)
    rw [if_neg hb, head]
    split
    · apply List.getD_eq_default
      rw [List.length_cons, List.length_zipWith, r.length_words, saved, readWords, List.length_map,
        List.length_range, Nat.min_self]
      simp only [headAddress] at *
      omega
    · rfl

section Written

variable (hshort : r.Short)

include hshort

theorem live_writeBin : (h.writeBin r i a).Live e ↔ e = (r.bucket, i) ∨ h.Live e := by
  rw [Live, head_writeBin hshort]
  by_cases hb : e.1 = r.bucket
  · rw [if_pos hb, get_keyLength_newHead]
    by_cases hi : e.2 = i
    · rw [if_pos hi]
      exact iff_of_true r.keyLength_ne (.inl (Prod.ext hb hi))
    · rw [if_neg hi]
      exact (or_iff_right fun heq ↦ hi (congrArg Prod.snd heq)).symm
  · rw [if_neg hb]
    exact (or_iff_right fun heq ↦ hb (congrArg Prod.fst heq)).symm

theorem addr_writeBin :
    (h.writeBin r i a).addr e = if e = (r.bucket, i) then a.toNat else h.addr e := by
  rw [addr, head_writeBin hshort]
  by_cases hb : e.1 = r.bucket
  · rw [if_pos hb, get_address_newHead]
    by_cases hi : e.2 = i
    · rw [if_pos hi, if_pos (Prod.ext hb hi)]
    · rw [if_neg hi, if_neg fun heq ↦ hi (congrArg Prod.snd heq), addr]
  · rw [if_neg hb, if_neg fun heq ↦ hb (congrArg Prod.fst heq), addr]

theorem len_writeBin :
    (h.writeBin r i a).len e = if e = (r.bucket, i) then r.valueLength.toNat else h.len e := by
  rw [len, head_writeBin hshort]
  by_cases hb : e.1 = r.bucket
  · rw [if_pos hb, get_valueLength_newHead]
    by_cases hi : e.2 = i
    · rw [if_pos hi, if_pos (Prod.ext hb hi)]
    · rw [if_neg hi, if_neg fun heq ↦ hi (congrArg Prod.snd heq), len]
  · rw [if_neg hb, if_neg fun heq ↦ hb (congrArg Prod.fst heq), len]

theorem separate_writeBin (hsep : h.Separate) :
    (h.writeBin r i a).Separate ↔ ∀ e ≠ (r.bucket, i), h.Live e →
      r.valueLength.toNat = 0 ∨ h.len e = 0 ∨ a.toNat + r.valueLength.toNat ≤ h.addr e
        ∨ h.addr e + h.len e ≤ a.toNat := by
  have hold : ∀ e ≠ (r.bucket, i), (h.writeBin r i a).value e = h.value e := by
    intro e he
    rw [value, addr_writeBin hshort, len_writeBin hshort, if_neg he, if_neg he, value]
  have hnew : (h.writeBin r i a).value (r.bucket, i)
      = Set.Ico a.toNat (a.toNat + r.valueLength.toNat) := by
    rw [value, addr_writeBin hshort, len_writeBin hshort, if_pos rfl, if_pos rfl]
  constructor
  · intro hsep' e he hlive
    have hdisj := hsep' (r.bucket, i) e he.symm ((live_writeBin hshort).mpr (.inl rfl))
      ((live_writeBin hshort).mpr (.inr hlive))
    rw [hnew, hold e he] at hdisj
    exact disjoint_Ico_add.mp hdisj
  · intro hfit e e' hne hlive hlive'
    rw [live_writeBin hshort] at hlive hlive'
    by_cases he : e = (r.bucket, i)
    · have he' : e' ≠ (r.bucket, i) := fun heq ↦ hne (he.trans heq.symm)
      rw [he, hnew, hold e' he']
      exact disjoint_Ico_add.mpr (hfit e' he' (hlive'.resolve_left he'))
    · rw [hold e he]
      by_cases he' : e' = (r.bucket, i)
      · rw [he', hnew]
        exact (disjoint_Ico_add.mpr (hfit e he (hlive.resolve_left he))).symm
      · rw [hold e' he']
        exact hsep e e' hne (hlive.resolve_left he) (hlive'.resolve_left he')

end Written

end HashTable

/-! ## What a `SET` does -/

section Compare

variable {head : Word} {saved : List Word} {keyLength : BitVec 8} {words : List (BitVec 128)}
  {i : Bin}

theorem foldl_compareWord (xs : List (Word × BitVec 128)) (status : Bin → BinStatus) :
    let status' := xs.foldl (fun status x ↦ compareWord status x.1 x.2) status
    (status' i).free = (status i).free
      ∧ ((status' i).isMatch = true → (status i).isMatch = true) := by
  induction xs generalizing status with
  | nil => exact ⟨rfl, id⟩
  | cons x xs ih =>
    obtain ⟨hfree, hmatch⟩ := ih (compareWord status x.1 x.2)
    have hword : (compareWord status x.1 x.2 i).free = (status i).free
        ∧ ((compareWord status x.1 x.2 i).isMatch = true → (status i).isMatch = true) := by
      rw [compareWord]
      split
      · exact ⟨rfl, nofun⟩
      · exact ⟨rfl, id⟩
    exact ⟨hfree.trans hword.1, fun h ↦ hword.2 (hmatch h)⟩

theorem free_htCompare :
    (htCompare head saved keyLength words i).free = true ↔ head.get (.keyLength i) = 0 := by
  rw [htCompare, (foldl_compareWord _ _).1, compareHead]
  split
  · next h => exact iff_of_true rfl h
  · next h => split <;> exact iff_of_false nofun h

theorem match_htCompare (h : (htCompare head saved keyLength words i).isMatch = true) :
    head.get (.keyLength i) ≠ 0 := by
  have hhead := (foldl_compareWord _ _).2 h
  rw [compareHead] at hhead
  split at hhead
  · cases hhead
  · next hne => exact hne

end Compare

namespace HashTable

variable {h : HashTable} {r : SetRequest}

/-- **The three outcomes of a `SET`**: the bucket is full, an entry is overwritten, or there is a
new one. -/
theorem set_cases (h : HashTable) (r : SetRequest) :
    (location (h.binStatus r) = none ∧ h.set r = (h, ⟨1, 0, none⟩))
      ∨ (∃ i j, location (h.binStatus r) = some i ∧ replaceLocation (h.binStatus r) = some j
        ∧ h.Live (r.bucket, j) ∧ ∃ a : BitVec 32, a.toNat = h.addr (r.bucket, j)
          ∧ h.set r = (h.writeBin r j a, ⟨0, a, none⟩))
      ∨ ∃ i, location (h.binStatus r) = some i ∧ replaceLocation (h.binStatus r) = none
        ∧ ¬h.Live (r.bucket, i) ∧ h.set r = ({ h.writeBin r i (dummyAllocator h.nr) with
          nr := h.nr + 1 }, ⟨0, dummyAllocator h.nr, some (orderOf r.valueLength)⟩) := by
  rw [set]
  cases hloc : location (h.binStatus r) with
  | none => exact .inl ⟨rfl, rfl⟩
  | some i =>
    cases hrep : replaceLocation (h.binStatus r) with
    | some j =>
      have hmatch : (h.binStatus r j).isMatch = true := by simpa using List.find?_some hrep
      exact .inr (.inl ⟨i, j, rfl, rfl, match_htCompare hmatch, _, rfl, rfl⟩)
    | none =>
      have hnomatch : (h.binStatus r i).isMatch = false := by
        simpa using List.find?_eq_none.mp hrep i (List.mem_finRange i)
      have hfree : (h.binStatus r i).free = true := by
        simpa [hnomatch] using List.find?_some hloc
      exact .inr (.inr ⟨i, rfl, rfl, not_not.mpr (free_htCompare.mp hfree), rfl⟩)

end HashTable

/-! ## The condition -/

/-- `is_power_of_2`. -/
def isPowerOf2 (n : ℕ) : Bool := n != 0 && n &&& (n - 1) == 0

/-- The length is a whole number of units of 256 bytes, or this number is no power of two. -/
def OrderFits (valueLength : BitVec 16) : Prop :=
  256 ∣ valueLength.toNat ∨ isPowerOf2 (valueLength.toNat / 256) = false

theorem isPowerOf2_iff (n : ℕ) : isPowerOf2 n = true ↔ n.isPowerOfTwo := by
  rw [isPowerOf2, Bool.and_eq_true, bne_iff_ne, beq_iff_eq]
  exact Nat.ne_zero_and_sub_one_eq_zero_iff_isPowerOfTwo

/-- The order that is enough for `n` units leaves room unless `n` is a power of two. -/
theorem lt_two_pow_orderBase2_iff (n : BitVec 16) :
    n.toNat < 2 ^ (orderBase2 n).toNat ↔ isPowerOf2 n.toNat = false := by
  obtain ⟨hle, hleast⟩ := isLeast_orderBase2 ⟨4, rfl⟩ n
  have hle : n.toNat ≤ 2 ^ (orderBase2 n).toNat := hle
  rw [← Bool.not_eq_true, isPowerOf2_iff, hle.lt_iff_ne]
  refine not_congr ⟨fun h ↦ ⟨_, h⟩, ?_⟩
  rintro ⟨j, hj⟩
  have hpow : 2 ^ (orderBase2 n).toNat ≤ 2 ^ j := Nat.pow_le_pow_right (by decide) (hleast hj.le)
  exact hle.antisymm (hj ▸ hpow)

/-- When the order that is asked for is enough for the value. -/
theorem le_orderOf_iff (valueLength : BitVec 16) :
    valueLength.toNat ≤ 2 ^ ((orderOf valueLength).toNat + minShift) ↔ OrderFits valueLength := by
  have hshift : (valueLength >>> minShift).toNat = valueLength.toNat / 256 := by
    rw [BitVec.toNat_ushiftRight, Nat.shiftRight_eq_div_pow, minShift]
  have hle : (valueLength >>> minShift).toNat ≤ _ := (isLeast_orderBase2 ⟨4, rfl⟩ _).1
  have hpow := lt_two_pow_orderBase2_iff (valueLength >>> minShift)
  have horder : (orderOf valueLength).toNat = (orderBase2 (valueLength >>> minShift)).toNat := by
    rw [orderOf, BitVec.toNat_setWidth_of_le (by decide)]
  rw [hshift] at hle hpow
  rw [horder, OrderFits, ← hpow, Nat.pow_add]
  generalize 2 ^ (orderBase2 (valueLength >>> minShift)).toNat = p at hle ⊢
  rw [minShift]
  omega

/-- What is asked of a `SET`: the values stay apart, and the order is enough. -/
def HashTable.Keeps (h : HashTable) (r : SetRequest) : Prop :=
  (h.step r).Separate ∧ ∀ order, (h.set r).2.order = some order →
    r.valueLength.toNat ≤ 2 ^ (order.toNat + minShift)

/-- The table, and for every entry in use how many were created before it. -/
structure Numbered where
  table : HashTable
  created : Entry → ℕ

namespace Numbered

variable (s : Numbered) (r : SetRequest)

/-- A new entry gets the next number. -/
def step : Numbered where
  table := s.table.step r
  created :=
    match location (s.table.binStatus r), replaceLocation (s.table.binStatus r) with
    | some i, none => Function.update s.created (r.bucket, i) s.table.nr
    | _, _ => s.created

/-- A value that is not empty has 256 bytes at most for every entry from its own one, number `n`, up
to the next one with a value that is not empty, and so have those before it up to this one. -/
def Clear (e : Entry) (n : ℕ) : Prop :=
  r.valueLength.toNat = 0 ∨ ∀ e' ≠ e, s.table.Live e' → s.table.len e' = 0
    ∨ if n < s.created e' then r.valueLength.toNat ≤ 0x100 * (s.created e' - n)
      else s.table.len e' ≤ 0x100 * (n - s.created e')

/-- The value of a `SET` is not too long for the entry it overwrites, or for a new one; then the
order has to be enough too. -/
def Fits : Prop :=
  match location (s.table.binStatus r) with
  | none => True
  | some i =>
    match replaceLocation (s.table.binStatus r) with
    | some j => s.Clear r (r.bucket, j) (s.created (r.bucket, j))
    | none => OrderFits r.valueLength ∧ s.Clear r (r.bucket, i) s.table.nr

end Numbered

/-! ## Numbers and addresses -/

theorem toNat_dummyAllocator {n : ℕ} (hn : n ≤ 512) :
    (dummyAllocator n).toNat = 0x100000 + 0x100 * n := by
  have hbase : (0x100000 : BitVec 32).toNat = 0x100000 := rfl
  have hstep : (0x100 : BitVec 32).toNat = 0x100 := rfl
  rw [dummyAllocator, BitVec.toNat_add, BitVec.toNat_mul, BitVec.toNat_ofNat, hbase, hstep]
  omega

namespace Numbered

variable {s : Numbered} {r : SetRequest}

/-- **The three outcomes of a `SET`**, with the numbers. -/
theorem step_cases (s : Numbered) (r : SetRequest) :
    (location (s.table.binStatus r) = none ∧ s.table.set r = (s.table, ⟨1, 0, none⟩)
        ∧ s.step r = s)
      ∨ (∃ i j, location (s.table.binStatus r) = some i
        ∧ replaceLocation (s.table.binStatus r) = some j ∧ s.table.Live (r.bucket, j)
        ∧ ∃ a : BitVec 32, a.toNat = s.table.addr (r.bucket, j)
          ∧ s.table.set r = (s.table.writeBin r j a, ⟨0, a, none⟩)
          ∧ s.step r = ⟨s.table.writeBin r j a, s.created⟩)
      ∨ ∃ i, location (s.table.binStatus r) = some i
        ∧ replaceLocation (s.table.binStatus r) = none ∧ ¬s.table.Live (r.bucket, i)
        ∧ s.table.set r = ({ s.table.writeBin r i (dummyAllocator s.table.nr) with
            nr := s.table.nr + 1 },
          ⟨0, dummyAllocator s.table.nr, some (orderOf r.valueLength)⟩)
        ∧ s.step r = ⟨{ s.table.writeBin r i (dummyAllocator s.table.nr) with
            nr := s.table.nr + 1 }, Function.update s.created (r.bucket, i) s.table.nr⟩ := by
  rcases s.table.set_cases r with ⟨hloc, hset⟩ | ⟨i, j, hloc, hrep, hlive, a, ha, hset⟩ |
    ⟨i, hloc, hrep, hlive, hset⟩
  · refine .inl ⟨hloc, hset, ?_⟩
    rw [step, HashTable.step, hset, hloc]
  · refine .inr (.inl ⟨i, j, hloc, hrep, hlive, a, ha, hset, ?_⟩)
    rw [step, HashTable.step, hset, hloc, hrep]
  · refine .inr (.inr ⟨i, hloc, hrep, hlive, hset, ?_⟩)
    rw [step, HashTable.step, hset, hloc, hrep]

/-- The number of an entry tells its address, and no two entries have the same. -/
structure Laid (s : Numbered) : Prop where
  numbered : ∀ e, s.table.Live e →
    s.created e < s.table.nr ∧ s.table.addr e = 0x100000 + 0x100 * s.created e
  apart : ∀ e e', s.table.Live e → s.table.Live e' → s.created e = s.created e' → e = e'
  card : (Finset.univ.filter s.table.Live).card = s.table.nr

theorem Laid.nr_le (hl : s.Laid) : s.table.nr ≤ 512 := by
  rw [← hl.card]
  refine (Finset.card_filter_le _ _).trans_eq ?_
  rw [Finset.card_univ, Fintype.card_prod, Fintype.card_fin, Fintype.card_fin]

theorem Laid.overwrite (hl : s.Laid) (hshort : r.Short) {j : Bin} {a : BitVec 32}
    (hj : s.table.Live (r.bucket, j)) (ha : a.toNat = s.table.addr (r.bucket, j)) :
    (⟨s.table.writeBin r j a, s.created⟩ : Numbered).Laid := by
  have hlive : ∀ e, (s.table.writeBin r j a).Live e ↔ s.table.Live e := by
    intro e
    rw [HashTable.live_writeBin hshort]
    exact or_iff_right_of_imp fun heq ↦ heq ▸ hj
  have haddr : ∀ e, (s.table.writeBin r j a).addr e = s.table.addr e := by
    intro e
    rw [HashTable.addr_writeBin hshort]
    split
    · next he => rw [ha, he]
    · rfl
  constructor
  · intro e he
    rw [haddr]
    exact hl.numbered e ((hlive e).mp he)
  · exact fun e e' he he' ↦ hl.apart e e' ((hlive e).mp he) ((hlive e').mp he')
  · exact (congrArg Finset.card (Finset.filter_congr fun e _ ↦ hlive e)).trans hl.card

theorem Laid.create (hl : s.Laid) (hshort : r.Short) {i : Bin}
    (hi : ¬s.table.Live (r.bucket, i)) :
    (⟨{ s.table.writeBin r i (dummyAllocator s.table.nr) with nr := s.table.nr + 1 },
      Function.update s.created (r.bucket, i) s.table.nr⟩ : Numbered).Laid := by
  have hnew := toNat_dummyAllocator hl.nr_le
  have hother : ∀ e, s.table.Live e → e ≠ (r.bucket, i) := fun e he heq ↦ hi (heq ▸ he)
  constructor
  · intro e he
    dsimp only
    change _ ∧ (s.table.writeBin r i _).addr e = _
    rw [HashTable.addr_writeBin hshort, Function.update_apply]
    by_cases hne : e = (r.bucket, i)
    · rw [if_pos hne, if_pos hne]
      exact ⟨Nat.lt_succ_self _, hnew⟩
    · obtain ⟨hlt, heq⟩ := hl.numbered e (((HashTable.live_writeBin hshort).mp he).resolve_left hne)
      rw [if_neg hne, if_neg hne]
      exact ⟨Nat.lt_succ_of_lt hlt, heq⟩
  · intro e e' he he' heq
    dsimp only at heq
    rcases (HashTable.live_writeBin hshort).mp he with he | he
    · rcases (HashTable.live_writeBin hshort).mp he' with he' | he'
      · rw [he, he']
      · rw [he, Function.update_self, Function.update_of_ne (hother e' he')] at heq
        exact absurd heq.symm (hl.numbered e' he').1.ne
    · rcases (HashTable.live_writeBin hshort).mp he' with he' | he'
      · rw [he', Function.update_self, Function.update_of_ne (hother e he)] at heq
        exact absurd heq (hl.numbered e he).1.ne
      · rw [Function.update_of_ne (hother e he), Function.update_of_ne (hother e' he')] at heq
        exact hl.apart e e' he he' heq
  · have hlive : Finset.univ.filter (s.table.writeBin r i (dummyAllocator s.table.nr)).Live
        = insert (r.bucket, i) (Finset.univ.filter s.table.Live) := by
      apply Finset.ext
      intro e
      rw [Finset.mem_filter_univ, Finset.mem_insert, Finset.mem_filter_univ,
        HashTable.live_writeBin hshort]
    change (Finset.univ.filter (s.table.writeBin r i _).Live).card = s.table.nr + 1
    rw [hlive, Finset.card_insert_of_notMem (mt (Finset.mem_filter_univ _).mp hi), hl.card]

theorem Laid.step (hl : s.Laid) (hshort : r.Short) : (s.step r).Laid := by
  rcases s.step_cases r with ⟨-, -, hstep⟩ | ⟨i, j, -, -, hj, a, ha, -, hstep⟩ |
    ⟨i, -, -, hi, -, hstep⟩
  · rwa [hstep]
  · exact hstep ▸ hl.overwrite hshort hj ha
  · exact hstep ▸ hl.create hshort hi

/-- Written at the address that belongs to a number, the value stays apart from the others exactly
when it is clear of them. -/
theorem Laid.clear_iff (hl : s.Laid) (hshort : r.Short) (hsep : s.table.Separate) (i : Bin)
    {a : BitVec 32} {n : ℕ} (ha : a.toNat = 0x100000 + 0x100 * n) :
    (s.table.writeBin r i a).Separate ↔ s.Clear r (r.bucket, i) n := by
  rw [HashTable.separate_writeBin hshort hsep, Clear]
  constructor
  · intro hall
    by_cases hzero : r.valueLength.toNat = 0
    · exact .inl hzero
    · refine .inr fun e he hlive ↦ ?_
      have hcases := hall e he hlive
      have haddr := (hl.numbered e hlive).2
      split <;> omega
  · rintro (hzero | hall) e he hlive
    · exact .inl hzero
    · have hcases := hall e he hlive
      have haddr := (hl.numbered e hlive).2
      split at hcases <;> omega

/-- **One `SET`.** -/
theorem Laid.keeps_iff (hl : s.Laid) (hshort : r.Short) (hsep : s.table.Separate) :
    s.table.Keeps r ↔ s.Fits r := by
  rw [HashTable.Keeps, Fits, HashTable.step]
  rcases s.step_cases r with ⟨hloc, hset, -⟩ | ⟨i, j, hloc, hrep, hj, a, ha, hset, -⟩ |
    ⟨i, hloc, hrep, -, hset, -⟩
  · rw [hset, hloc]
    exact iff_of_true ⟨hsep, nofun⟩ trivial
  · rw [hset, hloc]
    simp only [hrep]
    rw [hl.clear_iff hshort hsep j (ha.trans (hl.numbered _ hj).2)]
    exact and_iff_left nofun
  · rw [hset, hloc]
    simp only [hrep, Option.some.injEq, forall_eq']
    rw [le_orderOf_iff, and_comm]
    exact and_congr_right fun _ ↦ hl.clear_iff hshort hsep i (toNat_dummyAllocator hl.nr_le)

/-! ## Short values -/

/-- All values have at most 256 bytes. -/
def Small (s : Numbered) : Prop := ∀ e, s.table.Live e → s.table.len e ≤ 0x100

theorem Small.step (hsmall : s.Small) (hshort : r.Short) (hr : r.valueLength.toNat ≤ 0x100) :
    (s.step r).Small := by
  have hwrite : ∀ i a e, (s.table.writeBin r i a).Live e →
      (s.table.writeBin r i a).len e ≤ 0x100 := by
    intro i a e he
    rw [HashTable.len_writeBin hshort]
    split
    · exact hr
    · next hne => exact hsmall e (((HashTable.live_writeBin hshort).mp he).resolve_left hne)
  rcases s.step_cases r with ⟨-, -, hstep⟩ | ⟨i, j, -, -, -, a, -, -, hstep⟩ |
    ⟨i, -, -, -, -, hstep⟩
  · rwa [hstep]
  · exact hstep ▸ hwrite j a
  · exact hstep ▸ hwrite i _

theorem Laid.fits (hl : s.Laid) (hsmall : s.Small) (hr : r.valueLength.toNat ≤ 0x100) :
    s.Fits r := by
  have hclear : ∀ e n, (∀ e' ≠ e, s.table.Live e' → s.created e' ≠ n) → s.Clear r e n := by
    intro e n hne
    refine .inr fun e' he' hlive ↦ .inr ?_
    have hn := hne e' he' hlive
    have hlen := hsmall e' hlive
    split <;> omega
  rw [Fits]
  rcases s.step_cases r with ⟨hloc, -, -⟩ | ⟨i, j, hloc, hrep, hj, -⟩ | ⟨i, hloc, hrep, -⟩
  · rw [hloc]
    trivial
  · rw [hloc]
    dsimp only
    rw [hrep]
    exact hclear _ _ fun e' he' hlive heq ↦ he' (hl.apart e' _ hlive hj heq)
  · rw [hloc]
    dsimp only
    rw [hrep]
    refine ⟨?_, hclear _ _ fun e' _ hlive ↦ (hl.numbered e' hlive).1.ne⟩
    rcases hr.lt_or_eq with hlt | heq
    · exact .inr (by rw [Nat.div_eq_of_lt hlt]; rfl)
    · exact .inl (Dvd.intro 1 heq.symm)

end Numbered

/-- The table before the first request: every bin is free and `dummy_allocator` has not been
called. -/
structure HashTable.Initial (h : HashTable) : Prop where
  free : ∀ e, ¬h.Live e
  nr : h.nr = 0

theorem HashTable.Initial.laid {h : HashTable} (hinit : h.Initial) :
    (⟨h, fun _ ↦ 0⟩ : Numbered).Laid where
  numbered e he := absurd he (hinit.free e)
  apart e _ he := absurd he (hinit.free e)
  card := by
    dsimp only
    rw [hinit.nr, Finset.card_eq_zero, Finset.filter_eq_empty_iff]
    exact fun e _ ↦ hinit.free e

/-! ## Runs -/

/-- **When the values stay apart.** In a run of `SET`s whose keys have at most 112 bytes: after
every one the values of the live entries are disjoint, and every order that is sent to the allocator
is enough for its value, exactly when every value fits. It does in all runs whose values have at
most 256 bytes. -/
theorem values_separate_iff {h : HashTable} (hinit : h.Initial) (rs : List SetRequest)
    (hshort : ∀ r ∈ rs, r.Short) :
    (Machine.Guarded HashTable.step HashTable.Keeps h rs
        ↔ Machine.Guarded Numbered.step Numbered.Fits ⟨h, fun _ ↦ 0⟩ rs)
      ∧ ((∀ r ∈ rs, r.valueLength.toNat ≤ 0x100) →
        Machine.Guarded HashTable.step HashTable.Keeps h rs) := by
  have hsep : h.Separate := fun e _ _ he ↦ absurd he (hinit.free e)
  have hiff : Machine.Guarded HashTable.step HashTable.Keeps h rs
      ↔ Machine.Guarded Numbered.step Numbered.Fits ⟨h, fun _ ↦ 0⟩ rs := by
    have hmap := @Machine.guarded_map _ _ HashTable.step HashTable.Keeps _ Numbered.table
      Numbered.step (fun _ _ ↦ rfl) ⟨h, fun _ ↦ 0⟩ rs
    rw [hmap]
    let inv : Numbered → Prop := fun s ↦ s.Laid ∧ s.table.Separate
    have hkeeps : ∀ s r, inv s → r.Short → (s.table.Keeps r ↔ s.Fits r) := fun s r hs hr ↦
      hs.1.keeps_iff hr hs.2
    have hstep : ∀ s r, inv s → r.Short → s.Fits r → inv (s.step r) := fun s r hs hr hfits ↦
      ⟨hs.1.step hr, ((hkeeps s r hs hr).mpr hfits).1⟩
    exact @Machine.guarded_iff_of_invariant_of _ _ Numbered.step Numbered.Fits inv
      (fun _ r ↦ r.Short) (fun s r ↦ s.table.Keeps r) hstep hkeeps _ rs ⟨hinit.laid, hsep⟩
      (Machine.guarded_of_forall hshort)
  refine ⟨hiff, fun hsmall ↦ hiff.mpr ?_⟩
  let inv : Numbered → Prop := fun s ↦ s.Laid ∧ s.Small
  have hstep : ∀ s (r : SetRequest), inv s → r.Short ∧ r.valueLength.toNat ≤ 0x100 →
      inv (s.step r) := fun s r hs hr ↦ ⟨hs.1.step hr.1, hs.2.step hr.1 hr.2⟩
  exact Machine.Guarded.imp hstep (fun s r hs hr ↦ hs.1.fits hs.2 hr.2)
    ⟨hinit.laid, fun e he ↦ absurd he (hinit.free e)⟩
    (Machine.guarded_of_forall fun r hr ↦ ⟨hshort r hr, hsmall r hr⟩)

/-- All memory is zero. -/
def HashTable.blank : HashTable := ⟨fun _ ↦ 0, 0⟩

theorem HashTable.initial_blank : HashTable.blank.Initial where
  free e hlive := by
    apply hlive
    apply BitVec.eq_of_getLsbD_eq
    intro i hi
    simp [Word.get, slice, head, blank]
  nr := rfl

/-- A `SET` of a key of one byte. -/
def SetRequest.sample (key : BitVec 32) (valueLength : BitVec 16) : SetRequest :=
  ⟨key, 1, valueLength, [key.setWidth 128], by decide, rfl⟩

/-- Two values that just fit. -/
theorem values_separate_iff_sample :
    Machine.Guarded HashTable.step HashTable.Keeps HashTable.blank
      [.sample 0 0x100, .sample 1 0x100] :=
  (values_separate_iff HashTable.initial_blank [.sample 0 0x100, .sample 1 0x100] (by
    simp only [List.forall_mem_cons]
    exact ⟨by decide, by decide, nofun⟩)).2 (by
    simp only [List.forall_mem_cons]
    exact ⟨by decide, by decide, nofun⟩)

/-- A `SET` of a key of 128 bytes, the end of which reads as an entry of a head. -/
def SetRequest.long : SetRequest :=
  ⟨0, 128, 1, [0, 0, 0, 0, 0, 0, 0, 0x100000 <<< 56 ||| 1 <<< 40 ||| 1], by decide, rfl⟩

/-- **The values do not stay apart.** Of a value of 300 bytes 44 are not covered by the order that
is asked for; two values of 800 bytes overlap; and a long key changes the head of the next bucket,
which then shows an entry with the address of another. -/
theorem values_overlap :
    (¬Machine.Guarded HashTable.step HashTable.Keeps HashTable.blank [.sample 0 300])
      ∧ (¬Machine.Guarded HashTable.step HashTable.Keeps HashTable.blank
        [.sample 0 800, .sample 1 800])
      ∧ ¬Machine.Guarded HashTable.step HashTable.Keeps HashTable.blank [.long] := by
  refine ⟨fun h ↦ ?_, fun h ↦ ?_, fun h ↦ ?_⟩
  · have horder : (HashTable.blank.set (.sample 0 300)).2.order = some 0 := by decide +kernel
    exact absurd (h.1.2 0 horder) (by decide +kernel)
  · have hdisj := h.2.1.1 (0, 0) (1, 0) (by decide) (by decide +kernel) (by decide +kernel)
    have hzero : 0x100100 ∈ ((HashTable.blank.step (.sample 0 800)).step (.sample 1 800)).value
        (0, 0) := ⟨by decide +kernel, by decide +kernel⟩
    have hone : 0x100100 ∈ ((HashTable.blank.step (.sample 0 800)).step (.sample 1 800)).value
        (1, 0) := ⟨by decide +kernel, by decide +kernel⟩
    exact Set.disjoint_left.mp hdisj hzero hone
  · have hdisj := h.1.1 (0, 0) (1, 0) (by decide) (by decide +kernel) (by decide +kernel)
    have hzero : 0x100000 ∈ (HashTable.blank.step .long).value (0, 0) :=
      ⟨by decide +kernel, by decide +kernel⟩
    have hone : 0x100000 ∈ (HashTable.blank.step .long).value (1, 0) :=
      ⟨by decide +kernel, by decide +kernel⟩
    exact Set.disjoint_left.mp hdisj hzero hone

end FpgaOs.Memcached
