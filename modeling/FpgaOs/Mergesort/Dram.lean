import FpgaOs.Lib.BitField
import FpgaOs.Lib.Machine
import FpgaOs.Mapping.Pipeline
import FpgaOs.Mergesort.Merge
import Mathlib

/-!
# Merge sort on DRAM

`mergesort` asks the mapping for the physical address of the array, loads the scratch array, sorts
it and stores it. DRAM is an array of 512-bit words and the index of a word is computed as the
physical address, which is one of bytes, plus 32 for each entry of the scratch array. So the words
that are loaded and stored are one in 64, from the word whose index is the byte address; of each
only the low 32 bits are kept, and they go to the even entries of the scratch array, while the odd
ones stay zero. Sorted, the zeros come first, and half of them are stored.

What the code does to the array is therefore right only when there is nothing to do.
-/

namespace FpgaOs.Mergesort

open Machine BitField Mapping

/-! ## The code -/

/-- `va_arr_ptr`. -/
abbrev vaArrPtr : BitVec 32 := 0x2000

/-- `enum APP_STATE`. -/
inductive AppState
  | mapReq
  | mapReply
  | loadScratch
  | mergeSort
  | resultToDram
  deriving DecidableEq

/-- The words of DRAM. -/
abbrev Dram := ℕ → BitVec 512

/-- The static variables of `mergesort`, DRAM and the two streams. -/
structure App where
  state : AppState
  scratchArr : Scratch
  paArrPtr : BitVec 32
  dram : Dram
  mapReq : List MappingRequest
  mapRet : List MappingReply

/-- A loop over the even entries of the scratch array, from `i` on, that writes `value i` at
`addr i`. -/
def evenLoop {α : Type*} (addr : ℕ → ℕ) (value : ℕ → α) (i : ℕ) (mem : ℕ → α) : ℕ → α :=
  if i < SCRATCH_ARRAY_SIZE then
    evenLoop addr value (i + 2) (Function.update mem (addr i) (value i)) else mem
termination_by SCRATCH_ARRAY_SIZE - i

/-- The loop of LOAD_SCRATCH. -/
def loadScratch (dram : Dram) (pa : BitVec 32) (scratch : Scratch) : Scratch :=
  evenLoop (fun i ↦ i) (fun i ↦ (dram (pa.toNat + i * 32)).setWidth 32) 0 scratch

/-- The loop of RESULT_TO_DRAM. -/
def resultToDram (scratch : Scratch) (pa : BitVec 32) (dram : Dram) : Dram :=
  evenLoop (fun i ↦ pa.toNat + i * 32) (fun i ↦ (scratch i).setWidth 512) 0 dram

namespace App

/-- One call of `mergesort`. -/
def call (s : App) : App :=
  match s.state with
  | .mapReq =>
    { s with
      mapReq := s.mapReq ++ [⟨vaArrPtr, 0, mappingRequestRead⟩]
      state := .mapReply }
  | .mapReply =>
    match s.mapRet with
    | [] => s
    | ret :: mapRet =>
      if ret.status = 0 then
        { s with mapRet := mapRet, paArrPtr := ret.address, state := .loadScratch }
      else { s with mapRet := mapRet, state := .mapReply }
  | .loadScratch =>
    { s with
      scratchArr := Mergesort.loadScratch s.dram s.paArrPtr s.scratchArr
      state := .mergeSort }
  | .mergeSort => { s with scratchArr := Mergesort.mergeSort s.scratchArr, state := .resultToDram }
  | .resultToDram => { s with dram := Mergesort.resultToDram s.scratchArr s.paArrPtr s.dram }

/-- The block is called, or the mapping answers. -/
inductive Event
  | call
  | reply (ret : MappingReply)

/-- What an event does. -/
def step (s : App) : Event → App
  | .call => s.call
  | .reply ret => { s with mapRet := s.mapRet ++ [ret] }

/-- From the reset state: the static variables are zero. -/
def init (dram : Dram) : App := ⟨.mapReq, fun _ ↦ 0, 0, dram, [], []⟩

end App

/-! ## The two loops -/

section Loops

variable {α : Type*} {addr : ℕ → ℕ} {value : ℕ → α}

theorem evenLoop_of_ne {a i : ℕ} (h : ∀ j, i + 2 * j < SCRATCH_ARRAY_SIZE → a ≠ addr (i + 2 * j))
    (mem : ℕ → α) :
    evenLoop addr value i mem a = mem a := by
  induction i, mem using evenLoop.induct addr value with
  | case1 i mem hlt ih =>
    have hfirst : a ≠ addr i := h 0 hlt
    have hnext : ∀ j, i + 2 + 2 * j < SCRATCH_ARRAY_SIZE → a ≠ addr (i + 2 + 2 * j) := by
      intro j hj
      rw [show i + 2 + 2 * j = i + 2 * (j + 1) by omega] at hj ⊢
      exact h (j + 1) hj
    rw [evenLoop, if_pos hlt, ih hnext, Function.update_of_ne hfirst]
  | case2 i mem hge => rw [evenLoop, if_neg hge]

theorem evenLoop_apply (haddr : Function.Injective addr) (value : ℕ → α) {i j : ℕ}
    (hj : i + 2 * j < SCRATCH_ARRAY_SIZE) (mem : ℕ → α) :
    evenLoop addr value i mem (addr (i + 2 * j)) = value (i + 2 * j) := by
  induction j generalizing i mem with
  | zero =>
    -- the addresses of the later rounds are other ones
    have hother : ∀ k, i + 2 + 2 * k < SCRATCH_ARRAY_SIZE → addr i ≠ addr (i + 2 + 2 * k) :=
      fun k _ heq ↦ absurd (haddr heq) (by omega)
    rw [Nat.mul_zero, Nat.add_zero] at hj ⊢
    rw [evenLoop, if_pos hj, evenLoop_of_ne hother, Function.update_self]
  | succ j ih =>
    rw [evenLoop, if_pos (by omega), show i + 2 * (j + 1) = i + 2 + 2 * j by omega]
    exact ih (by omega) _

variable (dram : Dram) (pa : BitVec 32) (scratch : Scratch)

theorem loadScratch_even {j : ℕ} (hj : 2 * j < SCRATCH_ARRAY_SIZE) :
    loadScratch dram pa scratch (2 * j) = (dram (pa.toNat + 64 * j)).setWidth 32 := by
  have happly := evenLoop_apply (fun _ _ ↦ id) (fun i ↦ (dram (pa.toNat + i * 32)).setWidth 32)
    (i := 0) (j := j) (by omega) scratch
  rw [Nat.zero_add] at happly
  rw [loadScratch, happly, show 2 * j * 32 = 64 * j by omega]

theorem loadScratch_odd (j : ℕ) : loadScratch dram pa scratch (2 * j + 1) = scratch (2 * j + 1) :=
  evenLoop_of_ne (fun k _ ↦ show 2 * j + 1 ≠ 0 + 2 * k by omega) scratch

theorem resultToDram_apply {j : ℕ} (hj : 2 * j < SCRATCH_ARRAY_SIZE) :
    resultToDram scratch pa dram (pa.toNat + 64 * j) = (scratch (2 * j)).setWidth 512 := by
  have hinj : Function.Injective fun i ↦ pa.toNat + i * 32 := fun i k h ↦ by
    dsimp only at h
    omega
  have happly := evenLoop_apply hinj (fun i ↦ (scratch i).setWidth 512) (i := 0) (j := j)
    (by omega) dram
  rw [Nat.zero_add, show pa.toNat + 2 * j * 32 = pa.toNat + 64 * j by omega] at happly
  exact happly

theorem resultToDram_of_ne {a : ℕ} (h : ∀ j, 2 * j < SCRATCH_ARRAY_SIZE → a ≠ pa.toNat + 64 * j) :
    resultToDram scratch pa dram a = dram a := by
  apply evenLoop_of_ne
  intro j hj
  have hne := h j (by omega)
  omega

theorem resultToDram_eq_self
    (h : ∀ j, 2 * j < SCRATCH_ARRAY_SIZE →
    dram (pa.toNat + 64 * j) = (scratch (2 * j)).setWidth 512) :
    resultToDram scratch pa dram = dram := by
  funext a
  by_cases hmem : ∃ j, 2 * j < SCRATCH_ARRAY_SIZE ∧ a = pa.toNat + 64 * j
  · obtain ⟨j, hj, rfl⟩ := hmem
    rw [resultToDram_apply dram pa scratch hj, h j hj]
  · exact resultToDram_of_ne dram pa scratch fun j hj heq ↦ hmem ⟨j, hj, heq⟩

end Loops

/-! ## Sorted lists of words -/

section Words

variable {w n : ℕ} {f g : ℕ → BitVec w}

theorem sum_window (f : ℕ → ℕ) (n : ℕ) : (window f 0 n).sum = ∑ k ∈ Finset.range n, f k := by
  induction n with
  | zero => rfl
  | succ n ih => rw [window_concat (Nat.zero_le n), List.sum_append, ih, Finset.sum_range_succ,
      List.sum_singleton]

/-- If each word is at most the other one at its place, and the words are the same up to their
order, they are the same. -/
theorem eq_of_perm_of_le (hle : ∀ k < n, f k ≤ g k) (hperm : (window f 0 n).Perm (window g 0 n)) :
    ∀ k < n, f k = g k := by
  have hsum : ∑ k ∈ Finset.range n, (f k).toNat = ∑ k ∈ Finset.range n, (g k).toNat := by
    have hmap := (hperm.map BitVec.toNat).sum_eq
    rwa [window_map, window_map, sum_window, sum_window] at hmap
  have heq := (Finset.sum_eq_sum_iff_of_le fun k hk ↦ hle k (Finset.mem_range.mp hk)).mp hsum
  exact fun k hk ↦ BitVec.eq_of_toNat_eq (heq k (Finset.mem_range.mpr hk))

theorem le_count_zero (h : ∀ j < n, g (2 * j + 1) = 0#w) : n ≤ (window g 0 (2 * n)).count 0#w := by
  induction n with
  | zero => exact Nat.zero_le _
  | succ n ih =>
    have hn := ih fun j hj ↦ h j (Nat.lt_succ_of_lt hj)
    rw [show 2 * (n + 1) = 2 * n + 1 + 1 by omega, window_concat (Nat.zero_le _),
      window_concat (Nat.zero_le _), h n (Nat.lt_succ_self n), List.count_append, List.count_append,
      List.count_singleton_self]
    omega

/-- In a sorted list the zeros come first. -/
theorem eq_zero_of_lt_count (hsorted : (window g 0 n).Pairwise (· ≤ ·)) {k : ℕ}
    (hk : k < (window g 0 n).count 0#w) :
    g k = 0#w := by
  by_contra hne
  have hkn : k < n := by
    have hlen := List.count_le_length (a := 0#w) (l := window g 0 n)
    rw [length_window] at hlen
    omega
  -- from position `k` on there is no zero
  have hnone : (window g k n).count 0#w = 0 := by
    apply List.count_eq_zero_of_not_mem
    intro hmem
    obtain ⟨i, hki, hin, hi⟩ := mem_window.mp hmem
    rcases Nat.eq_or_lt_of_le hki with rfl | hlt
    · exact hne hi
    · have hle := rel_of_pairwise_window hsorted (Nat.zero_le k) hlt hin
      rw [hi] at hle
      exact hne (BitVec.le_zero_iff.mp hle)
  have hfirst := List.count_le_length (a := 0#w) (l := window g 0 k)
  rw [length_window] at hfirst
  rw [← window_append (Nat.zero_le k) hkn.le, List.count_append, hnone] at hk
  omega

end Words

/-! ## What is stored -/

/-- Entry `k` of the array at a byte address. -/
def elemAt (dram : Dram) (pa k : ℕ) : BitVec 32 :=
  slice (dram ((pa + 4 * k) / 64)) (8 * ((pa + 4 * k) % 64)) 32

/-- The array at a byte address. -/
def array (dram : Dram) (pa : ℕ) : List (BitVec 32) := window (elemAt dram pa) 0 SCRATCH_ARRAY_SIZE

/-- The array has become a sorted permutation of what it was, and the words outside it are as they
were. -/
structure SortsArray (dram dram' : Dram) (pa : ℕ) : Prop where
  sorted : (array dram' pa).Pairwise (· ≤ ·)
  perm : (array dram' pa).Perm (array dram pa)
  rest : ∀ a, (∀ k < SCRATCH_ARRAY_SIZE, a ≠ (pa + 4 * k) / 64) → dram' a = dram a

/-- The array is sorted, and the words that the code loads and stores are zero. -/
def NothingToDo (dram : Dram) (pa : ℕ) : Prop :=
  (array dram pa).Pairwise (· ≤ ·) ∧ ∀ j, 2 * j < SCRATCH_ARRAY_SIZE → dram (pa + 64 * j) = 0#512

/-- The scratch array once it is sorted. -/
def sortedScratch (dram : Dram) (pa : BitVec 32) : Scratch :=
  mergeSort (loadScratch dram pa fun _ ↦ 0)

/-- DRAM once the result is stored. -/
def stored (dram : Dram) (pa : BitVec 32) : Dram := resultToDram (sortedScratch dram pa) pa dram

section Stored

variable (dram : Dram) (pa : BitVec 32)

/-- Half of the scratch array is zero when it is sorted, so the lower half is when it has been. -/
theorem sortedScratch_eq_zero {k : ℕ} (hk : 2 * k < SCRATCH_ARRAY_SIZE) :
    sortedScratch dram pa k = 0#32 := by
  obtain ⟨hsorted, hperm⟩ := mergeSort_spec (loadScratch dram pa fun _ ↦ 0)
  have hcount := le_count_zero (n := 2048) fun j _ ↦ loadScratch_odd dram pa (fun _ ↦ 0) j
  rw [← hperm.count_eq] at hcount
  have hk' : k < 2048 := by
    change 2 * k < 4096 at hk
    omega
  exact eq_zero_of_lt_count hsorted (hk'.trans_le hcount)

theorem stored_apply {j : ℕ} (hj : 2 * j < SCRATCH_ARRAY_SIZE) :
    stored dram pa (pa.toNat + 64 * j) = (sortedScratch dram pa (2 * j)).setWidth 512 :=
  resultToDram_apply dram pa _ hj

theorem stored_eq_zero {j : ℕ} (hj : 4 * j < SCRATCH_ARRAY_SIZE) :
    stored dram pa (pa.toNat + 64 * j) = 0#512 := by
  rw [stored_apply dram pa (by omega), sortedScratch_eq_zero dram pa (by omega),
    BitVec.setWidth_zero]

/-- A word is stored outside the array, or as zero. -/
theorem elemAt_stored_le {k : ℕ} (hk : k < SCRATCH_ARRAY_SIZE) :
    elemAt (stored dram pa) pa.toNat k ≤ elemAt dram pa.toNat k := by
  by_cases hmem : ∃ j, 2 * j < SCRATCH_ARRAY_SIZE ∧ (pa.toNat + 4 * k) / 64 = pa.toNat + 64 * j
  · obtain ⟨j, -, hj⟩ := hmem
    -- only the first few of the words that are stored can lie in the array
    have hj4 : 4 * j < SCRATCH_ARRAY_SIZE := by
      change k < 4096 at hk
      change 4 * j < 4096
      omega
    rw [elemAt, hj, stored_eq_zero dram pa hj4, slice, BitVec.extractLsb'_zero]
    exact BitVec.le_def.mpr (Nat.zero_le _)
  · have hsame : stored dram pa ((pa.toNat + 4 * k) / 64) = dram ((pa.toNat + 4 * k) / 64) :=
      resultToDram_of_ne dram pa _ fun j hj heq ↦ hmem ⟨j, hj, heq⟩
    rw [elemAt, hsame, ← elemAt]
    exact BitVec.le_refl _

variable {dram pa}

/-- The entries of the array are the words of its range. -/
theorem word_eq_of_elemAt_eq {dram' : Dram} {pa k : ℕ} (hpa : 64 ∣ pa) (hk : k < SCRATCH_ARRAY_SIZE)
    (h : ∀ k < SCRATCH_ARRAY_SIZE, elemAt dram' pa k = elemAt dram pa k) :
    dram' ((pa + 4 * k) / 64) = dram ((pa + 4 * k) / 64) := by
  obtain ⟨p, rfl⟩ := hpa
  change k < 4096 at hk
  apply BitVec.eq_of_getLsbD_eq
  intro i hi
  -- the entry that bit `i` of the word belongs to
  have hword : (64 * p + 4 * (16 * (k / 16) + i / 32)) / 64 = (64 * p + 4 * k) / 64 := by omega
  have hbyte : (64 * p + 4 * (16 * (k / 16) + i / 32)) % 64 = 4 * (i / 32) := by omega
  have hbit := congrArg (BitVec.getLsbD · (i % 32))
    (h (16 * (k / 16) + i / 32) (show _ < 4096 by omega))
  rw [elemAt, elemAt, hword, hbyte, slice, slice] at hbit
  rwa [BitVec.getLsbD_extractLsb', BitVec.getLsbD_extractLsb',
    decide_eq_true (Nat.mod_lt i (by decide)), Bool.true_and, Bool.true_and,
    show 8 * (4 * (i / 32)) + i % 32 = i by omega] at hbit

/-- When the result is right, nothing has changed: no entry of the array is larger than before, and
their sum is the same. -/
theorem stored_eq_self (hpa : 64 ∣ pa.toNat) (h : SortsArray dram (stored dram pa) pa.toNat) :
    stored dram pa = dram := by
  have helem := eq_of_perm_of_le (fun k hk ↦ elemAt_stored_le dram pa hk) h.perm
  funext a
  by_cases hmem : ∃ k < SCRATCH_ARRAY_SIZE, a = (pa.toNat + 4 * k) / 64
  · obtain ⟨k, hk, rfl⟩ := hmem
    exact word_eq_of_elemAt_eq hpa hk helem
  · exact h.rest a fun k hk heq ↦ hmem ⟨k, hk, heq⟩

/-- When nothing has changed, the words that are loaded are zero: each even entry of the scratch
array has kept its place, the odd ones were zero, and the last of these is now the largest. -/
theorem sortedScratch_eq_zero_of_stored (h : stored dram pa = dram) {k : ℕ}
    (hk : k < SCRATCH_ARRAY_SIZE) :
    sortedScratch dram pa k = 0#32 := by
  obtain ⟨hsorted, hperm⟩ := mergeSort_spec (loadScratch dram pa fun _ ↦ 0)
  have hle : ∀ k < SCRATCH_ARRAY_SIZE, loadScratch dram pa (fun _ ↦ 0) k
    ≤ sortedScratch dram pa k := by
    intro k hk
    obtain ⟨j, rfl | rfl⟩ := Nat.even_or_odd' k
    · have hword := stored_apply dram pa hk
      rw [h] at hword
      rw [loadScratch_even dram pa _ hk, hword, BitVec.setWidth_setWidth_of_le _ (by decide),
        BitVec.setWidth_eq]
      exact BitVec.le_refl _
    · rw [loadScratch_odd]
      exact BitVec.le_def.mpr (Nat.zero_le _)
  have hlast : sortedScratch dram pa 4095 = 0#32 := by
    rw [← eq_of_perm_of_le hle hperm.symm 4095 (by decide)]
    exact loadScratch_odd dram pa _ 2047
  rcases Nat.lt_or_ge k 4095 with hlt | hge
  · have hmax := rel_of_pairwise_window hsorted (Nat.zero_le k) hlt (Nat.lt_succ_self 4095)
    exact BitVec.le_zero_iff.mp (hlast ▸ hmax)
  · change k < 4096 at hk
    obtain rfl : k = 4095 := by omega
    exact hlast

/-- When the words that are loaded are zero, the scratch array is, and zeros are stored over
zeros. -/
theorem stored_eq_self_of_zero
    (h : ∀ j, 2 * j < SCRATCH_ARRAY_SIZE → dram (pa.toNat + 64 * j) = 0#512) :
    stored dram pa = dram := by
  apply resultToDram_eq_self
  intro j hj
  have hmem : sortedScratch dram pa (2 * j)
    ∈ window (loadScratch dram pa fun _ ↦ 0) 0 SCRATCH_ARRAY_SIZE :=
    (mergeSort_spec _).2.mem_iff.mp (mem_window.mpr ⟨2 * j, Nat.zero_le _, hj, rfl⟩)
  obtain ⟨k, -, hk, hload⟩ := mem_window.mp hmem
  have hzero : loadScratch dram pa (fun _ ↦ 0) k = 0#32 := by
    obtain ⟨i, rfl | rfl⟩ := Nat.even_or_odd' k
    · rw [loadScratch_even dram pa _ hk, h i hk, BitVec.setWidth_zero]
    · exact loadScratch_odd dram pa _ i
  rw [h j hj, ← hload, hzero, BitVec.setWidth_zero]

theorem sortsArray_stored_iff (hpa : 64 ∣ pa.toNat) :
    SortsArray dram (stored dram pa) pa.toNat ↔ NothingToDo dram pa.toNat := by
  constructor
  · intro h
    have hself := stored_eq_self hpa h
    refine ⟨hself ▸ h.sorted, fun j hj ↦ ?_⟩
    have hword := stored_apply dram pa hj
    rwa [hself, sortedScratch_eq_zero_of_stored hself hj, BitVec.setWidth_zero] at hword
  · rintro ⟨hsorted, hzero⟩
    rw [stored_eq_self_of_zero hzero]
    exact ⟨hsorted, List.Perm.refl _, fun _ _ ↦ rfl⟩

end Stored

/-! ## Runs -/

namespace App

/-- What has been loaded and sorted is what DRAM held at the start. -/
def Loaded (dram : Dram) (s : App) : Prop :=
  match s.state with
  | .mapReq | .mapReply | .loadScratch => s.dram = dram ∧ s.scratchArr = fun _ ↦ 0
  | .mergeSort => s.dram = dram ∧ s.scratchArr = Mergesort.loadScratch dram s.paArrPtr fun _ ↦ 0
  | .resultToDram =>
    s.scratchArr = sortedScratch dram s.paArrPtr ∧ (s.dram = dram ∨ s.dram = stored dram s.paArrPtr)

variable {dram : Dram} {s : App}

theorem resultToDram_of_loaded (h : s.dram = dram ∨ s.dram = stored dram s.paArrPtr)
    (hscratch : s.scratchArr = sortedScratch dram s.paArrPtr) :
    Mergesort.resultToDram s.scratchArr s.paArrPtr s.dram = stored dram s.paArrPtr := by
  rw [hscratch]
  rcases h with hdram | hdram
  · rw [hdram, stored]
  · -- every further call stores the same words
    rw [hdram]
    exact resultToDram_eq_self _ _ _ fun j hj ↦ stored_apply dram s.paArrPtr hj

theorem loaded_call (h : Loaded dram s) : Loaded dram s.call := by
  obtain ⟨state, scratchArr, paArrPtr, dram', mapReq, mapRet⟩ := s
  cases state with
  | mapReq => exact h
  | mapReply =>
    cases mapRet with
    | nil => exact h
    | cons ret mapRet =>
      rw [call]
      dsimp only
      by_cases hret : ret.status = 0
      · rw [if_pos hret]
        exact h
      · rw [if_neg hret]
        exact h
  | loadScratch =>
    obtain ⟨rfl, rfl⟩ := h
    exact ⟨rfl, rfl⟩
  | mergeSort => exact ⟨congrArg Mergesort.mergeSort h.2, Or.inl h.1⟩
  | resultToDram => exact ⟨h.1, Or.inr (resultToDram_of_loaded h.2 h.1)⟩

theorem loaded_run (dram : Dram) (is : List Event) : Loaded dram (run step (init dram) is) := by
  apply run_invariant (s := init dram) _ ⟨rfl, rfl⟩
  rintro s (_ | ret) h
  · exact loaded_call h
  · exact h

/-- What DRAM holds after a call in RESULT_TO_DRAM. -/
theorem dram_call_of_loaded (h : Loaded dram s) (hstate : s.state = .resultToDram) :
    s.call.dram = stored dram s.paArrPtr := by
  rw [Loaded, hstate] at h
  rw [call, hstate]
  exact resultToDram_of_loaded h.2 h.1

/-- The mapping answers with an address, and the block is called until it stores. -/
def answeredRun (pa : BitVec 32) : List Event := [.call, .reply ⟨0, pa, 0⟩, .call, .call, .call]

theorem state_answeredRun (dram : Dram) (pa : BitVec 32) :
    (run step (init dram) (answeredRun pa)).state = .resultToDram
      ∧ (run step (init dram) (answeredRun pa)).paArrPtr = pa :=
  ⟨rfl, rfl⟩

end App

section Result

variable {dram : Dram} {is : List App.Event}

/-- **After RESULT_TO_DRAM the array is sorted, and nothing else changed, exactly when it was sorted
before and the words at the indices that the code computes were zero.** -/
theorem mergesort_sortsArray_iff (hstate : (run App.step (.init dram) is).state = .resultToDram)
    (hpa : 64 ∣ (run App.step (.init dram) is).paArrPtr.toNat) :
    SortsArray dram (run App.step (.init dram) (is ++ [.call])).dram
      (run App.step (.init dram) is).paArrPtr.toNat
      ↔ NothingToDo dram (run App.step (.init dram) is).paArrPtr.toNat := by
  have hdram := App.dram_call_of_loaded (App.loaded_run dram is) hstate
  rw [run_concat, App.step, hdram]
  exact sortsArray_stored_iff hpa

/-- A sorted array at the byte address `0x2000`, with the same number in all of a word. -/
def rampDram : Dram := fun i ↦
  if 128 ≤ i ∧ i < 384 then BitVec.replicate 16 (BitVec.ofNat 32 (i - 128)) else 0

theorem slice_replicate {w n i : ℕ} (x : BitVec w) (hi : i < n) :
    slice (BitVec.replicate n x) (w * i) w = x := by
  apply BitVec.eq_of_getLsbD_eq
  intro b hb
  have hlt : w * i + b < w * n :=
    Nat.lt_of_lt_of_le (Nat.add_lt_add_left hb _) (Nat.mul_le_mul_left w hi)
  rw [slice, BitVec.getLsbD_extractLsb', BitVec.getLsbD_replicate, decide_eq_true hb,
    decide_eq_true hlt, Nat.mul_add_mod, Nat.mod_eq_of_lt hb, Bool.true_and, Bool.true_and]

theorem elemAt_rampDram {k : ℕ} (hk : k < 4096) :
    elemAt rampDram 0x2000 k = BitVec.ofNat 32 (k / 16) := by
  have hword : (0x2000 + 4 * k) / 64 = 128 + k / 16 := by omega
  have hoff : 8 * ((0x2000 + 4 * k) % 64) = 32 * (k % 16) := by omega
  rw [elemAt, rampDram, if_pos (by omega), hoff, hword, Nat.add_sub_cancel_left]
  exact slice_replicate _ (Nat.mod_lt _ (by decide))

theorem mergesort_sortsArray_ramp :
    SortsArray rampDram (run App.step (.init rampDram) (App.answeredRun 0x2000 ++ [.call])).dram
      0x2000 := by
  refine (mergesort_sortsArray_iff (App.state_answeredRun _ _).1 ?_).mpr ⟨?_, fun j _ ↦ if_neg ?_⟩
  · rw [(App.state_answeredRun _ _).2]
    decide
  · apply List.pairwise_map.mpr
    refine (List.pairwise_lt_range' (s := 0) (n := SCRATCH_ARRAY_SIZE) 1).imp_of_mem ?_
    intro j k _ hk hlt
    have hk : k < 4096 := by
      obtain ⟨-, hk⟩ := List.mem_range'_1.mp hk
      rwa [Nat.zero_add] at hk
    change elemAt _ 0x2000 j ≤ elemAt _ 0x2000 k
    rw [elemAt_rampDram (hlt.trans hk), elemAt_rampDram hk, BitVec.le_def, BitVec.toNat_ofNat,
      BitVec.toNat_ofNat]
    omega
  · change ¬(128 ≤ 0x2000 + 64 * j ∧ 0x2000 + 64 * j < 384)
    omega

/-- The word at the index `0x2000` is not in the array at the byte address `0x2000`, and it is
overwritten. -/
theorem not_mergesort_sortsArray_word :
    ¬SortsArray (Function.update (fun _ ↦ 0) 0x2000 1)
      (run App.step (.init (Function.update (fun _ ↦ 0) 0x2000 1))
        (App.answeredRun 0x2000 ++ [.call])).dram 0x2000 := by
  intro h
  have hword := h.rest 0x2000 fun k hk ↦ by
    change k < 4096 at hk
    omega
  rw [run_concat, App.step, App.dram_call_of_loaded (App.loaded_run _ _) rfl,
    Function.update_self] at hword
  have hzero := stored_eq_zero (Function.update (fun _ ↦ 0) 0x2000 1) 0x2000 (j := 0) (by decide)
  exact absurd (hzero.symm.trans hword) (by simp)

end Result

end FpgaOs.Mergesort
