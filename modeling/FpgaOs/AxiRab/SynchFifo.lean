import FpgaOs.Lib.Machine
import FpgaOs.Lib.Ring

/-!
# The synchronous queue

`synch_fifo` keeps a queue in a memory of `2 ^ k` words. Its pointers have one bit more than an
address: when the addresses agree the extra bits tell a full queue from an empty one. `Contents`
relates the registers to the words in the queue; every other module that has such a queue uses only
the lemmas about it.
-/

namespace FpgaOs.AxiRab

open Machine

/-- The registers of `synch_fifo` of depth `2 ^ k`. -/
structure SynchFifo (k : ℕ) (α : Type*) where
  rdPtr : BitVec (k + 1)
  wrPtr : BitVec (k + 1)
  fifo : BitVec k → α

/-- The inputs of `synch_fifo` in a cycle. -/
structure FifoIn (α : Type*) where
  rst_ : Bool
  rdEn : Bool
  wrEn : Bool
  dataI : α

variable {k : ℕ} {α : Type*}

namespace SynchFifo

variable (s : SynchFifo k α)

/-- `full`. -/
def full : Bool :=
  s.wrPtr.setWidth k == s.rdPtr.setWidth k && s.wrPtr.getLsbD k != s.rdPtr.getLsbD k

/-- `empty`. -/
def empty : Bool := s.wrPtr == s.rdPtr

/-- `data_o`. -/
def dataO : α := s.fifo (s.rdPtr.setWidth k)

/-- A rising edge of `clk`. -/
def posedge (i : FifoIn α) : SynchFifo k α :=
  if i.rst_ then
    { rdPtr := if i.rdEn && !s.empty then s.rdPtr + 1 else s.rdPtr
      wrPtr := if i.wrEn && !s.full then s.wrPtr + 1 else s.wrPtr
      fifo := if i.wrEn && !s.full then Function.update s.fifo (s.wrPtr.setWidth k) i.dataI
        else s.fifo }
  else
    { s with rdPtr := 0, wrPtr := 0 }

/-- The words in the queue. -/
def Contents (q : List α) : Prop :=
  ∃ r, s.rdPtr = BitVec.ofNat (k + 1) r ∧ s.wrPtr = BitVec.ofNat (k + 1) (r + q.length)
    ∧ Ring.Stores s.fifo r q

variable {s} {q : List α}

theorem contents_reset (s : SynchFifo k α) (i : FifoIn α) :
    (s.posedge { i with rst_ := false }).Contents [] :=
  ⟨0, rfl, rfl, Ring.stores_nil _ 0⟩

theorem Contents.length_le (h : s.Contents q) : q.length ≤ 2 ^ k := by
  obtain ⟨r, -, -, hstores⟩ := h
  exact hstores.length_le

theorem Contents.ptr_eq_iff (h : s.Contents q) : s.wrPtr = s.rdPtr ↔ q = [] := by
  obtain ⟨r, hrd, hwr, hstores⟩ := h
  have hle := hstores.length_le
  have hpos := Nat.two_pow_pos k
  rw [hrd, hwr, eq_comm, Ring.ofNat_eq_iff_of_le (Nat.le_add_right _ _) (by omega),
    ← List.length_eq_zero_iff]
  omega

theorem Contents.length_eq {q' : List α} (h : s.Contents q) (h' : s.Contents q') :
    q.length = q'.length := by
  obtain ⟨r, hrd, hwr, hstores⟩ := h
  obtain ⟨r', hrd', hwr', hstores'⟩ := h'
  have hle := hstores.length_le
  have hle' := hstores'.length_le
  have hpos := Nat.two_pow_pos k
  have hrr : r % 2 ^ (k + 1) = r' % 2 ^ (k + 1) := by
    have heq := congrArg BitVec.toNat (hrd.symm.trans hrd')
    rwa [BitVec.toNat_ofNat, BitVec.toNat_ofNat] at heq
  have hww : (r + q.length) % 2 ^ (k + 1) = (r' + q'.length) % 2 ^ (k + 1) := by
    have heq := congrArg BitVec.toNat (hwr.symm.trans hwr')
    rwa [BitVec.toNat_ofNat, BitVec.toNat_ofNat] at heq
  have hmod : q.length % 2 ^ (k + 1) = q'.length % 2 ^ (k + 1) := Nat.ModEq.add_left_cancel hrr hww
  rwa [Nat.mod_eq_of_lt (by omega), Nat.mod_eq_of_lt (by omega)] at hmod

theorem Contents.empty_eq (h : s.Contents q) : s.empty = q.isEmpty := by
  rw [empty, Bool.eq_iff_iff, beq_iff_eq, h.ptr_eq_iff, List.isEmpty_iff]

/-- Pointers with the same address are equal exactly when their extra bits are. -/
theorem getLsbD_ne_iff {x y : BitVec (k + 1)} (h : x.setWidth k = y.setWidth k) :
    x.getLsbD k ≠ y.getLsbD k ↔ x ≠ y := by
  refine not_congr ⟨fun hbit ↦ BitVec.eq_of_getLsbD_eq fun j hj ↦ ?_, fun hxy ↦ hxy ▸ rfl⟩
  rcases Nat.lt_succ_iff_lt_or_eq.mp hj with hj' | rfl
  · have hlow := congrArg (BitVec.getLsbD · j) h
    simpa only [BitVec.getLsbD_setWidth, hj', decide_true, Bool.true_and] using hlow
  · exact hbit

theorem Contents.full_eq (h : s.Contents q) : s.full = decide (q.length = 2 ^ k) := by
  have hptr := h.ptr_eq_iff
  obtain ⟨r, hrd, hwr, hstores⟩ := h
  have hle := hstores.length_le
  have hpos := Nat.two_pow_pos k
  have haddr : s.wrPtr.setWidth k = s.rdPtr.setWidth k ↔ q = [] ∨ q.length = 2 ^ k := by
    rw [hrd, hwr, Ring.setWidth_ofNat, Ring.setWidth_ofNat, eq_comm,
      Ring.ofNat_eq_iff_of_le (Nat.le_add_right _ _) (Nat.add_le_add_left hle r),
      ← List.length_eq_zero_iff]
    omega
  rw [full, Bool.eq_iff_iff, Bool.and_eq_true, beq_iff_eq, bne_iff_ne, decide_eq_true_iff]
  constructor
  · rintro ⟨heq, hbit⟩
    exact (haddr.mp heq).resolve_left (mt hptr.mpr ((getLsbD_ne_iff heq).mp hbit))
  · intro hfull
    have heq := haddr.mpr (.inr hfull)
    refine ⟨heq, (getLsbD_ne_iff heq).mpr (mt hptr.mp ?_)⟩
    rintro rfl
    exact absurd hfull hpos.ne

theorem Contents.full_iff (h : s.Contents q) : s.full = false ↔ q.length < 2 ^ k := by
  rw [h.full_eq, decide_eq_false_iff_not]
  exact h.length_le.lt_iff_ne.symm

theorem Contents.dataO_eq {a : α} (h : s.Contents (a :: q)) : s.dataO = a := by
  obtain ⟨r, hrd, -, hstores⟩ := h
  rw [dataO, hrd, Ring.setWidth_ofNat]
  exact hstores.head

theorem Contents.push (h : s.Contents q) (hlt : q.length < 2 ^ k) (a : α) :
    Contents { s with wrPtr := s.wrPtr + 1, fifo := Function.update s.fifo (s.wrPtr.setWidth k) a }
      (q ++ [a]) := by
  obtain ⟨r, hrd, hwr, hstores⟩ := h
  refine ⟨r, hrd, ?_, ?_⟩
  · rw [hwr, List.length_append, ← Nat.add_assoc]
    exact (BitVec.ofNat_add _ _).symm
  · rw [hwr, Ring.setWidth_ofNat]
    exact hstores.push hlt a

theorem Contents.pop {a : α} (h : s.Contents (a :: q)) :
    Contents { s with rdPtr := s.rdPtr + 1 } q := by
  obtain ⟨r, hrd, hwr, hstores⟩ := h
  refine ⟨r + 1, ?_, ?_, hstores.tail⟩
  · rw [hrd]
    exact (BitVec.ofNat_add _ _).symm
  · rw [hwr, List.length_cons, Nat.add_assoc, Nat.add_comm 1]

/-- **A cycle of `synch_fifo` is a cycle of the queue.** -/
theorem Contents.posedge (h : s.Contents q) {i : FifoIn α} (hrst : i.rst_ = true) :
    (s.posedge i).Contents
    (Fifo.step (2 ^ k) q i.rdEn (if i.wrEn then some i.dataI else none)) := by
  -- the push and the pop move different pointers, so the push can be treated first
  have hpush : Contents
      { s with
        wrPtr := if i.wrEn && !s.full then s.wrPtr + 1 else s.wrPtr
        fifo := if i.wrEn && !s.full then Function.update s.fifo (s.wrPtr.setWidth k) i.dataI
          else s.fifo }
      (q ++ Fifo.pushed (2 ^ k) q (if i.wrEn then some i.dataI else none)) := by
    rw [Fifo.pushed]
    by_cases hlt : q.length < 2 ^ k
    · rw [if_pos hlt, h.full_iff.mpr hlt]
      cases i.wrEn with
      | false => exact (List.append_nil q).symm ▸ h
      | true => exact h.push hlt i.dataI
    · rw [if_neg hlt, Bool.eq_true_of_not_eq_false (mt h.full_iff.mp hlt), Bool.not_true,
        Bool.and_false, List.append_nil]
      exact h
  rw [SynchFifo.posedge, if_pos hrst, h.empty_eq]
  rw [Fifo.append_pushed _ _ i.rdEn, Fifo.popped] at hpush
  -- `empty` is that of the state before the push, so a fresh word is not popped
  cases hrd : i.rdEn with
  | false =>
    rw [hrd] at hpush
    exact hpush
  | true =>
    rw [hrd] at hpush
    obtain _ | ⟨a, q⟩ := q
    · exact hpush
    · exact hpush.pop

/-- A cycle of a queue of packed values that is written only when it is not full. -/
theorem Contents.posedge_map {β : Type*} {f : β → α} {q : List β} (h : s.Contents (q.map f))
    (rd valid : Bool) (b : β) :
    (s.posedge ⟨true, rd, valid && !s.full, f b⟩).Contents
      (((if rd then q.tail else q) ++ (if valid && !s.full then [b] else [])).map f) := by
  have hstep := h.posedge (i := ⟨true, rd, valid && !s.full, f b⟩) rfl
  have hpush : (if (q.map f).length < 2 ^ k then
    (if valid && !s.full then some (f b) else none).toList else [])
      = (if valid && !s.full then [b] else []).map f := by
    by_cases hfull : s.full = false
    · rw [if_pos (h.full_iff.mp hfull)]
      split <;> rfl
    · rw [Bool.eq_true_of_not_eq_false hfull, Bool.not_true, Bool.and_false]
      exact ite_self []
  have hpop : (if rd then (q.map f).tail else q.map f) = (if rd then q.tail else q).map f := by
    cases rd with
    | false => rfl
    | true => exact List.map_tail.symm
  rw [Fifo.step] at hstep
  rw [List.map_append, ← hpush, ← hpop]
  exact hstep

end SynchFifo

/-! ## Runs -/

/-- `synch_fifo` with the words that have been accepted and those that have been read since the last
reset. -/
structure FifoLog (k : ℕ) (α : Type*) where
  fifo : SynchFifo k α
  written : List α
  read : List α

namespace FifoLog

def step (l : FifoLog k α) (i : FifoIn α) : FifoLog k α where
  fifo := l.fifo.posedge i
  written := if i.rst_ then l.written ++ (if i.wrEn && !l.fifo.full then [i.dataI] else []) else []
  read := if i.rst_ then l.read ++ (if i.rdEn && !l.fifo.empty then [l.fifo.dataO] else []) else []

end FifoLog

/-- The queue of capacity `2 ^ k` in the same cycle. -/
def queueStep (k : ℕ) (q : List α) (i : FifoIn α) : List α :=
  if i.rst_ then Fifo.step (2 ^ k) q i.rdEn (if i.wrEn then some i.dataI else none) else []

/-- The signals show the state of the queue, and the words that have been accepted are, in order,
those that have been read and those in the queue. -/
structure Refines (l : FifoLog k α) (q : List α) : Prop where
  length_le : q.length ≤ 2 ^ k
  full_eq : l.fifo.full = decide (q.length = 2 ^ k)
  empty_eq : l.fifo.empty = q.isEmpty
  dataO_eq : ∀ a ∈ q.head?, l.fifo.dataO = a
  written_eq : l.written = l.read ++ q

theorem written_step {l : FifoLog k α} {q : List α} (h : l.fifo.Contents q)
    (hwritten : l.written = l.read ++ q) (i : FifoIn α) : (l.step i).fifo.Contents (queueStep k q i)
      ∧ (l.step i).written = (l.step i).read ++ queueStep k q i := by
  cases hrst : i.rst_ with
  | false =>
    have hi : i = { i with rst_ := false } := by rw [← hrst]
    rw [queueStep, hrst, FifoLog.step, hrst, hi]
    exact ⟨SynchFifo.contents_reset l.fifo i, rfl⟩
  | true =>
    rw [queueStep, if_pos hrst]
    refine ⟨h.posedge hrst, ?_⟩
    have hread : (if i.rdEn && !l.fifo.empty then [l.fifo.dataO] else [])
      = Fifo.popped q i.rdEn := by
      rw [Fifo.popped, h.empty_eq]
      cases i.rdEn with
      | false => rfl
      | true =>
        obtain _ | ⟨a, q⟩ := q
        · rfl
        · exact congrArg ([·]) h.dataO_eq
    have hwrite : (if i.wrEn && !l.fifo.full then [i.dataI] else [])
        = Fifo.pushed (2 ^ k) q (if i.wrEn then some i.dataI else none) := by
      rw [Fifo.pushed, h.full_eq]
      have hle := h.length_le
      cases i.wrEn with
      | false => exact (ite_self []).symm
      | true =>
        by_cases hfull : q.length = 2 ^ k
        · rw [decide_eq_true hfull, if_neg (Nat.not_lt.mpr hfull.ge)]
          rfl
        · rw [decide_eq_false hfull, if_pos (Nat.lt_of_le_of_ne hle hfull)]
          rfl
    rw [FifoLog.step, hrst, if_pos rfl, if_pos rfl, hread, hwrite, hwritten, List.append_assoc,
      List.append_assoc, Fifo.append_pushed]

/-- **`synch_fifo` is a bounded queue**, from a reset in any state on, whatever happens in the
cycles after it. -/
theorem synchFifo_refines (s : SynchFifo k α) (i : FifoIn α) (is : List (FifoIn α)) :
    Refines (run FifoLog.step ⟨s.posedge { i with rst_ := false }, [], []⟩ is)
      (run (queueStep k) [] is) := by
  have hrun : ∀ (l : FifoLog k α) (q : List α), l.fifo.Contents q → l.written = l.read ++ q →
      (run FifoLog.step l is).fifo.Contents (run (queueStep k) q is)
        ∧ (run FifoLog.step l is).written = (run FifoLog.step l is).read
          ++ run (queueStep k) q is := by
    induction is with
    | nil => exact fun _ _ h hwritten ↦ ⟨h, hwritten⟩
    | cons i is ih =>
      intro l q h hwritten
      obtain ⟨h', hwritten'⟩ := written_step h hwritten i
      exact ih _ _ h' hwritten'
  obtain ⟨h, hwritten⟩ :=
    hrun ⟨s.posedge { i with rst_ := false }, [], []⟩ [] (SynchFifo.contents_reset s i) rfl
  refine ⟨h.length_le, h.full_eq, h.empty_eq, fun a ha ↦ ?_, hwritten⟩
  obtain ⟨q, hq⟩ := List.head?_eq_some_iff.mp ha
  rw [hq] at h
  exact h.dataO_eq

end FpgaOs.AxiRab
