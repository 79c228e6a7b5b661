import FpgaOs.Lib.BitField
import FpgaOs.Lib.Machine
import FpgaOs.Lib.Ring
import FpgaOs.Lib.Window

/-!
# The queue between two clocks

`async_fifo` is written with one clock and read with another. Each side sees the pointer of the
other side through two flip-flops, in Gray code, so it sees a value that the pointer had some time
ago. A late view of the write pointer is harmless: the queue looks emptier than it is.

The other direction does not work: the pointers have no extra bit, and `full` compares their
difference with `FIFO_DEPTH`, which a difference of addresses never reaches. So `full` is never set,
and the queue is intact exactly as long as the writer by itself leaves room.
-/

namespace FpgaOs.AxiRab

open Machine BitField

variable {k : ℕ} {α : Type*}

/-! ## Gray code -/

/-- `bin2gray`: each bit is added to the next higher one, the highest is kept. -/
def bin2gray (bin : BitVec k) : BitVec k := bin ^^^ (bin >>> 1)

/-- The loop of `gray2bin`, from bit `i - 1` down to bit `0`. -/
def gray2binLoop (gray : BitVec k) : ℕ → BitVec k → BitVec k
  | 0, bin => bin
  | i + 1, bin => gray2binLoop gray i (setBit bin i (bin.getLsbD (i + 1) ^^ gray.getLsbD i))

/-- `gray2bin`. -/
def gray2bin (gray : BitVec k) : BitVec k :=
  gray2binLoop gray (k - 1) (setBit 0 (k - 1) (gray.getLsbD (k - 1)))

theorem getLsbD_bin2gray (bin : BitVec k) (i : ℕ) :
    (bin2gray bin).getLsbD i = (bin.getLsbD (i + 1) ^^ bin.getLsbD i) := by
  rw [bin2gray, BitVec.getLsbD_xor, BitVec.getLsbD_ushiftRight, Nat.add_comm 1, Bool.xor_comm]

/-- The loop continues bits that are right. -/
theorem getLsbD_gray2binLoop {b bin : BitVec k} {i : ℕ} (hi : i ≤ k)
    (h : ∀ j, i ≤ j → bin.getLsbD j = b.getLsbD j) (j : ℕ) :
    (gray2binLoop (bin2gray b) i bin).getLsbD j = b.getLsbD j := by
  induction i generalizing bin with
  | zero => exact h j (Nat.zero_le j)
  | succ i ih =>
    refine ih (Nat.le_of_succ_le hi) fun l hl ↦ ?_
    rw [getLsbD_setBit hi]
    by_cases hli : l = i
    · rw [if_pos hli, hli, h (i + 1) le_rfl, getLsbD_bin2gray, ← Bool.xor_assoc, Bool.xor_self,
        Bool.false_xor]
    · rw [if_neg hli]
      exact h l (by omega)

/-- **Converting a pointer to Gray code and back.** -/
theorem gray2bin_bin2gray (b : BitVec k) : gray2bin (bin2gray b) = b := by
  apply BitVec.eq_of_getLsbD_eq
  intro j hj
  refine getLsbD_gray2binLoop (Nat.sub_le k 1) (fun l hl ↦ ?_) j
  rw [getLsbD_setBit (by omega), getLsbD_bin2gray]
  by_cases hlk : l = k - 1
  · rw [if_pos hlk, hlk, BitVec.getLsbD_of_ge b (k - 1 + 1) (by omega), Bool.false_xor]
  · rw [if_neg hlk, BitVec.ofNat_eq_ofNat, BitVec.getLsbD_zero, BitVec.getLsbD_of_ge b l (by omega)]

/-! ## The registers -/

/-- The registers of `sync2d` with `DW` one more than the width of a pointer. -/
structure Sync2d (k : ℕ) where
  q1 : BitVec (k + 1)
  q : BitVec (k + 1)

/-- A rising edge of the clock of `sync2d` when the input is the Gray code of a pointer. -/
def Sync2d.posedge (s : Sync2d k) (ptr : BitVec k) : Sync2d k :=
  ⟨(bin2gray ptr).setWidth (k + 1), s.q1⟩

/-- The pointer at the output of `sync2d`. -/
def Sync2d.ptr (s : Sync2d k) : BitVec k := gray2bin (s.q.setWidth k)

/-- The registers of `async_fifo` of depth `2 ^ k`, with those of `syn2d_wr_g` and `syn2d_rd_g`. -/
structure AsyncFifo (k : ℕ) (α : Type*) where
  rdPtr : BitVec k
  wrPtr : BitVec k
  fifo : BitVec k → α
  wrSync : Sync2d k
  rdSync : Sync2d k

namespace AsyncFifo

variable (s : AsyncFifo k α)

/-- `full`. The parameter `FIFO_DEPTH` has 32 bits, or as many as it needs, and so has the
difference. -/
def full : Bool :=
  s.wrPtr.setWidth (max 32 (k + 1)) - s.rdSync.ptr.setWidth (max 32 (k + 1)) == BitVec.ofNat
    (max 32 (k + 1)) (2 ^ k)

/-- `empty`. -/
def empty : Bool := s.wrSync.ptr == s.rdPtr

/-- `data_out`. -/
def dataOut : α := s.fifo s.rdPtr

/-- A rising edge of `srcclk`, when the synchroniser samples `ptr`. -/
def srcEdge (wrEn : Bool) (dataIn : α) (ptr : BitVec k) : AsyncFifo k α :=
  { s with
    wrPtr := if wrEn && !s.full then s.wrPtr + 1 else s.wrPtr
    fifo := if wrEn && !s.full then Function.update s.fifo s.wrPtr dataIn else s.fifo
    rdSync := s.rdSync.posedge ptr }

/-- A rising edge of `dstclk`, when the synchroniser samples `ptr`. -/
def dstEdge (rdEn : Bool) (ptr : BitVec k) : AsyncFifo k α :=
  { s with
    rdPtr := if rdEn && !s.empty then s.rdPtr + 1 else s.rdPtr
    wrSync := s.wrSync.posedge ptr }

end AsyncFifo

/-! ## Runs -/

/-- `async_fifo` with the values that each pointer has had since the one that was sampled last,
oldest first, the words written and the words read. -/
structure AsyncLog (k : ℕ) (α : Type*) where
  fifo : AsyncFifo k α
  wrSeen : List (BitVec k)
  rdSeen : List (BitVec k)
  written : List α
  read : List α

/-- An edge of one of the clocks. What is sampled is a value that the pointer has had, given by its
place among those not older than the last one. -/
inductive AsyncEdge (α : Type*)
  | src (wrEn : Bool) (dataIn : α) (sample : ℕ)
  | dst (rdEn : Bool) (sample : ℕ)

namespace AsyncLog

/-- After a reset. -/
def start (mem : BitVec k → α) : AsyncLog k α :=
  ⟨⟨0, 0, mem, ⟨0, 0⟩, ⟨0, 0⟩⟩, [0], [0], [], []⟩

def step (l : AsyncLog k α) : AsyncEdge α → AsyncLog k α
  | .src wrEn dataIn sample =>
    { fifo := l.fifo.srcEdge wrEn dataIn ((l.rdSeen[sample]?).getD l.fifo.rdPtr)
      wrSeen := if wrEn && !l.fifo.full then l.wrSeen ++ [l.fifo.wrPtr + 1] else l.wrSeen
      rdSeen := if sample < l.rdSeen.length then l.rdSeen.drop sample else [l.fifo.rdPtr]
      written := if wrEn && !l.fifo.full then l.written ++ [dataIn] else l.written
      read := l.read }
  | .dst rdEn sample =>
    { fifo := l.fifo.dstEdge rdEn ((l.wrSeen[sample]?).getD l.fifo.wrPtr)
      wrSeen := if sample < l.wrSeen.length then l.wrSeen.drop sample else [l.fifo.wrPtr]
      rdSeen := if rdEn && !l.fifo.empty then l.rdSeen ++ [l.fifo.rdPtr + 1] else l.rdSeen
      written := l.written
      read := if rdEn && !l.fifo.empty then l.read ++ [l.fifo.dataOut] else l.read }

/-- The words read are the first of those written, at most `FIFO_DEPTH` words are unread, and all of
these are still stored where they were written. -/
structure Intact (l : AsyncLog k α) : Prop where
  isPrefix : l.read <+: l.written
  bounded : l.written.length ≤ l.read.length + 2 ^ k
  stored : ∀ i (h : i < l.written.length), l.read.length ≤ i → l.fifo.fifo (BitVec.ofNat k i)
    = l.written[i]

/-- The condition: nothing is to be written while `FIFO_DEPTH` words are unread. -/
def HasRoom (l : AsyncLog k α) : AsyncEdge α → Prop
  | .src wrEn _ _ => wrEn = true → l.written.length < l.read.length + 2 ^ k
  | .dst _ _ => True

end AsyncLog

/-- A difference of addresses is not the number of addresses. -/
theorem AsyncFifo.full_eq_false (s : AsyncFifo k α) : s.full = false := by
  have hk : 2 ^ (k + 1) ≤ 2 ^ max 32 (k + 1) :=
    Nat.pow_le_pow_right Nat.two_pos (Nat.le_max_right _ _)
  have hpos := Nat.two_pow_pos k
  have hwr := s.wrPtr.isLt
  have hrd := s.rdSync.ptr.isLt
  rw [Nat.pow_succ] at hk
  rw [full, beq_eq_false_iff_ne, ne_eq, ← BitVec.toNat_inj, BitVec.toNat_sub, BitVec.toNat_ofNat,
    BitVec.toNat_setWidth, BitVec.toNat_setWidth, Nat.mod_eq_of_lt (hwr.trans (by omega)),
    Nat.mod_eq_of_lt (hrd.trans (by omega)), Nat.mod_eq_of_lt (a := 2 ^ k) (by omega)]
  generalize 2 ^ max 32 (k + 1) = n at hk
  rcases Nat.lt_or_ge s.wrPtr.toNat s.rdSync.ptr.toNat with hlt | hge
  · rw [Nat.mod_eq_of_lt (by omega)]
    omega
  · have hsub : n - s.rdSync.ptr.toNat + s.wrPtr.toNat = (s.wrPtr.toNat - s.rdSync.ptr.toNat)
      + n := by omega
    rw [hsub, Nat.add_mod_right, Nat.mod_eq_of_lt (by omega)]
    omega

namespace AsyncLog

/-- The pointer at the output of `sync2d` is the one that was sampled. -/
theorem ptr_setWidth (b : BitVec k) :
    gray2bin (((bin2gray b).setWidth (k + 1)).setWidth k) = b := by
  rw [BitVec.setWidth_setWidth_of_le _ (Nat.le_succ k), BitVec.setWidth_eq, gray2bin_bin2gray]

/-- A sample is the pointer at some position, and the values that are not older are those from there
on. -/
theorem exists_sample {g : ℕ → BitVec k} {c w : ℕ} (hc : c ≤ w) (sample : ℕ) :
    ∃ c', c ≤ c' ∧ c' ≤ w ∧ ((window g c (w + 1))[sample]?).getD (g w) = g c'
      ∧ (if sample < (window g c (w + 1)).length then (window g c (w + 1)).drop sample else [g w])
        = window g c' (w + 1) := by
  rw [length_window]
  by_cases hlt : sample < w + 1 - c
  · refine ⟨c + sample, by omega, by omega, ?_, ?_⟩
    · rw [window, List.getElem?_map, List.getElem?_range' hlt]
      simp
    · rw [if_pos hlt, window, window, ← List.map_drop, List.drop_range', Nat.mul_one, Nat.sub_sub]
  · refine ⟨w, hc, le_rfl, ?_, ?_⟩
    · rw [List.getElem?_eq_none (by rw [length_window]; omega)]
      rfl
    · rw [if_neg hlt, window_cons (Nat.lt_succ_self w), window_self]

/-- The pointers are positions modulo `2 ^ k`; those that the reader sees are between its own
position and that of the writer. -/
structure Inv (l : AsyncLog k α) : Prop where
  isPrefix : l.read <+: l.written
  rdPtr_eq : l.fifo.rdPtr = BitVec.ofNat k l.read.length
  wrPtr_eq : l.fifo.wrPtr = BitVec.ofNat k l.written.length
  stores : Ring.Stores l.fifo.fifo l.read.length (l.written.drop l.read.length)
  seen : ∃ c c', l.read.length ≤ c' ∧ c' ≤ c ∧ c ≤ l.written.length
    ∧ l.wrSeen = window (BitVec.ofNat k) c (l.written.length + 1)
    ∧ l.fifo.wrSync
      = ⟨(bin2gray (BitVec.ofNat k c)).setWidth (k + 1),
      (bin2gray (BitVec.ofNat k c')).setWidth (k + 1)⟩

variable {l : AsyncLog k α}

theorem inv_start (mem : BitVec k → α) : Inv (start mem) := by
  have hzero : (bin2gray (BitVec.ofNat k 0)).setWidth (k + 1) = 0 := by
    rw [bin2gray]
    simp
  refine ⟨List.nil_prefix, rfl, rfl, Ring.stores_nil mem 0, 0, 0, le_rfl, le_rfl, le_rfl, rfl, ?_⟩
  rw [hzero]
  rfl

theorem Inv.intact (h : Inv l) : Intact l := by
  have hle := h.isPrefix.length_le
  have hlen := h.stores.length_le
  rw [List.length_drop] at hlen
  refine ⟨h.isPrefix, by omega, fun i hi hri ↦ ?_⟩
  have hget := h.stores.get (i - l.read.length) (by rw [List.length_drop]; omega)
  simpa only [Nat.add_sub_cancel' hri, List.getElem_drop] using hget

/-- A write, when there is room. -/
theorem inv_src (h : Inv l) {wrEn : Bool} {dataIn : α} {sample : ℕ}
    (hroom : HasRoom l (.src wrEn dataIn sample)) :
    Inv (l.step (.src wrEn dataIn sample)) := by
  obtain ⟨c, c', hc', hcc, hc, hseen, hsync⟩ := h.seen
  have hle := h.isPrefix.length_le
  rw [step, AsyncFifo.srcEdge, AsyncFifo.full_eq_false, Bool.not_false, Bool.and_true]
  cases hwr : wrEn with
  | false => exact ⟨h.isPrefix, h.rdPtr_eq, h.wrPtr_eq, h.stores, c, c', hc', hcc, hc, hseen, hsync⟩
  | true =>
    have hlt := hroom hwr
    have hptr : l.fifo.wrPtr + 1 = BitVec.ofNat k (l.written ++ [dataIn]).length := by
      rw [h.wrPtr_eq, List.length_append]
      exact (BitVec.ofNat_add _ _).symm
    refine ⟨h.isPrefix.trans (List.prefix_append _ _), h.rdPtr_eq, hptr, ?_, c, c', hc', hcc,
      ?_, ?_, hsync⟩
    · -- the word goes to the place after those of the unread words
      have hlen : l.read.length + (l.written.drop l.read.length).length = l.written.length := by
        rw [List.length_drop, Nat.add_sub_cancel' hle]
      have hpush := h.stores.push (by rw [List.length_drop]; omega) dataIn
      rwa [hlen, ← h.wrPtr_eq, ← List.drop_append_of_le_length hle] at hpush
    · exact hc.trans (List.prefix_append _ _).length_le
    · dsimp only
      rw [if_pos rfl, if_pos rfl, hseen, hptr, List.length_append, List.length_singleton]
      exact (window_concat (Nat.le_succ_of_le hc)).symm

/-- A word is read from where it was written: the reader sees no position beyond the one of the
writer. -/
theorem inv_dst (h : Inv l) (rdEn : Bool) (sample : ℕ) : Inv (l.step (.dst rdEn sample)) := by
  obtain ⟨c, c', hc', hcc, hc, hseen, hsync⟩ := h.seen
  -- whichever gray value is sampled, it is that of a pointer `d` not behind the last one
  obtain ⟨d, hcd, hd, hvalue, hrest⟩ := @exists_sample k (BitVec.ofNat k) _ _ hc sample
  rw [← hseen, ← h.wrPtr_eq] at hvalue hrest
  have hsync' : l.fifo.wrSync.posedge ((l.wrSeen[sample]?).getD l.fifo.wrPtr)
      = ⟨(bin2gray (BitVec.ofNat k d)).setWidth (k + 1),
        (bin2gray (BitVec.ofNat k c)).setWidth (k + 1)⟩ := by
    rw [Sync2d.posedge, hvalue, hsync]
  have hempty : l.fifo.empty = (BitVec.ofNat k c' == BitVec.ofNat k l.read.length) := by
    rw [AsyncFifo.empty, Sync2d.ptr, hsync, ptr_setWidth, h.rdPtr_eq]
  rw [step, AsyncFifo.dstEdge, hempty]
  -- a word is popped only below the synchronized pointer `c'`, hence one that has been written
  by_cases hpop : (rdEn && !(BitVec.ofNat k c' == BitVec.ofNat k l.read.length)) = true
  · have hne : l.read.length ≠ c' := by
      rintro heq
      rw [heq, beq_self_eq_true, Bool.not_true, Bool.and_false] at hpop
      exact Bool.false_ne_true hpop
    obtain ⟨unread, hunread⟩ := h.isPrefix
    have hdrop : l.written.drop l.read.length = unread := by rw [← hunread, List.drop_left]
    obtain ⟨a, unread, rfl⟩ : ∃ a unread', unread = a :: unread' := by
      refine List.exists_cons_of_ne_nil fun hnil ↦ ?_
      have hlen := congrArg List.length hunread
      rw [hnil, List.append_nil] at hlen
      omega
    have hstores := hdrop ▸ h.stores
    have hdata : l.fifo.dataOut = a := by
      rw [AsyncFifo.dataOut, h.rdPtr_eq]
      exact hstores.head
    have hlength : (l.read ++ [a]).length = l.read.length + 1 := List.length_append
    rw [if_pos hpop, if_pos hpop, if_pos hpop, hdata]
    refine ⟨⟨unread, by rw [← hunread, List.append_assoc]; rfl⟩, ?_, h.wrPtr_eq, ?_, d, c, ?_, hcd,
      hd, hrest, hsync'⟩
    · rw [hlength, h.rdPtr_eq]
      exact (BitVec.ofNat_add _ _).symm
    · have htail : l.written.drop (l.read ++ [a]).length = unread := by
        rw [← hunread, hlength, ← List.drop_drop, List.drop_left]
        rfl
      rw [htail, hlength]
      exact hstores.tail
    · rw [hlength]
      omega
  · rw [if_neg hpop, if_neg hpop, if_neg hpop]
    exact ⟨h.isPrefix, h.rdPtr_eq, h.wrPtr_eq, h.stores, d, c, hc'.trans hcc, hcd, hd,
      hrest, hsync'⟩

theorem inv_step (l : AsyncLog k α) (e : AsyncEdge α) (h : Inv l) (hroom : HasRoom l e) :
    Inv (l.step e) := by
  cases e with
  | src wrEn dataIn sample => exact inv_src h hroom
  | dst rdEn sample => exact inv_dst h rdEn sample

theorem intact_step_iff (l : AsyncLog k α) (e : AsyncEdge α) (h : Inv l) :
    Intact (l.step e) ↔ HasRoom l e := by
  refine ⟨fun hintact ↦ ?_, fun hroom ↦ (inv_step l e h hroom).intact⟩
  cases e with
  | src wrEn dataIn sample =>
    rintro rfl
    have hwritten : (l.step (.src true dataIn sample)).written = l.written ++ [dataIn] := by
      rw [step, AsyncFifo.full_eq_false]
      rfl
    have hbounded := hintact.bounded
    rw [hwritten, List.length_append] at hbounded
    exact hbounded
  | dst rdEn sample => trivial

end AsyncLog

/-- **The queue between two clocks is intact** after each edge of a run, if and only if nothing is
to be written while `FIFO_DEPTH` words are unread. -/
theorem asyncFifo_intact_iff (mem : BitVec k → α) (es : List (AsyncEdge α)) :
    Guarded AsyncLog.step (fun l e ↦ AsyncLog.Intact (l.step e)) (.start mem) es
      ↔ Guarded AsyncLog.step AsyncLog.HasRoom (.start mem) es :=
  guarded_iff_of_invariant AsyncLog.inv_step AsyncLog.intact_step_iff (AsyncLog.inv_start mem)

/-- With a depth of two, three words are written and none is read. -/
theorem not_intact_three_writes : ¬(run AsyncLog.step (.start fun _ : BitVec 1 ↦ 0)
    [.src true 1 0, .src true 2 0, .src true 3 0]).Intact := by
  intro h
  have hlength : (run AsyncLog.step (.start fun _ : BitVec 1 ↦ 0)
      [.src true 1 0, .src true 2 0, .src true 3 0]).written.length = 3 := by decide +kernel
  have hread : (run AsyncLog.step (.start fun _ : BitVec 1 ↦ 0)
      [.src true 1 0, .src true 2 0, .src true 3 0]).read.length = 0 := by decide +kernel
  have hbounded := h.bounded
  rw [hlength, hread] at hbounded
  exact absurd hbounded (by decide)

end FpgaOs.AxiRab
