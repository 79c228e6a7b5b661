import FpgaOs.AxiRab.SynchFifo
import FpgaOs.Memcached.HeaderHandler

/-!
# The header handler of the key-value store: replies

The send side of `header_handler` puts the headers that the receive side has kept before each packet
from the application. The words of the packets wait in a queue of four words. It is read with a
register, `rd_en`, and while this is not set the wires `tmp_*` keep the word that has been read
last; `tx_data` and the other registers show to the network what is sent.

Two things are not waited for. Inside a packet the queue is read whether or not it is empty, and
after a packet the registers are loaded again, or cleared, whether or not its last word has been
accepted. `Proper` cycles are those in which this does no harm, and in a run of proper cycles the
network gets each packet with three words before it. But the third of them is not the one that has
been captured: it is padded with 32 bits and not with 24, so the top byte is lost.
-/

namespace FpgaOs.Memcached

open Machine BitField Feed AxiRab

/-! ## The code -/

/-- `data_in`. -/
def NetWord.pack (w : NetWord) : BitVec 137 := w.last ++ w.user ++ w.keep ++ w.data

/-- The parts of `data_out`. -/
def NetWord.unpack (x : BitVec 137) : NetWord where
  data := slice x 0 64
  keep := slice x 64 8
  user := slice x 72 64
  last := slice x 136 1

/-- `state`. -/
inductive TxState
  | hdr
  | data
  deriving DecidableEq

/-- The registers of the send side, with what the wires `tmp_*` keep. The queue has the registers of
`synch_fifo`, of depth 4. -/
structure HeaderTx where
  state : TxState
  count : BitVec 2
  rdEn : Bool
  txEn : Bool
  tx : NetWord
  tmp : NetWord
  fifo : SynchFifo 2 (BitVec 137)

namespace HeaderTx

variable (s : HeaderTx) (rx : HeaderHandler)

/-- `fromApp_axis_tready`. -/
def fromAppReady : Bool := !s.fifo.full

/-- `data_out`. -/
def dataOut : BitVec 137 := if s.rdEn then s.fifo.dataO else 0

/-- `tmp_tdata` and the others. -/
def tmpOut : NetWord := if s.rdEn then .unpack s.dataOut else s.tmp

/-- The stream `toNet_axis`: a word if `tvalid` is set. -/
def toNet : Option NetWord := if s.txEn then some s.tx else none

/-- What happens to the queue and the wires at each clock edge. -/
def clocked (fromApp : Option NetWord) : HeaderTx :=
  { s with
    tmp := s.tmpOut
    fifo := s.fifo.posedge
      ⟨true, s.rdEn, fromApp.isSome && s.fromAppReady, (fromApp.getD {}).pack⟩ }

/-- The clock edge. An unsized zero has 32 bits. -/
def posedge (fromApp : Option NetWord) (toNetReady : Bool) : HeaderTx :=
  let next := s.clocked fromApp
  match s.state with
  | .hdr =>
    if (fromApp.isSome ∨ ¬s.fifo.empty) ∧ s.count = 0 then
      { next with
        txEn := true
        tx := { s.tx with data := rx.ethHdr0, last := 0, keep := 0xFF }
        count := s.count + 1 }
    else if s.count = 1 then
      if toNetReady then
        { next with
          tx := { s.tx with data := rx.ethHdr1 ++ slice rx.legoHdr 40 16, keep := 0xFF }
          count := s.count + 1 }
      else next
    else if s.count = 2 then
      if toNetReady then
        { next with
          tx := { s.tx with data := (slice rx.legoHdr 0 40 ++ 0#32).setWidth 64, keep := 0xFF }
          state := .data
          count := 0
          rdEn := true }
      else next
    else
      { next with
        txEn := false
        tx := { s.tx with data := 0, keep := 0, last := 0 }
        count := 0
        rdEn := false }
  | .data =>
    let next := if toNetReady then { next with rdEn := true, tx := s.tmpOut }
      else { next with rdEn := false }
    if s.tmpOut.last = 1 ∧ toNetReady then { next with rdEn := false, state := .hdr } else next

end HeaderTx

/-! ## The streams -/

/-- What comes from outside in a cycle: whether the application offers its next word, whether the
network is ready, and the inputs of the receive side. -/
structure TxCycle extends Cycle where
  fromNet : Option NetWord := none
  toAppReady : Bool := true

/-- The registers of both sides, the words that the application has not delivered, those that have
been accepted from it, and those that the network has accepted. -/
structure TxLog where
  rx : HeaderHandler
  tx : HeaderTx
  rest : List NetWord
  accepted : List NetWord
  sent : List NetWord

namespace TxLog

variable (l : TxLog) (c : TxCycle)

/-- The stream `fromApp_axis`: a word if `tvalid` is set. -/
def fromApp : Option NetWord := if c.valid then l.rest.head? else none

/-- The word that is accepted from the application. -/
def taken : List NetWord := if l.tx.fromAppReady then (l.fromApp c).toList else []

/-- The word that the network accepts. -/
def given : List NetWord := if c.ready then l.tx.toNet.toList else []

def step : TxLog where
  rx := l.rx.posedge c.fromNet c.toAppReady
  tx := l.tx.posedge l.rx (l.fromApp c) c.ready
  rest := l.rest.drop (l.taken c).length
  accepted := l.accepted ++ l.taken c
  sent := l.sent ++ l.given c

/-- A packet is being sent, and no word of it is in the queue when it is read. -/
def Starved : Prop := l.tx.state = .data ∧ l.tx.rdEn ∧ l.tx.fifo.empty

/-- The last word of a packet is waiting when the registers are loaded again. -/
def Overwritten : Prop := l.tx.state = .hdr ∧ l.tx.count = 0 ∧ l.tx.txEn ∧ ¬c.ready

/-- A cycle in which neither is the case. -/
def Proper : Prop := ¬l.Starved ∧ ¬l.Overwritten c

instance : Decidable (l.Proper c) := by unfold Proper Starved Overwritten; infer_instance

end TxLog

/-! ## Packets with headers -/

/-- A packet from the application. -/
abbrev AppPacket := Frame fun w : NetWord ↦ w.last = 1

/-- The three header words that have been captured: after the last header there is a pad of three
bytes. The `user` of a header word is not written, so it is that of the word before. -/
def HeaderHandler.headerWords (rx : HeaderHandler) (user : BitVec 64) : List NetWord :=
  [⟨rx.ethHdr0, 0xFF, user, 0⟩,
    ⟨rx.ethHdr1 ++ slice rx.legoHdr 40 16, 0xFF, user, 0⟩,
    ⟨slice rx.legoHdr 0 40 ++ 0#24, 0xFF, user, 0⟩]

/-- The words that are loaded for them: the last header is followed by four bytes. -/
def HeaderHandler.loadedWords (rx : HeaderHandler) (user : BitVec 64) : List NetWord :=
  [⟨rx.ethHdr0, 0xFF, user, 0⟩,
    ⟨rx.ethHdr1 ++ slice rx.legoHdr 40 16, 0xFF, user, 0⟩,
    ⟨(slice rx.legoHdr 0 40 ++ 0#32).setWidth 64, 0xFF, user, 0⟩]

/-- Packets with header words before them, which depend on the `user` of the word before. -/
def withHeaders (hdrs : BitVec 64 → List NetWord) : BitVec 64 → List AppPacket → List NetWord
  | _, [] => []
  | user, p :: ps => hdrs user
    ++ (p.units ++ withHeaders hdrs (p.units.getLast p.units_ne_nil).user ps)

/-- A word of a packet, with the headers before it if it is the first one. -/
def prepend (hdrs : BitVec 64 → List NetWord) (st : BitVec 64 × Bool) (w : NetWord) :
    (BitVec 64 × Bool) × List NetWord :=
  ((w.user, w.last = 1), (if st.2 then hdrs st.1 else []) ++ [w])

/-- A word with what is loaded before it. -/
abbrev HeaderHandler.insert (rx : HeaderHandler) := prepend rx.loadedWords

/-- The words with headers before the first word of each packet, as far as they go. -/
def insertHeaders (hdrs : BitVec 64 → List NetWord) (user : BitVec 64) (ws : List NetWord) :
    List NetWord :=
  emits (prepend hdrs) (user, true) ws

section Prepend

variable (hdrs : BitVec 64 → List NetWord) (user : BitVec 64) {ws : List NetWord}

theorem emits_start (h : ws ≠ []) :
    emits (prepend hdrs) (user, true) ws = hdrs user ++ emits (prepend hdrs) (user, false) ws
      ∧ after (prepend hdrs) (user, true) ws = after (prepend hdrs) (user, false) ws := by
  obtain ⟨w, ws, rfl⟩ := List.exists_cons_of_ne_nil h
  rw [emits, emits, ← List.append_assoc]
  exact ⟨rfl, rfl⟩

theorem emits_marked (hm : Marked (fun w : NetWord ↦ w.last = 1) ws) :
    emits (prepend hdrs) (user, false) ws = ws
      ∧ after (prepend hdrs) (user, false) ws = ((ws.getLast hm.ne_nil).user, true) := by
  induction ws generalizing user with
  | nil => exact hm.elim
  | cons w ws ih =>
    obtain ⟨rfl, hlast⟩ | ⟨hlast, hm'⟩ := marked_cons.mp hm
    · exact ⟨rfl, congrArg (Prod.mk w.user) (decide_eq_true hlast)⟩
    · obtain ⟨hemits, hafter⟩ := ih w.user hm'
      have hnext : (prepend hdrs (user, false) w).1 = (w.user, false) :=
        congrArg (Prod.mk w.user) (decide_eq_false hlast)
      rw [emits, after, hnext, hemits, hafter, List.getLast_cons hm'.ne_nil]
      exact ⟨rfl, rfl⟩

/-- **Headers are inserted packet by packet.** -/
theorem insertHeaders_packets (ps : List AppPacket) :
    insertHeaders hdrs user (ps.flatMap Frame.units) = withHeaders hdrs user ps
      ∧ (after (prepend hdrs) (user, true) (ps.flatMap Frame.units)).2 = true := by
  induction ps generalizing user with
  | nil => exact ⟨rfl, rfl⟩
  | cons p ps ih =>
    have hm : Marked (fun w : NetWord ↦ w.last = 1) p.units := p.marked
    obtain ⟨hemits, hafter⟩ := emits_marked hdrs user hm
    obtain ⟨hstart, hstart'⟩ := emits_start hdrs user p.units_ne_nil
    obtain ⟨hrest, hrest'⟩ := ih (p.units.getLast p.units_ne_nil).user
    rw [List.flatMap_cons, insertHeaders, emits_append, after_append, hstart, hstart', hafter,
      hemits, List.append_assoc]
    refine ⟨?_, hrest'⟩
    rw [withHeaders, ← hrest]
    rfl

end Prepend

section Captured

variable {rx : HeaderHandler}

/-- The parser captures the headers of a packet, up to the pad. -/
theorem headerWords_of_capture {s : HeaderHandler} (hst : s.rxState = .idle)
    (hfirst : s.headerStriped = false) (w₀ w₁ w₂ : NetWord) (hpad : slice w₂.data 0 24 = 0#24)
    (user : BitVec 64) :
    ((after HeaderHandler.read s [w₀, w₁, w₂]).headerWords user).map NetWord.data
      = [w₀.data, w₁.data, w₂.data] := by
  obtain ⟨rxState, waitCnt, headerStriped, ethHdr0, ethHdr1, legoHdr⟩ := s
  dsimp only at hst hfirst
  have hcaptured : after HeaderHandler.read ⟨rxState, waitCnt, headerStriped, ethHdr0, ethHdr1,
      legoHdr⟩ [w₀, w₁, w₂] = ⟨.parseStream, waitCnt, true, w₀.data, slice w₁.data 16 48,
        setSlice (setSlice legoHdr 40 (slice w₁.data 0 16)) 0 (slice w₂.data 24 40)⟩ := by
    rw [hst, hfirst]
    rfl
  have hlow : slice (setSlice (setSlice legoHdr 40 (slice w₁.data 0 16)) 0 (slice w₂.data 24 40))
      0 40 = slice w₂.data 24 40 := slice_setSlice_self (by decide)
  have hhigh : slice (setSlice (setSlice legoHdr 40 (slice w₁.data 0 16)) 0 (slice w₂.data 24 40))
      40 16 = slice w₁.data 0 16 :=
    (slice_setSlice_of_disjoint (by decide) (.inr (by decide))).trans
      (slice_setSlice_self (by decide))
  rw [hcaptured, HeaderHandler.headerWords, hlow, hhigh, ← hpad]
  exact congrArg₂ (fun x y ↦ [w₀.data, x, y]) BitVec.extractLsb'_append_extractLsb'
    BitVec.extractLsb'_append_extractLsb'

/-- Of 64 bits, 40 that are moved up by a byte too many are where they should be only if all are 0:
`2 ^ 40` would divide 255 times their value. -/
theorem shift_eq_shift_iff {n : ℕ} (h : n < 2 ^ 40) : n * 2 ^ 32 % 2 ^ 64 = n * 2 ^ 24 ↔ n = 0 := by
  constructor
  · intro heq
    have hsplit : n * 2 ^ 32 = n * 2 ^ 8 * 2 ^ 24 := (Nat.mul_assoc n (2 ^ 8) (2 ^ 24)).symm
    have hwidth : (2 : ℕ) ^ 64 = 2 ^ 40 * 2 ^ 24 := rfl
    rw [hsplit, hwidth, Nat.mul_mod_mul_right] at heq
    have hmod : n * 2 ^ 8 % 2 ^ 40 = n := Nat.eq_of_mul_eq_mul_right (by decide) heq
    have hdvd := Nat.dvd_sub_mod (n := 2 ^ 40) (n * 2 ^ 8)
    have htimes : n * 2 ^ 8 - n = n * 255 := by omega
    rw [hmod, htimes] at hdvd
    exact Nat.eq_zero_of_dvd_of_lt (Nat.Coprime.dvd_of_dvd_mul_right (by decide) hdvd) h
  · rintro rfl
    rfl

/-- The words that are loaded are those that have been captured only if the bytes that are moved are
0. -/
theorem loadedWords_eq_iff (user : BitVec 64) :
    rx.loadedWords user = rx.headerWords user ↔ slice rx.legoHdr 0 40 = 0 := by
  have hword (x : BitVec 40) : (x ++ 0#32).setWidth 64 = x ++ 0#24 ↔ x = 0 := by
    have hzero : (0 : BitVec 40).toNat = 0 := rfl
    rw [← BitVec.toNat_inj, ← BitVec.toNat_inj, BitVec.toNat_setWidth, BitVec.toNat_append,
      BitVec.toNat_append, BitVec.toNat_zero, BitVec.toNat_zero, Nat.or_zero, Nat.or_zero,
      Nat.shiftLeft_eq, Nat.shiftLeft_eq, hzero]
    exact shift_eq_shift_iff x.isLt
  rw [← hword, HeaderHandler.loadedWords, HeaderHandler.headerWords]
  constructor
  · intro heq
    exact congrArg NetWord.data (List.cons.inj (List.cons.inj (List.cons.inj heq).2).2).1
  · intro heq
    rw [heq]

end Captured

/-! ## The queue -/

theorem unpack_pack (w : NetWord) : NetWord.unpack w.pack = w := by
  have hdata : slice w.pack 0 64 = w.data := BitVec.extractLsb'_append_eq_right
  have hkeep : slice w.pack 64 8 = w.keep := by
    rw [slice, NetWord.pack, BitVec.extractLsb'_append_eq_of_le (by decide)]
    exact BitVec.extractLsb'_append_eq_right
  have huser : slice w.pack 72 64 = w.user := by
    rw [slice, NetWord.pack, BitVec.extractLsb'_append_eq_of_le (by decide),
      BitVec.extractLsb'_append_eq_of_le (by decide)]
    exact BitVec.extractLsb'_append_eq_right
  have hlast : slice w.pack 136 1 = w.last := by
    rw [slice, NetWord.pack, BitVec.extractLsb'_append_eq_of_le (by decide),
      BitVec.extractLsb'_append_eq_of_le (by decide)]
    exact BitVec.extractLsb'_append_eq_left
  rw [NetWord.unpack, hdata, hkeep, huser, hlast]

section Queue

variable {s : HeaderTx} {rx : HeaderHandler} {q : List NetWord}

/-- The word that is put into the queue. -/
def HeaderTx.queued (s : HeaderTx) (fromApp : Option NetWord) : List NetWord :=
  if s.fromAppReady then fromApp.toList else []

/-- The words in the queue after a clock edge. -/
def HeaderTx.nextQueue (s : HeaderTx) (q : List NetWord) (fromApp : Option NetWord) :
    List NetWord :=
  (if s.rdEn then q.tail else q) ++ s.queued fromApp

theorem posedge_fifo (s : HeaderTx) (rx : HeaderHandler) (fromApp : Option NetWord)
    (ready : Bool) : (s.posedge rx fromApp ready).fifo = (s.clocked fromApp).fifo := by
  unfold HeaderTx.posedge
  split
  · split
    · rfl
    · split
      · split <;> rfl
      · split
        · split <;> rfl
        · rfl
  · cases ready with
    | false => exact apply_ite HeaderTx.fifo _ _ _ |>.trans (ite_self _)
    | true => exact apply_ite HeaderTx.fifo _ _ _ |>.trans (ite_self _)

theorem contents_posedge (hq : s.fifo.Contents (q.map NetWord.pack)) (rx : HeaderHandler)
    (fromApp : Option NetWord) (ready : Bool) : (s.posedge rx fromApp ready).fifo.Contents
      ((s.nextQueue q fromApp).map NetWord.pack) := by
  have hqueued : s.queued fromApp
      = if fromApp.isSome && !s.fifo.full then [fromApp.getD {}] else [] := by
    rw [HeaderTx.queued, HeaderTx.fromAppReady]
    cases fromApp with
    | none => exact ite_self []
    | some w => rfl
  rw [posedge_fifo, HeaderTx.nextQueue, hqueued]
  exact hq.posedge_map s.rdEn fromApp.isSome (fromApp.getD {})

theorem empty_iff (hq : s.fifo.Contents (q.map NetWord.pack)) : s.fifo.empty ↔ q = [] := by
  rw [hq.empty_eq, List.isEmpty_iff, List.map_eq_nil_iff]

theorem queued_of_nil (hq : s.fifo.Contents (([] : List NetWord).map NetWord.pack))
    (fromApp : Option NetWord) : s.queued fromApp = fromApp.toList := by
  rw [HeaderTx.queued, HeaderTx.fromAppReady, hq.full_eq]
  rfl

theorem tmpOut_of_rdEn (hrd : s.rdEn = true) {w : NetWord}
    (hq : s.fifo.Contents ((w :: q).map NetWord.pack)) : s.tmpOut = w := by
  rw [HeaderTx.tmpOut, if_pos hrd, HeaderTx.dataOut, if_pos hrd, hq.dataO_eq, unpack_pack]

theorem tmpOut_of_not_rdEn (hrd : s.rdEn = false) : s.tmpOut = s.tmp := by
  rw [HeaderTx.tmpOut, hrd]
  rfl

end Queue

/-! ## The clock edge -/

section Posedge

variable {s : HeaderTx} {rx : HeaderHandler} {fromApp : Option NetWord} {ready : Bool}

theorem posedge_start (hst : s.state = .hdr) (hcnt : s.count = 0)
    (hmore : fromApp.isSome ∨ ¬s.fifo.empty) :
    s.posedge rx fromApp ready = { s.clocked fromApp with
      txEn := true
      tx := { s.tx with data := rx.ethHdr0, last := 0, keep := 0xFF }
      count := s.count + 1 } := by
  rw [HeaderTx.posedge, hst]
  exact if_pos ⟨hmore, hcnt⟩

theorem posedge_idle (hst : s.state = .hdr) (hcnt : s.count = 0)
    (hmore : ¬(fromApp.isSome ∨ ¬s.fifo.empty)) :
    s.posedge rx fromApp ready = { s.clocked fromApp with
      txEn := false
      tx := { s.tx with data := 0, keep := 0, last := 0 }
      count := 0
      rdEn := false } := by
  rw [HeaderTx.posedge, hst]
  dsimp only
  rw [if_neg fun h ↦ hmore h.1, hcnt]
  rfl

theorem posedge_header0 (hst : s.state = .hdr) (hcnt : s.count = 1) :
    s.posedge rx fromApp ready = if ready then
      { s.clocked fromApp with
        tx := { s.tx with data := rx.ethHdr1 ++ slice rx.legoHdr 40 16, keep := 0xFF }
        count := 2 }
      else s.clocked fromApp := by
  have hzero : s.count ≠ 0 := by rw [hcnt]; decide
  rw [HeaderTx.posedge, hst]
  dsimp only
  rw [if_neg fun h ↦ hzero h.2, if_pos hcnt, hcnt]
  rfl

theorem posedge_header1 (hst : s.state = .hdr) (hcnt : s.count = 2) :
    s.posedge rx fromApp ready = if ready then
      { s.clocked fromApp with
        tx := { s.tx with data := (slice rx.legoHdr 0 40 ++ 0#32).setWidth 64, keep := 0xFF }
        state := .data
        count := 0
        rdEn := true }
      else s.clocked fromApp := by
  have hzero : s.count ≠ 0 := by rw [hcnt]; decide
  have hone : s.count ≠ 1 := by rw [hcnt]; decide
  rw [HeaderTx.posedge, hst]
  dsimp only
  rw [if_neg fun h ↦ hzero h.2, if_neg hone, if_pos hcnt]

theorem posedge_data (hst : s.state = .data) :
    s.posedge rx fromApp ready = if s.tmpOut.last = 1 ∧ ready then
      { s.clocked fromApp with rdEn := false, tx := s.tmpOut, state := .hdr }
      else if ready then { s.clocked fromApp with rdEn := true, tx := s.tmpOut }
      else { s.clocked fromApp with rdEn := false } := by
  rw [HeaderTx.posedge, hst]
  dsimp only
  cases ready with
  | false =>
    have hnot : ¬(s.tmpOut.last = 1 ∧ false = true) := fun h ↦ Bool.false_ne_true h.2
    rw [if_neg hnot, if_neg hnot]
  | true => rfl

theorem txEn_posedge (hen : s.txEn = true)
    (hst : s.state = .hdr → s.count = 1 ∨ s.count = 2) :
    (s.posedge rx fromApp ready).txEn = true := by
  have hclocked : (s.clocked fromApp).txEn = true := hen
  cases hstate : s.state with
  | hdr =>
    obtain hcnt | hcnt := hst hstate
    · rw [posedge_header0 hstate hcnt]
      split <;> exact hclocked
    · rw [posedge_header1 hstate hcnt]
      split <;> exact hclocked
  | data =>
    rw [posedge_data hstate]
    split
    · exact hclocked
    · split <;> exact hclocked

end Posedge

/-! ## What is still to be sent -/

/-- For the words that have been accepted the network is still to get `out`, and then the words `ws`
with headers, from the state `st` on. -/
inductive Pending (rx : HeaderHandler) (s : HeaderTx) (q : List NetWord) :
    List NetWord → BitVec 64 × Bool → List NetWord → Prop
  | idle : s.state = .hdr → s.count = 0 → s.rdEn = false →
    Pending rx s q s.toNet.toList (s.tx.user, true) q
  | header0 (user : BitVec 64) : s.state = .hdr → s.count = 1 → s.rdEn = false → s.txEn = true →
    q ≠ [] → s.tx = ⟨rx.ethHdr0, 0xFF, user, 0⟩ →
    Pending rx s q (rx.loadedWords user) (user, false) q
  | header1 (user : BitVec 64) : s.state = .hdr → s.count = 2 → s.rdEn = false → s.txEn = true →
    q ≠ [] → s.tx = ⟨rx.ethHdr1 ++ slice rx.legoHdr 40 16, 0xFF, user, 0⟩ →
    Pending rx s q (rx.loadedWords user).tail (user, false) q
  | read : s.state = .data → s.count = 0 → s.rdEn = true → s.txEn = true →
    Pending rx s q [s.tx] (s.tx.user, false) q
  | keep : s.state = .data → s.count = 0 → s.rdEn = false → s.txEn = true →
    Pending rx s q [s.tx] (s.tx.user, false) (s.tmp :: q)

section Phases

variable {s : HeaderTx} {rx : HeaderHandler} {q : List NetWord} {fromApp : Option NetWord}
  {ready : Bool}

/-- The same words are to be sent after a clock edge, less the one that the network accepts and with
the one that is put into the queue. -/
def Goes (rx : HeaderHandler) (s : HeaderTx) (q : List NetWord) (fromApp : Option NetWord)
    (ready : Bool) (out : List NetWord) (st : BitVec 64 × Bool) (ws : List NetWord) : Prop :=
  ∃ out' st' ws', Pending rx (s.posedge rx fromApp ready) (s.nextQueue q fromApp) out' st' ws'
    ∧ (if ready then s.toNet.toList else []) ++ (out' ++ emits rx.insert st' ws')
      = out ++ emits rx.insert st (ws ++ s.queued fromApp)
    ∧ after rx.insert st' ws' = after rx.insert st (ws ++ s.queued fromApp)

theorem nextQueue_of_not_rdEn (hrd : s.rdEn = false) :
    s.nextQueue q fromApp = q ++ s.queued fromApp := by
  rw [HeaderTx.nextQueue, hrd]
  rfl

theorem toNet_of_txEn (hen : s.txEn = true) : s.toNet = some s.tx := if_pos hen

theorem given_of_ready (hready : s.txEn = true → ready = true) :
    (if ready then s.toNet.toList else []) = s.toNet.toList := by
  rw [HeaderTx.toNet]
  cases hen : s.txEn with
  | false => exact ite_self []
  | true =>
    rw [hready hen]
    rfl

theorem goes_start (hst : s.state = .hdr) (hcnt : s.count = 0) (hrd : s.rdEn = false)
    (hq : s.fifo.Contents (q.map NetWord.pack)) (hready : s.txEn = true → ready = true)
    (hmore : fromApp.isSome ∨ ¬s.fifo.empty) :
    Goes rx s q fromApp ready s.toNet.toList (s.tx.user, true) q := by
  have hne : q ++ s.queued fromApp ≠ [] := by
    intro hnil
    obtain ⟨rfl, hqueued⟩ := List.append_eq_nil_iff.mp hnil
    rw [queued_of_nil hq] at hqueued
    obtain hsome | hempty := hmore
    · obtain ⟨w, rfl⟩ := Option.isSome_iff_exists.mp hsome
      exact absurd hqueued (List.cons_ne_nil _ _)
    · exact hempty ((empty_iff hq).mpr rfl)
  obtain ⟨hemits, hafter⟩ := emits_start rx.loadedWords s.tx.user hne
  refine ⟨rx.loadedWords s.tx.user, (s.tx.user, false), q ++ s.queued fromApp, ?_, ?_, hafter.symm⟩
  · rw [nextQueue_of_not_rdEn hrd, posedge_start hst hcnt hmore]
    exact .header0 s.tx.user hst (congrArg (· + 1) hcnt) hrd rfl hne rfl
  · rw [given_of_ready hready, hemits]

theorem goes_idle (hst : s.state = .hdr) (hcnt : s.count = 0) (hrd : s.rdEn = false)
    (hready : s.txEn = true → ready = true)
    (hmore : ¬(fromApp.isSome ∨ ¬s.fifo.empty)) :
    Goes rx s q fromApp ready s.toNet.toList (s.tx.user, true) q := by
  refine ⟨[], (s.tx.user, true), q ++ s.queued fromApp, ?_, ?_, rfl⟩
  · rw [nextQueue_of_not_rdEn hrd, posedge_idle hst hcnt hmore]
    exact .idle hst rfl rfl
  · rw [given_of_ready hready, List.nil_append]

theorem goes_header0 {user : BitVec 64} (hst : s.state = .hdr) (hcnt : s.count = 1)
    (hrd : s.rdEn = false) (hen : s.txEn = true) (hq : q ≠ [])
    (htx : s.tx = ⟨rx.ethHdr0, 0xFF, user, 0⟩) :
    Goes rx s q fromApp ready (rx.loadedWords user) (user, false) q := by
  have hne : q ++ s.queued fromApp ≠ [] := fun hnil ↦ hq (List.append_eq_nil_iff.mp hnil).1
  rw [Goes, nextQueue_of_not_rdEn hrd, HeaderTx.toNet, if_pos hen, posedge_header0 hst hcnt,
    htx]
  cases ready with
  | false => exact ⟨_, _, _, .header0 user hst hcnt hrd hen hne htx, rfl, rfl⟩
  | true => exact ⟨_, _, _, .header1 user hst rfl hrd hen hne rfl, rfl, rfl⟩

theorem goes_header1 {user : BitVec 64} (hst : s.state = .hdr) (hcnt : s.count = 2)
    (hrd : s.rdEn = false) (hen : s.txEn = true) (hq : q ≠ [])
    (htx : s.tx = ⟨rx.ethHdr1 ++ slice rx.legoHdr 40 16, 0xFF, user, 0⟩) :
    Goes rx s q fromApp ready (rx.loadedWords user).tail (user, false) q := by
  have hne : q ++ s.queued fromApp ≠ [] := fun hnil ↦ hq (List.append_eq_nil_iff.mp hnil).1
  rw [Goes, nextQueue_of_not_rdEn hrd, HeaderTx.toNet, if_pos hen, posedge_header1 hst hcnt,
    htx]
  cases ready with
  | false => exact ⟨_, _, _, .header1 user hst hcnt hrd hen hne htx, rfl, rfl⟩
  | true => exact ⟨_, _, _, .read rfl rfl rfl hen, rfl, rfl⟩

theorem Pending.idle_of_txEn (hst : s.state = .hdr) (hcnt : s.count = 0) (hrd : s.rdEn = false)
    (hen : s.txEn = true) : Pending rx s q [s.tx] (s.tx.user, true) q := by
  have hidle : Pending rx s q s.toNet.toList (s.tx.user, true) q := .idle hst hcnt hrd
  rwa [HeaderTx.toNet, if_pos hen] at hidle

theorem goes_data {w : NetWord} {r : List NetWord} (hst : s.state = .data) (hcnt : s.count = 0)
    (hen : s.txEn = true) (htmp : s.tmpOut = w)
    (hqueue : s.nextQueue q fromApp = r ++ s.queued fromApp) :
    Goes rx s q fromApp ready [s.tx] (s.tx.user, false) (w :: r) := by
  have hkept : (s.clocked fromApp).tmp = w := htmp
  have hemits : emits rx.insert (s.tx.user, false) (w :: r ++ s.queued fromApp)
      = w :: emits rx.insert (w.user, decide (w.last = 1)) (r ++ s.queued fromApp) := rfl
  have hafter : after rx.insert (s.tx.user, false) (w :: r ++ s.queued fromApp)
      = after rx.insert (w.user, decide (w.last = 1)) (r ++ s.queued fromApp) := rfl
  rw [Goes, hqueue, HeaderTx.toNet, if_pos hen, posedge_data hst, htmp, hemits, hafter]
  cases ready with
  | false =>
    rw [if_neg fun h ↦ Bool.false_ne_true h.2]
    refine ⟨[s.tx], (s.tx.user, false), w :: (r ++ s.queued fromApp), ?_, rfl, rfl⟩
    rw [← hkept]
    exact .keep hst hcnt rfl hen
  | true =>
    by_cases hlast : w.last = 1
    · rw [if_pos ⟨hlast, rfl⟩, decide_eq_true hlast]
      exact ⟨[w], (w.user, true), r ++ s.queued fromApp, .idle_of_txEn rfl hcnt rfl hen, rfl, rfl⟩
    · rw [if_neg fun h ↦ hlast h.1, if_pos rfl, decide_eq_false hlast]
      exact ⟨[w], (w.user, false), r ++ s.queued fromApp, .read hst hcnt rfl hen, rfl, rfl⟩

/-- **A clock edge**: unless the queue is read when it is empty, or a word is overwritten, no word
is lost and none is made up. -/
theorem Pending.posedge {out ws : List NetWord} {st : BitVec 64 × Bool}
    (h : Pending rx s q out st ws) (hq : s.fifo.Contents (q.map NetWord.pack))
    (hstarved : ¬(s.state = .data ∧ s.rdEn ∧ s.fifo.empty))
    (hover : ¬(s.state = .hdr ∧ s.count = 0 ∧ s.txEn ∧ ¬ready)) (fromApp : Option NetWord) :
    Goes rx s q fromApp ready out st ws := by
  cases h with
  | idle hst hcnt hrd =>
    have hready : s.txEn = true → ready = true := by
      intro hen
      by_contra hnot
      exact hover ⟨hst, hcnt, hen, hnot⟩
    by_cases hmore : fromApp.isSome ∨ ¬s.fifo.empty
    · exact goes_start hst hcnt hrd hq hready hmore
    · exact goes_idle hst hcnt hrd hready hmore
  | header0 user hst hcnt hrd hen hne htx => exact goes_header0 hst hcnt hrd hen hne htx
  | header1 user hst hcnt hrd hen hne htx => exact goes_header1 hst hcnt hrd hen hne htx
  | read hst hcnt hrd hen =>
    have hne : q ≠ [] := fun hnil ↦ hstarved ⟨hst, hrd, (empty_iff hq).mpr hnil⟩
    obtain ⟨w, r, rfl⟩ := List.exists_cons_of_ne_nil hne
    refine goes_data hst hcnt hen (tmpOut_of_rdEn hrd hq) ?_
    rw [HeaderTx.nextQueue, if_pos hrd]
    rfl
  | keep hst hcnt hrd hen =>
    exact goes_data hst hcnt hen (tmpOut_of_not_rdEn hrd) (nextQueue_of_not_rdEn hrd)

theorem Pending.shows {out ws : List NetWord} {st : BitVec 64 × Bool}
    (h : Pending rx s q out st ws) (hq : s.fifo.Contents (q.map NetWord.pack))
    (fromApp : Option NetWord) (ready : Bool) : (s.posedge rx fromApp ready).txEn = true
      ∨ (s.posedge rx fromApp ready).txEn = false ∧ fromApp = none
        ∧ s.nextQueue q fromApp = [] := by
  cases h with
  | idle hst hcnt hrd =>
    by_cases hmore : fromApp.isSome ∨ ¬s.fifo.empty
    · rw [posedge_start hst hcnt hmore]
      exact .inl rfl
    · rw [posedge_idle hst hcnt hmore, nextQueue_of_not_rdEn hrd]
      obtain ⟨hnone, hempty⟩ := not_or.mp hmore
      obtain rfl := (empty_iff hq).mp (not_not.mp hempty)
      obtain rfl := Option.not_isSome_iff_eq_none.mp hnone
      exact .inr ⟨rfl, rfl, queued_of_nil hq none⟩
  | header0 user hst hcnt hrd hen => exact .inl (txEn_posedge hen fun _ ↦ .inl hcnt)
  | header1 user hst hcnt hrd hen => exact .inl (txEn_posedge hen fun _ ↦ .inr hcnt)
  | read hst hcnt hrd hen => exact .inl (txEn_posedge hen fun h ↦ by rw [hst] at h; contradiction)
  | keep hst hcnt hrd hen => exact .inl (txEn_posedge hen fun h ↦ by rw [hst] at h; contradiction)

end Phases

/-! ## Runs -/

/-- A header has been captured. -/
structure HeaderHandler.Captured (rx : HeaderHandler) : Prop where
  headerStriped : rx.headerStriped = true
  rxState : rx.rxState = .idle ∨ rx.rxState = .parseStream

theorem HeaderHandler.Captured.posedge {rx : HeaderHandler} (h : rx.Captured)
    (fromNet : Option NetWord) (ready : Bool) :
    (rx.posedge fromNet ready).Captured ∧ ∃ rxState waitCnt,
      rx.posedge fromNet ready = { rx with rxState, waitCnt } := by
  cases fromNet with
  | none => exact ⟨h, _, _, rfl⟩
  | some w =>
    obtain hst | hst := h.rxState
    · rw [HeaderHandler.posedge, hst]
      dsimp only
      rw [if_neg (not_not_intro h.headerStriped)]
      split
      · exact ⟨⟨h.headerStriped, .inr rfl⟩, _, _, rfl⟩
      · exact ⟨⟨h.headerStriped, .inl rfl⟩, _, _, rfl⟩
    · rw [posedge_stream hst]
      split
      · exact ⟨⟨h.headerStriped, .inl rfl⟩, _, _, rfl⟩
      · exact ⟨h, _, _, rfl⟩

/-- The words of `all` have been sent with headers, up to those that are still to be sent and those
that have not been accepted. -/
structure Carries (rx : HeaderHandler) (user : BitVec 64) (all : List NetWord) (l : TxLog)
    (q out ws : List NetWord) (st : BitVec 64 × Bool) : Prop where
  captured : l.rx.Captured
  headers : ∃ rxState waitCnt, l.rx = { rx with rxState, waitCnt }
  contents : l.tx.fifo.Contents (q.map NetWord.pack)
  pending : Pending rx l.tx q out st ws
  once : l.accepted ++ l.rest = all
  emits_eq : l.sent ++ (out ++ emits rx.insert st ws) = insertHeaders rx.loadedWords user l.accepted
  after_eq : after rx.insert st ws = after rx.insert (user, true) l.accepted

section Runs

variable {rx : HeaderHandler} {user : BitVec 64} {all q out ws : List NetWord} {l : TxLog}
  {st : BitVec 64 × Bool} {c : TxCycle}

theorem taken_append_drop (l : TxLog) (c : TxCycle) :
    l.taken c ++ l.rest.drop (l.taken c).length = l.rest := by
  rw [TxLog.taken, TxLog.fromApp]
  cases l.tx.fromAppReady with
  | false => rfl
  | true =>
    cases c.valid with
    | false => rfl
    | true => cases l.rest <;> rfl

theorem Carries.tx_step (h : Carries rx user all l q out ws st) (c : TxCycle) :
    (l.step c).tx = l.tx.posedge rx (l.fromApp c) c.ready := by
  obtain ⟨rxState, waitCnt, hrx⟩ := h.headers
  rw [TxLog.step, hrx]
  rfl

theorem Carries.step (h : Carries rx user all l q out ws st) (hc : l.Proper c) :
    ∃ out' ws' st',
      Carries rx user all (l.step c) (l.tx.nextQueue q (l.fromApp c)) out' ws' st' := by
  obtain ⟨hcaptured, rxState, waitCnt, hheaders⟩ := h.captured.posedge c.fromNet c.toAppReady
  obtain ⟨rxState₀, waitCnt₀, hrx⟩ := h.headers
  have hposedge := h.tx_step c
  obtain ⟨out', st', ws', hpending, hemits, hafter⟩ :=
    h.pending.posedge h.contents hc.1 hc.2 (l.fromApp c)
  refine ⟨out', ws', st', hcaptured, ⟨rxState, waitCnt, ?_⟩, ?_, ?_, ?_, ?_, ?_⟩
  · rw [TxLog.step, hheaders, hrx]
  · rw [hposedge]
    exact contents_posedge h.contents rx _ _
  · rw [hposedge]
    exact hpending
  · rw [← h.once]
    conv_rhs => rw [← taken_append_drop l c, ← List.append_assoc]
    rfl
  · have hgiven : (l.step c).sent
        = l.sent ++ if c.ready then l.tx.toNet.toList else [] := rfl
    have htaken : (l.step c).accepted = l.accepted ++ l.tx.queued (l.fromApp c) := rfl
    rw [hgiven, htaken, List.append_assoc, hemits, insertHeaders, emits_append, emits_append,
      ← h.after_eq, ← List.append_assoc, ← List.append_assoc]
    exact congrArg (· ++ _) ((List.append_assoc _ _ _).trans h.emits_eq)
  · have htaken : (l.step c).accepted = l.accepted ++ l.tx.queued (l.fromApp c) := rfl
    rw [hafter, htaken, after_append, after_append, h.after_eq]

theorem Carries.run (h : Carries rx user all l q out ws st) {cs : List TxCycle}
    (hcs : Guarded TxLog.step TxLog.Proper l cs) :
    ∃ q' out' ws' st', Carries rx user all (Machine.run TxLog.step l cs) q' out' ws' st' := by
  have hstep : ∀ l c, (∃ q out ws st, Carries rx user all l q out ws st) → TxLog.Proper l c →
      ∃ q out ws st, Carries rx user all (l.step c) q out ws st := by
    rintro l c ⟨q, out, ws, st, h⟩ hc
    exact ⟨_, h.step hc⟩
  exact hcs.invariant hstep ⟨q, out, ws, st, h⟩

theorem Carries.prefix_accepted (h : Carries rx user all l q out ws st) :
    l.sent <+: insertHeaders rx.loadedWords user l.accepted := ⟨_, h.emits_eq⟩

theorem prefix_insertHeaders (rx : HeaderHandler) (user : BitVec 64) (us us' : List NetWord) :
    insertHeaders rx.loadedWords user us <+: insertHeaders rx.loadedWords user (us ++ us') := by
  rw [insertHeaders, insertHeaders, emits_append]
  exact List.prefix_append _ _

theorem Carries.prefix_all (h : Carries rx user all l q out ws st) :
    l.sent <+: insertHeaders rx.loadedWords user all := by
  rw [← h.once]
  exact h.prefix_accepted.trans (prefix_insertHeaders rx user _ _)

theorem Carries.sent_of_idle (h : Carries rx user all l q out ws st) (hen : l.tx.txEn = false)
    (hq : q = []) : l.sent = insertHeaders rx.loadedWords user l.accepted := by
  have hne : l.tx.txEn ≠ true := Bool.eq_false_iff.mp hen
  have hemits := h.emits_eq
  subst hq
  cases h.pending with
  | idle =>
    rw [HeaderTx.toNet, hen] at hemits
    exact (List.append_nil _).symm.trans hemits
  | header0 _ _ _ _ hen' => exact absurd hen' hne
  | header1 _ _ _ _ hen' => exact absurd hen' hne
  | read _ _ _ hen' => exact absurd hen' hne
  | keep _ _ _ hen' => exact absurd hen' hne

/-- The number of words that have been sent or are shown to the network. -/
def TxLog.shown (l : TxLog) : ℕ := l.sent.length + l.tx.toNet.toList.length

theorem Carries.shows (h : Carries rx user all l q out ws st) (hc : l.Proper c) (hvalid : c.valid)
    (hready : c.ready) :
    (l.step c).shown = l.shown + 1 ∨ (l.step c).sent = insertHeaders rx.loadedWords user all := by
  have hposedge := h.tx_step c
  obtain ⟨out', ws', st', h'⟩ := h.step hc
  obtain hen | ⟨hen, hnone, hqueue⟩ := h.pending.shows h.contents (l.fromApp c) c.ready
  · left
    have hsent : (l.step c).sent = l.sent ++ l.tx.toNet.toList := by
      rw [TxLog.step, TxLog.given, if_pos hready]
    rw [TxLog.shown, TxLog.shown, hsent, List.length_append, hposedge, toNet_of_txEn hen]
    rfl
  · right
    rw [← hposedge] at hen
    rw [h'.sent_of_idle hen hqueue, ← h'.once]
    -- the application has no word left
    have hrest : l.rest = [] := by
      rw [TxLog.fromApp, if_pos hvalid] at hnone
      exact List.head?_eq_none_iff.mp hnone
    rw [TxLog.step, hrest, List.drop_nil, List.append_nil]

/-- When the application has words left, one of them comes into the queue, or has no room there. -/
theorem nextQueue_ne_nil (hq : l.tx.fifo.Contents (q.map NetWord.pack)) (hvalid : c.valid)
    (hrest : l.rest ≠ []) : l.tx.nextQueue q (l.fromApp c) ≠ [] := by
  intro hnil
  obtain ⟨hleft, hqueued⟩ := List.append_eq_nil_iff.mp hnil
  obtain ⟨w, rest, hw⟩ := List.exists_cons_of_ne_nil hrest
  rw [HeaderTx.queued, HeaderTx.fromAppReady, hq.full_eq, TxLog.fromApp, if_pos hvalid, hw,
    List.length_map] at hqueued
  have hfull : q.length = 2 ^ 2 := by
    by_contra hne
    rw [decide_eq_false hne] at hqueued
    exact List.cons_ne_nil _ _ hqueued
  have hlen := congrArg List.length hleft
  rw [apply_ite List.length, List.length_tail, hfull, List.length_nil] at hlen
  split at hlen <;> contradiction

/-- A packet goes on as long as it is not complete, so a word of it comes into the queue. -/
theorem Carries.not_starved {ps : List AppPacket}
    (h : Carries rx user (ps.flatMap Frame.units) l q out ws st) (hc : l.Proper c)
    (hvalid : c.valid) : ¬(l.step c).Starved := by
  rintro ⟨hst, hrd, hempty⟩
  obtain ⟨out', ws', st', h'⟩ := h.step hc
  have hnil := (empty_iff h'.contents).mp hempty
  have hafter := congrArg Prod.snd h'.after_eq
  have honce := h'.once
  have hrest : l.rest = [] := by
    by_contra hne
    exact nextQueue_ne_nil h.contents hvalid hne hnil
  rw [TxLog.step, hrest, List.drop_nil, List.append_nil] at honce
  rw [TxLog.step, honce, (insertHeaders_packets rx.loadedWords user ps).2] at hafter
  rw [hnil] at h'
  cases h'.pending with
  | idle hst' => rw [hst] at hst'; contradiction
  | header0 _ hst' => rw [hst] at hst'; contradiction
  | header1 _ hst' => rw [hst] at hst'; contradiction
  | read => exact Bool.false_ne_true hafter
  | keep _ _ hrd' => rw [hrd] at hrd'; contradiction

theorem Carries.sent_run {ps : List AppPacket}
    (h : Carries rx user (ps.flatMap Frame.units) l q out ws st) (hstarved : ¬l.Starved)
    {cs : List TxCycle} (hcs : ∀ c ∈ cs, c.valid ∧ c.ready)
    (hlen : (insertHeaders rx.loadedWords user (ps.flatMap Frame.units)).length
        < l.shown + cs.length
      ∨ l.sent = insertHeaders rx.loadedWords user (ps.flatMap Frame.units)) :
    (Machine.run TxLog.step l cs).sent
      = insertHeaders rx.loadedWords user (ps.flatMap Frame.units) := by
  induction cs generalizing l q out ws st with
  | nil =>
    obtain hlen | hsent := hlen
    · refine h.prefix_all.eq_of_length_le ?_
      have hone : l.tx.toNet.toList.length ≤ 1 := Option.length_toList_le
      rw [TxLog.shown, List.length_nil] at hlen
      omega
    · exact hsent
  | cons c cs ih =>
    obtain ⟨⟨hvalid, hready⟩, hcs⟩ := List.forall_mem_cons.mp hcs
    have hc : l.Proper c := ⟨hstarved, fun hover ↦ hover.2.2.2 hready⟩
    obtain ⟨out', ws', st', h'⟩ := h.step hc
    refine ih h' (h.not_starved hc hvalid) hcs ?_
    obtain hlen | hsent := hlen
    · obtain hshown | hall := h.shows hc hvalid hready
      · left
        rw [List.length_cons] at hlen
        omega
      · exact .inr hall
    · right
      refine h'.prefix_all.eq_of_length_le ?_
      rw [← hsent]
      exact (List.prefix_append l.sent (l.given c)).length_le

end Runs

/-- After a reset, with a header captured and the registers that are not reset at 0. -/
structure Starts (rx : HeaderHandler) (tx : HeaderTx) : Prop where
  captured : rx.Captured
  state : tx.state = .hdr
  count : tx.count = 0
  rdEn : tx.rdEn = false
  txEn : tx.txEn = false
  rdPtr : tx.fifo.rdPtr = 0
  wrPtr : tx.fifo.wrPtr = 0

/-- The send side on a sequence of packets, cycle by cycle. -/
def inserted (rx : HeaderHandler) (tx : HeaderTx) (ps : List AppPacket) : TxLog :=
  ⟨rx, tx, ps.flatMap Frame.units, [], []⟩

/-- Every word that the application has delivered has been accepted once. The network has accepted
the packets with the words `hdrs` before them, in order as far as they have come, and no word before
it has been accepted from the application; when nothing is left inside, it has accepted all of them.
And cycles in which both sides are ready move all words, unless the queue has run empty inside a
packet. -/
structure Inserts (hdrs : BitVec 64 → List NetWord) (user : BitVec 64) (ps : List AppPacket)
    (l : TxLog) : Prop where
  once : l.accepted ++ l.rest = ps.flatMap Frame.units
  order : l.sent <+: withHeaders hdrs user ps
  available : l.sent <+: insertHeaders hdrs user l.accepted
  idle : l.tx.toNet = none → l.tx.fifo.empty → l.sent = insertHeaders hdrs user l.accepted
  ends : ¬l.Starved → ∀ cs : List TxCycle, (∀ c ∈ cs, c.valid ∧ c.ready) →
    (withHeaders hdrs user ps).length < l.sent.length + cs.length →
    (run TxLog.step l cs).sent = withHeaders hdrs user ps

/-- **The words that are loaded are inserted**, for every pattern of gaps and of back-pressure in
which no packet runs dry and no last word is overwritten. -/
theorem inserts_loaded {rx : HeaderHandler} {tx : HeaderTx} (h : Starts rx tx)
    (ps : List AppPacket) (cs : List TxCycle)
    (hcs : Guarded TxLog.step TxLog.Proper (inserted rx tx ps) cs) :
    Inserts rx.loadedWords tx.tx.user ps (run TxLog.step (inserted rx tx ps) cs) := by
  have hstart : Carries rx tx.tx.user (ps.flatMap Frame.units) (inserted rx tx ps) [] [] []
      (tx.tx.user, true) := by
    refine ⟨h.captured, ⟨_, _, rfl⟩, ⟨0, h.rdPtr, h.wrPtr, Ring.stores_nil _ 0⟩, ?_, rfl, rfl, rfl⟩
    have hidle : Pending rx tx [] tx.toNet.toList (tx.tx.user, true) [] :=
      .idle h.state h.count h.rdEn
    rwa [HeaderTx.toNet, h.txEn] at hidle
  obtain ⟨q, out, ws, st, hcarries⟩ := hstart.run hcs
  have hpackets := (insertHeaders_packets rx.loadedWords tx.tx.user ps).1
  refine ⟨hcarries.once, ?_, hcarries.prefix_accepted, fun hnone hempty ↦ ?_,
    fun hstarved cs' hcs' hlen ↦ (hcarries.sent_run hstarved hcs' ?_).trans hpackets⟩
  · rw [← hpackets]
    exact hcarries.prefix_all
  · refine hcarries.sent_of_idle ?_ ((empty_iff hcarries.contents).mp hempty)
    by_contra hen
    rw [toNet_of_txEn (Bool.eq_true_of_not_eq_false hen)] at hnone
    contradiction
  · rw [hpackets]
    exact .inl (Nat.lt_of_lt_of_le hlen (Nat.add_le_add_right (Nat.le_add_right _ _) _))

/-- Before no packet it does not matter what is inserted. -/
theorem Inserts.of_nil {hdrs hdrs' : BitVec 64 → List NetWord} {user : BitVec 64} {l : TxLog}
    (h : Inserts hdrs user [] l) : Inserts hdrs' user [] l := by
  have hnone : l.accepted = [] := (List.append_eq_nil_iff.mp h.once).1
  refine ⟨h.once, h.order, ?_, ?_, h.ends⟩
  · have havailable := h.available
    rw [hnone] at havailable ⊢
    exact havailable
  · have hidle := h.idle
    rw [hnone] at hidle ⊢
    exact hidle

/-- In cycles in which both sides are ready everything is sent, so no two different sequences of
words can have been inserted. -/
theorem Inserts.unique {hdrs hdrs' : BitVec 64 → List NetWord} {user : BitVec 64}
    {ps : List AppPacket} {l : TxLog} (h : Inserts hdrs user ps l) (h' : Inserts hdrs' user ps l)
    (hstarved : ¬l.Starved) : withHeaders hdrs user ps = withHeaders hdrs' user ps := by
  let cs : List TxCycle := List.replicate ((withHeaders hdrs user ps).length
    + (withHeaders hdrs' user ps).length + 1) { valid := true, ready := true }
  have hcs : ∀ c ∈ cs, c.valid ∧ c.ready := by
    intro c hc
    rw [List.eq_of_mem_replicate hc]
    exact ⟨rfl, rfl⟩
  have hlen : cs.length = _ := List.length_replicate
  rw [← h.ends hstarved cs hcs (by omega), ← h'.ends hstarved cs hcs (by omega)]

/-- **Header insertion**, for every pattern of gaps and of back-pressure in which no packet runs dry
and no last word is overwritten: the packets get the headers that have been captured exactly if what
the wider pad moves is 0, or there are none. -/
theorem inserted_inserts_iff {rx : HeaderHandler} {tx : HeaderTx} (h : Starts rx tx)
    (ps : List AppPacket) :
    (∀ cs, Guarded TxLog.step TxLog.Proper (inserted rx tx ps) cs →
        Inserts rx.headerWords tx.tx.user ps (run TxLog.step (inserted rx tx ps) cs))
      ↔ slice rx.legoHdr 0 40 = 0 ∨ ps = [] := by
  constructor
  · intro hall
    rw [or_iff_not_imp_right]
    intro hne
    obtain ⟨p, ps, rfl⟩ := List.exists_cons_of_ne_nil hne
    have hstarved : ¬(inserted rx tx (p :: ps)).Starved := by
      rintro ⟨hst, -⟩
      exact absurd (h.state.symm.trans hst) (by decide)
    have heq := (inserts_loaded h (p :: ps) [] trivial).unique (hall [] trivial) hstarved
    exact (loadedWords_eq_iff tx.tx.user).mp (List.append_inj heq rfl).1
  · rintro (hzero | rfl) cs hcs
    · have heq : rx.loadedWords = rx.headerWords :=
        funext fun user ↦ (loadedWords_eq_iff user).mpr hzero
      exact heq ▸ inserts_loaded h ps cs hcs
    · exact (inserts_loaded h [] cs hcs).of_nil

/-! ## Two cycles that do harm, and a header -/

/-- The receive side with a header. -/
def sampleRx (legoHdr : BitVec 56) : HeaderHandler := ⟨.idle, 0, true, 0x0A, 0x0B, legoHdr⟩

/-- The send side after a reset. -/
def sampleTx : HeaderTx := ⟨.hdr, 0, false, false, {}, {}, ⟨0, 0, fun _ ↦ 0⟩⟩

/-- A packet of two words. -/
def samplePacket : AppPacket := ⟨{ data := 5 }, [{ data := 6, last := 1 }], by decide⟩

theorem starts_sample (legoHdr : BitVec 56) : Starts (sampleRx legoHdr) sampleTx :=
  ⟨⟨rfl, .inl rfl⟩, rfl, rfl, rfl, rfl, rfl, rfl⟩

/-- The second word comes late, and the network is not ready at times; in the end all is sent. -/
def sampleCycles : List TxCycle :=
  [{ valid := true, ready := true }, { valid := false, ready := false },
    { valid := true, ready := true }, { valid := false, ready := true },
    { valid := false, ready := false }, { valid := false, ready := true },
    { valid := false, ready := true }, { valid := false, ready := true }]

theorem inserted_inserts_sample :
    Inserts (sampleRx 0xAABB0000000000).headerWords 0 [samplePacket]
      (run TxLog.step (inserted (sampleRx 0xAABB0000000000) sampleTx [samplePacket])
        sampleCycles) :=
  (inserted_inserts_iff (starts_sample 0xAABB0000000000) [samplePacket]).mpr (.inl (by decide))
    sampleCycles (by decide)

/-- The second word does not come in time, and a word of the memory is sent in its place. A last
word that the network is not ready for is gone. And of the header `aabbccddee` the first byte is
lost. -/
theorem not_inserts_sample :
    ¬Inserts (sampleRx 0).headerWords 0 [samplePacket]
        (run TxLog.step (inserted (sampleRx 0) sampleTx [samplePacket])
          ({ valid := true, ready := true } :: List.replicate 5 { valid := false, ready := true }))
      ∧ ¬Inserts (sampleRx 0).headerWords 0 [samplePacket]
        (run TxLog.step (inserted (sampleRx 0) sampleTx [samplePacket])
          (List.replicate 5 { valid := true, ready := true }
            ++ [{ valid := false, ready := false }]))
      ∧ ¬Inserts (sampleRx 0xAABBCCDDEE).headerWords 0 [samplePacket]
        (run TxLog.step (inserted (sampleRx 0xAABBCCDDEE) sampleTx [samplePacket])
          (List.replicate 4 { valid := true, ready := true })) := by
  refine ⟨fun h ↦ ?_, fun h ↦ ?_, fun h ↦ ?_⟩
  · exact absurd h.order (by decide)
  · exact absurd (h.idle (by decide) (by decide)) (by decide)
  · exact absurd h.order (by decide)

end FpgaOs.Memcached
