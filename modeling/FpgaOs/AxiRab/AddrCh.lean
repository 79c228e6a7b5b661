import FpgaOs.AxiRab.SynchFifo
import FpgaOs.Lib.BitField

/-!
# The address channel

A request that arrives waits in the buffer of `axi_addr_ch_rxs` while its address is translated;
when the answer comes, `axi_addr_ch_txs` takes the attributes from the head of the buffer and the
address from the answer. The transmitter has one output register, and does not look at an answer
while that is in use.
-/

namespace FpgaOs.AxiRab

open BitField

variable {k idWid addrWid userWid : ℕ}

/-- A request on an address channel. -/
structure AddrReq (idWid addrWid userWid : ℕ) where
  id : BitVec idWid
  addr : BitVec addrWid
  len : BitVec 8
  size : BitVec 3
  burst : BitVec 2
  prot : BitVec 3
  cache : BitVec 4
  user : BitVec userWid
  lock : BitVec 1
  deriving DecidableEq

namespace AddrReq

/-- `data_in`. -/
def pack (r : AddrReq idWid addrWid userWid) : BitVec (idWid + userWid + addrWid + 21) :=
  setSlice (setSlice (setSlice (setSlice (setSlice (setSlice (setSlice (setSlice (setSlice 0
    0 r.len) 8 r.size) 11 r.burst) 13 r.prot) 16 r.cache) 20 r.lock) 21 r.id) (idWid + 21) r.addr)
    (addrWid + (idWid + 21)) r.user

/-- The fields of `data_out`. -/
def unpack (d : BitVec (idWid + userWid + addrWid + 21)) : AddrReq idWid addrWid userWid where
  id := slice d 21 idWid
  addr := slice d (idWid + 21) addrWid
  len := slice d 0 8
  size := slice d 8 3
  burst := slice d 11 2
  prot := slice d 13 3
  cache := slice d 16 4
  user := slice d (addrWid + (idWid + 21)) userWid
  lock := slice d 20 1

/-- The fields do not overlap. -/
theorem unpack_pack (r : AddrReq idWid addrWid userWid) : unpack (pack r) = r := by
  rw [unpack, pack]
  congr 1 <;> simp (disch := omega) only [slice_setSlice_self, slice_setSlice_of_disjoint]

/-- The request with another address. -/
def withAddr (r : AddrReq idWid addrWid userWid) (addr : BitVec addrWid) :
    AddrReq idWid addrWid userWid :=
  { r with addr }

/-- All registers of the output at zero. -/
def zero : AddrReq idWid addrWid userWid := ⟨0, 0, 0, 0, 0, 0, 0, 0, 0⟩

end AddrReq

/-! ## The receiver -/

/-- The registers of `axi_addr_ch_rxs` with a buffer of `2 ^ k` requests, and the latch of its
outputs. -/
structure AddrChRx (k idWid addrWid userWid : ℕ) where
  iBufRdD : Bool
  latch : AddrReq idWid addrWid userWid
  buf : SynchFifo k (BitVec (idWid + userWid + addrWid + 21))

namespace AddrChRx

variable (s : AddrChRx k idWid addrWid userWid)

/-- `out_ready`. -/
def outReady : Bool := !s.buf.full

/-- The outputs show the head of the buffer, and stay as they are when it is empty. -/
def out : AddrReq idWid addrWid userWid := if !s.buf.empty then .unpack s.buf.dataO else s.latch

/-- A rising edge of `rx_clk`. -/
def posedge (req : AddrReq idWid addrWid userWid) (inValid iBufRd : Bool) :
    AddrChRx k idWid addrWid userWid where
  iBufRdD := iBufRd
  latch := s.out
  buf := s.buf.posedge ⟨true, iBufRd && !s.iBufRdD, inValid && s.outReady, req.pack⟩

/-- After a reset. -/
def init (mem : BitVec k → BitVec (idWid + userWid + addrWid + 21)) :
    AddrChRx k idWid addrWid userWid :=
  ⟨false, .zero, ⟨0, 0, mem⟩⟩

variable {s} {q : List (AddrReq idWid addrWid userWid)}

theorem out_eq {r : AddrReq idWid addrWid userWid}
    (h : s.buf.Contents ((r :: q).map AddrReq.pack)) : s.out = r := by
  have hempty : s.buf.empty = false := h.empty_eq
  rw [out, hempty, h.dataO_eq, AddrReq.unpack_pack]
  rfl

theorem contents_posedge (h : s.buf.Contents (q.map AddrReq.pack))
    (req : AddrReq idWid addrWid userWid)
    (inValid iBufRd : Bool) : (s.posedge req inValid iBufRd).buf.Contents
      (((if iBufRd && !s.iBufRdD then q.tail else q)
        ++ if inValid && s.outReady then [req] else []).map AddrReq.pack) :=
  h.posedge_map _ inValid req

end AddrChRx

/-! ## The transmitter -/

/-- The registers of `axi_addr_ch_txs`. -/
structure AddrChTx (idWid addrWid userWid : ℕ) where
  out : AddrReq idWid addrWid userWid
  outValid : Bool

namespace AddrChTx

variable (s : AddrChTx idWid addrWid userWid)

/-- A rising edge of `tx_clk`. -/
def posedge (req : AddrReq idWid addrWid userWid) (phyAddr : BitVec addrWid)
    (tDone inReady : Bool) :
    AddrChTx idWid addrWid userWid :=
  if tDone && !s.outValid then ⟨req.withAddr phyAddr, true⟩
  else if inReady && s.outValid then ⟨s.out, false⟩
  else s

/-- After a reset. -/
def init : AddrChTx idWid addrWid userWid := ⟨.zero, false⟩

/-- The request in the output registers. -/
def shown : List (AddrReq idWid addrWid userWid) := if s.outValid then [s.out] else []

/-- The request that is accepted in a cycle. -/
def accepted (inReady : Bool) : List (AddrReq idWid addrWid userWid) :=
  if s.outValid && inReady then [s.out] else []

variable {s}

/-- An answer is taken when the output register is free. -/
theorem shown_posedge_done (h : s.outValid = false) (req : AddrReq idWid addrWid userWid)
    (phyAddr : BitVec addrWid) (inReady : Bool) :
    s.accepted inReady ++ (s.posedge req phyAddr true inReady).shown = s.shown
      ++ [req.withAddr phyAddr] := by
  rw [accepted, posedge, shown, shown, h]
  rfl

theorem shown_posedge (req : AddrReq idWid addrWid userWid) (phyAddr : BitVec addrWid)
    {tDone : Bool} (inReady : Bool) (h : tDone = true → s.outValid = true) :
    s.accepted inReady ++ (s.posedge req phyAddr tDone inReady).shown = s.shown := by
  rw [accepted, posedge]
  cases hvalid : s.outValid with
  | false =>
    cases hdone : tDone with
    | false =>
      cases inReady <;> rfl
    | true => exact absurd (hvalid.symm.trans (h hdone)) Bool.false_ne_true
  | true =>
    rw [Bool.not_true, Bool.and_false, if_neg Bool.false_ne_true, shown, shown, hvalid]
    cases inReady with
    | false => simp [hvalid]
    | true => simp

end AddrChTx

end FpgaOs.AxiRab
