import FpgaOs.Lib.BitField
import FpgaOs.Lib.Frame
import FpgaOs.Lib.Machine

/-!
# The receiver of the reliable transport

`rx_libnet_512` passes a packet on to the application if its sequence number is the expected one and
drops it otherwise; a packet with the `SYN` flag sets the expected number and is dropped too. Both
sides of it are AXI-Stream interfaces, and all its outputs are registers: they show in a clock cycle
what was computed from the inputs of the cycle before.

`RxLibnet` is the registers and `posedge` a clock cycle. `Link` puts the receiver between a sender,
which has a stream of beats to send and keeps a beat on the wires until it is taken, and an
application, and records the beats that pass on each side.

The last section says, without the receiver, which beats of a stream of packets the application is
to get.
-/

namespace FpgaOs.Libnet

open BitField

/-- The wires of an AXI-Stream besides `tvalid` and `tready`. -/
structure Beat where
  tdata : BitVec 512 := 0
  tkeep : BitVec 64 := 0
  tuser : BitVec 64 := 0
  tlast : Bool := false
  deriving DecidableEq

namespace Beat

variable (b : Beat)

/-- Bits `CURRENT_SEQ_LSB` to `CURRENT_SEQ_MSB`. -/
def seq : BitVec 32 := slice b.tdata 344 32

/-- Bit `SYN_FLAG`. -/
def syn : Bool := b.tdata.getLsbD 377

end Beat

/-- The states of the receiver. -/
inductive State
  | parseHeader
  | streamPacket
  | dropPacket
  deriving DecidableEq

/-- The registers. -/
structure RxLibnet where
  tx : Beat
  txTvalid : Bool
  seqExpected : BitVec 32
  seqValid : Bool
  rxTready : Bool
  state : State

/-- The inputs in a clock cycle. -/
structure Inputs where
  resetn : Bool
  rx : Beat
  rxTvalid : Bool
  txTready : Bool

/-- A rising edge of the clock. -/
def RxLibnet.posedge (s : RxLibnet) (i : Inputs) : RxLibnet :=
  if !i.resetn then
    { s with
      txTvalid := false
      rxTready := false
      seqExpected := 0
      seqValid := false
      state := .parseHeader }
  else
    match s.state with
    | .parseHeader =>
      if !i.rxTvalid then { s with rxTready := true, txTvalid := false }
      else if i.rx.syn then
        { s with
          rxTready := true
          seqExpected := i.rx.seq
          seqValid := true
          txTvalid := false
          state := if i.rx.tlast then .parseHeader else .dropPacket }
      else if i.rx.seq = s.seqExpected then
        { s with
          rxTready := true
          seqExpected := s.seqExpected + 1
          seqValid := true
          state := .streamPacket
          txTvalid := true
          tx := i.rx }
      else { s with rxTready := true, state := .dropPacket, txTvalid := false }
    | .streamPacket =>
      if !i.rxTvalid then { s with txTvalid := false, rxTready := true }
      else if !i.txTready then { s with tx := i.rx, txTvalid := true, rxTready := false }
      else
        { s with
          tx := i.rx
          txTvalid := true
          rxTready := true
          state := if i.rx.tlast then .parseHeader else .streamPacket }
    | .dropPacket =>
      { s with
        txTvalid := false
        rxTready := true
        state := if i.rxTvalid && i.rx.tlast then .parseHeader else .dropPacket }

/-- The registers after a reset; those that it leaves can have any value. -/
def RxLibnet.reset (s : RxLibnet) : RxLibnet := s.posedge ⟨false, {}, false, false⟩

/-! ## The receiver between a sender and an application -/

structure Link where
  regs : RxLibnet
  /-- The beats that the receiver has not taken. -/
  left : List Beat
  /-- The sender had a beat on the wires in the last cycle that was not taken. -/
  held : Bool
  /-- The number of beats that the receiver has taken: `rx_tvalid` and `rx_tready`. -/
  taken : ℕ
  /-- The beats that the application has accepted: `tx_tvalid` and `tx_tready`. -/
  accepted : List Beat

/-- What the sender and the application do in a cycle. -/
structure Action where
  /-- The sender sends the next beat, if it has one. A beat that was not taken it sends in any
  case. -/
  offer : Bool
  txTready : Bool
  /-- The wires of a sender that sends nothing. -/
  wires : Beat := {}

namespace Link

/-- The inputs of the receiver. -/
def inputs (l : Link) (a : Action) : Inputs :=
  match l.left with
  | [] => ⟨true, a.wires, false, a.txTready⟩
  | b :: _ =>
    if l.held || a.offer then ⟨true, b, true, a.txTready⟩ else ⟨true, a.wires, false, a.txTready⟩

/-- The beat in the transmit registers, if they are valid. -/
def shown (l : Link) : List Beat := if l.regs.txTvalid then [l.regs.tx] else []

/-- A clock cycle. -/
def step (l : Link) (a : Action) : Link where
  regs := l.regs.posedge (l.inputs a)
  left := if (l.inputs a).rxTvalid && l.regs.rxTready then l.left.tail else l.left
  held := (l.inputs a).rxTvalid && !l.regs.rxTready
  taken := if (l.inputs a).rxTvalid && l.regs.rxTready then l.taken + 1 else l.taken
  accepted := if a.txTready then l.accepted ++ l.shown else l.accepted

/-- The link after a reset of the receiver. -/
def init (regs : RxLibnet) (left : List Beat) : Link := ⟨regs.reset, left, false, 0, []⟩

end Link

/-! ## What the application is to get -/

/-- A packet of one or more beats. -/
abbrev Packet := Frame fun b : Beat ↦ b.tlast = true

/-- The number of the last `SYN`, and how many packets have been delivered since. -/
structure Expect where
  syn : BitVec 32
  since : ℕ

namespace Expect

/-- Before any packet. -/
def zero : Expect := ⟨0, 0⟩

/-- The number that is expected next. -/
def number (x : Expect) : BitVec 32 := x.syn + BitVec.ofNat 32 x.since

end Expect

namespace Packet

variable (p : Packet) (x : Expect)

def syn : Bool := p.first.syn

def seq : BitVec 32 := p.first.seq

/-- The packet is to be delivered. -/
def Delivered : Prop := p.syn = false ∧ p.seq = x.number

instance : Decidable (p.Delivered x) := inferInstanceAs (Decidable (_ ∧ _))

/-- What is expected after the packet. -/
def next : Expect :=
  if p.syn then ⟨p.seq, 0⟩ else if p.seq = x.number then ⟨x.syn, x.since + 1⟩ else x

end Packet

/-- The beats of delivered packets among the first `n` beats. -/
def passed : Expect → List Packet → ℕ → List Beat
  | _, [], _ => []
  | x, p :: ps, n =>
    (if p.Delivered x then p.units.take n else []) ++ passed (p.next x) ps (n - p.units.length)

/-- What is expected after `n` beats. A packet counts from its first beat on. -/
def expectedAt : Expect → List Packet → ℕ → Expect
  | x, [], _ => x
  | x, p :: ps, n => if n = 0 then x else expectedAt (p.next x) ps (n - p.units.length)

/-- What is expected after packets. -/
def expectedAfter (x : Expect) (ps : List Packet) : Expect := ps.foldl (fun x p ↦ p.next x) x

/-- The packets that are delivered. -/
def delivered : Expect → List Packet → List Packet
  | _, [] => []
  | x, p :: ps => if p.Delivered x then p :: delivered (p.next x) ps else delivered (p.next x) ps

section Spec

variable {p : Packet} {ps : List Packet} {x : Expect} {n : ℕ}

theorem number_next (p : Packet) (x : Expect) :
    (p.next x).number = if p.syn then p.seq else if p.seq = x.number then x.number + 1
      else x.number := by
  rw [Packet.next]
  split
  · exact BitVec.add_zero _
  · split
    · rw [Expect.number, Expect.number, BitVec.ofNat_add, ← BitVec.add_assoc]
      rfl
    · rfl

theorem passed_zero (x : Expect) (ps : List Packet) : passed x ps 0 = [] := by
  induction ps generalizing x with
  | nil => rfl
  | cons p ps ih =>
    rw [passed, List.take_zero, ite_self, Nat.zero_sub, ih]
    rfl

theorem expectedAt_zero (x : Expect) (ps : List Packet) : expectedAt x ps 0 = x := by
  cases ps with
  | nil => rfl
  | cons p ps => rfl

theorem passed_all (x : Expect) {ps : List Packet} (h : (ps.flatMap Frame.units).length ≤ n) :
    passed x ps n = (delivered x ps).flatMap Frame.units := by
  induction ps generalizing x n with
  | nil => rfl
  | cons p ps ih =>
    rw [List.flatMap_cons, List.length_append] at h
    rw [passed, delivered, ih _ (by omega), List.take_of_length_le (by omega)]
    split
    · rw [List.flatMap_cons]
    · rfl

/-- Without a `SYN`, the delivered packets are numbered from the expected number on. -/
theorem map_seq_delivered (h : ∀ p ∈ ps, p.syn = false) (x : Expect) :
    (delivered x ps).map Packet.seq
      = (List.range (delivered x ps).length).map fun i ↦ x.number + BitVec.ofNat 32 i := by
  induction ps generalizing x with
  | nil => rfl
  | cons p ps ih =>
    obtain ⟨hp, hps⟩ := List.forall_mem_cons.mp h
    have hnumber := number_next p x
    rw [if_neg (by rw [hp]; exact Bool.false_ne_true)] at hnumber
    rw [delivered]
    by_cases hseq : p.seq = x.number
    · rw [if_pos hseq] at hnumber
      rw [if_pos ⟨hp, hseq⟩, List.map_cons, ih hps, List.length_cons, List.range_succ_eq_map,
        List.map_cons, List.map_map, hseq, BitVec.add_zero, hnumber]
      congr 1
      apply List.map_congr_left
      intro i _
      rw [Function.comp_apply, Nat.succ_eq_add_one, Nat.add_comm, BitVec.ofNat_add,
        BitVec.add_assoc]
      rfl
    · rw [if_neg hseq] at hnumber
      rw [if_neg fun h ↦ hseq h.2, ← hnumber]
      exact ih hps _

theorem number_expectedAfter_syn {s : Packet} (hs : s.syn = true) (x : Expect) (ps : List Packet) :
    (expectedAfter x (ps ++ [s])).number = s.seq := by
  have hafter : expectedAfter x (ps ++ [s]) = s.next (expectedAfter x ps) := by
    rw [expectedAfter, List.foldl_append]
    rfl
  rw [hafter, number_next, if_pos hs]

end Spec

end FpgaOs.Libnet
