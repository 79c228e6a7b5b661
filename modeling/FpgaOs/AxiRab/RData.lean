import FpgaOs.AxiRab.SynchFifo
import FpgaOs.Lib.BitField

/-!
# The read data channel

`axi_rdata_chs` buffers the beats that come from memory and shows them to the master one by one. The
output registers are loaded, and the next beat is taken out of the queue, whenever the master is
ready; whether the beat that is shown has been accepted plays no role. So a beat gets lost when the
master is not ready in the state READ, or when the last beat of a burst is shown, and is shown twice
when the queue runs empty in a burst.
-/

namespace FpgaOs.AxiRab

open Machine BitField

/-- `SLVERR`. -/
def SLVERR : BitVec 2 := 2

/-- `DECERR`. -/
def DECERR : BitVec 2 := 3

variable {k idWid dataWid userWid : ℕ}

/-- A beat of read data. -/
structure RBeat (idWid dataWid userWid : ℕ) where
  rid : BitVec idWid
  rdata : BitVec dataWid
  rresp : BitVec 2
  ruser : BitVec userWid
  rlast : BitVec 1
  deriving DecidableEq

namespace RBeat

/-- `data_in`. -/
def pack (b : RBeat idWid dataWid userWid) : BitVec (idWid + userWid + dataWid + 3) :=
  setSlice (setSlice (setSlice (setSlice (setSlice 0 0 b.rresp) 2 b.rlast) 3 b.rid)
    (3 + idWid) b.rdata) (3 + idWid + dataWid) b.ruser

/-- The fields of `data_out`. -/
def unpack (d : BitVec (idWid + userWid + dataWid + 3)) : RBeat idWid dataWid userWid where
  rid := slice d 3 idWid
  rdata := slice d (3 + idWid) dataWid
  rresp := slice d 0 2
  ruser := slice d (3 + idWid + dataWid) userWid
  rlast := slice d 2 1

/-- The fields do not overlap. -/
theorem unpack_pack (b : RBeat idWid dataWid userWid) : unpack (pack b) = b := by
  rw [unpack, pack]
  congr 1
  · rw [slice_setSlice_of_disjoint (by omega) (by omega),
      slice_setSlice_of_disjoint (by omega) (by omega), slice_setSlice_self (by omega)]
  · rw [slice_setSlice_of_disjoint (by omega) (by omega), slice_setSlice_self (by omega)]
  · rw [slice_setSlice_of_disjoint (by omega) (by omega),
      slice_setSlice_of_disjoint (by omega) (by omega),
      slice_setSlice_of_disjoint (by omega) (by omega),
      slice_setSlice_of_disjoint (by omega) (by omega), slice_setSlice_self (by omega)]
  · rw [slice_setSlice_self (by omega)]
  · rw [slice_setSlice_of_disjoint (by omega) (by omega),
      slice_setSlice_of_disjoint (by omega) (by omega),
      slice_setSlice_of_disjoint (by omega) (by omega), slice_setSlice_self (by omega)]

/-- All registers of the output at zero. -/
def zero : RBeat idWid dataWid userWid := ⟨0, 0, 0, 0, 0⟩

end RBeat

/-- `IDLE`, `READ` and `DROP`. -/
inductive RState
  | idle
  | read
  | drop
  deriving DecidableEq

/-- The registers of `axi_rdata_chs` with a buffer of `2 ^ k` beats. -/
structure RData (k idWid dataWid userWid : ℕ) where
  state : RState
  rdEn : Bool
  out : RBeat idWid dataWid userWid
  outSrvalid : Bool
  count : BitVec 8
  dropCount : BitVec 8
  dropDone : Bool
  buf : SynchFifo k (BitVec (idWid + userWid + dataWid + 3))

/-- The inputs of `axi_rdata_chs` in a cycle. -/
structure RDataIn (idWid dataWid userWid : ℕ) where
  beat : RBeat idWid dataWid userWid
  inMrvalid : Bool
  inSrready : Bool
  inArid : BitVec idWid
  inAruser : BitVec userWid
  inArlen : BitVec 8
  drop : Bool

namespace RData

variable (s : RData k idWid dataWid userWid) (i : RDataIn idWid dataWid userWid)

/-- `out_mrready`. -/
def outMrready : Bool := !s.buf.full

/-- What `RDATA_BUF` sees. -/
def bufIn : FifoIn (BitVec (idWid + userWid + dataWid + 3)) :=
  ⟨true, s.rdEn, i.inMrvalid && s.outMrready, i.beat.pack⟩

/-- `{NUM_RD_BEAT{32'hdead_dead}}`. -/
def deadData : BitVec dataWid :=
  (BitVec.replicate (dataWid / 32) (0xdeaddead : BitVec 32)).setWidth dataWid

/-- `count == in_arlen - 1`, in 32 bits. -/
def lastCount : Bool := s.count.setWidth 32 == i.inArlen.setWidth 32 - 1

/-- A rising edge of `clk`. -/
def posedge : RData k idWid dataWid userWid :=
  match s.state with
  | .idle =>
    { state := if i.drop || s.dropCount != 0 then .drop else if !s.buf.empty then .read else .idle
      rdEn := if !(i.drop || s.dropCount != 0) && !s.buf.empty then true else s.rdEn
      out := .zero
      outSrvalid := false
      count := 0
      dropCount := s.dropCount
      dropDone := false
      buf := s.buf.posedge (s.bufIn i) }
  | .read =>
    { s with
      state := if i.inSrready && !s.buf.empty && (RBeat.unpack s.buf.dataO).rlast == 1 then
        .idle else .read
      rdEn := if i.inSrready && !s.buf.empty then (RBeat.unpack s.buf.dataO).rlast != 1 else false
      out := if i.inSrready && !s.buf.empty then .unpack s.buf.dataO else s.out
      outSrvalid := if i.inSrready && !s.buf.empty then true else s.outSrvalid
      dropCount := if i.drop then s.dropCount + 1 else s.dropCount
      buf := s.buf.posedge (s.bufIn i) }
  | .drop =>
    { s with
      outSrvalid := true
      out :=
        { rid := i.inArid
          rdata := deadData
          rresp := SLVERR
          ruser := i.inAruser
          rlast :=
            if s.count = 0 then (if i.inArlen = 1 then 1 else 0)
            else if i.inSrready then (if s.lastCount i then 1 else 0)
            else s.out.rlast }
      count := if s.count = 0 || (i.inSrready && !s.lastCount i) then s.count + 1 else s.count
      state :=
        if s.count = 0 then (if i.inArlen = 1 then .idle else .drop)
        else if i.inSrready && s.lastCount i then .idle
        else .drop
      dropDone := if s.count != 0 && i.inSrready && s.lastCount i then true else s.dropDone
      dropCount := if s.count != 0 && i.inSrready && s.lastCount i then s.dropCount - 1
        else s.dropCount
      buf := s.buf.posedge (s.bufIn i) }

/-- After a reset, with `drop_count` as it is at power-up. -/
def init (mem : BitVec k → BitVec (idWid + userWid + dataWid + 3)) :
    RData k idWid dataWid userWid :=
  ⟨.idle, false, .zero, false, 0, 0, false, ⟨0, 0, mem⟩⟩

end RData

/-- `axi_rdata_chs` with the beats accepted from memory and those accepted by the master. -/
structure RDataLog (k idWid dataWid userWid : ℕ) where
  chan : RData k idWid dataWid userWid
  received : List (RBeat idWid dataWid userWid)
  delivered : List (RBeat idWid dataWid userWid)

namespace RDataLog

def step (l : RDataLog k idWid dataWid userWid) (i : RDataIn idWid dataWid userWid) :
    RDataLog k idWid dataWid userWid where
  chan := l.chan.posedge i
  received := if i.inMrvalid && l.chan.outMrready then l.received ++ [i.beat] else l.received
  delivered := if l.chan.outSrvalid && i.inSrready then l.delivered ++ [l.chan.out] else l.delivered

def start (mem : BitVec k → BitVec (idWid + userWid + dataWid + 3)) :
    RDataLog k idWid dataWid userWid :=
  ⟨.init mem, [], []⟩

/-- Nothing is dropped. -/
def NoDrop (_ : RDataLog k idWid dataWid userWid) (i : RDataIn idWid dataWid userWid) : Prop :=
  i.drop = false

/-- The condition: in READ the master is ready and there is a beat, and the master is ready when a
beat is shown. -/
def Flows (l : RDataLog k idWid dataWid userWid) (i : RDataIn idWid dataWid userWid) : Prop :=
  (l.chan.state = .read → i.inSrready = true ∧ l.chan.buf.empty = false)
    ∧ (l.chan.outSrvalid = true → i.inSrready = true)

instance (l : RDataLog k idWid dataWid userWid) (i : RDataIn idWid dataWid userWid) :
    Decidable (l.Flows i) :=
  inferInstanceAs (Decidable (_ ∧ _))

/-- The master gets the beats in order, each once, and all of them when nothing is buffered or
shown; as long as something is, it gets one in three cycles. -/
structure SameBeats (l : RDataLog k idWid dataWid userWid) : Prop where
  isPrefix : l.delivered <+: l.received
  complete : l.chan.buf.empty = true → l.chan.outSrvalid = false → l.delivered = l.received
  progress : l.chan.buf.empty = false ∨ l.chan.outSrvalid = true →
    ∀ i₁ i₂ i₃, Guarded step (fun l i ↦ NoDrop l i ∧ Flows l i) l [i₁, i₂, i₃] →
      l.delivered.length < (run step l [i₁, i₂, i₃]).delivered.length

end RDataLog

/-! ## Without drops -/

/-- Nothing is dropped and nothing has been. -/
structure RData.Quiet (s : RData k idWid dataWid userWid) : Prop where
  dropCount : s.dropCount = 0
  dropDone : s.dropDone = false
  state : (s.state = .idle ∧ s.rdEn = false) ∨ s.state = .read

theorem RData.quiet_init (mem : BitVec k → BitVec (idWid + userWid + dataWid + 3)) :
    (RData.init mem : RData k idWid dataWid userWid).Quiet := ⟨rfl, rfl, .inl ⟨rfl, rfl⟩⟩

/-- Without drops the state DROP is never reached and `drop_done` stays low. -/
theorem RData.Quiet.posedge {s : RData k idWid dataWid userWid} (h : s.Quiet)
    {i : RDataIn idWid dataWid userWid} (hdrop : i.drop = false) : (s.posedge i).Quiet := by
  have hcount := h.dropCount
  obtain ⟨hst, hrd⟩ | hst := h.state
  · rw [RData.posedge, hst, hdrop, hcount, hrd]
    cases hempty : s.buf.empty with
    | false => exact ⟨rfl, rfl, .inr rfl⟩
    | true => exact ⟨rfl, rfl, .inl ⟨rfl, rfl⟩⟩
  · rw [RData.posedge, hst, hdrop]
    refine ⟨hcount, h.dropDone, ?_⟩
    cases hgo : (i.inSrready && !s.buf.empty) with
    | false => exact .inr rfl
    | true =>
      dsimp only
      rw [bne]
      cases (RBeat.unpack s.buf.dataO).rlast == 1 with
      | false => exact .inr rfl
      | true => exact .inl ⟨rfl, rfl⟩

namespace RDataLog

variable {l : RDataLog k idWid dataWid userWid} {i : RDataIn idWid dataWid userWid}

/-- The beat that is shown. -/
def shown (l : RDataLog k idWid dataWid userWid) : List (RBeat idWid dataWid userWid) :=
  if l.chan.outSrvalid then [l.chan.out] else []

/-- Each beat has been delivered, is shown, or is in the buffer. -/
structure Inv (l : RDataLog k idWid dataWid userWid) : Prop where
  quiet : l.chan.Quiet
  rdEn : l.chan.state = .read → l.chan.rdEn = true
  beats : ∃ q : List (RBeat idWid dataWid userWid), l.chan.buf.Contents (q.map RBeat.pack)
    ∧ l.received = l.delivered ++ l.shown ++ q

theorem inv_start (mem : BitVec k → BitVec (idWid + userWid + dataWid + 3)) :
    (start mem : RDataLog k idWid dataWid userWid).Inv :=
  ⟨RData.quiet_init mem, fun h ↦ RState.noConfusion h, [],
    ⟨0, rfl, rfl, Ring.stores_nil mem 0⟩, rfl⟩

theorem delivered_step (h : l.chan.outSrvalid = true → i.inSrready = true) :
    (l.step i).delivered = l.delivered ++ l.shown := by
  rw [step, shown]
  cases hvalid : l.chan.outSrvalid with
  | false => exact (List.append_nil _).symm
  | true =>
    rw [h hvalid]
    rfl

theorem received_step (l : RDataLog k idWid dataWid userWid) (i : RDataIn idWid dataWid userWid) :
    (l.step i).received = l.received ++ if i.inMrvalid && l.chan.outMrready then [i.beat]
      else [] := by
  rw [step]
  split
  · rfl
  · exact (List.append_nil _).symm

theorem posedge_read {b : RBeat idWid dataWid userWid} {q : List (RBeat idWid dataWid userWid)}
    (hst : l.chan.state = .read) (hready : i.inSrready = true)
    (hq : l.chan.buf.Contents ((b :: q).map RBeat.pack)) :
    (l.chan.posedge i).out = b ∧ (l.chan.posedge i).outSrvalid = true
      ∧ ((l.chan.posedge i).state = .read → (l.chan.posedge i).rdEn = true) := by
  have hdata : RBeat.unpack l.chan.buf.dataO = b := by rw [hq.dataO_eq, RBeat.unpack_pack]
  have hempty : l.chan.buf.empty = false := hq.empty_eq
  rw [RData.posedge, hst, hready, hempty, hdata]
  refine ⟨rfl, rfl, ?_⟩
  dsimp only
  rw [bne]
  cases b.rlast == 1 with
  | false => exact fun _ ↦ rfl
  | true => exact fun hread ↦ RState.noConfusion hread

theorem inv_step (l : RDataLog k idWid dataWid userWid)
    (i : RDataIn idWid dataWid userWid) (h : Inv l)
    (hg : NoDrop l i ∧ Flows l i) : Inv (l.step i) := by
  obtain ⟨hdrop, hread, hvalid⟩ := hg
  obtain ⟨q, hq, hreceived⟩ := h.beats
  have hbuf := hq.posedge_map l.chan.rdEn i.inMrvalid i.beat
  have hquiet := h.quiet.posedge hdrop
  -- without drops there are two states: waiting, and reading the head of the buffer
  obtain ⟨hst, hrd⟩ | hst := h.quiet.state
  · have hstep : (l.step i).chan.buf = l.chan.buf.posedge (l.chan.bufIn i) := by
      rw [step, RData.posedge, hst]
    have hshown : (l.step i).shown = [] := by
      rw [shown, step, RData.posedge, hst]
      rfl
    refine ⟨hquiet, ?_, q ++ (if i.inMrvalid && l.chan.outMrready then [i.beat] else []), ?_, ?_⟩
    · rw [step, RData.posedge, hst, hdrop, h.quiet.dropCount]
      cases l.chan.buf.empty with
      | false => exact fun _ ↦ rfl
      | true => exact fun hread ↦ RState.noConfusion hread
    · rw [hstep]
      rw [hrd] at hbuf
      rw [RData.bufIn, hrd]
      exact hbuf
    · rw [received_step, delivered_step hvalid, hshown, hreceived, List.append_nil,
        List.append_assoc]
  · obtain ⟨hready, hempty⟩ := hread hst
    rw [hq.empty_eq] at hempty
    obtain _ | ⟨b, q⟩ := q
    · exact Bool.noConfusion hempty
    · obtain ⟨hout, hvalid', hrd⟩ := posedge_read hst hready hq
      have hstep : (l.step i).chan.buf = l.chan.buf.posedge (l.chan.bufIn i) := by
        rw [step, RData.posedge, hst]
      have hshown : (l.step i).shown = [b] := by
        rw [shown, step, hvalid', hout]
        rfl
      refine ⟨hquiet, hrd, q ++ (if i.inMrvalid && l.chan.outMrready then [i.beat] else []), ?_, ?_⟩
      · rw [hstep]
        rw [h.rdEn hst] at hbuf
        rw [RData.bufIn, h.rdEn hst]
        exact hbuf
      · rw [received_step, delivered_step hvalid, hshown, hreceived,
          List.append_assoc (l.delivered ++ l.shown), List.append_assoc (l.delivered ++ l.shown)]
        rfl

theorem length_delivered_le (l : RDataLog k idWid dataWid userWid)
    (i : RDataIn idWid dataWid userWid) :
    l.delivered.length ≤ (l.step i).delivered.length := by
  rw [step]
  dsimp only
  split
  · rw [List.length_append]
    exact Nat.le_add_right _ _
  · exact le_rfl

theorem length_delivered_lt (hg : Flows l i) (hvalid : l.chan.outSrvalid = true) :
    l.delivered.length < (l.step i).delivered.length := by
  rw [delivered_step hg.2, shown, hvalid, List.length_append]
  exact Nat.lt_succ_self _

theorem outSrvalid_step (hg : Flows l i) (hst : l.chan.state = .read) :
    (l.step i).chan.outSrvalid = true := by
  obtain ⟨hready, hempty⟩ := hg.1 hst
  rw [step, RData.posedge, hst, hready, hempty]
  rfl

theorem state_step (hquiet : l.chan.Quiet) (hdrop : NoDrop l i) (hst : l.chan.state = .idle)
    (hempty : l.chan.buf.empty = false) : (l.step i).chan.state = .read := by
  rw [step, RData.posedge, hst, hdrop, hquiet.dropCount, hempty]
  rfl

theorem Inv.progress (h : Inv l) (hsome : l.chan.buf.empty = false ∨ l.chan.outSrvalid = true)
    (i₁ i₂ i₃ : RDataIn idWid dataWid userWid)
    (hg : Guarded step (fun l i ↦ NoDrop l i ∧ Flows l i) l [i₁, i₂, i₃]) :
    l.delivered.length < (run step l [i₁, i₂, i₃]).delivered.length := by
  obtain ⟨⟨hdrop₁, hflow₁⟩, ⟨-, hflow₂⟩, ⟨-, hflow₃⟩, -⟩ := hg
  have hle₁ := length_delivered_le l i₁
  have hle₂ := length_delivered_le (l.step i₁) i₂
  have hle₃ := length_delivered_le ((l.step i₁).step i₂) i₃
  by_cases hvalid : l.chan.outSrvalid = true
  · exact (length_delivered_lt hflow₁ hvalid).trans_le (hle₂.trans hle₃)
  · obtain ⟨hst, -⟩ | hst := h.quiet.state
    · have hread := state_step h.quiet hdrop₁ hst (hsome.resolve_right hvalid)
      exact (hle₁.trans hle₂).trans_lt (length_delivered_lt hflow₃ (outSrvalid_step hflow₂ hread))
    · exact hle₁.trans_lt ((length_delivered_lt hflow₂ (outSrvalid_step hflow₁ hst)).trans_le hle₃)

theorem Inv.sameBeats (h : Inv l) : SameBeats l := by
  obtain ⟨q, hq, hreceived⟩ := h.beats
  refine ⟨?_, fun hempty hvalid ↦ ?_, h.progress⟩
  · rw [hreceived, List.append_assoc]
    exact List.prefix_append _ _
  · rw [hq.empty_eq, List.isEmpty_iff, List.map_eq_nil_iff] at hempty
    rw [hreceived, hempty, shown, hvalid, List.append_nil]
    exact (List.append_nil _).symm

end RDataLog

/-- **The read data path.** Without drops, as long as in READ the master is ready and there is a
beat, and the master is ready for what is shown, it gets exactly the beats that come from memory. -/
theorem rdata_sameBeats (mem : BitVec k → BitVec (idWid + userWid + dataWid + 3))
    {is : List (RDataIn idWid dataWid userWid)}
    (hdrop : Guarded RDataLog.step RDataLog.NoDrop (.start mem) is)
    (hflows : Guarded RDataLog.step RDataLog.Flows (.start mem) is) :
    RDataLog.SameBeats (run RDataLog.step (.start mem) is) :=
  ((hdrop.and hflows).invariant RDataLog.inv_step (RDataLog.inv_start mem)).sameBeats

/-- A beat of a burst. -/
def burstBeat (rdata : BitVec 32) (rlast : BitVec 1) : RBeat 1 32 1 := ⟨1, rdata, 0, 0, rlast⟩

/-- A cycle without drops, in which a beat may come. -/
def burstCycle (beat : Option (RBeat 1 32 1)) (inSrready : Bool) : RDataIn 1 32 1 :=
  ⟨beat.getD .zero, beat.isSome, inSrready, 0, 0, 0, false⟩

/-- A burst of three beats and one of two. The master is not ready while nothing is shown and the
state is IDLE. -/
def burstRun : List (RDataIn 1 32 1) :=
  [burstCycle (burstBeat 0x11 0) false, burstCycle (burstBeat 0x12 0) false,
    burstCycle (burstBeat 0x13 1) true, burstCycle none true, burstCycle none true,
    burstCycle (burstBeat 0x21 0) true, burstCycle (burstBeat 0x22 1) false,
    burstCycle none true, burstCycle none true, burstCycle none true, burstCycle none false]

/-- The bursts come from memory and are shown to the master. -/
theorem rdata_sameBeats_bursts :
    RDataLog.SameBeats (run RDataLog.step (.start fun _ : BitVec 2 ↦ 0) burstRun) :=
  rdata_sameBeats _ ⟨rfl, rfl, rfl, rfl, rfl, rfl, rfl, rfl, rfl, rfl, rfl, trivial⟩
    (by decide +kernel)

/-- A burst of a single beat. -/
def singleBeat : RBeat 1 32 1 := burstBeat 0xcafe 1

/-- A cycle in which that beat may come. -/
def rdataCycle (inMrvalid inSrready : Bool) : RDataIn 1 32 1 :=
  ⟨singleBeat, inMrvalid, inSrready, 0, 0, 0, false⟩

/-- The master is not ready in the cycle in which the beat is taken out of the buffer. -/
theorem not_sameBeats_single : ¬RDataLog.SameBeats (run RDataLog.step (.start fun _ : BitVec 1 ↦ 0)
    [rdataCycle true true, rdataCycle false true, rdataCycle false false]) := by
  intro h
  have hend : (run RDataLog.step (.start fun _ : BitVec 1 ↦ 0)
      [rdataCycle true true, rdataCycle false true, rdataCycle false false]).chan.buf.empty = true
      ∧ (run RDataLog.step (.start fun _ : BitVec 1 ↦ 0)
        [rdataCycle true true, rdataCycle false true, rdataCycle false false]).chan.outSrvalid
          = false
      ∧ (run RDataLog.step (.start fun _ : BitVec 1 ↦ 0)
        [rdataCycle true true, rdataCycle false true, rdataCycle false false]).delivered = []
      ∧ (run RDataLog.step (.start fun _ : BitVec 1 ↦ 0)
        [rdataCycle true true, rdataCycle false true, rdataCycle false false]).received
          = [singleBeat] := by
    decide +kernel
  obtain ⟨hempty, hvalid, hdelivered, hreceived⟩ := hend
  have hcomplete := h.complete hempty hvalid
  rw [hdelivered, hreceived] at hcomplete
  exact List.cons_ne_nil _ _ hcomplete.symm

end FpgaOs.AxiRab
