import FpgaOs.AxiRab.RData
import FpgaOs.Lib.Inputs

/-!
# The write response channel

`axi_bresp_chs` buffers the responses that come from memory and shows them to the master one by one.
The output registers are loaded with a response for a request that is dropped, with the next
response when the one that is shown is accepted, and with the next response in the first cycle in
which the buffer is not empty any more. Only the second of these waits for the master. So a response
that has not been accepted is overwritten by a drop, or by the first response to arrive in an empty
buffer.
-/

namespace FpgaOs.AxiRab

open Machine BitField
open Inputs (ofInput ofInput_append)

variable {k idWid userWid : ℕ}

/-- A write response. -/
structure Response (idWid userWid : ℕ) where
  bid : BitVec idWid
  bresp : BitVec 2
  buser : BitVec userWid
  deriving DecidableEq

namespace Response

/-- `data_in`. -/
def pack (r : Response idWid userWid) : BitVec (idWid + userWid + 2) :=
  setSlice (setSlice (setSlice 0 0 r.bresp) 2 r.bid) (2 + idWid) r.buser

/-- The fields of `data_out`. -/
def unpack (d : BitVec (idWid + userWid + 2)) : Response idWid userWid where
  bid := slice d 2 idWid
  bresp := slice d 0 2
  buser := slice d (2 + idWid) userWid

/-- The fields do not overlap. -/
theorem unpack_pack (r : Response idWid userWid) : unpack (pack r) = r := by
  rw [unpack, pack]
  congr 1
  · rw [slice_setSlice_of_disjoint (by omega) (by omega), slice_setSlice_self (by omega)]
  · rw [slice_setSlice_of_disjoint (by omega) (by omega),
      slice_setSlice_of_disjoint (by omega) (by omega), slice_setSlice_self (by omega)]
  · rw [slice_setSlice_self (by omega)]

end Response

/-- The registers of `axi_bresp_chs` with a buffer of `2 ^ k` responses. -/
structure BResp (k idWid userWid : ℕ) where
  out : Response idWid userWid
  outSbvalid : Bool
  emptyD : Bool
  buf : SynchFifo k (BitVec (idWid + userWid + 2))

/-- The inputs of `axi_bresp_chs` in a cycle. -/
structure BRespIn (idWid userWid : ℕ) where
  resp : Response idWid userWid
  inMbvalid : Bool
  inSbready : Bool
  inAwid : BitVec idWid
  inAwuser : BitVec userWid
  drop : Bool

/-- The response for a request that is dropped. -/
def BRespIn.dropped (i : BRespIn idWid userWid) : Response idWid userWid :=
  ⟨i.inAwid, DECERR, i.inAwuser⟩

namespace BResp

variable (s : BResp k idWid userWid) (i : BRespIn idWid userWid)

/-- `out_mbready`. -/
def outMbready : Bool := !s.buf.full

/-- `rd_en`. -/
def rdEn : Bool :=
  (!s.buf.empty && s.emptyD || i.inSbready && s.outSbvalid && !s.buf.empty) && !i.drop

/-- A rising edge of `clk`. -/
def posedge : BResp k idWid userWid where
  out :=
    if i.drop then i.dropped
    else if i.inSbready && s.outSbvalid && !s.rdEn i then s.out
    else if s.rdEn i then .unpack s.buf.dataO
    else s.out
  outSbvalid :=
    if i.drop then true
    else if i.inSbready && s.outSbvalid && !s.rdEn i then false
    else if s.rdEn i then true
    else s.outSbvalid
  emptyD := s.buf.empty
  buf := s.buf.posedge ⟨true, s.rdEn i, i.inMbvalid && s.outMbready, i.resp.pack⟩

/-- After a reset. -/
def init (mem : BitVec k → BitVec (idWid + userWid + 2)) : BResp k idWid userWid :=
  ⟨⟨0, 0, 0⟩, false, false, ⟨0, 0, mem⟩⟩

end BResp

/-- Where a response comes from. -/
inductive RespOrigin
  | memory
  | drop
  deriving DecidableEq

/-- `axi_bresp_chs` with the origin of the response in the output registers, the responses accepted
from memory, those for requests that were dropped, and those accepted by the master, with their
origin. -/
structure BRespLog (k idWid userWid : ℕ) where
  chan : BResp k idWid userWid
  origin : RespOrigin
  received : List (Response idWid userWid)
  dropped : List (Response idWid userWid)
  delivered : List (RespOrigin × Response idWid userWid)

namespace BRespLog

def step (l : BRespLog k idWid userWid) (i : BRespIn idWid userWid) : BRespLog k idWid userWid where
  chan := l.chan.posedge i
  origin := if i.drop then .drop else if l.chan.rdEn i then .memory else l.origin
  received := l.received ++ if i.inMbvalid && l.chan.outMbready then [i.resp] else []
  dropped := l.dropped ++ if i.drop then [i.dropped] else []
  delivered := l.delivered ++ if l.chan.outSbvalid && i.inSbready then
    [(l.origin, l.chan.out)] else []

def start (mem : BitVec k → BitVec (idWid + userWid + 2)) : BRespLog k idWid userWid :=
  ⟨.init mem, .memory, [], [], []⟩

/-- The response that is shown. -/
def pending (l : BRespLog k idWid userWid) : List (RespOrigin × Response idWid userWid) :=
  if l.chan.outSbvalid then [(l.origin, l.chan.out)] else []

/-- Traffic has stopped and the master is ready. -/
def Stopped (i : BRespIn idWid userWid) : Prop :=
  i.inMbvalid = false ∧ i.drop = false ∧ i.inSbready = true

/-- Each response from memory has been delivered, is shown or is buffered, in order; each one for a
dropped request has been delivered or is shown, in order; and when traffic stops and the master
stays ready all are delivered. -/
structure OneEach (l : BRespLog k idWid userWid) : Prop where
  memory : ∃ q : List (Response idWid userWid), l.chan.buf.Contents (q.map Response.pack)
    ∧ l.received = ofInput .memory (l.delivered ++ l.pending) ++ q
  drops : l.dropped = ofInput .drop (l.delivered ++ l.pending)
  drains : ∀ is, (∀ i ∈ is, Stopped i) → 2 ^ k < is.length →
    ofInput .memory (run step l is).delivered = l.received
      ∧ ofInput .drop (run step l is).delivered = l.dropped

/-- A response that is shown and not accepted is still shown in the next cycle. -/
def Kept (l : BRespLog k idWid userWid) (i : BRespIn idWid userWid) : Prop :=
  l.chan.outSbvalid = true → i.inSbready = false → (l.step i).pending = l.pending

/-- The condition: while the master is not ready for a response, nothing is dropped, and the buffer
does not stop being empty. -/
def Free (l : BRespLog k idWid userWid) (i : BRespIn idWid userWid) : Prop :=
  l.chan.outSbvalid = true → i.inSbready = false →
    i.drop = false ∧ ¬(l.chan.buf.empty = false ∧ l.chan.emptyD = true)

instance (l : BRespLog k idWid userWid) (i : BRespIn idWid userWid) : Decidable (l.Free i) :=
  inferInstanceAs (Decidable (_ → _ → _))

/-! ## One cycle -/

section Cycle

variable {l : BRespLog k idWid userWid} {i : BRespIn idWid userWid}
  {q : List (Response idWid userWid)}

/-- Each response has been delivered, is shown or is among the words `q` in the buffer; if there are
words and nothing is shown, the buffer was empty in the cycle before. -/
structure Inv (l : BRespLog k idWid userWid) (q : List (Response idWid userWid)) : Prop where
  contents : l.chan.buf.Contents (q.map Response.pack)
  received_eq : l.received = ofInput .memory (l.delivered ++ l.pending) ++ q
  dropped_eq : l.dropped = ofInput .drop (l.delivered ++ l.pending)
  edge : l.chan.outSbvalid = false → l.chan.buf.empty = false → l.chan.emptyD = true

theorem inv_start (mem : BitVec k → BitVec (idWid + userWid + 2)) :
    (start mem : BRespLog k idWid userWid).Inv [] where
  contents := ⟨0, rfl, rfl, Ring.stores_nil mem 0⟩
  received_eq := rfl
  dropped_eq := rfl
  edge := fun _ hempty ↦ by
    have hzero : (start mem : BRespLog k idWid userWid).chan.buf.empty = true := beq_self_eq_true _
    exact absurd (hzero.symm.trans hempty) Bool.true_eq_false.mp

theorem Inv.empty_eq (h : l.Inv q) : l.chan.buf.empty = q.isEmpty := by
  rw [h.contents.empty_eq, List.isEmpty_map]

/-- The next response is taken out of the buffer only if there is one, and only when the output is
free. -/
theorem rdEn_eq_true (hg : Free l i) (hrd : l.chan.rdEn i = true) :
    i.drop = false ∧ l.chan.buf.empty = false
      ∧ (l.chan.outSbvalid = true → i.inSbready = true) := by
  rw [BResp.rdEn, Bool.and_eq_true, Bool.or_eq_true, Bool.and_eq_true, Bool.and_eq_true,
    Bool.and_eq_true, Bool.not_eq_true', Bool.not_eq_true'] at hrd
  obtain ⟨⟨hempty, hd⟩ | ⟨⟨hready, -⟩, hempty⟩, hdrop⟩ := hrd
  · refine ⟨hdrop, hempty, fun hvalid ↦ ?_⟩
    by_contra hready
    exact (hg hvalid (Bool.eq_false_of_not_eq_true hready)).2 ⟨hempty, hd⟩
  · exact ⟨hdrop, hempty, fun _ ↦ hready⟩

theorem delivered_step (hready : l.chan.outSbvalid = true → i.inSbready = true) :
    (l.step i).delivered = l.delivered ++ l.pending := by
  rw [step, pending]
  cases hvalid : l.chan.outSbvalid with
  | false => rfl
  | true =>
    rw [hready hvalid]
    rfl

/-- A response for a dropped request is shown. -/
theorem pending_drop (hdrop : i.drop = true) : (l.step i).pending = [(.drop, i.dropped)] := by
  simp only [pending, step, BResp.posedge, hdrop, if_true]

/-- The next response from the buffer is shown. -/
theorem pending_rdEn {r : Response idWid userWid} (h : l.Inv (r :: q)) (hdrop : i.drop = false)
    (hrd : l.chan.rdEn i = true) : (l.step i).pending = [(.memory, r)] := by
  have hdata : Response.unpack l.chan.buf.dataO = r := by
    rw [h.contents.dataO_eq, Response.unpack_pack]
  simp [pending, step, BResp.posedge, hdrop, hrd, hdata]

theorem delivered_pending (hdrop : i.drop = false) (hrd : l.chan.rdEn i = false) :
    (l.step i).delivered ++ (l.step i).pending = l.delivered ++ l.pending := by
  cases hvalid : l.chan.outSbvalid with
  | false => simp [pending, step, BResp.posedge, hdrop, hrd, hvalid]
  | true =>
    cases hready : i.inSbready with
    | false => simp [pending, step, BResp.posedge, hdrop, hrd, hvalid, hready]
    | true => simp [pending, step, BResp.posedge, hdrop, hrd, hvalid, hready]

/-- What is in the buffer after a cycle. -/
def next (l : BRespLog k idWid userWid) (i : BRespIn idWid userWid)
    (q : List (Response idWid userWid)) :
    List (Response idWid userWid) :=
  (if l.chan.rdEn i then q.tail else q) ++ if i.inMbvalid && l.chan.outMbready then [i.resp] else []

theorem Inv.contents_step (h : l.Inv q) (i : BRespIn idWid userWid) :
    (l.step i).chan.buf.Contents ((next l i q).map Response.pack) :=
  h.contents.posedge_map (l.chan.rdEn i) i.inMbvalid i.resp

theorem edge_step (h : l.Inv q) (hvalid : (l.step i).chan.outSbvalid = false) :
    (l.step i).chan.emptyD = true := by
  have hedge := h.edge
  by_contra hempty
  have hempty' : l.chan.buf.empty = false := Bool.eq_false_of_not_eq_true hempty
  rw [step, BResp.posedge, BResp.rdEn, hempty'] at hvalid
  revert hvalid hedge
  rw [hempty']
  cases l.chan.outSbvalid <;> cases i.inSbready <;> cases i.drop <;> cases l.chan.emptyD <;> simp

/-- What is newly shown comes from the head of the buffer or from a drop. -/
theorem exists_new (h : l.Inv q) (hg : Free l i) : ∃ new,
    (l.step i).delivered ++ (l.step i).pending = l.delivered ++ l.pending ++ new
      ∧ (ofInput .memory new ++ if l.chan.rdEn i then q.tail else q) = q
      ∧ ofInput .drop new = if i.drop then [i.dropped] else [] := by
  -- a drop has priority over the queue; without one the head of the queue may go out
  cases hdrop : i.drop with
  | true =>
    have hready : l.chan.outSbvalid = true → i.inSbready = true := by
      intro hvalid
      by_contra hready
      exact Bool.true_eq_false.mp
        (hdrop.symm.trans (hg hvalid (Bool.eq_false_of_not_eq_true hready)).1)
    have hrd : l.chan.rdEn i = false := by rw [BResp.rdEn, hdrop, Bool.not_true, Bool.and_false]
    refine ⟨[(.drop, i.dropped)], ?_, ?_, rfl⟩
    · rw [delivered_step hready, pending_drop hdrop]
    · rw [hrd]
      rfl
  | false =>
    cases hrd : l.chan.rdEn i with
    | true =>
      obtain ⟨-, hempty, hready⟩ := rdEn_eq_true hg hrd
      rw [h.empty_eq] at hempty
      obtain _ | ⟨r, q⟩ := q
      · exact Bool.noConfusion hempty
      · refine ⟨[(.memory, r)], ?_, rfl, rfl⟩
        rw [delivered_step hready, pending_rdEn h hdrop hrd]
    | false => exact ⟨[], by rw [delivered_pending hdrop hrd, List.append_nil], rfl, rfl⟩

/-- **A cycle in which the output is free** keeps each response accounted for. -/
theorem inv_step (h : l.Inv q) (hg : Free l i) : (l.step i).Inv (next l i q) := by
  obtain ⟨new, hout, hmemory, hdrop⟩ := exists_new h hg
  refine ⟨h.contents_step i, ?_, ?_, fun hvalid _ ↦ edge_step h hvalid⟩
  · rw [hout, ofInput_append, next, ← List.append_assoc,
      List.append_assoc (ofInput .memory (l.delivered ++ l.pending)), hmemory, ← h.received_eq]
    rfl
  · rw [hout, ofInput_append, hdrop, ← h.dropped_eq]
    rfl

theorem kept_of_free (hg : Free l i) : Kept l i := by
  intro hvalid hready
  obtain ⟨hdrop, hedge⟩ := hg hvalid hready
  have hrd : l.chan.rdEn i = false := by
    by_contra hrd
    have hready' := (rdEn_eq_true hg (Bool.eq_true_of_not_eq_false hrd)).2.2 hvalid
    exact Bool.true_eq_false.mp (hready'.symm.trans hready)
  simp [pending, step, BResp.posedge, hdrop, hrd, hready]

end Cycle

/-! ## Runs -/

section Runs

variable {l : BRespLog k idWid userWid} {i : BRespIn idWid userWid}
  {q : List (Response idWid userWid)}

theorem free_of_stopped (hi : Stopped i) : Free l i := fun _ hready ↦
  absurd (hi.2.2.symm.trans hready) Bool.true_eq_false.mp

/-- When traffic has stopped, the next response is taken out of the buffer in each cycle. -/
theorem rdEn_of_stopped (h : l.Inv q) (hi : Stopped i) : l.chan.rdEn i = !q.isEmpty := by
  obtain ⟨-, hdrop, hready⟩ := hi
  have hedge := h.edge
  rw [h.empty_eq] at hedge
  rw [BResp.rdEn, h.empty_eq, hdrop, hready, Bool.not_false, Bool.and_true, Bool.true_and]
  cases hempty : q.isEmpty with
  | true => exact Bool.and_false _
  | false =>
    cases hvalid : l.chan.outSbvalid with
    | true => exact Bool.or_true _
    | false => rw [hedge hvalid hempty]; rfl

theorem inv_stopped (h : l.Inv q) (hi : Stopped i) :
    (l.step i).Inv q.tail ∧ (l.step i).received = l.received
    ∧ (l.step i).dropped = l.dropped ∧ ((l.step i).chan.outSbvalid = true → q ≠ []) := by
  have hrd := rdEn_of_stopped h hi
  have hinv := inv_step h (free_of_stopped hi)
  obtain ⟨hmb, hdrop, hready⟩ := hi
  have hnext : next l i q = q.tail := by
    rw [next, hrd, hmb, Bool.false_and]
    cases q <;> exact List.append_nil _
  refine ⟨hnext ▸ hinv, ?_, ?_, ?_⟩
  · rw [step, hmb, Bool.false_and]
    exact List.append_nil _
  · rw [step, hdrop]
    exact List.append_nil _
  · rintro hvalid rfl
    rw [List.isEmpty_nil] at hrd
    simp [step, BResp.posedge, hdrop, hrd, hready] at hvalid

/-- After as many cycles without traffic as there are responses, and one more, all are delivered. -/
theorem inv_run_stopped (h : l.Inv q) (is : List (BRespIn idWid userWid)) (hi : ∀ i ∈ is, Stopped i)
    (hlen : q ≠ [] ∨ l.chan.outSbvalid = true → q.length < is.length) :
    (run step l is).Inv [] ∧ (run step l is).chan.outSbvalid = false
      ∧ (run step l is).received = l.received ∧ (run step l is).dropped = l.dropped := by
  -- each stopped cycle takes one response off the queue
  induction is generalizing l q with
  | nil =>
    have hnone : ¬(q ≠ [] ∨ l.chan.outSbvalid = true) := fun hsome ↦ Nat.not_lt_zero _ (hlen hsome)
    obtain ⟨hq, hvalid⟩ := not_or.mp hnone
    rw [not_ne_iff] at hq
    exact ⟨hq ▸ h, Bool.eq_false_of_not_eq_true hvalid, rfl, rfl⟩
  | cons i is ih =>
    obtain ⟨hi, his⟩ := List.forall_mem_cons.mp hi
    obtain ⟨h', hreceived, hdropped, hvalid⟩ := inv_stopped h hi
    rw [← hreceived, ← hdropped]
    refine ih h' his fun hsome ↦ ?_
    have hq : q ≠ [] := by
      rcases hsome with htail | hv
      · rintro rfl
        exact htail rfl
      · exact hvalid hv
    have hlt := hlen (.inl hq)
    have hpos := List.length_pos_of_ne_nil hq
    rw [List.length_cons] at hlt
    rw [List.length_tail]
    omega

theorem Inv.oneEach (h : l.Inv q) : OneEach l := by
  refine ⟨⟨q, h.contents, h.received_eq⟩, h.dropped_eq, fun is hi hlen ↦ ?_⟩
  have hle := h.contents.length_le
  rw [List.length_map] at hle
  obtain ⟨hend, hvalid, hreceived, hdropped⟩ := inv_run_stopped h is hi fun _ ↦ hle.trans_lt hlen
  have hpending : (run step l is).pending = [] := by
    rw [pending, hvalid]
    rfl
  have hr := hend.received_eq
  have hd := hend.dropped_eq
  rw [hpending, List.append_nil] at hr hd
  rw [List.append_nil] at hr
  exact ⟨(hreceived.symm.trans hr).symm, (hdropped.symm.trans hd).symm⟩

theorem length_ofInput (out : List (RespOrigin × Response idWid userWid)) :
    (ofInput .memory out).length + (ofInput .drop out).length = out.length := by
  induction out with
  | nil => rfl
  | cons w out ih =>
    obtain ⟨o, r⟩ := w
    rw [← List.singleton_append, ofInput_append, ofInput_append, List.length_append,
      List.length_append, List.length_append, ← ih, Inputs.ofInput_singleton,
      Inputs.ofInput_singleton]
    cases o with
    | memory =>
      simp only [if_true, reduceCtorEq, if_false, List.length_singleton, List.length_nil]; omega
    | drop =>
      simp only [if_true, reduceCtorEq, if_false, List.length_singleton, List.length_nil]; omega

/-- If each response is accounted for after a cycle, nothing has been overwritten in it: there is
room for only one response in the output registers. -/
theorem free_of_oneEach (h : l.Inv q) (hone : OneEach (l.step i)) : Free l i := by
  intro hvalid hready
  obtain ⟨⟨q', hq', hmemory⟩, hdrops, -⟩ := hone
  have hnext := hq'.length_eq (h.contents_step i)
  rw [List.length_map, List.length_map, next, List.length_append] at hnext
  -- what has been written and what is shown, before and after the cycle
  have hbefore : (l.delivered ++ l.pending).length = l.delivered.length + 1 := by
    rw [pending, hvalid, List.length_append]
    rfl
  have hafter : ((l.step i).delivered ++ (l.step i).pending).length ≤ l.delivered.length + 1 := by
    have hpending : (l.step i).pending.length ≤ 1 := by rw [pending]; split <;> simp
    have hdelivered : (l.step i).delivered = l.delivered := by
      rw [step, hready, Bool.and_false]
      exact List.append_nil _
    rw [hdelivered, List.length_append]
    exact Nat.add_le_add_left hpending _
  have hcount := length_ofInput ((l.step i).delivered ++ (l.step i).pending)
  have hcount' := length_ofInput (l.delivered ++ l.pending)
  have hreceived : (l.step i).received = l.received ++ if i.inMbvalid && l.chan.outMbready then
    [i.resp] else [] := rfl
  have hdropped : (l.step i).dropped = l.dropped ++ if i.drop then [i.dropped] else [] := rfl
  have hr := congrArg List.length (hreceived.symm.trans hmemory)
  have hd := congrArg List.length (hdropped.symm.trans hdrops)
  rw [List.length_append, h.received_eq, List.length_append, List.length_append] at hr
  rw [List.length_append, h.dropped_eq] at hd
  have hdrop : i.drop = false := by
    by_contra hdrop
    have hrd : l.chan.rdEn i = false := by
      rw [BResp.rdEn, Bool.eq_true_of_not_eq_false hdrop, Bool.not_true, Bool.and_false]
    rw [Bool.eq_true_of_not_eq_false hdrop, if_pos rfl, List.length_singleton] at hd
    rw [hrd, if_neg Bool.false_ne_true] at hnext
    omega
  refine ⟨hdrop, fun ⟨hempty, hedge⟩ ↦ ?_⟩
  have hrd : l.chan.rdEn i = true := by
    rw [BResp.rdEn, hempty, hedge, hdrop]
    rfl
  rw [hdrop, if_neg Bool.false_ne_true, List.length_nil] at hd
  rw [hrd, if_pos rfl, List.length_tail] at hnext
  have hpos : 0 < q.length := by
    rw [h.empty_eq] at hempty
    exact List.length_pos_of_ne_nil (List.isEmpty_eq_false_iff.mp hempty)
  omega

end Runs

end BRespLog

/-- **The write responses.** In each cycle of a run a response that is shown stays until it is
accepted, and each response is accounted for, if and only if nothing is dropped and the buffer does
not stop being empty while the master is not ready for a response. -/
theorem bresp_oneEach_iff (mem : BitVec k → BitVec (idWid + userWid + 2))
    (is : List (BRespIn idWid userWid)) :
    Guarded BRespLog.step (fun l i ↦ BRespLog.Kept l i ∧ BRespLog.OneEach (l.step i))
      (.start mem) is
      ↔ Guarded BRespLog.step BRespLog.Free (.start mem) is := by
  have hstep : ∀ (l : BRespLog k idWid userWid) i, (∃ q, l.Inv q) → l.Free i →
    ∃ q, (l.step i).Inv q := by
    rintro l i ⟨q, hq⟩ hfree
    exact ⟨_, BRespLog.inv_step hq hfree⟩
  refine guarded_iff_of_invariant hstep ?_ ⟨[], BRespLog.inv_start mem⟩
  rintro l i ⟨q, hq⟩
  exact ⟨fun h ↦ BRespLog.free_of_oneEach hq h.2,
    fun hfree ↦ ⟨BRespLog.kept_of_free hfree, (BRespLog.inv_step hq hfree).oneEach⟩⟩

/-- A cycle in which memory may send a response and the master is not ready. -/
def brespCycle (inMbvalid : Bool) (bid : BitVec 8) : BRespIn 8 1 :=
  ⟨⟨bid, 0, 0⟩, inMbvalid, false, 0, 0, false⟩

/-- A second response arrives while the first one is shown. -/
def overwritingRun : List (BRespIn 8 1) :=
  [brespCycle true 1, brespCycle false 0, brespCycle true 2, brespCycle false 0]

/-- The second response overwrites the first one. -/
theorem not_oneEach_overwritten :
    ¬BRespLog.OneEach (run BRespLog.step (.start fun _ : BitVec 1 ↦ 0) overwritingRun) := by
  intro h
  have hreceived : (run BRespLog.step (.start fun _ : BitVec 1 ↦ 0) overwritingRun).received
      = [⟨1, 0, 0⟩, ⟨2, 0, 0⟩] := by decide +kernel
  have hshown : ofInput RespOrigin.memory
    ((run BRespLog.step (.start fun _ : BitVec 1 ↦ 0) overwritingRun).delivered
      ++ (run BRespLog.step (.start fun _ : BitVec 1 ↦ 0) overwritingRun).pending)
        = [⟨2, 0, 0⟩] := by decide +kernel
  obtain ⟨q, -, hmemory⟩ := h.memory
  rw [hreceived, hshown] at hmemory
  exact absurd (List.cons.inj hmemory).1 (by decide)

end FpgaOs.AxiRab
