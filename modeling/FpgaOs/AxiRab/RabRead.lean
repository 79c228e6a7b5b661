import FpgaOs.AxiRab.AddrCh
import FpgaOs.AxiRab.RData

/-!
# The read side of the remapping block

`axi_rab_top` sends the address of the request at the head of the receive buffer to the translator,
waits for the answer, and hands the request on with the address that was answered; the answer also
takes the request out of the buffer and lets the next lookup start. It is ready for answers at any
time. But the transmitter ignores an answer while the request before it has not been accepted, and
that request is then gone from the buffer as well.
-/

namespace FpgaOs.AxiRab

open Machine BitField

variable {k kr idWid addrWid userWid dataWid ruserWid : ℕ}

/-- `toMM_RD_tdata` for a request. -/
def toMM (r : AddrReq idWid addrWid userWid) : BitVec (5 + 3 + 8 + idWid + addrWid) :=
  (0 : BitVec 5) ++ r.size ++ r.len ++ r.id ++ r.addr

/-- The registers of the read side of `axi_rab_top`. -/
structure RabRead (k kr idWid addrWid userWid dataWid ruserWid : ℕ) where
  toMMtvalid : Bool
  toMMtdata : BitVec (5 + 3 + 8 + idWid + addrWid)
  firstr : Bool
  drpr : Bool
  rdNxtRaddrL : Bool
  rx : AddrChRx k idWid addrWid userWid
  tx : AddrChTx idWid addrWid userWid
  rdat : RData kr idWid dataWid ruserWid

/-- The inputs of the read side in a cycle. -/
structure RabIn (idWid addrWid userWid dataWid ruserWid : ℕ) where
  arReq : AddrReq idWid addrWid userWid
  arValid : Bool
  arReady : Bool
  toMMtready : Bool
  fromMMtvalid : Bool
  fromMMtdata : BitVec (addrWid + 8)
  beat : RBeat idWid dataWid ruserWid
  mRvalid : Bool
  sRready : Bool

namespace RabIn

variable (i : RabIn idWid addrWid userWid dataWid ruserWid)

/-- `t_rdone`; `fromMM_RD_tready` is always high. -/
def tRdone : Bool := i.fromMMtvalid && !i.fromMMtdata.getLsbD addrWid

/-- `r_drop`. -/
def rDrop : Bool := i.fromMMtvalid && i.fromMMtdata.getLsbD addrWid

/-- `p_raddr`. -/
def pRaddr : BitVec addrWid := if i.tRdone then slice i.fromMMtdata 0 addrWid else 0

end RabIn

namespace RabRead

variable (s : RabRead k kr idWid addrWid userWid dataWid ruserWid)
  (i : RabIn idWid addrWid userWid dataWid ruserWid)

/-- `rd_nxt_raddr`. -/
def rdNxtRaddr : Bool := i.tRdone || s.rdat.dropDone

/-- A lookup may be started. -/
def mayLook : Bool := !s.firstr && !s.drpr || s.rdNxtRaddrL

/-- A lookup is started. -/
def looks : Bool := s.mayLook && !s.rx.buf.empty

/-- A rising edge of `s_axi_clk`. -/
def posedge : RabRead k kr idWid addrWid userWid dataWid ruserWid where
  toMMtvalid :=
    if s.looks then true
    else if i.rDrop || s.rdat.dropDone then s.toMMtvalid
    else if i.toMMtready then false
    else s.toMMtvalid
  toMMtdata := if s.looks then toMM s.rx.out else s.toMMtdata
  firstr :=
    if s.looks then true
    else if !i.rDrop && s.rdat.dropDone && s.rx.buf.empty then false
    else s.firstr
  drpr := if s.looks then s.drpr else if i.rDrop then true else if s.rdat.dropDone then
    false else s.drpr
  rdNxtRaddrL := if s.rdNxtRaddr i then true else if s.looks then false else s.rdNxtRaddrL
  rx := s.rx.posedge i.arReq i.arValid (s.rdNxtRaddr i)
  tx := s.tx.posedge s.rx.out i.pRaddr i.tRdone i.arReady
  rdat := s.rdat.posedge
    ⟨i.beat, i.mRvalid, i.sRready, s.rx.out.id, s.rx.out.user.setWidth ruserWid,
    s.rx.out.len, i.rDrop⟩

/-- After a reset. -/
def init (mem : BitVec k → BitVec (idWid + userWid + addrWid + 21))
    (rmem : BitVec kr → BitVec (idWid + ruserWid + dataWid + 3)) :
    RabRead k kr idWid addrWid userWid dataWid ruserWid :=
  ⟨false, 0, false, false, false, .init mem, .init, .init rmem⟩

end RabRead

/-- The read side with the requests it has accepted, the lookups that the translator has accepted,
the addresses that have been answered and the requests that memory has accepted. -/
structure RabLog (k kr idWid addrWid userWid dataWid ruserWid : ℕ) where
  rab : RabRead k kr idWid addrWid userWid dataWid ruserWid
  accepted : List (AddrReq idWid addrWid userWid)
  asked : List (BitVec (5 + 3 + 8 + idWid + addrWid))
  answers : List (BitVec addrWid)
  sent : List (AddrReq idWid addrWid userWid)

namespace RabLog

variable (l : RabLog k kr idWid addrWid userWid dataWid ruserWid)
  (i : RabIn idWid addrWid userWid dataWid ruserWid)

def step : RabLog k kr idWid addrWid userWid dataWid ruserWid where
  rab := l.rab.posedge i
  accepted := l.accepted ++ if i.arValid && l.rab.rx.outReady then [i.arReq] else []
  asked := l.asked ++ if l.rab.toMMtvalid && i.toMMtready then [l.rab.toMMtdata] else []
  answers := l.answers ++ if i.tRdone then [i.pRaddr] else []
  sent := l.sent ++ l.rab.tx.accepted i.arReady

def start (mem : BitVec k → BitVec (idWid + userWid + addrWid + 21))
    (rmem : BitVec kr → BitVec (idWid + ruserWid + dataWid + 3)) :
    RabLog k kr idWid addrWid userWid dataWid ruserWid :=
  ⟨.init mem rmem, [], [], [], []⟩

/-- The translator answers a lookup that it has accepted before and not answered, and never with a
drop. -/
def Translates : Prop :=
  i.fromMMtvalid = true → i.fromMMtdata.getLsbD addrWid = false ∧ l.answers.length < l.asked.length

/-- The requests that have been answered, with the addresses. -/
def translated : List (AddrReq idWid addrWid userWid) :=
  List.zipWith AddrReq.withAddr l.accepted l.answers

/-- Each request that has been answered has been sent or is in the output register, in order and
with the address answered for it; the lookups are those for the requests, in order; and when the
buffer and the output register are empty, all requests have been answered and sent. -/
structure Paired : Prop where
  account : l.sent ++ l.rab.tx.shown = l.translated
  lookups : l.asked <+: l.accepted.map toMM
  complete : l.rab.rx.buf.empty = true → l.rab.tx.outValid = false →
    l.sent = l.translated ∧ l.answers.length = l.accepted.length

/-- The condition: no answer comes while a request is in the output register. -/
def OutputFree : Prop := i.tRdone = true → l.rab.tx.outValid = false

instance : Decidable (l.Translates i) := inferInstanceAs (Decidable (_ → _))

instance : Decidable (l.OutputFree i) := inferInstanceAs (Decidable (_ → _))

end RabLog

/-! ## One cycle -/

namespace RabRead

variable {s : RabRead k kr idWid addrWid userWid dataWid ruserWid}
  {i : RabIn idWid addrWid userWid dataWid ruserWid}

theorem rdNxtRaddr_eq (hquiet : s.rdat.Quiet) : s.rdNxtRaddr i = i.tRdone := by
  rw [rdNxtRaddr, hquiet.dropDone, Bool.or_false]

/-- Without drops a lookup may be started after an answer, and remains to be started until it is. -/
theorem mayLook_posedge (hquiet : s.rdat.Quiet) (hdrop : i.rDrop = false) :
    (s.posedge i).mayLook = (i.tRdone || (!s.looks && s.mayLook)) := by
  simp only [mayLook, posedge, rdNxtRaddr_eq hquiet, hquiet.dropDone, hdrop]
  cases s.looks <;> cases i.tRdone <;> simp

/-- Without drops a request to the translator is raised by a lookup and withdrawn when it is
accepted. -/
theorem toMMtvalid_posedge (hquiet : s.rdat.Quiet) (hdrop : i.rDrop = false) :
    (s.posedge i).toMMtvalid = (s.looks || (s.toMMtvalid && !i.toMMtready)) := by
  simp only [posedge, hquiet.dropDone, hdrop]
  cases s.looks <;> cases i.toMMtready <;> simp

theorem drpr_posedge (hquiet : s.rdat.Quiet) (hdrop : i.rDrop = false) :
    (s.posedge i).drpr = s.drpr := by
  simp only [posedge, hquiet.dropDone, hdrop]
  exact ite_self _

end RabRead

namespace RabLog

variable {l : RabLog k kr idWid addrWid userWid dataWid ruserWid}
  {i : RabIn idWid addrWid userWid dataWid ruserWid} {done q : List (AddrReq idWid addrWid userWid)}

theorem rDrop_eq_false (h : l.Translates i) : i.rDrop = false := by
  rw [RabIn.rDrop]
  cases hvalid : i.fromMMtvalid with
  | false => rfl
  | true => exact (h hvalid).1

/-- How far the lookup for the request at the head of the buffer is: it has not been started, the
translator has not accepted it, or it has not been answered. -/
inductive Phase (l : RabLog k kr idWid addrWid userWid dataWid ruserWid)
    (done q : List (AddrReq idWid addrWid userWid)) :
    Prop
  | waiting (look : l.rab.mayLook = true) (tvalid : l.rab.toMMtvalid = false)
      (asked : l.asked = done.map toMM)
  | requesting (r : AddrReq idWid addrWid userWid) (rest : List (AddrReq idWid addrWid userWid))
      (head : q = r :: rest) (look : l.rab.mayLook = false) (tvalid : l.rab.toMMtvalid = true)
      (tdata : l.rab.toMMtdata = toMM r)
      (asked : l.asked = done.map toMM) (iBufRdD : l.rab.rx.iBufRdD = false)
  | outstanding (r : AddrReq idWid addrWid userWid) (rest : List (AddrReq idWid addrWid userWid))
      (head : q = r :: rest) (look : l.rab.mayLook = false) (tvalid : l.rab.toMMtvalid = false)
      (asked : l.asked = done.map toMM ++ [toMM r]) (iBufRdD : l.rab.rx.iBufRdD = false)

/-- The requests `done` have been answered, and the requests `q` are in the buffer. -/
structure Inv (l : RabLog k kr idWid addrWid userWid dataWid ruserWid)
    (done q : List (AddrReq idWid addrWid userWid)) :
    Prop where
  contents : l.rab.rx.buf.Contents (q.map AddrReq.pack)
  accepted_eq : l.accepted = done ++ q
  length_eq : done.length = l.answers.length
  account : l.sent ++ l.rab.tx.shown = List.zipWith AddrReq.withAddr done l.answers
  quiet : l.rab.rdat.Quiet
  drpr : l.rab.drpr = false
  phase : Phase l done q

theorem inv_start (mem : BitVec k → BitVec (idWid + userWid + addrWid + 21))
    (rmem : BitVec kr → BitVec (idWid + ruserWid + dataWid + 3)) :
    (start mem rmem : RabLog k kr idWid addrWid userWid dataWid ruserWid).Inv [] [] where
  contents := ⟨0, rfl, rfl, Ring.stores_nil mem 0⟩
  accepted_eq := rfl
  length_eq := rfl
  account := rfl
  quiet := RData.quiet_init rmem
  drpr := rfl
  phase := .waiting rfl rfl rfl

theorem Inv.empty_eq (h : l.Inv done q) : l.rab.rx.buf.empty = q.isEmpty := by
  rw [h.contents.empty_eq, List.isEmpty_map]

theorem Inv.translated_eq (h : l.Inv done q) :
    l.translated = List.zipWith AddrReq.withAddr done l.answers := by
  have hzip : List.zipWith AddrReq.withAddr (done ++ q) (l.answers ++ [])
      = List.zipWith AddrReq.withAddr done l.answers ++ List.zipWith AddrReq.withAddr q [] :=
    List.zipWith_append h.length_eq
  rw [List.append_nil, List.zipWith_nil_right, List.append_nil] at hzip
  rw [translated, h.accepted_eq, hzip]

theorem Inv.outstanding_of_lt (h : l.Inv done q) (hlt : l.answers.length < l.asked.length) :
    ∃ r rest, q = r :: rest ∧ l.rab.mayLook = false ∧ l.rab.toMMtvalid = false
      ∧ l.asked = done.map toMM ++ [toMM r] ∧ l.rab.rx.iBufRdD = false := by
  obtain ⟨-, -, hasked⟩ | ⟨r, rest, -, -, -, -, hasked, -⟩ | ⟨r, rest, hq, hlook, hvalid, hasked,
    hrd⟩ := h.phase
  · rw [hasked, List.length_map, h.length_eq] at hlt
    exact absurd hlt (Nat.lt_irrefl _)
  · rw [hasked, List.length_map, h.length_eq] at hlt
    exact absurd hlt (Nat.lt_irrefl _)
  · exact ⟨r, rest, hq, hlook, hvalid, hasked, hrd⟩

theorem Inv.lookups (h : l.Inv done q) : l.asked <+: l.accepted.map toMM := by
  rw [h.accepted_eq, List.map_append]
  obtain ⟨-, -, hasked⟩ | ⟨r, rest, -, -, -, -, hasked, -⟩ | ⟨r, rest, rfl, -, -, hasked, -⟩ :=
    h.phase
  · exact hasked ▸ List.prefix_append _ _
  · exact hasked ▸ List.prefix_append _ _
  · rw [hasked]
    exact (List.prefix_append_right_inj _).mpr ⟨rest.map toMM, rfl⟩

theorem Inv.paired (h : l.Inv done q) : l.Paired := by
  refine ⟨h.account.trans h.translated_eq.symm, h.lookups, fun hempty hvalid ↦ ?_⟩
  rw [h.empty_eq, List.isEmpty_iff] at hempty
  have haccount := h.account
  rw [AddrChTx.shown, hvalid, if_neg Bool.false_ne_true, List.append_nil] at haccount
  refine ⟨haccount.trans h.translated_eq.symm, ?_⟩
  rw [h.accepted_eq, hempty, List.append_nil, h.length_eq]

theorem contents_step (h : l.Inv done q) (i : RabIn idWid addrWid userWid dataWid ruserWid) :
    (l.step i).rab.rx.buf.Contents
      (((if i.tRdone && !l.rab.rx.iBufRdD then q.tail else q)
        ++ if i.arValid && l.rab.rx.outReady then [i.arReq] else []).map AddrReq.pack) := by
  have hrx := AddrChRx.contents_posedge h.contents i.arReq i.arValid (l.rab.rdNxtRaddr i)
  rw [RabRead.rdNxtRaddr_eq h.quiet] at hrx
  rw [step, RabRead.posedge, RabRead.rdNxtRaddr_eq h.quiet]
  exact hrx

theorem quiet_step (h : l.Inv done q) (henv : l.Translates i) : (l.step i).rab.rdat.Quiet :=
  h.quiet.posedge (rDrop_eq_false henv)

theorem asked_step (l : RabLog k kr idWid addrWid userWid dataWid ruserWid)
    (i : RabIn idWid addrWid userWid dataWid ruserWid) :
    (l.step i).asked = l.asked ++ if l.rab.toMMtvalid && i.toMMtready then [l.rab.toMMtdata]
      else [] := rfl

theorem iBufRdD_step (h : l.Inv done q) : (l.step i).rab.rx.iBufRdD = i.tRdone :=
  RabRead.rdNxtRaddr_eq h.quiet

/-- The lookup for the head of the buffer is started, accepted, or goes on. -/
theorem phase_step (h : l.Inv done q) (henv : l.Translates i) (hdone : i.tRdone = false)
    (more : List (AddrReq idWid addrWid userWid)) : (l.step i).Phase done (q ++ more) := by
  have hlook' : (l.step i).rab.mayLook = (i.tRdone || (!l.rab.looks && l.rab.mayLook)) :=
    RabRead.mayLook_posedge h.quiet (rDrop_eq_false henv)
  have hvalid' : (l.step i).rab.toMMtvalid = (l.rab.looks || (l.rab.toMMtvalid && !i.toMMtready)) :=
    RabRead.toMMtvalid_posedge h.quiet (rDrop_eq_false henv)
  have hrd' : (l.step i).rab.rx.iBufRdD = false := (iBufRdD_step h).trans hdone
  have hasked' := asked_step l i
  rw [hdone, Bool.false_or] at hlook'
  -- waiting for a request; the request at the translator; its answer outstanding
  obtain ⟨hlook, hvalid, hasked⟩ | ⟨r, rest, rfl, hlook, hvalid, hdata, hasked, -⟩
    | ⟨r, rest, rfl, hlook, hvalid, hasked, -⟩ := h.phase
  · rw [hvalid, Bool.false_and, if_neg Bool.false_ne_true, List.append_nil, hasked] at hasked'
    rw [hvalid, Bool.false_and, Bool.or_false] at hvalid'
    obtain _ | ⟨r, q⟩ := q
    · -- there is nothing to look up
      have hlooks : l.rab.looks = false := by rw [RabRead.looks, h.empty_eq]; exact Bool.and_false _
      rw [hlooks] at hlook' hvalid'
      exact .waiting (hlook'.trans hlook) hvalid' hasked'
    · have hlooks : l.rab.looks = true := by rw [RabRead.looks, h.empty_eq, hlook]; rfl
      have hdata : (l.step i).rab.toMMtdata = toMM r := by
        rw [step, RabRead.posedge, hlooks, AddrChRx.out_eq h.contents]
        rfl
      rw [hlooks] at hlook' hvalid'
      exact .requesting r (q ++ more) rfl hlook' hvalid' hdata hasked' hrd'
  · have hlooks : l.rab.looks = false := by rw [RabRead.looks, hlook, Bool.false_and]
    rw [hlooks, hlook] at hlook'
    rw [hlooks, hvalid, Bool.false_or, Bool.true_and] at hvalid'
    rw [hvalid, Bool.true_and, hasked, hdata] at hasked'
    -- the lookup is held until the translator takes it
    cases hready : i.toMMtready with
    | false =>
      rw [hready] at hvalid' hasked'
      have hdata' : (l.step i).rab.toMMtdata = toMM r := by
        rw [step, RabRead.posedge, hlooks]
        exact hdata
      exact .requesting r (rest ++ more) rfl hlook' hvalid' hdata'
        (hasked'.trans (List.append_nil _)) hrd'
    | true =>
      rw [hready] at hvalid' hasked'
      exact .outstanding r (rest ++ more) rfl hlook' hvalid' hasked' hrd'
  · have hlooks : l.rab.looks = false := by rw [RabRead.looks, hlook, Bool.false_and]
    rw [hlooks, hlook] at hlook'
    rw [hlooks, hvalid] at hvalid'
    rw [hvalid, Bool.false_and, if_neg Bool.false_ne_true, List.append_nil, hasked] at hasked'
    exact .outstanding r (rest ++ more) rfl hlook' hvalid' hasked' hrd'

theorem inv_step_of_not_done (h : l.Inv done q) (henv : l.Translates i) (hdone : i.tRdone = false) :
    (l.step i).Inv done (q ++ if i.arValid && l.rab.rx.outReady then [i.arReq] else []) := by
  have hanswers : (l.step i).answers = l.answers := by
    rw [step, hdone]
    exact List.append_nil _
  refine ⟨?_, ?_, ?_, ?_, quiet_step h henv, ?_, phase_step h henv hdone _⟩
  · have hcontents := contents_step h i
    rwa [hdone, Bool.false_and, if_neg Bool.false_ne_true] at hcontents
  · rw [step, h.accepted_eq, List.append_assoc]
  · rw [hanswers, h.length_eq]
  · rw [hanswers, ← h.account, step, RabRead.posedge, hdone, List.append_assoc]
    congr 1
    exact AddrChTx.shown_posedge _ _ _ fun h ↦ absurd h Bool.false_ne_true
  · exact (RabRead.drpr_posedge h.quiet (rDrop_eq_false henv)).trans h.drpr

theorem inv_step_of_done (h : l.Inv done q) (henv : l.Translates i) (hdone : i.tRdone = true)
    (hfree : l.rab.tx.outValid = false) : ∃ r q', (l.step i).Inv (done ++ [r]) q' := by
  have hfrom : i.fromMMtvalid = true := by
    rw [RabIn.tRdone, Bool.and_eq_true] at hdone
    exact hdone.1
  -- an answer comes only for an accepted lookup, so the phase is the third one
  obtain ⟨r, rest, rfl, hlook, hvalid, hasked, hrd⟩ := h.outstanding_of_lt (henv hfrom).2
  have hlooks : l.rab.looks = false := by rw [RabRead.looks, hlook, Bool.false_and]
  have hanswers : (l.step i).answers = l.answers ++ [i.pRaddr] := by
    rw [step, hdone]
    rfl
  refine ⟨r, rest ++ if i.arValid && l.rab.rx.outReady then [i.arReq] else [], ?_, ?_, ?_, ?_,
    quiet_step h henv, ?_, .waiting ?_ ?_ ?_⟩
  · have hcontents := contents_step h i
    rwa [hdone, hrd, Bool.not_false, Bool.and_true, if_pos rfl, List.tail_cons] at hcontents
  · rw [step, h.accepted_eq, List.append_assoc, List.append_assoc]
    rfl
  · rw [hanswers, List.length_append, List.length_append, h.length_eq]
    rfl
  · rw [hanswers, List.zipWith_append h.length_eq, ← h.account, step, RabRead.posedge, hdone,
      List.append_assoc, List.append_assoc, AddrChTx.shown_posedge_done hfree,
      AddrChRx.out_eq h.contents]
    rfl
  · exact (RabRead.drpr_posedge h.quiet (rDrop_eq_false henv)).trans h.drpr
  · exact (RabRead.mayLook_posedge h.quiet (rDrop_eq_false henv)).trans
      (by rw [hdone, Bool.true_or])
  · exact (RabRead.toMMtvalid_posedge h.quiet (rDrop_eq_false henv)).trans
      (by rw [hlooks, hvalid]; rfl)
  · rw [asked_step, hvalid, hasked, List.map_append]
    exact List.append_nil _

/-- If what has been sent and what is in the output register are the requests that have been
answered, an answer has not come while the output register was in use. -/
theorem outputFree_of_paired (h : l.Inv done q) (henv : l.Translates i)
    (hpaired : (l.step i).Paired) :
    l.OutputFree i := by
  intro hdone
  by_contra hvalid
  have hfrom : i.fromMMtvalid = true := by
    rw [RabIn.tRdone, Bool.and_eq_true] at hdone
    exact hdone.1
  obtain ⟨r, rest, rfl, -⟩ := h.outstanding_of_lt (henv hfrom).2
  have hanswers : (l.step i).answers = l.answers ++ [i.pRaddr] := by
    rw [step, hdone]
    rfl
  have haccepted : (l.step i).accepted
      = done ++ r :: (rest ++ if i.arValid && l.rab.rx.outReady then [i.arReq] else []) := by
    rw [step, h.accepted_eq, List.append_assoc]
    rfl
  -- an answer that meets a full output register is lost
  have hsame : (l.step i).sent ++ (l.step i).rab.tx.shown = l.sent ++ l.rab.tx.shown := by
    rw [step, RabRead.posedge, List.append_assoc]
    congr 1
    exact AddrChTx.shown_posedge _ _ _ fun _ ↦ Bool.eq_true_of_not_eq_false hvalid
  have haccount := hpaired.account
  rw [hsame, h.account, translated, hanswers, haccepted,
    List.zipWith_append h.length_eq] at haccount
  exact List.cons_ne_nil _ _ (List.self_eq_append_right.mp haccount)

end RabLog

/-! ## Runs -/

/-- **The read-address path.** With a translator that answers the lookups it has accepted, in order
and without drops, the requests that memory accepts are at every moment those that have been
accepted and answered, if and only if no answer comes while a request is in the output register. -/
theorem rabRead_paired_iff (mem : BitVec k → BitVec (idWid + userWid + addrWid + 21))
    (rmem : BitVec kr → BitVec (idWid + ruserWid + dataWid + 3))
    {is : List (RabIn idWid addrWid userWid dataWid ruserWid)}
    (henv : Guarded RabLog.step RabLog.Translates (.start mem rmem) is) :
    Guarded RabLog.step (fun l i ↦ (l.step i).Paired) (.start mem rmem) is
      ↔ Guarded RabLog.step RabLog.OutputFree (.start mem rmem) is := by
  have hstep : ∀ (l : RabLog k kr idWid addrWid userWid dataWid ruserWid) i,
    (∃ done q, l.Inv done q) →
      l.Translates i → l.OutputFree i → ∃ done q, (l.step i).Inv done q := by
    rintro l i ⟨done, q, h⟩ henv hfree
    cases hdone : i.tRdone with
    | false => exact ⟨_, _, RabLog.inv_step_of_not_done h henv hdone⟩
    | true =>
      obtain ⟨r, q', h'⟩ := RabLog.inv_step_of_done h henv hdone (hfree hdone)
      exact ⟨_, _, h'⟩
  refine guarded_iff_of_invariant_of hstep ?_ ⟨[], [], RabLog.inv_start mem rmem⟩ henv
  rintro l i ⟨done, q, h⟩ henv
  refine ⟨RabLog.outputFree_of_paired h henv, fun hfree ↦ ?_⟩
  obtain ⟨done', q', h'⟩ := hstep l i ⟨done, q, h⟩ henv hfree
  exact h'.paired

/-- A cycle in which a request with an id may arrive, the translator may be ready or answer, and
memory may be ready. -/
def rabCycle (request : Option (BitVec 8)) (toMMtready : Bool) (answer : Option (BitVec 16))
    (arReady : Bool) :
    RabIn 8 16 1 32 1 :=
  ⟨{ (.zero : AddrReq 8 16 1) with id := request.getD 0 }, request.isSome, arReady, toMMtready,
    answer.isSome, (answer.getD 0).setWidth 24, .zero, false, false⟩

/-- Two requests. Memory lets the first one wait, and the second one is answered after that. -/
def translatedRun : List (RabIn 8 16 1 32 1) :=
  [rabCycle (some 1) false none false, rabCycle (some 2) false none false,
    rabCycle none true none false,
    rabCycle none false (some 0x10) false, rabCycle none false none false,
    rabCycle none true none false, rabCycle none false none true,
    rabCycle none false (some 0x20) false, rabCycle none false none false,
    rabCycle none false none true]

/-- The second request is answered while memory has not accepted the first one. -/
def earlyAnswerRun : List (RabIn 8 16 1 32 1) :=
  [rabCycle (some 1) false none false, rabCycle (some 2) false none false,
    rabCycle none true none false,
    rabCycle none false (some 0x10) false, rabCycle none false none false,
    rabCycle none true none false,
    rabCycle none false (some 0x20) false, rabCycle none false none true]

/-- After a reset, with these widths. -/
def rabStart : RabLog 1 1 8 16 1 32 1 := .start (fun _ ↦ 0) fun _ ↦ 0

/-- The requests whose answers find the output register free are sent. -/
theorem rabRead_paired_translatedRun :
    Guarded RabLog.step (fun l i ↦ (l.step i).Paired) rabStart translatedRun :=
  (rabRead_paired_iff _ _ (by decide +kernel)).mpr (by decide +kernel)

/-- The second request is lost, although the translator has done what it is to do. -/
theorem not_paired_earlyAnswerRun :
    Guarded RabLog.step RabLog.Translates rabStart earlyAnswerRun
      ∧ ¬(run RabLog.step rabStart earlyAnswerRun).Paired := by
  refine ⟨by decide +kernel, fun h ↦ ?_⟩
  have hempty : (run RabLog.step rabStart earlyAnswerRun).rab.rx.buf.empty = true := by
    decide +kernel
  have hvalid : (run RabLog.step rabStart earlyAnswerRun).rab.tx.outValid = false := by
    decide +kernel
  have hsent : (run RabLog.step rabStart earlyAnswerRun).sent.length = 1 := by decide +kernel
  have htranslated : (run RabLog.step rabStart earlyAnswerRun).translated.length = 2 := by
    decide +kernel
  have hlength := congrArg List.length (h.complete hempty hvalid).1
  rw [hsent, htranslated] at hlength
  exact absurd hlength (by decide)

end FpgaOs.AxiRab
