import FpgaOs.Libnet.Delivery

/-!
# Delivery under back-pressure

`rx_tready` is a register, so the sender learns a cycle late that the application was not ready, and
`PARSE_HEADER` does not look at `tx_tready` at all. A beat in the transmit registers is overwritten
or taken back in the next cycle, whether or not it was accepted. So the receiver keeps beats apart
only if the application is never unready at the wrong time. `Safe` says for a cycle when that is not
so:

* a beat is shown, and it has been taken from the sender: the application is to be ready;
* a beat is shown that the sender has still on the wires: it will be shown again, so the
  application is not to be ready;
* the final beat of a packet is on the wires: both sides are to be ready, because `STREAM_PACKET`
  ends with it only if the application is ready, and even if it has not been taken;
* a first beat is on the wires: it is to be taken, because `PARSE_HEADER` does not look at
  `rx_tready`.

In a run of safe cycles every beat of a delivered packet is accepted once.
-/

namespace FpgaOs.Libnet

open BitField Feed

namespace Link

/-- The cycle does no harm. -/
def Safe (l : Link) (a : Action) : Prop :=
  (l.regs.txTvalid = true → l.held = false → a.txTready = true)
    ∧ (l.held = true → a.txTready = false)
    ∧ (l.regs.state = .streamPacket → (l.inputs a).rxTvalid = true → (l.inputs a).rx.tlast = true →
      a.txTready = true ∧ l.regs.rxTready = true)
    ∧ (l.regs.state = .parseHeader → (l.inputs a).rxTvalid = true → l.regs.rxTready = true)

instance (l : Link) (a : Action) : Decidable (l.Safe a) :=
  inferInstanceAs (Decidable (_ ∧ _ ∧ _ ∧ _))

/-- A beat that is shown and not accepted stays. -/
def Stable (l : Link) (a : Action) : Prop :=
  l.regs.txTvalid = true → a.txTready = false → (l.step a).regs.txTvalid = true
    ∧ (l.step a).regs.tx = l.regs.tx

/-- The application has accepted the beats of delivered packets that the receiver has taken, or all
but the one that is shown. -/
def Complete (ps : List Packet) (l : Link) : Prop :=
  l.accepted = passed .zero ps l.taken ∨ l.accepted ++ l.shown = passed .zero ps l.taken

/-- The beat that has been taken and not accepted. -/
def owed (l : Link) : List Beat := if l.held then [] else l.shown

end Link

/-! ## The invariant -/

/-- The link is within a packet, of which `part` is left, and the packets `rs` are to come. -/
structure Tracks (ps : List Packet) (part : List Beat) (rs : List Packet) (x : Expect) (l : Link) :
    Prop where
  left : l.left = part ++ rs.flatMap Frame.units
  long : ∀ p ∈ rs, p.rest ≠ []
  seqExpected : l.regs.seqExpected = x.number
  parse : l.regs.state = .parseHeader → part = []
  body : l.regs.state ≠ .parseHeader → Marked (fun b : Beat ↦ b.tlast = true) part
  dropped : l.regs.state = .dropPacket → l.regs.rxTready = true ∧ l.regs.txTvalid = false
  /-- The sender was stalled, because a beat was not accepted. -/
  stalled : l.regs.state = .streamPacket → l.regs.rxTready = false → l.regs.txTvalid = true
  /-- The beat that is shown is still on the wires. -/
  held : l.held = true → l.regs.state = .streamPacket ∧ l.regs.rxTready = true
    ∧ l.regs.txTvalid = true
    ∧ ∃ us, us ≠ [] ∧ part = l.regs.tx :: us
  ahead : ∀ m, passed .zero ps (l.taken + m) = (l.accepted ++ l.owed)
    ++ ((if l.regs.state = .streamPacket then part.take m else []) ++ passed x rs (m - part.length))

section Steps

variable {ps rs : List Packet} {part : List Beat} {x : Expect} {l : Link} {a : Action}

theorem tracks_init (regs : RxLibnet) (hps : ∀ p ∈ ps, p.rest ≠ []) :
    Tracks ps [] ps .zero (Link.init regs (ps.flatMap Frame.units)) where
  left := rfl
  long := hps
  seqExpected := rfl
  parse _ := rfl
  body h := absurd rfl h
  dropped h := absurd h (by decide : State.parseHeader ≠ .dropPacket)
  stalled h := absurd h (by decide : State.parseHeader ≠ .streamPacket)
  held h := absurd h Bool.false_ne_true
  ahead m := by
    rw [Link.init, Nat.zero_add]
    rfl

/-- The sender is silent, or has the next beat on the wires. -/
theorem inputs_cases (l : Link) (a : Action) :
    (l.inputs a = ⟨true, a.wires, false, a.txTready⟩ ∧ (l.left = [] ∨ l.held = false))
      ∨ ∃ b rest, l.left = b :: rest ∧ l.inputs a = ⟨true, b, true, a.txTready⟩ := by
  rw [Link.inputs]
  cases hleft : l.left with
  | nil => exact .inl ⟨rfl, .inl rfl⟩
  | cons b rest =>
    dsimp only
    by_cases hgo : (l.held || a.offer) = true
    · rw [if_pos hgo]
      exact .inr ⟨b, rest, rfl, rfl⟩
    · rw [if_neg hgo]
      exact .inl ⟨rfl, .inr (Bool.or_eq_false_iff.mp (Bool.eq_false_iff.mpr hgo)).1⟩

/-- Where nothing is held, a safe cycle ends with all beats accepted that were shown before it. -/
theorem accepted_step (hsafe : l.Safe a) (hheld : l.held = false) :
    (l.step a).accepted = l.accepted ++ l.owed := by
  rw [Link.step, Link.owed, hheld]
  dsimp only
  cases hready : a.txTready with
  | true => rfl
  | false =>
    have hvalid : l.regs.txTvalid = false := by
      cases hv : l.regs.txTvalid with
      | false => rfl
      | true => exact Bool.noConfusion ((hsafe.1 hv hheld).symm.trans hready)
    rw [if_neg Bool.false_ne_true, if_neg Bool.false_ne_true, shown_of_not_valid hvalid,
      List.append_nil]

theorem Tracks.step_idle (h : Tracks ps part rs x l) (hsafe : l.Safe a)
    (hinputs : l.inputs a = ⟨true, a.wires, false, a.txTready⟩) (hheld : l.held = false) :
    Tracks ps part rs x (l.step a) := by
  obtain ⟨hcore, hvalid, hrx⟩ := posedge_idle l.regs a.wires a.txTready
  have hregs : (l.step a).regs = l.regs.posedge ⟨true, a.wires, false, a.txTready⟩ := by
    rw [← hinputs]; rfl
  have hstate : (l.step a).regs.state = l.regs.state := hregs ▸ congrArg Core.state hcore
  have hseq : (l.step a).regs.seqExpected = l.regs.seqExpected := hregs ▸ congrArg Core.seq hcore
  have hvalid' : (l.step a).regs.txTvalid = false := hregs ▸ hvalid
  have hrx' : (l.step a).regs.rxTready = true := hregs ▸ hrx
  have hleft : (l.step a).left = l.left := by rw [Link.step, hinputs]; rfl
  have htaken : (l.step a).taken = l.taken := by rw [Link.step, hinputs]; rfl
  have hheld' : (l.step a).held = false := by rw [Link.step, hinputs]; rfl
  have howed : (l.step a).owed = [] := by
    rw [Link.owed, shown_of_not_valid hvalid', ite_self]
  exact
    { left := hleft.trans h.left
      long := h.long
      seqExpected := hseq.trans h.seqExpected
      parse := fun hst ↦ h.parse (hstate ▸ hst)
      body := fun hst ↦ h.body (hstate ▸ hst)
      dropped := fun _ ↦ ⟨hrx', hvalid'⟩
      stalled := fun _ hnot ↦ Bool.noConfusion (hrx'.symm.trans hnot)
      held := fun hh ↦ Bool.noConfusion (hheld'.symm.trans hh)
      ahead := fun m ↦ by
        rw [htaken, accepted_step hsafe hheld, howed, List.append_nil, hstate]
        exact h.ahead m }

/-- `PARSE_HEADER` does not look at `tx_tready`. -/
theorem posedge_parse {s : RxLibnet} (hst : s.state = .parseHeader) (b : Beat) (ready : Bool) :
    s.posedge ⟨true, b, true, ready⟩ = s.posedge ⟨true, b, true, true⟩ := by
  rw [RxLibnet.posedge, RxLibnet.posedge, hst]

/-- A beat is taken while nothing is held. -/
theorem step_taken {b : Beat} {rest : List Beat} (hleft : l.left = b :: rest)
    (hinputs : l.inputs a = ⟨true, b, true, a.txTready⟩) (hrx : l.regs.rxTready = true) :
    (l.step a).regs = l.regs.posedge ⟨true, b, true, a.txTready⟩ ∧ (l.step a).left = rest
      ∧ (l.step a).held = false ∧ (l.step a).taken = l.taken + 1 := by
  rw [Link.step, hinputs, hrx, hleft]
  exact ⟨rfl, rfl, rfl, rfl⟩

theorem Tracks.step_parse (h : Tracks ps part rs x l) (hsafe : l.Safe a)
    (hst : l.regs.state = .parseHeader) {b : Beat} {rest : List Beat} (hleft : l.left = b :: rest)
    (hinputs : l.inputs a = ⟨true, b, true, a.txTready⟩) :
    ∃ part' rs' x', Tracks ps part' rs' x' (l.step a) := by
  have hheld : l.held = false := by
    cases hh : l.held with
    | false => rfl
    | true => exact absurd (hst.symm.trans (h.held hh).1) (by decide)
  -- a safe cycle shows the first beat of a packet only when it is taken
  have hrx : l.regs.rxTready = true := hsafe.2.2.2 hst (by rw [hinputs])
  have hpart := h.parse hst
  subst hpart
  have hsplit := h.left
  rw [hleft, List.nil_append] at hsplit
  cases rs with
  | nil => exact absurd hsplit (List.cons_ne_nil _ _)
  | cons p rs =>
    rw [List.flatMap_cons, Frame.units, List.cons_append] at hsplit
    obtain ⟨rfl, rfl⟩ := List.cons.inj hsplit
    obtain ⟨hlong, hlong'⟩ := List.forall_mem_cons.mp h.long
    obtain ⟨hlast, hm⟩ : ¬p.first.tlast = true ∧ Marked (fun b : Beat ↦ b.tlast = true) p.rest :=
      p.rest_eq_nil_or_marked.resolve_left fun hnil ↦ hlong hnil.1
    obtain ⟨hregs, hleft', hheld', htaken⟩ := step_taken hleft hinputs hrx
    obtain ⟨hcore, hshown, hrx'⟩ := posedge_beat l.regs p.first
    rw [← posedge_parse hst p.first a.txTready, ← hregs] at hcore hshown hrx'
    have hread : l.regs.core.read p.first
        = (⟨if p.Delivered x then .streamPacket else .dropPacket, (p.next x).number⟩,
          if p.Delivered x then [p.first] else []) := by
      rw [RxLibnet.core, hst, h.seqExpected, read_first_long hlast]
    rw [hread] at hcore hshown
    have hstate : (l.step a).regs.state = if p.Delivered x then .streamPacket else .dropPacket :=
      congrArg Core.state hcore
    have hne : (l.step a).regs.state ≠ .parseHeader := by
      rw [hstate]
      split <;> decide
    have howed : (l.step a).owed = if p.Delivered x then [p.first] else [] := by
      rw [Link.owed, hheld']
      exact hshown
    refine ⟨p.rest, rs, p.next x,
      { left := hleft'
        long := hlong'
        seqExpected := congrArg Core.seq hcore
        parse := fun hp ↦ absurd hp hne
        body := fun _ ↦ hm
        dropped := fun hd ↦ ⟨hrx', ?_⟩
        stalled := fun _ hnot ↦ Bool.noConfusion (hrx'.symm.trans hnot)
        held := fun hh ↦ Bool.noConfusion (hheld'.symm.trans hh)
        ahead := fun m ↦ ?_ }⟩
    · have hnot : ¬p.Delivered x := by
        intro hyes
        rw [hstate, if_pos hyes] at hd
        exact absurd hd (by decide)
      have hnone : (if (l.step a).regs.txTvalid then [(l.step a).regs.tx] else []) = [] :=
        hshown.trans (if_neg hnot)
      cases hv : (l.step a).regs.txTvalid with
      | false => rfl
      | true =>
        rw [hv] at hnone
        exact absurd hnone (List.cons_ne_nil _ _)
    -- the beat is passed on or not as the whole packet is
    · have hahead := h.ahead (m + 1)
      rw [hst, if_neg (by decide), List.nil_append, List.length_nil, Nat.sub_zero, passed,
        Frame.units, List.length_cons, Nat.add_sub_add_right, List.take_succ_cons] at hahead
      rw [htaken, Nat.add_assoc, Nat.add_comm 1, hahead, accepted_step hsafe hheld, howed, hstate]
      by_cases hd : p.Delivered x
      · rw [if_pos hd, if_pos hd, if_pos hd, if_pos rfl, List.append_assoc (l.accepted ++ l.owed)]
        rfl
      · rw [if_neg hd, if_neg hd, if_neg hd, if_neg (by decide), List.append_nil]

/-- The state after a beat of a packet tells whether there are more. -/
theorem left_of_state {b : Beat} {us : List Beat} {st st' : State}
    (hm : Marked (fun b : Beat ↦ b.tlast = true) (b :: us)) (hne : st' ≠ .parseHeader)
    (hstate : st = if b.tlast then .parseHeader else st') :
    (st = .parseHeader → us = [])
      ∧ (st ≠ .parseHeader → Marked (fun b : Beat ↦ b.tlast = true) us) := by
  rw [hstate]
  constructor
  · intro hp
    refine hm.eq_nil_of_last ?_
    by_contra hlast
    rw [if_neg hlast] at hp
    exact hne hp
  · intro hb
    refine hm.of_not_last fun hlast ↦ ?_
    rw [if_pos hlast] at hb
    exact hb rfl

theorem posedge_stream {s : RxLibnet} (hst : s.state = .streamPacket) (b : Beat) (ready : Bool) :
    s.posedge ⟨true, b, true, ready⟩
      = { s with
          tx := b
          txTvalid := true
          rxTready := ready
          state := if ready && b.tlast then .parseHeader else .streamPacket } := by
  rw [RxLibnet.posedge, hst]
  cases ready with
  | true => rfl
  | false => rfl

theorem Tracks.step_stream (h : Tracks ps part rs x l) (hsafe : l.Safe a)
    (hst : l.regs.state = .streamPacket) {b : Beat} {rest : List Beat} (hleft : l.left = b :: rest)
    (hinputs : l.inputs a = ⟨true, b, true, a.txTready⟩)
    (hrx : l.regs.rxTready = true) : ∃ part' rs' x', Tracks ps part' rs' x' (l.step a) := by
  have hm := h.body (by rw [hst]; decide)
  obtain ⟨b', us, rfl⟩ := List.exists_cons_of_ne_nil hm.ne_nil
  have hsplit := h.left
  rw [hleft, List.cons_append] at hsplit
  obtain ⟨rfl, rfl⟩ := List.cons.inj hsplit
  obtain ⟨hregs, hleft', hheld', htaken⟩ := step_taken hleft hinputs hrx
  rw [posedge_stream hst] at hregs
  have howed : (l.step a).owed = [b] := by
    rw [Link.owed, hheld', Link.shown, hregs]
    rfl
  -- a held beat is shown a second time, in place of the first
  have haccepted : (l.step a).accepted = l.accepted ++ l.owed := by
    cases hheld : l.held with
    | false => exact accepted_step hsafe hheld
    | true =>
      rw [Link.step, Link.owed, hheld, hsafe.2.1 hheld]
      exact (List.append_nil _).symm
  have hlastReady (hlast : b.tlast = true) : a.txTready = true :=
    (hsafe.2.2.1 hst (by rw [hinputs]) (by rw [hinputs]; exact hlast)).1
  have hstate : (l.step a).regs.state = if b.tlast then .parseHeader else .streamPacket := by
    rw [hregs]
    cases hlast : b.tlast with
    | true => rw [hlastReady hlast]; rfl
    | false => rw [Bool.and_false]
  refine ⟨us, rs, x,
    { left := hleft'
      long := h.long
      seqExpected := by rw [hregs]; exact h.seqExpected
      parse := fun hp ↦ ?_
      body := fun hb ↦ ?_
      dropped := fun hd ↦ ?_
      stalled := fun _ _ ↦ by rw [hregs]
      held := fun hh ↦ Bool.noConfusion (hheld'.symm.trans hh)
      ahead := fun m ↦ ?_ }⟩
  · exact (left_of_state hm (by decide) hstate).1 hp
  · exact (left_of_state hm (by decide) hstate).2 hb
  · rw [hstate] at hd
    split at hd
    · exact absurd hd (by decide)
    · exact absurd hd (by decide)
  · have hahead := h.ahead (m + 1)
    rw [hst, if_pos rfl, List.length_cons, Nat.add_sub_add_right, List.take_succ_cons] at hahead
    rw [htaken, Nat.add_assoc, Nat.add_comm 1, hahead, haccepted, howed, hstate,
      List.append_assoc (l.accepted ++ l.owed)]
    obtain ⟨rfl, -⟩ | ⟨hlast, -⟩ := marked_cons.mp hm
    · rw [List.take_nil, ite_self]
      rfl
    · rw [if_neg hlast, if_pos rfl]
      rfl

/-- A beat is shown that is not taken, because the sender was stalled. -/
theorem Tracks.step_stalled (h : Tracks ps part rs x l) (hsafe : l.Safe a)
    (hst : l.regs.state = .streamPacket) {b : Beat} {rest : List Beat} (hleft : l.left = b :: rest)
    (hinputs : l.inputs a = ⟨true, b, true, a.txTready⟩)
    (hrx : l.regs.rxTready = false) : Tracks ps part rs x (l.step a) := by
  have hheld : l.held = false := by
    cases hh : l.held with
    | false => rfl
    | true => exact Bool.noConfusion (hrx.symm.trans (h.held hh).2.1)
  have hready : a.txTready = true := hsafe.1 (h.stalled hst hrx) hheld
  -- a safe sender does not show the end of a packet here, so more of it is to come
  have hlast : b.tlast = false := by
    cases hl : b.tlast with
    | false => rfl
    | true =>
      have htaken := (hsafe.2.2.1 hst (by rw [hinputs]) (by rw [hinputs]; exact hl)).2
      exact Bool.noConfusion (hrx.symm.trans htaken)
  have hm := h.body (by rw [hst]; decide)
  obtain ⟨b', us, rfl⟩ := List.exists_cons_of_ne_nil hm.ne_nil
  have hsplit := h.left
  rw [hleft, List.cons_append] at hsplit
  obtain ⟨rfl, -⟩ := List.cons.inj hsplit
  have hus : us ≠ [] := (hm.of_not_last (Bool.eq_false_iff.mp hlast)).ne_nil
  -- the beat is put on the output although it is not taken
  have hregs : (l.step a).regs = { l.regs with tx := b, txTvalid := true, rxTready := true } := by
    have hpos := posedge_stream hst b a.txTready
    rw [hready, hlast] at hpos
    rw [Link.step, hinputs, hready]
    exact hpos.trans (by rw [← hst]; rfl)
  have hheld' : (l.step a).held = true := by rw [Link.step, hinputs, hrx]; rfl
  have howed : (l.step a).owed = [] := by rw [Link.owed, hheld']; rfl
  have htaken : (l.step a).taken = l.taken := by rw [Link.step, hinputs, hrx]; rfl
  exact
    { left := by
        rw [Link.step, hinputs, hrx]
        exact h.left
      long := h.long
      seqExpected := by rw [hregs]; exact h.seqExpected
      parse := fun hp ↦ h.parse (by rw [hregs] at hp; exact hp)
      body := fun _ ↦ hm
      dropped := fun hd ↦ by
        rw [hregs] at hd
        exact absurd (hst.symm.trans hd) (by decide)
      stalled := fun _ _ ↦ by rw [hregs]
      held := fun _ ↦ by
        rw [hregs]
        exact ⟨hst, rfl, rfl, us, hus, rfl⟩
      ahead := fun m ↦ by
        have hstate : (l.step a).regs.state = l.regs.state := by rw [hregs]
        rw [htaken, accepted_step hsafe hheld, howed, List.append_nil, hstate]
        exact h.ahead m }

theorem Tracks.step_drop (h : Tracks ps part rs x l) (hst : l.regs.state = .dropPacket) {b : Beat}
    {rest : List Beat} (hleft : l.left = b :: rest)
    (hinputs : l.inputs a = ⟨true, b, true, a.txTready⟩) :
    ∃ part' rs' x', Tracks ps part' rs' x' (l.step a) := by
  obtain ⟨hrx, hvalid⟩ := h.dropped hst
  have hm := h.body (by rw [hst]; decide)
  obtain ⟨b', us, rfl⟩ := List.exists_cons_of_ne_nil hm.ne_nil
  have hsplit := h.left
  rw [hleft, List.cons_append] at hsplit
  obtain ⟨rfl, rfl⟩ := List.cons.inj hsplit
  obtain ⟨hregs, hleft', hheld', htaken⟩ := step_taken hleft hinputs hrx
  have hpos : l.regs.posedge ⟨true, b, true, a.txTready⟩
      = { l.regs with
          txTvalid := false
          rxTready := true
          state := if b.tlast then .parseHeader else .dropPacket } := by
    rw [RxLibnet.posedge, hst]
    rfl
  rw [hpos] at hregs
  have hstate : (l.step a).regs.state = if b.tlast then .parseHeader else .dropPacket := by
    rw [hregs]
  have hvalid' : (l.step a).regs.txTvalid = false := by rw [hregs]
  have howed : (l.step a).owed = [] := by rw [Link.owed, shown_of_not_valid hvalid', ite_self]
  have hnone : l.owed = [] := by rw [Link.owed, shown_of_not_valid hvalid, ite_self]
  have haccepted : (l.step a).accepted = l.accepted := by
    rw [Link.step, shown_of_not_valid hvalid, List.append_nil, ite_self]
  -- nothing is put on the output, whatever the beat
  refine ⟨us, rs, x,
    { left := hleft'
      long := h.long
      seqExpected := by rw [hregs]; exact h.seqExpected
      parse := fun hp ↦ ?_
      body := fun hb ↦ ?_
      dropped := fun _ ↦ by rw [hregs]; exact ⟨rfl, rfl⟩
      stalled := fun _ hnot ↦ by
        rw [hregs] at hnot
        exact Bool.noConfusion hnot
      held := fun hh ↦ Bool.noConfusion (hheld'.symm.trans hh)
      ahead := fun m ↦ ?_ }⟩
  · exact (left_of_state hm (by decide) hstate).1 hp
  · exact (left_of_state hm (by decide) hstate).2 hb
  · have hahead := h.ahead (m + 1)
    have hnot : (l.step a).regs.state ≠ .streamPacket := by
      rw [hstate]
      split <;> decide
    rw [hst, if_neg (by decide), List.length_cons, Nat.add_sub_add_right, hnone,
      List.append_nil] at hahead
    rw [htaken, Nat.add_assoc, Nat.add_comm 1, hahead, haccepted, howed, if_neg hnot,
      List.append_nil]

/-- **The step lemma.** -/
theorem Tracks.step (h : Tracks ps part rs x l) (hsafe : l.Safe a) :
    ∃ part' rs' x', Tracks ps part' rs' x' (l.step a) := by
  obtain ⟨hinputs, hsilent⟩ | ⟨b, rest, hleft, hinputs⟩ := inputs_cases l a
  · refine ⟨part, rs, x, h.step_idle hsafe hinputs ?_⟩
    cases hheld : l.held with
    | false => rfl
    | true =>
      obtain ⟨-, -, -, us, -, hpart⟩ := h.held hheld
      have hleft := h.left
      rw [hpart, List.cons_append] at hleft
      rcases hsilent with hnil | hnot
      · exact absurd (hleft.symm.trans hnil) (List.cons_ne_nil _ _)
      · exact Bool.noConfusion (hheld.symm.trans hnot)
  · cases hst : l.regs.state with
    | parseHeader => exact h.step_parse hsafe hst hleft hinputs
    | streamPacket =>
      cases hrx : l.regs.rxTready with
      | true => exact h.step_stream hsafe hst hleft hinputs hrx
      | false => exact ⟨part, rs, x, h.step_stalled hsafe hst hleft hinputs hrx⟩
    | dropPacket => exact h.step_drop hst hleft hinputs

/-- In a safe cycle only a beat that is held can be shown and not accepted, and it is shown
again. -/
theorem Tracks.stable (h : Tracks ps part rs x l) (hsafe : l.Safe a) : l.Stable a := by
  intro hvalid hready
  have hheld : l.held = true := by
    cases hh : l.held with
    | true => rfl
    | false => exact Bool.noConfusion ((hsafe.1 hvalid hh).symm.trans hready)
  obtain ⟨hst, -, -, us, -, hpart⟩ := h.held hheld
  have hleft := h.left
  rw [hpart, List.cons_append] at hleft
  have hinputs : l.inputs a = ⟨true, l.regs.tx, true, a.txTready⟩ := by
    rw [Link.inputs, hleft, hheld]
    rfl
  have hregs : (l.step a).regs = l.regs.posedge ⟨true, l.regs.tx, true, a.txTready⟩ := by
    rw [← hinputs]; rfl
  rw [hregs, posedge_stream hst]
  exact ⟨rfl, rfl⟩

theorem Tracks.complete (h : Tracks ps part rs x l) : l.Complete ps := by
  have hnow := h.ahead 0
  rw [Nat.add_zero, List.take_zero, ite_self, Nat.zero_sub, passed_zero, List.append_nil,
    List.append_nil] at hnow
  rw [Link.Complete, hnow, Link.owed]
  cases l.held with
  | true => exact .inl (List.append_nil _).symm
  | false => exact .inr rfl

end Steps

/-- **No beat is lost or repeated.** In a run of safe cycles, the application has in every state
accepted the beats of delivered packets that the receiver has taken, each once and in order, but for
the one that is shown, and a beat that is shown and not accepted stays. -/
theorem complete_of_safe (regs : RxLibnet) {ps : List Packet} (hps : ∀ p ∈ ps, p.rest ≠ [])
    {as : List Action}
    (hsafe : Machine.Guarded Link.step Link.Safe (Link.init regs (ps.flatMap Frame.units)) as) :
    Machine.Guarded Link.step (fun l a ↦ l.Complete ps ∧ l.Stable a)
      (Link.init regs (ps.flatMap Frame.units)) as
      ∧ (Machine.run Link.step (Link.init regs (ps.flatMap Frame.units)) as).Complete ps := by
  have hinit : ∃ part rs x, Tracks ps part rs x (Link.init regs (ps.flatMap Frame.units)) :=
    ⟨_, _, _, tracks_init regs hps⟩
  have hstep : ∀ l a, (∃ part rs x, Tracks ps part rs x l) → l.Safe a →
      ∃ part rs x, Tracks ps part rs x (l.step a) := by
    rintro l a ⟨part, rs, x, h⟩ hs
    exact h.step hs
  constructor
  · apply Machine.Guarded.imp hstep _ hinit hsafe
    rintro l a ⟨part, rs, x, h⟩ hs
    exact ⟨h.complete, h.stable hs⟩
  · obtain ⟨part, rs, x, h⟩ := Machine.Guarded.invariant hstep hinit hsafe
    exact h.complete

/-- A packet of four beats with the number 0. -/
def fourBeats : Packet :=
  ⟨{}, [{ tuser := 1 }, { tuser := 2 }, { tuser := 3, tlast := true }], by decide⟩

/-- The application is not ready twice: for the second beat, and when the third is on the wires
again. -/
def stallTwice : List Action :=
  [⟨false, true, {}⟩, ⟨true, true, {}⟩, ⟨false, true, {}⟩, ⟨true, false, {}⟩, ⟨true, true, {}⟩,
    ⟨true, false, {}⟩, ⟨false, true, {}⟩, ⟨true, true, {}⟩, ⟨false, true, {}⟩]

theorem complete_of_safe_stallTwice :
    (Machine.run Link.step (Link.init ⟨{}, false, 0, false, false, .parseHeader⟩
        ([fourBeats].flatMap Frame.units)) stallTwice).accepted = fourBeats.units
      ∧ (Machine.run Link.step (Link.init ⟨{}, false, 0, false, false, .parseHeader⟩
        ([fourBeats].flatMap Frame.units)) stallTwice).Complete [fourBeats] := by
  refine ⟨by decide +kernel, (complete_of_safe _ (by decide) ?_).2⟩
  decide +kernel

/-- A packet of two beats with the number 0. -/
def headAndTail : Packet := ⟨{}, [{ tuser := 1, tlast := true }], by decide⟩

/-- The application is not ready when the first beat is shown: the second one takes its place. -/
theorem not_complete_headAndTail :
    ¬(Machine.run Link.step (Link.init ⟨{}, false, 0, false, false, .parseHeader⟩
      ([headAndTail].flatMap Frame.units)) [⟨false, true, {}⟩, ⟨true, true, {}⟩,
        ⟨true, false, {}⟩]).Complete [headAndTail] := by
  rw [Link.Complete]
  decide +kernel

end FpgaOs.Libnet
