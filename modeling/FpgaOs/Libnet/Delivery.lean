import FpgaOs.Lib.Feed
import FpgaOs.Libnet.RxLibnet

/-!
# Delivery to an application that is always ready

When the application is always ready and the sender waits a cycle after the reset, the receiver
takes a beat in every cycle in which there is one, and what it does with it depends on two of its
registers only. `Core` is these two.

`PARSE_HEADER` looks at `tlast` for a `SYN` and not otherwise. So a packet of one beat that is no
`SYN` takes the next packet along: it is delivered too, or dropped too. What the application gets is
right exactly when every such packet is dropped and is followed by one that has no effect, or by
none.
-/

namespace FpgaOs.Libnet

open BitField Feed

/-! ## What decides about a beat -/

structure Core where
  state : State
  seq : BitVec 32

/-- The receiver takes a beat and passes it on or not. -/
def Core.read (c : Core) (b : Beat) : Core × List Beat :=
  match c.state with
  | .parseHeader =>
    if b.syn then (⟨if b.tlast then .parseHeader else .dropPacket, b.seq⟩, [])
    else if b.seq = c.seq then (⟨.streamPacket, c.seq + 1⟩, [b])
    else (⟨.dropPacket, c.seq⟩, [])
  | .streamPacket => (⟨if b.tlast then .parseHeader else .streamPacket, c.seq⟩, [b])
  | .dropPacket => (⟨if b.tlast then .parseHeader else .dropPacket, c.seq⟩, [])

def RxLibnet.core (s : RxLibnet) : Core := ⟨s.state, s.seqExpected⟩

section Cycle

variable (s : RxLibnet)

theorem posedge_idle (wires : Beat) (ready : Bool) :
    (s.posedge ⟨true, wires, false, ready⟩).core = s.core
      ∧ (s.posedge ⟨true, wires, false, ready⟩).txTvalid = false
      ∧ (s.posedge ⟨true, wires, false, ready⟩).rxTready = true := by
  obtain ⟨tx, txTvalid, seqExpected, seqValid, rxTready, state⟩ := s
  cases state with
  | parseHeader => exact ⟨rfl, rfl, rfl⟩
  | streamPacket => exact ⟨rfl, rfl, rfl⟩
  | dropPacket => exact ⟨rfl, rfl, rfl⟩

theorem posedge_beat (b : Beat) :
    (s.posedge ⟨true, b, true, true⟩).core = (s.core.read b).1
      ∧ (if (s.posedge ⟨true, b, true, true⟩).txTvalid then [(s.posedge ⟨true, b, true, true⟩).tx]
        else [])
        = (s.core.read b).2
      ∧ (s.posedge ⟨true, b, true, true⟩).rxTready = true := by
  obtain ⟨tx, txTvalid, seqExpected, seqValid, rxTready, state⟩ := s
  cases state with
  | parseHeader =>
    cases hsyn : b.syn with
    | true => simp [RxLibnet.posedge, RxLibnet.core, Core.read, hsyn]
    | false =>
      by_cases hseq : b.seq = seqExpected
      · simp [RxLibnet.posedge, RxLibnet.core, Core.read, hsyn, hseq]
      · simp [RxLibnet.posedge, RxLibnet.core, Core.read, hsyn, hseq]
  | streamPacket => exact ⟨rfl, rfl, rfl⟩
  | dropPacket =>
    refine ⟨?_, rfl, rfl⟩
    simp [RxLibnet.posedge, RxLibnet.core, Core.read]

end Cycle

/-! ## Runs with an application that is always ready -/

/-- The link has been reset, the sender has waited a cycle, and the application has been ready ever
since. -/
def ReadyRun (ps : List Packet) (l : Link) : Prop :=
  ∃ regs a as, a.offer = false ∧ a.txTready = true ∧ (∀ a' ∈ as, a'.txTready = true)
    ∧ l = Machine.run Link.step (Link.init regs (ps.flatMap Frame.units)) (a :: as)

def Core.init : Core := ⟨.parseHeader, 0⟩

/-- Beats flow: the link is where the first beats of the stream bring it. -/
structure Flows (stream : List Beat) (l : Link) : Prop where
  rxTready : l.regs.rxTready = true
  held : l.held = false
  left : l.left = stream.drop l.taken
  core : l.regs.core = after Core.read .init (stream.take l.taken)
  sent : l.accepted ++ l.shown = emits Core.read .init (stream.take l.taken)

section Flow

variable {stream : List Beat} {l : Link} {a : Action}

theorem shown_of_not_valid (h : l.regs.txTvalid = false) : l.shown = [] := by
  rw [Link.shown, h]
  rfl

theorem Flows.first (regs : RxLibnet) (hoffer : a.offer = false) (hready : a.txTready = true) :
    Flows stream ((Link.init regs stream).step a) := by
  have hinputs : (Link.init regs stream).inputs a = ⟨true, a.wires, false, true⟩ := by
    rw [Link.inputs, hoffer, hready]
    cases stream with
    | nil => rfl
    | cons b bs => rfl
  obtain ⟨hcore, hvalid, hrx⟩ := posedge_idle regs.reset a.wires true
  constructor
  · rw [Link.step, hinputs]
    exact hrx
  · rw [Link.step, hinputs]
    rfl
  · rw [Link.step, hinputs]
    rfl
  · rw [Link.step, hinputs]
    exact hcore
  · rw [Link.step, hinputs, hready, shown_of_not_valid hvalid]
    rfl

theorem Flows.step (h : Flows stream l) (hready : a.txTready = true) : Flows stream (l.step a) := by
  have hleft := h.left
  -- a beat is on the wire and is taken, or the cycle is idle
  by_cases hgo : l.left ≠ [] ∧ a.offer = true
  · obtain ⟨b, rest, hb⟩ := List.exists_cons_of_ne_nil hgo.1
    have hinputs : l.inputs a = ⟨true, b, true, true⟩ := by
      rw [Link.inputs, hb, hgo.2, Bool.or_true, hready]
      rfl
    obtain ⟨hcore, hshown, hrx⟩ := posedge_beat l.regs b
    have hget : stream[l.taken]? = some b := by
      rw [← Nat.add_zero l.taken, ← List.getElem?_drop, ← hleft, hb]
      rfl
    have htake : stream.take (l.taken + 1) = stream.take l.taken ++ [b] := by
      rw [List.take_add_one, hget]
      rfl
    have hstep : l.step a
      = ⟨l.regs.posedge ⟨true, b, true, true⟩, rest, false, l.taken + 1,
      l.accepted ++ l.shown⟩ := by
      rw [Link.step, hinputs, h.rxTready, hready, hb]
      rfl
    rw [hstep]
    refine ⟨hrx, rfl, ?_, ?_, ?_⟩
    · dsimp only
      rw [← List.drop_drop, ← hleft, hb]
      rfl
    · dsimp only
      rw [htake, after_append, ← h.core, hcore]
      rfl
    · dsimp only
      rw [htake, emits_append, ← h.core, ← h.sent, emits, emits_nil, List.append_nil, ← hshown]
      rfl
  · have hinputs : l.inputs a = ⟨true, a.wires, false, true⟩ := by
      rw [Link.inputs, h.held, Bool.false_or, hready]
      cases hl : l.left with
      | nil => rfl
      | cons b rest =>
        have hoffer : a.offer = false := by
          cases ho : a.offer with
          | false => rfl
          | true => exact absurd ⟨by rw [hl]; exact List.cons_ne_nil _ _, ho⟩ hgo
        rw [hoffer]
        rfl
    obtain ⟨hcore, hvalid, hrx⟩ := posedge_idle l.regs a.wires true
    have hstep : l.step a
        = ⟨l.regs.posedge ⟨true, a.wires, false, true⟩, l.left, false, l.taken,
          l.accepted ++ l.shown⟩ := by
      rw [Link.step, hinputs, hready]
      rfl
    rw [hstep]
    refine ⟨hrx, rfl, hleft, hcore.trans h.core, ?_⟩
    have hnone := @shown_of_not_valid
      ⟨l.regs.posedge ⟨true, a.wires, false, true⟩, l.left, false, l.taken, l.accepted ++ l.shown⟩
        hvalid
    rw [hnone, List.append_nil]
    exact h.sent

theorem Flows.run {as : List Action} (h : Flows stream l) (hready : ∀ a ∈ as, a.txTready = true) :
    Flows stream (Machine.run Link.step l as) := by
  induction as generalizing l with
  | nil => exact h
  | cons a as ih =>
    obtain ⟨ha, has⟩ := List.forall_mem_cons.mp hready
    exact ih (h.step ha) has

theorem ReadyRun.flows {ps : List Packet} (h : ReadyRun ps l) :
    Flows (ps.flatMap Frame.units) l := by
  obtain ⟨regs, a, as, hoffer, hready, has, rfl⟩ := h
  exact (Flows.first regs hoffer hready).run has

theorem exists_readyRun (ps : List Packet) (n : ℕ) (hn : n ≤ (ps.flatMap Frame.units).length) :
    ∃ l, ReadyRun ps l ∧ l.taken = n := by
  -- offering a beat in each cycle takes one more beat, up to the end of the stream
  have hrun : ∀ m, ∃ l, ReadyRun ps l ∧ l.taken = min m (ps.flatMap Frame.units).length := by
    intro m
    induction m with
    | zero =>
      refine ⟨_, ⟨⟨{}, false, 0, false, false, .parseHeader⟩, ⟨false, true, {}⟩, [], rfl, rfl,
        List.forall_mem_nil _, rfl⟩, ?_⟩
      rw [Nat.zero_min]
      cases h : ps.flatMap Frame.units with
      | nil => rfl
      | cons b bs => rfl
    | succ m ih =>
      obtain ⟨l, hl, htaken⟩ := ih
      have hflows := hl.flows
      obtain ⟨regs, a, as, hoffer, hready, has, rfl⟩ := hl
      refine ⟨_, ⟨regs, a, as ++ [⟨true, true, {}⟩], hoffer, hready, ?_, rfl⟩, ?_⟩
      · intro a' ha'
        rcases List.mem_append.mp ha' with ha' | ha'
        · exact has a' ha'
        · rw [List.mem_singleton.mp ha']
      · rw [← List.cons_append, Machine.run_concat]
        generalize Machine.run Link.step (Link.init regs (ps.flatMap Frame.units)) (a :: as)
          = l at hflows htaken ⊢
        cases hleft : l.left with
        | nil =>
          have hall := List.drop_eq_nil_iff.mp (hflows.left.symm.trans hleft)
          rw [Link.step, Link.inputs, hleft]
          exact htaken.trans (by omega)
        | cons b rest =>
          have hmore : l.taken < (ps.flatMap Frame.units).length := by
            by_contra hge
            rw [hflows.left, List.drop_of_length_le (by omega)] at hleft
            cases hleft
          rw [Link.step, Link.inputs, hleft, hflows.rxTready, Bool.or_true]
          exact (congrArg (· + 1) htaken).trans (by omega)
  obtain ⟨l, hl, htaken⟩ := hrun n
  exact ⟨l, hl, by omega⟩

end Flow

/-! ## Packets -/

section Packets

variable {p q : Packet} {ps : List Packet} {x : Expect}

/-- After the first beat the receiver stays with the packet up to its end. -/
theorem read_body {st : State} (hst : st ≠ .parseHeader) (e : BitVec 32) {us : List Beat}
    (hm : Marked (fun b : Beat ↦ b.tlast = true) us) :
    (∀ n, emits Core.read ⟨st, e⟩ (us.take n) = (if st = .streamPacket then us.take n else [])
        ∧ (after Core.read ⟨st, e⟩ (us.take n)).seq = e)
      ∧ after Core.read ⟨st, e⟩ us = ⟨.parseHeader, e⟩ := by
  induction us with
  | nil => exact hm.elim
  | cons b us ih =>
    have hread : Core.read ⟨st, e⟩ b
        = (⟨if b.tlast then .parseHeader else st, e⟩, if st = .streamPacket then [b] else []) := by
      cases st with
      | parseHeader => exact absurd rfl hst
      | streamPacket => rfl
      | dropPacket => rfl
    -- what is passed on, for each prefix; then the state at the end mark
    constructor
    · intro n
      cases n with
      | zero => exact ⟨(ite_self []).symm, rfl⟩
      | succ n =>
        rw [List.take_succ_cons, emits, after, hread]
        obtain ⟨rfl, hlast⟩ | ⟨hlast, hm'⟩ := marked_cons.mp hm
        · rw [List.take_nil]
          exact ⟨List.append_nil _, rfl⟩
        · obtain ⟨hout, hseq⟩ := (ih hm').1 n
          rw [if_neg hlast, hout]
          refine ⟨?_, hseq⟩
          split
          · rfl
          · rfl
    · rw [after, hread]
      obtain ⟨rfl, hlast⟩ | ⟨hlast, hm'⟩ := marked_cons.mp hm
      · rw [if_pos hlast]
        rfl
      · rw [if_neg hlast]
        exact (ih hm').2

theorem read_first (p : Packet) (x : Expect) :
    Core.read ⟨.parseHeader, x.number⟩ p.first
      = (⟨if p.syn then if p.first.tlast then .parseHeader else .dropPacket
          else if p.Delivered x then .streamPacket else .dropPacket, (p.next x).number⟩,
        if p.Delivered x then [p.first] else []) := by
  have hread : Core.read ⟨.parseHeader, x.number⟩ p.first
      = if p.syn then (⟨if p.first.tlast then .parseHeader else .dropPacket, p.seq⟩, [])
        else if p.seq = x.number then (⟨.streamPacket, x.number + 1⟩, [p.first])
        else (⟨.dropPacket, x.number⟩, []) := rfl
  rw [number_next, hread]
  cases hsyn : p.syn with
  | true =>
    have hnot : ¬p.Delivered x := fun h ↦ Bool.noConfusion (hsyn.symm.trans h.1)
    rw [if_neg hnot, if_neg hnot]
    rfl
  | false =>
    rw [if_neg Bool.false_ne_true, if_neg Bool.false_ne_true, if_neg Bool.false_ne_true]
    by_cases hseq : p.seq = x.number
    · have hyes : p.Delivered x := ⟨hsyn, hseq⟩
      rw [if_pos hseq, if_pos hseq, if_pos hyes, if_pos hyes]
    · have hnot : ¬p.Delivered x := fun h ↦ hseq h.2
      rw [if_neg hseq, if_neg hseq, if_neg hnot, if_neg hnot]

/-- A packet that goes on after its first beat is streamed or dropped. -/
theorem read_first_long (hlast : ¬p.first.tlast = true) (x : Expect) :
    Core.read ⟨.parseHeader, x.number⟩ p.first
      = (⟨if p.Delivered x then .streamPacket else .dropPacket, (p.next x).number⟩,
        if p.Delivered x then [p.first] else []) := by
  rw [read_first, if_neg hlast]
  cases hsyn : p.syn with
  | true =>
    have hnot : ¬p.Delivered x := fun h ↦ Bool.noConfusion (hsyn.symm.trans h.1)
    rw [if_neg hnot, if_neg hnot]
    rfl
  | false => rfl

/-- The application gets what it is to get, whatever part of the stream has come. -/
def Good (x : Expect) (ps : List Packet) : Prop :=
  ∀ n, emits Core.read ⟨.parseHeader, x.number⟩ ((ps.flatMap Frame.units).take n) = passed x ps n
    ∧ (after Core.read ⟨.parseHeader, x.number⟩ ((ps.flatMap Frame.units).take n)).seq
      = (expectedAt x ps n).number

theorem passed_append (x : Expect) (ps qs : List Packet) (n : ℕ) :
    passed x (ps ++ qs) n
      = passed x ps n ++ passed (expectedAfter x ps) qs (n - (ps.flatMap Frame.units).length) := by
  induction ps generalizing x n with
  | nil => rfl
  | cons p ps ih =>
    rw [List.cons_append, passed, passed, ih, List.append_assoc, List.flatMap_cons,
      List.length_append, ← Nat.sub_sub]
    rfl

theorem expectedAt_append (x : Expect) (ps qs : List Packet) (n : ℕ) :
    expectedAt x (ps ++ qs) n
      = if n ≤ (ps.flatMap Frame.units).length then expectedAt x ps n
        else expectedAt (expectedAfter x ps) qs (n - (ps.flatMap Frame.units).length) := by
  induction ps generalizing x n with
  | nil =>
    rw [List.nil_append]
    split
    · next hle => rw [Nat.le_zero.mp hle, expectedAt_zero]; rfl
    · rfl
  | cons p ps ih =>
    have hpos := List.length_pos_of_ne_nil p.units_ne_nil
    rw [List.cons_append, expectedAt, expectedAt, ih, List.flatMap_cons, List.length_append]
    by_cases hn : n = 0
    · rw [if_pos hn, if_pos (by omega), if_pos hn]
    · rw [if_neg hn, if_neg hn]
      by_cases hle : n ≤ p.units.length + (ps.flatMap Frame.units).length
      · rw [if_pos hle, if_pos (by omega)]
      · rw [if_neg hle, if_neg (by omega), ← Nat.sub_sub]
        rfl

/-- Once the receiver is at the start of a packet again, the packets that follow decide. -/
theorem good_append {blk : List Packet} (hgood : Good x blk)
    (hafter : after Core.read ⟨.parseHeader, x.number⟩ (blk.flatMap Frame.units)
      = ⟨.parseHeader, (expectedAfter x blk).number⟩) :
    Good x (blk ++ ps) ↔ Good (expectedAfter x blk) ps := by
  have hsplit (n : ℕ) : ((blk ++ ps).flatMap Frame.units).take n = (blk.flatMap Frame.units).take n
      ++ (ps.flatMap Frame.units).take (n - (blk.flatMap Frame.units).length) := by
    rw [List.flatMap_append, List.take_append]
  constructor
  -- the packets after `blk` are looked at from the end of `blk` on
  · intro h n
    obtain ⟨hout, hseq⟩ := h ((blk.flatMap Frame.units).length + n)
    obtain ⟨hout', -⟩ := hgood ((blk.flatMap Frame.units).length + n)
    have hblk : (blk.flatMap Frame.units).take ((blk.flatMap Frame.units).length + n)
      = blk.flatMap Frame.units :=
      List.take_of_length_le (by omega)
    rw [hblk] at hout'
    rw [hsplit, hblk, Nat.add_sub_cancel_left] at hout hseq
    rw [emits_append, hafter, passed_append, Nat.add_sub_cancel_left, hout'] at hout
    rw [after_append, hafter, expectedAt_append, Nat.add_sub_cancel_left] at hseq
    refine ⟨List.append_cancel_left hout, hseq.trans ?_⟩
    split
    · next hle =>
      obtain rfl : n = 0 := by omega
      have hzero := (hgood (blk.flatMap Frame.units).length).2
      rw [List.take_length, hafter] at hzero
      rw [Nat.add_zero, ← hzero, expectedAt_zero]
    · rfl
  · intro h n
    obtain ⟨hout, hseq⟩ := hgood n
    rw [hsplit, emits_append, after_append, passed_append, expectedAt_append, hout]
    by_cases hle : n ≤ (blk.flatMap Frame.units).length
    · rw [if_pos hle, Nat.sub_eq_zero_of_le hle, List.take_zero, passed_zero]
      exact ⟨rfl, hseq⟩
    · have hblk : (blk.flatMap Frame.units).take n = blk.flatMap Frame.units :=
        List.take_of_length_le (by omega)
      obtain ⟨hout', hseq'⟩ := h (n - (blk.flatMap Frame.units).length)
      rw [if_neg hle, hblk, hafter, hout', hseq']
      exact ⟨rfl, rfl⟩

/-- A packet on its own is treated as it should be. -/
theorem good_singleton (p : Packet) (x : Expect) : Good x [p] := by
  intro n
  rw [List.flatMap_singleton, passed, passed, List.append_nil]
  cases n with
  | zero =>
    rw [List.take_zero, ite_self]
    exact ⟨rfl, rfl⟩
  | succ n =>
    have hat : expectedAt x [p] (n + 1) = p.next x := rfl
    rw [hat, Frame.units, List.take_succ_cons, emits, after]
    obtain ⟨hrest, -⟩ | ⟨hlast, hm⟩ := p.rest_eq_nil_or_marked
    · rw [hrest, List.take_nil, read_first]
      exact ⟨List.append_nil _, rfl⟩
    · rw [read_first_long hlast]
      by_cases hd : p.Delivered x
      · obtain ⟨hout, hseq⟩ :=
          (read_body (by decide : State.streamPacket ≠ .parseHeader) (p.next x).number hm).1 n
        rw [if_pos hd, if_pos hd, if_pos hd, hout]
        exact ⟨rfl, hseq⟩
      · obtain ⟨hout, hseq⟩ :=
          (read_body (by decide : State.dropPacket ≠ .parseHeader) (p.next x).number hm).1 n
        rw [if_neg hd, if_neg hd, if_neg hd, hout]
        exact ⟨rfl, hseq⟩

/-- After a `SYN` or a packet of two or more beats the receiver is at the start of a packet. -/
theorem after_regular (h : ¬(p.syn = false ∧ p.rest = [])) (x : Expect) :
    after Core.read ⟨.parseHeader, x.number⟩ p.units = ⟨.parseHeader, (p.next x).number⟩ := by
  rw [Frame.units, after]
  obtain ⟨hrest, hlast⟩ | ⟨hlast, hm⟩ := p.rest_eq_nil_or_marked
  · have hsyn : p.syn = true := by
      cases hsyn : p.syn with
      | true => rfl
      | false => exact absurd ⟨hsyn, hrest⟩ h
    rw [read_first, hrest, if_pos hsyn, if_pos hlast]
    rfl
  · rw [read_first_long hlast]
    apply (read_body _ _ hm).2
    split
    · decide
    · decide

theorem read_short (hsyn : p.syn = false) (hrest : p.rest = []) (x : Expect) :
    emits Core.read ⟨.parseHeader, x.number⟩ p.units = (if p.Delivered x then p.units else [])
      ∧ after Core.read ⟨.parseHeader, x.number⟩ p.units
        = ⟨if p.Delivered x then .streamPacket else .dropPacket, (p.next x).number⟩ := by
  rw [Frame.units, hrest, emits, after, read_first, hsyn]
  exact ⟨List.append_nil _, rfl⟩

/-- A packet has no effect if it is a `SYN` with the expected number, or is no `SYN` and has another
number. -/
theorem no_effect_iff (q : Packet) (x : Expect) :
    (¬q.Delivered x ∧ (q.next x).number = x.number) ↔ (q.syn = true ↔ q.seq = x.number) := by
  rw [number_next, Packet.Delivered]
  cases hsyn : q.syn with
  | true =>
    rw [if_pos rfl]
    exact ⟨fun h ↦ ⟨fun _ ↦ h.2, fun _ ↦ rfl⟩, fun h ↦ ⟨fun hd ↦ Bool.noConfusion hd.1, h.mp rfl⟩⟩
  | false =>
    rw [if_neg Bool.false_ne_true]
    by_cases hseq : q.seq = x.number
    · rw [if_pos hseq]
      exact iff_of_false (fun h ↦ h.1 ⟨rfl, hseq⟩) fun h ↦ Bool.noConfusion (h.mpr hseq)
    · rw [if_neg hseq]
      exact iff_of_true ⟨fun h ↦ hseq h.2, rfl⟩ ⟨fun h ↦ Bool.noConfusion h, fun h ↦ absurd h hseq⟩

theorem read_pair (hsyn : p.syn = false) (hrest : p.rest = []) (x : Expect) (q : Packet) (n : ℕ) :
    emits Core.read ⟨.parseHeader, x.number⟩ (p.units ++ q.units.take n)
        = (if p.Delivered x then p.units else []) ++ (if p.Delivered x then q.units.take n else [])
      ∧ (after Core.read ⟨.parseHeader, x.number⟩ (p.units ++ q.units.take n)).seq
        = (p.next x).number
      ∧ after Core.read ⟨.parseHeader, x.number⟩ (p.units ++ q.units)
        = ⟨.parseHeader, (p.next x).number⟩ := by
  obtain ⟨hout, hafter⟩ := read_short hsyn hrest x
  have hst : (if p.Delivered x then State.streamPacket else .dropPacket) ≠ .parseHeader := by
    split <;> decide
  obtain ⟨hbody, hend⟩ := @read_body _ hst (p.next x).number q.units q.marked
  obtain ⟨hout', hseq⟩ := hbody n
  have hstream : ((if p.Delivered x then State.streamPacket else .dropPacket) = .streamPacket)
    ↔ p.Delivered x := by
    by_cases hd : p.Delivered x
    · rw [if_pos hd]
      exact iff_of_true rfl hd
    · rw [if_neg hd]
      exact iff_of_false (by decide) hd
  rw [emits_append, after_append, after_append, hout, hafter, hout']
  refine ⟨?_, hseq, hend⟩
  by_cases hd : p.Delivered x
  · rw [if_pos (hstream.mpr hd), if_pos hd, if_pos hd]
  · rw [if_neg (mt hstream.mp hd), if_neg hd, if_neg hd]

theorem succ_ne_self (e : BitVec 32) : e + 1 ≠ e := by
  intro h
  have hzero : (1 : BitVec 32) = 0 := BitVec.add_right_eq_self.mp h
  exact absurd hzero (by decide)

theorem good_pair_iff (hsyn : p.syn = false) (hrest : p.rest = []) (x : Expect) (q : Packet) :
    Good x [p, q] ↔ p.seq ≠ x.number ∧ (q.syn = true ↔ q.seq = x.number) := by
  have hlen : p.units.length = 1 := by rw [Frame.units, hrest]; rfl
  have hpos := List.length_pos_of_ne_nil q.units_ne_nil
  have htake (n : ℕ) : ([p, q].flatMap Frame.units).take (n + 1) = p.units ++ q.units.take n := by
    rw [List.flatMap_cons, List.flatMap_singleton, List.take_append,
      List.take_of_length_le (by omega), hlen, Nat.add_sub_cancel]
  have hpassed (n : ℕ) : passed x [p, q] (n + 1) = (if p.Delivered x then p.units else [])
      ++ (if q.Delivered (p.next x) then q.units.take n else []) := by
    rw [passed, passed, passed, List.append_nil, hlen, List.take_of_length_le (by omega)]
    rfl
  have hexpected (n : ℕ) : expectedAt x [p, q] (n + 1) = if n = 0 then p.next x
    else q.next (p.next x) := by
    rw [expectedAt, if_neg (Nat.succ_ne_zero n), expectedAt, hlen]
    rfl
  have hdelivered : p.Delivered x ↔ p.seq = x.number := and_iff_right hsyn
  have hnumber (hd : ¬p.Delivered x) : (p.next x).number = x.number := by
    rw [number_next, if_neg (by rw [hsyn]; exact Bool.false_ne_true), if_neg (mt hdelivered.mpr hd)]
  constructor
  · intro h
    -- look at the output when both packets have come
    obtain ⟨hout, hseq⟩ := h (q.units.length + 1)
    obtain ⟨hout', hseq', -⟩ := read_pair hsyn hrest x q q.units.length
    rw [htake, hout', hpassed, List.take_length] at hout
    rw [htake, hseq', hexpected, if_neg hpos.ne'] at hseq
    have hsame := List.append_cancel_left hout
    by_cases hd : p.Delivered x
    · rw [if_pos hd] at hsame
      have hq : q.Delivered (p.next x) := by
        by_contra hq
        rw [if_neg hq] at hsame
        exact q.units_ne_nil hsame
      have hstep := number_next q (p.next x)
      rw [if_neg (by rw [hq.1]; exact Bool.false_ne_true), if_pos hq.2, ← hseq] at hstep
      exact absurd hstep.symm (succ_ne_self _)
    · have hq : ¬q.Delivered (p.next x) := by
        intro hq
        rw [if_neg hd, if_pos hq] at hsame
        exact q.units_ne_nil hsame.symm
      have heffect := (no_effect_iff q (p.next x)).mp ⟨hq, hseq.symm⟩
      rw [hnumber hd] at heffect
      exact ⟨mt hdelivered.mpr hd, heffect⟩
  · rintro ⟨hne, heffect⟩ n
    have hd : ¬p.Delivered x := mt hdelivered.mp hne
    rw [← hnumber hd] at heffect
    obtain ⟨hq, hnext⟩ := (no_effect_iff q (p.next x)).mpr heffect
    cases n with
    | zero => exact ⟨(passed_zero x _).symm, rfl⟩
    | succ n =>
      obtain ⟨hout, hseq, -⟩ := read_pair hsyn hrest x q n
      rw [htake, hout, hseq, hpassed, hexpected, if_neg hd, if_neg hd, if_neg hq]
      refine ⟨rfl, ?_⟩
      split
      · rfl
      · exact hnext.symm

theorem expectedAt_all {n : ℕ} (x : Expect) {ps : List Packet}
    (h : (ps.flatMap Frame.units).length ≤ n) :
    expectedAt x ps n = expectedAfter x ps := by
  induction ps generalizing x n with
  | nil => rfl
  | cons p ps ih =>
    have hpos := List.length_pos_of_ne_nil p.units_ne_nil
    rw [List.flatMap_cons, List.length_append] at h
    rw [expectedAt, if_neg (by omega), ih _ (by omega)]
    rfl

/-- Only what has come of the stream has to be looked at. -/
theorem good_of_le (h : ∀ n ≤ (ps.flatMap Frame.units).length,
    emits Core.read ⟨.parseHeader, x.number⟩ ((ps.flatMap Frame.units).take n) = passed x ps n
      ∧ (after Core.read ⟨.parseHeader, x.number⟩ ((ps.flatMap Frame.units).take n)).seq
        = (expectedAt x ps n).number) : Good x ps := by
  intro n
  by_cases hle : n ≤ (ps.flatMap Frame.units).length
  · exact h n hle
  · have hge : (ps.flatMap Frame.units).length ≤ n := by omega
    have hall := h _ (Nat.le_refl _)
    rw [List.take_length, passed_all x (Nat.le_refl _), expectedAt_all x (Nat.le_refl _)] at hall
    rw [List.take_of_length_le hge, passed_all x hge, expectedAt_all x hge]
    exact hall

/-- What is right of a stream is right of its first packets. -/
theorem Good.of_append {blk : List Packet} (h : Good x (blk ++ ps)) : Good x blk := by
  apply good_of_le
  intro n hle
  obtain ⟨hout, hseq⟩ := h n
  rw [List.flatMap_append, List.take_append_of_le_length hle] at hout hseq
  rw [passed_append, Nat.sub_eq_zero_of_le hle, passed_zero, List.append_nil] at hout
  rw [expectedAt_append, if_pos hle] at hseq
  exact ⟨hout, hseq⟩

/-- Every packet of one beat that is no `SYN` and is not itself taken along is dropped and has no
effect on the packet after it. -/
def Kept : Expect → List Packet → Prop
  | _, [] => True
  | _, [_] => True
  | x, p :: q :: ps =>
    if p.syn = false ∧ p.rest = [] then
      p.seq ≠ x.number ∧ (q.syn = true ↔ q.seq = x.number) ∧ Kept (q.next (p.next x)) ps
    else Kept (p.next x) (q :: ps)

/-- **What the application gets is right exactly when no packet of one beat does harm.** -/
theorem good_iff_kept (x : Expect) (ps : List Packet) : Good x ps ↔ Kept x ps := by
  induction x, ps using Kept.induct with
  | case1 x =>
    exact iff_of_true (fun n ↦ by rw [List.flatMap_nil, List.take_nil]; exact ⟨rfl, rfl⟩) trivial
  | case2 x p => exact iff_of_true (good_singleton p x) trivial
  | case3 x p q ps hshort ih =>
    -- a short packet is taken together with the one after it
    rw [Kept, if_pos hshort, ← ih, ← and_assoc, ← good_pair_iff hshort.1 hshort.2 x q]
    have happend : p :: q :: ps = [p, q] ++ ps := rfl
    have hafter (hgood : Good x [p, q]) :
      after Core.read ⟨.parseHeader, x.number⟩ ([p, q].flatMap Frame.units)
        = ⟨.parseHeader, (expectedAfter x [p, q]).number⟩ := by
      have hend := (hgood ([p, q].flatMap Frame.units).length).2
      rw [List.take_length, expectedAt_all x (Nat.le_refl _)] at hend
      rw [← hend, List.flatMap_cons, List.flatMap_singleton,
        (read_pair hshort.1 hshort.2 x q 0).2.2]
    rw [happend]
    exact ⟨fun h ↦ ⟨h.of_append, (good_append h.of_append (hafter h.of_append)).mp h⟩,
      fun h ↦ (good_append h.1 (hafter h.1)).mpr h.2⟩
  | case4 x p q ps hshort ih =>
    have hafter : after Core.read ⟨.parseHeader, x.number⟩ ([p].flatMap Frame.units)
        = ⟨.parseHeader, (expectedAfter x [p]).number⟩ := by
      rw [List.flatMap_singleton]
      exact after_regular hshort x
    rw [Kept, if_neg hshort, ← ih]
    exact good_append (good_singleton p x) hafter

/-- Packets of two or more beats do no harm. -/
theorem kept_of_rest_ne_nil {ps : List Packet} (h : ∀ p ∈ ps, p.rest ≠ []) (x : Expect) :
    Kept x ps := by
  induction ps generalizing x with
  | nil => trivial
  | cons p ps ih =>
    obtain ⟨hp, hps⟩ := List.forall_mem_cons.mp h
    cases ps with
    | nil => trivial
    | cons q ps =>
      rw [Kept, if_neg fun hshort ↦ hp hshort.2]
      exact ih hps _

end Packets

/-- What the application has got, with the beat in the transmit registers, and the expected number
are right. -/
structure InOrder (ps : List Packet) (l : Link) : Prop where
  /-- The beats are those of the delivered packets, as far as they have come. -/
  beats : l.accepted ++ l.shown = passed .zero ps l.taken
  /-- When all beats have come, they are whole packets. -/
  whole : l.left = [] → l.accepted ++ l.shown = (delivered .zero ps).flatMap Frame.units
  /-- `seq_expected` is the number of the last `SYN` plus the number of packets delivered since. -/
  seqExpected : l.regs.seqExpected = (expectedAt .zero ps l.taken).number
  /-- The packets delivered between two `SYN`s are numbered from that of the first one on. -/
  numbers : ∀ as s bs cs, ps = as ++ [s] ++ bs ++ cs → s.syn = true → (∀ p ∈ bs, p.syn = false) →
    (delivered (expectedAfter .zero (as ++ [s])) bs).map Packet.seq
      = (List.range (delivered (expectedAfter .zero (as ++ [s])) bs).length).map
        fun i ↦ s.seq + BitVec.ofNat 32 i

/-- **In-order delivery.** With an application that is always ready, the delivered packets and the
expected number are right along every run exactly when no packet of one beat does harm. -/
theorem inOrder_iff_kept (ps : List Packet) :
    (∀ l, ReadyRun ps l → InOrder ps l) ↔ Kept .zero ps := by
  rw [← good_iff_kept]
  constructor
  · intro h
    apply good_of_le
    intro n hle
    obtain ⟨l, hl, rfl⟩ := exists_readyRun ps n hle
    have hflows := hl.flows
    have hright := h l hl
    exact ⟨hflows.sent.symm.trans hright.beats,
      (congrArg Core.seq hflows.core).symm.trans hright.seqExpected⟩
  · intro h l hl
    have hflows := hl.flows
    obtain ⟨hout, hseq⟩ := h l.taken
    have hbeats : l.accepted ++ l.shown = passed .zero ps l.taken := hflows.sent.trans hout
    refine ⟨hbeats, fun hleft ↦ ?_, ?_, ?_⟩
    · have hall := List.drop_eq_nil_iff.mp (hflows.left.symm.trans hleft)
      rw [hbeats, passed_all _ hall]
    · exact (congrArg Core.seq hflows.core).trans hseq
    · intro as s bs cs _ hs hbs
      rw [map_seq_delivered hbs, number_expectedAfter_syn hs]

/-- A packet of one beat with the number `e`. -/
def oneBeat (e : BitVec 32) : Packet := ⟨{ tdata := setSlice 0 344 e, tlast := true }, [], rfl⟩

/-- The sender waits a cycle after the reset and then sends two beats. -/
def twoBeats : Link :=
  Machine.run Link.step (Link.init ⟨{}, false, 0, false, false, .parseHeader⟩
    ([oneBeat 0, oneBeat 7].flatMap Frame.units)) [⟨false, true, {}⟩, ⟨true, true, {}⟩,
      ⟨true, true, {}⟩]

/-- A packet of one beat that is delivered takes the next packet along, whatever its number. -/
theorem not_inOrder_twoBeats :
    ReadyRun [oneBeat 0, oneBeat 7] twoBeats ∧ ¬InOrder [oneBeat 0, oneBeat 7] twoBeats := by
  refine ⟨⟨_, _, [⟨true, true, {}⟩, ⟨true, true, {}⟩], rfl, rfl, by decide, rfl⟩, fun h ↦ ?_⟩
  have hlen : (twoBeats.accepted ++ twoBeats.shown).length = 2
      ∧ (passed .zero [oneBeat 0, oneBeat 7] twoBeats.taken).length = 1 := by decide +kernel
  rw [h.beats] at hlen
  exact absurd (hlen.1.symm.trans hlen.2) (by decide)

end FpgaOs.Libnet
