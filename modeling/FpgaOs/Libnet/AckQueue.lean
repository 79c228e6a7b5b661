import FpgaOs.Lib.Machine
import Mathlib.Data.List.Infix
import Mathlib.Data.Nat.Notation

/-!
# The acknowledgement queue

`ack_queue` sends acknowledgements for the two applications in turn. It leaves SEND when `tx_tready`
is set, in the same cycle in which it writes the acknowledgement to its registers. So the cycle
whose `tx_tready` it looks at is not the one in which `tx_tvalid` is seen: an acknowledgement is
lost unless the other side is ready for a second cycle, and if it was not ready at first then the
acknowledgement stays in the registers when it has been accepted.

An acknowledgement that is shown may be accepted exactly in the state that takes it back.
-/

namespace FpgaOs.Libnet

open Machine

/-! ## The code -/

/-- `APP0` and `APP1`. -/
inductive App
  | app0
  | app1
  deriving DecidableEq

/-- `~app_select`. -/
def App.other : App → App
  | .app0 => .app1
  | .app1 => .app0

/-- `APP_ID0` and `APP_ID1`. -/
def App.id : App → BitVec 8
  | .app0 => 0x00
  | .app1 => 0x01

/-- IDLE and SEND. -/
inductive AckState
  | idle
  | send
  deriving DecidableEq

/-- The acknowledgement of a sequence number: the headers with the parameters of the module. -/
def ack (app : App) (seqNum : BitVec 32) : BitVec 512 :=
  (0 : BitVec 134) ++ (0 : BitVec 1) ++ (1 : BitVec 1) ++ seqNum ++ app.id
    ++ 0xBBBB#16 ++ 0xBBBB#16 ++ 0xBBBB#16 ++ 0xBBBB#16
    ++ 0xAAAAAAAA#32 ++ 0xAAAAAAAA#32 ++ 0xAAAAAAAA#32 ++ 0xAAAAAAAA#32 ++ 0xAAAAAAAA#32
    ++ 0x0800#16 ++ 0x121212121212#48 ++ 0xA1B1C1D1E1F1#48

/-- The outputs, all of them registers. -/
structure AckOut where
  txTdata : BitVec 512
  txTkeep : BitVec 64
  txTvalid : Bool
  txTuser : BitVec 64
  txTlast : Bool
  deriving DecidableEq

/-- The registers. -/
structure AckQueue where
  out : AckOut
  seq0Num : BitVec 32
  seq1Num : BitVec 32
  state : AckState
  appSelect : App

/-- The inputs in a cycle. -/
structure AckIn where
  txTready : Bool
  seq0In : BitVec 32 := 0
  seq0Valid : Bool := false
  seq1In : BitVec 32 := 0
  seq1Valid : Bool := false

namespace AckQueue

/-- The register with the sequence number of an application. -/
def seqNum (s : AckQueue) : App → BitVec 32
  | .app0 => s.seq0Num
  | .app1 => s.seq1Num

/-- The clock edge. -/
def posedge (s : AckQueue) (i : AckIn) : AckQueue :=
  match s.state with
  | .idle =>
    { s with
      out := { s.out with txTvalid := false }
      state := if i.txTready then .send else .idle
      seq0Num := if i.seq0Valid then i.seq0In else s.seq0Num
      seq1Num := if i.seq1Valid then i.seq1In else s.seq1Num }
  | .send =>
    { s with
      state := if !i.txTready then .send else .idle
      appSelect := if !i.txTready then s.appSelect else s.appSelect.other
      out :=
        { txTvalid := true
          txTkeep := 0xFFFFFFFFFFFFFFFF
          txTuser := 0xFFFFFFFFFFFFFFFF
          txTlast := true
          txTdata := if s.appSelect = .app0 then ack .app0 s.seq0Num else ack .app1 s.seq1Num } }

/-- After a reset. The other outputs are as they are. -/
def reset (out : AckOut) : AckQueue where
  out := { out with txTvalid := false }
  seq0Num := 0
  seq1Num := 0
  state := .idle
  appSelect := .app0

end AckQueue

/-! ## What is expected -/

/-- An acknowledgement that has been started: for whom, and with which number. -/
structure Started where
  app : App
  seqNum : BitVec 32

/-- The word of an acknowledgement. -/
def Started.word (a : Started) : BitVec 512 := ack a.app a.seqNum

/-- The registers; what has been latched last for each application; the acknowledgements that have
been started and the words that have been accepted. -/
structure AckLog where
  st : AckQueue
  latched : App → BitVec 32
  started : List Started
  accepted : List (BitVec 512)

namespace AckLog

variable (l : AckLog) (i : AckIn)

/-- What is latched in a cycle: new numbers are taken in IDLE. -/
def latch : App → BitVec 32
  | .app0 => if l.st.state = .idle ∧ i.seq0Valid then i.seq0In else l.latched .app0
  | .app1 => if l.st.state = .idle ∧ i.seq1Valid then i.seq1In else l.latched .app1

/-- A cycle. An acknowledgement is started when the queue goes from IDLE to SEND. -/
def step : AckLog where
  st := l.st.posedge i
  latched := l.latch i
  started := l.started ++
    if l.st.state = .idle ∧ i.txTready then [⟨l.st.appSelect, l.latch i l.st.appSelect⟩] else []
  accepted := l.accepted ++ if l.st.out.txTvalid ∧ i.txTready then [l.st.out.txTdata] else []

/-- The word that is shown. -/
def shown : List (BitVec 512) := if l.st.out.txTvalid then [l.st.out.txTdata] else []

end AckLog

/-- Whose turn it is. -/
def turn (n : ℕ) : App := if n % 2 = 0 then .app0 else .app1

/-- The applications in turn. -/
def turns (n : ℕ) : List App := (List.range n).map turn

/-- The acknowledgements are for the applications in turn. What has been accepted, and then what is
shown, is what has been started, word by word; all but the last have been accepted. -/
structure AckLog.Delivers (l : AckLog) : Prop where
  turns : l.started.map Started.app = turns l.started.length
  words : l.accepted ++ l.shown <+: l.started.map Started.word
  all : l.started.length ≤ l.accepted.length + 1

/-- A cycle obeys the protocol: a word that is shown and not accepted stays, and after the cycle the
acknowledgements are delivered as they should. -/
structure Obeys (l : AckLog) (i : AckIn) : Prop where
  stays : l.st.out.txTvalid → ¬i.txTready → (l.step i).st.out = l.st.out
  delivers : (l.step i).Delivers

/-- In a cycle in which a word is shown, the other side is ready exactly if the queue is idle. -/
def InTime (l : AckLog) (i : AckIn) : Prop :=
  l.st.out.txTvalid → (i.txTready ↔ l.st.state = .idle)

/-- After a reset, cycle by cycle. -/
def AckLog.start (out : AckOut) : AckLog := ⟨.reset out, fun _ ↦ 0, [], []⟩

/-! ## The invariant -/

theorem turn_succ (n : ℕ) : turn (n + 1) = (turn n).other := by
  by_cases h : n % 2 = 0
  · simp [turn, h, App.other, show (n + 1) % 2 ≠ 0 by omega]
  · simp [turn, h, App.other, show (n + 1) % 2 = 0 by omega]

theorem turns_succ (n : ℕ) : turns (n + 1) = turns n ++ [turn n] := by
  simp [turns, List.range_succ]

/-- The acknowledgement that SEND writes. -/
def AckQueue.current (s : AckQueue) : Started := ⟨s.appSelect, s.seqNum s.appSelect⟩

/-- The outputs with an acknowledgement. -/
def Started.out (a : Started) : AckOut where
  txTvalid := true
  txTkeep := 0xFFFFFFFFFFFFFFFF
  txTuser := 0xFFFFFFFFFFFFFFFF
  txTlast := true
  txTdata := a.word

namespace AckQueue

variable {s : AckQueue} (i : AckIn)

theorem posedge_of_idle (hs : s.state = .idle) :
    s.posedge i =
      { s with
        out := { s.out with txTvalid := false }
        state := if i.txTready then .send else .idle
        seq0Num := if i.seq0Valid then i.seq0In else s.seq0Num
        seq1Num := if i.seq1Valid then i.seq1In else s.seq1Num } := by
  rw [posedge, hs]

theorem posedge_of_send (hs : s.state = .send) :
    s.posedge i =
      { s with
        state := if !i.txTready then .send else .idle
        appSelect := if !i.txTready then s.appSelect else s.appSelect.other
        out := s.current.out } := by
  rw [posedge, hs]
  cases h : s.appSelect with
  | app0 => simp [current, h, Started.out, Started.word, seqNum]
  | app1 => simp [current, h, Started.out, Started.word, seqNum]

end AckQueue

namespace AckLog

/-- Between two acknowledgements: all that has been started is accepted or shown. -/
structure Idle (l : AckLog) : Prop where
  state : l.st.state = .idle
  select : l.st.appSelect = turn l.started.length
  turns : l.started.map Started.app = turns l.started.length
  words : l.accepted ++ l.shown = l.started.map Started.word

/-- In SEND: all but the current acknowledgement are accepted. -/
structure Sending (l : AckLog) (done : List Started) : Prop where
  state : l.st.state = .send
  started : l.started = done ++ [l.st.current]
  select : l.st.appSelect = turn done.length
  turns : done.map Started.app = turns done.length
  accepted : l.accepted = done.map Started.word
  out : l.st.out.txTvalid → l.st.out = l.st.current.out

/-- The registers hold the numbers that have been latched, and what has been started is accepted,
shown, or written in SEND. -/
structure Inv (l : AckLog) : Prop where
  latched : l.latched = l.st.seqNum
  stage : l.Idle ∨ ∃ done, l.Sending done

theorem inv_start (out : AckOut) : (start out).Inv where
  latched := by
    funext app
    cases app <;> rfl
  stage := Or.inl ⟨rfl, rfl, rfl, rfl⟩

variable {l : AckLog} {done : List Started} {i : AckIn}

theorem Sending.turns_started (h : l.Sending done) :
    l.started.map Started.app = Libnet.turns l.started.length := by
  rw [h.started, List.map_append, h.turns, List.length_append, List.length_singleton, turns_succ,
    ← h.select]
  rfl

theorem Sending.shown_prefix (h : l.Sending done) : l.shown <+: [l.st.current.word] := by
  cases hv : l.st.out.txTvalid with
  | false => simp [shown, hv]
  | true => simp [shown, h.out hv, Started.out]

theorem Inv.delivers (h : l.Inv) : l.Delivers := by
  obtain h | ⟨done, h⟩ := h.stage
  · refine ⟨h.turns, h.words ▸ List.prefix_rfl, ?_⟩
    have hlen := congrArg List.length h.words
    have hshown : l.shown.length ≤ 1 := by
      rw [shown]
      split <;> simp
    rw [List.length_append, List.length_map] at hlen
    omega
  · refine ⟨h.turns_started, ?_, ?_⟩
    · rw [h.started, h.accepted, List.map_append]
      exact (List.prefix_append_right_inj _).mpr h.shown_prefix
    · simp [h.started, h.accepted]

/-! ## A cycle -/

theorem accepted_step : (l.step i).accepted =
    l.accepted ++ if l.st.out.txTvalid ∧ i.txTready then [l.st.out.txTdata] else [] := rfl

theorem latched_step (h : l.latched = l.st.seqNum) : (l.step i).latched = (l.step i).st.seqNum := by
  funext app
  cases hs : l.st.state with
  | idle =>
    rw [step, AckQueue.posedge_of_idle i hs]
    cases app <;> simp [latch, hs, h, AckQueue.seqNum]
  | send =>
    rw [step, AckQueue.posedge_of_send i hs]
    cases app <;> simp [latch, hs, h, AckQueue.seqNum]

theorem Idle.step (hl : l.latched = l.st.seqNum) (h : l.Idle)
    (hg : l.st.out.txTvalid → i.txTready) :
    (l.step i).Idle ∨ (l.step i).Sending l.started := by
  have haccepted : (l.step i).accepted = l.started.map Started.word := by
    rw [← h.words, accepted_step, shown]
    cases hv : l.st.out.txTvalid with
    | false => simp
    | true => simp [hg hv]
  have hlatched := latched_step (i := i) hl
  have hst := AckQueue.posedge_of_idle i h.state
  cases hr : i.txTready with
  | false =>
    refine Or.inl ⟨?_, ?_, ?_, ?_⟩
    · simp [AckLog.step, hst, hr]
    · simp [AckLog.step, hst, hr, h.select]
    · simp [AckLog.step, hr, h.turns]
    · rw [haccepted]
      simp [AckLog.step, shown, hst, hr]
  | true =>
    -- the numbers that are latched in this cycle are those that SEND will write
    refine Or.inr ⟨?_, ?_, ?_, h.turns, haccepted, ?_⟩
    · simp [AckLog.step, hst, hr]
    · have hcurrent : (l.step i).st.current = ⟨l.st.appSelect, l.latch i l.st.appSelect⟩ := by
        have := congrFun hlatched l.st.appSelect
        simp only [AckLog.step, hst] at this ⊢
        rw [this]
        rfl
      rw [hcurrent]
      simp [AckLog.step, h.state, hr]
    · simp [AckLog.step, hst, h.select]
    · simp [AckLog.step, hst]

theorem Sending.step (h : l.Sending done) (hg : l.st.out.txTvalid → ¬i.txTready) :
    (l.step i).Idle ∨ (l.step i).Sending done := by
  have hst := AckQueue.posedge_of_send i h.state
  have hstarted : (l.step i).started = l.started := by simp [AckLog.step, h.state]
  have haccepted : (l.step i).accepted = l.accepted := by
    rw [accepted_step, if_neg fun hc ↦ hg hc.1 hc.2, List.append_nil]
  have hout : (l.step i).st.out = l.st.current.out := by rw [AckLog.step, hst]
  cases hr : i.txTready with
  | false =>
    have hcurrent : (l.step i).st.current = l.st.current := by
      simp [AckLog.step, hst, hr, AckQueue.current, AckQueue.seqNum]
    refine Or.inr ⟨?_, ?_, ?_, h.turns, ?_, fun _ ↦ ?_⟩
    · simp [AckLog.step, hst, hr]
    · rw [hstarted, hcurrent, h.started]
    · simp [AckLog.step, hst, hr, h.select]
    · rw [haccepted, h.accepted]
    · rw [hout, hcurrent]
  | true =>
    -- the register is loaded in the cycle in which SEND is left
    refine Or.inl ⟨?_, ?_, ?_, ?_⟩
    · simp [AckLog.step, hst, hr]
    · rw [hstarted, h.started, List.length_append, List.length_singleton, turn_succ, ← h.select]
      simp [AckLog.step, hst, hr]
    · rw [hstarted, h.turns_started]
    · rw [haccepted, hstarted, h.started, h.accepted, List.map_append, shown, hout]
      rfl

theorem Inv.step (h : l.Inv) (hg : InTime l i) : (l.step i).Inv := by
  refine ⟨latched_step h.latched, ?_⟩
  obtain hidle | ⟨done, hsend⟩ := h.stage
  · exact (hidle.step h.latched fun hv ↦ (hg hv).mpr hidle.state).imp_right fun hs ↦ ⟨_, hs⟩
  · have hg' : l.st.out.txTvalid → ¬i.txTready := by
      intro hv hr
      have hidle := (hg hv).mp hr
      rw [hsend.state] at hidle
      contradiction
    exact (hsend.step hg').imp_right fun hs ↦ ⟨_, hs⟩

theorem Idle.ready (h : l.Idle) (ho : Obeys l i) (hv : l.st.out.txTvalid) : i.txTready := by
  by_contra hr
  have hout := congrArg AckOut.txTvalid (ho.stays hv hr)
  rw [AckLog.step, AckQueue.posedge_of_idle i h.state, hv] at hout
  contradiction

theorem Sending.not_ready (h : l.Sending done) (ho : Obeys l i) (hv : l.st.out.txTvalid) :
    ¬i.txTready := by
  intro hr
  have hlen := ho.delivers.words.length_le
  have hstarted : (l.step i).started = l.started := by simp [AckLog.step, h.state]
  have hshown : (l.step i).shown = [l.st.current.word] := by
    rw [shown, AckLog.step, AckQueue.posedge_of_send i h.state]
    rfl
  rw [hshown, hstarted, accepted_step, if_pos ⟨hv, hr⟩, h.accepted, h.started] at hlen
  simp at hlen

theorem Inv.obeys_iff (h : l.Inv) : Obeys l i ↔ InTime l i := by
  constructor
  · intro ho hv
    obtain hidle | ⟨done, hsend⟩ := h.stage
    · exact iff_of_true (hidle.ready ho hv) hidle.state
    · exact iff_of_false (hsend.not_ready ho hv) (by simp [hsend.state])
  · intro hg
    refine ⟨fun hv hr ↦ ?_, (h.step hg).delivers⟩
    obtain hidle | ⟨done, hsend⟩ := h.stage
    · exact absurd ((hg hv).mpr hidle.state) hr
    · rw [AckLog.step, AckQueue.posedge_of_send i hsend.state, hsend.out hv]

end AckLog

/-! ## Every acknowledgement once -/

/-- After every reset, and whatever sequence numbers come: the queue obeys the protocol in all
cycles of a run exactly if the other side takes no word in SEND, and every word in IDLE. -/
theorem obeys_iff_inTime (out : AckOut) (is : List AckIn) :
    Guarded AckLog.step Obeys (.start out) is ↔ Guarded AckLog.step InTime (.start out) is :=
  guarded_iff_of_invariant (fun _ _ h hg ↦ h.step hg) (fun _ _ h ↦ h.obeys_iff)
    (AckLog.inv_start out)

/-- Ready for two cycles, and then not. -/
def readyTwice : List AckIn :=
  [{ txTready := true }, { txTready := true }, { txTready := false }]

/-- The first acknowledgement is shown for one cycle, in which the other side is not ready. -/
theorem not_obeys_readyTwice :
    ¬Guarded AckLog.step Obeys (.start ⟨0, 0, false, 0, false⟩) readyTwice := by
  rintro ⟨-, -, ho, -⟩
  have hout := congrArg AckOut.txTvalid (ho.stays rfl (by simp))
  exact absurd hout (by decide)

end FpgaOs.Libnet
