import FpgaOs.Lib.BitField
import FpgaOs.Lib.Feed
import FpgaOs.Lib.Frame

/-!
# The header handler of the key-value store

`header_handler` takes the first three words off each packet from the network and passes the others
through to the application. For the first packet these words go through the states of a parser,
which keeps them for the replies; for all later ones a counter in the idle state counts them. While
it takes headers it is always ready, while it passes words through it is ready when the application
is.

So a cycle either moves nothing or takes one word, and what is done with the word depends on the
registers only.
-/

namespace FpgaOs.Memcached

open Machine BitField Feed

/-! ## The code -/

/-- A word of a stream with its side channels. -/
structure NetWord where
  data : BitVec 64 := 0
  keep : BitVec 8 := 0
  user : BitVec 64 := 0
  last : BitVec 1 := 0
  deriving DecidableEq

/-- `rx_state`. -/
inductive RxState
  | idle
  | parseHdr1
  | parseHdr2
  | parseStream
  deriving DecidableEq

/-- The registers of the receive side. -/
structure HeaderHandler where
  rxState : RxState
  waitCnt : BitVec 2
  headerStriped : Bool
  ethHdr0 : BitVec 64
  ethHdr1 : BitVec 48
  legoHdr : BitVec 56

namespace HeaderHandler

variable (s : HeaderHandler)

/-- `fromNet_axis_tready`. -/
def fromNetReady (toAppReady : Bool) : Bool :=
  if s.rxState ≠ .parseStream then true else toAppReady

/-- The stream `toApp_axis`: a word if `tvalid` is set. -/
def toApp (fromNet : Option NetWord) : Option NetWord :=
  if s.rxState = .parseStream then fromNet else none

/-- The clock edge. In every state nothing happens unless `fromNet_axis_tvalid` is set. -/
def posedge (fromNet : Option NetWord) (toAppReady : Bool) : HeaderHandler :=
  match fromNet with
  | none => s
  | some w =>
    match s.rxState with
    | .idle =>
      if ¬s.headerStriped then { s with rxState := .parseHdr1, ethHdr0 := w.data }
      else if s.waitCnt = 2 then { s with rxState := .parseStream, waitCnt := 0 }
      else { s with waitCnt := s.waitCnt + 1 }
    | .parseHdr1 =>
      { s with
        rxState := .parseHdr2
        ethHdr1 := slice w.data 16 48
        legoHdr := setSlice s.legoHdr 40 (slice w.data 0 16) }
    | .parseHdr2 =>
      { s with
        rxState := .parseStream
        legoHdr := setSlice s.legoHdr 0 (slice w.data 24 40)
        headerStriped := true }
    | .parseStream =>
      if s.fromNetReady toAppReady ∧ w.last = 1 then { s with rxState := .idle } else s

/-- After a reset, which leaves the three headers as they are. -/
def reset : HeaderHandler :=
  { s with rxState := .idle, waitCnt := 0, headerStriped := false }

end HeaderHandler

/-! ## The two streams -/

/-- Whether the network offers its next word in a cycle, and whether the application is ready. -/
structure Cycle where
  valid : Bool
  ready : Bool

/-- The registers, the words that the network has not delivered, those that have been accepted from
it, and those that the application has accepted. -/
structure RxLog where
  st : HeaderHandler
  rest : List NetWord
  accepted : List NetWord
  delivered : List NetWord

namespace RxLog

variable (l : RxLog) (c : Cycle)

/-- The stream `fromNet_axis`: a word if `tvalid` is set. -/
def fromNet : Option NetWord := if c.valid then l.rest.head? else none

/-- The word that is accepted from the network. -/
def taken : List NetWord := if l.st.fromNetReady c.ready then (l.fromNet c).toList else []

def step : RxLog where
  st := l.st.posedge (l.fromNet c) c.ready
  rest := l.rest.drop (l.taken c).length
  accepted := l.accepted ++ l.taken c
  delivered := l.delivered ++ if c.ready then (l.st.toApp (l.fromNet c)).toList else []

end RxLog

/-- A packet of four or more words. -/
structure RxPacket extends Frame fun w : NetWord ↦ w.last = 1 where
  four_le : 4 ≤ (first :: rest).length

/-- The words of a packet. -/
def RxPacket.words (p : RxPacket) : List NetWord := p.units

/-- The words after the first three. -/
def RxPacket.payload (p : RxPacket) : List NetWord := p.words.drop 3

/-- The header handler on a sequence of packets, cycle by cycle from a reset on. -/
def handled (s : HeaderHandler) (ps : List RxPacket) (cs : List Cycle) : RxLog :=
  run RxLog.step ⟨s.reset, ps.flatMap RxPacket.words, [], []⟩ cs

/-! ## Word by word -/

namespace HeaderHandler

/-- A cycle that takes a word. -/
def read (s : HeaderHandler) (w : NetWord) : HeaderHandler × List NetWord :=
  (s.posedge (some w) true, (s.toApp (some w)).toList)

/-- The receive side is ready for a packet. -/
structure Ready (s : HeaderHandler) : Prop where
  rxState : s.rxState = .idle
  waitCnt : s.waitCnt = 0

variable {s : HeaderHandler}

theorem toApp_of_ne (h : s.rxState ≠ .parseStream) (fromNet : Option NetWord) :
    s.toApp fromNet = none := if_neg h

theorem posedge_none (s : HeaderHandler) (ready : Bool) : s.posedge none ready = s := rfl

theorem fromNetReady_of_ne (h : s.rxState ≠ .parseStream) (ready : Bool) :
    s.fromNetReady ready = true := if_pos h

theorem fromNetReady_of_stream (h : s.rxState = .parseStream) (ready : Bool) :
    s.fromNetReady ready = ready := if_neg (not_not_intro h)

/-- Only where words pass through does it matter whether the application is ready. -/
theorem posedge_of_ne (h : s.rxState ≠ .parseStream) (w : NetWord) (ready : Bool) :
    s.posedge (some w) ready = s.posedge (some w) true := by
  rw [posedge, posedge]
  cases hst : s.rxState with
  | parseStream => exact absurd hst h
  | idle => rfl
  | parseHdr1 => rfl
  | parseHdr2 => rfl

theorem posedge_stream (h : s.rxState = .parseStream) (w : NetWord) (ready : Bool) :
    s.posedge (some w) ready
      = if ready ∧ w.last = 1 then { s with rxState := .idle } else s := by
  rw [posedge, h]
  dsimp only
  rw [fromNetReady_of_stream h]

end HeaderHandler

open HeaderHandler

/-- **A cycle** moves nothing, or takes one word. -/
theorem RxLog.step_cases (l : RxLog) (c : Cycle) :
    l.step c = l ∨ ∃ w rest, l.rest = w :: rest
      ∧ l.step c = ⟨(l.st.read w).1, rest, l.accepted ++ [w], l.delivered ++ (l.st.read w).2⟩ := by
  obtain ⟨st, rest, accepted, delivered⟩ := l
  cases hnet : RxLog.fromNet ⟨st, rest, accepted, delivered⟩ c with
  | none =>
    left
    rw [RxLog.step, RxLog.taken, hnet, posedge_none, HeaderHandler.toApp]
    simp
  | some w =>
    have hrest : rest.head? = some w := by
      rw [RxLog.fromNet] at hnet
      exact (Option.ite_none_right_eq_some.mp hnet).2
    obtain ⟨rest, rfl⟩ := List.head?_eq_some_iff.mp hrest
    rw [RxLog.step, RxLog.taken, hnet]
    dsimp only
    -- a word that is passed on has to wait for the application
    by_cases hst : st.rxState = .parseStream
    · rw [fromNetReady_of_stream hst, posedge_stream hst, HeaderHandler.toApp, if_pos hst]
      cases c.ready with
      | false => simp
      | true =>
        refine .inr ⟨w, rest, rfl, ?_⟩
        rw [HeaderHandler.read, posedge_stream hst, HeaderHandler.toApp, if_pos hst]
        rfl
    · refine .inr ⟨w, rest, rfl, ?_⟩
      rw [fromNetReady_of_ne hst, posedge_of_ne hst, HeaderHandler.read, toApp_of_ne hst]
      simp

/-! ## Packet by packet -/

section Packets

variable {s : HeaderHandler} {ws : List NetWord}

theorem read_stream (h : s.rxState = .parseStream) (w : NetWord) :
    s.read w = (if w.last = 1 then { s with rxState := .idle } else s, [w]) := by
  rw [HeaderHandler.read, posedge_stream h, HeaderHandler.toApp, if_pos h]
  simp

theorem reads_stream (h : s.rxState = .parseStream)
    (hm : Marked (fun w : NetWord ↦ w.last = 1) ws) :
    after HeaderHandler.read s ws = { s with rxState := .idle }
      ∧ emits HeaderHandler.read s ws = ws := by
  induction ws with
  | nil => exact hm.elim
  | cons w ws ih =>
    rw [after, emits, read_stream h]
    obtain ⟨rfl, hlast⟩ | ⟨hlast, hm'⟩ := marked_cons.mp hm
    · rw [if_pos hlast]
      exact ⟨rfl, rfl⟩
    · rw [if_neg hlast]
      obtain ⟨hafter, hemits⟩ := ih hm'
      exact ⟨hafter, congrArg (w :: ·) hemits⟩

/-- **Three words are taken off**, by the parser or by the counter. -/
theorem reads_header (h : s.Ready) (w₀ w₁ w₂ : NetWord) :
    (after HeaderHandler.read s [w₀, w₁, w₂]).rxState = .parseStream
      ∧ (after HeaderHandler.read s [w₀, w₁, w₂]).waitCnt = 0
      ∧ emits HeaderHandler.read s [w₀, w₁, w₂] = [] := by
  obtain ⟨rxState, waitCnt, headerStriped, ethHdr0, ethHdr1, legoHdr⟩ := s
  obtain ⟨hst, hcnt⟩ := h
  dsimp only at hst hcnt
  rw [hst, hcnt]
  cases headerStriped with
  | false => exact ⟨rfl, rfl, rfl⟩
  | true => exact ⟨rfl, rfl, rfl⟩

theorem takes_packet (p : RxPacket) (s : HeaderHandler) (h : s.Ready) :
    Takes HeaderHandler.read RxPacket.words HeaderHandler.Ready RxPacket.payload s p := by
  obtain ⟨⟨w₀, rest, marked⟩, hfour⟩ := p
  obtain _ | ⟨w₁, _ | ⟨w₂, _ | ⟨w₃, ws⟩⟩⟩ := rest
  · exact absurd hfour (by simp)
  · exact absurd hfour (by simp)
  · exact absurd hfour (by simp)
  · obtain ⟨hst, hcnt, hnone⟩ := reads_header h w₀ w₁ w₂
    obtain ⟨hafter, hemits⟩ := reads_stream hst marked.of_cons.of_cons.of_cons
    have hsplit : w₀ :: w₁ :: w₂ :: w₃ :: ws = [w₀, w₁, w₂] ++ w₃ :: ws := rfl
    rw [Takes, RxPacket.payload, RxPacket.words, Frame.units, hsplit, after_append, emits_append,
      hafter, hemits, hnone]
    exact ⟨⟨rfl, hcnt⟩, rfl⟩

end Packets

/-! ## The run -/

/-- Every word that the network has delivered has been accepted once. The application has accepted
the words after the first three of each packet: in order as far as they have come, and between two
packets those of all packets before. And cycles in which both sides are ready move all words. -/
structure Strips (ps : List RxPacket) (l : RxLog) : Prop where
  once : l.accepted ++ l.rest = ps.flatMap RxPacket.words
  order : l.delivered <+: ps.flatMap RxPacket.payload
  between : ∀ qs rs, ps = qs ++ rs → l.rest = rs.flatMap RxPacket.words →
    l.delivered = qs.flatMap RxPacket.payload
  ends : ∀ cs : List Cycle, (∀ c ∈ cs, c.valid ∧ c.ready) → l.rest.length ≤ cs.length →
    (run RxLog.step l cs).rest = []

/-- The accepted words have been read. -/
structure Reads (s : HeaderHandler) (ps : List RxPacket) (l : RxLog) : Prop where
  hasRead : HasRead HeaderHandler.read s (ps.flatMap RxPacket.words) l.accepted
    ⟨l.rest, [], l.st, l.delivered⟩

theorem Reads.step {s : HeaderHandler} {ps : List RxPacket} {l : RxLog} (h : Reads s ps l)
    (c : Cycle) : Reads s ps (l.step c) := by
  obtain hsame | ⟨w, rest, hrest, hstep⟩ := l.step_cases c
  · rwa [hsame]
  · obtain ⟨hsplit, hst, hout⟩ := h.hasRead
    dsimp only at hsplit hst hout
    rw [hrest, List.nil_append] at hsplit
    rw [hstep]
    refine ⟨?_, ?_, ?_⟩
    · rw [← hsplit, List.append_assoc]
      rfl
    · rw [after_append, ← hst]
      rfl
    · rw [emits_append, ← hst, ← hout]
      exact congrArg (l.delivered ++ ·) (List.append_nil _).symm

theorem length_rest_step (l : RxLog) {c : Cycle} (hvalid : c.valid) (hready : c.ready) :
    (l.step c).rest.length = l.rest.length - 1 := by
  have htake : l.st.fromNetReady c.ready = true := by
    rw [HeaderHandler.fromNetReady, hready]
    exact ite_self true
  rw [RxLog.step, RxLog.taken, if_pos htake, RxLog.fromNet, if_pos hvalid, List.length_drop]
  cases l.rest <;> rfl

theorem rest_run_ready {l : RxLog} {cs : List Cycle} (hcs : ∀ c ∈ cs, c.valid ∧ c.ready)
    (hlen : l.rest.length ≤ cs.length) : (run RxLog.step l cs).rest = [] := by
  induction cs generalizing l with
  | nil => exact List.length_eq_zero_iff.mp (Nat.le_zero.mp hlen)
  | cons c cs ih =>
    obtain ⟨⟨hvalid, hready⟩, hcs⟩ := List.forall_mem_cons.mp hcs
    apply ih hcs
    rw [length_rest_step l hvalid hready]
    rw [List.length_cons] at hlen
    omega

/-- **Header stripping**, for every pattern of gaps and of back-pressure. -/
theorem handled_strips (s : HeaderHandler) (ps : List RxPacket) (cs : List Cycle) :
    Strips ps (handled s ps cs) := by
  have hstart : Reads s.reset ps ⟨s.reset, ps.flatMap RxPacket.words, [], []⟩ := ⟨⟨rfl, rfl, rfl⟩⟩
  have hstep : ∀ l c, Reads s.reset ps l → Reads s.reset ps (l.step c) := fun _ c h ↦ h.step c
  have hreads : Reads s.reset ps (handled s ps cs) := run_invariant hstep hstart cs
  have hapart := hreads.hasRead.keepsApart (fun p _ s h ↦ takes_packet p s h) ⟨rfl, rfl⟩
  refine ⟨?_, hapart.out, fun qs rs hps hrest ↦ (hapart.between qs rs hps hrest).1, ?_⟩
  · exact hreads.hasRead.split
  · exact fun cs hcs hlen ↦ rest_run_ready hcs hlen

end FpgaOs.Memcached
