import FpgaOs.AppRdma.HandleWrite
import FpgaOs.AppRdma.Parser
import FpgaOs.Lib.Moments

/-!
# `app_rdma` as a whole

The four functions of `app_rdma` run side by side. `parser` writes read requests, write requests and
the data of writes to three streams, `handle_read` and `handle_write` take them from there, and
`merger` hands the replies to the network. The two handlers share DRAM and nothing keeps them in
step: a reply is put together while later writes, and earlier ones, are still being stored.

So a read does not see DRAM at one moment. What holds is that each unit of the reply stream is the
unit that would stand there had DRAM always been what it was when the unit was put out, that DRAM is
at any time what the units stored so far make of it, in the order of the write packets, and that the
moments do not go back. If no write touches what is read, the replies are those of the DRAM at the
start.
-/

namespace FpgaOs.AppRdma

open Machine Process Feed Rdm

/-! ## The code -/

namespace Emitted

def readReq? : Emitted → Option Request
  | .readReq req => some req
  | _ => none

def writeReq? : Emitted → Option Request
  | .writeReq req => some req
  | _ => none

def writeData? : Emitted → Option NetAxis
  | .writeData d => some d
  | _ => none

end Emitted

/-- The streams of `app_rdma` and the state of its functions. Units in `fromNet` have not arrived;
DRAM is part of `handleWrite`. -/
structure Service where
  fromNet : List NetAxis
  netQueue : List NetAxis := []
  parser : Parser := {}
  reqRead : List Request := []
  reqWrite : List Request := []
  dataWrite : List NetAxis := []
  handleRead : HandleRead := {}
  dataRead : List NetAxis := []
  handleWrite : HandleWrite
  toNet : List NetAxis := []

/-- A unit arrives, or one of the functions is called. -/
inductive Service.Event
  | arrive
  | parser
  | handleRead (user : BitVec 64)
  | handleWrite
  | merger

namespace Service

/-- The two streams that `handle_write` reads. -/
def writeQueue (s : Service) : ∀ i : WriteStream, List i.Carries
  | .req => s.reqWrite
  | .data => s.dataWrite

def step (s : Service) : Event → Service
  | .arrive =>
    match s.fromNet with
    | [] => s
    | u :: us => { s with fromNet := us, netQueue := s.netQueue ++ [u] }
  | .parser =>
    match s.netQueue with
    | [] => s
    | u :: us =>
      let result := s.parser.read u
      { s with netQueue := us
               parser := result.1
               reqRead := s.reqRead ++ result.2.filterMap Emitted.readReq?
               reqWrite := s.reqWrite ++ result.2.filterMap Emitted.writeReq?
               dataWrite := s.dataWrite ++ result.2.filterMap Emitted.writeData? }
  | .handleRead user =>
    let result :=
      (AppRdma.handleRead s.handleWrite.dram).call (fun _ ↦ s.reqRead) s.handleRead user
    { s with reqRead := result.1 ()
             handleRead := result.2.1
             dataRead := s.dataRead ++ result.2.2 }
  | .handleWrite =>
    let result := AppRdma.handleWrite.call s.writeQueue s.handleWrite ()
    { s with reqWrite := result.1 .req
             dataWrite := result.1 .data
             handleWrite := result.2.1 }
  | .merger =>
    match s.dataRead with
    | [] => s
    | current :: rest => { s with dataRead := rest, toNet := s.toNet ++ [current] }

/-- The service before anything has arrived. -/
def init (dram : Dram) (ps : List RawPacket) : Service where
  fromNet := ps.flatMap RawPacket.units
  handleWrite := { dram }

/-- No function has anything to do. -/
structure Quiet (s : Service) : Prop where
  netQueue : s.netQueue = []
  handleRead : s.handleRead.readState = .idle ∧ s.reqRead = []
  handleWrite : ∃ i, AppRdma.handleWrite.wants s.handleWrite = some i ∧ s.writeQueue i = []
  dataRead : s.dataRead = []

/-- Every function is called once. -/
def round (user : BitVec 64) : List Event := [.parser, .handleRead user, .handleWrite, .merger]

end Service

/-! ## What is expected -/

/-- The read requests in a sequence of packets. -/
def reads (ps : List RawPacket) : List Request :=
  (ps.filter fun p ↦ p.app.opcode = opcodeRead ∧ p.rest = []).map request

/-- The write that a packet asks for. -/
def writeOf (p : RawPacket) : Option Write :=
  if h : p.app.opcode = opcodeWrite ∧ p.rest ≠ [] then
    some ⟨request p, p.rest, ((marked_rest p).resolve_left fun hnil ↦ h.2 hnil.1).2.2⟩
  else none

def writes (ps : List RawPacket) : List Write := ps.filterMap writeOf

/-- The units that are stored at consecutive indices. -/
def unitStores (index : BitVec 32) : List NetAxis → List (BitVec 32 × BitVec 512)
  | [] => []
  | d :: ds => (index, d.data) :: unitStores (index + 1) ds

/-- What a write to an aligned address stores, unit by unit. -/
def Write.stores (w : Write) : List (BitVec 32 × BitVec 512) :=
  unitStores (BitVec.ofNat 32 (w.req.address.toNat / 64)) (w.payload.take (unitsOf w.req.length))

def storeUnit (dram : Dram) (x : BitVec 32 × BitVec 512) : Dram := Function.update dram x.1 x.2

/-- DRAM after the first `n` units of the writes have been stored. -/
def dramAfter (dram : Dram) (ws : List Write) (n : ℕ) : Dram :=
  ((ws.flatMap Write.stores).take n).foldl storeUnit dram

/-! ## The handlers with what is still to come -/

namespace Service

variable (s : Service)

/-- What the parser will still make of the packets. -/
def pending : List Emitted := emits Parser.read s.parser (s.netQueue ++ s.fromNet)

/-- The read handler with all requests that it has not read. -/
def readView : View (fun _ : Unit ↦ Request) HandleRead NetAxis :=
  ⟨fun _ ↦ s.reqRead ++ s.pending.filterMap Emitted.readReq?, s.handleRead, s.toNet ++ s.dataRead⟩

/-- What will still be written to the streams of the write handler. -/
def writePending : ∀ i : WriteStream, List i.Carries
  | .req => s.pending.filterMap Emitted.writeReq?
  | .data => s.pending.filterMap Emitted.writeData?

/-- The write handler with all units that it has not read. -/
def writeView : View WriteStream.Carries HandleWrite Empty :=
  ⟨fun i ↦ s.writeQueue i ++ s.writePending i, s.handleWrite, []⟩

/-- What a step does to the handlers: nothing, or a call of one of them when everything is there. -/
inductive Moves (s s' : Service) : Prop
  | wait (read : s'.readView = s.readView) (write : s'.writeView = s.writeView)
  | read (user : BitVec 64) (write : s'.writeView = s.writeView)
    (read : s'.readView = (AppRdma.handleRead s.handleWrite.dram).next s.readView user)
  | write (read : s'.readView = s.readView)
    (write : s'.writeView = AppRdma.handleWrite.next s.writeView ())

section Moves

variable {s}

theorem moves_of_eq {s' : Service} (hpending : s'.pending = s.pending)
    (hreqRead : s'.reqRead = s.reqRead) (hwriteQueue : s'.writeQueue = s.writeQueue)
    (hhandleRead : s'.handleRead = s.handleRead) (hhandleWrite : s'.handleWrite = s.handleWrite)
    (hout : s'.toNet ++ s'.dataRead = s.toNet ++ s.dataRead) : Moves s s' := by
  refine .wait ?_ ?_
  · rw [readView, readView, hpending, hreqRead, hhandleRead, hout]
  · rw [writeView, writeView, hwriteQueue, hhandleWrite]
    congr 1
    funext i
    cases i <;> rw [writePending, writePending, hpending]

theorem views_parsed (s : Service) : (s.step .parser).readView = s.readView
    ∧ (s.step .parser).writeView = s.writeView := by
  rw [step]
  split
  · exact ⟨rfl, rfl⟩
  · next u us hqueue =>
    -- what was pending of this unit is now in the queues
    have hmove : ∀ {β : Type} (f : Emitted → Option β) (queue : List β),
        queue ++ (s.parser.read u).2.filterMap f
          ++ (emits Parser.read (s.parser.read u).1 (us ++ s.fromNet)).filterMap f
          = queue ++ s.pending.filterMap f := by
      intro β f queue
      rw [pending, hqueue, List.cons_append, emits, List.filterMap_append, List.append_assoc]
    constructor
    · rw [readView, readView, ← hmove]
      rfl
    · rw [writeView, writeView]
      congr 1
      funext i
      cases i with
      | req => exact hmove Emitted.writeReq? s.reqWrite
      | data => exact hmove Emitted.writeData? s.dataWrite

/-- `handle_read` waits, or it does what it does when everything has arrived. -/
theorem handleRead_cases (s : Service) (user : BitVec 64) :
    (s.step (.handleRead user) = s
        ∧ ∃ i, (AppRdma.handleRead s.handleWrite.dram).wants s.handleRead = some i ∧ s.reqRead = [])
      ∨ ((s.step (.handleRead user)).readView
          = (AppRdma.handleRead s.handleWrite.dram).next s.readView user
        ∧ ¬(AppRdma.handleRead s.handleWrite.dram).Finished s.readView) := by
  obtain ⟨hcall, hwaits⟩ | hnext := call_cases (AppRdma.handleRead s.handleWrite.dram)
    (fun _ ↦ s.reqRead) (fun _ ↦ s.pending.filterMap Emitted.readReq?) s.handleRead
    (s.toNet ++ s.dataRead) user
  · refine .inl ⟨?_, hwaits⟩
    rw [step, hcall]
    dsimp only
    rw [List.append_nil]
  · rw [List.append_assoc] at hnext
    exact .inr hnext

theorem writeView_handleWrite (s : Service) :
    (s.step .handleWrite).writeView
      = ⟨fun i ↦ (AppRdma.handleWrite.call s.writeQueue s.handleWrite ()).1 i ++ s.writePending i,
        (AppRdma.handleWrite.call s.writeQueue s.handleWrite ()).2.1,
        [] ++ (AppRdma.handleWrite.call s.writeQueue s.handleWrite ()).2.2⟩ := by
  have hnone : [] ++ (AppRdma.handleWrite.call s.writeQueue s.handleWrite ()).2.2 = [] :=
    List.eq_nil_iff_forall_not_mem.mpr fun e ↦ e.elim
  rw [writeView, hnone]
  congr 1
  funext i
  cases i <;> rfl

/-- `handle_write` waits, or it does what it does when everything has arrived. -/
theorem handleWrite_cases (s : Service) :
    (s.step .handleWrite = s
        ∧ ∃ i, AppRdma.handleWrite.wants s.handleWrite = some i ∧ s.writeQueue i = [])
      ∨ ((s.step .handleWrite).writeView = AppRdma.handleWrite.next s.writeView ()
        ∧ ¬AppRdma.handleWrite.Finished s.writeView) := by
  obtain ⟨hcall, hwaits⟩ | hnext := call_cases AppRdma.handleWrite s.writeQueue s.writePending
    s.handleWrite [] ()
  · refine .inl ⟨?_, hwaits⟩
    rw [step, hcall]
    rfl
  · rw [← writeView_handleWrite] at hnext
    exact .inr hnext

/-- **What a step can do.** -/
theorem moves (s : Service) (e : Event) : Moves s (s.step e) := by
  cases e with
  | arrive =>
    rw [step]
    split
    · exact .wait rfl rfl
    · next u us hnet =>
      refine moves_of_eq ?_ rfl rfl rfl rfl rfl
      rw [pending, pending, hnet, List.append_assoc]
      rfl
  | parser => exact .wait (views_parsed s).1 (views_parsed s).2
  | handleRead user =>
    obtain ⟨hsame, -⟩ | ⟨hnext, -⟩ := handleRead_cases s user
    · rw [hsame]
      exact .wait rfl rfl
    · exact .read user rfl hnext
  | handleWrite =>
    obtain ⟨hsame, -⟩ | ⟨hnext, -⟩ := handleWrite_cases s
    · rw [hsame]
      exact .wait rfl rfl
    · exact .write rfl hnext
  | merger =>
    rw [step]
    split
    · exact .wait rfl rfl
    · next current rest hdata =>
      refine moves_of_eq rfl rfl rfl rfl rfl ?_
      rw [hdata, List.append_assoc]
      rfl

end Moves

end Service

/-! ## What has been stored -/

/-- The write handler has stored `done`, and stores the rest of `all` with what it has not read. In
a payload, the units from number `k` on pass the test of the code exactly up to number `m`. -/
inductive Storing (dram : Dram) (all done : List (BitVec 32 × BitVec 512))
    (v : View WriteStream.Carries HandleWrite Empty) : Prop
  | idle (ws : List Write) (state : v.st.writeState = .idle)
    (req : v.unread .req = ws.map Write.req) (data : v.unread .data = ws.flatMap Write.payload)
    (storable : ∀ w ∈ ws, Storable w.req.address w.req.length w.payload.length)
    (result : v.st.dram = done.foldl storeUnit dram) (rest : done ++ ws.flatMap Write.stores = all)
  | dataflow (ws : List Write) (ds : List NetAxis) (k m : ℕ) (state : v.st.writeState = .dataflow)
    (marked : Marked (fun d : NetAxis ↦ d.last = 1) ds) (req : v.unread .req = ws.map Write.req)
    (data : v.unread .data = ds ++ ws.flatMap Write.payload)
    (storable : ∀ w ∈ ws, Storable w.req.address w.req.length w.payload.length)
    (offset : v.st.offset = BitVec.ofNat 32 k)
    (test : ∀ j, k ≤ j → j < k + ds.length → (j % 2 ^ 32 < v.st.nrMaxUnits.toNat ↔ j < m))
    (result : v.st.dram = done.foldl storeUnit dram)
    (rest : done ++ (unitStores (v.st.startIndex + BitVec.ofNat 32 k) (ds.take (m - k))
      ++ ws.flatMap Write.stores) = all)

section Storing

variable {dram : Dram} {all done : List (BitVec 32 × BitVec 512)}
  {v : View WriteStream.Carries HandleWrite Empty}

theorem foldl_unitStores (index : BitVec 32) (dram : Dram) (ds : List NetAxis) :
    (unitStores index ds).foldl storeUnit dram = storeUnits index dram ds := by
  induction ds generalizing index dram with
  | nil => rfl
  | cons d ds ih => exact ih _ _

theorem foldl_stores {ws : List Write} (haligned : ∀ w ∈ ws, 64 ∣ w.req.address.toNat)
    (dram : Dram) :
    (ws.flatMap Write.stores).foldl storeUnit dram = ws.foldl Write.applied dram := by
  induction ws generalizing dram with
  | nil => rfl
  | cons w ws ih =>
    obtain ⟨hw, hws⟩ := List.forall_mem_cons.mp haligned
    rw [List.flatMap_cons, List.foldl_append, ih hws, Write.stores, foldl_unitStores,
      List.foldl_cons, Write.applied, if_pos hw]

/-- The test of the code in a payload that is storable. -/
theorem test_of_storable {w : Write} (h : Storable w.req.address w.req.length w.payload.length) :
    ∀ j, 0 ≤ j → j < 0 + w.payload.length →
      (j % 2 ^ 32 < ((w.req.length + 64 - 1) / 64).toNat ↔ j < unitsOf w.req.length) := by
  obtain ⟨-, hlen, hunits⟩ := h
  intro j _ hj
  rw [toNat_nrMaxUnits hlen]
  omega

/-- **A call stores the next unit, or none.** -/
theorem Storing.next (h : Storing dram all done v) (g : Unit) :
    ∃ more, Storing dram all (done ++ more) (handleWrite.next v g) := by
  cases h with
  | idle ws state req data storable result rest =>
    refine ⟨[], ?_⟩
    rw [List.append_nil]
    cases ws with
    | nil =>
      rw [next_of_finished ⟨.req, wants_idle state, req⟩]
      exact .idle [] state req data storable result rest
    | cons w ws =>
      obtain ⟨hw, hws⟩ := List.forall_mem_cons.mp storable
      obtain ⟨hst, hreq, hdata⟩ := next_req state req g
      have hindex := ofNat_index w.req.address 0
      rw [Nat.add_zero, BitVec.add_zero] at hindex
      refine .dataflow ws w.payload 0 (unitsOf w.req.length) ?_ w.marked hreq (hdata.trans data)
        hws ?_ ?_ ?_ ?_
      · rw [hst]
        exact if_pos ((umod_eq_zero_iff _).mpr hw.1)
      · rw [hst]
        rfl
      · rw [hst]
        exact test_of_storable hw
      · rw [hst]
        exact result
      · rw [hst, ← rest, List.flatMap_cons, Write.stores, hindex]
        rfl
  | dataflow ws ds k m state marked req data storable offset test result rest =>
    cases ds with
    | nil => exact marked.elim
    | cons d ds =>
      obtain ⟨hst, hdata, hreq⟩ := next_data state data g
      have hlen : k + (d :: ds).length = k + 1 + ds.length := by
        rw [List.length_cons]
        omega
      have htest := test k (Nat.le_refl k) (by rw [hlen]; omega)
      rw [← setWidth_lt_iff, ← offset] at htest
      -- the unit is stored if it is allowed; in both cases the rest of the payload goes on
      obtain ⟨more, hdram, hrest⟩ : ∃ more,
          (v.st.readData d).dram = (done ++ more).foldl storeUnit dram
            ∧ done ++ more ++ (unitStores (v.st.startIndex + BitVec.ofNat 32 (k + 1))
              (ds.take (m - (k + 1))) ++ ws.flatMap Write.stores) = all := by
        have hindex : v.st.startIndex + BitVec.ofNat 32 k + 1
            = v.st.startIndex + BitVec.ofNat 32 (k + 1) := by
          rw [BitVec.ofNat_add, BitVec.add_assoc]
          rfl
        by_cases hk : k < m
        · refine ⟨[(v.st.startIndex + BitVec.ofNat 32 k, d.data)], ?_, ?_⟩
          · rw [List.foldl_append, ← result, ← offset]
            exact if_pos (htest.mpr hk)
          · rw [← rest, show m - k = m - (k + 1) + 1 by omega, List.take_succ_cons, unitStores,
              hindex, List.append_assoc]
            rfl
        · refine ⟨[], ?_, ?_⟩
          · rw [List.append_nil, ← result]
            exact if_neg fun hlt ↦ hk (htest.mp hlt)
          · rw [← rest, show m - k = 0 by omega, show m - (k + 1) = 0 by omega, List.append_nil]
            rfl
      refine ⟨more, ?_⟩
      obtain ⟨rfl, hlast⟩ | ⟨hlast, hm⟩ := marked_cons.mp marked
      · refine .idle ws ?_ (hreq.trans req) hdata storable ?_ ?_
        · rw [hst]
          exact if_pos hlast
        · rw [hst]
          exact hdram
        · rw [← hrest, List.take_nil]
          rfl
      · refine .dataflow ws ds (k + 1) m ?_ hm (hreq.trans req) hdata storable ?_ ?_ ?_ ?_
        · rw [hst]
          exact (if_neg hlast).trans state
        · rw [hst, BitVec.ofNat_add, ← offset]
          rfl
        · rw [hst]
          exact fun j hj hlt ↦ test j (by omega) (by rw [hlen]; exact hlt)
        · rw [hst]
          exact hdram
        · rw [hst]
          exact hrest

theorem Storing.dram_eq (h : Storing dram all done v) : v.st.dram = done.foldl storeUnit dram := by
  cases h with
  | idle _ _ _ _ _ result _ => exact result
  | dataflow _ _ _ _ _ _ _ _ _ _ _ result _ => exact result

theorem Storing.prefix_all (h : Storing dram all done v) : done <+: all := by
  cases h with
  | idle _ _ _ _ _ _ rest => exact ⟨_, rest⟩
  | dataflow _ _ _ _ _ _ _ _ _ _ _ _ rest => exact ⟨_, rest⟩

theorem Storing.finished (h : Storing dram all done v) (hfin : handleWrite.Finished v) :
    done = all := by
  obtain ⟨i, hw, hunread⟩ := hfin
  cases h with
  | idle ws state req data storable result rest =>
    rw [wants_idle state] at hw
    obtain rfl := Option.some.inj hw
    obtain rfl := List.map_eq_nil_iff.mp (req.symm.trans hunread)
    rwa [List.flatMap_nil, List.append_nil] at rest
  | dataflow ws ds k m state marked req data storable offset test result rest =>
    rw [wants_dataflow state] at hw
    obtain rfl := Option.some.inj hw
    exact absurd (List.append_eq_nil_iff.mp (data.symm.trans hunread)).1 marked.ne_nil

end Storing

/-! ## The run -/

section Run

variable {dram : Dram} {ps : List RawPacket} {s : Service}

/-- DRAM decides only what the data of the replies are. -/
theorem storeOnly_handleRead : StoreOnly handleRead where
  wants _ _ _ := rfl
  work d d' s g := by
    obtain ⟨readState, offset, startIndex, address, length, req⟩ := s
    cases readState with
    | idle => exact ⟨rfl, rfl⟩
    | hdrEth => exact ⟨rfl, rfl⟩
    | hdrApp =>
      rw [handleRead, handleRead]
      dsimp only
      rw [HandleRead.work, HandleRead.work]
      exact ⟨rfl, rfl⟩
    | dataflow => exact ⟨rfl, rfl⟩
  read _ _ _ _ _ _ := ⟨rfl, rfl⟩

/-- A packet is a read, a write, or nothing. -/
theorem expected_cases (p : RawPacket) :
    (expected p = [.readReq (request p)] ∧ reads [p] = [request p] ∧ writeOf p = none)
      ∨ (reads [p] = [] ∧ ∃ w, writeOf p = some w
        ∧ expected p = .writeReq w.req :: w.payload.map .writeData)
      ∨ (expected p = [] ∧ reads [p] = [] ∧ writeOf p = none) := by
  rw [expected, reads, writeOf]
  by_cases hrd : p.app.opcode = opcodeRead
  · have hwr : ¬(p.app.opcode = opcodeWrite ∧ p.rest ≠ []) := by
      rw [hrd]
      exact fun h ↦ absurd h.1 (by decide)
    rw [dif_neg hwr, if_pos hrd]
    by_cases hrest : p.rest = []
    · exact .inl ⟨if_pos hrest, by simp [hrd, hrest], rfl⟩
    · exact .inr (.inr ⟨if_neg hrest, by simp [hrest], rfl⟩)
  have hreads : List.map request (List.filter
      (fun p : RawPacket ↦ decide (p.app.opcode = opcodeRead ∧ p.rest = [])) [p]) = [] := by
    simp [hrd]
  rw [if_neg hrd, hreads]
  by_cases hwr : p.app.opcode = opcodeWrite ∧ p.rest ≠ []
  · rw [dif_pos hwr, if_pos hwr.1, if_neg hwr.2]
    exact .inr (.inl ⟨rfl, _, rfl, rfl⟩)
  · rw [dif_neg hwr]
    refine .inr (.inr ⟨?_, rfl, rfl⟩)
    by_cases hop : p.app.opcode = opcodeWrite
    · rw [if_pos hop, if_pos (not_not.mp fun hrest ↦ hwr ⟨hop, hrest⟩)]
    · rw [if_neg hop]

theorem reads_cons (p : RawPacket) (ps : List RawPacket) :
    reads (p :: ps) = reads [p] ++ reads ps := by
  rw [reads, reads, reads, ← List.map_append, ← List.filter_append]
  rfl

theorem writes_cons (p : RawPacket) (ps : List RawPacket) :
    writes (p :: ps) = (writeOf p).toList ++ writes ps := by
  rw [writes, writes, List.filterMap_cons]
  split
  · next h => rw [h]; rfl
  · next h => rw [h]; rfl

theorem filterMap_expected (ps : List RawPacket) :
    (ps.flatMap expected).filterMap Emitted.readReq? = reads ps
      ∧ (ps.flatMap expected).filterMap Emitted.writeReq? = (writes ps).map Write.req
      ∧ (ps.flatMap expected).filterMap Emitted.writeData?
        = (writes ps).flatMap Write.payload := by
  induction ps with
  | nil => exact ⟨rfl, rfl, rfl⟩
  | cons p ps ih =>
    obtain ⟨hread, hreq, hdata⟩ := ih
    rw [List.flatMap_cons, List.filterMap_append, List.filterMap_append, List.filterMap_append,
      reads_cons, writes_cons, List.map_append, List.flatMap_append, hread, hreq, hdata]
    obtain ⟨hout, hreads, hwrite⟩ | ⟨hreads, w, hwrite, hout⟩ | ⟨hout, hreads, hwrite⟩ :=
      expected_cases p
    · rw [hout, hreads, hwrite]
      exact ⟨rfl, rfl, rfl⟩
    · have hdatas : w.payload.filterMap (Emitted.writeData? ∘ Emitted.writeData) = w.payload :=
        List.filterMap_some
      have hnone : ∀ ds : List NetAxis,
          ds.filterMap (fun _ ↦ (none : Option Request)) = [] := fun ds ↦ by simp
      rw [hout, hreads, hwrite, List.filterMap_cons, List.filterMap_cons, List.filterMap_cons,
        List.filterMap_map, List.filterMap_map, List.filterMap_map, hdatas]
      simp only [Emitted.readReq?, Emitted.writeReq?, Emitted.writeData?, Function.comp_def, hnone,
        Option.toList_some, List.map_cons, List.map_nil, List.flatMap_cons, List.flatMap_nil,
        List.append_nil, and_self]
    · rw [hout, hreads, hwrite]
      exact ⟨rfl, rfl, rfl⟩

/-- The read handler with all read requests. -/
def readStart (ps : List RawPacket) : View (fun _ : Unit ↦ Request) HandleRead NetAxis :=
  ⟨fun _ ↦ reads ps, {}, []⟩

/-- What holds in every state: units have been stored in order, and the reply stream is put together
from the moments of DRAM. -/
def Serving (dram : Dram) (ps : List RawPacket) (s : Service) : Prop :=
  ∃ done gs τ, Storing dram ((writes ps).flatMap Write.stores) done s.writeView
    ∧ Moments handleRead (dramAfter dram (writes ps)) (readStart ps) done.length s.readView gs τ

theorem dramAfter_length {done : List (BitVec 32 × BitVec 512)}
    (h : done <+: (writes ps).flatMap Write.stores) (dram : Dram) :
    dramAfter dram (writes ps) done.length = done.foldl storeUnit dram := by
  rw [dramAfter, ← List.prefix_iff_eq_take.mp h]

theorem serving_init (hfits : ∀ p ∈ ps, Fits p)
    (hstorable : ∀ w ∈ writes ps, Storable w.req.address w.req.length w.payload.length)
    (dram : Dram) : Serving dram ps (.init dram ps) := by
  have hpending : (Service.init dram ps).pending = ps.flatMap expected :=
    (takes_all (fun p hp st hst ↦ (fits_iff_takes p st hst).mp (hfits p hp))
      (⟨rfl, rfl⟩ : Parser.Ready {})).2
  obtain ⟨hread, hreq, hdata⟩ := filterMap_expected ps
  refine ⟨[], [], fun _ ↦ 0, .idle (writes ps) rfl ?_ ?_ hstorable rfl rfl, ?_⟩
  · rw [← hreq, ← hpending]
    rfl
  · rw [← hdata, ← hpending]
    rfl
  · have hview : (Service.init dram ps).readView = readStart ps := by
      rw [readStart, ← hread, ← hpending]
      rfl
    rw [hview]
    exact moments_start ..

/-- **What a step keeps.** -/
theorem Serving.step (h : Serving dram ps s) (e : Service.Event) : Serving dram ps (s.step e) := by
  obtain ⟨done, gs, τ, hstoring, hmoments⟩ := h
  obtain ⟨hread, hwrite⟩ | ⟨user, hwrite, hread⟩ | ⟨hread, hwrite⟩ := s.moves e
  · exact ⟨done, gs, τ, by rwa [hwrite], by rwa [hread]⟩
  · -- the handler reads DRAM as it is now
    have hdram : s.handleWrite.dram = dramAfter dram (writes ps) done.length := by
      rw [dramAfter_length hstoring.prefix_all]
      exact hstoring.dram_eq
    have hcall := hmoments.call storeOnly_handleRead user
    rw [← hdram, ← hread] at hcall
    exact ⟨done, _, _, by rwa [hwrite], hcall⟩
  · obtain ⟨more, hmore⟩ := hstoring.next ()
    refine ⟨done ++ more, gs, τ, by rwa [hwrite], ?_⟩
    rw [hread]
    exact hmoments.later (by rw [List.length_append]; exact Nat.le_add_right _ _)

theorem serving_run (hfits : ∀ p ∈ ps, Fits p)
    (hstorable : ∀ w ∈ writes ps, Storable w.req.address w.req.length w.payload.length)
    (dram : Dram) (es : List Service.Event) :
    Serving dram ps (run Service.step (.init dram ps) es) :=
  run_invariant (fun _ e h ↦ h.step e) (serving_init hfits hstorable dram) es

theorem owes_run (dram : Dram) (ps : List RawPacket) (gs : List (BitVec 64)) :
    Owes dram (reads ps) (run (handleRead dram).next (readStart ps) gs) :=
  @run_invariant _ _ _ (Owes dram (reads ps)) owes_next _
    (owes_start dram (reads ps)) gs

/-- What has been put out is a part of the replies of one moment. -/
theorem prefix_replies (dram : Dram) (ps : List RawPacket) (gs : List (BitVec 64)) :
    (run (handleRead dram).next (readStart ps) gs).out.map noUser
      <+: ((reads ps).flatMap (reply dram)).map noUser := by
  have htotal := (owes_run dram ps gs).total
  rw [List.map_append] at htotal
  exact ⟨_, htotal⟩

theorem replies_of_finished {dram : Dram} {gs : List (BitVec 64)}
    (hfin : (handleRead dram).Finished (run (handleRead dram).next (readStart ps) gs)) :
    (run (handleRead dram).next (readStart ps) gs).out.map noUser
      = ((reads ps).flatMap (reply dram)).map noUser := by
  obtain ⟨i, hw, hunread⟩ := hfin
  have htotal := (owes_run dram ps gs).total
  rwa [owed_idle (idle_of_wants hw), hunread, List.flatMap_nil, List.append_nil,
    List.append_nil] at htotal

theorem pending_of_nil (hnet : s.fromNet = []) (hqueue : s.netQueue = []) : s.pending = [] := by
  rw [Service.pending, hnet, hqueue]
  rfl

theorem views_of_pending_nil (h : s.pending = []) :
    s.readView = ⟨fun _ ↦ s.reqRead, s.handleRead, s.toNet ++ s.dataRead⟩
      ∧ s.writeView = ⟨s.writeQueue, s.handleWrite, []⟩ := by
  rw [Service.readView, Service.writeView, h]
  refine ⟨by rw [List.filterMap_nil, List.append_nil], ?_⟩
  congr 1
  funext i
  cases i <;> rw [Service.writePending, h, List.filterMap_nil, List.append_nil]

/-! ## The service ends -/

/-- An upper bound of the calls that change something when everything has arrived. -/
def callsLeft (s : Service) : ℕ :=
  s.netQueue.length + (2 * remaining s.readView + s.dataRead.length) + unreadUnits s.writeView

/-- How many calls are to come is decided by the state and the unread requests. -/
theorem remaining_of_alike {v w : View (fun _ : Unit ↦ Request) HandleRead NetAxis}
    (h : v.Alike w) : remaining v = remaining w := by
  rw [remaining, remaining, h.st, h.unread]

theorem remaining_next_lt (h : Serving dram ps s) (user : BitVec 64)
    (hfin : ¬(handleRead s.handleWrite.dram).Finished s.readView) :
    remaining ((handleRead s.handleWrite.dram).next s.readView user) < remaining s.readView := by
  obtain ⟨done, gs, τ, -, hmoments⟩ := h
  have halike := hmoments.alike s.handleWrite.dram
  have hfin' : ¬(handleRead s.handleWrite.dram).Finished
      (run (handleRead s.handleWrite.dram).next (readStart ps) gs) := by
    rwa [Finished, ← halike.st, ← halike.unread]
  have hlt := ((owes_run s.handleWrite.dram ps gs).next hfin' user).2
  rwa [← remaining_of_alike halike, ← remaining_of_alike (storeOnly_handleRead.alike_next halike
    s.handleWrite.dram s.handleWrite.dram user)] at hlt

theorem length_dataRead_le (s : Service) (user : BitVec 64) :
    (s.step (.handleRead user)).dataRead.length ≤ s.dataRead.length + 1 := by
  have hone : ∀ (dram : Dram) (st : HandleRead), (st.work dram user).2.length ≤ 1 := by
    intro dram st
    obtain ⟨readState, offset, startIndex, address, length, req⟩ := st
    cases readState with
    | idle => exact Nat.zero_le _
    | hdrEth => exact Nat.le_refl _
    | hdrApp =>
      rw [HandleRead.work]
      dsimp only
      split <;> exact Nat.le_refl _
    | dataflow => exact Nat.le_refl _
  rw [Service.step]
  dsimp only
  rw [List.length_append]
  refine Nat.add_le_add_left ?_ _
  rw [call]
  split
  · exact hone _ _
  · split
    · exact Nat.zero_le _
    · exact Nat.zero_le _

/-- **A call that changes anything leaves fewer calls to come.** -/
theorem step_eq_or_lt (h : Serving dram ps s) {e : Service.Event} (he : e ≠ .arrive) :
    s.step e = s ∨ callsLeft (s.step e) < callsLeft s := by
  cases e with
  | arrive => exact absurd rfl he
  | parser =>
    obtain ⟨hread, hwrite⟩ := Service.views_parsed s
    match hqueue : s.netQueue with
    | [] => exact .inl (by rw [Service.step, hqueue])
    | u :: us =>
      have hlen : (s.step .parser).netQueue = us ∧ (s.step .parser).dataRead = s.dataRead := by
        rw [Service.step, hqueue]
        exact ⟨rfl, rfl⟩
      refine .inr ?_
      rw [callsLeft, callsLeft, hread, hwrite, hlen.1, hlen.2, hqueue, List.length_cons]
      omega
  | handleRead user =>
    obtain ⟨hsame, -⟩ | ⟨hnext, hfin⟩ := Service.handleRead_cases s user
    · exact .inl hsame
    · have hlt := remaining_next_lt h user hfin
      have hle := length_dataRead_le s user
      have hwrite : (s.step (.handleRead user)).writeView = s.writeView := rfl
      have hqueue : (s.step (.handleRead user)).netQueue = s.netQueue := rfl
      refine .inr ?_
      rw [callsLeft, callsLeft, hnext, hwrite, hqueue]
      omega
  | handleWrite =>
    obtain ⟨hsame, -⟩ | ⟨hnext, hfin⟩ := Service.handleWrite_cases s
    · exact .inl hsame
    · have hlt := unreadUnits_next hfin ()
      refine .inr ?_
      rw [callsLeft, callsLeft, hnext]
      exact Nat.add_lt_add_left hlt _
  | merger =>
    match hdata : s.dataRead with
    | [] => exact .inl (by rw [Service.step, hdata])
    | current :: rest =>
      have hstep : s.step .merger = { s with dataRead := rest, toNet := s.toNet ++ [current] } := by
        rw [Service.step, hdata]
      refine .inr ?_
      rw [callsLeft, callsLeft, hstep, hdata, List.length_cons]
      exact Nat.add_lt_add_right (Nat.add_lt_add_left (Nat.lt_succ_self _) _) _

theorem quiet_of_still (hs : Serving dram ps s) {user : BitVec 64}
    (h : ∀ e ∈ Service.round user, s.step e = s) : s.Quiet where
  netQueue := by
    have hstep := congrArg Service.netQueue (h .parser (by simp [Service.round]))
    match hqueue : s.netQueue with
    | [] => rfl
    | u :: us =>
      rw [Service.step, hqueue] at hstep
      exact absurd hstep.symm (List.cons_ne_self u us)
  handleRead := by
    obtain ⟨-, i, hw, hqueue⟩ | ⟨hnext, hfin⟩ := Service.handleRead_cases s user
    · exact ⟨idle_of_wants hw, hqueue⟩
    · have hlt := remaining_next_lt hs user hfin
      rw [← hnext, h (.handleRead user) (by simp [Service.round])] at hlt
      exact absurd hlt (Nat.lt_irrefl _)
  handleWrite := by
    obtain ⟨-, hwaits⟩ | ⟨hnext, hfin⟩ := Service.handleWrite_cases s
    · exact hwaits
    · have hlt := unreadUnits_next hfin ()
      rw [← hnext, h .handleWrite (by simp [Service.round])] at hlt
      exact absurd hlt (Nat.lt_irrefl _)
  dataRead := by
    have hstep := congrArg Service.dataRead (h .merger (by simp [Service.round]))
    match hdata : s.dataRead with
    | [] => rfl
    | current :: rest =>
      rw [Service.step, hdata] at hstep
      exact absurd hstep.symm (List.cons_ne_self current rest)

theorem run_eq_or_lt {es : List Service.Event} (h : Serving dram ps s)
    (hes : ∀ e ∈ es, e ≠ .arrive) :
    (run Service.step s es = s ∧ ∀ e ∈ es, s.step e = s)
      ∨ callsLeft (run Service.step s es) < callsLeft s := by
  induction es generalizing s with
  | nil => exact .inl ⟨rfl, List.forall_mem_nil _⟩
  | cons e es ih =>
    obtain ⟨he, hes⟩ := List.forall_mem_cons.mp hes
    rw [run_cons]
    obtain hsame | hlt := step_eq_or_lt h he
    · rw [hsame]
      obtain ⟨hrun, hstill⟩ | hlt := ih h hes
      · exact .inl ⟨hrun, List.forall_mem_cons.mpr ⟨hsame, hstill⟩⟩
      · exact .inr hlt
    · refine .inr ?_
      obtain ⟨hrun, -⟩ | hlt' := ih (h.step e) hes
      · rwa [hrun]
      · exact hlt'.trans hlt

theorem not_arrive_of_mem_round {user : BitVec 64} {e : Service.Event}
    (he : e ∈ Service.round user) : e ≠ .arrive := by
  rintro rfl
  simp [Service.round] at he

theorem step_of_quiet (h : s.Quiet) {e : Service.Event} (he : e ≠ .arrive) : s.step e = s := by
  cases e with
  | arrive => exact absurd rfl he
  | parser => rw [Service.step, h.netQueue]
  | handleRead user =>
    obtain ⟨hidle, hqueue⟩ := h.handleRead
    rw [Service.step, call_of_nil (i := ()) (if_pos hidle) hqueue]
    dsimp only
    rw [List.append_nil]
  | handleWrite =>
    obtain ⟨i, hw, hqueue⟩ := h.handleWrite
    rw [Service.step, call_of_nil hw hqueue]
    rfl
  | merger => rw [Service.step, h.dataRead]

theorem run_of_quiet (h : s.Quiet) {es : List Service.Event} (hes : ∀ e ∈ es, e ≠ .arrive) :
    run Service.step s es = s := by
  induction es with
  | nil => rfl
  | cons e es ih =>
    obtain ⟨he, hes⟩ := List.forall_mem_cons.mp hes
    rw [run_cons, step_of_quiet h he, ih hes]

/-- **Termination.** As many rounds as there are calls to come make the service quiet, once it is
quiet it stays so. -/
theorem quiet_of_rounds (h : Serving dram ps s) {users : List (BitVec 64)}
    (hlen : callsLeft s < users.length) :
    (run Service.step s (users.flatMap Service.round)).Quiet := by
  induction users generalizing s with
  | nil => exact absurd hlen (Nat.not_lt_zero _)
  | cons user users ih =>
    rw [List.flatMap_cons, run_append]
    have hround := run_eq_or_lt h fun e (he : e ∈ Service.round user) ↦ not_arrive_of_mem_round he
    have hserving : Serving dram ps (run Service.step s (Service.round user)) :=
      run_invariant (fun _ e h ↦ h.step e) h _
    rw [List.length_cons] at hlen
    obtain ⟨hrun, hstill⟩ | hlt := hround
    · have hquiet := quiet_of_still h hstill
      rw [hrun, run_of_quiet hquiet]
      · exact hquiet
      · intro e he
        obtain ⟨user', -, he⟩ := List.mem_flatMap.mp he
        exact not_arrive_of_mem_round he
    · exact ih hserving (by omega)

/-! ## What is served -/

/-- Every unit of the reply stream stands there as it would if DRAM had always been what it was at a
moment that is not before the one of the unit before it, and DRAM is what the units stored so far
make of it. When the service is quiet all replies are there and everything is stored, and it becomes
quiet. -/
structure Serves (dram : Dram) (ps : List RawPacket) (s : Service) : Prop where
  replies : ∃ (n : ℕ) (τ : ℕ → ℕ), Monotone τ ∧ (∀ p, τ p ≤ n)
    ∧ s.handleWrite.dram = dramAfter dram (writes ps) n
    ∧ ∀ p < s.toNet.length, (s.toNet.map noUser)[p]?
      = (((reads ps).flatMap (reply (dramAfter dram (writes ps) (τ p)))).map noUser)[p]?
  quiet : s.fromNet = [] → s.Quiet → s.handleWrite.dram = (writes ps).foldl Write.applied dram
    ∧ s.toNet.length = ((reads ps).flatMap (reply dram)).length
  ends : s.fromNet = [] → ∃ n, ∀ users : List (BitVec 64), n ≤ users.length →
    (run Service.step s (users.flatMap Service.round)).Quiet

theorem serves_of_serving
    (hstorable : ∀ w ∈ writes ps, Storable w.req.address w.req.length w.payload.length)
    {dram : Dram} (hserving : Serving dram ps s) : Serves dram ps s := by
  have hcopy := hserving
  obtain ⟨done, gs, τ, hstoring, hmoments⟩ := hcopy
  have hdram : s.handleWrite.dram = dramAfter dram (writes ps) done.length := by
    rw [dramAfter_length hstoring.prefix_all]
    exact hstoring.dram_eq
  refine ⟨⟨done.length, τ, hmoments.mono, hmoments.le, hdram, fun p hp ↦ ?_⟩, ?_, ?_⟩
  · -- the unit is put out by a handler with the DRAM of its moment, which puts out those replies
    obtain ⟨rest, hrest⟩ := prefix_replies (dramAfter dram (writes ps) (τ p)) ps gs
    have hout := hmoments.out p
    have hview : s.readView.out[p]? = s.toNet[p]? := List.getElem?_append_left hp
    have hlt : p < (run (handleRead (dramAfter dram (writes ps) (τ p))).next (readStart ps)
        gs).out.length := by
      rw [← (hmoments.alike _).length]
      exact hp.trans_le (by simp [Service.readView])
    rw [← hrest, List.getElem?_append_left (by rwa [List.length_map]), List.getElem?_map,
      List.getElem?_map, ← hview, hout]
  · intro hnet hquiet
    have hpending := pending_of_nil hnet hquiet.netQueue
    obtain ⟨hread, hwrite⟩ := views_of_pending_nil hpending
    constructor
    · obtain ⟨i, hw, hqueue⟩ := hquiet.handleWrite
      have hdone : done = _ := hstoring.finished (by rw [hwrite]; exact ⟨i, hw, hqueue⟩)
      rw [hdram, dramAfter_length hstoring.prefix_all, hdone, foldl_stores]
      exact fun w hw ↦ (hstorable w hw).1
    · have halike := hmoments.alike dram
      have hfin : (handleRead dram).Finished (run (handleRead dram).next (readStart ps) gs) := by
        rw [Finished, ← halike.st, ← halike.unread, hread]
        exact ⟨(), if_pos hquiet.handleRead.1, hquiet.handleRead.2⟩
      have hlen := congrArg List.length (replies_of_finished hfin)
      rw [List.length_map, List.length_map, ← halike.length, hread, hquiet.dataRead] at hlen
      rwa [List.append_nil] at hlen
  · exact fun _ ↦ ⟨callsLeft s + 1, fun users hlen ↦ quiet_of_rounds hserving hlen⟩

/-- **The service.** If the packets are read as they are meant and the writes are stored as they are
meant, `app_rdma` serves them under every schedule of arrivals and calls. -/
theorem serves_of_fits (hfits : ∀ p ∈ ps, Fits p)
    (hstorable : ∀ w ∈ writes ps, Storable w.req.address w.req.length w.payload.length)
    (dram : Dram) (es : List Service.Event) :
    Serves dram ps (run Service.step (.init dram ps) es) :=
  serves_of_serving hstorable (serving_run hfits hstorable dram es)

/-! ## Reads of other memory -/

/-- No write stores anything at an index that is read. -/
def Untouched (ps : List RawPacket) : Prop :=
  ∀ req ∈ reads ps, ∀ x ∈ (writes ps).flatMap Write.stores, ∀ i < req.length.toNat / 64,
    x.1 ≠ BitVec.ofNat 32 (req.address.toNat / 64 + i)

theorem foldl_storeUnit_apply {xs : List (BitVec 32 × BitVec 512)} {i : BitVec 32}
    (h : ∀ x ∈ xs, x.1 ≠ i) (dram : Dram) : xs.foldl storeUnit dram i = dram i := by
  induction xs generalizing dram with
  | nil => rfl
  | cons x xs ih =>
    obtain ⟨hx, hxs⟩ := List.forall_mem_cons.mp h
    rw [List.foldl_cons, ih hxs, storeUnit, Function.update_of_ne hx.symm]

theorem reply_dramAfter (h : Untouched ps) (dram : Dram) (n : ℕ) {req : Request}
    (hreq : req ∈ reads ps) : reply (dramAfter dram (writes ps) n) req = reply dram req := by
  rw [reply, reply]
  congr 1
  split
  · rfl
  · congr 1
    apply List.map_congr_left
    intro i hi
    have hdata : dramAfter dram (writes ps) n (BitVec.ofNat 32 (req.address.toNat / 64 + i))
        = dram (BitVec.ofNat 32 (req.address.toNat / 64 + i)) :=
      foldl_storeUnit_apply
        (fun x hx ↦ h req hreq x (List.mem_of_mem_take hx) i (List.mem_range.mp hi)) dram
    rw [dataUnit, dataUnit, hdata]

theorem replies_dramAfter (h : Untouched ps) (dram : Dram) (n : ℕ) :
    (reads ps).flatMap (reply (dramAfter dram (writes ps) n)) = (reads ps).flatMap (reply dram) :=
  List.flatMap_congr fun _ hreq ↦ reply_dramAfter h dram n hreq

/-- **Isolation.** Writes to other memory do not show in the replies, whatever the schedule. -/
theorem prefix_of_untouched (hfits : ∀ p ∈ ps, Fits p)
    (hstorable : ∀ w ∈ writes ps, Storable w.req.address w.req.length w.payload.length)
    (huntouched : Untouched ps) (dram : Dram) (es : List Service.Event) :
    (run Service.step (.init dram ps) es).toNet.map noUser
      <+: ((reads ps).flatMap (reply dram)).map noUser := by
  obtain ⟨n, τ, -, -, -, hunits⟩ := (serves_of_serving hstorable
    (serving_run hfits hstorable dram es)).replies
  rw [List.prefix_iff_getElem?]
  intro p hp
  rw [← List.getElem?_eq_getElem hp, hunits p (by rwa [List.length_map] at hp),
    replies_dramAfter huntouched]

end Run

/-! ## A read beside a write -/

/-- A `READ` of the unit at address 0. -/
def readPacket : RawPacket where
  eth := {}
  app := { data := BitVec.ofNat 512 (64 * 2 ^ 72), last := 1 }
  rest := []
  marked := by decide

/-- A `WRITE` of a unit to address 64. -/
def writePacket : RawPacket where
  eth := {}
  app := { data := BitVec.ofNat 512 (1 + 64 * 2 ^ 8 + 64 * 2 ^ 72) }
  rest := [{ data := 7, last := 1 }]
  marked := by decide

theorem opcode_readPacket : readPacket.app.opcode = opcodeRead := by decide +kernel

theorem opcode_writePacket : writePacket.app.opcode = opcodeWrite := by decide +kernel

theorem fits_readPacket : Fits readPacket := .inl opcode_readPacket

theorem fits_writePacket : Fits writePacket :=
  .inr (.inl ⟨opcode_writePacket, List.cons_ne_nil _ _⟩)

theorem reads_packets : reads [writePacket, readPacket] = [request readPacket] := by
  rw [reads, List.filter_cons_of_neg, List.filter_cons_of_pos, List.filter_nil, List.map_singleton]
  · exact decide_eq_true ⟨opcode_readPacket, rfl⟩
  · rw [opcode_writePacket]
    decide

theorem writes_packets : ∃ w, writes [writePacket, readPacket] = [w]
    ∧ w.req = request writePacket ∧ w.payload = writePacket.rest := by
  have hwrite : writePacket.app.opcode = opcodeWrite ∧ writePacket.rest ≠ [] :=
    ⟨opcode_writePacket, List.cons_ne_nil _ _⟩
  have hread : ¬(readPacket.app.opcode = opcodeWrite ∧ readPacket.rest ≠ []) :=
    fun h ↦ h.2 rfl
  rw [writes_cons, writes_cons, writeOf, writeOf, dif_pos hwrite, dif_neg hread]
  exact ⟨_, rfl, rfl, rfl⟩

theorem storable_writePacket :
    ∀ w ∈ writes [writePacket, readPacket],
      Storable w.req.address w.req.length w.payload.length := by
  obtain ⟨w, hws, hreq, hpayload⟩ := writes_packets
  intro w' hw
  rw [hws] at hw
  rw [List.mem_singleton.mp hw, hreq, hpayload]
  exact ⟨by decide +kernel, by decide +kernel, .inl (by decide +kernel)⟩

/-- Everything arrives, and the functions are called until the reply is out. -/
def oneByOne : List Service.Event :=
  List.replicate 5 .arrive ++ (List.replicate 9 0).flatMap Service.round

/-- The service on a write and a read. -/
theorem serves_writePacket_readPacket :
    Serves (fun _ ↦ 0) [writePacket, readPacket]
        (run Service.step (.init (fun _ ↦ 0) [writePacket, readPacket]) oneByOne)
      ∧ (run Service.step (.init (fun _ ↦ 0) [writePacket, readPacket]) oneByOne).toNet.length
        = 3 :=
  ⟨serves_of_fits (by simp [fits_readPacket, fits_writePacket]) storable_writePacket _ _,
    by decide +kernel⟩

theorem untouched_writePacket : Untouched [writePacket, readPacket] := by
  obtain ⟨w, hws, hreq, hpayload⟩ := writes_packets
  intro req hreq' x hx i hi
  rw [reads_packets] at hreq'
  rw [hws, List.flatMap_singleton, Write.stores, hreq, hpayload] at hx
  obtain rfl := List.mem_singleton.mp hreq'
  have hone : (request readPacket).length.toNat / 64 = 1 := by decide +kernel
  have hstores : unitStores (BitVec.ofNat 32 ((request writePacket).address.toNat / 64))
      (writePacket.rest.take (unitsOf (request writePacket).length)) = [(1, 7)] := by
    decide +kernel
  rw [hstores] at hx
  obtain rfl := List.mem_singleton.mp hx
  obtain rfl : i = 0 := Nat.lt_one_iff.mp (hone ▸ hi)
  decide +kernel

/-- The read does not see the write. -/
theorem prefix_writePacket_readPacket :
    (run Service.step (.init (fun _ ↦ 0) [writePacket, readPacket]) oneByOne).toNet.map noUser
      <+: ((reads [writePacket, readPacket]).flatMap (reply fun _ ↦ 0)).map noUser :=
  prefix_of_untouched (by simp [fits_readPacket, fits_writePacket]) storable_writePacket
    untouched_writePacket _ _

end FpgaOs.AppRdma
