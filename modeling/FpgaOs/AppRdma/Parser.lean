import FpgaOs.Rdm.Framing

/-!
# The parser of `app_rdma`

`app_rdma` reads the same packets as the remote-memory service. Its parser knows only `READ` and
`WRITE`. It skips the units that a `READ` should not have, and it takes the data of a `WRITE` up to
`last`. A packet with another opcode it leaves at the first data unit, wherever the packet ends, and
unless `last` is set on the headers of a `READ` it waits for a data unit after them. So a packet
with another opcode is skipped only if it has three units, or if what follows its third unit is
again skipped when it is read as a packet.
-/

namespace FpgaOs.AppRdma

open Feed Rdm

/-- `enum APP_RDMA_STATE`. -/
inductive ParserState
  | ethHeader
  | appHeader
  | invalidRead
  | appData
  deriving DecidableEq

/-- `struct request`. -/
structure Request where
  address : BitVec 64 := 0
  length : BitVec 64 := 0
  ethHeader : NetAxis := {}
  appHeader : NetAxis := {}
  deriving DecidableEq

/-- The static variables of `parser`. -/
structure Parser where
  appState : ParserState := .ethHeader
  req : Request := {}
  ethHeader : NetAxis := {}
  appHeader : NetAxis := {}
  opcode : BitVec 8 := 0
  writeReqPushed : Bool := false

/-- What is written to the streams `s_req_read`, `s_req_write` and `s_data_write`. -/
inductive Emitted
  | readReq (req : Request)
  | writeReq (req : Request)
  | writeData (d : NetAxis)
  deriving DecidableEq

/-- `parser` reads a unit. -/
def Parser.read (p : Parser) (current : NetAxis) : Parser × List Emitted :=
  match p.appState with
  | .ethHeader => ({ p with ethHeader := current, appState := .appHeader }, [])
  | .appHeader =>
    let req : Request := ⟨current.address, current.length, p.ethHeader, current⟩
    let p' := { p with appHeader := current, opcode := current.opcode, req := req }
    if current.opcode = opcodeRead then
      if current.last = 1 then ({ p' with appState := .ethHeader }, [.readReq req])
      else ({ p' with appState := .invalidRead }, [])
    else ({ p' with appState := .appData }, [])
  | .invalidRead =>
    ({ p with appState := if current.last = 1 then .ethHeader else .invalidRead }, [])
  | .appData =>
    let out : Parser × List Emitted :=
      if p.opcode = opcodeWrite then
        ({ p with writeReqPushed := true },
          (if p.writeReqPushed then [] else [.writeReq p.req]) ++ [.writeData current])
      else ({ p with appState := .ethHeader }, [])
    if current.last = 1 then ({ out.1 with writeReqPushed := false, appState := .ethHeader }, out.2)
    else out

/-- `parser` is ready for a packet. -/
structure Parser.Ready (p : Parser) : Prop where
  appState : p.appState = .ethHeader
  writeReqPushed : p.writeReqPushed = false

/-! ## What is expected of a packet -/

def request (p : RawPacket) : Request := ⟨p.app.address, p.app.length, p.eth, p.app⟩

/-- A `READ` of two units is a read request, a `WRITE` with data is a write request and its data,
and nothing is made of another packet. -/
def expected (p : RawPacket) : List Emitted :=
  if p.app.opcode = opcodeRead then if p.rest = [] then [.readReq (request p)] else []
  else if p.app.opcode = opcodeWrite then
    if p.rest = [] then [] else .writeReq (request p) :: p.rest.map .writeData
  else []

/-! ## Which packets are read so -/

/-- The parser makes nothing of the units and is ready after them: they are a `READ` with more units
than it should have, or have another opcode than `WRITE` and end with their third unit or are
skipped from there on. -/
def Skipped : List NetAxis → Prop
  | _ :: app :: _ :: ds => app.opcode = opcodeRead ∨ app.opcode ≠ opcodeWrite
      ∧ (ds = [] ∨ Skipped ds)
  | _ => False

/-- A `READ`, a `WRITE` with data, or a packet that is skipped. -/
def Fits (p : RawPacket) : Prop :=
  p.app.opcode = opcodeRead ∨ (p.app.opcode = opcodeWrite ∧ p.rest ≠ []) ∨ Skipped p.units

section Read

variable {p : Parser} {d : NetAxis} {ds : List NetAxis}

theorem read_ethHeader (h : p.appState = .ethHeader) (d : NetAxis) :
    p.read d = ({ p with ethHeader := d, appState := .appHeader }, []) := by
  rw [Parser.read, h]

theorem skips_invalidRead (hst : p.appState = .invalidRead)
    (hm : Marked (fun d : NetAxis ↦ d.last = 1) ds) :
    after Parser.read p ds = { p with appState := .ethHeader } ∧ emits Parser.read p ds = [] := by
  induction ds generalizing p with
  | nil => exact hm.elim
  | cons d ds ih =>
    have hread : p.read d
      = ({ p with appState := if d.last = 1 then .ethHeader else .invalidRead }, []) := by
      rw [Parser.read, hst]
    rw [after, emits, hread]
    obtain ⟨rfl, hlast⟩ | ⟨hlast, hm'⟩ := marked_cons.mp hm
    · rw [if_pos hlast]
      exact ⟨rfl, rfl⟩
    · rw [if_neg hlast]
      exact @ih { p with appState := .invalidRead } rfl hm'

/-- The data of a `WRITE` are emitted, after its request if that has not been emitted. -/
theorem emits_appData (hst : p.appState = .appData) (hop : p.opcode = opcodeWrite)
    (hm : Marked (fun d : NetAxis ↦ d.last = 1) ds) :
    (after Parser.read p ds).Ready
      ∧ emits Parser.read p ds
        = (if p.writeReqPushed then [] else [Emitted.writeReq p.req])
          ++ ds.map Emitted.writeData := by
  -- the request goes out with the first data unit, so the flag is generalized over
  induction ds generalizing p with
  | nil => exact hm.elim
  | cons d ds ih =>
    have hread : (p.read d).2 = (if p.writeReqPushed then [] else [Emitted.writeReq p.req])
      ++ [.writeData d] := by
      rw [Parser.read, hst]
      dsimp only
      rw [if_pos hop]
      split <;> rfl
    rw [after, emits, hread, List.append_assoc]
    obtain ⟨rfl, hlast⟩ | ⟨hlast, hm'⟩ := marked_cons.mp hm
    · have hnext : (p.read d).1 = { p with writeReqPushed := false, appState := .ethHeader } := by
        rw [Parser.read, hst]
        dsimp only
        rw [if_pos hop, if_pos hlast]
      rw [hnext]
      exact ⟨⟨rfl, rfl⟩, rfl⟩
    · have hnext : (p.read d).1 = { p with writeReqPushed := true } := by
        rw [Parser.read, hst]
        dsimp only
        rw [if_pos hop, if_neg hlast]
      obtain ⟨hready, hout⟩ := @ih { p with writeReqPushed := true } hst hop hm'
      rw [hnext, hout]
      exact ⟨hready, rfl⟩

/-- A data unit of another opcode ends the packet for the parser. -/
theorem read_appData_other (hst : p.appState = .appData) (hop : p.opcode ≠ opcodeWrite)
    (d : NetAxis) :
    (p.read d).1.appState = .ethHeader
      ∧ (p.writeReqPushed = false → (p.read d).1.writeReqPushed = false) ∧ (p.read d).2 = [] := by
  rw [Parser.read, hst]
  dsimp only
  rw [if_neg hop]
  split
  · exact ⟨rfl, fun _ ↦ rfl, rfl⟩
  · exact ⟨rfl, id, rfl⟩

end Read

section Takes

variable {p : Parser} {eth app : NetAxis} {us : List NetAxis}

/-- `parser` after two headers. -/
def Parser.headers (p : Parser) (eth app : NetAxis) : Parser where
  appState := if app.opcode = opcodeRead then if app.last = 1 then .ethHeader else .invalidRead
    else .appData
  req := ⟨app.address, app.length, eth, app⟩
  ethHeader := eth
  appHeader := app
  opcode := app.opcode
  writeReqPushed := p.writeReqPushed

theorem read_headers (hp : p.Ready) (eth app : NetAxis) (us : List NetAxis) :
    after Parser.read p (eth :: app :: us) = after Parser.read (p.headers eth app) us
      ∧ emits Parser.read p (eth :: app :: us)
        = (if app.opcode = opcodeRead ∧ app.last = 1 then
            [Emitted.readReq ⟨app.address, app.length, eth, app⟩] else [])
          ++ emits Parser.read (p.headers eth app) us := by
  rw [after, emits, read_ethHeader hp.appState, after, emits, Parser.read, Parser.headers]
  by_cases hop : app.opcode = opcodeRead
  · by_cases hlast : app.last = 1
    · simp only [if_pos hop, if_pos hlast, if_pos (And.intro hop hlast)]
      exact ⟨trivial, rfl⟩
    · simp only [if_pos hop, if_neg hlast, if_neg fun h : _ ∧ _ ↦ hlast h.2]
      exact ⟨trivial, rfl⟩
  · simp only [if_neg hop, if_neg fun h : _ ∧ _ ↦ hop h.1]
    exact ⟨trivial, rfl⟩

theorem other_iff (hp : p.Ready) (hrd : app.opcode ≠ opcodeRead) (hwr : app.opcode ≠ opcodeWrite)
    (ih : ∀ {p : Parser}, p.Ready → Marked (fun d : NetAxis ↦ d.last = 1) us →
      (Skipped us ↔ (after Parser.read p us).Ready ∧ emits Parser.read p us = []))
    {d : NetAxis} (hm : Marked (fun d : NetAxis ↦ d.last = 1) (d :: us)) :
    us = [] ∨ Skipped us ↔ (after Parser.read (p.headers eth app) (d :: us)).Ready
      ∧ emits Parser.read (p.headers eth app) (d :: us) = [] := by
  have hst : (p.headers eth app).appState = .appData := if_neg hrd
  obtain ⟨hstate, hpushed, hout⟩ := read_appData_other hst hwr d
  have hready : ((p.headers eth app).read d).1.Ready := ⟨hstate, hpushed hp.writeReqPushed⟩
  rw [after, emits, hout, List.nil_append]
  obtain ⟨rfl, -⟩ | ⟨-, hm'⟩ := marked_cons.mp hm
  · exact iff_of_true (.inl rfl) ⟨hready, rfl⟩
  · rw [← ih hready hm']
    exact or_iff_right hm'.ne_nil

/-- **Nothing is made of units exactly when they are skipped.** -/
theorem skipped_iff (hp : p.Ready) (hm : Marked (fun d : NetAxis ↦ d.last = 1) us) :
    Skipped us ↔ (after Parser.read p us).Ready ∧ emits Parser.read p us = [] := by
  -- the parser takes two headers and a data unit at a time, as `Skipped` does
  induction us using Skipped.induct generalizing p with
  | case1 eth app d ds ih =>
    obtain ⟨hafter, hemits⟩ := read_headers hp eth app (d :: ds)
    have happ : ¬app.last = 1 := hm.2.1
    have hm' : Marked (fun d : NetAxis ↦ d.last = 1) (d :: ds) := hm.2.2
    rw [hafter, hemits, if_neg fun h ↦ happ h.2, List.nil_append, Skipped]
    by_cases hrd : app.opcode = opcodeRead
    · have hst : (p.headers eth app).appState = .invalidRead := by
        rw [Parser.headers, if_pos hrd, if_neg happ]
      obtain ⟨hskip, hout⟩ := skips_invalidRead hst hm'
      rw [hskip]
      exact iff_of_true (.inl hrd) ⟨⟨rfl, hp.writeReqPushed⟩, hout⟩
    rw [or_iff_right hrd]
    by_cases hwr : app.opcode = opcodeWrite
    · obtain ⟨-, hout⟩ := @emits_appData (p.headers eth app) (d :: ds) (if_neg hrd) hwr hm'
      refine iff_of_false (fun h ↦ h.1 hwr) fun h ↦ ?_
      rw [hout] at h
      exact absurd h.2 (by simp)
    · rw [and_iff_right hwr]
      exact other_iff hp hrd hwr ih hm'
  | case2 us hshort =>
    have hfalse : ¬Skipped us := by
      rw [Skipped]
      · exact id
      · exact hshort
    refine iff_of_false hfalse fun ⟨hready, hout⟩ ↦ ?_
    -- a stream that ends within the headers leaves the parser between packets
    rcases us with - | ⟨eth, - | ⟨app, - | ⟨d, ds⟩⟩⟩
    · exact hm
    · rw [after, after_nil, read_ethHeader hp.appState] at hready
      exact absurd hready.appState (by decide : ParserState.appHeader ≠ .ethHeader)
    · obtain ⟨hafter, hemits⟩ := read_headers hp eth app []
      have hlast : app.last = 1 := hm.2
      by_cases hrd : app.opcode = opcodeRead
      · rw [hemits, if_pos ⟨hrd, hlast⟩] at hout
        exact absurd hout (by simp)
      · have hst : (p.headers eth app).appState = .appData := if_neg hrd
        rw [hafter, after_nil] at hready
        exact absurd (hst.symm.trans hready.appState) (by decide)
    · exact hshort _ _ _ _ rfl

theorem marked_rest (q : RawPacket) :
    (q.rest = [] ∧ q.app.last = 1)
      ∨ (q.rest ≠ [] ∧ ¬q.app.last = 1 ∧ Marked (fun d : NetAxis ↦ d.last = 1) q.rest) := by
  obtain ⟨hrest, hlast⟩ | ⟨hlast, hm⟩ := marked_cons.mp q.marked.of_cons
  · exact .inl ⟨hrest, hlast⟩
  · exact .inr ⟨hm.ne_nil, hlast, hm⟩

/-- **A packet is read as expected exactly when it fits.** -/
theorem fits_iff_takes (q : RawPacket) (p : Parser) (hp : p.Ready) :
    Fits q ↔ Takes Parser.read RawPacket.units Parser.Ready expected p q := by
  obtain ⟨hafter, hemits⟩ := read_headers hp q.eth q.app q.rest
  rw [Takes, Fits, expected]
  -- a read is dropped after its headers; a write is passed on; the rest is skipped
  by_cases hrd : q.app.opcode = opcodeRead
  · rw [if_pos hrd]
    refine iff_of_true (.inl hrd) ?_
    rw [RawPacket.units, hafter, hemits]
    obtain ⟨hrest, hlast⟩ | ⟨hrest, hlast, hm⟩ := marked_rest q
    · have hst : (p.headers q.eth q.app).appState = .ethHeader := by
        rw [Parser.headers, if_pos hrd, if_pos hlast]
      rw [hrest, if_pos ⟨hrd, hlast⟩, if_pos rfl]
      exact ⟨⟨hst, hp.writeReqPushed⟩, rfl⟩
    · have hst : (p.headers q.eth q.app).appState = .invalidRead := by
        rw [Parser.headers, if_pos hrd, if_neg hlast]
      obtain ⟨hskip, hout⟩ := skips_invalidRead hst hm
      rw [hskip, hout, if_neg fun h ↦ hlast h.2, if_neg hrest]
      exact ⟨⟨rfl, hp.writeReqPushed⟩, rfl⟩
  rw [if_neg hrd, or_iff_right hrd]
  have hst : (p.headers q.eth q.app).appState = .appData := if_neg hrd
  by_cases hwr : q.app.opcode = opcodeWrite
  · have hskip : ¬Skipped q.units := by
      rw [RawPacket.units]
      rcases q.rest with - | ⟨d, ds⟩
      · exact id
      · rw [Skipped]
        rintro (h | h)
        · exact hrd h
        · exact h.1 hwr
    rw [if_pos hwr, or_iff_left hskip, and_iff_right hwr, RawPacket.units, hafter, hemits,
      if_neg fun h ↦ hrd h.1, List.nil_append]
    obtain ⟨hrest, -⟩ | ⟨hrest, -, hm⟩ := marked_rest q
    · refine iff_of_false (fun h ↦ h hrest) fun h ↦ ?_
      rw [hrest, after_nil] at h
      exact absurd (hst.symm.trans h.1.appState) (by decide)
    · obtain ⟨hready, hout⟩ := emits_appData hst hwr hm
      have hpushed : (p.headers q.eth q.app).writeReqPushed = false := hp.writeReqPushed
      rw [hout, hpushed, if_neg hrest]
      exact iff_of_true hrest ⟨hready, rfl⟩
  · rw [if_neg hwr, or_iff_right fun h ↦ hwr h.1]
    exact skipped_iff hp q.marked

end Takes

/-- `parser` on a stream of packets, under a schedule of arrivals and calls. -/
def parsed (ps : List RawPacket) (ts : List Turn) : Feed NetAxis Parser Emitted :=
  under Parser.read {} (ps.flatMap RawPacket.units) ts

/-- **Framing.** Whatever the schedule, `parser` emits what is expected and is ready after the last
unit of every packet, exactly when every packet fits. -/
theorem keepsApart_iff_fits (ps : List RawPacket) :
    (∀ ts, KeepsApart RawPacket.units Parser.Ready expected ps (parsed ps ts)) ↔ ∀ p ∈ ps, Fits p :=
  forall_keepsApart_iff fits_iff_takes ⟨rfl, rfl⟩ ps

/-- A `WRITE` without data. -/
def emptyWrite : RawPacket := ⟨{}, { data := 1, last := 1 }, [], by decide⟩

/-- After a `WRITE` without data the parser waits for data, and the units of the next packet will be
taken for them. -/
theorem not_keepsApart_emptyWrite :
    ¬KeepsApart RawPacket.units Parser.Ready expected [emptyWrite]
      (parsed [emptyWrite] (inTurn emptyWrite.units)) := by
  intro h
  have hread : (parsed [emptyWrite] (inTurn emptyWrite.units)).queue = []
      ∧ (parsed [emptyWrite] (inTurn emptyWrite.units)).input = []
      ∧ (parsed [emptyWrite] (inTurn emptyWrite.units)).st.appState = .appData := by decide +kernel
  obtain ⟨hqueue, hinput, hst⟩ := hread
  have hready := (h.between [emptyWrite] [] rfl (by rw [hqueue, hinput]; rfl)).2
  exact absurd (hst.symm.trans hready.appState) (by decide)

end FpgaOs.AppRdma
