import FpgaOs.Lib.Query
import FpgaOs.Rdm.Format

/-!
# The stages of the remote-memory service

`rdm_mapping` is a chain of stages that are called again and again: `buffering`, `parser`,
`alloc_address`, `map`, `access` and `reply`, and the two pipes to the data mover. A call looks at
the streams, does one step of the stage's state machine, and returns. `Service` is all the state
there is, together with the units that have not arrived yet and what is inside the data mover.

The allocator, the mapping and the data mover answer at any time, each its own requests in order.
`Env` says what they answer: the `n`-th request `r` gets the `n`-th answer, which may depend on `r`.
The streams are unbounded, so a write never blocks.
-/

namespace FpgaOs.Rdm

open BitField Mapping

/-- What the service is connected to. -/
structure Env where
  alloc : ℕ → BuddyAlloc → BuddyAllocRet
  map : ℕ → MappingRequest → MappingReply
  /-- The data of the `n`-th read command, unit by unit. -/
  dram : ℕ → DmCmd → ℕ → BitVec 512

/-! ## The state machines -/

/-- `enum PARSER_STATE`. -/
inductive ParserState
  | ethHeader
  | appHeader
  | stream
  deriving DecidableEq

/-- The static variables of `parser`, and `nr_rdm_packet`. -/
structure Parser where
  state : ParserState
  pi : PipelineInfo
  offset : BitVec 32
  nrRdmPacket : BitVec 64

/-- What `parser` makes of the two headers. -/
def PipelineInfo.parse (pi : PipelineInfo) (d : NetAxis) : PipelineInfo :=
  let length := roundUp d.length 64
  { pi with
    appHeader := d
    opcode := d.opcode
    va := d.address
    length := length
    nrUnits := roundUp length 64 / 64 }

/-- `parser` reads a unit; it may emit a request and a data unit. -/
def Parser.read (p : Parser) (d : NetAxis) : Parser × Option PipelineInfo × Option NetAxis :=
  match p.state with
  | .ethHeader =>
    ({ p with
        pi := { p.pi with nrPacket := p.nrRdmPacket, ethHeader := d }
        offset := 0
        nrRdmPacket := p.nrRdmPacket + 1
        state := .appHeader }, none, none)
  | .appHeader =>
    ({ p with
        pi := p.pi.parse d
        state := if d.opcode = opcodeWrite then .stream
          else .ethHeader }, some (p.pi.parse d), none)
  | .stream =>
    if d.last = 1 then ({ p with state := .ethHeader }, none, some d)
    -- `offset` is an `int`, the number of units is not
    else if p.offset.signExtend 64 = p.pi.nrUnits - 1 then
      ({ p with state := .ethHeader }, none, some { d with last := 1 })
    else ({ p with offset := p.offset + 1 }, none, some d)

/-- `enum ALLOC_STATE`. -/
inductive AllocState
  | idle
  | writeStream
  | waitAlloc
  deriving DecidableEq

/-- The static variables of `alloc_address` and `rdm_alloc_va`. -/
structure AllocAddress where
  state : AllocState
  pi : PipelineInfo
  allocVa : BitVec 64

/-- `RDM_VA_PAGE_SIZE`. -/
def rdmVaPageSize : BitVec 64 := 0x1000

/-- The request that `alloc_address` sends. -/
def buddyRequest : BuddyAlloc := ⟨0, 0, 1⟩

/-- The allocator has answered: the request with the result, and the next virtual address. -/
def PipelineInfo.allocate (pi : PipelineInfo) (va : BitVec 64) (ret : BuddyAllocRet) :
    PipelineInfo × BitVec 64 :=
  if ret.stat = 0 then
    ({ pi with allocStatus := piAllocSucceed, allocPa := ret.addr.setWidth 64, allocVa := va },
      va + roundUp pi.length rdmVaPageSize)
  else ({ pi with allocStatus := piAllocFail, allocPa := 0, allocVa := 0 }, va)

/-- `enum MAP_STATE`. -/
inductive MapState
  | idle
  | waitMap
  | stream
  deriving DecidableEq

/-- The static variables of `map`. -/
structure MapStage where
  state : MapState
  pi : PipelineInfo

/-- `map` has nothing to ask for an allocation that failed. -/
def PipelineInfo.skipsMap (pi : PipelineInfo) : Bool :=
  pi.opcode == opcodeAlloc && pi.allocStatus != piAllocSucceed

/-- The request that `map` sends: `SET` for an allocation, else `GET`. -/
def PipelineInfo.mapRequest (pi : PipelineInfo) : MappingRequest :=
  if pi.opcode = opcodeAlloc then ⟨pi.allocVa.setWidth 32, pi.allocPa.setWidth 32, mappingSet⟩
  else ⟨pi.va.setWidth 32, 0, mappingRequestRead⟩

/-- The mapping has answered. -/
def PipelineInfo.translate (pi : PipelineInfo) (ret : MappingReply) : PipelineInfo :=
  if ret.status = 0 then
    { pi with
      mapStatus := piMapSucceed
      pa := ret.address.setWidth 64
      paIndex := ret.address.setWidth 64 / 64 }
  else { pi with mapStatus := piMapFail }

/-- The memory command for a request that has been mapped. -/
def PipelineInfo.memCmd (pi : PipelineInfo) : MemCmd := ⟨pi.pa, pi.length, pi.nrUnits.setWidth 32⟩

/-- `enum ACCESS_STATE`. -/
inductive AccessState
  | idle
  | outApp
  | read
  deriving DecidableEq

/-- The static variables of `access`. -/
structure Access where
  state : AccessState
  pi : PipelineInfo
  offset : BitVec 32

/-- The second header of the reply, and the state of `access` after it. -/
def PipelineInfo.replyHeader (pi : PipelineInfo) : NetAxis × AccessState :=
  let hdr := pi.appHeader.setNrPacket pi.nrPacket
  if pi.opcode = opcodeAlloc then
    if pi.allocStatus = piAllocSucceed then
      ({ ((hdr.setOpcode opcodeReplyAlloc).setAddress pi.allocVa).setLength
        pi.allocPa with last := 1 }, .idle)
    else ({ ((hdr.setOpcode opcodeReplyAllocError).setAddress 0).setLength 0 with last := 1 },
      .idle)
  else if pi.opcode = opcodeRead then
    if pi.mapStatus = piMapSucceed then ({ hdr.setOpcode opcodeReplyRead with last := 0 }, .read)
    else ({ hdr.setOpcode opcodeReplyReadError with last := 1 }, .idle)
  else if pi.opcode = opcodeWrite then ({ hdr.setOpcode opcodeReplyWrite with last := 1 }, .idle)
  else (hdr, .outApp)

/-- A data unit of a reply. -/
def dataUnit (data : BitVec 512) (last : BitVec 1) : NetAxis := ⟨data, last, BitVec.allOnes 64, 0⟩

/-- `enum DRAM_WR_PIPE_STATE`; the third state is not used. -/
inductive WrPipeState
  | idle
  | stream
  deriving DecidableEq

/-- The static variables of `DRAM_wr_pipe`. -/
structure WrPipe where
  state : WrPipeState
  nrWritten : BitVec 32
  nrUnits : BitVec 32

/-! ## The state -/

structure Service where
  /-- Units that have not arrived. -/
  input : List NetAxis
  fromNet : List NetAxis
  bufferToParser : List NetAxis
  parserSt : Parser
  piParserToAlloc : List PipelineInfo
  dParserToAlloc : List NetAxis
  allocSt : AllocAddress
  buddy : Query BuddyAlloc BuddyAllocRet
  piAllocToMap : List PipelineInfo
  dAllocToMap : List NetAxis
  mapSt : MapStage
  mapping : Query MappingRequest MappingReply
  piMapToAccess : List PipelineInfo
  fifoRdCmd : List MemCmd
  fifoWrCmd : List MemCmd
  fifoWrData : List (BitVec 512)
  dramRdCmd : List DmCmd
  /-- How many read commands the data mover has taken, and the data it has not delivered. -/
  dramRead : ℕ
  dramBusy : List (BitVec 512)
  dramRdData : List (BitVec 512)
  dramRdStatus : List (BitVec 8)
  fifoRdData : List (BitVec 512)
  accessSt : Access
  dAccessToReply : List NetAxis
  piAccessToReply : List PipelineInfo
  toNet : List NetAxis
  wrPipeSt : WrPipe
  dramWrCmd : List DmCmd
  dramWrData : List AxisMem
  dramWrStatus : List (BitVec 8)

namespace Service

/-- All streams are empty and all stages in their initial state. -/
def init (input : List NetAxis) : Service where
  input := input
  fromNet := []
  bufferToParser := []
  parserSt := ⟨.ethHeader, {}, 0, 1⟩
  piParserToAlloc := []
  dParserToAlloc := []
  allocSt := ⟨.idle, {}, 0x1000⟩
  buddy := .empty
  piAllocToMap := []
  dAllocToMap := []
  mapSt := ⟨.idle, {}⟩
  mapping := .empty
  piMapToAccess := []
  fifoRdCmd := []
  fifoWrCmd := []
  fifoWrData := []
  dramRdCmd := []
  dramRead := 0
  dramBusy := []
  dramRdData := []
  dramRdStatus := []
  fifoRdData := []
  accessSt := ⟨.idle, {}, 0⟩
  dAccessToReply := []
  piAccessToReply := []
  toNet := []
  wrPipeSt := ⟨.idle, 0, 0⟩
  dramWrCmd := []
  dramWrData := []
  dramWrStatus := []

/-! ## Calls of the stages -/

variable (s : Service)

def buffering : Service :=
  match s.fromNet with
  | d :: rest => { s with fromNet := rest, bufferToParser := s.bufferToParser ++ [d] }
  | [] => s

def parser : Service :=
  match s.bufferToParser with
  | d :: rest =>
    let out := s.parserSt.read d
    { s with
      bufferToParser := rest
      parserSt := out.1
      piParserToAlloc := s.piParserToAlloc ++ out.2.1.toList
      dParserToAlloc := s.dParserToAlloc ++ out.2.2.toList }
  | [] => s

def allocAddress : Service :=
  match s.allocSt.state with
  | .idle =>
    match s.piParserToAlloc with
    | pi :: rest =>
      if pi.opcode = opcodeAlloc then
        { s with
          piParserToAlloc := rest
          buddy := s.buddy.ask buddyRequest
          allocSt := { s.allocSt with state := .waitAlloc, pi := pi } }
      else if pi.opcode = opcodeRead then
        { s with
          piParserToAlloc := rest
          piAllocToMap := s.piAllocToMap ++ [pi]
          allocSt := { s.allocSt with pi := pi } }
      else if pi.opcode = opcodeWrite then
        { s with
          piParserToAlloc := rest
          piAllocToMap := s.piAllocToMap ++ [pi]
          allocSt := { s.allocSt with state := .writeStream, pi := pi } }
      else { s with piParserToAlloc := rest, allocSt := { s.allocSt with pi := pi } }
    | [] => s
  | .writeStream =>
    match s.dParserToAlloc with
    | d :: rest =>
      { s with
        dParserToAlloc := rest
        dAllocToMap := s.dAllocToMap ++ [d]
        allocSt :=
          { s.allocSt with state := if d.last = 1 then .idle else .writeStream } }
    | [] => s
  | .waitAlloc =>
    match s.buddy.rets with
    | ret :: rest =>
      let out := s.allocSt.pi.allocate s.allocSt.allocVa ret
      { s with
        buddy := { s.buddy with rets := rest }
        piAllocToMap := s.piAllocToMap ++ [out.1]
        allocSt := ⟨.idle, out.1, out.2⟩ }
    | [] => s

def map : Service :=
  match s.mapSt.state with
  | .idle =>
    match s.piAllocToMap with
    | pi :: rest =>
      if pi.skipsMap then
        { s with
          piAllocToMap := rest
          mapSt := { s.mapSt with pi := pi }
          piMapToAccess := s.piMapToAccess ++ [pi] }
      else
        { s with
          piAllocToMap := rest
          mapSt := ⟨.waitMap, pi⟩
          mapping := s.mapping.ask pi.mapRequest }
    | [] => s
  | .waitMap =>
    match s.mapping.rets with
    | ret :: rest =>
      let pi := s.mapSt.pi.translate ret
      { s with
        mapping := { s.mapping with rets := rest }
        mapSt := ⟨if pi.opcode = opcodeWrite then .stream else .idle, pi⟩
        piMapToAccess := s.piMapToAccess ++ [pi]
        fifoRdCmd := s.fifoRdCmd ++
          if ret.status = 0 ∧ pi.opcode = opcodeRead then [pi.memCmd] else []
        fifoWrCmd := s.fifoWrCmd ++
          if ret.status = 0 ∧ pi.opcode = opcodeWrite then [pi.memCmd] else [] }
    | [] => s
  | .stream =>
    match s.dAllocToMap with
    | d :: rest =>
      { s with
        dAllocToMap := rest
        fifoWrData := s.fifoWrData ++ [d.data]
        mapSt := { s.mapSt with state := if d.last = 1 then .idle else .stream } }
    | [] => s

def access : Service :=
  match s.accessSt.state with
  | .idle =>
    match s.piMapToAccess with
    | pi :: rest =>
      { s with
        piMapToAccess := rest
        accessSt := ⟨.outApp, pi, 0⟩
        dAccessToReply := s.dAccessToReply ++ [pi.ethHeader] }
    | [] => s
  | .outApp =>
    let out := s.accessSt.pi.replyHeader
    { s with
      accessSt :=
        { s.accessSt with
          state := out.2
          pi := { s.accessSt.pi with appHeader := out.1 } }
      dAccessToReply := s.dAccessToReply ++ [out.1] }
  | .read =>
    match s.fifoRdData with
    | data :: rest =>
      let offset := s.accessSt.offset + 1
      if offset.signExtend 64 = s.accessSt.pi.nrUnits then
        { s with
          fifoRdData := rest
          accessSt := { s.accessSt with offset := offset, state := .idle }
          dAccessToReply := s.dAccessToReply ++ [dataUnit data 1] }
      else
        { s with
          fifoRdData := rest
          accessSt := { s.accessSt with offset := offset }
          dAccessToReply := s.dAccessToReply ++ [dataUnit data 0] }
    | [] => s

def reply : Service :=
  let s' := match s.dAccessToReply with
    | d :: rest => { s with dAccessToReply := rest, toNet := s.toNet ++ [d] }
    | [] => s
  { s' with piAccessToReply := s'.piAccessToReply.tail }

/-- The command part of `DRAM_rd_pipe`. -/
def rdPipeCmd : Service :=
  match s.fifoRdCmd with
  | cmd :: rest => { s with fifoRdCmd := rest, dramRdCmd := s.dramRdCmd ++ [cmd.cook] }
  | [] => s

/-- The data part of `DRAM_rd_pipe`. -/
def rdPipeData : Service :=
  match s.dramRdData with
  | data :: rest => { s with dramRdData := rest, fifoRdData := s.fifoRdData ++ [data] }
  | [] => s

def dramRdPipe : Service :=
  { s.rdPipeCmd.rdPipeData with dramRdStatus := s.rdPipeCmd.rdPipeData.dramRdStatus.tail }

/-- It touches only what it is connected to. -/
theorem exists_dramRdPipe : ∃ cmds cmds' data data' status, s.dramRdPipe = { s with
    fifoRdCmd := cmds, dramRdCmd := cmds', dramRdData := data, fifoRdData := data'
    dramRdStatus := status } := by
  rw [dramRdPipe, rdPipeData, rdPipeCmd]
  cases s.fifoRdCmd with
  | nil => cases s.dramRdData <;> exact ⟨_, _, _, _, _, rfl⟩
  | cons cmd rest => cases s.dramRdData <;> exact ⟨_, _, _, _, _, rfl⟩

def dramWrPipe : Service :=
  match s.wrPipeSt.state with
  | .idle =>
    let s' := match s.fifoWrCmd with
      | cmd :: rest =>
        { s with
          fifoWrCmd := rest
          dramWrCmd := s.dramWrCmd ++ [cmd.cook]
          wrPipeSt := ⟨.stream, 0, cmd.nrUnits⟩ }
      | [] => s
    { s' with dramWrStatus := s'.dramWrStatus.tail }
  | .stream =>
    match s.fifoWrData with
    | data :: rest =>
      let nrWritten := s.wrPipeSt.nrWritten + 1
      let done := nrWritten = s.wrPipeSt.nrUnits
      { s with
        fifoWrData := rest
        dramWrData := s.dramWrData ++ [⟨data, BitVec.allOnes 64, if done then 1 else 0⟩]
        wrPipeSt := ⟨if done then .idle else .stream, nrWritten, s.wrPipeSt.nrUnits⟩ }
    | [] => s

/-! ## The data mover -/

/-- The data of a read command. -/
def dramBlock (e : Env) (n : ℕ) (cmd : DmCmd) : List (BitVec 512) :=
  (List.range (cmd.btt.toNat / 64)).map (e.dram n cmd)

/-- The data mover takes a read command. -/
def dramTake (e : Env) : Service :=
  match s.dramRdCmd with
  | cmd :: rest =>
    { s with
      dramRdCmd := rest
      dramRead := s.dramRead + 1
      dramBusy := s.dramBusy ++ dramBlock e s.dramRead cmd }
  | [] => s

/-- The data mover delivers a unit. -/
def dramDeliver : Service :=
  match s.dramBusy with
  | data :: rest => { s with dramBusy := rest, dramRdData := s.dramRdData ++ [data] }
  | [] => s

/-- A unit arrives from the network. -/
def arrive : Service :=
  match s.input with
  | d :: rest => { s with input := rest, fromNet := s.fromNet ++ [d] }
  | [] => s

/-! ## Schedules -/

/-- What can happen next. -/
inductive Action
  | arrive
  | buffering
  | parser
  | allocAddress
  | map
  | access
  | reply
  | dramRdPipe
  | dramWrPipe
  | answerAlloc
  | answerMap
  | dramTake
  | dramDeliver
  | rdStatus (status : BitVec 8)
  | wrStatus (status : BitVec 8)

def step (e : Env) (s : Service) : Action → Service
  | .arrive => s.arrive
  | .buffering => s.buffering
  | .parser => s.parser
  | .allocAddress => s.allocAddress
  | .map => s.map
  | .access => s.access
  | .reply => s.reply
  | .dramRdPipe => s.dramRdPipe
  | .dramWrPipe => s.dramWrPipe
  | .answerAlloc => { s with buddy := s.buddy.answer e.alloc }
  | .answerMap => { s with mapping := s.mapping.answer e.map }
  | .dramTake => s.dramTake e
  | .dramDeliver => s.dramDeliver
  | .rdStatus status => { s with dramRdStatus := s.dramRdStatus ++ [status] }
  | .wrStatus status => { s with dramWrStatus := s.dramWrStatus ++ [status] }

/-- Nothing is left that could become part of a reply. -/
structure Drained (s : Service) : Prop where
  input : s.input = []
  fromNet : s.fromNet = []
  bufferToParser : s.bufferToParser = []
  parserSt : s.parserSt.state = .ethHeader
  piParserToAlloc : s.piParserToAlloc = []
  dParserToAlloc : s.dParserToAlloc = []
  allocSt : s.allocSt.state = .idle
  piAllocToMap : s.piAllocToMap = []
  dAllocToMap : s.dAllocToMap = []
  mapSt : s.mapSt.state = .idle
  piMapToAccess : s.piMapToAccess = []
  fifoRdCmd : s.fifoRdCmd = []
  dramRdCmd : s.dramRdCmd = []
  dramBusy : s.dramBusy = []
  dramRdData : s.dramRdData = []
  fifoRdData : s.fifoRdData = []
  accessSt : s.accessSt.state = .idle
  dAccessToReply : s.dAccessToReply = []

end Service

end FpgaOs.Rdm
