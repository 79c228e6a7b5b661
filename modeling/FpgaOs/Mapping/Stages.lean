import FpgaOs.Lib.Port
import FpgaOs.Mapping.Chains
import FpgaOs.Mapping.Reservation

/-!
# The pipeline as it is scheduled

Each stage of the data path is a function that is called again and again. A call looks at the
streams it reads, does one step of the stage's own state machine and writes to streams; when there
is nothing to do it returns. `Pipe` is all the state there is: the streams, the static variables of
the stages, the reservation table, the two memories behind their command queues and the allocator
behind its request queue. A schedule is a list of `Action`s: calls of stages in any order, requests
that arrive on the two channels, and moments at which a memory executes a command or the allocator
answers a request.

The streams are unbounded, so a write never blocks. `accepted` is not part of the hardware; it
records the requests in the order in which `remux` has taken them.
-/

namespace FpgaOs.Mapping

open PipelineInfo

/-! ## The state -/

/-- `enum READ_BRAM_STATE`. -/
inductive ReadBramState
  | idle
  | addrCheck
  | addrResp
  deriving DecidableEq

/-- `enum FILL_STATES`. -/
inductive FillState
  | idle
  | readData
  | sendCmd
  deriving DecidableEq

/-- The bucket allocator: requests that it has not answered, how many it has answered, and the
answers that have not been read. -/
structure Allocator where
  pending : ℕ
  answered : ℕ
  ret : List BuddyAllocRet

structure Pipe where
  rdRequest : List MappingRequest
  wrRequest : List MappingRequest
  rdReply : List MappingReply
  wrReply : List MappingReply
  pipelineInfo : List PipelineInfo
  hashToCompare : List PipelineInfo
  readToCompare : List PipelineInfo
  compareToFillS1 : List PipelineInfo
  fillS1ToFillS2 : List PipelineInfo
  fillS2ToOut : List PipelineInfo
  addrResvReq : List TableRequest
  addrResvRes : List (BitVec 2)
  addrPopReq : List TableRequest
  readBramState : ReadBramState
  readBramPi : PipelineInfo
  readBramIndex : BitVec 6
  fillS1State : FillState
  fillS1Pi : PipelineInfo
  fillS1Cmd : BitVec 32
  slotDramFound : Bool
  fillS2State : AllocState
  fillS2Pi : PipelineInfo
  newHbDram : Bucket
  resvTable : ResvTable
  bram : Port (BitVec 6) Bucket
  dram : Port (BitVec 32) Bucket
  allocator : Allocator
  accepted : List Call

namespace Pipe

/-- All streams are empty and all stages in their initial state. -/
def init (t : Tables) : Pipe where
  rdRequest := []
  wrRequest := []
  rdReply := []
  wrReply := []
  pipelineInfo := []
  hashToCompare := []
  readToCompare := []
  compareToFillS1 := []
  fillS1ToFillS2 := []
  fillS2ToOut := []
  addrResvReq := []
  addrResvRes := []
  addrPopReq := []
  readBramState := .idle
  readBramPi := {}
  readBramIndex := 0
  fillS1State := .idle
  fillS1Pi := {}
  fillS1Cmd := 0
  slotDramFound := false
  fillS2State := .idle
  fillS2Pi := {}
  newHbDram := 0
  resvTable := .empty
  bram := ⟨t.bram, [], []⟩
  dram := ⟨t.dram, [], []⟩
  allocator := ⟨0, 0, []⟩
  accepted := []

/-! ## Calls of the stages -/

variable (e : Env) (s : Pipe)

def remux : Pipe :=
  match s.rdRequest with
  | req :: rest =>
    { s with
      rdRequest := rest
      pipelineInfo := s.pipelineInfo ++ [PipelineInfo.remux .read req]
      accepted := s.accepted ++ [(.read, req)] }
  | [] =>
    match s.wrRequest with
    | req :: rest =>
      { s with
        wrRequest := rest
        pipelineInfo := s.pipelineInfo ++ [PipelineInfo.remux .write req]
        accepted := s.accepted ++ [(.write, req)] }
    | [] => s

def computeHash : Pipe :=
  match s.pipelineInfo with
  | pi :: rest =>
    { s with pipelineInfo := rest, hashToCompare := s.hashToCompare ++ [pi.computeHash] }
  | [] => s

def readBram : Pipe :=
  match s.readBramState with
  | .idle =>
    match s.hashToCompare with
    | pi :: rest =>
      { s with
        hashToCompare := rest
        readBramPi := pi
        readToCompare := s.readToCompare ++ [pi]
        readBramIndex := pi.bramIndex
        readBramState := .addrCheck }
    | [] => s
  | .addrCheck =>
    { s with
      addrResvReq := s.addrResvReq ++ [⟨.resv, s.readBramIndex⟩]
      readBramState := .addrResp }
  | .addrResp =>
    match s.addrResvRes with
    | res :: rest =>
      if res ≠ resvSuccess then { s with addrResvRes := rest, readBramState := .addrCheck }
      else
        { s with
          addrResvRes := rest
          readBramState := .idle
          bram := s.bram.issue (.read s.readBramIndex) }
    | [] => s

def compareBram : Pipe :=
  match s.readToCompare, s.bram.data with
  | pi :: rest, hb :: data =>
    { s with
      readToCompare := rest
      bram := { s.bram with data := data }
      compareToFillS1 := s.compareToFillS1 ++ [pi.compareBram hb] }
  | _, _ => s

def fillS1 : Pipe :=
  match s.fillS1State with
  | .idle =>
    match s.compareToFillS1 with
    | pi :: rest =>
      if pi.skipsDram then
        { s with
          compareToFillS1 := rest
          fillS1Pi := pi
          fillS1ToFillS2 := s.fillS1ToFillS2 ++ [pi] }
      else
        { s with
          compareToFillS1 := rest
          fillS1Pi := pi
          fillS1Cmd := pi.dramIndex
          slotDramFound := false
          fillS1State := .sendCmd }
    | [] => s
  | .sendCmd =>
    { s with
      dram := s.dram.issue (.read (e.startAddress s.fillS1Cmd))
      fillS1State := .readData }
  | .readData =>
    match s.dram.data with
    | hb :: data =>
      match s.fillS1Pi.readBucket s.slotDramFound s.fillS1Cmd hb with
      | (pi, none) =>
        { s with
          dram := { s.dram with data := data }
          fillS1Pi := pi
          fillS1ToFillS2 := s.fillS1ToFillS2 ++ [pi]
          fillS1State := .idle }
      | (pi, some (found, addr)) =>
        { s with
          dram := { s.dram with data := data }
          fillS1Pi := pi
          slotDramFound := found
          fillS1Cmd := addr
          fillS1State := .sendCmd }
    | [] => s

/-- `fill_S2` may send a write command to BRAM. -/
def writeBack (bram : Port (BitVec 6) Bucket) (index : BitVec 6) :
    Option Bucket → Port (BitVec 6) Bucket
  | some hb => bram.issue (.write index hb)
  | none => bram

def fillS2 : Pipe :=
  match s.fillS2State with
  | .idle =>
    match s.fillS1ToFillS2 with
    | pi :: rest =>
      let filled := pi.fillIdle
      let bram := writeBack s.bram pi.bramIndex filled.2.1
      match filled.2.2 with
      | .idle =>
        { s with
          fillS1ToFillS2 := rest
          fillS2Pi := filled.1
          bram := bram
          fillS2ToOut := s.fillS2ToOut ++ [filled.1] }
      | .recvRet =>
        { s with
          fillS1ToFillS2 := rest
          fillS2Pi := filled.1
          bram := bram
          newHbDram := filled.1.newHbDram
          allocator := { s.allocator with pending := s.allocator.pending + 1 }
          fillS2State := .recvRet }
      | .writeData =>
        { s with
          fillS1ToFillS2 := rest
          fillS2Pi := filled.1
          bram := bram
          fillS2State := .writeData }
    | [] => s
  | .recvRet =>
    match s.allocator.ret with
    | ret :: rest =>
      match s.fillS2Pi.fillRecvRet e.base ret with
      | (pi, some addr) =>
        { s with
          allocator := { s.allocator with ret := rest }
          fillS2Pi := pi
          dram := s.dram.issue (.write (e.startAddress addr) s.newHbDram)
          fillS2State := .writeData }
      | (pi, none) =>
        { s with
          allocator := { s.allocator with ret := rest }
          fillS2Pi := pi
          fillS2ToOut := s.fillS2ToOut ++ [pi]
          fillS2State := .idle }
    | [] => s
  | .writeData =>
    { s with
      dram := s.dram.issue
        (.write (e.startAddress (s.fillS2Pi.hbDramAddr.setWidth 32)) s.fillS2Pi.hbDram)
      fillS2Pi := s.fillS2Pi.fillWriteData
      fillS2ToOut := s.fillS2ToOut ++ [s.fillS2Pi.fillWriteData]
      fillS2State := .idle }

def demux : Pipe :=
  match s.fillS2ToOut with
  | pi :: rest =>
    match pi.channel with
    | .read =>
      { s with
        fillS2ToOut := rest
        addrPopReq := s.addrPopReq ++ [⟨.pop, 0⟩]
        rdReply := s.rdReply ++ [pi.demux] }
    | .write =>
      { s with
        fillS2ToOut := rest
        addrPopReq := s.addrPopReq ++ [⟨.pop, 0⟩]
        wrReply := s.wrReply ++ [pi.demux] }
  | [] => s

/-- The reservation table takes a pop request. -/
def servePop : Pipe :=
  match s.addrPopReq with
  | _ :: rest => { s with addrPopReq := rest, resvTable := s.resvTable.pop }
  | [] => s

/-- The reservation table takes a reservation, and answers it. -/
def serveResv : Pipe :=
  match s.addrResvReq with
  | req :: rest =>
    { s with
      addrResvReq := rest
      resvTable := (s.resvTable.resv req.index).1
      addrResvRes := s.addrResvRes ++ [(s.resvTable.resv req.index).2] }
  | [] => s

def addressReservationTable : Pipe := s.servePop.serveResv

/-- The allocator answers its oldest request. -/
def answerAlloc : Pipe :=
  match s.allocator.pending with
  | n + 1 =>
    { s with
      allocator :=
        { pending := n
          answered := s.allocator.answered + 1
          ret := s.allocator.ret ++ [e.answers s.allocator.answered] } }
  | 0 => s

/-! ## Schedules -/

/-- What can happen next. -/
inductive Action
  | arriveRd (req : MappingRequest)
  | arriveWr (req : MappingRequest)
  | remux
  | computeHash
  | readBram
  | compareBram
  | fillS1
  | fillS2
  | demux
  | addressReservationTable
  | execBram
  | execDram
  | answerAlloc

def step : Action → Pipe
  | .arriveRd req => { s with rdRequest := s.rdRequest ++ [req] }
  | .arriveWr req => { s with wrRequest := s.wrRequest ++ [req] }
  | .remux => s.remux
  | .computeHash => s.computeHash
  | .readBram => s.readBram
  | .compareBram => s.compareBram
  | .fillS1 => s.fillS1 e
  | .fillS2 => s.fillS2 e
  | .demux => s.demux
  | .addressReservationTable => s.addressReservationTable
  | .execBram => { s with bram := s.bram.exec }
  | .execDram => { s with dram := s.dram.exec }
  | .answerAlloc => s.answerAlloc e

/-- Nothing is left to be done. -/
structure Drained (s : Pipe) : Prop where
  rdRequest : s.rdRequest = []
  wrRequest : s.wrRequest = []
  pipelineInfo : s.pipelineInfo = []
  hashToCompare : s.hashToCompare = []
  readToCompare : s.readToCompare = []
  compareToFillS1 : s.compareToFillS1 = []
  fillS1ToFillS2 : s.fillS1ToFillS2 = []
  fillS2ToOut : s.fillS2ToOut = []
  readBramState : s.readBramState = .idle
  fillS1State : s.fillS1State = .idle
  fillS2State : s.fillS2State = .idle
  bram : s.bram.cmds = []
  dram : s.dram.cmds = []

end Pipe

end FpgaOs.Mapping
