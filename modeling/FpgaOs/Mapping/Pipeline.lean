import FpgaOs.Mapping.Bucket
import Mathlib.Logic.Function.Basic

/-!
# The stages of the mapping pipeline

A request to the page table passes through `remux`, `compute_hash`, `compare_bram`, `fill_S1`,
`fill_S2` and `demux`, and what is known about it travels along in a `PipelineInfo`. This file has
what each stage computes: the functions here take the data a stage has read and return the data it
writes. When the stages are called, and what lies in the streams between them, is the subject of
`Stages`; `Tables.serve` below is the order in which one request meets them when it is alone.

`fill_S1` walks along a chain in DRAM for as long as there is a next bucket. There are `2 ^ 26`
bucket addresses, so a walk that has read more buckets than that has been somewhere twice and goes
on for ever; `walk` is given that many steps, and `none` means that the stage does not let go of the
request.
-/

namespace FpgaOs.Mapping

/-! ## Requests and replies -/

/-- The channel a request came from: `PI_CHANNEL_READ` or `PI_CHANNEL_WRITE`. -/
inductive Channel
  | read
  | write
  deriving DecidableEq

/-- `struct mapping_request`; the address is the key, the length is the value. -/
structure MappingRequest where
  address : BitVec 32
  length : BitVec 32
  opcode : BitVec 8
  deriving DecidableEq

/-- `struct mapping_reply`; the address is the value, status 0 is success. -/
structure MappingReply where
  status : BitVec 1
  address : BitVec 32
  internalStatus : BitVec 8
  deriving DecidableEq

/-- `struct buddy_alloc_ret_if`; status 0 is success. -/
structure BuddyAllocRet where
  stat : BitVec 1
  addr : BitVec 32
  deriving DecidableEq

def mappingRequestRead : BitVec 8 := 0
def mappingRequestWrite : BitVec 8 := 1
def mappingSet : BitVec 8 := 2
def mappingPermissionR : BitVec 8 := 0x00
def mappingPermissionRW : BitVec 8 := 0x80

def piOpcodeGet : BitVec 8 := 1
def piOpcodeSet : BitVec 8 := 2
def piOpcodeUnknown : BitVec 8 := 3

def piStateHitBram : BitVec 32 := 0x0001
def piStateHitDram : BitVec 32 := 0x0010
def piStateMissBram : BitVec 32 := 0x0100
def piStateMissDram : BitVec 32 := 0x1000
def piStateNoPerm : BitVec 32 := 0x8000

def piOutputSucceed : BitVec 1 := 0
def piOutputFailure : BitVec 1 := 1

/-- `struct pipeline_info`. The `-1` that `slot_dram` may hold is `none`. -/
structure PipelineInfo where
  input : BitVec 32 := 0
  length : BitVec 32 := 0
  opcode : BitVec 8 := 0
  channel : Channel := .read
  hash : BitVec 32 := 0
  hbDramAddr : BitVec 26 := 0
  hbBram : Bucket := 0
  hbDram : Bucket := 0
  slot : Slot := slot0
  slotDram : Option Slot := some slot0
  piState : BitVec 32 := 0
  output : BitVec 32 := 0
  outputStatus : BitVec 1 := 0
  deriving DecidableEq

namespace PipelineInfo

/-- The low `PI_OPCODE_WIDTH` bits of the opcode say `GET`. -/
def isGet (pi : PipelineInfo) : Bool := pi.opcode.setWidth 2 == piOpcodeGet.setWidth 2

/-- The low `PI_OPCODE_WIDTH` bits of the opcode say `SET`. -/
def isSet (pi : PipelineInfo) : Bool := pi.opcode.setWidth 2 == piOpcodeSet.setWidth 2

/-- `opcode[7]`. -/
def rw (pi : PipelineInfo) : Bool := pi.opcode.getLsbD 7

/-- The permission check, as both `compare_bram` and `fill_S1` make it. -/
def denied (pi : PipelineInfo) (hb : Bucket) (i : Slot) : Bool :=
  pi.isGet && (pi.rw && !hb.perm i)

/-- The bucket of the BRAM table. -/
def bramIndex (pi : PipelineInfo) : BitVec 6 := pi.hash.setWidth 6

/-- The first bucket of the chain in the DRAM table. -/
def dramIndex (pi : PipelineInfo) : BitVec 32 := (pi.hash.setWidth 10).setWidth 32

/-- All the given bits of the state are set. -/
def inState (pi : PipelineInfo) (bits : BitVec 32) : Bool := pi.piState &&& bits == bits

/-! ## `remux` and `compute_hash` -/

/-- The internal opcode of a request. -/
def forgeOpcode (opcode : BitVec 8) : BitVec 8 :=
  if opcode = mappingRequestRead then piOpcodeGet ||| mappingPermissionR
  else if opcode = mappingRequestWrite then piOpcodeGet ||| mappingPermissionRW
  else if opcode = mappingSet ||| mappingPermissionR then piOpcodeSet ||| mappingPermissionR
  else if opcode = mappingSet ||| mappingPermissionRW then piOpcodeSet ||| mappingPermissionRW
  else piOpcodeUnknown

/-- What `remux` makes of a request on a channel. -/
def remux (channel : Channel) (req : MappingRequest) : PipelineInfo :=
  { opcode := forgeOpcode req.opcode
    input := req.address
    length := req.length
    channel := channel }

/-- The hash of a key is the key. -/
def computeHash (pi : PipelineInfo) : PipelineInfo := { pi with hash := pi.input }

/-! ## `compare_bram` -/

/-- The bucket of the BRAM table has been read. -/
def compareBram (pi : PipelineInfo) (hb : Bucket) : PipelineInfo :=
  match hb.compare pi.input with
  | some i =>
    if pi.denied hb i then
      { pi with
        hbBram := hb
        piState := piStateHitBram ||| piStateNoPerm
        slot := slot0
        outputStatus := piOutputFailure
        output := 0 }
    else
      { pi with
        hbBram := hb
        piState := piStateHitBram
        slot := i
        outputStatus := piOutputSucceed
        output := hb.val i }
  | none =>
    { pi with
      hbBram := hb
      piState := piStateMissBram
      slot := slot0
      outputStatus := piOutputFailure
      output := 0 }

/-! ## `fill_S1` -/

/-- The key is in slot `i` of a DRAM bucket. -/
def hitDram (pi : PipelineInfo) (addr : BitVec 32) (hb : Bucket) (i : Slot) : PipelineInfo :=
  if pi.denied hb i then
    { pi with
      piState := pi.piState ||| piStateHitDram ||| piStateNoPerm
      slotDram := some slot0
      outputStatus := piOutputFailure
      output := 0 }
  else
    { pi with
      piState := pi.piState ||| piStateHitDram
      slotDram := some i
      hbDram := hb
      hbDramAddr := addr.setWidth 26
      outputStatus := piOutputSucceed
      output := hb.val i }

/-- A `SET` remembers the first bucket with an empty slot that it comes across. -/
def noteSlot (pi : PipelineInfo) (found : Bool) (addr : BitVec 32) (hb : Bucket) :
    PipelineInfo × Bool :=
  if pi.isSet && !found then
    match hb.findEmptySlotDram with
    | some i => ({ pi with slotDram := some i, hbDram := hb, hbDramAddr := addr.setWidth 26 }, true)
    | none => ({ pi with slotDram := none }, false)
  else (pi, found)

/-- The key is on no bucket of the chain, of which this is the last. -/
def missDram (pi : PipelineInfo) (found : Bool) (addr : BitVec 32) (hb : Bucket) : PipelineInfo :=
  { pi with
    piState := pi.piState ||| piStateMissDram
    outputStatus := piOutputFailure
    hbDram := if found then pi.hbDram else hb
    hbDramAddr := if found then pi.hbDramAddr else addr.setWidth 26
    output := 0 }

/-- State `FILL_READ_DATA`, when the bucket has arrived. The second component is the value of
`slot_dram_found` and the address to read next, when the chain goes on. -/
def readBucket (pi : PipelineInfo) (found : Bool) (addr : BitVec 32) (hb : Bucket) :
    PipelineInfo × Option (Bool × BitVec 32) :=
  match hb.compare pi.input with
  | some i => (pi.hitDram addr hb i, none)
  | none =>
    let noted := pi.noteSlot found addr hb
    if hb.chained then (noted.1, some (noted.2, hb.chainAddr.setWidth 32))
    else (noted.1.missDram noted.2 addr hb, none)

/-- The walk along a chain, for at most the given number of buckets. -/
def walk (mem : BitVec 32 → Bucket) : ℕ → PipelineInfo → Bool → BitVec 32 → Option PipelineInfo
  | 0, _, _, _ => none
  | n + 1, pi, found, addr =>
    match pi.readBucket found addr (mem addr) with
    | (pi, none) => some pi
    | (pi, some (found, addr)) => walk mem n pi found addr

/-- A `GET` that hits in BRAM, with permission, does not go to DRAM. -/
def skipsDram (pi : PipelineInfo) : Bool := pi.isGet && pi.piState == piStateHitBram

/-- `fill_S1`, with a bound on the number of buckets it reads. -/
def fillS1 (mem : BitVec 32 → Bucket) (fuel : ℕ) (pi : PipelineInfo) : Option PipelineInfo :=
  if pi.skipsDram then some pi else pi.walk mem fuel false pi.dramIndex

/-! ## `fill_S2` -/

/-- `enum ALLOC_STATES`. -/
inductive AllocState
  | idle
  | recvRet
  | writeData
  deriving DecidableEq

/-- The bucket a `SET` writes back to BRAM: it replaces the slot that matched, or it takes the first
empty one, or else slot 0. -/
def setBram (pi : PipelineInfo) : Bucket :=
  if pi.inState piStateHitBram then pi.hbBram.replace pi.slot pi.input pi.length pi.rw
  else (pi.hbBram.take pi.hbBram.findEmptySlot).replace pi.hbBram.findEmptySlot
    pi.input pi.length pi.rw

/-- The contents of a bucket that is new on a chain. -/
def newHbDram (pi : PipelineInfo) : Bucket :=
  (Bucket.take 0 slot0).replace slot0 pi.input pi.length pi.rw

/-- The bucket a `GET` writes back to BRAM when it missed there and hit in DRAM. -/
def promoteBram (pi : PipelineInfo) : Bucket :=
  pi.hbBram.promote pi.hbBram.findEmptySlot (pi.hbDram.key (pi.slotDram.getD slot0))
    (pi.hbDram.val (pi.slotDram.getD slot0))

/-- State `ALLOC_IDLE`, when a request has been read: what is written to BRAM, and the next state.
In state `ALLOC_IDLE` the request has been handed on. -/
def fillIdle (pi : PipelineInfo) : PipelineInfo × Option Bucket × AllocState :=
  if pi.isSet then
    let pi := { pi with hbBram := pi.setBram }
    match pi.slotDram with
    | none => (pi, some pi.hbBram, .recvRet)
    | some i =>
      ({ pi with hbDram := (pi.hbDram.take i).replace i pi.input pi.length pi.rw },
        some pi.hbBram, .writeData)
  else if pi.isGet then
    if pi.inState piStateMissBram && pi.inState piStateHitDram then
      let pi := { pi with hbBram := pi.promoteBram }
      (pi, some pi.hbBram, .idle)
    else (pi, none, .idle)
  else (pi, none, .idle)

/-- The index of an allocated bucket relative to the table. The subtraction gives a signed number of
one bit more, which is shifted and cut off. -/
def allocAddrTrans (base addr : BitVec 32) : BitVec 32 :=
  ((addr.setWidth 33 - base.setWidth 33).sshiftRight 6).setWidth 32

/-- State `ALLOC_RECV_RET`, when the allocator has answered: the previous bucket is linked to the
new one, whose address is returned; or the request is handed on as failed. -/
def fillRecvRet (base : BitVec 32) (pi : PipelineInfo) (ret : BuddyAllocRet) :
    PipelineInfo × Option (BitVec 32) :=
  if ret.stat = 0 then
    let addr := allocAddrTrans base ret.addr
    ({ pi with hbDram := pi.hbDram.link (addr.setWidth 26) }, some addr)
  else ({ pi with outputStatus := piOutputFailure }, none)

/-- State `ALLOC_WRITE_DATA`: the request is handed on after `hb_dram` has been written. -/
def fillWriteData (pi : PipelineInfo) : PipelineInfo := { pi with outputStatus := piOutputSucceed }

/-! ## `demux` -/

/-- The reply that `demux` sends on the channel of the request. -/
def demux (pi : PipelineInfo) : MappingReply :=
  { status := pi.outputStatus
    address := pi.output
    internalStatus := pi.piState.setWidth 8 }

end PipelineInfo

/-! ## One request at a time -/

/-- What the pipeline is connected to: the base address of the DRAM table, and the answers the
bucket allocator gives, one for each request it gets. -/
structure Env where
  base : BitVec 32
  answers : ℕ → BuddyAllocRet

/-- The byte address the data mover is given for a DRAM command. -/
def Env.startAddress (e : Env) (addr : BitVec 32) : BitVec 32 := addr * 64 + e.base

/-- The two memories, DRAM by the byte address at which a bucket starts, and the number of requests
the allocator has had. -/
structure Tables where
  bram : BitVec 6 → Bucket
  dram : BitVec 32 → Bucket
  allocs : ℕ

namespace Tables

variable (e : Env) (t : Tables)

/-- The bucket a DRAM read command returns. -/
def readDram (addr : BitVec 32) : Bucket := t.dram (e.startAddress addr)

def writeDram (addr : BitVec 32) (hb : Bucket) : Tables :=
  { t with dram := Function.update t.dram (e.startAddress addr) hb }

def writeBram (index : BitVec 6) (hb : Bucket) : Tables :=
  { t with bram := Function.update t.bram index hb }

/-- The number of bucket addresses. -/
def nrBuckets : ℕ := 2 ^ 26

/-- `fill_S2`, from `ALLOC_IDLE` back to `ALLOC_IDLE`. -/
def fillS2 (pi : PipelineInfo) : Tables × PipelineInfo :=
  let filled := pi.fillIdle
  let pi' := filled.1
  let t' := match filled.2.1 with
    | some hb => t.writeBram pi.bramIndex hb
    | none => t
  match filled.2.2 with
  | .idle => (t', pi')
  | .writeData => (t'.writeDram e (pi'.hbDramAddr.setWidth 32) pi'.hbDram, pi'.fillWriteData)
  | .recvRet =>
    let t'' := { t' with allocs := t.allocs + 1 }
    let got := pi'.fillRecvRet e.base (e.answers t.allocs)
    match got.2 with
    | none => (t'', got.1)
    | some addr =>
      ((t''.writeDram e addr pi'.newHbDram).writeDram e (got.1.hbDramAddr.setWidth 32) got.1.hbDram,
        got.1.fillWriteData)

/-- A request passes through all stages; `none` when `fill_S1` never lets go of it. -/
def serve (channel : Channel) (req : MappingRequest) : Tables × Option MappingReply :=
  let pi := (PipelineInfo.remux channel req).computeHash
  match (pi.compareBram (t.bram pi.bramIndex)).fillS1 (t.readDram e) nrBuckets with
  | none => (t, none)
  | some pi => ((t.fillS2 e pi).1, some (t.fillS2 e pi).2.demux)

end Tables

end FpgaOs.Mapping
