import FpgaOs.Lib.Machine

/-!
# The controller of the configuration port

`icap_controller_hls` plays command sequences into the configuration port of the device. It is a
state machine whose operations are state machines themselves: reading a register, reading back the
bitstream, which reads a register again and again, and a warm boot. All of them keep their state in
static variables and write the same two signals, the active-low enable `CSIB` and the direction
`RDWRB`.

A call writes both signals or neither, at most one word to the port, and takes at most one word from
it. What is not written keeps its value.
-/

namespace FpgaOs.Icap

/-! ## Signals -/

/-- `CSIB_to_icap` and `RDWRB_to_icap`. -/
structure Pins where
  csib : BitVec 1
  rdwrb : BitVec 1
  deriving DecidableEq

def icapCsibEnable : BitVec 1 := 0
def icapCsibDisable : BitVec 1 := 1
def icapRdwrbWrite : BitVec 1 := 0
def icapRdwrbRead : BitVec 1 := 1

/-- `enum COMMAND_FUNCTION_STATUS`. -/
inductive CmdStatus
  | done
  | wip
  deriving DecidableEq

/-- What a call writes, and what an operation returns. -/
structure Out where
  pins : Option Pins := none
  toIcap : Option (BitVec 32) := none
  regData : Option (BitVec 32) := none
  nrBytes : Option ℕ := none
  ret : CmdStatus := .wip

/-! ## `cmd_read_regs` -/

/-- `enum icap_register_permission`. -/
inductive Permission
  | r
  | w
  | rw
  deriving DecidableEq

/-- `struct icap_register_entry`. -/
structure RegisterEntry where
  addr : BitVec 14
  rw : Permission

/-- `icap_register_table`, in the order of `enum icap_register_nr`. -/
def icapRegisterTable : List RegisterEntry :=
  [⟨0b00000, .rw⟩, ⟨0b00001, .rw⟩, ⟨0b00010, .w⟩, ⟨0b00011, .r⟩, ⟨0b00100, .rw⟩, ⟨0b00101, .rw⟩,
    ⟨0b00110, .rw⟩, ⟨0b00111, .r⟩, ⟨0b01000, .w⟩, ⟨0b01001, .rw⟩, ⟨0b01010, .w⟩, ⟨0b01011, .w⟩,
    ⟨0b01100, .rw⟩, ⟨0b01101, .rw⟩, ⟨0b01110, .rw⟩, ⟨0b10000, .rw⟩, ⟨0b10001, .rw⟩, ⟨0b10110, .r⟩,
    ⟨0b11000, .rw⟩, ⟨0b11111, .rw⟩]

def icapRegFdro : ℕ := 3
def icapRegIdcode : ℕ := 12

/-- `COMMAND_regs_1`, as it is initialised. -/
def commandRegs1 : List (BitVec 32) :=
  [0xFFFFFFFF, 0x000000BB, 0x11220044, 0xFFFFFFFF, 0xAA995566, 0x20000000, 0x28018001, 0x20000000,
    0x20000000]

/-- `COMMAND_regs_desync`. -/
def commandRegsDesync : List (BitVec 32) := [0x30008001, 0x0000000D, 0x20000000, 0x20000000]

/-- `cook_cmd`. -/
def cookCmd (entry : RegisterEntry) : BitVec 32 := 0x28000001 ||| (entry.addr.setWidth 32 <<< 13)

/-- `enum CMD_READ_REGS_STATE`. -/
inductive ReadRegsState
  | idle
  | write1
  | write1Transition
  | read
  | readTransition
  | writeDesync
  deriving DecidableEq

/-- The static variables of `cmd_read_regs`, and the command sequence that it changes. -/
structure ReadRegs where
  state : ReadRegsState
  nr1 : ℕ
  nr2 : ℕ
  nrBytesRead : ℕ
  commandRegs1 : List (BitVec 32)

/-- A word that is taken for noise in the first five reads. -/
def isNoise (data : BitVec 32) : Bool := data == 0 || data == 0xFFFFFFD9 || data == 0xFFFFFFDB

namespace ReadRegs

variable (r : ReadRegs)

/-- The states of `cmd_read_regs`, for a register that can be read. The word is what the port has to
be read. -/
def next (entry : RegisterEntry) (fromIcap : Option (BitVec 32)) : ReadRegs × Out :=
  match r.state with
  | .idle =>
    ({ r with
        nr1 := 0
        nr2 := 0
        nrBytesRead := 0
        commandRegs1 := r.commandRegs1.set 6 (cookCmd entry)
        state := .write1 },
      { pins := some ⟨icapCsibDisable, icapRdwrbWrite⟩ })
  | .write1 =>
    match r.commandRegs1[r.nr1]? with
    | some data =>
      ({ r with nr1 := r.nr1 + 1 },
        { pins := some ⟨icapCsibEnable, icapRdwrbWrite⟩, toIcap := some data })
    | none =>
      ({ r with state := .write1Transition }, { pins := some ⟨icapCsibDisable, icapRdwrbWrite⟩ })
  | .write1Transition =>
    ({ r with state := .read }, { pins := some ⟨icapCsibDisable, icapRdwrbRead⟩ })
  | .read =>
    match fromIcap with
    | none => (r, { pins := some ⟨icapCsibEnable, icapRdwrbRead⟩ })
    | some data =>
      if isNoise data ∧ r.nrBytesRead + 1 ≤ 5 then
        ({ r with nrBytesRead := r.nrBytesRead + 1 },
          { pins := some ⟨icapCsibEnable, icapRdwrbRead⟩ })
      else
        ({ r with nrBytesRead := r.nrBytesRead + 1, state := .readTransition },
          { pins := some ⟨icapCsibEnable, icapRdwrbRead⟩, regData := some data })
  | .readTransition =>
    ({ r with state := .writeDesync }, { pins := some ⟨icapCsibDisable, icapRdwrbRead⟩ })
  | .writeDesync =>
    match commandRegsDesync[r.nr2]? with
    | some data =>
      ({ r with nr2 := r.nr2 + 1 },
        { pins := some ⟨icapCsibEnable, icapRdwrbWrite⟩, toIcap := some data })
    | none =>
      ({ r with state := .idle },
        { pins := some ⟨icapCsibDisable, icapRdwrbRead⟩, ret := .done })

/-- `cmd_read_regs`. -/
def call (regNr : ℕ) (fromIcap : Option (BitVec 32)) : ReadRegs × Out :=
  match icapRegisterTable[regNr]? with
  | none => (r, { ret := .done })
  | some entry => if entry.rw = .w then (r, { ret := .done }) else r.next entry fromIcap

end ReadRegs

/-! ## `cmd_read_bitstreams` -/

/-- `NR_WORDS_READ_ONE_FRAME_ULTRASCLAE_PLUS`. -/
def nrWordsReadOneFrame : ℕ := 93 * 2 + 25

/-- `COMMAND_readback_1`, as it is initialised. -/
def commandReadback1 : List (BitVec 32) :=
  [0xFFFFFFFF, 0x000000BB, 0x11220044, 0xFFFFFFFF, 0xAA995566, 0x20000000, 0x3000C001, 0x00800000,
    0x30030001, 0x00800000, 0x30008001, 0x00000007, 0x20000000, 0x20000000, 0x20000000, 0x20000000,
    0x20000000, 0x20000000, 0x30008001, 0x00000004, 0x20000000, 0x30002001, 0x0004f70c, 0x28006000,
    0x48000000 ||| BitVec.ofNat 32 nrWordsReadOneFrame] ++ List.replicate 64 0x20000000

/-- `COMMAND_readback_2`. -/
def commandReadback2 : List (BitVec 32) :=
  [0x3000C001, 0x00800000, 0x30030001, 0x00000000, 0x20000000, 0x30008001, 0x00000005, 0x20000000,
    0x30008001, 0x00000007, 0x20000000, 0x30008001, 0x0000000D, 0x20000000, 0x20000000]

/-- `enum CMD_READBACK_STATE`. -/
inductive ReadbackState
  | idle
  | write1
  | write1Transition
  | read
  | write2
  deriving DecidableEq

/-- The static variables of `cmd_read_bitstreams`, and the command sequence that it changes. -/
structure Readback where
  state : ReadbackState
  nr1 : ℕ
  nr2 : ℕ
  nrToRead : ℕ
  commandReadback1 : List (BitVec 32)

/-- `cmd_read_bitstreams`, together with the variables of the `cmd_read_regs` that it calls. -/
def Readback.call (b : Readback) (r : ReadRegs) (fromIcap : Option (BitVec 32))
    (frameAddr : BitVec 32) : Readback × ReadRegs × Out :=
  match b.state with
  | .idle =>
    ({ b with
        nr1 := 0
        nr2 := 0
        commandReadback1 := b.commandReadback1.set 22 frameAddr
        state := .write1 }, r, { pins := some ⟨icapCsibDisable, icapRdwrbWrite⟩ })
  | .write1 =>
    match b.commandReadback1[b.nr1]? with
    | some data =>
      ({ b with nr1 := b.nr1 + 1 }, r,
        { pins := some ⟨icapCsibEnable, icapRdwrbWrite⟩, toIcap := some data })
    | none =>
      ({ b with state := .write1Transition }, r, { pins := some ⟨icapCsibDisable, icapRdwrbWrite⟩ })
  | .write1Transition =>
    ({ b with state := .read }, r, { pins := some ⟨icapCsibDisable, icapRdwrbRead⟩ })
  | .read =>
    let read := r.call icapRegFdro fromIcap
    if read.2.ret = .done then
      if b.nrToRead = 0 then ({ b with state := .write2 }, read.1, { read.2 with ret := .wip })
      else
        ({ b with nrToRead := b.nrToRead - 1 }, read.1,
          { read.2 with nrBytes := some (nrWordsReadOneFrame - (b.nrToRead - 1)), ret := .wip })
    else (b, read.1, read.2)
  | .write2 =>
    match commandReadback2[b.nr2]? with
    | some data =>
      ({ b with nr2 := b.nr2 + 1 }, r,
        { pins := some ⟨icapCsibEnable, icapRdwrbWrite⟩, toIcap := some data })
    | none =>
      ({ b with state := .idle }, r,
        { pins := some ⟨icapCsibDisable, icapRdwrbRead⟩, ret := .done })

/-! ## `cmd_iprog` -/

/-- `COMMAND_iprog`. -/
def commandIprog : List (BitVec 32) :=
  [0xFFFFFFFF, 0xAA995566, 0x20000000, 0x20000000, 0x30020001, 0x00000000, 0x20000000, 0x30008001,
    0x0000000F]

/-- `enum CMD_IPROG_STATE`. -/
inductive IprogState
  | idle
  | write1
  deriving DecidableEq

/-- The static variables of `cmd_iprog`. -/
structure Iprog where
  state : IprogState
  nr : ℕ

/-- `cmd_iprog`. -/
def Iprog.call (p : Iprog) : Iprog × Out :=
  match p.state with
  | .idle => (⟨.write1, 0⟩, {})
  | .write1 =>
    match commandIprog[p.nr]? with
    | some data =>
      ({ p with nr := p.nr + 1 },
        { pins := some ⟨icapCsibEnable, icapRdwrbWrite⟩, toIcap := some data })
    | none =>
      ({ p with state := .idle },
        { pins := some ⟨icapCsibEnable, icapRdwrbWrite⟩, ret := .done })

/-! ## `icap_controller_hls` -/

/-- `enum icap_controller_hls_state`. -/
inductive ControllerState
  | inactive
  | active
  | opStart
  | done
  deriving DecidableEq

/-- The static variables of all functions, and the signals as they are held. -/
structure Controller where
  state : ControllerState
  testCmd : ℕ
  registerAddr : ℕ
  nrTest : ℕ
  regs : ReadRegs
  readback : Readback
  iprog : Iprog
  pins : Pins

/-- What a call finds at its inputs. -/
structure Inputs where
  startTest : BitVec 1
  resetTest : BitVec 1
  avail : BitVec 1
  fromIcap : Option (BitVec 32)
  frameAddr : BitVec 32

namespace Controller

/-- Before the first call; the signals may have any value. -/
def init (pins : Pins) : Controller where
  state := .inactive
  testCmd := 0
  registerAddr := 0
  nrTest := 0
  regs := ⟨.idle, 0, 0, 0, commandRegs1⟩
  readback := ⟨.idle, 0, 0, nrWordsReadOneFrame, commandReadback1⟩
  iprog := ⟨.idle, 0⟩
  pins := pins

variable (s : Controller) (i : Inputs)

/-- The test that is next, if there is one. -/
def selectTest (nrTest : ℕ) : Option Controller :=
  match nrTest with
  | 0 => some { s with testCmd := 0, registerAddr := icapRegIdcode, nrTest := nrTest + 1 }
  | 1 => some { s with testCmd := 2, nrTest := nrTest + 1 }
  | 2 => some { s with testCmd := 0, registerAddr := icapRegIdcode, nrTest := nrTest + 1 }
  | _ => none

/-- The operation of the test does one step. -/
def operate : Controller × Out :=
  match s.testCmd with
  | 0 =>
    let op := s.regs.call s.registerAddr i.fromIcap
    ({ s with regs := op.1 }, op.2)
  | 1 =>
    let op := s.iprog.call
    ({ s with iprog := op.1 }, op.2)
  | 2 =>
    let op := s.readback.call s.regs i.fromIcap i.frameAddr
    ({ s with readback := op.1, regs := op.2.1 }, op.2.2)
  | _ => (s, { ret := .done })

/-- A step of `icap_controller_hls`, with what it writes. -/
def next : Controller × Out :=
  match s.state with
  | .inactive =>
    if i.startTest = 0 then (s, {})
    else
      let nrTest := if i.resetTest = 1 then 0 else s.nrTest
      match s.selectTest nrTest with
      | none => ({ s with nrTest := nrTest }, {})
      | some s =>
        ({ s with state := if i.avail = 0 then .inactive else .active },
          { pins := some ⟨icapCsibDisable, icapRdwrbRead⟩ })
  | .active =>
    ({ s with state := if i.avail = 0 then .inactive else .opStart },
      { pins := some ⟨icapCsibDisable, icapRdwrbRead⟩ })
  | .opStart =>
    let op := s.operate i
    ({ op.1 with state := if op.2.ret = .done then .done else .opStart }, op.2)
  | .done =>
    ({ s with state := .inactive }, { pins := some ⟨icapCsibDisable, icapRdwrbRead⟩ })

/-- A call of `icap_controller_hls`: the signals that it does not write are held. -/
def call : Controller :=
  { (s.next i).1 with pins := (s.next i).2.pins.getD s.pins }

end Controller

end FpgaOs.Icap
