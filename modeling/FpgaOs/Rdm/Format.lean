import FpgaOs.Lib.BitField
import FpgaOs.Mapping.Pipeline

/-!
# Units, packets and commands of the remote-memory service

The service reads and writes units of 64 bytes. A request is a packet of two header units, which a
`WRITE` extends by its data; the second header holds the opcode, the address and the length. The
stages hand on a `pipeline_info` for each request, which collects what they have found out about it.
-/

namespace FpgaOs.Rdm

open BitField Mapping

/-- `struct net_axis_512`. -/
structure NetAxis where
  data : BitVec 512 := 0
  last : BitVec 1 := 0
  keep : BitVec 64 := 0
  user : BitVec 64 := 0
  deriving DecidableEq

/-! ## `enum APP_RDMA_OPCODE` -/

def opcodeRead : BitVec 8 := 0
def opcodeWrite : BitVec 8 := 1
def opcodeAlloc : BitVec 8 := 3
def opcodeReplyWrite : BitVec 8 := 4
def opcodeReplyAlloc : BitVec 8 := 5
def opcodeReplyAllocError : BitVec 8 := 6
def opcodeReplyRead : BitVec 8 := 7
def opcodeReplyReadError : BitVec 8 := 8

/-! ## The fields of the second header -/

section Header

variable (d : NetAxis)

def NetAxis.opcode : BitVec 8 := slice d.data 0 8

def NetAxis.address : BitVec 64 := slice d.data 8 64

def NetAxis.length : BitVec 64 := slice d.data 72 64

def NetAxis.nrPacket : BitVec 64 := slice d.data 136 64

def NetAxis.setOpcode (v : BitVec 8) : NetAxis := { d with data := setSlice d.data 0 v }

def NetAxis.setAddress (v : BitVec 64) : NetAxis := { d with data := setSlice d.data 8 v }

def NetAxis.setLength (v : BitVec 64) : NetAxis := { d with data := setSlice d.data 72 v }

def NetAxis.setNrPacket (v : BitVec 64) : NetAxis := { d with data := setSlice d.data 136 v }

@[simp] theorem opcode_last (v : BitVec 1) : ({ d with last := v } : NetAxis).opcode = d.opcode :=
  rfl

@[simp] theorem nrPacket_last (v : BitVec 1) :
    ({ d with last := v } : NetAxis).nrPacket = d.nrPacket := rfl

@[simp] theorem opcode_setOpcode (v : BitVec 8) : (d.setOpcode v).opcode = v :=
  slice_setSlice_self (by decide)

@[simp] theorem opcode_setAddress (v : BitVec 64) : (d.setAddress v).opcode = d.opcode :=
  slice_setSlice_of_disjoint (by decide) (by decide)

@[simp] theorem opcode_setLength (v : BitVec 64) : (d.setLength v).opcode = d.opcode :=
  slice_setSlice_of_disjoint (by decide) (by decide)

@[simp] theorem address_last (v : BitVec 1) :
    ({ d with last := v } : NetAxis).address = d.address := rfl

@[simp] theorem address_setAddress (v : BitVec 64) : (d.setAddress v).address = v :=
  slice_setSlice_self (by decide)

@[simp] theorem address_setLength (v : BitVec 64) : (d.setLength v).address = d.address :=
  slice_setSlice_of_disjoint (by decide) (by decide)

@[simp] theorem length_setLength (v : BitVec 64) : (d.setLength v).length = v :=
  slice_setSlice_self (by decide)

@[simp] theorem nrPacket_setNrPacket (v : BitVec 64) : (d.setNrPacket v).nrPacket = v :=
  slice_setSlice_self (by decide)

@[simp] theorem nrPacket_setOpcode (v : BitVec 8) : (d.setOpcode v).nrPacket = d.nrPacket :=
  slice_setSlice_of_disjoint (by decide) (by decide)

@[simp] theorem nrPacket_setAddress (v : BitVec 64) : (d.setAddress v).nrPacket = d.nrPacket :=
  slice_setSlice_of_disjoint (by decide) (by decide)

@[simp] theorem nrPacket_setLength (v : BitVec 64) : (d.setLength v).nrPacket = d.nrPacket :=
  slice_setSlice_of_disjoint (by decide) (by decide)

/-- A second header with the given fields. -/
def header (opcode : BitVec 8) (va length : BitVec 64) : NetAxis :=
  ((({} : NetAxis).setOpcode opcode).setAddress va).setLength length

@[simp] theorem opcode_header (opcode : BitVec 8) (va length : BitVec 64) :
    (header opcode va length).opcode = opcode := by
  simp [header]

@[simp] theorem length_header (opcode : BitVec 8) (va length : BitVec 64) :
    (header opcode va length).length = length := by
  simp [header]

end Header

/-! ## What the stages hand on -/

def piAllocSucceed : BitVec 1 := 0
def piAllocFail : BitVec 1 := 1
def piMapSucceed : BitVec 1 := 0
def piMapFail : BitVec 1 := 1

/-- `struct pipeline_info`. -/
structure PipelineInfo where
  opcode : BitVec 8 := 0
  va : BitVec 64 := 0
  length : BitVec 64 := 0
  nrUnits : BitVec 64 := 0
  pa : BitVec 64 := 0
  paIndex : BitVec 64 := 0
  mapStatus : BitVec 1 := 0
  allocStatus : BitVec 1 := 0
  allocPa : BitVec 64 := 0
  allocVa : BitVec 64 := 0
  nrPacket : BitVec 64 := 0
  ethHeader : NetAxis := {}
  appHeader : NetAxis := {}
  deriving DecidableEq

/-- `struct mem_cmd`. -/
structure MemCmd where
  address : BitVec 64
  length : BitVec 64
  nrUnits : BitVec 32
  deriving DecidableEq

/-- The fields of `struct dm_cmd` that are not constant. -/
structure DmCmd where
  btt : BitVec 23
  startAddress : BitVec 32
  deriving DecidableEq

/-- `struct axis_mem`. -/
structure AxisMem where
  data : BitVec 512
  keep : BitVec 64
  last : BitVec 1
  deriving DecidableEq

/-- The command word that the pipes send to the data mover. -/
def MemCmd.cook (cmd : MemCmd) : DmCmd := ⟨slice cmd.length 0 23, slice cmd.address 0 32⟩

/-- `struct buddy_alloc_if`. -/
structure BuddyAlloc where
  opcode : BitVec 1
  addr : BitVec 32
  order : BitVec 22
  deriving DecidableEq

/-! ## Lengths -/

/-- `round_up`, for a power of two. -/
def roundUp (x y : BitVec 64) : BitVec 64 := ((x - 1) ||| (y - 1)) + 1

theorem or_two_pow_sub_one (m k : ℕ) : m ||| (2 ^ k - 1) = m / 2 ^ k * 2 ^ k + (2 ^ k - 1) := by
  have hpos : 0 < 2 ^ k := Nat.two_pow_pos k
  have hsplit : m = (m / 2 ^ k) <<< k ||| m % 2 ^ k := by
    rw [← Nat.shiftLeft_add_eq_or_of_lt (Nat.mod_lt m hpos), Nat.shiftLeft_eq, Nat.div_add_mod']
  have hlow : m % 2 ^ k ||| (2 ^ k - 1) = 2 ^ k - 1 := by
    apply Nat.eq_of_testBit_eq
    intro i
    rw [Nat.testBit_or, Nat.testBit_mod_two_pow, Nat.testBit_two_pow_sub_one]
    cases decide (i < k) with
    | true => exact Bool.or_true _
    | false => rfl
  calc m ||| (2 ^ k - 1)
      = (m / 2 ^ k) <<< k ||| (m % 2 ^ k ||| (2 ^ k - 1)) := by rw [← Nat.or_assoc, ← hsplit]
    _ = (m / 2 ^ k) <<< k ||| (2 ^ k - 1) := by rw [hlow]
    _ = m / 2 ^ k * 2 ^ k + (2 ^ k - 1) := by
      rw [← Nat.shiftLeft_add_eq_or_of_lt (Nat.sub_lt hpos Nat.one_pos), Nat.shiftLeft_eq]

theorem toNat_roundUp {x y : BitVec 64} {k : ℕ} (hy : (y - 1).toNat = 2 ^ k - 1) :
    (roundUp x y).toNat = ((x - 1).toNat / 2 ^ k * 2 ^ k + 2 ^ k) % 2 ^ 64 := by
  have hone : (1 : BitVec 64).toNat = 1 := rfl
  have hpos : 0 < 2 ^ k := Nat.two_pow_pos k
  rw [roundUp, BitVec.toNat_add, BitVec.toNat_or, hy, or_two_pow_sub_one, hone, Nat.add_assoc,
    Nat.sub_add_cancel hpos]

theorem toNat_sub_one (x : BitVec 64) : (x - 1).toNat = (x.toNat + (2 ^ 64 - 1)) % 2 ^ 64 := by
  have hone : (1 : BitVec 64).toNat = 1 := rfl
  rw [BitVec.toNat_sub, hone, Nat.add_comm]

/-- The number of units that hold `n` bytes. -/
def unitsOf (n : ℕ) : ℕ := (n + 63) / 64

theorem toNat_roundUp_units {x : BitVec 64} (hpos : 1 ≤ x.toNat) (hlt : x.toNat < 2 ^ 63) :
    (roundUp x 64).toNat = 64 * unitsOf x.toNat := by
  rw [toNat_roundUp (by decide : (64 - 1 : BitVec 64).toNat = 2 ^ 6 - 1), toNat_sub_one, unitsOf]
  omega

/-! ## Packets -/

/-- A well-formed request packet. -/
structure Packet where
  eth : NetAxis
  app : NetAxis
  payload : List NetAxis
  opcode_mem : app.opcode = opcodeRead ∨ app.opcode = opcodeWrite ∨ app.opcode = opcodeAlloc
  length_pos : 1 ≤ app.length.toNat
  length_lt : app.length.toNat < 2 ^ 23 - 63
  payload_length : payload.length = if app.opcode = opcodeWrite then unitsOf app.length.toNat else 0
  /-- `last` is set on the final unit only. -/
  last_iff : ∀ i d, (eth :: app :: payload)[i]? = some d → (d.last = 1 ↔ i = payload.length + 1)

/-- The units of a packet. -/
def Packet.units (p : Packet) : List NetAxis := p.eth :: p.app :: p.payload

/-- The number of data units that a packet is about. -/
def Packet.nrUnits (p : Packet) : ℕ := unitsOf p.app.length.toNat

end FpgaOs.Rdm
