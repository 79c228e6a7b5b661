import Mathlib.Data.Nat.Log
import Mathlib.Tactic.NormNum

/-!
# Configuration of the buddy allocator

The macros of `include/fpga/mem_common.h` and the logarithm helpers of `include/fpga/log2.h`. The
physical allocator manages `2 ^ 30` bytes, the virtual one (`_VIRT_ADDR_`) the whole 32-bit space;
every other constant is computed from `BUDDY_MAX_SHIFT`, so the configuration is that one number.
-/

namespace FpgaOs.Alloc

/-- `BUDDY_MAX_SHIFT`: log 2 of the address space the allocator manages. -/
structure Config where
  maxShift : ℕ

/-- `BUDDY_MIN_SHIFT`: log 2 of the smallest block. -/
def minShift : ℕ := 8

/-- `BUDDY_SET_SIZE`: the associativity of the cache, `1 << BUDDY_SET_ORDER`. -/
def setSize : ℕ := 2

namespace Config

/-- The physical memory allocator. -/
def phys : Config := ⟨30⟩

/-- The heap allocator (`_VIRT_ADDR_`). -/
def virt : Config := ⟨32⟩

variable (c : Config)

def orderMax : ℕ := c.maxShift - minShift

def orderPadBits : ℕ := if c.orderMax % 3 ≠ 0 then 3 - c.orderMax % 3 else 0

def orderMaxPad : ℕ := c.orderMax + c.orderPadBits

def levelMax : ℕ := c.orderMaxPad / 3

/-- `BUDDY_META_SIZE`: one byte for every node of the tree. -/
def metaSize : ℕ := (1 <<< (3 * c.levelMax)) / 7

/-- The configurations the address codec is meant for. -/
structure Ok : Prop where
  lt_maxShift : 11 < c.maxShift
  maxShift_le : c.maxShift ≤ 32

theorem ok_phys : phys.Ok := ⟨by decide, by decide⟩

theorem ok_virt : virt.Ok := ⟨by decide, by decide⟩

variable {c}

theorem three_mul_levelMax : 3 * c.levelMax = c.orderMax + c.orderPadBits := by
  have : (c.orderMax + c.orderPadBits) % 3 = 0 := by
    rw [orderPadBits]
    split <;> omega
  rw [levelMax, orderMaxPad]
  omega

theorem orderPadBits_le : c.orderPadBits ≤ 2 := by
  rw [orderPadBits]
  split <;> omega

theorem Ok.maxShift_eq (hc : c.Ok) : c.maxShift = c.orderMax + 8 := by
  have := hc.lt_maxShift
  rw [orderMax, minShift]
  omega

/-- A node above the bottom keeps its whole index in the tag. -/
theorem three_mul_le_orderMax {l : ℕ} (hl : l < c.levelMax) : 3 * l ≤ c.orderMax := by
  have h1 := three_mul_levelMax (c := c)
  have h2 := orderPadBits_le (c := c)
  omega

/-- The cells of every level are whole numbers of bytes. -/
theorem Ok.three_mul_succ_le (hc : c.Ok) {l : ℕ} (hl : l < c.levelMax) :
    3 * (l + 1) ≤ c.maxShift := by
  have h1 := three_mul_levelMax (c := c)
  have h2 := orderPadBits_le (c := c)
  have h3 := hc.maxShift_eq
  omega

theorem Ok.levelMax_pos (hc : c.Ok) : 0 < c.levelMax := by
  have h1 := three_mul_levelMax (c := c)
  have h2 := hc.maxShift_eq
  have h3 := hc.lt_maxShift
  omega

end Config

/-! ## Logarithms -/

/-- The search loop of `log2`: halve the window, and drop the upper half when it is empty. -/
def log2Loop {W : ℕ} : ℕ → BitVec W → BitVec W → BitVec W → BitVec W
  | 0, num, _, _ => num
  | fuel + 1, num, shift, word =>
    if shift = 0 then num
    else if word &&& (BitVec.allOnes W <<< (W - shift.toNat)) = 0 then
      log2Loop fuel (num - shift) (shift >>> 1) (word <<< shift.toNat)
    else log2Loop fuel num (shift >>> 1) word

/-- `log2<WIDTH>`; the loop halves `shift`, so it cannot run `WIDTH` times. -/
def log2 {W : ℕ} (word : BitVec W) : BitVec W :=
  log2Loop W (BitVec.ofNat W (W - 1)) (BitVec.ofNat W (W >>> 1)) word

/-- `order_base_2<WIDTH>`. -/
def orderBase2 {W : ℕ} (n : BitVec W) : BitVec W := if 1#W < n then log2 (n - 1) + 1 else 0

namespace Config

variable (c : Config)

/-- The order the constructor reserves for the metadata. -/
def metaOrder : ℕ := (orderBase2 (BitVec.ofNat 32 c.metaSize >>> minShift)).toNat

/-- The block reserved for the metadata is an ordinary block, and the metadata fit into it. -/
structure MetaOk : Prop where
  lt_orderMax : c.metaOrder + 1 < c.orderMax
  metaSize_le : c.metaSize ≤ 2 ^ (c.metaOrder + minShift)

theorem metaOk_phys : phys.MetaOk := ⟨by decide, by decide⟩

theorem metaOk_virt : virt.MetaOk := ⟨by decide, by decide⟩

end Config

end FpgaOs.Alloc
