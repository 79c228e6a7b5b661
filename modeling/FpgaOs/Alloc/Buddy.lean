import FpgaOs.Alloc.Codec
import Mathlib.Logic.Function.Basic

/-!
# The buddy allocator

`alloc/buddy/buddy.cpp`, function by function. The state is what a `Buddy` object and the memory
behind it hold: a two-line write-back cache for every level of the tree, a line per level that
`free` uses for nodes that are not cached, and the metadata bytes in DRAM.

Arrays are functions on `ℕ`. Two registers are added that the hardware does not have. `assertHeld`
remembers whether the assertion `level > 0` of `tag_level_to_drambuddy` has held at every call; in
synthesis the assertion is absent and the call goes on. `inBounds` remembers whether the level
search of `alloc` has stayed inside `buddy_set`: its counter is unsigned, so `start_level >= 0`
never ends the loop, and a search that finds nothing at level 0 goes on with `buddy_set[255]`. Such
a search is read as a failure here, and the register is cleared.
-/

namespace FpgaOs.Alloc

variable (c : Config)

/-- `struct BuddyCacheLine`, with the values of its constructor. -/
structure BuddyCacheLine where
  valid : Bool := false
  tag : BitVec c.orderMax := 0
  children : BitVec 8 := 0
  deriving DecidableEq

/-- `struct BuddyCacheSet`. -/
structure BuddyCacheSet where
  level : ℕ
  size : ℕ
  lines : ℕ → BuddyCacheLine c
  randCounter : ℕ

/-- `struct BuddyCacheFreeSet`. -/
structure BuddyCacheFreeSet where
  level : ℕ
  line : BuddyCacheLine c

/-- The part of a `Buddy` that `alloc` works on. -/
structure Cache where
  managedBase : BitVec 64
  buddySet : ℕ → BuddyCacheSet c
  dram : BitVec 64 → BitVec 8
  assertHeld : Bool
  inBounds : Bool

/-- `class Buddy`, together with the memory it is given. -/
structure Buddy where
  cache : Cache c
  buddyFreeSet : ℕ → BuddyCacheFreeSet c

variable {c}

/-! ## Cache lines -/

/-- The `switch (width)` of the line operations. -/
def widthMask : ℕ → BitVec 8
  | 1 => 0x1
  | 2 => 0x3
  | 4 => 0xF
  | _ => 0x0

/-- `test_valid_bits`. -/
def testValidBits (line : BuddyCacheLine c) (width : ℕ) (idx : BitVec 3) : Bool :=
  line.valid && line.children &&& (widthMask width <<< idx.toNat) != 0

/-- `set_clear_bits`. -/
def setClearBits (line : BuddyCacheLine c) (width : ℕ) (idx : BitVec 3) (setClear : Bool) :
    BuddyCacheLine c :=
  if setClear then { line with children := line.children ||| (widthMask width <<< idx.toNat) }
  else { line with children := line.children &&& ~~~(widthMask width <<< idx.toNat) }

/-- `get_free_4bit`. -/
def getFree4bit (line : BuddyCacheLine c) : BitVec 3 := if line.children &&& 0xF = 0 then 0 else 4

/-- `get_free_2bit`. -/
def getFree2bit (line : BuddyCacheLine c) : BitVec 3 :=
  if line.children &&& 0x3 = 0 then 0
  else if line.children &&& 0xC = 0 then 2
  else if line.children &&& 0x30 = 0 then 4
  else 6

/-- `get_free_1bit`. -/
def getFree1bit (line : BuddyCacheLine c) : BitVec 3 :=
  if line.children &&& 0x1 = 0 then 0
  else if line.children &&& 0x2 = 0 then 1
  else if line.children &&& 0x4 = 0 then 2
  else if line.children &&& 0x8 = 0 then 3
  else if line.children &&& 0x10 = 0 then 4
  else if line.children &&& 0x20 = 0 then 5
  else if line.children &&& 0x40 = 0 then 6
  else 7

/-- The index the `switch (width)` of `get_valid_free_line` computes. -/
def getFreeIdx (line : BuddyCacheLine c) (width : ℕ) (idx : BitVec 3) : BitVec 3 :=
  match width with
  | 1 => getFree1bit line
  | 2 => getFree2bit line
  | 4 => getFree4bit line
  | _ => idx

/-- `get_valid_free_line`: the return value and `*idx`. -/
def getValidFreeLine (line : BuddyCacheLine c) (width : ℕ) (idx : BitVec 3) : Bool × BitVec 3 :=
  if line.valid then
    let idx' := getFreeIdx line width idx
    ((width == 1 || width == 2 || width == 4) &&
      (widthMask width <<< idx'.toNat) &&& line.children == 0, idx')
  else (false, idx)

/-! ## Cache sets -/

/-- `get_valid_free_set`: the first line with a free slot, and the slot. -/
def getValidFreeSet (set : BuddyCacheSet c) (width : ℕ) : Option (ℕ × BitVec 3) :=
  (List.range (min setSize set.size)).findSome? fun nrAsso ↦
    let r := getValidFreeLine (set.lines nrAsso) width 0
    if r.1 then some (nrAsso, r.2) else none

/-- `tag_in_cache`. -/
def tagInCache (set : BuddyCacheSet c) (tag : BitVec c.orderMax) : Option ℕ :=
  (List.range set.size).find? fun nrAsso ↦ (set.lines nrAsso).valid && (set.lines nrAsso).tag == tag

/-- `BuddyCacheSet::count`, on the two-bit counter. -/
def BuddyCacheSet.count (set : BuddyCacheSet c) : BuddyCacheSet c :=
  let next := (set.randCounter + 1) % 2 ^ 2
  { set with randCounter := if set.size ≤ next then 0 else next }

/-- `choose_line`: whether no line has to be flushed, `*nr_asso`, and the set after the call. -/
def chooseLine (set : BuddyCacheSet c) : Bool × ℕ × BuddyCacheSet c :=
  match (List.range set.size).find? fun i ↦ !(set.lines i).valid with
  | some i => (true, i, set)
  | none => (false, set.randCounter, set.count)

def BuddyCacheSet.setLine (set : BuddyCacheSet c) (nrAsso : ℕ) (line : BuddyCacheLine c) :
    BuddyCacheSet c :=
  { set with lines := Function.update set.lines nrAsso line }

namespace Cache

def line (s : Cache c) (level nrAsso : ℕ) : BuddyCacheLine c := (s.buddySet level).lines nrAsso

def setSet (s : Cache c) (level : ℕ) (set : BuddyCacheSet c) : Cache c :=
  { s with buddySet := Function.update s.buddySet level set }

def setLine (s : Cache c) (level nrAsso : ℕ) (line : BuddyCacheLine c) : Cache c :=
  s.setSet level ((s.buddySet level).setLine nrAsso line)

/-- The address a node's byte has in DRAM. -/
def drambuddy (s : Cache c) (tag : BitVec c.orderMax) (level : ℕ) : BitVec 64 :=
  tagLevelToDrambuddy s.managedBase tag level

/-- `assert(level > 0)` of `tag_level_to_drambuddy`. -/
def assertLevel (s : Cache c) (level : ℕ) : Cache c :=
  { s with assertHeld := s.assertHeld && decide (0 < level) }

/-- `dram_write` to the byte of a node. -/
def dramWrite (s : Cache c) (tag : BitVec c.orderMax) (level : ℕ) (byte : BitVec 8) : Cache c :=
  { s.assertLevel level with dram := Function.update s.dram (s.drambuddy tag level) byte }

/-- `dram_read` of the byte of a node. -/
def dramRead (s : Cache c) (tag : BitVec c.orderMax) (level : ℕ) : BitVec 8 × Cache c :=
  (s.dram (s.drambuddy tag level), s.assertLevel level)

/-- `flush_line`. -/
def flushLine (s : Cache c) (level nrAsso : ℕ) : Cache c :=
  let line := s.line level nrAsso
  (s.dramWrite line.tag (s.buddySet level).level line.children).setLine level nrAsso {}

/-! ## `Buddy::alloc` -/

/-- The loop `ALLOC_VALID_LINE_LOOK_UP`, from `start_level` down: the level, the line and the slot
found, or nothing when the search passes level 0. -/
def lookUp (s : Cache c) (reqLevel width : ℕ) : ℕ → Option (ℕ × ℕ × BitVec 3)
  | 0 => (getValidFreeSet (s.buddySet 0) (if 0 = reqLevel then width else 1)).map fun r ↦ (0, r)
  | startLevel + 1 =>
    match getValidFreeSet (s.buddySet (startLevel + 1))
        (if startLevel + 1 = reqLevel then width else 1) with
    | some r => some (startLevel + 1, r)
    | none => lookUp s reqLevel width startLevel

/-- Set the bits of a slot in a cached line, and flush the line if that fills it. -/
def takeSlot (s : Cache c) (level nrAsso width : ℕ) (idx : BitVec 3) : Cache c :=
  let line := setClearBits (s.line level nrAsso) width idx true
  let s := s.setLine level nrAsso line
  if line.children = 0xFF then s.flushLine level nrAsso else s

/-- One round of the loop `ALLOC_CACHE_LOAD`: load the node `tag` of level `i`, take a slot in it,
and return the tag below that slot. -/
def loadLevel (s : Cache c) (i : ℕ) (tag : BitVec c.orderMax) (width : ℕ) (idx : BitVec 3) :
    Cache c × BitVec c.orderMax × BitVec 3 :=
  let chosen := chooseLine (s.buddySet i)
  let nrAsso := chosen.2.1
  let s := s.setSet i chosen.2.2
  let s := if chosen.1 then s else s.flushLine i nrAsso
  let read := s.dramRead tag i
  let line : BuddyCacheLine c := { valid := true, tag := tag, children := read.1 }
  let idx := (getValidFreeLine line width idx).2
  ((read.2.setLine i nrAsso line).takeSlot i nrAsso width idx, parenttagIdxToTag tag i idx, idx)

/-- The loop `ALLOC_CACHE_LOAD` for the `n` levels from `i` to `req_level`. -/
def cacheLoad (s : Cache c) (reqLevel width : ℕ) : ℕ → ℕ → BitVec c.orderMax → BitVec 3 →
    Cache c × BitVec c.orderMax
  | 0, _, tag, _ => (s, tag)
  | n + 1, i, tag, idx =>
    let r := s.loadLevel i tag (if i = reqLevel then width else 1) idx
    cacheLoad r.1 reqLevel width n (i + 1) r.2.1 r.2.2

/-- `Buddy::alloc`: the status, `*addr`, and the state after the call. -/
def alloc (s : Cache c) (order : ℕ) : BitVec 1 × BitVec 32 × Cache c :=
  if c.orderMax - 1 ≤ order then (1, 0, s)
  else
    let reqLevel := orderToLevel c order
    let width := orderToWidth c order
    match s.lookUp reqLevel width reqLevel with
    | none => (1, 0, { s with inBounds := false })
    | some (startLevel, nrAsso, idx) =>
      let tag := parenttagIdxToTag (s.line startLevel nrAsso).tag startLevel idx
      let s := s.takeSlot startLevel nrAsso (if startLevel = reqLevel then width else 1) idx
      let r := s.cacheLoad reqLevel width (reqLevel - startLevel) (startLevel + 1) tag idx
      (0, tagToAddr r.2, r.1)

end Cache

/-! ## `Buddy::free` -/

namespace Buddy

/-- The arrays `in_cache` and `nr_asso`: the line that caches the node of a level, if one does. -/
abbrev Probe := ℕ → Option ℕ

def setFreeLine (b : Buddy c) (i : ℕ) (line : BuddyCacheLine c) : Buddy c :=
  { b with buddyFreeSet := Function.update b.buddyFreeSet i { b.buddyFreeSet i with line := line } }

/-- One round of the check loop: `valid_req`, and the probe of this level. -/
def checkLevel (b : Buddy c) (addr : BitVec 32) (i width : ℕ) : Bool × Option ℕ × Buddy c :=
  let idx := addrToIdx c addr i
  let tag := addrToTag c addr i
  match tagInCache (b.cache.buddySet i) tag with
  | some nrAsso => (testValidBits (b.cache.line i nrAsso) width idx, some nrAsso, b)
  | none =>
    let read := b.cache.dramRead tag i
    let line : BuddyCacheLine c := { valid := true, tag := tag, children := read.1 }
    (testValidBits line width idx, none, { b with cache := read.2 }.setFreeLine i line)

/-- The check loop, from level `i` up to the root; it stops at the first level that fails. -/
def check (b : Buddy c) (addr : BitVec 32) (reqLevel width : ℕ) :
    ℕ → Probe → Bool × Probe × Buddy c
  | 0, probe =>
    let r := b.checkLevel addr 0 (if 0 = reqLevel then width else 1)
    (r.1, Function.update probe 0 r.2.1, r.2.2)
  | i + 1, probe =>
    let r := b.checkLevel addr (i + 1) (if i + 1 = reqLevel then width else 1)
    let probe := Function.update probe (i + 1) r.2.1
    if r.1 then check r.2.2 addr reqLevel width i probe else (false, probe, r.2.2)

/-- One round of the clear loop: `cont`, and the state after the round. -/
def clearLevel (b : Buddy c) (probe : Probe) (addr : BitVec 32) (i width : ℕ) : Bool × Buddy c :=
  let idx := addrToIdx c addr i
  match probe i with
  | some nrAsso =>
    let line := setClearBits (b.cache.line i nrAsso) width idx false
    let s := b.cache.setLine i nrAsso line
    -- when children are all zero, flush it
    let s := if line.children = 0 ∧ 0 < (s.buddySet i).level then
        (s.dramWrite line.tag (s.buddySet i).level line.children).setLine i nrAsso
          { line with valid := false, tag := 0 }
      else s
    (line.children == 0, { b with cache := s })
  | none =>
    let line := setClearBits (b.buddyFreeSet i).line width idx false
    let s := b.cache.dramWrite line.tag (b.buddyFreeSet i).level line.children
    (line.children == 0, { b with cache := s }.setFreeLine i { line with valid := false })

/-- The clear loop, from level `i` up to the root, as long as the children are all zero. -/
def clear (b : Buddy c) (probe : Probe) (addr : BitVec 32) (reqLevel width : ℕ) : ℕ → Buddy c
  | 0 => (b.clearLevel probe addr 0 (if 0 = reqLevel then width else 1)).2
  | i + 1 =>
    let r := b.clearLevel probe addr (i + 1) (if i + 1 = reqLevel then width else 1)
    if r.1 then clear r.2 probe addr reqLevel width i else r.2

/-- `Buddy::free`. -/
def free (b : Buddy c) (order : ℕ) (addr : BitVec 32) : BitVec 1 × Buddy c :=
  if c.orderMax - 1 ≤ order then (1, b)
  else
    let reqLevel := orderToLevel c order
    let width := orderToWidth c order
    let r := b.check addr reqLevel width reqLevel fun _ ↦ some 0
    if r.1 then (0, r.2.2.clear r.2.1 addr reqLevel width reqLevel) else (1, r.2.2)

end Buddy

/-! ## The constructor and the request handler -/

/-- The line the constructor reserves for the metadata at level `i`. -/
def metaLine (c : Config) (i : ℕ) : BuddyCacheLine c :=
  if i ≤ orderToLevel c c.metaOrder then
    setClearBits { valid := true, tag := 0 }
      (if i = orderToLevel c c.metaOrder then orderToWidth c c.metaOrder else 1) 0 true
  else {}

/-- `Buddy::Buddy`, over a memory whose bytes are all zero. -/
def Buddy.init (c : Config) (base : BitVec 64) : Buddy c where
  cache :=
    { managedBase := base
      buddySet := fun i ↦
        { level := i
          size := if 1 <<< (3 * i) < setSize then 1 <<< (3 * i) else setSize
          lines := Function.update (fun _ ↦ {}) 0 (metaLine c i)
          randCounter := 0 }
      dram := fun _ ↦ 0
      assertHeld := true
      inBounds := true }
  buddyFreeSet := fun i ↦ { level := i, line := {} }

/-- `struct buddy_alloc_if`, by opcode. -/
inductive Request (c : Config)
  | alloc (order : BitVec c.orderMax)
  | free (addr : BitVec 32) (order : BitVec c.orderMax)
  deriving DecidableEq

/-- `struct buddy_alloc_ret_if`. -/
structure Reply where
  stat : BitVec 1
  addr : BitVec 32
  deriving DecidableEq

/-- `Buddy::handler`: addresses are offset by the managed base on the way in and out. -/
def Buddy.handler (b : Buddy c) : Request c → Reply × Buddy c
  | .alloc order =>
    let r := b.cache.alloc order.toNat
    ({ stat := r.1, addr := if r.1 = 1 then 0 else r.2.1 + b.cache.managedBase.setWidth 32 },
      { b with cache := r.2.2 })
  | .free addr order =>
    let r := b.free order.toNat (addr - b.cache.managedBase.setWidth 32)
    ({ stat := r.1, addr := 0 }, r.2)

end FpgaOs.Alloc
