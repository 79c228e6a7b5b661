import FpgaOs.Alloc.Release
import FpgaOs.Lib.Machine

/-!
# The allocator and its clients

The allocator itself does not know which blocks are in use; its clients do. A `Ledger` puts the two
side by side: the allocator, and the list of blocks that it has granted and not taken back. A
request is answered by `handler`, and the answer updates the list.

`Ledger.Inv` ties the two together. The tree shows exactly the blocks of the list and the one the
constructor reserved for the metadata, and these do not conflict. It holds for a new allocator,
every `ALLOC` keeps it, and so does every `FREE` of a block on the list; a `FREE` that is refused
does not touch it.
-/

namespace FpgaOs.Alloc

open Octree

/-! ## Blocks on the list -/

variable {c : Config}

/-- A granted block: the address in the reply, and the order of the request. -/
abbrev Grant (c : Config) := BitVec 32 × BitVec c.orderMax

/-- The block a pair of managed offset and order stands for. -/
def blockAt (c : Config) (off : BitVec 32) (o : ℕ) : Block where
  level := orderToLevel c o
  cell := addrCell c off (orderToLevel c o)
  width := orderToWidth c o

/-- The block the constructor reserves for the metadata. -/
def metaBlock (c : Config) : Block := blockAt c 0 c.metaOrder

/-- The offset is one at which a block of the order can start. -/
structure IsOffset (c : Config) (off : BitVec 32) (o : ℕ) : Prop where
  lt_orderMax : o < c.orderMax - 1
  dvd : 2 ^ (o + minShift) ∣ off.toNat
  add_le : off.toNat + 2 ^ (o + minShift) ≤ 2 ^ c.maxShift

section Offset

variable {off : BitVec 32} {o : ℕ}

theorem IsOffset.lt (h : IsOffset c off o) : off.toNat < 2 ^ c.maxShift :=
  lt_of_lt_of_le (Nat.lt_add_of_pos_right (by positivity)) h.add_le

theorem IsOffset.toNat_eq (hc : c.Ok) (h : IsOffset c off o) :
    off.toNat = (blockAt c off o).cell * 2 ^ (c.maxShift - 3 * (orderToLevel c o + 1)) := by
  have hom : o < c.orderMax := by have := h.lt_orderMax; omega
  have hdvd := h.dvd
  rw [← orderToWidth_mul hc hom] at hdvd
  rw [blockAt, addrCell, Nat.mod_eq_of_lt h.lt]
  exact (Nat.div_mul_cancel (dvd_of_mul_left_dvd hdvd)).symm

theorem IsOffset.isBlock (hc : c.Ok) (h : IsOffset c off o) : IsBlock c o (blockAt c off o) where
  level_eq := rfl
  width_eq := rfl
  dvd := by
    have hom : o < c.orderMax := by have := h.lt_orderMax; omega
    have hdvd := h.dvd
    rw [← orderToWidth_mul hc hom, h.toNat_eq hc] at hdvd
    exact Nat.dvd_of_mul_dvd_mul_right (by positivity) hdvd
  cell_lt := addrCell_lt hc (orderToLevel_lt hc o)

theorem denotes_blockAt (hc : c.Ok) (off : BitVec 32) (o : ℕ) :
    Buddy.Denotes c off (blockAt c off o) := by
  intro l hl
  obtain ⟨k, hk⟩ := Nat.exists_eq_add_of_le hl
  have hle := hc.three_mul_succ_le (orderToLevel_lt hc o)
  have hlevel : orderToLevel c o = l + k := hk
  rw [Block.anchor, hk, Nat.add_sub_cancel_left, blockAt, addrCell, addrCell, hlevel,
    Block.div_cell_div (by rwa [hlevel] at hle)]

theorem IsOffset.mem_iff (hc : c.Ok) (h : IsOffset c off o) {x : ℕ} :
    (blockAt c off o).Mem c.maxShift x ↔ off.toNat ≤ x ∧ x < off.toNat + 2 ^ (o + minShift) := by
  have hom : o < c.orderMax := by have := h.lt_orderMax; omega
  rw [Block.Mem, add_mul, h.toNat_eq hc, ← orderToWidth_mul hc hom]
  rfl

end Offset

theorem blockAt_of_isBlock (hc : c.Ok) {off : BitVec 32} {o : ℕ} {b : Block}
    (ho : o < c.orderMax - 1) (hb : IsBlock c o b)
    (hoff : off.toNat = b.cell * 2 ^ (c.maxShift - 3 * (b.level + 1))) :
    IsOffset c off o ∧ blockAt c off o = b := by
  have hom : o < c.orderMax := by omega
  have hle := hc.three_mul_succ_le (hb.level_lt hc)
  -- in bytes: the whole range, and the block
  have hsize : 8 ^ (b.level + 1) * 2 ^ (c.maxShift - 3 * (b.level + 1)) = 2 ^ c.maxShift := by
    rw [show (8 : ℕ) = 2 ^ 3 from rfl, ← pow_mul, ← pow_add, Nat.add_sub_cancel' hle]
  have hspan : b.width * 2 ^ (c.maxShift - 3 * (b.level + 1)) = 2 ^ (o + minShift) := by
    rw [hb.width_eq, hb.level_eq, orderToWidth_mul hc hom]
  have hend : b.cell + b.width ≤ 8 ^ (b.level + 1) := by
    have hlt := hb.cell_lt
    have hin := hb.wf.within
    rw [pow_succ] at hlt ⊢
    omega
  have hoffset : IsOffset c off o := by
    refine ⟨ho, ?_, ?_⟩
    · rw [hoff, ← hspan]
      exact Nat.mul_dvd_mul_right hb.dvd _
    · rw [hoff, ← hspan, ← add_mul, ← hsize]
      exact Nat.mul_le_mul_right _ hend
  refine ⟨hoffset, ?_⟩
  have hcell : addrCell c off b.level = b.cell := by
    rw [addrCell, Nat.mod_eq_of_lt hoffset.lt, hoff, Nat.mul_div_cancel _ (by positivity)]
  rw [blockAt, ← hb.level_eq, ← hb.width_eq, hcell]

/-! ## The list -/

/-- The allocator, and the blocks its clients hold. -/
structure Ledger (c : Config) where
  buddy : Buddy c
  outstanding : List (Grant c)

namespace Ledger

def init (c : Config) (base : BitVec 64) : Ledger c := ⟨Buddy.init c base, []⟩

/-- A request is served, and what the reply grants or takes back is noted. -/
def step (s : Ledger c) (req : Request c) : Ledger c :=
  let r := s.buddy.handler req
  { buddy := r.2
    outstanding :=
      match req with
      | .alloc order =>
        if r.1.stat = 0 then (r.1.addr, order) :: s.outstanding else s.outstanding
      | .free addr order =>
        if r.1.stat = 0 then s.outstanding.erase (addr, order) else s.outstanding }

/-- The base address, as `handler` uses it. -/
def base (s : Ledger c) : BitVec 32 := s.buddy.cache.managedBase.setWidth 32

/-- The blocks in use, with the one for the metadata. -/
def blocks (s : Ledger c) : List Block :=
  (s.outstanding.map fun g ↦ blockAt c (g.1 - s.base) g.2.toNat) ++ [metaBlock c]

/-- A `FREE` names a block on the list. -/
def FreesOutstanding (s : Ledger c) : Request c → Prop
  | .alloc _ => True
  | .free addr order => (addr, order) ∈ s.outstanding

instance (s : Ledger c) (req : Request c) : Decidable (s.FreesOutstanding req) :=
  match req with
  | .alloc _ => isTrue trivial
  | .free addr order => inferInstanceAs (Decidable ((addr, order) ∈ s.outstanding))

/-- The invariant. -/
structure Inv (s : Ledger c) : Prop where
  wf : s.buddy.cache.WF
  freeSetOk : s.buddy.FreeSetOk
  valid : Valid s.blocks
  shows_blocks : s.buddy.cache.Shows (bitmap s.blocks)
  isOffset : ∀ g ∈ s.outstanding, IsOffset c (g.1 - s.base) g.2.toNat

/-! ## The initial state -/

/-- The level reserved for the metadata is below the bottom of the tree, and the block fits. -/
theorem isOffset_metaBlock (hc : c.Ok) (hm : c.MetaOk) : IsOffset c 0 c.metaOrder := by
  have h1 := hm.lt_orderMax
  have h2 := hc.maxShift_eq
  refine ⟨by omega, dvd_zero _, ?_⟩
  change 0 + 2 ^ (c.metaOrder + 8) ≤ 2 ^ c.maxShift
  rw [zero_add]
  exact Nat.pow_le_pow_right (by decide) (by omega)

theorem line_init (b : BitVec 64) (l i : ℕ) :
    (Buddy.init c b).cache.line l i = if i = 0 then metaLine c l else {} := by
  rw [Cache.line, Buddy.init]
  by_cases h : i = 0
  · simp [h]
  · simp [h]

theorem valid_metaLine (l : ℕ) : (metaLine c l).valid = true ↔ l ≤ orderToLevel c c.metaOrder := by
  rw [metaLine]
  split
  case isTrue h => exact iff_of_true rfl h
  case isFalse h => exact iff_of_false Bool.false_ne_true h

theorem children_metaLine {l : ℕ} (h : l ≤ orderToLevel c c.metaOrder) :
    (metaLine c l).children
      = widthMask (if l = orderToLevel c c.metaOrder then orderToWidth c c.metaOrder else 1) := by
  rw [metaLine, if_pos h]
  simp [setClearBits]

theorem tag_metaLine (l : ℕ) : (metaLine c l).tag = nodeTag c l 0 := by
  rw [metaLine, nodeTag, zero_mul]
  split <;> rfl

theorem wf_init (b : BitVec 64) : (Buddy.init c b).cache.WF := by
  -- only line 0 is in use, on the levels of the path to the metadata
  have hvalid : ∀ l i, ((Buddy.init c b).cache.line l i).valid → i = 0 ∧ (metaLine c l).valid := by
    intro l i h
    rw [line_init] at h
    split at h
    case isTrue hi => exact ⟨hi, h⟩
    case isFalse => exact absurd h Bool.false_ne_true
  have hsize : ∀ l, ((Buddy.init c b).cache.buddySet l).size = if l = 0 then 1 else 2 := by
    intro l
    rcases Nat.eq_zero_or_pos l with rfl | hl
    · rfl
    · have hge : 2 ≤ 1 <<< (3 * l) := by
        rw [Nat.one_shiftLeft]
        calc 2 = 2 ^ 1 := rfl
          _ ≤ 2 ^ (3 * l) := Nat.pow_le_pow_right (by decide) (by omega)
      rw [if_neg hl.ne']
      exact if_neg (not_lt.mpr hge)
  have hpos : ∀ l, 0 < ((Buddy.init c b).cache.buddySet l).size := by
    intro l
    rw [hsize]
    split <;> decide
  exact
  { level_eq := fun l _ ↦ rfl
    size_eq := fun l _ ↦ hsize l
    counter_lt := fun l _ ↦ hpos l
    valid_lt := fun l _ i h ↦ (hvalid l i h).1 ▸ hpos l
    tag_node := fun l _ i h ↦ by
      refine ⟨0, by positivity, ?_⟩
      rw [line_init, if_pos (hvalid l i h).1, tag_metaLine]
    distinct := fun l _ i j hi hj _ ↦ (hvalid l i hi).1.trans (hvalid l j hj).1.symm
    blank := fun l _ i h ↦ by
      rw [line_init] at h ⊢
      split at h
      case isTrue hi =>
        rw [if_pos hi, metaLine, if_neg fun hle ↦ h ((valid_metaLine l).mpr hle)]
      case isFalse hi => rw [if_neg hi]
    nonzero := fun l _ _ i h ↦ by
      rw [line_init, if_pos (hvalid l i h).1,
        children_metaLine ((valid_metaLine l).mp (hvalid l i h).2)]
      have := widthMask_shiftLeft_ne_zero (Cache.isWidth_ite (c := c) c.metaOrder l) 0
      simpa using this }

theorem bitmap_metaBlock_iff (hc : c.Ok) {l k : ℕ} :
    bitmap [metaBlock c] l k ↔ l ≤ orderToLevel c c.metaOrder ∧
      k < if l = orderToLevel c c.metaOrder then orderToWidth c c.metaOrder else 1 := by
  have hcell : ∀ l, addrCell c 0 l = 0 := fun l ↦ by simp [addrCell]
  rw [bitmap_cons, or_iff_left (by simp [bitmap])]
  constructor
  · intro h
    have hle := h.level_le
    rw [metaBlock, (denotes_blockAt hc 0 c.metaOrder).covers_iff hle, hcell, zero_add] at h
    exact ⟨hle, h.2⟩
  · rintro ⟨hle, hk⟩
    rw [metaBlock, (denotes_blockAt hc 0 c.metaOrder).covers_iff hle, hcell, zero_add]
    exact ⟨Nat.zero_le k, hk⟩

/-- The tree of a new allocator shows the metadata block. -/
theorem shows_init (hc : c.Ok) (b : BitVec 64) :
    (Buddy.init c b).cache.Shows (bitmap [metaBlock c]) := by
  have hs : (Buddy.init c b).cache.WF := wf_init b
  intro l hl n hn j hj
  rw [bitmap_metaBlock_iff hc]
  have hw := Cache.isWidth_ite (c := c) c.metaOrder l
  have hw8 : (if l = orderToLevel c c.metaOrder then orderToWidth c c.metaOrder else 1) ≤ 8 := by
    rcases hw with h | h | h <;> rw [h] <;> decide
  by_cases h : n = 0 ∧ l ≤ orderToLevel c c.metaOrder
  · obtain ⟨rfl, hle⟩ := h
    have hv : ((Buddy.init c b).cache.line l 0).valid := by
      rw [line_init, if_pos rfl, valid_metaLine]
      exact hle
    have ht : ((Buddy.init c b).cache.line l 0).tag = nodeTag c l 0 := by
      rw [line_init, if_pos rfl, tag_metaLine]
    have hbit := getLsbD_widthMask_shiftLeft hw 0#3 hj
    rw [BitVec.toNat_ofNat, Nat.zero_mod, BitVec.shiftLeft_zero, zero_add] at hbit
    rw [hs.node_of_line hl hv ht, line_init, if_pos rfl, children_metaLine hle, hbit,
      decide_eq_true_eq, mul_zero, zero_add]
    exact ⟨fun h ↦ ⟨hle, h.2⟩, fun h ↦ ⟨Nat.zero_le j, h.2⟩⟩
  · -- any other node is not cached, and DRAM is zero
    have hcached : ¬(Buddy.init c b).cache.Cached l n := by
      rintro ⟨i, -, hv, ht⟩
      rw [line_init] at hv ht
      split at hv
      case isTrue hi =>
        rw [if_pos hi, tag_metaLine] at ht
        exact h ⟨(nodeTag_inj hl (by positivity) hn ht).symm, (valid_metaLine l).mp hv⟩
      case isFalse => exact absurd hv Bool.false_ne_true
    rw [Cache.node_of_not_cached hcached]
    refine iff_of_false ?_ ?_
    · exact Bool.eq_false_iff.mp BitVec.getLsbD_zero
    · rintro ⟨hle, hk⟩
      exact h ⟨by omega, hle⟩

theorem inv_init (hc : c.Ok) (hm : c.MetaOk) (b : BitVec 64) : (init c b).Inv where
  wf := wf_init b
  freeSetOk _ _ := rfl
  valid :=
    { wf := by
        intro a ha
        rw [List.mem_singleton.mp ha]
        exact ((isOffset_metaBlock hc hm).isBlock hc).wf
      apart := List.pairwise_singleton _ _ }
  shows_blocks := shows_init hc b
  isOffset g hg := by cases hg

/-! ## The base address -/

theorem managedBase_alloc (s : Cache c) (o : ℕ) : (s.alloc o).2.2.managedBase = s.managedBase := by
  rw [Cache.alloc]
  split
  · rfl
  · dsimp only
    split
    · rfl
    · dsimp only
      rw [(Cache.registers_cacheLoad _ _ _ _ _ _ _).1, Cache.managedBase_takeSlot]

theorem managedBase_checkLevel (b : Buddy c) (addr : BitVec 32) (i w : ℕ) :
    (b.checkLevel addr i w).2.2.cache.managedBase = b.cache.managedBase := by
  rw [Buddy.checkLevel]
  split <;> rfl

theorem managedBase_check (addr : BitVec 32) (req w i : ℕ) :
    ∀ (b : Buddy c) (probe : Buddy.Probe),
      (b.check addr req w i probe).2.2.cache.managedBase = b.cache.managedBase := by
  induction i with
  | zero => exact fun b _ ↦ managedBase_checkLevel b addr 0 _
  | succ i ih =>
    intro b probe
    rw [Buddy.check]
    rw [apply_ite fun r : Bool × Buddy.Probe × Buddy c ↦ r.2.2.cache.managedBase, ih,
      managedBase_checkLevel, ite_self]

theorem managedBase_clearLevel (b : Buddy c) (probe : Buddy.Probe) (addr : BitVec 32) (i w : ℕ) :
    (b.clearLevel probe addr i w).2.cache.managedBase = b.cache.managedBase := by
  rw [Buddy.clearLevel]
  split
  · dsimp only
    split <;> rfl
  · rfl

theorem managedBase_clear (probe : Buddy.Probe) (addr : BitVec 32) (req w i : ℕ) :
    ∀ b : Buddy c, (b.clear probe addr req w i).cache.managedBase = b.cache.managedBase := by
  induction i with
  | zero => exact fun b ↦ managedBase_clearLevel b probe addr 0 _
  | succ i ih =>
    intro b
    rw [Buddy.clear]
    rw [apply_ite fun r : Buddy c ↦ r.cache.managedBase, ih, managedBase_clearLevel, ite_self]

theorem managedBase_free (b : Buddy c) (o : ℕ) (addr : BitVec 32) :
    (b.free o addr).2.cache.managedBase = b.cache.managedBase := by
  rw [Buddy.free]
  split
  · rfl
  · dsimp only
    rw [apply_ite fun r : BitVec 1 × Buddy c ↦ r.2.cache.managedBase]
    rw [managedBase_clear, managedBase_check, ite_self]

theorem managedBase_step (s : Ledger c) (req : Request c) :
    (s.step req).buddy.cache.managedBase = s.buddy.cache.managedBase := by
  cases req with
  | alloc order => exact managedBase_alloc s.buddy.cache order.toNat
  | free addr order => exact managedBase_free s.buddy order.toNat _

theorem managedBase_run (s : Ledger c) (reqs : List (Request c)) :
    (Machine.run step s reqs).buddy.cache.managedBase = s.buddy.cache.managedBase := by
  induction reqs generalizing s with
  | nil => rfl
  | cons req reqs ih => rw [Machine.run_cons, ih, managedBase_step]

theorem base_step (s : Ledger c) (req : Request c) : (s.step req).base = s.base := by
  rw [base, base, managedBase_step]

/-! ## One request -/

/-- What an `ALLOC` that is granted does. -/
structure Allocates (s : Ledger c) (order : BitVec c.orderMax) (off : BitVec 32) : Prop where
  isOffset : IsOffset c off order.toNat
  stat : (s.buddy.handler (.alloc order)).1.stat = 0
  addr : (s.buddy.handler (.alloc order)).1.addr = off + s.base
  outstanding : (s.step (.alloc order)).outstanding = (off + s.base, order) :: s.outstanding
  inv : (s.step (.alloc order)).Inv
  blocks : (s.step (.alloc order)).blocks = blockAt c off order.toNat :: s.blocks

variable {s : Ledger c}

theorem alloc_refused {o : ℕ} (h : (s.buddy.cache.alloc o).1 ≠ 0) :
    (s.buddy.cache.alloc o).1 = 1 ∧
      ∃ a, (s.buddy.cache.alloc o).2.2 = { s.buddy.cache with inBounds := a } := by
  by_cases ho : c.orderMax - 1 ≤ o
  · rw [Cache.alloc_of_le ho]
    exact ⟨rfl, _, rfl⟩
  · cases hfind : s.buddy.cache.lookUp (orderToLevel c o) (orderToWidth c o) (orderToLevel c o) with
    | none =>
      rw [Cache.alloc_of_lookUp_none (not_le.mp ho) hfind]
      exact ⟨rfl, _, rfl⟩
    | some r =>
      refine absurd ?_ h
      rw [Cache.alloc, if_neg ho]
      dsimp only
      rw [hfind]

theorem Inv.congr (hs : s.Inv) {b : Buddy c} (hfree : b.FreeSetOk) (hbase :
    b.cache.managedBase = s.buddy.cache.managedBase) (hset : b.cache.buddySet
      = s.buddy.cache.buddySet)
    (hdram : b.cache.dram = s.buddy.cache.dram) : Inv ⟨b, s.outstanding⟩ := by
  have hblocks : (⟨b, s.outstanding⟩ : Ledger c).blocks = s.blocks := by
    rw [blocks, blocks, base, base, hbase]
  refine ⟨hs.wf.of_buddySet_eq hset, hfree, hblocks ▸ hs.valid, ?_, ?_⟩
  · rw [hblocks]
    exact hs.shows_blocks.of_node_eq fun l _ n _ ↦ Cache.node_eq_of_eq hbase hset hdram l n
  · rw [base, hbase]
    exact hs.isOffset

/-- **`ALLOC` grants one new block, or refuses and leaves everything as it was.** -/
theorem Inv.alloc (hc : c.Ok) (hs : s.Inv) (order : BitVec c.orderMax) :
    ((s.buddy.handler (.alloc order)).1.stat = 1 ∧ (s.step (.alloc order)).Inv) ∨
      ∃ off, s.Allocates order off := by
  by_cases h : (s.buddy.cache.alloc order.toNat).1 = 0
  · refine Or.inr ⟨(s.buddy.cache.alloc order.toNat).2.1, ?_⟩
    -- a request that is granted is in range and has found a slot
    have ho : order.toNat < c.orderMax - 1 := by
      by_contra ho
      rw [Cache.alloc_of_le (not_lt.mp ho)] at h
      exact absurd h (show ¬(1 : BitVec 1) = 0 by decide)
    cases hfind : s.buddy.cache.lookUp (orderToLevel c order.toNat) (orderToWidth c order.toNat)
        (orderToLevel c order.toNat) with
    | none =>
      rw [Cache.alloc_of_lookUp_none ho hfind] at h
      exact absurd h (show ¬(1 : BitVec 1) = 0 by decide)
    | some r =>
      obtain ⟨st, nr, idx⟩ := r
      obtain ⟨n, hslot⟩ := hs.wf.slot_of_lookUp hc hfind
      have hgrant := hs.wf.alloc hc hs.valid hs.shows_blocks ho hfind hslot
      obtain ⟨hoff, hblock⟩ := blockAt_of_isBlock hc ho hslot.isBlock hgrant.addr
      have hstat : (s.buddy.handler (.alloc order)).1.stat = 0 := h
      have haddr : (s.buddy.handler (.alloc order)).1.addr
          = (s.buddy.cache.alloc order.toNat).2.1 + s.base := by
        rw [Buddy.handler]
        dsimp only
        rw [if_neg (by rw [h]; decide), base]
      have hout : (s.step (.alloc order)).outstanding
          = ((s.buddy.cache.alloc order.toNat).2.1 + s.base, order) :: s.outstanding := by
        rw [step]
        dsimp only
        rw [if_pos hstat, haddr]
      have hbase := base_step s (.alloc order)
      -- the block of the new entry is the one that `alloc` has granted
      have hblocks : (s.step (.alloc order)).blocks
          = blockAt c (s.buddy.cache.alloc order.toNat).2.1 order.toNat :: s.blocks := by
        rw [blocks, hout, hbase, blocks, List.map_cons, List.cons_append, BitVec.add_sub_cancel]
      refine ⟨hoff, hstat, haddr, hout, ⟨hgrant.wf, hs.freeSetOk, ?_, ?_, ?_⟩, hblocks⟩
      · rw [hblocks, hblock]
        exact hslot.valid_cons hc hs.wf hs.valid hs.shows_blocks
      · rw [hblocks, hblock]
        exact hgrant.shows_cons
      · intro g hg
        rw [hout] at hg
        rw [hbase]
        rcases List.mem_cons.mp hg with rfl | hg
        · rw [BitVec.add_sub_cancel]
          exact hoff
        · exact hs.isOffset g hg
  · -- a refused request changes the registers and nothing else
    obtain ⟨hstat, a, ha⟩ := alloc_refused h
    have hstat' : (s.buddy.handler (.alloc order)).1.stat = 1 := hstat
    refine Or.inl ⟨hstat', ?_⟩
    have heq : s.step (.alloc order)
        = ⟨{ s.buddy with cache := (s.buddy.cache.alloc order.toNat).2.2 }, s.outstanding⟩ := by
      rw [step]
      dsimp only
      rw [if_neg (by rw [hstat']; decide)]
      rfl
    rw [heq, ha]
    exact hs.congr hs.freeSetOk rfl rfl rfl

theorem mem_blocks {g : Grant c} (hg : g ∈ s.outstanding) :
    blockAt c (g.1 - s.base) g.2.toNat ∈ s.blocks :=
  List.mem_append_left _ (List.mem_map_of_mem hg)

/-- **`FREE` of a block on the list takes it off.** -/
theorem Inv.free (hc : c.Ok) (hs : s.Inv) {addr : BitVec 32} {order : BitVec c.orderMax}
    (hg : (addr, order) ∈ s.outstanding) :
    (s.buddy.handler (.free addr order)).1.stat = 0 ∧ (s.step (.free addr order)).Inv ∧
      (s.step (.free addr order)).outstanding = s.outstanding.erase (addr, order) ∧
      (s.step (.free addr order)).blocks.Perm
        (s.blocks.erase (blockAt c (addr - s.base) order.toNat)) := by
  have hoff := hs.isOffset _ hg
  obtain ⟨probe, b', a, -, hstart, -, hfree⟩ := Buddy.free_spec hc hs.wf hs.freeSetOk hs.valid
    hs.shows_blocks hoff.lt_orderMax (mem_blocks hg) (hoff.isBlock hc) (denotes_blockAt hc _ _)
  have hclear := Buddy.clear_spec hc hs.valid (mem_blocks hg) (hoff.isBlock hc)
    (denotes_blockAt hc _ _) probe _ le_rfl hstart
  have hbuddy : (s.step (.free addr order)).buddy = b'.clear probe (addr - s.base)
      (blockAt c (addr - s.base) order.toNat).level (blockAt c (addr - s.base) order.toNat).width
      (blockAt c (addr - s.base) order.toNat).level := congrArg Prod.snd hfree
  rw [← hbuddy] at hclear
  have hstat' : (s.buddy.handler (.free addr order)).1.stat = 0 := congrArg Prod.fst hfree
  have hout : (s.step (.free addr order)).outstanding = s.outstanding.erase (addr, order) := by
    rw [step]
    dsimp only
    rw [if_pos hstat']
  have hbase := base_step s (.free addr order)
  -- the entry goes, and with it its block
  have hperm : s.blocks.Perm (blockAt c (addr - s.base) order.toNat ::
      (s.step (.free addr order)).blocks) := by
    rw [blocks, blocks, hout, hbase, ← List.cons_append]
    exact ((List.perm_cons_erase hg).map _).append_right _
  have hblocks : (s.step (.free addr order)).blocks.Perm
      (s.blocks.erase (blockAt c (addr - s.base) order.toNat)) := by
    have := hperm.erase (blockAt c (addr - s.base) order.toNat)
    rw [List.erase_cons_head] at this
    exact this.symm
  refine ⟨hstat', ⟨hclear.wf, hclear.freeSetOk, (hs.valid.erase _).perm hblocks.symm, ?_, ?_⟩, hout,
    hblocks⟩
  · exact hclear.shows_erase.congr fun l _ n _ j _ ↦ bitmap_perm hblocks.symm
  · intro g hg'
    rw [hout] at hg'
    rw [hbase]
    exact hs.isOffset g (List.mem_of_mem_erase hg')

theorem Inv.step (hc : c.Ok) (s : Ledger c) (req : Request c) (hs : s.Inv)
    (hg : s.FreesOutstanding req) : (s.step req).Inv := by
  cases req with
  | alloc order =>
    rcases hs.alloc hc order with h | ⟨off, h⟩
    · exact h.2
    · exact h.inv
  | free addr order => exact (hs.free hc hg).2.1

end Ledger

end FpgaOs.Alloc
