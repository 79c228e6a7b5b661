import FpgaOs.Alloc.Ledger
import Mathlib.Data.Set.Basic

/-!
# Safety of the allocator, and the tree behind its cache

Two views of the invariant, for every run in which clients return only what they hold. From outside,
the blocks on the list are disjoint ranges of addresses, aligned to their size, and none of them
touches the metadata. From inside, the cache together with DRAM is an 8-ary bitmap tree: `ALLOC`
sets the bits of one block and of the path above it, `FREE` clears them again as far up as nothing
else is left, and moving bytes between the cache and DRAM is not visible in the tree.
-/

namespace FpgaOs.Alloc

open Octree Machine

variable {c : Config}

theorem Config.ok_of_built (hc : c = .phys ∨ c = .virt) : c.Ok ∧ c.MetaOk := by
  rcases hc with rfl | rfl
  · exact ⟨ok_phys, metaOk_phys⟩
  · exact ⟨ok_virt, metaOk_virt⟩

namespace Ledger

theorem inv_run (hc : c = .phys ∨ c = .virt) (b : BitVec 64) {reqs : List (Request c)}
    (hg : Guarded step FreesOutstanding (init c b) reqs) : (run step (init c b) reqs).Inv := by
  obtain ⟨hok, hm⟩ := Config.ok_of_built hc
  exact hg.invariant (Inv.step hok) (inv_init hok hm b)

/-! ## Addresses -/

/-- The addresses of a granted block; they wrap around with the address register. -/
def bytes (g : Grant c) : Set (BitVec 32) := {a | (a - g.1).toNat < 2 ^ (g.2.toNat + minShift)}

/-- Seen from the base, a block is an interval. -/
theorem toNat_sub_of_mem_bytes (hc : c.Ok) {g : Grant c} {b a : BitVec 32}
    (hg : IsOffset c (g.1 - b) g.2.toNat) (ha : a ∈ bytes g) :
    (g.1 - b).toNat ≤ (a - b).toNat ∧
      (a - b).toNat < (g.1 - b).toNat + 2 ^ (g.2.toNat + minShift) := by
  have hsum : a - b = (g.1 - b) + (a - g.1) := by bv_omega
  have hle : 2 ^ c.maxShift ≤ 2 ^ 32 := Nat.pow_le_pow_right (by decide) hc.maxShift_le
  have hsmall : (g.1 - b).toNat + (a - g.1).toNat < 2 ^ 32 :=
    (Nat.add_lt_add_left ha _).trans_le (hg.add_le.trans hle)
  rw [hsum, BitVec.toNat_add_of_lt hsmall]
  exact ⟨Nat.le_add_right _ _, Nat.add_lt_add_left ha _⟩

theorem Inv.disjoint_bytes (hc : c.Ok) {s : Ledger c} (hs : s.Inv) :
    s.outstanding.Pairwise fun g h ↦ ∀ a ∈ bytes g, a ∉ bytes h := by
  have hapart := (List.pairwise_append.mp hs.valid.apart).1
  rw [List.pairwise_map] at hapart
  refine hapart.imp_of_mem fun {g h} hg hh hconf ↦ ?_
  intro a hag hah
  refine hconf (Block.conflict_of_mem ((hs.isOffset g hg).isBlock hc).wf
    ((hs.isOffset h hh).isBlock hc).wf (hc.three_mul_succ_le (orderToLevel_lt hc _))
    (hc.three_mul_succ_le (orderToLevel_lt hc _)) (x := (a - s.base).toNat) ?_ ?_)
  · exact ((hs.isOffset g hg).mem_iff hc).mpr (toNat_sub_of_mem_bytes hc (hs.isOffset g hg) hag)
  · exact ((hs.isOffset h hh).mem_iff hc).mpr (toNat_sub_of_mem_bytes hc (hs.isOffset h hh) hah)

theorem Inv.disjoint_meta (hc : c.Ok) (hm : c.MetaOk) {s : Ledger c} (hs : s.Inv) {g : Grant c}
    (hg : g ∈ s.outstanding) {x : ℕ} (hx : (g.1 - s.base).toNat ≤ x)
    (hx' : x < (g.1 - s.base).toNat + 2 ^ (g.2.toNat + minShift)) : c.metaSize ≤ x := by
  have hoff := hs.isOffset g hg
  have hmeta := isOffset_metaBlock hc hm
  have hapart := (List.pairwise_append.mp hs.valid.apart).2.2 _ (List.mem_map_of_mem hg) _
    (List.mem_singleton_self (metaBlock c))
  by_contra hxm
  refine hapart (Block.conflict_of_mem (hoff.isBlock hc).wf (hmeta.isBlock hc).wf
    (hc.three_mul_succ_le (orderToLevel_lt hc _)) (hc.three_mul_succ_le (orderToLevel_lt hc _))
    (x := x) ((hoff.mem_iff hc).mpr ⟨hx, hx'⟩) ((hmeta.mem_iff hc).mpr ⟨Nat.zero_le x, ?_⟩))
  exact lt_of_lt_of_le (not_le.mp hxm) (hm.metaSize_le.trans (Nat.le_add_left _ _))

/-- **Safety.** Whatever is requested, as long as clients free only what they hold, the blocks they
hold are disjoint, aligned to their size, inside the managed area and clear of the metadata. -/
theorem outstanding_safe (hc : c = .phys ∨ c = .virt) (b : BitVec 64) {reqs : List (Request c)}
    (hg : Guarded step FreesOutstanding (init c b) reqs) :
    ((run step (init c b) reqs).outstanding.Pairwise fun g h ↦ ∀ a ∈ bytes g, a ∉ bytes h) ∧
      ∀ g ∈ (run step (init c b) reqs).outstanding,
        2 ^ (g.2.toNat + minShift) ∣ (g.1 - b.setWidth 32).toNat ∧
        (g.1 - b.setWidth 32).toNat + 2 ^ (g.2.toNat + minShift) ≤ 2 ^ c.maxShift ∧
        ∀ x, (g.1 - b.setWidth 32).toNat ≤ x →
          x < (g.1 - b.setWidth 32).toNat + 2 ^ (g.2.toNat + minShift) → c.metaSize ≤ x := by
  obtain ⟨hok, hm⟩ := Config.ok_of_built hc
  have hs := inv_run hc b hg
  have hbase : (run step (init c b) reqs).base = b.setWidth 32 :=
    congrArg (BitVec.setWidth 32) (managedBase_run _ _)
  refine ⟨hs.disjoint_bytes hok, fun g hmem ↦ ?_⟩
  have hoff := hs.isOffset g hmem
  have hmeta := fun x ↦ hs.disjoint_meta hok hm hmem (x := x)
  rw [hbase] at hoff hmeta
  exact ⟨hoff.dvd, hoff.add_le, hmeta⟩

/-- Two blocks of the same order side by side, the first of them freed and granted again. -/
theorem outstanding_safe_reuse :
    Guarded step FreesOutstanding (init .phys 0x40)
        [.alloc 2, .alloc 2, .free 0x400040 2, .alloc 2, .alloc 20] ∧
      (run step (init .phys 0x40)
        [.alloc 2, .alloc 2, .free 0x400040 2, .alloc 2, .alloc 20]).outstanding
          = [(0x10000040, 20), (0x400040, 2), (0x400440, 2)] ∧
      ((run step (init .phys 0x40)
        [.alloc 2, .alloc 2, .free 0x400040 2, .alloc 2, .alloc 20]).outstanding.Pairwise
          fun g h ↦ ∀ a ∈ bytes g, a ∉ bytes h) := by
  have hg : Guarded step FreesOutstanding (init .phys 0x40)
      [.alloc 2, .alloc 2, .free 0x400040 2, .alloc 2, .alloc 20] := by decide +kernel
  exact ⟨hg, by decide +kernel, (outstanding_safe (Or.inl rfl) 0x40 hg).1⟩

/-! ## The tree -/

/-- Node `n` of level `l` and all nodes below it are zero. -/
def SubtreeEmpty (s : Cache c) (l n : ℕ) : Prop :=
  ∀ d, l + d < c.levelMax → ∀ m < 8 ^ (l + d), m / 8 ^ d = n →
    s.overlay (l + d) (nodeTag c (l + d) m) = 0

/-- Cell `k` of level `l` belongs to the block of an offset and an order, or lies above it. -/
def OnPath (c : Config) (off : BitVec 32) (o l k : ℕ) : Prop :=
  l ≤ orderToLevel c o ∧ addrCell c off l ≤ k ∧
    k < addrCell c off l + if l = orderToLevel c o then orderToWidth c o else 1

theorem covers_blockAt_iff (hc : c.Ok) {off : BitVec 32} {o l k : ℕ} :
    (blockAt c off o).Covers l k ↔ OnPath c off o l k := by
  constructor
  · intro h
    exact ⟨h.level_le, ((denotes_blockAt hc off o).covers_iff h.level_le).mp h⟩
  · rintro ⟨hl, h⟩
    exact ((denotes_blockAt hc off o).covers_iff hl).mpr h

theorem subtreeEmpty_of_not_bitmap {s : Cache c} {U : List Block} (hU : Valid U)
    (hshow : s.Shows (bitmap U)) {l k : ℕ} (h : ¬bitmap U l k) : SubtreeEmpty s (l + 1) k := by
  intro d hd m hm hdiv
  refine (hshow.node_eq_zero hd hm).mpr fun j hj hbit ↦ h ?_
  have hanc := hU.bitmap_ancestor (l := l) (k := d + 1)
    (by rwa [show l + (d + 1) = l + 1 + d by ring])
  rwa [pow_succ', ← Nat.div_div_eq_div_mul, show (8 * m + j) / 8 = m by omega, hdiv] at hanc

theorem not_subtreeEmpty_of_bitmap {s : Cache c} {U : List Block} (hshow : s.Shows (bitmap U))
    {l k k' : ℕ} (hl : l + 1 < c.levelMax) (hk : k < 8 ^ (l + 1)) (hdiv : k' / 8 = k)
    (h : bitmap U (l + 1) k') : ¬SubtreeEmpty s (l + 1) k := by
  intro hempty
  have hzero : s.node (l + 1) k = 0 := hempty 0 hl k hk (by rw [pow_zero, Nat.div_one])
  refine (hshow.node_eq_zero hl hk).mp hzero (k' % 8) (Nat.mod_lt _ (by decide)) ?_
  rwa [← hdiv, Nat.div_add_mod]

theorem bitmap_erase_iff (hc : c.Ok) {s : Cache c} {U : List Block} (hU : Valid U) {off : BitVec 32}
    {o : ℕ} (hmem : blockAt c off o ∈ U) (hshow : s.Shows (bitmap (U.erase (blockAt c off o))))
    {l k : ℕ} :
    bitmap (U.erase (blockAt c off o)) l k ↔ bitmap U l k ∧
      ¬(OnPath c off o l k ∧ (l < orderToLevel c o → SubtreeEmpty s (l + 1) k)) := by
  have hblevel : (blockAt c off o).level = orderToLevel c o := rfl
  rw [← covers_blockAt_iff hc]
  constructor
  · intro h
    refine ⟨(bitmap_iff_erase hmem).mpr (Or.inr h), ?_⟩
    rintro ⟨hcov, hempty⟩
    rcases (hcov.level_le.trans_eq hblevel).eq_or_lt with rfl | hlt
    · exact ((hU.bitmap_erase_of_level hmem).mp h).2 hcov
    · obtain ⟨k', hdiv, hk'⟩ := (hU.bitmap_erase_iff_child hmem hcov).mp h
      have hl : l < c.levelMax := hlt.trans (orderToLevel_lt hc o)
      have hk : k < 8 ^ (l + 1) := by
        rw [(Block.covers_iff_of_lt hlt).mp hcov, ← denotes_blockAt hc off o l hlt.le]
        exact addrCell_lt hc hl
      exact not_subtreeEmpty_of_bitmap hshow (Nat.lt_of_le_of_lt hlt (orderToLevel_lt hc o)) hk hdiv
        hk' (hempty hlt)
  · rintro ⟨hU', hnot⟩
    by_contra h
    have hcov := ((bitmap_iff_erase hmem).mp hU').resolve_right h
    exact hnot ⟨hcov, fun _ ↦ subtreeEmpty_of_not_bitmap (hU.erase _) hshow h⟩

/-- The cache and DRAM together are the bitmap tree. Bytes are named by the tag of their node, as
`overlay` reads them. -/
structure RefinesTree (s : Ledger c) : Prop where
  /-- No node is cached twice. -/
  one_line : ∀ l < c.levelMax, ∀ i j, (s.buddy.cache.line l i).valid →
    (s.buddy.cache.line l j).valid →
    (s.buddy.cache.line l i).tag = (s.buddy.cache.line l j).tag → i = j
  /-- Below the root an empty node is not cached. -/
  nonzero : ∀ l < c.levelMax, 0 < l → ∀ i, (s.buddy.cache.line l i).valid →
    (s.buddy.cache.line l i).children ≠ 0
  /-- Below a clear bit there is nothing. -/
  clear_below : ∀ l < c.levelMax, ∀ n < 8 ^ l, ∀ j < 8,
    (s.buddy.cache.overlay l (nodeTag c l n)).getLsbD j = false →
      SubtreeEmpty s.buddy.cache (l + 1) (8 * n + j)
  /-- `ALLOC` sets the bits of the block it returns, and those above it. -/
  alloc : ∀ order, (s.buddy.handler (.alloc order)).1.stat = 0 →
    ∀ l < c.levelMax, ∀ n < 8 ^ l, ∀ j < 8,
      ((s.buddy.handler (.alloc order)).2.cache.overlay l (nodeTag c l n)).getLsbD j = true ↔
        (s.buddy.cache.overlay l (nodeTag c l n)).getLsbD j = true ∨
          OnPath c ((s.buddy.handler (.alloc order)).1.addr - s.base) order.toNat l (8 * n + j)
  /-- `FREE` succeeds, and clears the bits of the block, and above it those with nothing left. -/
  free : ∀ g ∈ s.outstanding, (s.buddy.handler (.free g.1 g.2)).1.stat = 0 ∧
    ∀ l < c.levelMax, ∀ n < 8 ^ l, ∀ j < 8,
      ((s.buddy.handler (.free g.1 g.2)).2.cache.overlay l (nodeTag c l n)).getLsbD j = true ↔
        (s.buddy.cache.overlay l (nodeTag c l n)).getLsbD j = true ∧
          ¬(OnPath c (g.1 - s.base) g.2.toNat l (8 * n + j) ∧
            (l < orderToLevel c g.2.toNat →
              SubtreeEmpty (s.buddy.handler (.free g.1 g.2)).2.cache (l + 1) (8 * n + j)))

theorem Inv.refinesTree (hc : c.Ok) {s : Ledger c} (hs : s.Inv) : s.RefinesTree where
  one_line := hs.wf.distinct
  nonzero := hs.wf.nonzero
  clear_below l hl n hn j hj h := by
    refine subtreeEmpty_of_not_bitmap hs.valid hs.shows_blocks ?_
    rw [← hs.shows_blocks l hl n hn j hj]
    exact Bool.eq_false_iff.mp h
  alloc order hstat l hl n hn j hj := by
    rcases hs.alloc hc order with h | ⟨off, h⟩
    · rw [h.1] at hstat
      exact absurd hstat (by decide)
    · rw [h.addr, BitVec.add_sub_cancel, ← covers_blockAt_iff hc]
      refine (h.inv.shows_blocks l hl n hn j hj).trans ?_
      rw [h.blocks, bitmap_cons, or_comm]
      exact or_congr_left (hs.shows_blocks l hl n hn j hj).symm
  free g hg := by
    obtain ⟨hstat, hinv, -, hperm⟩ := hs.free hc hg
    refine ⟨hstat, fun l hl n hn j hj ↦ (hinv.shows_blocks l hl n hn j hj).trans ?_⟩
    have hshow := hinv.shows_blocks.congr fun l _ n _ j _ ↦ bitmap_perm hperm
    rw [bitmap_perm hperm, bitmap_erase_iff hc hs.valid (mem_blocks hg) hshow]
    exact and_congr_left fun _ ↦ (hs.shows_blocks l hl n hn j hj).symm

/-- Writing lines back is not visible in the tree: neither the eviction of a line or the flush of a
full one (`flush_line`), nor the way `free` drops a line whose last bit it has cleared. -/
structure FlushesInvisible (t : Cache c) : Prop where
  flush : ∀ l < c.levelMax, ∀ i, (t.line l i).valid → ∀ m < c.levelMax, ∀ k < 8 ^ m,
    (t.flushLine l i).overlay m (nodeTag c m k) = t.overlay m (nodeTag c m k)
  drop : ∀ l < c.levelMax, ∀ i, (t.line l i).valid → ∀ w idx,
    (setClearBits (t.line l i) w idx false).children = 0 → ∀ m < c.levelMax, ∀ k < 8 ^ m,
      let line := setClearBits (t.line l i) w idx false
      (((t.setLine l i line).dramWrite line.tag (t.buddySet l).level line.children).setLine l i
          { line with valid := false, tag := 0 }).overlay m (nodeTag c m k)
        = (t.setLine l i line).overlay m (nodeTag c m k)

theorem flushesInvisible (hc : c.Ok) {t : Cache c} (ht : t.WF) : FlushesInvisible t where
  flush l hl i hv m hm k hk := (ht.flushLine hc hl hv).2 m hm k hk
  drop l hl i hv w idx hzero m hm k hk := by
    obtain ⟨n, hn, htag⟩ := ht.tag_node l hl i hv
    have hline : setClearBits (t.line l i) w idx false = { t.line l i with children := 0 } := by
      rw [← hzero]
      rfl
    dsimp only
    rw [hline, ht.level_eq l hl]
    dsimp only
    have hset : ((t.setLine l i { t.line l i with children := 0 }).dramWrite
      (t.line l i).tag l 0).setLine
        l i { valid := false, tag := 0, children := 0 }
          = (t.dramWrite (nodeTag c l n) l 0).setLine l i {} := by
      rw [htag]
      exact Cache.setLine_setLine (t.dramWrite (nodeTag c l n) l 0) l i _ {}
    rw [hset]
    exact (ht.node_writeBack hc hl hv htag hn 0 hm hk).trans
      (ht.node_setLine_children hl hv htag hn 0 hm hk).symm

/-- **The cache is invisible.** In every state reached by a run in which clients free only what they
hold, the allocator behaves as the uncached tree; the lines are in order in that state, and in every
state in which they are, moving bytes out of the cache changes no node. -/
theorem cache_refines_tree (hc : c = .phys ∨ c = .virt) (b : BitVec 64) {reqs : List (Request c)}
    (hg : Guarded step FreesOutstanding (init c b) reqs) :
    (run step (init c b) reqs).RefinesTree ∧ (run step (init c b) reqs).buddy.cache.WF ∧
      ∀ t : Cache c, t.WF → FlushesInvisible t := by
  have hs := inv_run hc b hg
  have hok := (Config.ok_of_built hc).1
  exact ⟨hs.refinesTree hok, hs.wf, fun t ht ↦ flushesInvisible hok ht⟩

/-- The heap allocator after two grants, one of them returned; the next grant reuses it. -/
theorem cache_refines_tree_virt :
    Guarded step FreesOutstanding (init .virt 0) [.alloc 1, .alloc 1, .free 0x400000 1] ∧
      (run step (init .virt 0) [.alloc 1, .alloc 1, .free 0x400000 1]).RefinesTree ∧
      ((run step (init .virt 0) [.alloc 1, .alloc 1, .free 0x400000 1]).buddy.handler (.alloc 1)).1
        = ⟨0, 0x400000⟩ := by
  have hg : Guarded step FreesOutstanding (init .virt 0)
    [.alloc 1, .alloc 1, .free 0x400000 1] := by
    decide +kernel
  exact ⟨hg, (cache_refines_tree (Or.inr rfl) 0 hg).1, by decide +kernel⟩

end Ledger

end FpgaOs.Alloc
