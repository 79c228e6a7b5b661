import FpgaOs.Alloc.Grant

/-!
# What `free` does

`free` makes two passes from the level of the order up to the root. The first only reads: it tests
the bits the address denotes on every level, and remembers which nodes were cached; a node that was
not is copied into `buddy_free_set`. The second clears the bits, and stops at the first node that
does not become empty.

The first pass is described for every address, since its answer is what decides whether a request is
accepted. The second is described for the address of a block of the set, where it removes that
block: as in `Between`, the levels below the one it works on already show the set without the block.
-/

namespace FpgaOs.Alloc

open Octree

variable {c : Config}

namespace Cache

/-! ## Clearing the bits of a node -/

theorem WF.node_dramWrite (hc : c.Ok) {s : Cache c} (hs : s.WF) {l n : ℕ} (hl : l < c.levelMax)
    (hn : n < 8 ^ l) (hcached : ¬s.Cached l n) (x : BitVec 8) {m k : ℕ} (hm : m < c.levelMax)
    (hk : k < 8 ^ m) :
    (s.dramWrite (nodeTag c l n) l x).node m k = if m = l ∧ k = n then x else s.node m k := by
  by_cases h : m = l ∧ k = n
  · obtain ⟨rfl, rfl⟩ := h
    rw [if_pos ⟨rfl, rfl⟩, node_of_not_cached (s := s.dramWrite (nodeTag c m k) m x) hcached,
      dram_dramWrite]
    exact Function.update_self _ _ _
  · rw [if_neg h]
    exact hs.node_congr (hs.dramWrite _ _ _) hm (fun _ ↦ rfl)
      (dram_dramWrite_of_ne hc s x hl hn hm hk h)

theorem tagInCache_eq_some_iff {s : Cache c} {l i n : ℕ}
    (h : tagInCache (s.buddySet l) (nodeTag c l n) = some i) :
    (s.line l i).valid ∧ (s.line l i).tag = nodeTag c l n := by
  rw [tagInCache] at h
  have := List.find?_some h
  rwa [Bool.and_eq_true, beq_iff_eq] at this

theorem not_cached_of_tagInCache {s : Cache c} {l n : ℕ}
    (h : tagInCache (s.buddySet l) (nodeTag c l n) = none) : ¬s.Cached l n := by
  rintro ⟨i, hi, hv, ht⟩
  rw [tagInCache, List.find?_eq_none] at h
  refine h i (List.mem_range.mpr hi) ?_
  rw [Bool.and_eq_true, beq_iff_eq]
  exact ⟨hv, ht⟩

theorem isSome_tagInCache {s : Cache c} {l n : ℕ} (h : s.Cached l n) :
    (tagInCache (s.buddySet l) (nodeTag c l n)).isSome := by
  by_contra hnone
  rw [Option.not_isSome_iff_eq_none] at hnone
  exact not_cached_of_tagInCache hnone h

end Cache

namespace Buddy

/-- The node of level `i` an address lies in. -/
def pathNode (c : Config) (addr : BitVec 32) (i : ℕ) : ℕ := addrCell c addr i / 8

theorem pathNode_lt (hc : c.Ok) (addr : BitVec 32) {i : ℕ} (hi : i < c.levelMax) :
    pathNode c addr i < 8 ^ i := by
  have h : addrCell c addr i < 8 ^ (i + 1) := addrCell_lt hc hi
  rw [pow_succ] at h
  rw [pathNode]
  omega

/-- The bits of `width` cells from the one an address denotes on level `i`. -/
def pathMask (c : Config) (addr : BitVec 32) (i width : ℕ) : BitVec 8 :=
  widthMask width <<< (addrToIdx c addr i).toNat

/-- The test of the check loop on level `i`, on the tree. -/
def pathTest (s : Cache c) (addr : BitVec 32) (i width : ℕ) : Bool :=
  s.node i (pathNode c addr i) &&& pathMask c addr i width != 0

/-- What the check loop leaves for the clear loop about level `i`. -/
structure Probed (b : Buddy c) (probe : Probe) (addr : BitVec 32) (i : ℕ) : Prop where
  probe_eq : probe i = tagInCache (b.cache.buddySet i) (nodeTag c i (pathNode c addr i))
  loaded : probe i = none → b.buddyFreeSet i =
    { level := i
      line := { valid := true
                tag := nodeTag c i (pathNode c addr i)
                children := b.cache.node i (pathNode c addr i) } }

/-! ## The check loop -/

theorem checkLevel_spec (hc : c.Ok) {b : Buddy c} (hs : b.cache.WF) (addr : BitVec 32) {i : ℕ}
    (hi : i < c.levelMax) (hfree : (b.buddyFreeSet i).level = i) (w : ℕ) :
    (b.checkLevel addr i w).1 = pathTest b.cache addr i w ∧
      (b.checkLevel addr i w).2.1 = tagInCache (b.cache.buddySet i)
      (nodeTag c i (pathNode c addr i)) ∧
      (b.checkLevel addr i w).2.2.cache = { b.cache with assertHeld := b.cache.assertHeld &&
        (decide (0 < i) ||
          (tagInCache (b.cache.buddySet i) (nodeTag c i (pathNode c addr i))).isSome) } ∧
      (∀ l ≠ i, (b.checkLevel addr i w).2.2.buddyFreeSet l = b.buddyFreeSet l) ∧
      (b.checkLevel addr i w).2.2.buddyFreeSet i
        = (if (tagInCache (b.cache.buddySet i) (nodeTag c i (pathNode c addr i))).isSome then
            b.buddyFreeSet i
          else { level := i
                 line := { valid := true
                           tag := nodeTag c i (pathNode c addr i)
                           children := b.cache.node i (pathNode c addr i) } }) := by
  rw [checkLevel]
  simp only [addrToTag_eq hc hi]
  rw [show addrCell c addr i / 8 = pathNode c addr i from rfl]
  cases hin : tagInCache (b.cache.buddySet i) (nodeTag c i (pathNode c addr i)) with
  | some nr =>
    obtain ⟨hv, ht⟩ := Cache.tagInCache_eq_some_iff hin
    refine ⟨?_, rfl, by simp, fun l _ ↦ rfl, rfl⟩
    simp only [testValidBits, pathTest, hs.node_of_line hi hv ht, hv, Bool.true_and, pathMask]
  | none =>
    -- the node is read from DRAM, and its copy goes to the free set
    have hnode := Cache.node_of_not_cached (Cache.not_cached_of_tagInCache hin)
    refine ⟨?_, rfl, by simp [setFreeLine, Cache.dramRead, Cache.assertLevel], fun l hl ↦ ?_, ?_⟩
    · simp only [testValidBits, pathTest, hnode, Bool.true_and, pathMask, Cache.dramRead]
    · simp [setFreeLine, hl]
    · simp [setFreeLine, hnode, Cache.dramRead, hfree]

/-- The fixed fields of `buddy_free_set`. -/
def FreeSetOk (b : Buddy c) : Prop := ∀ l < c.levelMax, (b.buddyFreeSet l).level = l

/-- What the check loop, run from level `k` up, returns and leaves behind. -/
structure Checked (b : Buddy c) (addr : BitVec 32) (req w k : ℕ) (probe : Probe)
    (r : Bool × Probe × Buddy c) : Prop where
  accept_iff : r.1 = true ↔ ∀ i ≤ k, pathTest b.cache addr i (if i = req then w else 1) = true
  cache_eq : ∃ a, r.2.2.cache = { b.cache with assertHeld := a }
  probed : r.1 = true → ∀ i ≤ k, r.2.2.Probed r.2.1 addr i
  probe_above : ∀ l, k < l → r.2.1 l = probe l
  freeSet_above : ∀ l, k < l → r.2.2.buddyFreeSet l = b.buddyFreeSet l
  freeSetOk : r.2.2.FreeSetOk
  assertHeld : r.1 = true → r.2.2.cache.assertHeld = (b.cache.assertHeld &&
    (tagInCache (b.cache.buddySet 0) (nodeTag c 0 (pathNode c addr 0))).isSome)

theorem node_assertHeld (s : Cache c) (a : Bool) (l n : ℕ) :
    { s with assertHeld := a }.node l n = s.node l n := rfl

theorem freeSetOk_checkLevel (hc : c.Ok) {b : Buddy c} (hs : b.cache.WF) (hfree : b.FreeSetOk)
    (addr : BitVec 32) {i : ℕ} (hi : i < c.levelMax) (w : ℕ) :
    (b.checkLevel addr i w).2.2.FreeSetOk := by
  obtain ⟨-, -, -, hne, hself⟩ := checkLevel_spec hc hs addr hi (hfree i hi) w
  intro l hl
  by_cases h : l = i
  · subst h
    rw [hself]
    split
    · exact hfree l hl
    · rfl
  · rw [hne l h]
    exact hfree l hl

/-- One round of the check loop, seen from the clear loop. -/
theorem probed_checkLevel (hc : c.Ok) {b : Buddy c} (hs : b.cache.WF) (hfree : b.FreeSetOk)
    (addr : BitVec 32) {i : ℕ} (hi : i < c.levelMax) (w : ℕ) (probe : Probe) :
    (b.checkLevel addr i w).2.2.Probed
      (Function.update probe i (b.checkLevel addr i w).2.1) addr i := by
  obtain ⟨-, hprobe, hcache, -, hself⟩ := checkLevel_spec hc hs addr hi (hfree i hi) w
  refine ⟨?_, fun hnone ↦ ?_⟩
  · rw [Function.update_self, hprobe, hcache]
  · rw [Function.update_self, hprobe] at hnone
    rw [hself, hnone, hcache, node_assertHeld]
    rfl

theorem freeSetOk_of {b b' : Buddy c} {i : ℕ} (h : b.FreeSetOk)
    (hne : ∀ l ≠ i, b'.buddyFreeSet l = b.buddyFreeSet l)
    (hself : (b'.buddyFreeSet i).level = (b.buddyFreeSet i).level) : b'.FreeSetOk := by
  intro l hl
  by_cases hli : l = i
  · rw [hli, hself, ← hli]
    exact h l hl
  · rw [hne l hli]
    exact h l hl

theorem check_spec (hc : c.Ok) (addr : BitVec 32) (req w k : ℕ) :
    ∀ {b : Buddy c} (probe : Probe), b.cache.WF → b.FreeSetOk → k < c.levelMax →
      b.Checked addr req w k probe (b.check addr req w k probe) := by
  induction k with
  | zero =>
    intro b probe hs hfree hk
    obtain ⟨htest, hprobe, hcache, hne, -⟩ :=
      checkLevel_spec hc hs addr hk (hfree 0 hk) (if 0 = req then w else 1)
    rw [check]
    refine ⟨?_, ⟨_, hcache⟩, fun _ i hi ↦ ?_, fun l hl ↦ ?_, fun l hl ↦ hne l hl.ne',
      freeSetOk_checkLevel hc hs hfree addr hk _, fun _ ↦ ?_⟩
    · rw [htest]
      exact ⟨fun h i hi ↦ by rw [Nat.le_zero.mp hi]; exact h, fun h ↦ h 0 le_rfl⟩
    · rw [Nat.le_zero.mp hi]
      exact probed_checkLevel hc hs hfree addr hk _ probe
    · exact Function.update_of_ne hl.ne' _ _
    · dsimp only
      rw [hcache]
      simp
  | succ k ih =>
    intro b probe hs hfree hk
    obtain ⟨htest, hprobe, hcache, hne, -⟩ :=
      checkLevel_spec hc hs addr hk (hfree (k + 1) hk) (if k + 1 = req then w else 1)
    have hprobed := probed_checkLevel hc hs hfree addr hk (if k + 1 = req then w else 1) probe
    have hfree1 := freeSetOk_checkLevel hc hs hfree addr hk (if k + 1 = req then w else 1)
    rw [check]
    -- the loop goes on to the next level only after a test that succeeds
    by_cases h : (b.checkLevel addr (k + 1) (if k + 1 = req then w else 1)).1 = true
    case neg =>
      rw [if_neg h]
      refine ⟨?_, ⟨_, hcache⟩, fun h' ↦ absurd h' Bool.false_ne_true, fun l hl ↦ ?_,
        fun l hl ↦ hne l hl.ne', hfree1, fun h' ↦ absurd h' Bool.false_ne_true⟩
      · refine iff_of_false Bool.false_ne_true fun hall ↦ h ?_
        rw [htest]
        exact hall (k + 1) le_rfl
      · exact Function.update_of_ne hl.ne' _ _
    case pos =>
      rw [if_pos h]
      have hs1 : (b.checkLevel addr (k + 1) (if k + 1 = req then w else 1)).2.2.cache.WF := by
        rw [hcache]
        exact hs.of_buddySet_eq rfl
      have hr := ih (Function.update probe (k + 1)
        (b.checkLevel addr (k + 1) (if k + 1 = req then w else 1)).2.1) hs1 hfree1 (by omega)
      obtain ⟨a, ha⟩ := hr.cache_eq
      refine ⟨?_, ⟨a, ?_⟩, fun hacc i hi ↦ ?_, fun l hl ↦ ?_, fun l hl ↦ ?_, hr.freeSetOk,
        fun hacc ↦ ?_⟩
      · rw [hr.accept_iff, hcache]
        refine ⟨fun hall i hi ↦ ?_, fun hall i hi ↦ hall i (hi.trans (Nat.le_succ k))⟩
        rcases Nat.le_succ_iff.mp hi with hi | rfl
        · exact hall i hi
        · rw [← htest]
          exact h
      · rw [ha, hcache]
      · -- what was found on this level stays: the later rounds are above it
        rcases Nat.le_succ_iff.mp hi with hi | rfl
        · exact hr.probed hacc i hi
        · refine ⟨?_, fun hnone ↦ ?_⟩
          · rw [hr.probe_above _ (Nat.lt_succ_self k), hprobed.probe_eq, ha]
          · rw [hr.probe_above _ (Nat.lt_succ_self k)] at hnone
            rw [hr.freeSet_above _ (Nat.lt_succ_self k), hprobed.loaded hnone, ha, node_assertHeld]
            rfl
      · rw [hr.probe_above l ((Nat.lt_succ_self k).trans hl)]
        exact Function.update_of_ne hl.ne' _ _
      · rw [hr.freeSet_above l ((Nat.lt_succ_self k).trans hl), hne l hl.ne']
      · rw [hr.assertHeld hacc, hcache]
        simp

/-! ## The clear loop -/

theorem clearLevel_spec (hc : c.Ok) {b : Buddy c} (hs : b.cache.WF) {probe : Probe}
    (addr : BitVec 32) {i : ℕ} (hi : i < c.levelMax) (hprobe : b.Probed probe addr i) (w : ℕ) :
    (b.clearLevel probe addr i w).2.cache.WF ∧
      (∀ m < c.levelMax, ∀ k < 8 ^ m, (b.clearLevel probe addr i w).2.cache.node m k
        = if m = i ∧ k = pathNode c addr i then
            b.cache.node i (pathNode c addr i) &&& ~~~pathMask c addr i w
          else b.cache.node m k) ∧
      (b.clearLevel probe addr i w).1
        = (b.cache.node i (pathNode c addr i) &&& ~~~pathMask c addr i w == 0) ∧
      (∀ l ≠ i, (b.clearLevel probe addr i w).2.cache.buddySet l = b.cache.buddySet l) ∧
      (∀ l ≠ i, (b.clearLevel probe addr i w).2.buddyFreeSet l = b.buddyFreeSet l) ∧
      ((b.clearLevel probe addr i w).2.buddyFreeSet i).level = (b.buddyFreeSet i).level ∧
      (b.clearLevel probe addr i w).2.cache.managedBase = b.cache.managedBase ∧
      (b.clearLevel probe addr i w).2.cache.inBounds = b.cache.inBounds ∧
      (b.clearLevel probe addr i w).2.cache.assertHeld
        = (b.cache.assertHeld && (decide (0 < i) || (probe i).isSome)) := by
  have hn := pathNode_lt hc addr hi
  set n := pathNode c addr i with hndef
  rw [clearLevel]
  cases hcase : probe i with
  | some nr =>
    have hin := hprobe.probe_eq
    rw [hcase] at hin
    obtain ⟨hv, ht⟩ := Cache.tagInCache_eq_some_iff hin.symm
    have hnode := hs.node_of_line hi hv ht
    rw [hnode]
    dsimp only
    set x := setClearBits (b.cache.line i nr) w (addrToIdx c addr i) false with hx
    have hxc : x.children = (b.cache.line i nr).children &&& ~~~pathMask c addr i w := rfl
    have hxt : x.tag = nodeTag c i n := ht
    have hxv : x.valid := hv
    have hlevel : ((b.cache.setLine i nr x).buddySet i).level = i := by
      rw [Cache.level_setLine, hs.level_eq i hi]
    rw [hlevel, ← hxc]
    have hother : ∀ (s : Cache c) (y : BuddyCacheLine c), ∀ l ≠ i,
        (s.setLine i nr y).buddySet l = s.buddySet l := by
      intro s y l hl
      simp [Cache.setLine, Cache.setSet, hl]
    split
    case isTrue hzero =>
      -- an empty line is written to DRAM and blanked
      have hblank : { x with valid := false, tag := 0 } = ({} : BuddyCacheLine c) := by
        rw [hzero.1]
      have hstate : (((b.cache.setLine i nr x).dramWrite x.tag i x.children).setLine i nr
          { x with valid := false, tag := 0 })
          = (b.cache.dramWrite (nodeTag c i n) i x.children).setLine i nr {} := by
        rw [hblank, hxt]
        exact Cache.setLine_setLine (b.cache.dramWrite (nodeTag c i n) i x.children) i nr x {}
      rw [hstate]
      refine ⟨(hs.dramWrite _ _ _).setLine_blank i nr, fun m hm k hk ↦ ?_, rfl, fun l hl ↦ ?_,
        fun l _ ↦ rfl, rfl, rfl, rfl, ?_⟩
      · exact hs.node_writeBack hc hi hv ht hn _ hm hk
      · rw [hother _ _ l hl]
        rfl
      · simp [hzero.2]
    case isFalse hzero =>
      -- a line that is not empty is updated in place
      have hfit : b.cache.Fits i nr n x := Cache.Fits.of_line hs hi hv ht hn hxv hxt
        fun hpos h ↦ hzero ⟨h, hpos⟩
      refine ⟨hs.setLine hfit, fun m hm k hk ↦ ?_, rfl, fun l hl ↦ hother _ _ l hl, fun l _ ↦ rfl,
        rfl, rfl, rfl, by simp⟩
      exact hs.node_setLine hfit (fun _ ↦ ht) hm hk
  | none =>
    have hin := hprobe.probe_eq
    rw [hcase] at hin
    -- a node that is not cached is cleared in its copy, which is written to DRAM
    have hcached := Cache.not_cached_of_tagInCache hin.symm
    have hload := hprobe.loaded hcase
    rw [← hndef] at hload
    dsimp only
    rw [hload]
    refine ⟨hs.dramWrite _ _ _, fun m hm k hk ↦ ?_, rfl, fun l _ ↦ rfl, fun l hl ↦ ?_, ?_, rfl,
      rfl, ?_⟩
    · exact hs.node_dramWrite hc hi hn hcached _ hm hk
    · exact Function.update_of_ne hl _ _
    · simp [setFreeLine, hload]
    · simp [setFreeLine, Cache.dramWrite, Cache.assertLevel]

/-- An address lies in a block when on every level it denotes the block's first cell. -/
def Denotes (c : Config) (addr : BitVec 32) (blk : Block) : Prop :=
  ∀ l ≤ blk.level, addrCell c addr l = blk.anchor l

/-- The cells the loops of `free` test and clear are those the block covers. -/
theorem Denotes.covers_iff {addr : BitVec 32} {blk : Block} (h : Denotes c addr blk) {i k : ℕ}
    (hi : i ≤ blk.level) :
    blk.Covers i k ↔ addrCell c addr i ≤ k ∧
      k < addrCell c addr i + if i = blk.level then blk.width else 1 := by
  rw [h i hi]
  rcases hi.eq_or_lt with rfl | hlt
  · rw [Block.covers_level_iff, Block.anchor_level, if_pos rfl]
  · rw [Block.covers_iff_of_lt hlt, if_neg hlt.ne]
    omega

theorem isWidth_clear {o : ℕ} {blk : Block} (hblk : IsBlock c o blk) (i : ℕ) :
    IsWidth (if i = blk.level then blk.width else 1) := by
  split
  · exact hblk.isWidth
  · exact isWidth_one

theorem getLsbD_pathMask (hc : c.Ok) (addr : BitVec 32) {i w j : ℕ} (hi : i < c.levelMax)
    (hw : IsWidth w) (hj : j < 8) :
    (pathMask c addr i w).getLsbD j = true ↔
      addrCell c addr i ≤ 8 * pathNode c addr i + j ∧
        8 * pathNode c addr i + j < addrCell c addr i + w := by
  rw [pathMask, getLsbD_widthMask_shiftLeft hw _ hj, decide_eq_true_eq,
    addrToIdx_toNat hc hi, pathNode]
  omega

section Clear

variable {U : List Block} {o : ℕ} {blk : Block} {addr : BitVec 32}

theorem shows_clearLevel (hc : c.Ok) (hblk : IsBlock c o blk) (haddr : Denotes c addr blk)
    {s t : Cache c} {i : ℕ} (hi : i ≤ blk.level) (hshow : s.Shows (Cache.Between U blk (i + 1)))
    (hclear : ∀ k, blk.Covers i k → ¬bitmap U i k)
    (hnode : ∀ m < c.levelMax, ∀ k < 8 ^ m, t.node m k
      = if m = i ∧ k = pathNode c addr i then
          s.node i (pathNode c addr i) &&& ~~~pathMask c addr i
            (if i = blk.level then blk.width else 1)
        else s.node m k) :
    t.Shows (Cache.Between U blk i) := by
  have hil : i < c.levelMax := hi.trans_lt (hblk.level_lt hc)
  intro l hl n hn j hj
  rw [hnode l hl n hn, Cache.Between]
  by_cases h : l = i ∧ n = pathNode c addr i
  · obtain ⟨rfl, rfl⟩ := h
    rw [if_pos ⟨rfl, rfl⟩, if_neg (lt_irrefl l), BitVec.getLsbD_and, BitVec.getLsbD_not,
      decide_eq_true hj, Bool.true_and, Bool.and_eq_true, Bool.not_eq_true', ← Bool.not_eq_true,
      hshow l hl _ hn j hj, Cache.Between, if_pos (Nat.lt_succ_self l), bitmap_cons,
      getLsbD_pathMask hc addr hl (isWidth_clear hblk l) hj, ← haddr.covers_iff hi]
    exact ⟨fun h ↦ h.1.resolve_left h.2, fun h ↦ ⟨Or.inr h, fun hcov ↦ hclear _ hcov h⟩⟩
  · rw [if_neg h, hshow l hl n hn j hj, Cache.Between]
    by_cases hli : l = i
    · subst hli
      rw [if_pos (Nat.lt_succ_self l), if_neg (lt_irrefl l), bitmap_cons]
      -- the block covers no cell of another node on this level
      refine or_iff_right fun hcov ↦ h ⟨rfl, ?_⟩
      have := hblk.wf.covers_div_eight hcov
      rw [← haddr l hi] at this
      rw [pathNode]
      omega
    · by_cases hlt : l < i
      · rw [if_pos hlt, if_pos (by omega)]
      · rw [if_neg hlt, if_neg (by omega)]

/-- When the loop stops at a node that is not empty, the bits above it belong to other blocks
too. -/
theorem shows_of_stop (hc : c.Ok) (hU : Valid U) (hblk : IsBlock c o blk)
    (haddr : Denotes c addr blk)
    {t : Cache c} {i : ℕ} (hi : i ≤ blk.level) (hshow : t.Shows (Cache.Between U blk i))
    (hne : t.node i (pathNode c addr i) ≠ 0) : t.Shows (bitmap U) := by
  have hil : i < c.levelMax := hi.trans_lt (hblk.level_lt hc)
  rw [Ne, hshow.node_eq_zero hil (pathNode_lt hc addr hil)] at hne
  push Not at hne
  obtain ⟨e, he, hbit⟩ := hne
  rw [Cache.Between, if_neg (lt_irrefl i)] at hbit
  refine hshow.congr fun l hl n _ j _ ↦ ?_
  rw [Cache.Between]
  by_cases hlt : l < i
  · rw [if_pos hlt, bitmap_cons]
    refine or_iff_right_of_imp fun hcov ↦ ?_
    obtain ⟨d, rfl⟩ := Nat.exists_eq_add_of_lt hlt
    have hanc := hU.bitmap_ancestor (l := l) (k := d + 1) (by rwa [← add_assoc])
    have hdiv := Block.anchor_div (b := blk) (l := l) (k := d + 1) (by omega)
    rw [← add_assoc, ← haddr _ hi] at hdiv
    rw [pow_succ', ← Nat.div_div_eq_div_mul] at hanc hdiv
    rw [(Block.covers_iff_of_lt (by omega)).mp hcov, ← hdiv]
    rwa [show (8 * pathNode c addr (l + d + 1) + e) / 8 = addrCell c addr (l + d + 1) / 8 from by
      rw [pathNode]; omega] at hanc
  · rw [if_neg hlt]

theorem not_bitmap_of_empty (hc : c.Ok) (hU : Valid U) (hmem : blk ∈ U) (hblk : IsBlock c o blk)
    (haddr : Denotes c addr blk) {t : Cache c} {i : ℕ} (hi : i + 1 ≤ blk.level)
    (hshow : t.Shows (Cache.Between (U.erase blk) blk (i + 1)))
    (hzero : t.node (i + 1) (pathNode c addr (i + 1)) = 0) :
    ∀ k, blk.Covers i k → ¬bitmap (U.erase blk) i k := by
  have hil : i + 1 < c.levelMax := hi.trans_lt (hblk.level_lt hc)
  rw [hshow.node_eq_zero hil (pathNode_lt hc addr hil)] at hzero
  intro k hcov hbit
  obtain ⟨k', rfl, hk'⟩ := (hU.bitmap_erase_iff_child hmem hcov).mp hbit
  refine hzero (k' % 8) (Nat.mod_lt _ (by decide)) ?_
  rw [Cache.Between, if_neg (lt_irrefl _)]
  have hanchor := Block.anchor_div (b := blk) (l := i) (k := 1) hi
  rw [pow_one, ← haddr _ hi, ← (Block.covers_iff_of_lt (by omega)).mp hcov] at hanchor
  rwa [pathNode, hanchor, Nat.div_add_mod]

/-- Before the loop works on level `i`: the deeper levels no longer show the block, and its cells of
level `i` belong to no other block. -/
structure Clearing (b : Buddy c) (U : List Block) (blk : Block) (addr : BitVec 32) (probe : Probe)
    (i : ℕ) : Prop where
  wf : b.cache.WF
  freeSetOk : b.FreeSetOk
  probed : ∀ k ≤ i, b.Probed probe addr k
  shows_between : b.cache.Shows (Cache.Between (U.erase blk) blk (i + 1))
  clear : ∀ e, blk.Covers i e → ¬bitmap (U.erase blk) i e

section Loop

variable {probe : Probe} {b : Buddy c} {i : ℕ}

/-- One round of the loop, whether or not it is the last. -/
theorem Clearing.round (hc : c.Ok) (hblk : IsBlock c o blk) (haddr : Denotes c addr blk)
    (hi : i ≤ blk.level) (h : b.Clearing U blk addr probe i) :
    (b.clearLevel probe addr i (if i = blk.level then blk.width else 1)).2.cache.WF ∧
      (b.clearLevel probe addr i (if i = blk.level then blk.width else 1)).2.FreeSetOk ∧
      (b.clearLevel probe addr i (if i = blk.level then blk.width else 1)).2.cache.Shows
        (Cache.Between (U.erase blk) blk i) ∧
      ((b.clearLevel probe addr i (if i = blk.level then blk.width else 1)).1 = true ↔
        (b.clearLevel probe addr i (if i = blk.level then blk.width else 1)).2.cache.node i
          (pathNode c addr i) = 0) := by
  have hil := hi.trans_lt (hblk.level_lt hc)
  obtain ⟨hwf, hnode, hcont, -, hne, hself, -⟩ :=
    clearLevel_spec hc h.wf addr hil (h.probed i le_rfl)
    (if i = blk.level then blk.width else 1)
  have hpath := (hnode i hil _ (pathNode_lt hc addr hil)).trans (if_pos ⟨rfl, rfl⟩)
  refine ⟨hwf, freeSetOk_of h.freeSetOk hne hself,
    shows_clearLevel hc hblk haddr hi h.shows_between h.clear hnode, ?_⟩
  rw [hcont, ← hpath, beq_iff_eq]

theorem Clearing.next (hc : c.Ok) (hU : Valid U) (hmem : blk ∈ U) (hblk : IsBlock c o blk)
    (haddr : Denotes c addr blk) (hi : i + 1 ≤ blk.level) (h : b.Clearing U blk addr probe (i + 1))
    (hcont : (b.clearLevel probe addr (i + 1) (if i + 1 = blk.level then blk.width else 1)).1
      = true) :
    (b.clearLevel probe addr (i + 1) (if i + 1 = blk.level then blk.width else 1)).2.Clearing U blk
      addr probe i := by
  have hil := hi.trans_lt (hblk.level_lt hc)
  obtain ⟨-, hnode, -, hset, hne, -⟩ := clearLevel_spec hc h.wf addr hil (h.probed (i + 1) le_rfl)
    (if i + 1 = blk.level then blk.width else 1)
  obtain ⟨hwf, hfree, hshow, hzero⟩ := h.round hc hblk haddr hi
  refine ⟨hwf, hfree, fun k hk ↦ ?_, hshow,
    not_bitmap_of_empty hc hU hmem hblk haddr hi hshow (hzero.mp hcont)⟩
  have hki : k ≠ i + 1 := by omega
  obtain ⟨h1, h2⟩ := h.probed k (hk.trans (Nat.le_succ i))
  refine ⟨by rw [h1, hset k hki], fun hnone ↦ ?_⟩
  rw [hne k hki, h2 hnone, hnode k (by omega) _ (pathNode_lt hc addr (by omega)),
    if_neg fun h ↦ hki h.1]

/-- When the check has passed for a block of the set, the loop may start. -/
theorem clearing_of_shows (hU : Valid U) (hmem : blk ∈ U) (hwf : b.cache.WF) (hfree : b.FreeSetOk)
    (hprobe : ∀ k ≤ blk.level, b.Probed probe addr k) (hshow : b.cache.Shows (bitmap U)) :
    b.Clearing U blk addr probe blk.level := by
  refine ⟨hwf, hfree, hprobe, hshow.congr fun l _ n _ j _ ↦ ?_, fun e hcov hbit ↦
    ((hU.bitmap_erase_of_level hmem).mp hbit).2 hcov⟩
  rw [Cache.Between, bitmap_iff_erase hmem, ← bitmap_cons]
  by_cases hl : l < blk.level + 1
  · rw [if_pos hl]
  · rw [if_neg hl, bitmap_cons]
    exact or_iff_right fun hcov ↦ hl (Nat.lt_succ_of_le hcov.level_le)

end Loop

/-- What the clear loop leaves behind. -/
structure Cleared (b b' : Buddy c) (U : List Block) (probe : Probe) : Prop where
  wf : b'.cache.WF
  freeSetOk : b'.FreeSetOk
  shows_erase : b'.cache.Shows (bitmap U)
  inBounds : b'.cache.inBounds = b.cache.inBounds
  assertHeld : (probe 0).isSome → b'.cache.assertHeld = b.cache.assertHeld

theorem clear_spec (hc : c.Ok) (hU : Valid U) (hmem : blk ∈ U) (hblk : IsBlock c o blk)
    (haddr : Denotes c addr blk) (probe : Probe) (k : ℕ) :
    ∀ {b : Buddy c}, k ≤ blk.level → b.Clearing U blk addr probe k →
      Cleared b (b.clear probe addr blk.level blk.width k) (U.erase blk) probe := by
  induction k with
  | zero =>
    intro b hk h
    obtain ⟨hwf, hfree, hshow, -⟩ := h.round hc hblk haddr hk
    obtain ⟨-, -, -, -, -, -, -, hin, hassert⟩ := clearLevel_spec hc h.wf addr
      (hk.trans_lt (hblk.level_lt hc)) (h.probed 0 le_rfl) (if 0 = blk.level then blk.width else 1)
    rw [clear]
    refine ⟨hwf, hfree, hshow.congr fun l _ n _ j _ ↦ ?_, hin, fun h0 ↦ ?_⟩
    · rw [Cache.Between, if_neg (Nat.not_lt_zero l)]
    · rw [hassert, h0, Bool.or_true, Bool.and_true]
  | succ k ih =>
    intro b hk h
    obtain ⟨hwf, hfree, hshow, hzero⟩ := h.round hc hblk haddr hk
    obtain ⟨-, -, -, -, -, -, -, hin, hassert⟩ := clearLevel_spec hc h.wf addr
      (hk.trans_lt (hblk.level_lt hc)) (h.probed (k + 1) le_rfl)
      (if k + 1 = blk.level then blk.width else 1)
    rw [decide_eq_true (Nat.succ_pos k), Bool.true_or, Bool.and_true] at hassert
    rw [clear]
    -- the loop goes on upwards as long as the node has become empty
    by_cases hcont : (b.clearLevel probe addr (k + 1)
        (if k + 1 = blk.level then blk.width else 1)).1 = true
    · rw [if_pos hcont]
      have hr := ih (by omega) (h.next hc hU hmem hblk haddr hk hcont)
      exact ⟨hr.wf, hr.freeSetOk, hr.shows_erase, hr.inBounds.trans hin, fun h0 ↦
        (hr.assertHeld h0).trans hassert⟩
    · rw [if_neg hcont]
      exact ⟨hwf, hfree, shows_of_stop hc (hU.erase blk) hblk haddr hk hshow (mt hzero.mpr hcont),
        hin, fun _ ↦ hassert⟩

end Clear

/-! ## The call as a whole -/

theorem free_of_le {b : Buddy c} {o : ℕ} {addr : BitVec 32} (h : c.orderMax - 1 ≤ o) :
    b.free o addr = (1, b) := by
  rw [free, if_pos h]

/-- The test `free` makes on the tree before it touches it. -/
def Accepts (s : Cache c) (o : ℕ) (addr : BitVec 32) : Prop :=
  o < c.orderMax - 1 ∧ ∀ i ≤ orderToLevel c o,
    pathTest s addr i (if i = orderToLevel c o then orderToWidth c o else 1) = true

theorem free_of_not_accepts (hc : c.Ok) {b : Buddy c} (hs : b.cache.WF) (hfree : b.FreeSetOk)
    {o : ℕ} {addr : BitVec 32} (h : ¬Accepts b.cache o addr) :
    (b.free o addr).1 = 1 ∧ (b.free o addr).2.FreeSetOk ∧
      ∃ a, (b.free o addr).2.cache = { b.cache with assertHeld := a } := by
  by_cases ho : c.orderMax - 1 ≤ o
  · rw [free_of_le ho]
    exact ⟨rfl, hfree, _, rfl⟩
  · have hspec := check_spec hc addr (orderToLevel c o) (orderToWidth c o) (orderToLevel c o)
      (fun _ ↦ some 0) hs hfree (orderToLevel_lt hc o)
    have hacc : ¬(b.check addr (orderToLevel c o) (orderToWidth c o) (orderToLevel c o)
        fun _ ↦ some 0).1 = true := fun hacc ↦
      h ⟨not_le.mp ho, hspec.accept_iff.mp hacc⟩
    rw [free, if_neg ho]
    dsimp only
    rw [if_neg hacc]
    exact ⟨rfl, hspec.freeSetOk, hspec.cache_eq⟩

theorem free_stat_of_accepts (hc : c.Ok) {b : Buddy c} (hs : b.cache.WF)
    (hfree : b.FreeSetOk) {o : ℕ}
    {addr : BitVec 32} (h : Accepts b.cache o addr) : (b.free o addr).1 = 0 := by
  have hspec := check_spec hc addr (orderToLevel c o) (orderToWidth c o) (orderToLevel c o)
    (fun _ ↦ some 0) hs hfree (orderToLevel_lt hc o)
  rw [free, if_neg (not_le.mpr h.1)]
  dsimp only
  rw [if_pos (hspec.accept_iff.mpr h.2)]

theorem pathTest_eq_true_iff (hc : c.Ok) {s : Cache c} {f : ℕ → ℕ → Prop} (hshow : s.Shows f)
    (addr : BitVec 32) {i w : ℕ} (hi : i < c.levelMax) (hw : IsWidth w) :
    pathTest s addr i w = true ↔ ∃ k, k / 8 = pathNode c addr i ∧ addrCell c addr i ≤ k ∧
      k < addrCell c addr i + w ∧ f i k := by
  have hn := pathNode_lt hc addr hi
  rw [pathTest, bne_iff_ne, Ne, eq_zero_iff_getLsbD]
  push Not
  constructor
  · rintro ⟨j, hj, hbit⟩
    rw [BitVec.getLsbD_and, Bool.ne_false_iff, Bool.and_eq_true, hshow i hi _ hn j hj,
      getLsbD_pathMask hc addr hi hw hj] at hbit
    exact ⟨8 * pathNode c addr i + j, by omega, hbit.2.1, hbit.2.2, hbit.1⟩
  · rintro ⟨k, hk, h1, h2, hf⟩
    have hsplit : 8 * pathNode c addr i + k % 8 = k := by omega
    refine ⟨k % 8, Nat.mod_lt _ (by decide), ?_⟩
    rw [BitVec.getLsbD_and, Bool.ne_false_iff, Bool.and_eq_true,
      hshow i hi _ hn _ (Nat.mod_lt _ (by decide)), getLsbD_pathMask hc addr hi hw
        (Nat.mod_lt _ (by decide)), hsplit]
    exact ⟨hf, h1, h2⟩

theorem accepts_of_mem (hc : c.Ok) {s : Cache c} {U : List Block}
    (hshow : s.Shows (bitmap U)) {o : ℕ}
    (ho : o < c.orderMax - 1) {blk : Block} (hmem : blk ∈ U) (hblk : IsBlock c o blk)
    {addr : BitVec 32} (haddr : Denotes c addr blk) : Accepts s o addr := by
  refine ⟨ho, fun i hi ↦ ?_⟩
  rw [pathTest_eq_true_iff hc hshow addr (hi.trans_lt (orderToLevel_lt hc o))
    (Cache.isWidth_ite o i)]
  rw [← hblk.level_eq] at hi ⊢
  rw [← hblk.width_eq]
  have hcov := hblk.wf.covers_anchor hi
  rw [← haddr i hi] at hcov
  have hwin := (haddr.covers_iff hi).mp hcov
  exact ⟨addrCell c addr i, rfl, hwin.1, hwin.2, blk, hmem, hcov⟩

/-- **`free` takes an outstanding block out of the set.** -/
theorem free_spec (hc : c.Ok) {b : Buddy c} (hs : b.cache.WF) (hfree : b.FreeSetOk) {U : List Block}
    (hU : Valid U) (hshow : b.cache.Shows (bitmap U)) {o : ℕ} (ho : o < c.orderMax - 1)
    {blk : Block} (hmem : blk ∈ U) (hblk : IsBlock c o blk) {addr : BitVec 32}
    (haddr : Denotes c addr blk) :
    ∃ (probe : Probe) (b' : Buddy c) (a : Bool), b'.cache = { b.cache with assertHeld := a } ∧
      b'.Clearing U blk addr probe blk.level ∧
      (b.cache.Cached 0 0 → (probe 0).isSome ∧ a = b.cache.assertHeld) ∧
      b.free o addr = (0, b'.clear probe addr blk.level blk.width blk.level) := by
  have hlevel := hblk.level_eq
  have hspec := check_spec hc addr (orderToLevel c o) (orderToWidth c o) (orderToLevel c o)
    (fun _ ↦ some 0) hs hfree (orderToLevel_lt hc o)
  have hacc := hspec.accept_iff.mpr (accepts_of_mem hc hshow ho hmem hblk haddr).2
  obtain ⟨a, ha⟩ := hspec.cache_eq
  set r := b.check addr (orderToLevel c o) (orderToWidth c o) (orderToLevel c o) fun _ ↦
    some 0 with hr
  refine ⟨r.2.1, r.2.2, a, ha, ?_, fun hroot ↦ ?_, ?_⟩
  · refine clearing_of_shows hU hmem (ha ▸ hs.of_buddySet_eq rfl) hspec.freeSetOk
      (fun i hi ↦ hspec.probed hacc i (hi.trans_eq hlevel)) ?_
    rw [ha]
    exact hshow
  · -- the root is cached, so the last round of the check does not read DRAM
    have hpath : pathNode c addr 0 = 0 := Nat.lt_one_iff.mp (pathNode_lt hc addr hc.levelMax_pos)
    have hcached : (tagInCache (b.cache.buddySet 0) (nodeTag c 0 (pathNode c addr 0))).isSome := by
      rw [hpath]
      exact Cache.isSome_tagInCache hroot
    have hprobe := (hspec.probed hacc 0 (Nat.zero_le _)).probe_eq
    have hassert := hspec.assertHeld hacc
    rw [ha] at hprobe hassert
    rw [hcached, Bool.and_true] at hassert
    exact ⟨by rw [hprobe]; exact hcached, hassert⟩
  · rw [free, if_neg (not_le.mpr ho)]
    dsimp only
    rw [← hr, if_pos hacc, hlevel, hblk.width_eq]

end Buddy

end FpgaOs.Alloc
