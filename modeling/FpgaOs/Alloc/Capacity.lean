import FpgaOs.Alloc.Exhaustion

/-!
# Whether capacity comes back

A second round of the same requests, after everything granted in the first has been freed, can fail.
The tree is then the one a new allocator has, but `alloc` searches lines and not the tree: a line on
the path to the metadata that was evicted, or flushed because it filled up, has not come back, and
with it the free slots next to the metadata are out of reach. The extreme case is the root.

`capacity_kept` gives the condition under which nothing is lost: no request of the first round
evicts a line, and none takes the last slot of a line on the path to the metadata. Then those lines
are where the constructor put them (`Pinned`), and once all blocks are freed the cache and DRAM are
equal, byte by byte, to those of a new allocator.
-/

namespace FpgaOs.Alloc

open Octree Machine

variable {c : Config}

/-- The node holds bits of the metadata block, or of the path to it. -/
def OnMetaPath (c : Config) (l n : ℕ) : Prop := n = 0 ∧ l ≤ orderToLevel c c.metaOrder

namespace Cache

/-- The lines of the metadata are where the constructor put them, no line was ever evicted, and DRAM
is zero outside the bytes of other nodes. -/
structure Pinned (s : Cache c) : Prop where
  line : ∀ l ≤ orderToLevel c c.metaOrder, (s.line l 0).valid ∧ (s.line l 0).tag = nodeTag c l 0
  counter : ∀ l, (s.buddySet l).randCounter = 0
  above : ∀ l, c.levelMax ≤ l → s.buddySet l = (Buddy.init c 0).cache.buddySet l
  dram : ∀ a, (∀ l < c.levelMax, ∀ n < 8 ^ l, ¬OnMetaPath c l n →
    s.drambuddy (nodeTag c l n) l ≠ a) →
    s.dram a = 0

section Pinned

variable {s : Cache c} {l i n : ℕ}

theorem Pinned.setLine (h : s.Pinned) (hl : l < c.levelMax) {x : BuddyCacheLine c}
    (hx : l ≤ orderToLevel c c.metaOrder → i = 0 → x.valid ∧ x.tag = nodeTag c l 0) :
    (s.setLine l i x).Pinned where
  line m hm := by
    rw [line_setLine]
    split
    case isTrue heq =>
      rw [heq.1] at hm ⊢
      exact hx hm heq.2.symm
    case isFalse => exact h.line m hm
  counter m := by
    rw [randCounter_setLine]
    exact h.counter m
  above m hm := by
    rw [buddySet_setLine_of_ne s i x (by omega)]
    exact h.above m hm
  dram := h.dram

theorem Pinned.dramWrite (h : s.Pinned) (hl : l < c.levelMax) (hn : n < 8 ^ l)
    (hoff : ¬OnMetaPath c l n) (x : BitVec 8) : (s.dramWrite (nodeTag c l n) l x).Pinned where
  line := h.line
  counter := h.counter
  above := h.above
  dram a ha := by
    have hne : a ≠ s.drambuddy (nodeTag c l n) l := (ha l hl n hn hoff).symm
    rw [dram_dramWrite, Function.update_of_ne hne]
    exact h.dram a ha

theorem Pinned.cached (h : s.Pinned) (hs : s.WF) (hl : l < c.levelMax) (hon : OnMetaPath c l n) :
    s.Cached l n := by
  obtain ⟨rfl, hle⟩ := hon
  exact hs.cached_of_line hl (h.line l hle).1 (h.line l hle).2

theorem Pinned.node_eq_zero (h : s.Pinned) (hl : l < c.levelMax)
    (hle : l ≤ orderToLevel c c.metaOrder) (hn : n < 8 ^ l)
    (ht : (s.line l 0).tag = nodeTag c l n) :
    n = 0 := by
  rw [(h.line l hle).2] at ht
  exact (nodeTag_inj hl (by positivity) hn ht).symm

theorem Pinned.takeSlot (h : s.Pinned) (hs : s.WF) (hl : l < c.levelMax) (hv : (s.line l i).valid)
    (ht : (s.line l i).tag = nodeTag c l n) (hn : n < 8 ^ l) {w : ℕ} {idx : BitVec 3}
    (hkeep : OnMetaPath c l n → (s.line l i).children ||| widthMask w <<< idx.toNat ≠ 0xFF) :
    (s.takeSlot l i w idx).Pinned := by
  have hset : (s.setLine l i (setClearBits (s.line l i) w idx true)).Pinned := by
    refine h.setLine hl fun hle hi ↦ ?_
    subst hi
    exact h.line l hle
  rw [Cache.takeSlot]
  split
  case isFalse => exact hset
  case isTrue hfull =>
    have hoff : ¬OnMetaPath c l n := fun hon ↦ hkeep hon hfull
    have hlevel : ((s.setLine l i (setClearBits (s.line l i) w idx true)).buddySet l).level
      = l := by
      rw [level_setLine, hs.level_eq l hl]
    have htag : (setClearBits (s.line l i) w idx true).tag = nodeTag c l n := ht
    rw [flushLine, line_setLine_self, hlevel, htag]
    refine (hset.dramWrite hl hn hoff _).setLine hl fun hle hi ↦ ?_
    subst hi
    exact absurd ⟨h.node_eq_zero hl hle hn ht, hle⟩ hoff

theorem Pinned.loadLevel (h : s.Pinned) (hs : s.WF) (hl : l < c.levelMax) (hpos : 0 < l)
    (hfree : ∃ j < (s.buddySet l).size, ¬(s.line l j).valid) (hzero : s.node l n = 0) {w : ℕ}
    (hw : IsWidth w) (idx : BitVec 3) : (s.loadLevel l (nodeTag c l n) w idx).1.Pinned := by
  rcases s.chooseLine_cases l with ⟨j, -, hv, hch⟩ | ⟨hall, -⟩
  · have hroom := makeRoom_of_free hch
    have hdram : (s.makeRoom l).dram ((s.makeRoom l).drambuddy (nodeTag c l n) l) = 0 := by
      rw [hroom, ← node_of_not_cached (hs.not_cached_of_node_eq_zero hl hpos hzero), hzero]
    rw [loadLevel_of_zero hw idx hdram, hroom, hch]
    have hassert : (s.assertLevel l).Pinned := ⟨h.line, h.counter, h.above, h.dram⟩
    refine hassert.setLine hl fun hle hj ↦ ?_
    have hj0 : j = 0 := hj
    subst hj0
    exact absurd (h.line l hle).1 hv
  · obtain ⟨j, hj, hv⟩ := hfree
    exact absurd (hall j hj) hv

end Pinned

/-- On every level the loop loads there is an unused line. -/
def Roomy (s : Cache c) (o st : ℕ) : Prop :=
  ∀ l ≤ orderToLevel c o, st < l → ∃ i < (s.buddySet l).size, ¬(s.line l i).valid

instance (s : Cache c) (o st : ℕ) : Decidable (s.Roomy o st) :=
  inferInstanceAs (Decidable (∀ l ≤ _, _ → ∃ i < _, _))

theorem Pinned.cacheLoad (hc : c.Ok) {U : List Block} (hU : Valid U) {b : Block} {o st : ℕ}
    (hb : Descent c b o st) :
    ∀ (d i : ℕ) (s : Cache c) (idx : BitVec 3), st ≤ i → i + d = b.level → s.Loading U b i →
      s.Roomy o i → s.Pinned →
      (s.cacheLoad (orderToLevel c o) (orderToWidth c o) d (i + 1) (nodeTag c (i + 1) (b.anchor i))
        idx).1.Pinned := by
  intro d
  induction d with
  | zero => exact fun i s idx _ _ _ _ h ↦ h
  | succ d ih =>
    intro i s idx hst hi hload hroom h
    have hlevel := hb.isBlock.level_eq
    have hlt : i < b.level := by omega
    have hil : i + 1 < c.levelMax := lt_of_le_of_lt hlt (hb.isBlock.level_lt hc)
    obtain ⟨htag, hnext⟩ := hload.next hc hU hb hst hlt idx
    have hpin := h.loadLevel hload.wf hil (Nat.succ_pos i)
      (hroom (i + 1) (by omega) (Nat.lt_succ_self i)) (hload.node_eq_zero hc hU hb hlt)
      (isWidth_ite (c := c) o (i + 1)) idx
    rw [Cache.cacheLoad, htag]
    rcases Nat.eq_zero_or_pos d with rfl | hd
    · exact hpin
    · dsimp only
      rw [hb.tag_succ hc hst (by omega)]
      -- the levels below have kept their unused lines
      refine ih (i + 1) _ 0 (by omega) (by omega) hnext (fun l hl hil' ↦ ?_) hpin
      obtain ⟨j, hj, hv⟩ := hroom l hl (by omega)
      have hne : l ≠ i + 1 := by omega
      have hset := buddySet_loadLevel_of_ne s (nodeTag c (i + 1) (b.anchor i))
        (if i + 1 = orderToLevel c o then orderToWidth c o else 1) idx hne
      refine ⟨j, by rwa [hset], ?_⟩
      rwa [Cache.line, hset]

/-- **`alloc` keeps the metadata pinned**, unless it evicts a line or fills one of the path. -/
theorem Pinned.descend (hc : c.Ok) {s : Cache c} (h : s.Pinned) (hs : s.WF) {U : List Block}
    (hU : Valid U) (hshow : s.Shows (bitmap U)) {o st nr n : ℕ} {idx : BitVec 3}
    (hslot : s.Slot o st nr n idx) (hroom : s.Roomy o st)
    (hkeep : OnMetaPath c st n → ¬s.Fills o st nr idx) : (s.descend o st nr idx).1.Pinned := by
  have hst : st < c.levelMax := hslot.start_le.trans_lt (orderToLevel_lt hc o)
  have htake := h.takeSlot hs hst hslot.valid hslot.tag hslot.node_lt hkeep
  rw [Cache.descend, hslot.tag]
  -- on the level of the order itself nothing is loaded
  rcases hslot.start_le.eq_or_lt with hreq | hlt
  · rw [← hreq, Nat.sub_self, Cache.cacheLoad]
    rw [if_pos hreq] at htake
    rw [if_pos rfl, hreq]
    exact hreq ▸ htake
  · have hanchor : (grant c o st n idx).anchor st = 8 * n + idx.toNat := by
      rw [anchor_grant le_rfl hslot.start_le, Nat.sub_self, pow_zero, mul_one]
    have htag : parenttagIdxToTag (nodeTag c st n) st idx
        = nodeTag c (st + 1) ((grant c o st n idx).anchor st) := by
      rw [hanchor]
      exact parenttagIdxToTag_eq hc (lt_of_le_of_lt hlt (orderToLevel_lt hc o)) hslot.node_lt idx
    rw [htag]
    refine Pinned.cacheLoad hc hU hslot.descent _ st _ idx le_rfl (Nat.add_sub_cancel' hlt.le)
      (hslot.loading hc hs hU hshow) (fun l hl hstl ↦ ?_) htake
    obtain ⟨j, hj, hv⟩ := hroom l hl hstl
    have hset := buddySet_takeSlot_of_ne s nr
      (if st = orderToLevel c o then orderToWidth c o else 1) idx hstl.ne'
    refine ⟨j, by rwa [hset], ?_⟩
    rwa [Cache.line, hset]

end Cache

/-! ## Freeing -/

namespace Buddy

theorem pinned_clearLevel (hc : c.Ok) {b : Buddy c} (h : b.cache.Pinned) (hs : b.cache.WF)
    {probe : Probe} {addr : BitVec 32} {i : ℕ} (hi : i < c.levelMax)
    (hprobe : b.Probed probe addr i) (w : ℕ) (hkeep : OnMetaPath c i (pathNode c addr i) →
      b.cache.node i (pathNode c addr i) &&& ~~~pathMask c addr i w ≠ 0) :
    (b.clearLevel probe addr i w).2.cache.Pinned := by
  have hn := pathNode_lt hc addr hi
  rw [clearLevel]
  cases hcase : probe i with
  | some nr =>
    have hin := hprobe.probe_eq
    rw [hcase] at hin
    obtain ⟨hv, ht⟩ := Cache.tagInCache_eq_some_iff hin.symm
    rw [hs.node_of_line hi hv ht] at hkeep
    dsimp only
    have hset : (b.cache.setLine i nr
        (setClearBits (b.cache.line i nr) w (addrToIdx c addr i) false)).Pinned := by
      refine h.setLine hi fun hle hnr ↦ ?_
      subst hnr
      exact h.line i hle
    -- the line is flushed only when it is empty, and a node of the path is not
    split
    case isFalse => exact hset
    case isTrue hzero =>
      have hoff : ¬OnMetaPath c i (pathNode c addr i) := fun hon ↦ hkeep hon hzero.1
      have htag : (setClearBits (b.cache.line i nr) w (addrToIdx c addr i) false).tag
          = nodeTag c i (pathNode c addr i) := ht
      rw [Cache.level_setLine, hs.level_eq i hi, htag]
      refine (hset.dramWrite hi hn hoff _).setLine hi fun hle hnr ↦ ?_
      subst hnr
      exact absurd ⟨h.node_eq_zero hi hle hn ht, hle⟩ hoff
  | none =>
    have hin := hprobe.probe_eq
    rw [hcase] at hin
    have hcached := Cache.not_cached_of_tagInCache hin.symm
    dsimp only
    rw [hprobe.loaded hcase]
    -- the nodes of the path are cached, so the byte that goes to DRAM is not one of them
    exact h.dramWrite hi hn (fun hon ↦ hcached (h.cached hs hi hon)) _

variable {U : List Block} {o : ℕ} {blk : Block} {addr : BitVec 32} {probe : Probe}

/-- While the metadata block is in the set, no node of its path becomes empty. -/
theorem node_ne_zero_of_mem (hc : c.Ok) {s : Cache c} {V : List Block} {i n : ℕ}
    (hmem : metaBlock c ∈ V) (hshow : s.Shows (Cache.Between V blk i)) (hi : i < c.levelMax)
    (hm : (metaBlock c).WF) (hon : OnMetaPath c i n) : s.node i n ≠ 0 := by
  obtain ⟨rfl, hle⟩ := hon
  rw [Ne, hshow.node_eq_zero hi (by positivity)]
  intro h
  refine h 0 (by decide) ?_
  rw [Cache.Between, if_neg (lt_irrefl i)]
  refine ⟨metaBlock c, hmem, ?_⟩
  have hcov := hm.covers_anchor (l := i) hle
  rwa [metaBlock, ← denotes_blockAt hc 0 c.metaOrder i hle,
    show addrCell c 0 i = 8 * 0 + 0 by simp [addrCell]] at hcov

theorem pinned_clear (hc : c.Ok) (hU : Valid U) (hmem : blk ∈ U) (hblk : IsBlock c o blk)
    (haddr : Denotes c addr blk) (hmeta : metaBlock c ∈ U.erase blk) (k : ℕ) :
    ∀ {b : Buddy c}, k ≤ blk.level → b.Clearing U blk addr probe k → b.cache.Pinned →
      (b.clear probe addr blk.level blk.width k).cache.Pinned := by
  -- the metadata block stays in the set, so no round empties a node of its path
  have hround : ∀ {b : Buddy c} {i : ℕ}, i ≤ blk.level → b.Clearing U blk addr probe i →
      b.cache.Pinned →
      (b.clearLevel probe addr i (if i = blk.level then blk.width else 1)).2.cache.Pinned := by
    intro b i hi h hpin
    have hil := hi.trans_lt (hblk.level_lt hc)
    refine pinned_clearLevel hc hpin h.wf hil (h.probed i le_rfl) _ fun hon ↦ ?_
    obtain ⟨-, hnode, -⟩ := clearLevel_spec hc h.wf addr hil (h.probed i le_rfl)
      (if i = blk.level then blk.width else 1)
    have hpath := (hnode i hil _ (pathNode_lt hc addr hil)).trans (if_pos ⟨rfl, rfl⟩)
    rw [← hpath]
    exact node_ne_zero_of_mem hc hmeta (h.round hc hblk haddr hi).2.2.1 hil
      ((hU.erase blk).wf _ hmeta) hon
  induction k with
  | zero => exact fun hk h hpin ↦ hround hk h hpin
  | succ k ih =>
    intro b hk h hpin
    rw [clear]
    by_cases hcont : (b.clearLevel probe addr (k + 1)
        (if k + 1 = blk.level then blk.width else 1)).1 = true
    · rw [if_pos hcont]
      exact ih (by omega) (h.next hc hU hmem hblk haddr hk hcont) (hround hk h hpin)
    · rw [if_neg hcont]
      exact hround hk h hpin

end Buddy

/-! ## Whole rounds -/

namespace Ledger

/-- The request is granted. -/
def Succeeds (s : Ledger c) (req : Request c) : Prop := (s.buddy.handler req).1.stat = 0

instance (s : Ledger c) (req : Request c) : Decidable (s.Succeeds req) :=
  inferInstanceAs (Decidable (_ = _))

/-- Where the search of an `ALLOC` stops, the levels below have an unused line each; and if it stops
in a line of the path to the metadata, the slot is not the last one. -/
def KeepsLines (s : Ledger c) : Request c → Prop
  | .free _ _ => True
  | .alloc order =>
    ∀ r ∈ s.buddy.cache.lookUp (orderToLevel c order.toNat) (orderToWidth c order.toNat)
        (orderToLevel c order.toNat),
      s.buddy.cache.Roomy order.toNat r.1 ∧
        (r.1 ≤ orderToLevel c c.metaOrder → (s.buddy.cache.line r.1 r.2.1).tag = 0 →
          ¬s.buddy.cache.Fills order.toNat r.1 r.2.1 r.2.2)

instance (s : Ledger c) (req : Request c) : Decidable (s.KeepsLines req) :=
  match req with
  | .free _ _ => isTrue trivial
  | .alloc _ => inferInstanceAs (Decidable (∀ r ∈ Cache.lookUp _ _ _ _, _))

/-- The state during the first round. -/
structure Steady (s : Ledger c) : Prop where
  sound : s.Sound
  pinned : s.buddy.cache.Pinned

theorem steady_init (hc : c.Ok) (hm : c.MetaOk) (b : BitVec 64) : (init c b).Steady where
  sound := sound_init hc hm b
  pinned :=
    { line := fun l hl ↦ by
        change ((Buddy.init c b).cache.line l 0).valid ∧ ((Buddy.init c b).cache.line l 0).tag = _
        rw [line_init, if_pos rfl]
        exact ⟨(valid_metaLine l).mpr hl, tag_metaLine l⟩
      counter := fun _ ↦ rfl
      above := fun _ _ ↦ rfl
      dram := fun _ _ ↦ rfl }

theorem nodeTag_zero (l : ℕ) : nodeTag c l 0 = 0 := by
  rw [nodeTag, zero_mul]
  rfl

theorem Steady.alloc (hc : c.Ok) {s : Ledger c} (hs : s.Steady) {order : BitVec c.orderMax}
    (hok : s.Succeeds (.alloc order)) (hkeep : s.KeepsLines (.alloc order)) :
    (s.step (.alloc order)).Steady := by
  have hinv := hs.sound.inv
  have hstat : (s.buddy.cache.alloc order.toNat).1 = 0 := hok
  -- a request that succeeds is in range, and its search has found a slot
  have ho : order.toNat < c.orderMax - 1 := by
    by_contra ho
    rw [Cache.alloc_of_le (not_lt.mp ho)] at hstat
    exact absurd hstat (show ¬(1 : BitVec 1) = 0 by decide)
  rw [KeepsLines] at hkeep
  cases hfind : s.buddy.cache.lookUp (orderToLevel c order.toNat) (orderToWidth c order.toNat)
      (orderToLevel c order.toNat) with
  | none =>
    rw [Cache.alloc_of_lookUp_none ho hfind] at hstat
    exact absurd hstat (show ¬(1 : BitVec 1) = 0 by decide)
  | some r =>
    obtain ⟨st, nr, idx⟩ := r
    replace hkeep := hkeep _ hfind
    obtain ⟨n, hslot⟩ := hinv.wf.slot_of_lookUp hc hfind
    have hpath : OnMetaPath c st n → ¬s.buddy.cache.Fills order.toNat st nr idx := by
      rintro ⟨rfl, hle⟩
      exact hkeep.2 hle (hslot.tag.trans (nodeTag_zero st))
    have hroot : 0 < st ∨ ¬s.buddy.cache.Fills order.toNat st nr idx := by
      rcases Nat.eq_zero_or_pos st with rfl | hpos
      · exact Or.inr (hpath ⟨Nat.lt_one_iff.mp hslot.node_lt, Nat.zero_le _⟩)
      · exact Or.inl hpos
    refine ⟨hs.sound.alloc hc ((hasRoom_iff ho).mpr ⟨st, nr, idx, hfind, hroot⟩), ?_⟩
    change (s.buddy.cache.alloc order.toNat).2.2.Pinned
    rw [Cache.alloc_of_lookUp ho hfind]
    exact hs.pinned.descend hc hinv.wf hinv.valid hinv.shows_blocks hslot hkeep.1 hpath

theorem Steady.free (hc : c.Ok) {s : Ledger c} (hs : s.Steady) {addr : BitVec 32}
    {order : BitVec c.orderMax} (hg : (addr, order) ∈ s.outstanding) :
    (s.step (.free addr order)).Steady := by
  have hinv := hs.sound.inv
  have hoff := hinv.isOffset _ hg
  obtain ⟨probe, b', a, hcache, hstart, -, hfree⟩ := Buddy.free_spec hc hinv.wf hinv.freeSetOk
    hinv.valid hinv.shows_blocks hoff.lt_orderMax (mem_blocks hg) (hoff.isBlock hc)
    (denotes_blockAt hc _ _)
  have hmeta : metaBlock c ∈ s.blocks.erase (blockAt c (addr - s.base) order.toNat) := by
    rw [← (hinv.free hc hg).2.2.2.mem_iff]
    exact List.mem_append_right _ (List.mem_singleton_self _)
  refine ⟨hs.sound.free hc hg, ?_⟩
  have hbuddy : (s.step (.free addr order)).buddy = b'.clear probe (addr - s.base)
      (blockAt c (addr - s.base) order.toNat).level (blockAt c (addr - s.base) order.toNat).width
      (blockAt c (addr - s.base) order.toNat).level := congrArg Prod.snd hfree
  rw [hbuddy]
  refine Buddy.pinned_clear hc hinv.valid (mem_blocks hg) (hoff.isBlock hc) (denotes_blockAt hc _ _)
    hmeta _ le_rfl hstart ?_
  rw [hcache]
  exact ⟨hs.pinned.line, hs.pinned.counter, hs.pinned.above, hs.pinned.dram⟩

theorem Steady.frees (hc : c.Ok) {frees : List (Grant c)} :
    ∀ {s : Ledger c}, s.Steady → frees.Perm s.outstanding →
      (run step s (frees.map fun g ↦ .free g.1 g.2)).Steady ∧
        (run step s (frees.map fun g ↦ .free g.1 g.2)).outstanding = [] := by
  induction frees with
  | nil => exact fun hs hperm ↦ ⟨hs, hperm.nil_eq.symm⟩
  | cons g frees ih =>
    intro s hs hperm
    have hg : g ∈ s.outstanding := hperm.mem_iff.mp List.mem_cons_self
    rw [List.map_cons, run_cons]
    refine ih (hs.free hc hg) ?_
    rw [(hs.sound.inv.free hc hg).2.2.1]
    exact (List.cons_perm_iff_perm_erase.mp hperm).2

/-- With nothing on the list only the nodes of the path are not empty. -/
theorem onMetaPath_of_node_ne_zero (hc : c.Ok) {s : Cache c}
    (hshow : s.Shows (bitmap [metaBlock c]))
    {l n : ℕ} (hl : l < c.levelMax) (hn : n < 8 ^ l) (hne : s.node l n ≠ 0) : OnMetaPath c l n := by
  rw [Ne, hshow.node_eq_zero hl hn] at hne
  push Not at hne
  obtain ⟨j, hj, hbit⟩ := hne
  obtain ⟨hle, hk⟩ := (bitmap_metaBlock_iff hc).mp hbit
  have hw8 : (if l = orderToLevel c c.metaOrder then orderToWidth c c.metaOrder else 1) ≤ 4 := by
    rcases Cache.isWidth_ite (c := c) c.metaOrder l with h | h | h <;> rw [h] <;> decide
  exact ⟨by omega, hle⟩

/-- Then the lines are those of a new allocator: the pinned ones have their first contents again,
and any other would hold a node that is not empty. -/
theorem line_eq_init (hc : c.Ok) {s : Cache c} (hs : s.WF) (hpin : s.Pinned)
    (hshow : s.Shows (bitmap [metaBlock c])) (b : BitVec 64) {l : ℕ} (hl : l < c.levelMax) (i : ℕ) :
    s.line l i = (Buddy.init c b).cache.line l i := by
  have hwf0 : (Buddy.init c b).cache.WF := wf_init b
  by_cases hpath : l ≤ orderToLevel c c.metaOrder ∧ i = 0
  · obtain ⟨hle, rfl⟩ := hpath
    obtain ⟨hv, ht⟩ := hpin.line l hle
    have hv0 : ((Buddy.init c b).cache.line l 0).valid := by
      rw [line_init, if_pos rfl]
      exact (valid_metaLine l).mpr hle
    have ht0 : ((Buddy.init c b).cache.line l 0).tag = nodeTag c l 0 := by
      rw [line_init, if_pos rfl, tag_metaLine]
    have hnode : s.node l 0 = (Buddy.init c b).cache.node l 0 := by
      ext j hj
      rw [← BitVec.getLsbD_eq_getElem, ← BitVec.getLsbD_eq_getElem, Bool.eq_iff_iff,
        hshow l hl 0 (by positivity) j hj, shows_init hc b l hl 0 (by positivity) j hj]
    rw [hs.node_of_line hl hv ht, hwf0.node_of_line hl hv0 ht0] at hnode
    -- the two lines have the same three fields
    generalize s.line l 0 = x at *
    generalize (Buddy.init c b).cache.line l 0 = y at *
    obtain ⟨xv, xt, xc⟩ := x
    obtain ⟨yv, yt, yc⟩ := y
    dsimp only at *
    rw [hv, ht, hv0, ht0, hnode]
  · -- a line off the path would hold a node that is not empty
    have hinvalid : ¬(s.line l i).valid := by
      intro hv
      obtain ⟨n, hn, ht⟩ := hs.tag_node l hl i hv
      have hlt := hs.valid_lt l hl i hv
      rw [hs.size_eq l hl] at hlt
      rcases Nat.eq_zero_or_pos l with rfl | hpos
      · rw [if_pos rfl] at hlt
        exact hpath ⟨Nat.zero_le _, Nat.lt_one_iff.mp hlt⟩
      · have hne := hs.nonzero l hl hpos i hv
        rw [← hs.node_of_line hl hv ht] at hne
        obtain ⟨rfl, hle⟩ := onMetaPath_of_node_ne_zero hc hshow hl hn hne
        obtain ⟨hv0, ht0⟩ := hpin.line l hle
        exact hpath ⟨hle, hs.distinct l hl i 0 hv hv0 (ht.trans ht0.symm)⟩
    rw [hs.blank l hl i hinvalid, line_init]
    split
    case isFalse => rfl
    case isTrue hi => rw [metaLine, if_neg fun hle ↦ hpath ⟨hle, hi⟩]

/-- **The allocator is new again.** -/
theorem Steady.cache_eq_init (hc : c.Ok) {s : Ledger c} (hs : s.Steady)
    (hempty : s.outstanding = []) :
    s.buddy.cache = (Buddy.init c s.buddy.cache.managedBase).cache := by
  have hwf := hs.sound.inv.wf
  have hshow := hs.sound.inv.shows_blocks
  rw [blocks, hempty, List.map_nil, List.nil_append] at hshow
  have hline := fun l hl i ↦
    line_eq_init hc hwf hs.pinned hshow s.buddy.cache.managedBase (l := l) hl i
  -- each set is that of the constructor, field by field
  have hset : ∀ l, s.buddy.cache.buddySet l
      = (Buddy.init c s.buddy.cache.managedBase).cache.buddySet l := by
    intro l
    rcases Nat.lt_or_ge l c.levelMax with hl | hl
    · have hwf0 : (Buddy.init c s.buddy.cache.managedBase).cache.WF := wf_init _
      have hlines : (s.buddy.cache.buddySet l).lines
          = ((Buddy.init c s.buddy.cache.managedBase).cache.buddySet l).lines := funext (hline l hl)
      have hlevel := (hwf.level_eq l hl).trans (hwf0.level_eq l hl).symm
      have hsize := (hwf.size_eq l hl).trans (hwf0.size_eq l hl).symm
      have hcounter := hs.pinned.counter l
      cases hx : s.buddy.cache.buddySet l
      rw [hx] at hlevel hsize hcounter hlines
      dsimp only at hlevel hsize hcounter hlines
      rw [hlevel, hsize, hcounter, hlines]
      rfl
    · exact hs.pinned.above l hl
  -- a node off the path is zero, and it is not cached, so its byte in DRAM is zero
  have hdram : ∀ a, s.buddy.cache.dram a = 0 := by
    intro a
    by_cases h : ∃ l < c.levelMax, ∃ n < 8 ^ l, ¬OnMetaPath c l n ∧
        s.buddy.cache.drambuddy (nodeTag c l n) l = a
    · obtain ⟨l, hl, n, hn, hoff, rfl⟩ := h
      have hzero : s.buddy.cache.node l n = 0 := by
        by_contra hne
        exact hoff (onMetaPath_of_node_ne_zero hc hshow hl hn hne)
      have hpos : 0 < l := by
        rcases Nat.eq_zero_or_pos l with rfl | hpos
        · exact absurd ⟨Nat.lt_one_iff.mp hn, Nat.zero_le _⟩ hoff
        · exact hpos
      rw [← Cache.node_of_not_cached (hwf.not_cached_of_node_eq_zero hl hpos hzero), hzero]
    · push Not at h
      exact hs.pinned.dram a h
  have hassert := hs.sound.assertHeld
  have hin := hs.sound.inBounds
  generalize hx : s.buddy.cache = x at *
  obtain ⟨xb, xset, xd, xa, xi⟩ := x
  dsimp only at *
  rw [hassert, hin, funext hset, funext hdram]
  rfl

theorem guarded_succeeds_congr (orders : List (BitVec c.orderMax)) :
    ∀ {s t : Ledger c}, s.buddy.cache = t.buddy.cache →
      Guarded step Succeeds s (orders.map .alloc) →
        Guarded step Succeeds t (orders.map .alloc) := by
  induction orders with
  | nil => exact fun _ _ ↦ trivial
  | cons order orders ih =>
    intro s t h hg
    rw [List.map_cons, guarded_cons] at hg ⊢
    refine ⟨?_, ih ?_ hg.2⟩
    · have hs : (s.buddy.cache.alloc order.toNat).1 = 0 := hg.1
      rwa [h] at hs
    · change (s.buddy.cache.alloc order.toNat).2.2 = (t.buddy.cache.alloc order.toNat).2.2
      rw [h]

/-- **Capacity comes back.** If the requests of a first round all succeed, evict no line and leave a
slot in every line of the path to the metadata, then after all blocks have been freed, in any order,
the same requests all succeed again. -/
theorem capacity_kept (hc : c = .phys ∨ c = .virt) (b : BitVec 64)
    (orders : List (BitVec c.orderMax)) (frees : List (Grant c))
    (hround : Guarded step (fun s req ↦ s.Succeeds req ∧ s.KeepsLines req) (init c b)
      (orders.map .alloc))
    (hfrees : frees.Perm (run step (init c b) (orders.map .alloc)).outstanding) :
    Guarded step Succeeds (run step (run step (init c b) (orders.map .alloc))
      (frees.map fun g ↦ .free g.1 g.2)) (orders.map .alloc) := by
  obtain ⟨hok, hm⟩ := Config.ok_of_built hc
  have hsteady : (run step (init c b) (orders.map .alloc)).Steady := by
    have hall : ∀ {s : Ledger c} (orders : List (BitVec c.orderMax)), s.Steady →
        Guarded step (fun s req ↦ s.Succeeds req ∧ s.KeepsLines req) s (orders.map .alloc) →
        (run step s (orders.map .alloc)).Steady := by
      intro s orders
      induction orders generalizing s with
      | nil => exact fun hs _ ↦ hs
      | cons order orders ih => exact fun hs hg ↦ ih (hs.alloc hok hg.1.1 hg.1.2) hg.2
    exact hall orders (steady_init hok hm b) hround
  obtain ⟨hend, hempty⟩ := hsteady.frees hok hfrees
  have hcache := hend.cache_eq_init hok hempty
  rw [managedBase_run, managedBase_run] at hcache
  refine guarded_succeeds_congr orders hcache.symm ?_
  exact Guarded.mono (fun s req h ↦ h.1) hround

/-- Three blocks of one node, freed out of order. -/
theorem capacity_kept_phys :
    Guarded step Succeeds (run step (run step (init .phys 0) ([0, 0, 3].map .alloc))
      ([((0x400100, 0) : Grant .phys), (0x400000, 0), (0x400800, 3)].map fun g ↦ .free g.1 g.2))
      ([0, 0, 3].map .alloc) :=
  capacity_kept (Or.inl rfl) 0 [0, 0, 3] _ (by decide +kernel) (by decide +kernel)

/-- The first round fills the root, which is then flushed; after everything has been freed there is
no line left to search. -/
theorem capacity_lost :
    Guarded step Succeeds (init .phys 0) ([20, 20, 20, 19].map .alloc) ∧
      (run step (init .phys 0) ([20, 20, 20, 19].map .alloc)).outstanding
        = [(0x8000000, 19), (0x30000000, 20), (0x20000000, 20), (0x10000000, 20)] ∧
      ¬Guarded step Succeeds (run step (run step (init .phys 0) ([20, 20, 20, 19].map .alloc))
        ([((0x8000000, 19) : Grant .phys), (0x30000000, 20), (0x20000000, 20), (0x10000000, 20)].map
          fun g ↦ .free g.1 g.2)) ([20, 20, 20, 19].map .alloc) := by
  refine ⟨?_, ?_, ?_⟩
  all_goals decide +kernel

end Ledger

end FpgaOs.Alloc
