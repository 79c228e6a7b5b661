import FpgaOs.Alloc.Overlay
import FpgaOs.Lib.Octree

/-!
# Slots in a line

What the line operations of the allocator do to the bits of a node: which slots
`get_valid_free_line` finds, what `takeSlot` adds to a node, and what the two ways of filling a line
in `ALLOC_CACHE_LOAD` (an unused line, or one that is evicted) amount to. `Shows` states the
contents of the whole tree by a predicate on cells, which is what the octree library speaks about.
-/

namespace FpgaOs.Alloc

variable {c : Config}

/-! ## Bytes and masks -/

/-- The widths `order_to_width` produces. -/
def IsWidth (w : ℕ) : Prop := w = 1 ∨ w = 2 ∨ w = 4

theorem isWidth_one : IsWidth 1 := Or.inl rfl

theorem isWidth_orderToWidth (o : ℕ) : IsWidth (orderToWidth c o) := by
  rcases orderToWidth_cases (c := c) o with ⟨h, -⟩ | ⟨h, -⟩ | ⟨h, -⟩
  · exact Or.inr (Or.inr h)
  · exact Or.inr (Or.inl h)
  · exact Or.inl h

theorem getLsbD_widthMask_shiftLeft {w : ℕ} (hw : IsWidth w) (idx : BitVec 3) {j : ℕ} (hj : j < 8) :
    (widthMask w <<< idx.toNat).getLsbD j = decide (idx.toNat ≤ j ∧ j < idx.toNat + w) := by
  have key : ∀ w ∈ [1, 2, 4], ∀ idx : BitVec 3, ∀ j : Fin 8,
      (widthMask w <<< idx.toNat).getLsbD j = decide (idx.toNat ≤ j ∧ j < idx.toNat + w) := by
    decide
  refine key w ?_ idx ⟨j, hj⟩
  rcases hw with rfl | rfl | rfl <;> simp

theorem eq_zero_iff_getLsbD {x : BitVec 8} : x = 0 ↔ ∀ j < 8, x.getLsbD j = false := by
  constructor
  · rintro rfl j -
    exact BitVec.getLsbD_zero
  · intro h
    ext j hj
    rw [← BitVec.getLsbD_eq_getElem, h j hj]
    simp

theorem widthMask_shiftLeft_ne_zero {w : ℕ} (hw : IsWidth w) (idx : BitVec 3) :
    widthMask w <<< idx.toNat ≠ 0 := by
  intro h
  have hbit := eq_zero_iff_getLsbD.mp h idx.toNat idx.isLt
  rw [getLsbD_widthMask_shiftLeft hw idx idx.isLt] at hbit
  have hpos : 0 < w := by rcases hw with rfl | rfl | rfl <;> decide
  simp [hpos] at hbit

theorem mask_and_eq_zero_iff {w : ℕ} (hw : IsWidth w) (idx : BitVec 3) (x : BitVec 8) :
    widthMask w <<< idx.toNat &&& x = 0 ↔
      ∀ j < 8, idx.toNat ≤ j → j < idx.toNat + w → x.getLsbD j = false := by
  rw [eq_zero_iff_getLsbD]
  refine forall_congr' fun j ↦ forall_congr' fun hj ↦ ?_
  rw [BitVec.getLsbD_and, getLsbD_widthMask_shiftLeft hw idx hj]
  by_cases h : idx.toNat ≤ j ∧ j < idx.toNat + w
  · simp [h]
  · rw [decide_eq_false h, Bool.false_and]
    simp only [true_iff]
    exact fun h1 h2 ↦ absurd ⟨h1, h2⟩ h

theorem getFreeIdx_aligned (line : BuddyCacheLine c) {w : ℕ} (hw : IsWidth w) (idx : BitVec 3) :
    w ∣ (getFreeIdx line w idx).toNat := by
  rcases hw with rfl | rfl | rfl
  · exact one_dvd _
  · rw [getFreeIdx, getFree2bit]
    split_ifs <;> decide
  · rw [getFreeIdx, getFree4bit]
    split_ifs <;> decide

theorem add_width_le_of_dvd {w : ℕ} (hw : IsWidth w) (idx : BitVec 3) (h : w ∣ idx.toNat) :
    idx.toNat + w ≤ 8 := by
  have hlt := idx.isLt
  obtain ⟨q, hq⟩ := h
  rcases hw with rfl | rfl | rfl <;> omega

theorem getFreeIdx_of_zero {line : BuddyCacheLine c} (h : line.children = 0) {w : ℕ}
    (hw : IsWidth w) (idx : BitVec 3) : getFreeIdx line w idx = 0 := by
  rcases hw with rfl | rfl | rfl <;> simp [getFreeIdx, getFree1bit, getFree2bit, getFree4bit, h]

theorem getValidFreeLine_eq_true {line : BuddyCacheLine c} {w : ℕ} (hw : IsWidth w)
    {idx idx' : BitVec 3} (h : getValidFreeLine line w idx = (true, idx')) :
    line.valid ∧ w ∣ idx'.toNat ∧ widthMask w <<< idx'.toNat &&& line.children = 0 := by
  rw [getValidFreeLine] at h
  split at h
  case isTrue hv =>
    obtain ⟨h1, rfl⟩ := Prod.mk.inj h
    rw [Bool.and_eq_true, beq_iff_eq] at h1
    exact ⟨hv, getFreeIdx_aligned line hw idx, h1.2⟩
  case isFalse => exact absurd (Prod.mk.inj h).1 Bool.false_ne_true

theorem getValidFreeSet_eq_some {set : BuddyCacheSet c} {w nr : ℕ} (hw : IsWidth w) {idx : BitVec 3}
    (h : getValidFreeSet set w = some (nr, idx)) :
    nr < set.size ∧ (set.lines nr).valid ∧ w ∣ idx.toNat ∧
      widthMask w <<< idx.toNat &&& (set.lines nr).children = 0 := by
  rw [getValidFreeSet] at h
  obtain ⟨i, hi, hsome⟩ := List.exists_of_findSome?_eq_some h
  dsimp only at hsome
  split at hsome
  case isTrue hr =>
    obtain ⟨rfl, rfl⟩ := Prod.mk.inj (Option.some.inj hsome)
    have hlt := lt_of_lt_of_le (List.mem_range.mp hi) (min_le_right _ _)
    exact ⟨hlt, getValidFreeLine_eq_true hw (Prod.ext hr rfl)⟩
  case isFalse => cases hsome

namespace Cache

/-! ## The tree as a predicate on cells -/

/-- Bit `j` of node `n` of level `l` is set exactly when `f l (8 * n + j)`. -/
def Shows (s : Cache c) (f : ℕ → ℕ → Prop) : Prop :=
  ∀ l < c.levelMax, ∀ n < 8 ^ l, ∀ j < 8, (s.node l n).getLsbD j = true ↔ f l (8 * n + j)

theorem Shows.congr {s : Cache c} {f g : ℕ → ℕ → Prop} (h : s.Shows f)
    (hfg : ∀ l < c.levelMax, ∀ n < 8 ^ l, ∀ j < 8, f l (8 * n + j) ↔ g l (8 * n + j)) : s.Shows g :=
  fun l hl n hn j hj ↦ (h l hl n hn j hj).trans (hfg l hl n hn j hj)

theorem Shows.of_node_eq {s t : Cache c} {f : ℕ → ℕ → Prop} (h : s.Shows f)
    (hnode : ∀ l < c.levelMax, ∀ n < 8 ^ l, t.node l n = s.node l n) : t.Shows f := by
  intro l hl n hn j hj
  rw [hnode l hl n hn]
  exact h l hl n hn j hj

theorem Shows.node_eq_zero {s : Cache c} {f : ℕ → ℕ → Prop} (h : s.Shows f) {l n : ℕ}
    (hl : l < c.levelMax) (hn : n < 8 ^ l) : s.node l n = 0 ↔ ∀ j < 8, ¬f l (8 * n + j) := by
  rw [eq_zero_iff_getLsbD]
  refine forall_congr' fun j ↦ forall_congr' fun hj ↦ ?_
  rw [← h l hl n hn j hj, Bool.not_eq_true]

/-! ## Taking a slot -/

theorem Fits.of_line {s : Cache c} (hs : s.WF) {l i n : ℕ} (hl : l < c.levelMax)
    (hv : (s.line l i).valid) (ht : (s.line l i).tag = nodeTag c l n) (hn : n < 8 ^ l)
    {x : BuddyCacheLine c} (hxv : x.valid) (hxt : x.tag = nodeTag c l n)
    (hx : 0 < l → x.children ≠ 0) : s.Fits l i n x where
  level_lt := hl
  index_lt := hs.valid_lt l hl i hv
  node_lt := hn
  valid := hxv
  tag := hxt
  nonzero := hx
  alone j hj htag := hs.distinct l hl j i hj hv (htag.trans ht.symm)

theorem or_mask_ne_zero {w : ℕ} (hw : IsWidth w) (idx : BitVec 3) (x : BitVec 8) :
    x ||| widthMask w <<< idx.toNat ≠ 0 := by
  intro h
  refine widthMask_shiftLeft_ne_zero hw idx ?_
  have := BitVec.or_eq_zero_iff.mp h
  exact this.2

/-- Taking a slot adds its bits to the node, whether or not that fills the line. -/
theorem WF.takeSlot (hc : c.Ok) {s : Cache c} (hs : s.WF) {l i n : ℕ} (hl : l < c.levelMax)
    (hv : (s.line l i).valid) (ht : (s.line l i).tag = nodeTag c l n) (hn : n < 8 ^ l) {w : ℕ}
    (hw : IsWidth w) (idx : BitVec 3) :
    (s.takeSlot l i w idx).WF ∧ ∀ m < c.levelMax, ∀ k < 8 ^ m,
      (s.takeSlot l i w idx).node m k
        = if m = l ∧ k = n then s.node l n ||| widthMask w <<< idx.toNat else s.node m k := by
  -- the line keeps its tag, and a taken slot leaves its vector nonzero
  have hfit : s.Fits l i n (setClearBits (s.line l i) w idx true) :=
    Fits.of_line hs hl hv ht hn (by simpa [setClearBits] using hv)
      (by simpa [setClearBits] using ht)
      fun _ ↦ by simpa [setClearBits] using or_mask_ne_zero hw idx _
  have hs1 := hs.setLine hfit
  have hnode1 : ∀ m < c.levelMax, ∀ k < 8 ^ m,
      (s.setLine l i (setClearBits (s.line l i) w idx true)).node m k
        = if m = l ∧ k = n then s.node l n ||| widthMask w <<< idx.toNat else s.node m k := by
    intro m hm k hk
    rw [hs.node_setLine hfit (fun _ ↦ ht) hm hk, hs.node_of_line hl hv ht]
    rfl
  -- a line without free cells is written back; that changes no node
  rw [Cache.takeSlot]
  split
  case isTrue =>
    have hvalid : ((s.setLine l i (setClearBits (s.line l i) w idx true)).line l i).valid := by
      rw [line_setLine_self]
      exact hfit.valid
    obtain ⟨hwf, hflush⟩ := hs1.flushLine hc hl hvalid
    exact ⟨hwf, fun m hm k hk ↦ (hflush m hm k hk).trans (hnode1 m hm k hk)⟩
  case isFalse => exact ⟨hs1, hnode1⟩

/-- The same for a tree given by its cells. -/
theorem Shows.takeSlot (hc : c.Ok) {s : Cache c} {f : ℕ → ℕ → Prop} (h : s.Shows f) (hs : s.WF)
    {l i n : ℕ} (hl : l < c.levelMax) (hv : (s.line l i).valid)
    (ht : (s.line l i).tag = nodeTag c l n) (hn : n < 8 ^ l) {w : ℕ} (hw : IsWidth w)
    {idx : BitVec 3} (hidx : w ∣ idx.toNat) :
    (s.takeSlot l i w idx).Shows fun m k ↦
      f m k ∨ (m = l ∧ 8 * n + idx.toNat ≤ k ∧ k < 8 * n + idx.toNat + w) := by
  intro m hm k hk j hj
  rw [(hs.takeSlot hc hl hv ht hn hw idx).2 m hm k hk]
  have hle := add_width_le_of_dvd hw idx hidx
  -- only the cells of node `n` at level `l` change, by the bits of the mask
  by_cases hmk : m = l ∧ k = n
  · obtain ⟨rfl, rfl⟩ := hmk
    rw [if_pos ⟨rfl, rfl⟩, BitVec.getLsbD_or, getLsbD_widthMask_shiftLeft hw idx hj,
      Bool.or_eq_true, h m hm k hk j hj, decide_eq_true_eq]
    refine or_congr_right ?_
    omega
  · rw [if_neg hmk, h m hm k hk j hj]
    refine (or_iff_left ?_).symm
    rintro ⟨rfl, h1, h2⟩
    exact hmk ⟨rfl, by omega⟩

/-! ## Loading a node -/

theorem chooseLine_cases (s : Cache c) (l : ℕ) :
    (∃ i < (s.buddySet l).size, ¬(s.line l i).valid ∧
        chooseLine (s.buddySet l) = (true, i, s.buddySet l)) ∨
      ((∀ i < (s.buddySet l).size, (s.line l i).valid) ∧
        chooseLine (s.buddySet l) = (false, (s.buddySet l).randCounter, (s.buddySet l).count)) := by
  rw [chooseLine]
  cases hfind : (List.range (s.buddySet l).size).find? fun i ↦ !((s.buddySet l).lines i).valid with
  | some i =>
    refine Or.inl ⟨i, List.mem_range.mp (List.mem_of_find?_eq_some hfind), ?_, rfl⟩
    have := List.find?_some hfind
    rw [Bool.not_eq_true'] at this
    rw [line, this]
    exact Bool.false_ne_true
  | none =>
    refine Or.inr ⟨fun i hi ↦ ?_, rfl⟩
    have := List.find?_eq_none.mp hfind i (List.mem_range.mpr hi)
    rw [Bool.not_eq_true, Bool.not_eq_false'] at this
    exact this

theorem WF.setSet_count {s : Cache c} (hs : s.WF) {l : ℕ} (hl : l < c.levelMax) :
    (s.setSet l (s.buddySet l).count).WF ∧
      (∀ m i, (s.setSet l (s.buddySet l).count).line m i = s.line m i) ∧
      ∀ m, ((s.setSet l (s.buddySet l).count).buddySet m).size = (s.buddySet m).size := by
  have hline : ∀ m i, (s.setSet l (s.buddySet l).count).line m i = s.line m i := by
    intro m i
    by_cases hm : m = l
    · subst hm; simp [line, setSet, BuddyCacheSet.count]
    · simp [line, setSet, hm]
  have hsize : ∀ m, ((s.setSet l (s.buddySet l).count).buddySet m).size = (s.buddySet m).size := by
    intro m
    by_cases hm : m = l
    · subst hm; simp [setSet, BuddyCacheSet.count]
    · simp [setSet, hm]
  refine ⟨⟨fun m hm ↦ ?_, fun m hm ↦ ?_, fun m hm ↦ ?_, fun m hm i ↦ ?_, fun m hm i ↦ ?_,
    fun m hm i j ↦ ?_, fun m hm i ↦ ?_, fun m hm hpos i ↦ ?_⟩, hline, hsize⟩
  · by_cases h : m = l
    · subst h; simpa [setSet, BuddyCacheSet.count] using hs.level_eq m hm
    · simpa [setSet, h] using hs.level_eq m hm
  · rw [hsize, hs.size_eq m hm]
  · by_cases h : m = l
    · subst h
      have hpos := hs.size_eq m hm
      simp only [setSet, Function.update_self, BuddyCacheSet.count]
      split_ifs at hpos ⊢ <;> omega
    · simpa [setSet, h] using hs.counter_lt m hm
  · rw [hline, hsize]; exact hs.valid_lt m hm i
  · rw [hline]; exact hs.tag_node m hm i
  · rw [hline, hline]; exact hs.distinct m hm i j
  · rw [hline]; exact hs.blank m hm i
  · rw [hline]; exact hs.nonzero m hm hpos i

/-- `choose_line` and the eviction that may follow it: a line of the level is free, and no node has
changed. -/
def makeRoom (s : Cache c) (l : ℕ) : Cache c :=
  let chosen := chooseLine (s.buddySet l)
  let s := s.setSet l chosen.2.2
  if chosen.1 then s else s.flushLine l chosen.2.1

theorem makeRoom_of_free {s : Cache c} {l i : ℕ}
    (h : chooseLine (s.buddySet l) = (true, i, s.buddySet l)) : s.makeRoom l = s := by
  rw [makeRoom, h]
  simp [setSet]

theorem WF.makeRoom (hc : c.Ok) {s : Cache c} (hs : s.WF) {l : ℕ} (hl : l < c.levelMax) :
    (s.makeRoom l).WF ∧
      (chooseLine (s.buddySet l)).2.1 < ((s.makeRoom l).buddySet l).size ∧
      ¬((s.makeRoom l).line l (chooseLine (s.buddySet l)).2.1).valid ∧
      ∀ m < c.levelMax, ∀ k < 8 ^ m, (s.makeRoom l).node m k = s.node m k := by
  rcases s.chooseLine_cases l with ⟨i, hi, hv, hch⟩ | ⟨hall, hch⟩
  · rw [makeRoom_of_free hch, hch]
    exact ⟨hs, hi, hv, fun _ _ _ _ ↦ rfl⟩
  · obtain ⟨hs1, hline, hsize⟩ := hs.setSet_count hl
    have hcnt := hs.counter_lt l hl
    have hv : ((s.setSet l (s.buddySet l).count).line l (s.buddySet l).randCounter).valid := by
      rw [hline]
      exact hall _ hcnt
    have heq : s.makeRoom l
        = (s.setSet l (s.buddySet l).count).flushLine l (s.buddySet l).randCounter := by
      rw [Cache.makeRoom, hch]
      rfl
    obtain ⟨hs2, hnode⟩ := hs1.flushLine hc hl hv
    rw [heq, hch]
    refine ⟨hs2, ?_, ?_, fun m hm k hk ↦ ?_⟩
    · rw [flushLine_eq hs1 hl, size_setLine, buddySet_dramWrite, hsize]
      exact hcnt
    · rw [flushLine_eq hs1 hl, line_setLine_self]
      exact Bool.false_ne_true
    · rw [hnode m hm k hk]
      exact hs.node_congr hs1 hm (hline m) rfl

theorem loadLevel_eq (s : Cache c) (i : ℕ) (tag : BitVec c.orderMax) (w : ℕ) (idx : BitVec 3) :
    s.loadLevel i tag w idx =
      let t := s.makeRoom i
      let x : BuddyCacheLine c :=
        { valid := true, tag := tag, children := t.dram (t.drambuddy tag i) }
      let idx' := getFreeIdx x w idx
      (((t.assertLevel i).setLine i (chooseLine (s.buddySet i)).2.1 x).takeSlot i
        (chooseLine (s.buddySet i)).2.1 w idx', parenttagIdxToTag tag i idx', idx') := rfl

theorem loadLevel_of_zero {s : Cache c} {i : ℕ} {tag : BitVec c.orderMax} {w : ℕ} (hw : IsWidth w)
    (idx : BitVec 3) (h : (s.makeRoom i).dram ((s.makeRoom i).drambuddy tag i) = 0) :
    s.loadLevel i tag w idx =
      (((s.makeRoom i).assertLevel i).setLine i (chooseLine (s.buddySet i)).2.1
        { valid := true, tag := tag, children := widthMask w }, parenttagIdxToTag tag i 0, 0) := by
  rw [loadLevel_eq]
  dsimp only
  rw [getFreeIdx_of_zero h hw, Cache.takeSlot, line_setLine_self, h, setLine_setLine, if_neg]
  · simp [setClearBits]
  · rcases hw with rfl | rfl | rfl <;> simp [setClearBits, widthMask]

/-- **Loading an empty node.** -/
theorem WF.loadLevel (hc : c.Ok) {s : Cache c} (hs : s.WF) {l n : ℕ} (hl : l < c.levelMax)
    (hpos : 0 < l) (hn : n < 8 ^ l) (hzero : s.node l n = 0) {w : ℕ} (hw : IsWidth w)
    (idx : BitVec 3) :
    (s.loadLevel l (nodeTag c l n) w idx).1.WF ∧
      (s.loadLevel l (nodeTag c l n) w idx).2 = (parenttagIdxToTag (nodeTag c l n) l 0, 0) ∧
      ∀ m < c.levelMax, ∀ k < 8 ^ m, (s.loadLevel l (nodeTag c l n) w idx).1.node m k
        = if m = l ∧ k = n then widthMask w else s.node m k := by
  obtain ⟨hs1, hlt, hv, hnode⟩ := hs.makeRoom hc hl
  have hcached : ¬(s.makeRoom l).Cached l n :=
    hs1.not_cached_of_node_eq_zero hl hpos ((hnode l hl n hn).trans hzero)
  have hdram : (s.makeRoom l).dram ((s.makeRoom l).drambuddy (nodeTag c l n) l) = 0 := by
    rw [← node_of_not_cached hcached, hnode l hl n hn, hzero]
  rw [loadLevel_of_zero hw idx hdram]
  -- the assertion register is not looked at by any of this
  have hs2 : ((s.makeRoom l).assertLevel l).WF := hs1.of_buddySet_eq rfl
  have hfit : ((s.makeRoom l).assertLevel l).Fits l (chooseLine (s.buddySet l)).2.1 n
      { valid := true, tag := nodeTag c l n, children := widthMask w } :=
    { level_lt := hl
      index_lt := hlt
      node_lt := hn
      valid := rfl
      tag := rfl
      nonzero := fun _ ↦ by simpa using widthMask_shiftLeft_ne_zero hw 0
      alone := fun j hj ht ↦ absurd (hs1.cached_of_line hl hj ht) hcached }
  refine ⟨hs2.setLine hfit, rfl, fun m hm k hk ↦ ?_⟩
  rw [hs2.node_setLine hfit (fun h ↦ absurd h hv) hm hk]
  by_cases h : m = l ∧ k = n
  · rw [if_pos h, if_pos h]
  · rw [if_neg h, if_neg h]
    exact hnode m hm k hk

end Cache

end FpgaOs.Alloc
