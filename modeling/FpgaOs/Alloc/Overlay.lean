import FpgaOs.Alloc.Buddy
import Mathlib.Data.List.Basic

/-!
# The byte of a node, wherever it is

The children byte of a node is in the cached line with its tag if there is one, and in DRAM
otherwise. `overlay` reads it from the right place; `node` is the same by index. The lemmas say how
the primitive cache updates move bytes between the two places: writing a line back does not change
any node, and replacing a line changes exactly the node it caches.

`Cache.WF` is the part of the allocator's invariant that speaks about lines and not about blocks:
the fixed fields, that no node is cached twice, and that a line which is not in use is blank.
-/

namespace FpgaOs.Alloc

variable {c : Config}

namespace Cache

/-- The children byte of a node: the cached line if there is one, else the byte in DRAM. -/
def overlay (s : Cache c) (level : ℕ) (tag : BitVec c.orderMax) : BitVec 8 :=
  match tagInCache (s.buddySet level) tag with
  | some nrAsso => (s.line level nrAsso).children
  | none => s.dram (s.drambuddy tag level)

/-- The byte of node `n` of level `l`. -/
def node (s : Cache c) (l n : ℕ) : BitVec 8 := s.overlay l (nodeTag c l n)

/-- Some line of the set holds node `n` of level `l`. -/
def Cached (s : Cache c) (l n : ℕ) : Prop :=
  ∃ i < (s.buddySet l).size, (s.line l i).valid ∧ (s.line l i).tag = nodeTag c l n

/-- The lines of the cache are in order. -/
structure WF (s : Cache c) : Prop where
  level_eq : ∀ l < c.levelMax, (s.buddySet l).level = l
  size_eq : ∀ l < c.levelMax, (s.buddySet l).size = if l = 0 then 1 else 2
  counter_lt : ∀ l < c.levelMax, (s.buddySet l).randCounter < (s.buddySet l).size
  valid_lt : ∀ l < c.levelMax, ∀ i, (s.line l i).valid → i < (s.buddySet l).size
  tag_node : ∀ l < c.levelMax, ∀ i, (s.line l i).valid →
    ∃ n < 8 ^ l, (s.line l i).tag = nodeTag c l n
  distinct : ∀ l < c.levelMax, ∀ i j, (s.line l i).valid → (s.line l j).valid →
    (s.line l i).tag = (s.line l j).tag → i = j
  blank : ∀ l < c.levelMax, ∀ i, ¬(s.line l i).valid → s.line l i = {}
  nonzero : ∀ l < c.levelMax, 0 < l → ∀ i, (s.line l i).valid → (s.line l i).children ≠ 0

/-! ## Reading the primitive updates back -/

@[simp] theorem line_setLine_self (s : Cache c) (l i : ℕ) (x : BuddyCacheLine c) :
    (s.setLine l i x).line l i = x := by
  simp [line, setLine, setSet, BuddyCacheSet.setLine]

theorem line_setLine_of_ne (s : Cache c) {l i m j : ℕ} (x : BuddyCacheLine c)
    (h : ¬(m = l ∧ j = i)) : (s.setLine l i x).line m j = s.line m j := by
  by_cases hm : m = l
  · subst hm
    have hj : j ≠ i := fun hj ↦ h ⟨rfl, hj⟩
    simp [line, setLine, setSet, BuddyCacheSet.setLine, hj]
  · simp [line, setLine, setSet, hm]

theorem line_setLine (s : Cache c) (l i m j : ℕ) (x : BuddyCacheLine c) :
    (s.setLine l i x).line m j = if m = l ∧ j = i then x else s.line m j := by
  by_cases h : m = l ∧ j = i
  · rw [if_pos h, h.1, h.2, line_setLine_self]
  · rw [if_neg h, line_setLine_of_ne s x h]

@[simp] theorem level_setLine (s : Cache c) (l i m : ℕ) (x : BuddyCacheLine c) :
    ((s.setLine l i x).buddySet m).level = (s.buddySet m).level := by
  by_cases hm : m = l
  · subst hm; simp [setLine, setSet, BuddyCacheSet.setLine]
  · simp [setLine, setSet, hm]

@[simp] theorem size_setLine (s : Cache c) (l i m : ℕ) (x : BuddyCacheLine c) :
    ((s.setLine l i x).buddySet m).size = (s.buddySet m).size := by
  by_cases hm : m = l
  · subst hm; simp [setLine, setSet, BuddyCacheSet.setLine]
  · simp [setLine, setSet, hm]

@[simp] theorem randCounter_setLine (s : Cache c) (l i m : ℕ) (x : BuddyCacheLine c) :
    ((s.setLine l i x).buddySet m).randCounter = (s.buddySet m).randCounter := by
  by_cases hm : m = l
  · subst hm; simp [setLine, setSet, BuddyCacheSet.setLine]
  · simp [setLine, setSet, hm]

@[simp] theorem dram_setLine (s : Cache c) (l i : ℕ) (x : BuddyCacheLine c) :
    (s.setLine l i x).dram = s.dram := rfl

@[simp] theorem managedBase_setLine (s : Cache c) (l i : ℕ) (x : BuddyCacheLine c) :
    (s.setLine l i x).managedBase = s.managedBase := rfl

@[simp] theorem assertHeld_setLine (s : Cache c) (l i : ℕ) (x : BuddyCacheLine c) :
    (s.setLine l i x).assertHeld = s.assertHeld := rfl

@[simp] theorem inBounds_setLine (s : Cache c) (l i : ℕ) (x : BuddyCacheLine c) :
    (s.setLine l i x).inBounds = s.inBounds := rfl

theorem setLine_setLine (s : Cache c) (l i : ℕ) (x y : BuddyCacheLine c) :
    (s.setLine l i x).setLine l i y = s.setLine l i y := by
  simp [setLine, setSet, BuddyCacheSet.setLine]

@[simp] theorem buddySet_dramWrite (s : Cache c) (t : BitVec c.orderMax) (l : ℕ) (x : BitVec 8) :
    (s.dramWrite t l x).buddySet = s.buddySet := rfl

@[simp] theorem line_dramWrite (s : Cache c) (t : BitVec c.orderMax) (l m i : ℕ) (x : BitVec 8) :
    (s.dramWrite t l x).line m i = s.line m i := rfl

@[simp] theorem managedBase_dramWrite (s : Cache c) (t : BitVec c.orderMax) (l : ℕ) (x : BitVec 8) :
    (s.dramWrite t l x).managedBase = s.managedBase := rfl

@[simp] theorem assertHeld_dramWrite (s : Cache c) (t : BitVec c.orderMax) (l : ℕ) (x : BitVec 8) :
    (s.dramWrite t l x).assertHeld = (s.assertHeld && decide (0 < l)) := rfl

@[simp] theorem inBounds_dramWrite (s : Cache c) (t : BitVec c.orderMax) (l : ℕ) (x : BitVec 8) :
    (s.dramWrite t l x).inBounds = s.inBounds := rfl

theorem dram_dramWrite (s : Cache c) (t : BitVec c.orderMax) (l : ℕ) (x : BitVec 8) :
    (s.dramWrite t l x).dram = Function.update s.dram (s.drambuddy t l) x := rfl

/-! ## Which line holds a node -/

theorem tagInCache_eq_none {s : Cache c} {l n : ℕ} (h : ¬s.Cached l n) :
    tagInCache (s.buddySet l) (nodeTag c l n) = none := by
  rw [tagInCache, List.find?_eq_none]
  intro i hi hv
  rw [Bool.and_eq_true, beq_iff_eq] at hv
  exact h ⟨i, List.mem_range.mp hi, hv⟩

theorem WF.tagInCache_eq_some {s : Cache c} (hs : s.WF) {l i : ℕ} (hl : l < c.levelMax)
    (hv : (s.line l i).valid) : tagInCache (s.buddySet l) (s.line l i).tag = some i := by
  have hmem : i ∈ List.range (s.buddySet l).size := List.mem_range.mpr (hs.valid_lt l hl i hv)
  rw [tagInCache]
  obtain ⟨j, hj⟩ : ∃ j, (List.range (s.buddySet l).size).find?
      (fun k ↦ ((s.buddySet l).lines k).valid && ((s.buddySet l).lines k).tag == (s.line l i).tag)
        = some j := by
    rw [← Option.isSome_iff_exists, List.find?_isSome]
    exact ⟨i, hmem, by rw [Bool.and_eq_true, beq_iff_eq]; exact ⟨hv, rfl⟩⟩
  rw [hj]
  have hp := List.find?_some hj
  rw [Bool.and_eq_true, beq_iff_eq] at hp
  rw [hs.distinct l hl j i hp.1 hv hp.2]

theorem WF.node_of_line {s : Cache c} (hs : s.WF) {l i n : ℕ} (hl : l < c.levelMax)
    (hv : (s.line l i).valid) (ht : (s.line l i).tag = nodeTag c l n) :
    s.node l n = (s.line l i).children := by
  rw [node, overlay, ← ht, hs.tagInCache_eq_some hl hv]

theorem node_of_not_cached {s : Cache c} {l n : ℕ} (h : ¬s.Cached l n) :
    s.node l n = s.dram (s.drambuddy (nodeTag c l n) l) := by
  rw [node, overlay, tagInCache_eq_none h]

theorem WF.cached_of_line {s : Cache c} (hs : s.WF) {l i n : ℕ} (hl : l < c.levelMax)
    (hv : (s.line l i).valid) (ht : (s.line l i).tag = nodeTag c l n) : s.Cached l n :=
  ⟨i, hs.valid_lt l hl i hv, hv, ht⟩

theorem WF.not_cached_of_node_eq_zero {s : Cache c} (hs : s.WF) {l n : ℕ} (hl : l < c.levelMax)
    (hpos : 0 < l) (h : s.node l n = 0) : ¬s.Cached l n := by
  rintro ⟨i, -, hv, ht⟩
  rw [hs.node_of_line hl hv ht] at h
  exact hs.nonzero l hl hpos i hv h

theorem WF.node_congr {s t : Cache c} (hs : s.WF) (ht : t.WF) {l n : ℕ} (hl : l < c.levelMax)
    (hline : ∀ i, t.line l i = s.line l i)
    (hdram : t.dram (t.drambuddy (nodeTag c l n) l) = s.dram (s.drambuddy (nodeTag c l n) l)) :
    t.node l n = s.node l n := by
  by_cases h : t.Cached l n
  · obtain ⟨i, -, hv, htag⟩ := h
    rw [ht.node_of_line hl hv htag, hs.node_of_line hl (hline i ▸ hv) (hline i ▸ htag), hline i]
  · have h' : ¬s.Cached l n := by
      rintro ⟨i, -, hv, htag⟩
      exact h (ht.cached_of_line hl (hline i ▸ hv) (hline i ▸ htag))
    rw [node_of_not_cached h, node_of_not_cached h', hdram]

/-- The registers are not part of the tree. -/
theorem WF.of_buddySet_eq {s t : Cache c} (hs : s.WF) (h : t.buddySet = s.buddySet) : t.WF := by
  obtain ⟨base, sets, dram, held, bounds⟩ := t
  subst h
  exact ⟨hs.level_eq, hs.size_eq, hs.counter_lt, hs.valid_lt, hs.tag_node, hs.distinct, hs.blank,
    hs.nonzero⟩

theorem node_eq_of_eq {s t : Cache c} (hbase : t.managedBase = s.managedBase)
    (hset : t.buddySet = s.buddySet) (hdram : t.dram = s.dram) (l n : ℕ) :
      t.node l n = s.node l n := by
  obtain ⟨base, sets, dram, held, bounds⟩ := t
  subst hbase hset hdram
  rfl

theorem dram_dramWrite_of_ne (hc : c.Ok) (s : Cache c) {l n m k : ℕ} (x : BitVec 8)
    (hl : l < c.levelMax) (hn : n < 8 ^ l) (hm : m < c.levelMax) (hk : k < 8 ^ m)
    (hne : ¬(m = l ∧ k = n)) :
    (s.dramWrite (nodeTag c l n) l x).dram (s.drambuddy (nodeTag c m k) m)
      = s.dram (s.drambuddy (nodeTag c m k) m) := by
  rw [dram_dramWrite, Function.update_of_ne]
  intro h
  exact hne (tagLevelToDrambuddy_inj hc s.managedBase hm hk hl hn h)

/-! ## Replacing a line

The three ways a line changes: it is updated in place, a blank line is filled, or a line is written
back and blanked. -/

/-- What a line may be replaced by: a line for node `n` that no other line holds. -/
structure Fits (s : Cache c) (l i n : ℕ) (x : BuddyCacheLine c) : Prop where
  level_lt : l < c.levelMax
  index_lt : i < (s.buddySet l).size
  node_lt : n < 8 ^ l
  valid : x.valid
  tag : x.tag = nodeTag c l n
  nonzero : 0 < l → x.children ≠ 0
  alone : ∀ j, (s.line l j).valid → (s.line l j).tag = nodeTag c l n → j = i

/-- A line may also be replaced by a blank one. -/
theorem WF.setLine_of {s : Cache c} (hs : s.WF) {l i n : ℕ} {x : BuddyCacheLine c}
    (hx : x = {} ∨ s.Fits l i n x) : (s.setLine l i x).WF := by
  have hfit : x.valid → s.Fits l i n x := by
    rcases hx with rfl | hx
    · exact fun h ↦ absurd h Bool.false_ne_true
    · exact fun _ ↦ hx
  exact
  { level_eq := fun m hm ↦ by rw [level_setLine, hs.level_eq m hm]
    size_eq := fun m hm ↦ by rw [size_setLine, hs.size_eq m hm]
    counter_lt := fun m hm ↦ by rw [randCounter_setLine, size_setLine]; exact hs.counter_lt m hm
    valid_lt := fun m hm j hv ↦ by
      rw [size_setLine]
      rw [line_setLine] at hv
      split at hv
      case isTrue h => rw [h.1, h.2]; exact (hfit hv).index_lt
      case isFalse => exact hs.valid_lt m hm j hv
    tag_node := fun m hm j hv ↦ by
      rw [line_setLine] at hv ⊢
      split at hv
      case isTrue h => rw [if_pos h, h.1]; exact ⟨n, (hfit hv).node_lt, (hfit hv).tag⟩
      case isFalse h => rw [if_neg h]; exact hs.tag_node m hm j hv
    distinct := fun m hm j k hj hk htag ↦ by
      rw [line_setLine] at hj hk
      rw [line_setLine, line_setLine] at htag
      -- two lines with one tag: if one of them is new, `alone` makes them equal
      split at hj <;> split at hk
      case isTrue.isTrue h h' => rw [h.2, h'.2]
      case isTrue.isFalse h h' =>
        rw [if_pos h, if_neg h', (hfit hj).tag] at htag
        rw [h.1] at hk htag
        rw [h.2, (hfit hj).alone k hk htag.symm]
      case isFalse.isTrue h h' =>
        rw [if_neg h, if_pos h', (hfit hk).tag] at htag
        rw [h'.1] at hj htag
        rw [h'.2, (hfit hk).alone j hj htag]
      case isFalse.isFalse h h' =>
        rw [if_neg h, if_neg h'] at htag
        exact hs.distinct m hm j k hj hk htag
    blank := fun m hm j hv ↦ by
      rw [line_setLine] at hv ⊢
      split at hv
      case isTrue h => rw [if_pos h]; exact hx.resolve_right fun h' ↦ hv h'.valid
      case isFalse h => rw [if_neg h]; exact hs.blank m hm j hv
    nonzero := fun m hm hpos j hv ↦ by
      rw [line_setLine] at hv ⊢
      split at hv
      case isTrue h => rw [if_pos h]; exact (hfit hv).nonzero (h.1 ▸ hpos)
      case isFalse h => rw [if_neg h]; exact hs.nonzero m hm hpos j hv }

theorem WF.setLine {s : Cache c} (hs : s.WF) {l i n : ℕ} {x : BuddyCacheLine c}
    (hx : s.Fits l i n x) : (s.setLine l i x).WF := hs.setLine_of (Or.inr hx)

theorem WF.setLine_blank {s : Cache c} (hs : s.WF) (l i : ℕ) : (s.setLine l i {}).WF :=
  hs.setLine_of (n := 0) (Or.inl rfl)

theorem WF.node_setLine {s : Cache c} (hs : s.WF) {l i n : ℕ} {x : BuddyCacheLine c}
    (hx : s.Fits l i n x) (hold : (s.line l i).valid → (s.line l i).tag = nodeTag c l n)
    {m k : ℕ} (hm : m < c.levelMax) (hk : k < 8 ^ m) :
    (s.setLine l i x).node m k = if m = l ∧ k = n then x.children else s.node m k := by
  have hs' := hs.setLine hx
  have hself : (s.setLine l i x).line l i = x := line_setLine_self s l i x
  by_cases h : m = l ∧ k = n
  · obtain ⟨rfl, rfl⟩ := h
    rw [if_pos ⟨rfl, rfl⟩, hs'.node_of_line (i := i) hm (by rw [hself]; exact hx.valid)
      (by rw [hself]; exact hx.tag), hself]
  · rw [if_neg h]
    by_cases hml : m = l
    · subst hml
      have hkn : k ≠ n := fun hkn ↦ h ⟨rfl, hkn⟩
      -- no line other than `i` changed, and line `i` held node `n` or nothing
      have htag : ∀ j, (s.line m j).valid → (s.line m j).tag = nodeTag c m k → j ≠ i := by
        rintro j hv ht rfl
        exact hkn (nodeTag_inj hm hk hx.node_lt (ht.symm.trans (hold hv)))
      by_cases hcached : s.Cached m k
      · obtain ⟨j, -, hv, ht⟩ := hcached
        have hj := htag j hv ht
        have hline : (s.setLine m i x).line m j = s.line m j :=
          line_setLine_of_ne s x fun h ↦ hj h.2
        rw [hs.node_of_line hm hv ht, hs'.node_of_line hm (hline ▸ hv) (hline ▸ ht), hline]
      · have hcached' : ¬(s.setLine m i x).Cached m k := by
          rintro ⟨j, -, hv, ht⟩
          rw [line_setLine] at hv ht
          split at hv
          case isTrue h' =>
            rw [if_pos h', hx.tag] at ht
            exact hkn (nodeTag_inj hm hk hx.node_lt ht.symm)
          case isFalse h' =>
            rw [if_neg h'] at ht
            exact hcached (hs.cached_of_line hm hv ht)
        rw [node_of_not_cached hcached, node_of_not_cached hcached']
        rfl
    · refine hs.node_congr hs' hm (fun j ↦ line_setLine_of_ne s x fun h ↦ hml h.1) rfl

/-- A line updated in place, whatever its new children. -/
theorem WF.node_setLine_children {s : Cache c} (hs : s.WF) {l i n : ℕ} (hl : l < c.levelMax)
    (hv : (s.line l i).valid) (ht : (s.line l i).tag = nodeTag c l n) (hn : n < 8 ^ l)
    (x : BitVec 8) {m k : ℕ} (hm : m < c.levelMax) (hk : k < 8 ^ m) :
    (s.setLine l i { s.line l i with children := x }).node m k
      = if m = l ∧ k = n then x else s.node m k := by
  -- the tags are as they were, so the search finds the same line
  have hfind : ∀ m t, tagInCache ((s.setLine l i { s.line l i with children := x }).buddySet m) t
      = tagInCache (s.buddySet m) t := by
    intro m t
    rw [tagInCache, tagInCache, size_setLine]
    congr 1
    funext j
    have hline := line_setLine s l i m j { s.line l i with children := x }
    rw [line] at hline
    rw [hline]
    by_cases h : m = l ∧ j = i
    · rw [if_pos h, h.1, h.2]
      rfl
    · rw [if_neg h]
      rfl
  rw [node, overlay, hfind, node, overlay]
  by_cases h : m = l ∧ k = n
  · obtain ⟨rfl, rfl⟩ := h
    rw [if_pos ⟨rfl, rfl⟩, ← ht, hs.tagInCache_eq_some hl hv]
    dsimp only
    rw [line_setLine_self]
  · rw [if_neg h]
    cases hin : tagInCache (s.buddySet m) (nodeTag c m k) with
    | none => rfl
    | some j =>
      dsimp only
      rw [line_setLine_of_ne]
      rintro ⟨rfl, rfl⟩
      refine h ⟨rfl, nodeTag_inj hm hk hn ?_⟩
      rw [← ht]
      rw [tagInCache] at hin
      have hp := List.find?_some hin
      rw [Bool.and_eq_true, beq_iff_eq] at hp
      exact hp.2.symm

/-! ## Writing a line back -/

theorem flushLine_eq {s : Cache c} (hs : s.WF) {l i : ℕ} (hl : l < c.levelMax) :
    s.flushLine l i
      = (s.dramWrite (s.line l i).tag l (s.line l i).children).setLine l i {} := by
  rw [flushLine, hs.level_eq l hl]

/-- Writing to DRAM does not concern the lines. -/
theorem WF.dramWrite {s : Cache c} (hs : s.WF) (t : BitVec c.orderMax) (l : ℕ) (x : BitVec 8) :
    (s.dramWrite t l x).WF := hs.of_buddySet_eq rfl

/-- Blanking a line after its byte has been written to DRAM: the node it held now has that byte, and
the others are as they were. -/
theorem WF.node_writeBack (hc : c.Ok) {s : Cache c} (hs : s.WF) {l i n : ℕ} (hl : l < c.levelMax)
    (hv : (s.line l i).valid) (ht : (s.line l i).tag = nodeTag c l n) (hn : n < 8 ^ l)
    (x : BitVec 8) {m k : ℕ} (hm : m < c.levelMax) (hk : k < 8 ^ m) :
    ((s.dramWrite (nodeTag c l n) l x).setLine l i {}).node m k
      = if m = l ∧ k = n then x else s.node m k := by
  have hs' : ((s.dramWrite (nodeTag c l n) l x).setLine l i {}).WF :=
    (hs.dramWrite _ _ _).setLine_blank l i
  have hline : ∀ {j}, ¬(m = l ∧ j = i) →
      ((s.dramWrite (nodeTag c l n) l x).setLine l i {}).line m j = s.line m j := fun h ↦
    line_setLine_of_ne _ _ h
  by_cases h : m = l ∧ k = n
  · obtain ⟨rfl, rfl⟩ := h
    -- no other line has its tag, so the node is read from DRAM now
    have hcached : ¬((s.dramWrite (nodeTag c m k) m x).setLine m i {}).Cached m k := by
      rintro ⟨j, -, hv', ht'⟩
      by_cases hj : j = i
      · subst hj
        rw [line_setLine_self] at hv'
        exact absurd hv' Bool.false_ne_true
      · rw [hline fun h ↦ hj h.2] at hv' ht'
        exact hj (hs.distinct m hm j i hv' hv (ht'.trans ht.symm))
    rw [if_pos ⟨rfl, rfl⟩, node_of_not_cached hcached, dram_setLine, dram_dramWrite]
    exact Function.update_self _ _ _
  · rw [if_neg h]
    have hdram : ((s.dramWrite (nodeTag c l n) l x).setLine l i {}).dram
        (s.drambuddy (nodeTag c m k) m) = s.dram (s.drambuddy (nodeTag c m k) m) := by
      rw [dram_setLine]
      exact dram_dramWrite_of_ne hc s x hl hn hm hk h
    -- another node of the level is cached where it was, or in DRAM as before
    by_cases hml : m = l
    · subst hml
      have hkn : k ≠ n := fun hkn ↦ h ⟨rfl, hkn⟩
      by_cases hcached : s.Cached m k
      · obtain ⟨j, -, hv', ht'⟩ := hcached
        have hj : j ≠ i := by
          rintro rfl
          exact hkn (nodeTag_inj hm hk hn (ht'.symm.trans ht))
        have hl' := hline (j := j) fun h ↦ hj h.2
        rw [hs.node_of_line hm hv' ht', hs'.node_of_line hm (hl' ▸ hv') (hl' ▸ ht'), hl']
      · have hcached' : ¬((s.dramWrite (nodeTag c m n) m x).setLine m i {}).Cached m k := by
          rintro ⟨j, -, hv', ht'⟩
          by_cases hj : j = i
          · subst hj
            rw [line_setLine_self] at hv'
            exact absurd hv' Bool.false_ne_true
          · rw [hline fun h ↦ hj h.2] at hv' ht'
            exact hcached (hs.cached_of_line hm hv' ht')
        rw [node_of_not_cached hcached, node_of_not_cached hcached']
        exact hdram
    · exact hs.node_congr hs' hm (fun j ↦ hline fun h ↦ hml h.1) hdram

/-- **Flushing is invisible.** -/
theorem WF.flushLine (hc : c.Ok) {s : Cache c} (hs : s.WF) {l i : ℕ} (hl : l < c.levelMax)
    (hv : (s.line l i).valid) :
    (s.flushLine l i).WF ∧
      ∀ m < c.levelMax, ∀ k < 8 ^ m, (s.flushLine l i).node m k = s.node m k := by
  obtain ⟨n, hn, ht⟩ := hs.tag_node l hl i hv
  rw [flushLine_eq hs hl]
  refine ⟨(hs.dramWrite _ _ _).setLine_blank l i, fun m hm k hk ↦ ?_⟩
  rw [ht, hs.node_writeBack hc hl hv ht hn _ hm hk]
  by_cases h : m = l ∧ k = n
  · rw [if_pos h, h.1, h.2, hs.node_of_line hl hv ht]
  · rw [if_neg h]

end Cache

end FpgaOs.Alloc
