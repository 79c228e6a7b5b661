import FpgaOs.Alloc.Slots

/-!
# What `alloc` does

`alloc` finds a slot on some level, takes it, and fills the empty nodes below it down to the level
of the order. Read through `Shows`, the whole of that is one step of the octree: the new block is
added to the set of blocks, and it conflicts with none of them.

The loop that loads nodes is followed level by level. Before it works on level `i`, the levels above
already show the new block and the levels from `i` on do not, which is `Between`.
-/

namespace FpgaOs.Alloc

open Octree

variable {c : Config}

/-- A block as an order asks for it. -/
structure IsBlock (c : Config) (o : ℕ) (b : Block) : Prop where
  level_eq : b.level = orderToLevel c o
  width_eq : b.width = orderToWidth c o
  dvd : b.width ∣ b.cell
  cell_lt : b.cell < 8 ^ (b.level + 1)

theorem IsBlock.isWidth {o : ℕ} {b : Block} (hb : IsBlock c o b) : IsWidth b.width :=
  hb.width_eq ▸ isWidth_orderToWidth o

theorem IsBlock.wf {o : ℕ} {b : Block} (hb : IsBlock c o b) : b.WF := by
  obtain ⟨q, hq⟩ := hb.dvd
  rcases hb.isWidth with h | h | h <;> rw [h] at hq <;> exact ⟨by omega, by omega⟩

theorem IsBlock.level_lt (hc : c.Ok) {o : ℕ} {b : Block} (hb : IsBlock c o b) :
    b.level < c.levelMax :=
  hb.level_eq ▸ orderToLevel_lt hc o

namespace Cache

/-! ## The search -/

theorem lookUp_eq_some {s : Cache c} {reqLevel w k st nr : ℕ} {idx : BitVec 3}
    (h : s.lookUp reqLevel w k = some (st, nr, idx)) :
    st ≤ k ∧ getValidFreeSet (s.buddySet st) (if st = reqLevel then w else 1) = some (nr, idx) := by
  induction k with
  | zero =>
    rw [lookUp, Option.map_eq_some_iff] at h
    obtain ⟨r, hr, heq⟩ := h
    obtain ⟨rfl, rfl⟩ := Prod.mk.inj heq
    exact ⟨le_rfl, hr⟩
  | succ k ih =>
    rw [lookUp] at h
    split at h
    case h_1 r hr =>
      obtain ⟨rfl, rfl⟩ := Prod.mk.inj (Option.some.inj h)
      exact ⟨le_rfl, hr⟩
    case h_2 => exact ⟨(ih h).1.trans (Nat.le_succ k), (ih h).2⟩

theorem lookUp_eq_none_iff {s : Cache c} {reqLevel w k : ℕ} :
    s.lookUp reqLevel w k = none ↔
      ∀ l ≤ k, getValidFreeSet (s.buddySet l) (if l = reqLevel then w else 1) = none := by
  induction k with
  | zero =>
    rw [lookUp, Option.map_eq_none_iff]
    exact ⟨fun h l hl ↦ by rw [Nat.le_zero.mp hl]; exact h, fun h ↦ h 0 le_rfl⟩
  | succ k ih =>
    rw [lookUp]
    constructor
    · intro h l hl
      split at h
      case h_1 => cases h
      case h_2 hnone =>
        rcases Nat.le_succ_iff.mp hl with hl | rfl
        · exact ih.mp h l hl
        · exact hnone
    · intro h
      rw [h (k + 1) le_rfl]
      exact ih.mpr fun l hl ↦ h l (hl.trans (Nat.le_succ k))

/-- The slot `get_valid_free_set` offers for an order on a level. -/
def slotAt (s : Cache c) (o l : ℕ) : Option (ℕ × BitVec 3) :=
  getValidFreeSet (s.buddySet l) (if l = orderToLevel c o then orderToWidth c o else 1)

theorem exists_slotAt_iff {s : Cache c} {o : ℕ} :
    (∃ l ≤ orderToLevel c o, (s.slotAt o l).isSome)
      ↔ s.lookUp (orderToLevel c o) (orderToWidth c o) (orderToLevel c o) ≠ none := by
  rw [Ne, lookUp_eq_none_iff]
  push Not
  exact exists_congr fun l ↦ and_congr_right fun _ ↦ Option.isSome_iff_ne_none

/-- The slot the search stops at. -/
structure Slot (s : Cache c) (o st nr n : ℕ) (idx : BitVec 3) : Prop where
  start_le : st ≤ orderToLevel c o
  valid : (s.line st nr).valid
  tag : (s.line st nr).tag = nodeTag c st n
  node_lt : n < 8 ^ st
  aligned : (if st = orderToLevel c o then orderToWidth c o else 1) ∣ idx.toNat
  free : widthMask (if st = orderToLevel c o then orderToWidth c o else 1) <<< idx.toNat &&&
    (s.line st nr).children = 0

theorem isWidth_ite (o st : ℕ) :
    IsWidth (if st = orderToLevel c o then orderToWidth c o else 1) := by
  split
  · exact isWidth_orderToWidth o
  · exact isWidth_one

theorem WF.slot_of_lookUp (hc : c.Ok) {s : Cache c} (hs : s.WF) {o st nr : ℕ} {idx : BitVec 3}
    (h : s.lookUp (orderToLevel c o) (orderToWidth c o) (orderToLevel c o) = some (st, nr, idx)) :
    ∃ n, s.Slot o st nr n idx := by
  obtain ⟨hle, hset⟩ := lookUp_eq_some h
  obtain ⟨-, hv, hdvd, hfree⟩ := getValidFreeSet_eq_some (isWidth_ite o st) hset
  obtain ⟨n, hn, ht⟩ := hs.tag_node st (hle.trans_lt (orderToLevel_lt hc o)) nr hv
  exact ⟨n, hle, hv, ht, hn, hdvd, hfree⟩

/-! ## The block behind a slot -/

/-- The block that `alloc` returns when the search stops at the slot `idx` of node `n` of level
`st`: below the slot it takes the first cell of every node. -/
def grant (c : Config) (o st n : ℕ) (idx : BitVec 3) : Block where
  level := orderToLevel c o
  cell := (8 * n + idx.toNat) * 8 ^ (orderToLevel c o - st)
  width := orderToWidth c o

theorem anchor_grant {o st n k : ℕ} {idx : BitVec 3} (h1 : st ≤ k) (h2 : k ≤ orderToLevel c o) :
    (grant c o st n idx).anchor k = (8 * n + idx.toNat) * 8 ^ (k - st) := by
  rw [Block.anchor, grant,
    show orderToLevel c o - st = (k - st) + (orderToLevel c o - k) from by omega, pow_add,
    ← mul_assoc, Nat.mul_div_cancel _ (by positivity)]

theorem Slot.isBlock {s : Cache c} {o st nr n : ℕ} {idx : BitVec 3} (hs : s.Slot o st nr n idx) :
    IsBlock c o (grant c o st n idx) where
  level_eq := rfl
  width_eq := rfl
  dvd := by
    have hw : IsWidth (orderToWidth c o) := isWidth_orderToWidth o
    have h8 : orderToWidth c o ∣ 8 := by rcases hw with h | h | h <;> rw [h] <;> decide
    have hal := hs.aligned
    rw [grant]
    -- on the level of the order the slot is aligned; below a shallower slot every cell is
    by_cases hst : st = orderToLevel c o
    · rw [if_pos hst] at hal
      rw [hst, Nat.sub_self, pow_zero, mul_one]
      exact Nat.dvd_add (h8.mul_right n) hal
    · have hlt := lt_of_le_of_ne hs.start_le hst
      obtain ⟨k, hk⟩ := Nat.exists_eq_add_of_lt hlt
      refine Dvd.dvd.mul_left ?_ _
      rw [show orderToLevel c o - st = k + 1 from by omega, pow_succ]
      exact h8.mul_left _
  cell_lt := by
    have hn := hs.node_lt
    have hidx := idx.isLt
    have hlt : 8 * n + idx.toNat < 8 ^ (st + 1) := by rw [pow_succ]; omega
    calc (8 * n + idx.toNat) * 8 ^ (orderToLevel c o - st)
        < 8 ^ (st + 1) * 8 ^ (orderToLevel c o - st) :=
          Nat.mul_lt_mul_of_pos_right hlt (by positivity)
      _ = 8 ^ (orderToLevel c o + 1) := by
        rw [← pow_add]
        congr 1
        have := hs.start_le
        omega

theorem Slot.anchor_div {s : Cache c} {o st nr n : ℕ} {idx : BitVec 3} (hs : s.Slot o st nr n idx) :
    (grant c o st n idx).anchor st / 8 = n := by
  have := idx.isLt
  rw [anchor_grant le_rfl hs.start_le, Nat.sub_self, pow_zero, mul_one]
  omega

theorem Slot.covers_iff {s : Cache c} {o st nr n k : ℕ} {idx : BitVec 3}
    (hs : s.Slot o st nr n idx) :
    (grant c o st n idx).Covers st k ↔ 8 * n + idx.toNat ≤ k ∧
      k < 8 * n + idx.toNat + if st = orderToLevel c o then orderToWidth c o else 1 := by
  by_cases hst : st = orderToLevel c o
  · subst hst
    have h := Block.covers_level_iff (b := grant c o (orderToLevel c o) n idx) (c := k)
    rw [if_pos rfl]
    refine h.trans ?_
    simp [grant]
  · rw [Block.covers_iff_of_lt (lt_of_le_of_ne hs.start_le hst), anchor_grant le_rfl hs.start_le,
      Nat.sub_self, pow_zero, mul_one, if_neg hst]
    omega

section Grant

variable {s : Cache c} {U : List Block} {o st nr n : ℕ} {idx : BitVec 3}

theorem Slot.clear (hc : c.Ok) (hs : s.WF) (hshow : s.Shows (bitmap U))
    (hslot : s.Slot o st nr n idx)
    {k : ℕ} (hk : (grant c o st n idx).Covers st k) : ¬bitmap U st k := by
  have hst : st < c.levelMax := hslot.start_le.trans_lt (orderToLevel_lt hc o)
  have hw := isWidth_ite (c := c) o st
  have hle := add_width_le_of_dvd hw idx hslot.aligned
  rw [hslot.covers_iff] at hk
  obtain ⟨j, hj, rfl⟩ : ∃ j < 8, k = 8 * n + j := ⟨k - 8 * n, by omega, by omega⟩
  have hbit := (mask_and_eq_zero_iff hw idx _).mp hslot.free j hj (by omega) (by omega)
  rw [← hshow st hst n hslot.node_lt j hj, hs.node_of_line hst hslot.valid hslot.tag, hbit]
  exact Bool.false_ne_true

theorem Slot.node_nonempty (hc : c.Ok) (hs : s.WF) (hshow : s.Shows (bitmap U))
    (hslot : s.Slot o st nr n idx) :
    st = 0 ∨ ∃ k, bitmap U st k ∧ k / 8 = (grant c o st n idx).anchor st / 8 := by
  rcases Nat.eq_zero_or_pos st with h | hpos
  · exact Or.inl h
  · have hst : st < c.levelMax := hslot.start_le.trans_lt (orderToLevel_lt hc o)
    have hne := hs.nonzero st hst hpos nr hslot.valid
    rw [← hs.node_of_line hst hslot.valid hslot.tag, Ne,
      hshow.node_eq_zero hst hslot.node_lt] at hne
    push Not at hne
    obtain ⟨j, hj, hbit⟩ := hne
    refine Or.inr ⟨8 * n + j, hbit, ?_⟩
    rw [hslot.anchor_div]
    omega

theorem Slot.valid_cons (hc : c.Ok) (hs : s.WF) (hU : Valid U) (hshow : s.Shows (bitmap U))
    (hslot : s.Slot o st nr n idx) : Valid (grant c o st n idx :: U) :=
  hU.cons hslot.isBlock.wf fun _ ha ↦
    hU.not_conflict_of_clear hslot.isBlock.wf hslot.start_le (fun _ hk ↦ hslot.clear hc hs hshow hk)
      (hslot.node_nonempty hc hs hshow) ha

/-- Above its slot the block adds nothing: the bits over a non-empty node are set. -/
theorem Slot.bitmap_of_covers (hc : c.Ok) (hs : s.WF) (hU : Valid U) (hshow : s.Shows (bitmap U))
    (hslot : s.Slot o st nr n idx) {l k : ℕ} (hl : l < st)
    (hk : (grant c o st n idx).Covers l k) : bitmap U l k := by
  have hlt : l < (grant c o st n idx).level := lt_of_lt_of_le hl hslot.start_le
  obtain ⟨e, he, hdiv⟩ := (hslot.node_nonempty hc hs hshow).resolve_left (by omega)
  obtain ⟨d, rfl⟩ := Nat.exists_eq_add_of_lt hl
  have hanc := hU.bitmap_ancestor (l := l) (k := d + 1) (by rwa [← add_assoc])
  have hdiv' := Block.anchor_div (b := grant c o (l + d + 1) n idx) (l := l) (k := d + 1)
    (by rw [← add_assoc]; exact hslot.start_le)
  rw [pow_succ', ← Nat.div_div_eq_div_mul] at hanc hdiv'
  rw [(Block.covers_iff_of_lt hlt).mp hk, ← hdiv', ← add_assoc, ← hdiv]
  exact hanc

end Grant

/-! ## Loading the levels below -/

/-- The levels above `i` show the new block, the others do not yet. -/
def Between (U : List Block) (b : Block) (i l k : ℕ) : Prop :=
  if l < i then bitmap (b :: U) l k else bitmap U l k

/-- The block under construction: a slot of level `st` has been taken for it, and below that it goes
through the first cell of every node. -/
structure Descent (c : Config) (b : Block) (o st : ℕ) : Prop where
  isBlock : IsBlock c o b
  anchor_succ : ∀ i, st ≤ i → i < b.level → b.anchor (i + 1) = 8 * b.anchor i

theorem Slot.descent {s : Cache c} {o st nr n : ℕ} {idx : BitVec 3} (hs : s.Slot o st nr n idx) :
    Descent c (grant c o st n idx) o st where
  isBlock := hs.isBlock
  anchor_succ i hst hi := by
    have hi' : i < orderToLevel c o := hi
    rw [anchor_grant (by omega) hi', anchor_grant hst hi'.le,
      show i + 1 - st = (i - st) + 1 from by omega, pow_succ]
    ring

theorem Descent.anchor_lt {b : Block} {o st : ℕ} (hb : Descent c b o st) {i : ℕ}
    (hi : i ≤ b.level) :
    b.anchor i < 8 ^ (i + 1) := by
  rw [Block.anchor, Nat.div_lt_iff_lt_mul (by positivity), ← pow_add]
  refine lt_of_lt_of_eq hb.isBlock.cell_lt ?_
  congr 1
  omega

/-- Before the loop works on level `i + 1`: the levels up to `i` show the block, and nothing was
allocated below its cell of level `i`. -/
structure Loading (s : Cache c) (U : List Block) (b : Block) (i : ℕ) : Prop where
  wf : s.WF
  shows_between : s.Shows (Between U b (i + 1))
  clear : ¬bitmap U i (b.anchor i)

section Load

variable {s : Cache c} {U : List Block} {b : Block} {o st i : ℕ}

theorem Loading.not_bitmap_child (hU : Valid U) (h : s.Loading U b i) {j : ℕ} (hj : j < 8) :
    ¬bitmap U (i + 1) (8 * b.anchor i + j) := by
  intro hbit
  have hparent := hU.bitmap_parent hbit
  rw [show (8 * b.anchor i + j) / 8 = b.anchor i from by omega] at hparent
  exact h.clear hparent

theorem Loading.node_eq_zero (hc : c.Ok) (hU : Valid U) (hb : Descent c b o st) (hi : i < b.level)
    (h : s.Loading U b i) : s.node (i + 1) (b.anchor i) = 0 := by
  have hil : i + 1 < c.levelMax := lt_of_le_of_lt hi (hb.isBlock.level_lt hc)
  rw [h.shows_between.node_eq_zero hil (hb.anchor_lt hi.le)]
  intro j hj
  rw [Between, if_neg (lt_irrefl _)]
  exact h.not_bitmap_child hU hj

theorem Descent.covers_iff (hb : Descent c b o st) (hst : st ≤ i) (hi : i < b.level) {j : ℕ}
    (hj : j < 8) :
    b.Covers (i + 1) (8 * b.anchor i + j) ↔
      j < if i + 1 = orderToLevel c o then orderToWidth c o else 1 := by
  have hmod := hb.anchor_succ i hst hi
  have hlevel := hb.isBlock.level_eq
  by_cases hreq : i + 1 = orderToLevel c o
  · have hcl : b.anchor (i + 1) = b.cell := by rw [hreq, ← hlevel, Block.anchor_level]
    rw [if_pos hreq, hreq, ← hlevel, Block.covers_level_iff, ← hcl, hmod, hb.isBlock.width_eq]
    omega
  · rw [if_neg hreq, Block.covers_iff_of_lt (by omega), hmod]
    omega

/-- **One round of the loop.** -/
theorem Loading.next (hc : c.Ok) (hU : Valid U) (hb : Descent c b o st) (hst : st ≤ i)
    (hi : i < b.level) (h : s.Loading U b i) (idx : BitVec 3) :
    (s.loadLevel (i + 1) (nodeTag c (i + 1) (b.anchor i))
        (if i + 1 = orderToLevel c o then orderToWidth c o else 1) idx).2
        = (parenttagIdxToTag (nodeTag c (i + 1) (b.anchor i)) (i + 1) 0, 0) ∧
      (s.loadLevel (i + 1) (nodeTag c (i + 1) (b.anchor i))
        (if i + 1 = orderToLevel c o then orderToWidth c o else 1) idx).1.Loading U b (i + 1) := by
  have hil : i + 1 < c.levelMax := lt_of_le_of_lt hi (hb.isBlock.level_lt hc)
  have hw := isWidth_ite (c := c) o (i + 1)
  obtain ⟨hs1, htag, hnode⟩ := h.wf.loadLevel hc hil (Nat.succ_pos i) (hb.anchor_lt hi.le)
    (h.node_eq_zero hc hU hb hi) hw idx
  refine ⟨htag, hs1, fun l hl k hk j hj ↦ ?_, ?_⟩
  · rw [hnode l hl k hk]
    -- the new node has the bits of the block; no other node changes
    by_cases hlk : l = i + 1 ∧ k = b.anchor i
    · obtain ⟨rfl, rfl⟩ := hlk
      have hbit := getLsbD_widthMask_shiftLeft hw 0#3 hj
      rw [BitVec.toNat_ofNat, Nat.zero_mod, BitVec.shiftLeft_zero, zero_add] at hbit
      rw [if_pos ⟨rfl, rfl⟩, hbit, Between, if_pos (Nat.lt_succ_self (i + 1)), bitmap_cons,
        hb.covers_iff hst hi hj, or_iff_left (h.not_bitmap_child hU hj)]
      simp
    · rw [if_neg hlk, h.shows_between l hl k hk j hj, Between, Between]
      by_cases hl' : l = i + 1
      · subst hl'
        rw [if_neg (lt_irrefl _), if_pos (Nat.lt_succ_self _), bitmap_cons]
        -- on this level the block covers no cell of another node
        refine (or_iff_right fun hcov ↦ hlk ⟨rfl, ?_⟩).symm
        have hdiv := hb.isBlock.wf.covers_div_eight hcov
        rw [hb.anchor_succ i hst hi] at hdiv
        omega
      · by_cases hlt : l < i + 1
        · rw [if_pos hlt, if_pos (by omega)]
        · rw [if_neg hlt, if_neg (by omega)]
  · rw [hb.anchor_succ i hst hi]
    exact h.not_bitmap_child hU (j := 0) (by decide)

/-- The tag the loop goes on with names the next node. -/
theorem Descent.tag_succ (hc : c.Ok) (hb : Descent c b o st) (hst : st ≤ i) (hi : i + 1 < b.level) :
    parenttagIdxToTag (nodeTag c (i + 1) (b.anchor i)) (i + 1) 0
      = nodeTag c (i + 1 + 1) (b.anchor (i + 1)) := by
  rw [
    parenttagIdxToTag_eq hc (lt_of_le_of_lt hi (hb.isBlock.level_lt hc)) (hb.anchor_lt (by omega)),
    hb.anchor_succ i hst (by omega)]
  rfl

theorem cacheLoad_spec (hc : c.Ok) (hU : Valid U) (hb : Descent c b o st) :
    ∀ (d i : ℕ) (s : Cache c) (idx : BitVec 3), st ≤ i → i + d = b.level → s.Loading U b i →
      (s.cacheLoad (orderToLevel c o) (orderToWidth c o) d (i + 1)
          (nodeTag c (i + 1) (b.anchor i)) idx).1.Loading U b b.level ∧
        (0 < d → (s.cacheLoad (orderToLevel c o) (orderToWidth c o) d (i + 1)
          (nodeTag c (i + 1) (b.anchor i)) idx).2
            = parenttagIdxToTag (nodeTag c b.level (b.cell / 8)) b.level 0) := by
  intro d
  induction d with
  | zero =>
    intro i s idx _ hi h
    rw [add_zero] at hi
    rw [← hi]
    exact ⟨h, fun h ↦ absurd h (lt_irrefl 0)⟩
  | succ d ih =>
    intro i s idx hst hi h
    have hlt : i < b.level := by omega
    obtain ⟨htag, hnext⟩ := h.next hc hU hb hst hlt idx
    rw [cacheLoad, htag]
    -- the last round leaves the tag of the block
    rcases Nat.eq_zero_or_pos d with rfl | hd
    · rw [zero_add] at hi
      have hdiv : b.cell / 8 = b.anchor i := by
        have := Block.anchor_div (b := b) (l := i) (k := 1) hi.le
        rwa [pow_one, hi, Block.anchor_level] at this
      rw [cacheLoad, hdiv, ← hi]
      exact ⟨hnext, fun _ ↦ rfl⟩
    · dsimp only
      rw [hb.tag_succ hc hst (by omega)]
      have hrest := ih (i + 1) _ 0 (by omega) (by omega) hnext
      exact ⟨hrest.1, fun _ ↦ hrest.2 hd⟩

end Load

/-! ## The registers -/

theorem level_flushLine (s : Cache c) (l i m : ℕ) :
    ((s.flushLine l i).buddySet m).level = (s.buddySet m).level := by
  simp [flushLine]

theorem level_takeSlot (s : Cache c) (l i w m : ℕ) (idx : BitVec 3) :
    ((s.takeSlot l i w idx).buddySet m).level = (s.buddySet m).level := by
  rw [takeSlot]
  split
  · rw [level_flushLine, level_setLine]
  · rw [level_setLine]

theorem assertHeld_takeSlot (s : Cache c) (l i w : ℕ) (idx : BitVec 3) :
    (s.takeSlot l i w idx).assertHeld = (s.assertHeld &&
      (decide (0 < (s.buddySet l).level) ||
        (s.line l i).children ||| widthMask w <<< idx.toNat != 0xFF)) := by
  rw [takeSlot]
  simp only [setClearBits, if_true]
  split
  case isTrue h => rw [h]; simp [flushLine]
  case isFalse h => rw [bne_iff_ne.mpr h]; simp

theorem level_makeRoom (s : Cache c) (l m : ℕ) :
    ((s.makeRoom l).buddySet m).level = (s.buddySet m).level := by
  have hset : ((s.setSet l (chooseLine (s.buddySet l)).2.2).buddySet m).level
      = (s.buddySet m).level := by
    by_cases hm : m = l
    · subst hm
      rcases s.chooseLine_cases m with ⟨i, -, -, h⟩ | ⟨-, h⟩ <;>
        simp [h, setSet, BuddyCacheSet.count]
    · simp [setSet, hm]
  rw [makeRoom]
  split
  · exact hset
  · rw [level_flushLine]; exact hset

theorem assertHeld_makeRoom {s : Cache c} {l : ℕ} (h : 0 < (s.buddySet l).level) :
    (s.makeRoom l).assertHeld = s.assertHeld := by
  rcases s.chooseLine_cases l with ⟨i, -, -, hch⟩ | ⟨-, hch⟩
  · rw [makeRoom_of_free hch]
  · rw [makeRoom, hch]
    simp [flushLine, setSet, BuddyCacheSet.count, h]

theorem assertHeld_loadLevel {s : Cache c} {l : ℕ} (h : (s.buddySet l).level = l) (hpos : 0 < l)
    (tag : BitVec c.orderMax) (w : ℕ) (idx : BitVec 3) :
    (s.loadLevel l tag w idx).1.assertHeld = s.assertHeld := by
  rw [loadLevel_eq]
  dsimp only
  rw [assertHeld_takeSlot, level_setLine]
  have hlevel : (((s.makeRoom l).assertLevel l).buddySet l).level = l :=
    (level_makeRoom s l l).trans h
  rw [hlevel, assertHeld_setLine, assertLevel, assertHeld_makeRoom (h.symm ▸ hpos)]
  simp [hpos]

theorem level_loadLevel (s : Cache c) (l m : ℕ) (tag : BitVec c.orderMax) (w : ℕ) (idx : BitVec 3) :
    ((s.loadLevel l tag w idx).1.buddySet m).level = (s.buddySet m).level := by
  rw [loadLevel_eq]
  dsimp only
  rw [level_takeSlot, level_setLine]
  exact level_makeRoom s l m

theorem assertHeld_cacheLoad (reqLevel w : ℕ) :
    ∀ (d i : ℕ) (s : Cache c) (tag : BitVec c.orderMax) (idx : BitVec 3), 0 < i →
      (∀ l < i + d, (s.buddySet l).level = l) →
      (s.cacheLoad reqLevel w d i tag idx).1.assertHeld = s.assertHeld := by
  intro d
  induction d with
  | zero => intro i s tag idx _ _; rfl
  | succ d ih =>
    intro i s tag idx hpos h
    rw [cacheLoad]
    rw [ih _ _ _ _ (Nat.succ_pos i), assertHeld_loadLevel (h i (by omega)) hpos]
    intro l hl
    rw [level_loadLevel]
    exact h l (by omega)

theorem managedBase_takeSlot (s : Cache c) (l i w : ℕ) (idx : BitVec 3) :
    (s.takeSlot l i w idx).managedBase = s.managedBase := by
  rw [takeSlot]
  split <;> rfl

theorem inBounds_takeSlot (s : Cache c) (l i w : ℕ) (idx : BitVec 3) :
    (s.takeSlot l i w idx).inBounds = s.inBounds := by
  rw [takeSlot]
  split <;> rfl

theorem registers_makeRoom (s : Cache c) (l : ℕ) :
    (s.makeRoom l).managedBase = s.managedBase ∧ (s.makeRoom l).inBounds = s.inBounds := by
  rw [makeRoom]
  split <;> exact ⟨rfl, rfl⟩

theorem registers_cacheLoad (reqLevel w : ℕ) :
    ∀ (d i : ℕ) (s : Cache c) (tag : BitVec c.orderMax) (idx : BitVec 3),
      (s.cacheLoad reqLevel w d i tag idx).1.managedBase = s.managedBase ∧
        (s.cacheLoad reqLevel w d i tag idx).1.inBounds = s.inBounds := by
  intro d
  induction d with
  | zero => intro i s tag idx; exact ⟨rfl, rfl⟩
  | succ d ih =>
    intro i s tag idx
    rw [cacheLoad]
    rw [(ih _ _ _ _).1, (ih _ _ _ _).2, loadLevel_eq]
    dsimp only
    rw [managedBase_takeSlot, inBounds_takeSlot]
    exact registers_makeRoom s i

/-! ## The allocation as a whole -/

theorem alloc_of_le {s : Cache c} {o : ℕ} (h : c.orderMax - 1 ≤ o) : s.alloc o = (1, 0, s) := by
  rw [alloc, if_pos h]

theorem alloc_of_lookUp_none {s : Cache c} {o : ℕ} (ho : o < c.orderMax - 1)
    (h : s.lookUp (orderToLevel c o) (orderToWidth c o) (orderToLevel c o) = none) :
    s.alloc o = (1, 0, { s with inBounds := false }) := by
  rw [alloc, if_neg (not_le.mpr ho)]
  dsimp only
  rw [h]

/-- The state after the slot has been taken and the levels below it have been filled, and the tag
of the block. -/
def descend (s : Cache c) (o st nr : ℕ) (idx : BitVec 3) : Cache c × BitVec c.orderMax :=
  (s.takeSlot st nr (if st = orderToLevel c o then orderToWidth c o else 1) idx).cacheLoad
    (orderToLevel c o) (orderToWidth c o) (orderToLevel c o - st) (st + 1)
    (parenttagIdxToTag (s.line st nr).tag st idx) idx

theorem alloc_of_lookUp {s : Cache c} {o st nr : ℕ} {idx : BitVec 3} (ho : o < c.orderMax - 1)
    (h : s.lookUp (orderToLevel c o) (orderToWidth c o) (orderToLevel c o) = some (st, nr, idx)) :
    s.alloc o = (0, tagToAddr (s.descend o st nr idx).2, (s.descend o st nr idx).1) := by
  rw [alloc, if_neg (not_le.mpr ho)]
  dsimp only
  rw [h]
  rfl

section Alloc

variable {s : Cache c} {U : List Block} {o st nr n : ℕ} {idx : BitVec 3}

/-- Taking the slot sets the stage for the loop. -/
theorem Slot.loading (hc : c.Ok) (hs : s.WF) (hU : Valid U) (hshow : s.Shows (bitmap U))
    (hslot : s.Slot o st nr n idx) :
    (s.takeSlot st nr (if st = orderToLevel c o then orderToWidth c o else 1) idx).Loading U
      (grant c o st n idx) st := by
  have hst : st < c.levelMax := hslot.start_le.trans_lt (orderToLevel_lt hc o)
  have hw := isWidth_ite (c := c) o st
  refine ⟨(hs.takeSlot hc hst hslot.valid hslot.tag hslot.node_lt hw idx).1, ?_,
    hslot.clear hc hs hshow (hslot.isBlock.wf.covers_anchor hslot.start_le)⟩
  refine (hshow.takeSlot hc hs hst hslot.valid hslot.tag hslot.node_lt hw hslot.aligned).congr ?_
  intro l _ k _ j _
  rw [Between]
  -- above the slot the block covers only bits that were set already
  by_cases hl : l < st + 1
  · rw [if_pos hl, bitmap_cons, or_comm]
    rcases Nat.lt_succ_iff_lt_or_eq.mp hl with hlt | rfl
    · have hup := hslot.bitmap_of_covers hc hs hU hshow hlt (k := 8 * k + j)
      constructor
      · rintro (h | h)
        · exact absurd h.1 hlt.ne
        · exact Or.inr h
      · rintro (h | h)
        · exact Or.inr (hup h)
        · exact Or.inr h
    · rw [hslot.covers_iff, and_iff_right rfl]
  · rw [if_neg hl]
    exact or_iff_left fun h ↦ hl (h.1 ▸ Nat.lt_succ_self st)

/-- After the loop the tag is that of the block's first cell. -/
theorem Slot.descend_spec (hc : c.Ok) (hs : s.WF) (hU : Valid U) (hshow : s.Shows (bitmap U))
    (hslot : s.Slot o st nr n idx) :
    (s.descend o st nr idx).1.Loading U (grant c o st n idx) (orderToLevel c o) ∧
      (s.descend o st nr idx).2
        = parenttagIdxToTag (nodeTag c (orderToLevel c o) ((grant c o st n idx).cell / 8))
          (orderToLevel c o) (BitVec.ofNat 3 ((grant c o st n idx).cell % 8)) := by
  have hload := hslot.loading hc hs hU hshow
  have hanchor : (grant c o st n idx).anchor st = 8 * n + idx.toNat := by
    rw [anchor_grant le_rfl hslot.start_le, Nat.sub_self, pow_zero, mul_one]
  rw [descend, hslot.tag]
  -- below the bottom level there is no node to name, so the two cases are kept apart
  rcases hslot.start_le.eq_or_lt with hreq | hlt
  · have hcell : (grant c o st n idx).cell = 8 * n + idx.toNat := by
      rw [← hanchor, hreq]
      exact (Block.anchor_level (grant c o _ n idx)).symm
    have hidx := idx.isLt
    rw [hcell, show (8 * n + idx.toNat) / 8 = n from by omega,
      show (8 * n + idx.toNat) % 8 = idx.toNat from by omega, BitVec.ofNat_toNat,
      BitVec.setWidth_eq, ← hreq, Nat.sub_self, cacheLoad]
    rw [if_pos hreq] at hload
    rw [if_pos rfl]
    exact ⟨hload, rfl⟩
  · have htag : parenttagIdxToTag (nodeTag c st n) st idx
        = nodeTag c (st + 1) ((grant c o st n idx).anchor st) := by
      rw [hanchor]
      exact parenttagIdxToTag_eq hc (lt_of_le_of_lt hlt (orderToLevel_lt hc o)) hslot.node_lt idx
    have hmod : (grant c o st n idx).cell % 8 = 0 := by
      rw [grant]
      dsimp only
      rw [show orderToLevel c o - st = (orderToLevel c o - st - 1) + 1 from by omega, pow_succ,
        ← mul_assoc, Nat.mul_mod_left]
    have hspec := cacheLoad_spec hc hU hslot.descent (orderToLevel c o - st) st _ idx le_rfl
      (Nat.add_sub_cancel' hlt.le) hload
    rw [htag, hmod]
    exact ⟨hspec.1, hspec.2 (by omega)⟩

/-- The address of that tag is the first byte of the block. At the bottom of a padded tree the slot
starts at a multiple of its width, and the width is a whole block. -/
theorem Slot.addr (hc : c.Ok) (hs : s.WF) (hU : Valid U) (hshow : s.Shows (bitmap U))
    (ho : o < c.orderMax - 1) (hslot : s.Slot o st nr n idx) :
    (tagToAddr (s.descend o st nr idx).2).toNat = (grant c o st n idx).cell *
      2 ^ (c.maxShift - 3 * ((grant c o st n idx).level + 1)) := by
  have hb := hslot.isBlock
  set b := grant c o st n idx with hbdef
  have hidx : (BitVec.ofNat 3 (b.cell % 8)).toNat = b.cell % 8 := by
    rw [BitVec.toNat_ofNat, Nat.mod_eq_of_lt (Nat.mod_lt _ (by decide))]
  have hnode : b.cell / 8 < 8 ^ orderToLevel c o := by
    have hcell := hb.cell_lt
    rw [hb.level_eq, pow_succ] at hcell
    omega
  have hdvd : orderToWidth c o ∣ b.cell % 8 := by
    refine (Nat.dvd_mod_iff ?_).mpr hb.dvd
    rcases isWidth_orderToWidth (c := c) o with h | h | h <;> rw [h] <;> decide
  rw [(hslot.descend_spec hc hs hU hshow).2,
    toNat_tagToAddr_parenttagIdxToTag hc (orderToLevel_lt hc o) hnode, hidx, Nat.div_add_mod]
  · rfl
  · obtain ⟨q, hq⟩ := hdvd
    rw [hidx, hq, mul_right_comm, orderToWidth_mul hc (by omega), pow_add, mul_right_comm]
    exact Dvd.intro_left _ rfl

/-- What a call of `alloc` that finds a slot returns and leaves behind. -/
structure Granted (s : Cache c) (U : List Block) (o st nr n : ℕ) (idx : BitVec 3) : Prop where
  stat : (s.alloc o).1 = 0
  addr : (s.alloc o).2.1.toNat = (grant c o st n idx).cell *
    2 ^ (c.maxShift - 3 * ((grant c o st n idx).level + 1))
  wf : (s.alloc o).2.2.WF
  shows_cons : (s.alloc o).2.2.Shows (bitmap (grant c o st n idx :: U))
  inBounds : (s.alloc o).2.2.inBounds = s.inBounds
  assertHeld : (s.alloc o).2.2.assertHeld = (s.assertHeld && (decide (0 < st) ||
    (s.line st nr).children |||
      widthMask (if st = orderToLevel c o then orderToWidth c o else 1) <<< idx.toNat != 0xFF))

/-- **`alloc` adds one block.** -/
theorem WF.alloc (hc : c.Ok) (hs : s.WF) (hU : Valid U) (hshow : s.Shows (bitmap U))
    (ho : o < c.orderMax - 1)
    (hfind : s.lookUp (orderToLevel c o) (orderToWidth c o) (orderToLevel c o) = some (st, nr, idx))
    (hslot : s.Slot o st nr n idx) : s.Granted U o st nr n idx := by
  have hst : st < c.levelMax := hslot.start_le.trans_lt (orderToLevel_lt hc o)
  have hdone := (hslot.descend_spec hc hs hU hshow).1
  have halloc := alloc_of_lookUp ho hfind
  -- the loop flushes lines of levels below the slot only
  have hlevel : ∀ l < st + 1 + (orderToLevel c o - st), ((s.takeSlot st nr
      (if st = orderToLevel c o then orderToWidth c o else 1) idx).buddySet l).level = l := by
    intro l hl
    refine (hslot.loading hc hs hU hshow).wf.level_eq l (lt_of_lt_of_le hl ?_)
    have := orderToLevel_lt hc o
    have := hslot.start_le
    omega
  refine ⟨by rw [halloc], ?_, by rw [halloc]; exact hdone.wf, ?_, ?_, ?_⟩
  · rw [halloc]
    exact hslot.addr hc hs hU hshow ho
  · rw [halloc]
    -- the block covers nothing below its own level
    refine hdone.shows_between.congr fun l _ k _ j _ ↦ ?_
    rw [Between]
    by_cases hl : l < orderToLevel c o + 1
    · rw [if_pos hl]
    · rw [if_neg hl, bitmap_cons]
      exact (or_iff_right fun h ↦ hl (Nat.lt_succ_of_le h.level_le)).symm
  · rw [halloc]
    exact (registers_cacheLoad _ _ _ _ _ _ _).2.trans (inBounds_takeSlot s st nr _ idx)
  · rw [halloc]
    refine (assertHeld_cacheLoad _ _ _ _ _ _ _ (Nat.succ_pos st) hlevel).trans ?_
    rw [assertHeld_takeSlot, hs.level_eq st hst]

end Alloc

end Cache

end FpgaOs.Alloc
