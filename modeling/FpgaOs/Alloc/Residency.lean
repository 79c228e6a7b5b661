import FpgaOs.Alloc.Safety

/-!
# Which lines stay in the cache

`alloc` looks for a slot in cached lines only, so what it can still grant depends on which nodes are
resident. A line leaves the cache when it fills up, when it is evicted to make room, and when `free`
empties it. The lemmas here say that nothing else takes a line out: each part of `alloc` and `free`
works on the set of one level, and on that level it touches one line.
-/

namespace FpgaOs.Alloc

open Octree

variable {c : Config}

namespace Cache

/-! ## One level at a time -/

theorem buddySet_setLine_of_ne (s : Cache c) {l m : ℕ} (i : ℕ) (x : BuddyCacheLine c) (h : m ≠ l) :
    (s.setLine l i x).buddySet m = s.buddySet m := Function.update_of_ne h _ _

theorem buddySet_flushLine_of_ne (s : Cache c) {l m : ℕ} (i : ℕ) (h : m ≠ l) :
    (s.flushLine l i).buddySet m = s.buddySet m := buddySet_setLine_of_ne _ i {} h

theorem buddySet_takeSlot_of_ne (s : Cache c) {l m : ℕ} (i w : ℕ) (idx : BitVec 3) (h : m ≠ l) :
    (s.takeSlot l i w idx).buddySet m = s.buddySet m := by
  rw [takeSlot]
  split
  · rw [buddySet_flushLine_of_ne _ i h, buddySet_setLine_of_ne s i _ h]
  · exact buddySet_setLine_of_ne s i _ h

theorem buddySet_makeRoom_of_ne (s : Cache c) {l m : ℕ} (h : m ≠ l) :
    (s.makeRoom l).buddySet m = s.buddySet m := by
  rw [makeRoom]
  split
  · exact Function.update_of_ne h _ _
  · rw [buddySet_flushLine_of_ne _ _ h]
    exact Function.update_of_ne h _ _

theorem buddySet_loadLevel_of_ne (s : Cache c) {l m : ℕ} (tag : BitVec c.orderMax) (w : ℕ)
    (idx : BitVec 3) (h : m ≠ l) : (s.loadLevel l tag w idx).1.buddySet m = s.buddySet m := by
  rw [loadLevel_eq]
  dsimp only
  rw [buddySet_takeSlot_of_ne _ _ w _ h, buddySet_setLine_of_ne _ _ _ h]
  exact buddySet_makeRoom_of_ne s h

theorem buddySet_cacheLoad_of_not_mem (reqLevel w m : ℕ) :
    ∀ (d i : ℕ) (s : Cache c) (tag : BitVec c.orderMax) (idx : BitVec 3), m < i ∨ i + d ≤ m →
      (s.cacheLoad reqLevel w d i tag idx).1.buddySet m = s.buddySet m := by
  intro d
  induction d with
  | zero => intro i s tag idx _; rfl
  | succ d ih =>
    intro i s tag idx h
    rw [cacheLoad, ih _ _ _ _ (by omega)]
    exact buddySet_loadLevel_of_ne s tag _ idx (by omega)

/-! ## Taking a slot -/

/-- A slot that does not fill its line is only noted in it. -/
theorem takeSlot_of_not_full {s : Cache c} {l i w : ℕ} {idx : BitVec 3}
    (h : (s.line l i).children ||| widthMask w <<< idx.toNat ≠ 0xFF) :
    s.takeSlot l i w idx = s.setLine l i { s.line l i with
      children := (s.line l i).children ||| widthMask w <<< idx.toNat } := by
  rw [takeSlot]
  exact if_neg h

theorem Cached.congr {s t : Cache c} {l n : ℕ} (h : s.Cached l n)
    (hset : t.buddySet l = s.buddySet l) : t.Cached l n := by
  obtain ⟨i, hi, hv, ht⟩ := h
  refine ⟨i, by rwa [hset], ?_, ?_⟩
  · rwa [line, hset]
  · rwa [line, hset]

theorem Cached.setLine_children {s : Cache c} {l n : ℕ} (h : s.Cached l n) {m i : ℕ}
    {x : BuddyCacheLine c} (hv : x.valid = (s.line m i).valid) (ht : x.tag = (s.line m i).tag) :
    (s.setLine m i x).Cached l n := by
  obtain ⟨j, hj, hvj, htj⟩ := h
  refine ⟨j, by rwa [size_setLine], ?_, ?_⟩
  · rw [line_setLine]
    split
    case isTrue h => rw [hv, ← h.1, ← h.2]; exact hvj
    case isFalse => exact hvj
  · rw [line_setLine]
    split
    case isTrue h => rw [ht, ← h.1, ← h.2]; exact htj
    case isFalse => exact htj

/-- Unless `alloc` fills it, the root stays cached. -/
theorem Cached.descend_root {s : Cache c} (h : s.Cached 0 0) {o st nr : ℕ} {idx : BitVec 3}
    (hkeep : 0 < st ∨ (s.line st nr).children |||
      widthMask (if st = orderToLevel c o then orderToWidth c o else 1) <<< idx.toNat ≠ 0xFF) :
    (s.descend o st nr idx).1.Cached 0 0 := by
  have htake : (s.takeSlot st nr (if st = orderToLevel c o then orderToWidth c o else 1) idx).Cached
      0 0 := by
    rcases Nat.eq_zero_or_pos st with rfl | hpos
    · rw [takeSlot_of_not_full (hkeep.resolve_left (lt_irrefl 0))]
      exact h.setLine_children rfl rfl
    · exact h.congr (buddySet_takeSlot_of_ne s nr _ idx hpos.ne)
  refine htake.congr ?_
  rw [descend]
  exact buddySet_cacheLoad_of_not_mem _ _ _ _ _ _ _ _ (Or.inl (Nat.succ_pos st))

end Cache

/-! ## Freeing -/

namespace Buddy

/-- `free` never drops the root. -/
theorem cached_root_clearLevel {b : Buddy c} (hlevel : (b.cache.buddySet 0).level = 0)
    (h : b.cache.Cached 0 0) (probe : Probe) (addr : BitVec 32) (i w : ℕ) :
    ((b.clearLevel probe addr i w).2.cache.buddySet 0).level = 0 ∧
      (b.clearLevel probe addr i w).2.cache.Cached 0 0 := by
  rw [clearLevel]
  cases probe i with
  | none => exact ⟨hlevel, h⟩
  | some nr =>
    dsimp only
    have hline : (b.cache.setLine i nr (setClearBits (b.cache.line i nr) w (addrToIdx c addr i)
        false)).Cached 0 0 := h.setLine_children rfl rfl
    split
    case isTrue hzero =>
      have hi : (0 : ℕ) ≠ i := by
        rintro rfl
        rw [Cache.level_setLine, hlevel] at hzero
        exact lt_irrefl 0 hzero.2
      refine ⟨?_, hline.congr (Cache.buddySet_setLine_of_ne _ nr _ hi)⟩
      rw [Cache.level_setLine, Cache.buddySet_dramWrite, Cache.level_setLine, hlevel]
    case isFalse =>
      refine ⟨?_, hline⟩
      rw [Cache.level_setLine, hlevel]

theorem cached_root_clear (probe : Probe) (addr : BitVec 32) (req w k : ℕ) :
    ∀ b : Buddy c, (b.cache.buddySet 0).level = 0 → b.cache.Cached 0 0 →
      (b.clear probe addr req w k).cache.Cached 0 0 := by
  induction k with
  | zero => exact fun b hlevel h ↦ (cached_root_clearLevel hlevel h probe addr 0 _).2
  | succ k ih =>
    intro b hlevel h
    obtain ⟨hlevel', h'⟩ := cached_root_clearLevel hlevel h probe addr (k + 1)
      (if k + 1 = req then w else 1)
    rw [clear]
    by_cases hcont : (b.clearLevel probe addr (k + 1) (if k + 1 = req then w else 1)).1 = true
    · rw [if_pos hcont]
      exact ih _ hlevel' h'
    · rw [if_neg hcont]
      exact h'

end Buddy

end FpgaOs.Alloc
