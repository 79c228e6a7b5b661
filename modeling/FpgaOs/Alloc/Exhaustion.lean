import FpgaOs.Alloc.Residency

/-!
# Running out of memory

The search of `alloc` counts an unsigned level down and compares it with zero, so it never ends by
itself: when the root has no slot either, it goes on with `buddy_set[255]`. And a root that fills up
is flushed like any other line, which calls `tag_level_to_drambuddy` on level 0 against its
assertion, and leaves the root uncached for good.

`search_bounded_iff` says that these are the only two ways: along a run in which clients free what
they hold, the search stays inside `buddy_set` and the assertion holds as long as every `ALLOC`
finds a slot and does not take the last one of the root. As long as that is so the root stays in the
cache, which is what `free` relies on.
-/

namespace FpgaOs.Alloc

open Octree Machine

variable {c : Config}

namespace Cache

/-- The slot was the last one of its line. -/
def Fills (s : Cache c) (o l nr : ℕ) (idx : BitVec 3) : Prop :=
  (s.line l nr).children |||
    widthMask (if l = orderToLevel c o then orderToWidth c o else 1) <<< idx.toNat = 0xFF

instance (s : Cache c) (o l nr : ℕ) (idx : BitVec 3) : Decidable (s.Fills o l nr idx) :=
  inferInstanceAs (Decidable (_ = _))

/-- The search stops at the deepest level with a slot. -/
theorem lookUp_deepest {s : Cache c} {reqLevel w k st nr : ℕ} {idx : BitVec 3}
    (h : s.lookUp reqLevel w k = some (st, nr, idx)) {l : ℕ} (hst : st < l) (hl : l ≤ k) :
    getValidFreeSet (s.buddySet l) (if l = reqLevel then w else 1) = none := by
  induction k with
  | zero => exact absurd (Nat.le_zero.mp hl ▸ hst) (Nat.not_lt_zero st)
  | succ k ih =>
    rw [lookUp] at h
    split at h
    case h_1 =>
      rw [← (Prod.mk.inj (Option.some.inj h)).1] at hst
      exact absurd hl (not_le.mpr hst)
    case h_2 hnone =>
      rcases Nat.le_succ_iff.mp hl with hl | rfl
      · exact ih h hl
      · exact hnone

end Cache

namespace Ledger

/-- The search stays inside `buddy_set`, a search without success is an error reply and changes
nothing, and no call violates the assertion. -/
def Bounded (s : Ledger c) (req : Request c) : Prop :=
  (s.step req).buddy.cache.assertHeld = true ∧
    match req with
    | .free _ _ => True
    | .alloc order => order.toNat < c.orderMax - 1 →
      (s.step (.alloc order)).buddy.cache.inBounds = true ∧
      ((∀ l ≤ orderToLevel c order.toNat, s.buddy.cache.slotAt order.toNat l = none) →
        (s.buddy.handler (.alloc order)).1.stat = 1 ∧
        (s.buddy.handler (.alloc order)).2.cache.buddySet = s.buddy.cache.buddySet ∧
        (s.buddy.handler (.alloc order)).2.cache.dram = s.buddy.cache.dram)

/-- Some level up to that of the order has a slot; at the root it is not the last one. -/
def HasRoom (s : Ledger c) : Request c → Prop
  | .free _ _ => True
  | .alloc order => c.orderMax - 1 ≤ order.toNat ∨
    ∃ l ≤ orderToLevel c order.toNat, ∃ nr idx,
      s.buddy.cache.slotAt order.toNat l = some (nr, idx) ∧
        (l = 0 → ¬s.buddy.cache.Fills order.toNat 0 nr idx)

/-- What holds as long as there was room. -/
structure Sound (s : Ledger c) : Prop where
  inv : s.Inv
  root : s.buddy.cache.Cached 0 0
  assertHeld : s.buddy.cache.assertHeld = true
  inBounds : s.buddy.cache.inBounds = true

theorem sound_init (hc : c.Ok) (hm : c.MetaOk) (b : BitVec 64) : (init c b).Sound where
  inv := inv_init hc hm b
  root := by
    refine ⟨0, ?_, ?_, ?_⟩
    · exact Nat.one_pos
    · exact (line_init b 0 0) ▸ (valid_metaLine 0).mpr (Nat.zero_le _)
    · exact (line_init b 0 0) ▸ tag_metaLine 0
  assertHeld := rfl
  inBounds := rfl

section Step

variable {s : Ledger c} {order : BitVec c.orderMax}

theorem hasRoom_iff (ho : order.toNat < c.orderMax - 1) :
    s.HasRoom (.alloc order) ↔ ∃ st nr idx, s.buddy.cache.lookUp (orderToLevel c order.toNat)
      (orderToWidth c order.toNat) (orderToLevel c order.toNat) = some (st, nr, idx) ∧
        (0 < st ∨ ¬s.buddy.cache.Fills order.toNat st nr idx) := by
  constructor
  · rintro (h | ⟨l, hl, nr', idx', hslot, hfill⟩)
    · exact absurd ho (not_lt.mpr h)
    · cases hfind : s.buddy.cache.lookUp (orderToLevel c order.toNat) (orderToWidth c order.toNat)
          (orderToLevel c order.toNat) with
      | none =>
        have hnone := Cache.lookUp_eq_none_iff.mp hfind l hl
        rw [Cache.slotAt, hnone] at hslot
        cases hslot
      | some r =>
        obtain ⟨st, nr, idx⟩ := r
        refine ⟨st, nr, idx, rfl, ?_⟩
        rcases Nat.eq_zero_or_pos st with rfl | hpos
        · -- the search stops at the deepest level with a slot, so the root has the only one
          have hl0 : l = 0 := by
            by_contra hl0
            rw [Cache.slotAt, Cache.lookUp_deepest hfind (Nat.pos_of_ne_zero hl0) hl] at hslot
            cases hslot
          subst hl0
          rw [Cache.slotAt, (Cache.lookUp_eq_some hfind).2] at hslot
          obtain ⟨rfl, rfl⟩ := Prod.mk.inj (Option.some.inj hslot)
          exact Or.inr (hfill rfl)
        · exact Or.inl hpos
  · rintro ⟨st, nr, idx, hfind, hkeep⟩
    obtain ⟨hle, hslot⟩ := Cache.lookUp_eq_some hfind
    refine Or.inr ⟨st, hle, nr, idx, hslot, ?_⟩
    rintro rfl
    exact hkeep.resolve_left (lt_irrefl 0)

theorem Sound.bounded_alloc_iff (hc : c.Ok) (hs : s.Sound) (order : BitVec c.orderMax) :
    s.Bounded (.alloc order) ↔ s.HasRoom (.alloc order) := by
  by_cases ho : c.orderMax - 1 ≤ order.toNat
  · refine iff_of_true ⟨?_, fun h ↦ absurd h (not_lt.mpr ho)⟩ (Or.inl ho)
    change (s.buddy.cache.alloc order.toNat).2.2.assertHeld = true
    rw [Cache.alloc_of_le ho]
    exact hs.assertHeld
  · have ho' := not_le.mp ho
    rw [hasRoom_iff ho']
    cases hfind : s.buddy.cache.lookUp (orderToLevel c order.toNat) (orderToWidth c order.toNat)
        (orderToLevel c order.toNat) with
    | none =>
      refine iff_of_false (fun h ↦ ?_) (by simp)
      have hin : (s.buddy.cache.alloc order.toNat).2.2.inBounds = true := (h.2 ho').1
      rw [Cache.alloc_of_lookUp_none ho' hfind] at hin
      exact absurd hin Bool.false_ne_true
    | some r =>
      obtain ⟨st, nr, idx⟩ := r
      obtain ⟨n, hslot⟩ := hs.inv.wf.slot_of_lookUp hc hfind
      have hgrant := hs.inv.wf.alloc hc hs.inv.valid hs.inv.shows_blocks ho' hfind hslot
      -- the assertion fails only when the root is flushed, that is when it is filled
      have hassert : (s.step (.alloc order)).buddy.cache.assertHeld = true ↔
          0 < st ∨ ¬s.buddy.cache.Fills order.toNat st nr idx := by
        have hstep : (s.step (.alloc order)).buddy.cache.assertHeld
            = (s.buddy.cache.alloc order.toNat).2.2.assertHeld := rfl
        rw [hstep, hgrant.assertHeld, hs.assertHeld, Bool.true_and, Bool.or_eq_true,
          decide_eq_true_eq, bne_iff_ne]
        rfl
      constructor
      · intro h
        exact ⟨st, nr, idx, rfl, hassert.mp h.1⟩
      · rintro ⟨st', nr', idx', heq, hkeep⟩
        obtain ⟨rfl, rfl, rfl⟩ : st = st' ∧ nr = nr' ∧ idx = idx' := by simpa using heq
        refine ⟨hassert.mpr hkeep, fun _ ↦ ⟨hgrant.inBounds.trans hs.inBounds, fun hnone ↦ ?_⟩⟩
        obtain ⟨hle, hsome⟩ := Cache.lookUp_eq_some hfind
        rw [← Cache.slotAt, hnone st hle] at hsome
        cases hsome

theorem Sound.alloc (hc : c.Ok) (hs : s.Sound) (hroom : s.HasRoom (.alloc order)) :
    (s.step (.alloc order)).Sound := by
  have hbounded := (hs.bounded_alloc_iff hc order).mpr hroom
  have hinv := hs.inv.step hc s (.alloc order) trivial
  by_cases ho : c.orderMax - 1 ≤ order.toNat
  · have hcache : (s.step (.alloc order)).buddy.cache = s.buddy.cache := by
      change (s.buddy.cache.alloc order.toNat).2.2 = _
      rw [Cache.alloc_of_le ho]
    exact ⟨hinv, hcache ▸ hs.root, hbounded.1, hcache ▸ hs.inBounds⟩
  · have ho' := not_le.mp ho
    obtain ⟨st, nr, idx, hfind, hkeep⟩ := (hasRoom_iff ho').mp hroom
    refine ⟨hinv, ?_, hbounded.1, (hbounded.2 ho').1⟩
    change (s.buddy.cache.alloc order.toNat).2.2.Cached 0 0
    rw [Cache.alloc_of_lookUp ho' hfind]
    exact hs.root.descend_root hkeep

theorem Sound.free (hc : c.Ok) (hs : s.Sound) {addr : BitVec 32}
    (hg : (addr, order) ∈ s.outstanding) : (s.step (.free addr order)).Sound := by
  have hoff := hs.inv.isOffset _ hg
  obtain ⟨probe, b', a, hcache, hstart, hroot, hfree⟩ :=
    Buddy.free_spec hc hs.inv.wf hs.inv.freeSetOk
    hs.inv.valid hs.inv.shows_blocks hoff.lt_orderMax (mem_blocks hg) (hoff.isBlock hc)
    (denotes_blockAt hc _ _)
  obtain ⟨hprobe, ha⟩ := hroot hs.root
  have hclear := Buddy.clear_spec hc hs.inv.valid (mem_blocks hg) (hoff.isBlock hc)
    (denotes_blockAt hc _ _) probe _ le_rfl hstart
  have hbuddy : (s.step (.free addr order)).buddy = b'.clear probe (addr - s.base)
      (blockAt c (addr - s.base) order.toNat).level (blockAt c (addr - s.base) order.toNat).width
      (blockAt c (addr - s.base) order.toNat).level := congrArg Prod.snd hfree
  refine ⟨hs.inv.step hc s _ hg, ?_, ?_, ?_⟩
  · rw [hbuddy]
    exact Buddy.cached_root_clear _ _ _ _ _ _ (hstart.wf.level_eq 0 hc.levelMax_pos)
      (hs.root.congr (by rw [hcache]))
  · rw [hbuddy, hclear.assertHeld hprobe, hcache]
    exact ha.trans hs.assertHeld
  · rw [hbuddy, hclear.inBounds, hcache]
    exact hs.inBounds

end Step

/-- **When the search stays in bounds.** -/
theorem search_bounded_iff (hc : c = .phys ∨ c = .virt) (b : BitVec 64) (reqs : List (Request c)) :
    Guarded step (fun s req ↦ s.FreesOutstanding req ∧ s.Bounded req) (init c b) reqs ↔
      Guarded step (fun s req ↦ s.FreesOutstanding req ∧ s.HasRoom req) (init c b) reqs := by
  obtain ⟨hok, hm⟩ := Config.ok_of_built hc
  have hstep : ∀ (s : Ledger c) (req : Request c), s.Sound →
      s.FreesOutstanding req ∧ s.HasRoom req → (s.step req).Sound := by
    intro s req hs hg
    cases req with
    | alloc order => exact hs.alloc hok hg.2
    | free addr order => exact hs.free hok hg.1
  refine guarded_iff_of_invariant hstep (fun s req hs ↦ and_congr_right fun hg ↦ ?_)
    (sound_init hok hm b)
  cases req with
  | alloc order => exact hs.bounded_alloc_iff hok order
  | free addr order => exact iff_of_true ⟨(hs.free hok hg).assertHeld, trivial⟩ trivial

/-- Three quarters of the root, one of them given back. -/
theorem search_bounded_iff_phys :
    Guarded step (fun s req ↦ s.FreesOutstanding req ∧ s.Bounded req) (init .phys 0)
      [.alloc 20, .alloc 20, .free 0x10000000 20] := by
  refine (search_bounded_iff (Or.inl rfl) 0 _).mpr ⟨⟨trivial, Or.inr ⟨0, by decide, 0, 2, ?_, ?_⟩⟩,
    ⟨trivial, Or.inr ⟨0, by decide, 0, 4, ?_, ?_⟩⟩, ⟨?_, trivial⟩, trivial⟩
  all_goals decide +kernel

/-- After three grants of order 20 one cell of the root is left. Another request of that order
searches past level 0; a request of order 19 takes the cell, and the root is flushed. -/
theorem search_overruns :
    Guarded step FreesOutstanding (init .phys 0) [.alloc 20, .alloc 20, .alloc 20] ∧
      ¬(run step (init .phys 0) [.alloc 20, .alloc 20, .alloc 20]).Bounded (.alloc 20) ∧
      ¬(run step (init .phys 0) [.alloc 20, .alloc 20, .alloc 20]).Bounded (.alloc 19) := by
  refine ⟨by decide +kernel, fun h ↦ absurd (h.2 (by decide)).1 ?_, fun h ↦ absurd h.1 ?_⟩
  all_goals decide +kernel

end Ledger

end FpgaOs.Alloc
