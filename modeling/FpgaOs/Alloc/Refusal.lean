import FpgaOs.Alloc.Safety

/-!
# Which requests `free` refuses

`free` does not know the blocks either. It accepts a request when on every level some bit of the
cells the address denotes is set, and that is less than the request naming a block: the address
loses its bits above `BUDDY_MAX_SHIFT` and below a cell, and one set bit of two or four is enough.
What it asks for can be said without the tree: a block of the same level or a deeper one has a byte
in the `window` of the request.

`free_exact_iff` compares this with the rule of `axis_buddy.h` that a `FREE` gives back exactly what
an `ALLOC` returned. The two agree along a run precisely when every `FREE` is out of range, names a
block its client holds, or has nothing in its window. An `ALLOC` comes into it where its search
passes level 0: it then reads `buddy_set[255]`, and what a later `FREE` is answered is not
determined any more.
-/

namespace FpgaOs.Alloc

open Octree Machine

variable {c : Config}

/-- The bytes a request speaks about: `order_to_width` cells from the one that holds the address, as
far as they lie in one node. -/
def window (c : Config) (off : BitVec 32) (o : ℕ) : Set ℕ :=
  {x | addrCell c off (orderToLevel c o) ≤ x / 2 ^ (c.maxShift - 3 * (orderToLevel c o + 1)) ∧
    x / 2 ^ (c.maxShift - 3 * (orderToLevel c o + 1))
      < addrCell c off (orderToLevel c o) + orderToWidth c o ∧
    x / 2 ^ (c.maxShift - 3 * (orderToLevel c o + 1)) / 8 = addrCell c off (orderToLevel c o) / 8}

theorem addrCell_ancestor (hc : c.Ok) (off : BitVec 32) {l d : ℕ} (h : l + d < c.levelMax) :
    addrCell c off (l + d) / 8 ^ d = addrCell c off l :=
  Block.div_cell_div (hc.three_mul_succ_le h)

/-- **The test of `free`, in terms of blocks.** The levels above the first need no mention: a block
found in the window sets the bits over it. -/
theorem accepts_iff (hc : c.Ok) {s : Cache c} {U : List Block} (hU : Valid U)
    (hlevel : ∀ b ∈ U, b.level < c.levelMax) (hshow : s.Shows (bitmap U)) (o : ℕ)
    (off : BitVec 32) :
    Buddy.Accepts s o off ↔ o < c.orderMax - 1 ∧
      ∃ b ∈ U, orderToLevel c o ≤ b.level ∧ ∃ x ∈ window c off o, b.Mem c.maxShift x := by
  have hlt := orderToLevel_lt hc o
  refine and_congr_right fun _ ↦ ⟨fun h ↦ ?_, ?_⟩
  · have htest := h _ le_rfl
    rw [if_pos rfl, Buddy.pathTest_eq_true_iff hc hshow off hlt (isWidth_orderToWidth o)] at htest
    obtain ⟨k, hdiv, h1, h2, b, hb, hcov⟩ := htest
    obtain ⟨hle, x, hx, rfl⟩ := (Block.covers_iff_exists_mem (hU.wf b hb)
      (hc.three_mul_succ_le (hlevel b hb))).mp hcov
    exact ⟨b, hb, hle, x, ⟨h1, h2, hdiv⟩, hx⟩
  · rintro ⟨b, hb, hle, x, ⟨h1, h2, hdiv⟩, hx⟩ i hi
    have hcov := hx.covers (hU.wf b hb) (hc.three_mul_succ_le (hlevel b hb)) hle
    rw [Buddy.pathTest_eq_true_iff hc hshow off (hi.trans_lt hlt) (Cache.isWidth_ite o i)]
    -- a block in the window sets the bit of every ancestor of its cell
    rcases hi.eq_or_lt with rfl | hi
    · rw [if_pos rfl]
      exact ⟨_, hdiv, h1, h2, b, hb, hcov⟩
    · obtain ⟨d, hd⟩ := Nat.exists_eq_add_of_lt hi
      rw [if_neg hi.ne]
      refine ⟨addrCell c off i, rfl, le_rfl, Nat.lt_succ_self _, ?_⟩
      have hanc := hU.bitmap_ancestor (l := i) (k := d + 1) ⟨b, hb, by rwa [← add_assoc, ← hd]⟩
      have haddr := addrCell_ancestor hc off (l := i) (d := d + 1) (by rwa [← add_assoc, ← hd])
      rw [pow_succ', ← Nat.div_div_eq_div_mul] at hanc haddr
      rw [← haddr, ← add_assoc, ← hd, ← hdiv]
      exact hanc

namespace Ledger

/-- The rule: `FREE` succeeds exactly for a block that was granted and not yet freed. -/
def FreeExact (s : Ledger c) : Request c → Prop
  | .alloc _ => True
  | .free addr order =>
    (s.buddy.handler (.free addr order)).1.stat = 0 ↔ (addr, order) ∈ s.outstanding

instance (s : Ledger c) (req : Request c) : Decidable (s.FreeExact req) :=
  match req with
  | .alloc _ => isTrue trivial
  | .free addr order => inferInstanceAs (Decidable
      ((s.buddy.handler (.free addr order)).1.stat = 0 ↔ (addr, order) ∈ s.outstanding))

/-- The search of an `ALLOC` stays inside `buddy_set`, so that the replies after it are
determined. -/
def SearchStays (s : Ledger c) : Request c → Prop
  | .alloc order => (s.step (.alloc order)).buddy.cache.inBounds = true
  | .free _ _ => True

/-- Some level up to that of the order has a slot, or an order there is not. -/
def SlotFound (s : Ledger c) : Request c → Prop
  | .alloc order => c.orderMax - 1 ≤ order.toNat ∨
    ∃ l ≤ orderToLevel c order.toNat, (s.buddy.cache.slotAt order.toNat l).isSome
  | .free _ _ => True

/-- No block of the level of the order, or of a deeper one, has a byte in the window; unless the
request names a block on the list, or an order there is not. -/
def WindowClear (s : Ledger c) : Request c → Prop
  | .alloc _ => True
  | .free addr order =>
    c.orderMax - 1 ≤ order.toNat ∨ (addr, order) ∈ s.outstanding ∨
      ∀ b ∈ s.blocks, orderToLevel c order.toNat ≤ b.level →
        ∀ x ∈ window c (addr - s.base) order.toNat, ¬b.Mem c.maxShift x

theorem level_lt_of_mem_blocks (hc : c.Ok) {s : Ledger c} {b : Block} (hb : b ∈ s.blocks) :
    b.level < c.levelMax := by
  rcases List.mem_append.mp hb with hb | hb
  · obtain ⟨g, -, rfl⟩ := List.mem_map.mp hb
    exact orderToLevel_lt hc _
  · rw [List.mem_singleton.mp hb]
    exact orderToLevel_lt hc _

theorem Inv.stat_free_eq_zero_iff (hc : c.Ok) {s : Ledger c} (hs : s.Inv) (addr : BitVec 32)
    (order : BitVec c.orderMax) :
    (s.buddy.handler (.free addr order)).1.stat = 0 ↔
      Buddy.Accepts s.buddy.cache order.toNat (addr - s.base) := by
  constructor
  · intro h
    by_contra hacc
    have hstat := (Buddy.free_of_not_accepts hc hs.wf hs.freeSetOk hacc).1
    exact absurd (h.symm.trans hstat) (by decide)
  · exact Buddy.free_stat_of_accepts hc hs.wf hs.freeSetOk

theorem Inv.freeExact_iff (hc : c.Ok) (s : Ledger c) (req : Request c) (hs : s.Inv) :
    s.FreeExact req ↔ s.WindowClear req := by
  cases req with
  | alloc order => exact Iff.rfl
  | free addr order =>
    rw [FreeExact, hs.stat_free_eq_zero_iff hc, WindowClear]
    have hacc := accepts_iff hc hs.valid (fun b hb ↦ level_lt_of_mem_blocks hc hb) hs.shows_blocks
      order.toNat (addr - s.base)
    constructor
    · intro h
      -- a request that should be refused must find nothing in its window
      by_cases hmem : (addr, order) ∈ s.outstanding
      · exact Or.inr (Or.inl hmem)
      · by_cases ho : c.orderMax - 1 ≤ order.toNat
        · exact Or.inl ho
        · refine Or.inr (Or.inr fun b hb hle x hx hxb ↦ hmem (h.mp ?_))
          exact hacc.mpr ⟨not_le.mp ho, b, hb, hle, x, hx, hxb⟩
    · rintro (ho | hmem | hclear)
      · refine iff_of_false (fun h ↦ not_le.mpr h.1 ho) fun hmem ↦ ?_
        exact not_le.mpr (hs.isOffset _ hmem).lt_orderMax ho
      · refine iff_of_true ?_ hmem
        exact (hs.stat_free_eq_zero_iff hc addr order).mp (hs.free hc hmem).1
      · have hnot : ¬Buddy.Accepts s.buddy.cache order.toNat (addr - s.base) := by
          rw [hacc]
          rintro ⟨-, b, hb, hle, x, hx, hxb⟩
          exact hclear b hb hle x hx hxb
        refine iff_of_false hnot fun hmem ↦ hnot ?_
        exact (hs.stat_free_eq_zero_iff hc addr order).mp (hs.free hc hmem).1

/-- A request that is refused, or names a block on the list, keeps the invariant. -/
theorem Inv.step_windowClear (hc : c.Ok) (s : Ledger c) (req : Request c) (hs : s.Inv)
    (hg : s.WindowClear req) : (s.step req).Inv := by
  cases req with
  | alloc order => exact hs.step hc s _ trivial
  | free addr order =>
    by_cases hmem : (addr, order) ∈ s.outstanding
    · exact hs.step hc s _ hmem
    · have hstat := mt ((hs.freeExact_iff hc s _).mpr hg).mp hmem
      obtain ⟨hstat1, hfree, a, ha⟩ := Buddy.free_of_not_accepts hc hs.wf hs.freeSetOk
        (mt (hs.stat_free_eq_zero_iff hc addr order).mpr hstat)
      have heq : s.step (.free addr order)
          = ⟨(s.buddy.free order.toNat (addr - s.base)).2, s.outstanding⟩ := by
        rw [Ledger.step, if_neg hstat]
        rfl
      rw [heq]
      exact hs.congr hfree (by rw [ha]) (by rw [ha]) (by rw [ha])

/-- No search has passed level 0 so far. -/
structure Determined (s : Ledger c) : Prop where
  inv : s.Inv
  inBounds : s.buddy.cache.inBounds = true

variable {s : Ledger c}

theorem Determined.searchStays_iff (hc : c.Ok) (hs : s.Determined) (req : Request c) :
    s.SearchStays req ↔ s.SlotFound req := by
  cases req with
  | free addr order => exact Iff.rfl
  | alloc order =>
    have hcache : (s.step (.alloc order)).buddy.cache = (s.buddy.cache.alloc order.toNat).2.2 := rfl
    rw [SearchStays, SlotFound, hcache]
    by_cases ho : c.orderMax - 1 ≤ order.toNat
    · rw [Cache.alloc_of_le ho]
      exact iff_of_true hs.inBounds (Or.inl ho)
    · have ho' := not_le.mp ho
      rw [or_iff_right ho, Cache.exists_slotAt_iff]
      cases hfind : s.buddy.cache.lookUp (orderToLevel c order.toNat) (orderToWidth c order.toNat)
          (orderToLevel c order.toNat) with
      | none =>
        rw [Cache.alloc_of_lookUp_none ho' hfind]
        exact iff_of_false Bool.false_ne_true (not_not.mpr rfl)
      | some r =>
        obtain ⟨st, nr, idx⟩ := r
        obtain ⟨n, hslot⟩ := hs.inv.wf.slot_of_lookUp hc hfind
        have hgrant := hs.inv.wf.alloc hc hs.inv.valid hs.inv.shows_blocks ho' hfind hslot
        exact iff_of_true (hgrant.inBounds.trans hs.inBounds) (Option.some_ne_none _)

theorem Inv.inBounds_free (hc : c.Ok) (hs : s.Inv) {addr : BitVec 32} {order : BitVec c.orderMax}
    (hg : s.WindowClear (.free addr order)) :
    (s.step (.free addr order)).buddy.cache.inBounds = s.buddy.cache.inBounds := by
  by_cases hmem : (addr, order) ∈ s.outstanding
  · have hoff := hs.isOffset _ hmem
    obtain ⟨probe, b', a, hcache, hstart, -, hfree⟩ := Buddy.free_spec hc hs.wf hs.freeSetOk
      hs.valid hs.shows_blocks hoff.lt_orderMax (mem_blocks hmem) (hoff.isBlock hc)
      (denotes_blockAt hc _ _)
    have hclear := Buddy.clear_spec hc hs.valid (mem_blocks hmem) (hoff.isBlock hc)
      (denotes_blockAt hc _ _) probe _ le_rfl hstart
    have hbuddy : (s.step (.free addr order)).buddy = b'.clear probe (addr - s.base)
        (blockAt c (addr - s.base) order.toNat).level (blockAt c (addr - s.base) order.toNat).width
        (blockAt c (addr - s.base) order.toNat).level := congrArg Prod.snd hfree
    rw [hbuddy, hclear.inBounds, hcache]
  · have hstat := mt ((hs.freeExact_iff hc s _).mpr hg).mp hmem
    obtain ⟨-, -, a, ha⟩ := Buddy.free_of_not_accepts hc hs.wf hs.freeSetOk
      (mt (hs.stat_free_eq_zero_iff hc addr order).mpr hstat)
    change (s.buddy.free order.toNat (addr - s.base)).2.cache.inBounds = _
    rw [ha]

theorem Determined.step (hc : c.Ok) (s : Ledger c) (req : Request c) (hs : s.Determined)
    (hg : s.WindowClear req ∧ s.SlotFound req) : (s.step req).Determined := by
  refine ⟨hs.inv.step_windowClear hc s req hg.1, ?_⟩
  cases req with
  | alloc order => exact (hs.searchStays_iff hc _).mpr hg.2
  | free addr order => exact (hs.inv.inBounds_free hc hg.1).trans hs.inBounds

/-- **When `FREE` takes back exactly what was granted.** -/
theorem free_exact_iff (hc : c = .phys ∨ c = .virt) (b : BitVec 64) (reqs : List (Request c)) :
    Guarded step (fun s req ↦ s.FreeExact req ∧ s.SearchStays req) (init c b) reqs ↔
      Guarded step (fun s req ↦ s.WindowClear req ∧ s.SlotFound req) (init c b) reqs := by
  obtain ⟨hok, hm⟩ := Config.ok_of_built hc
  exact guarded_iff_of_invariant (Determined.step hok)
    (fun s req hs ↦ and_congr (hs.inv.freeExact_iff hok s req) (hs.searchStays_iff hok req))
    ⟨inv_init hok hm b, rfl⟩

/-- An order out of range is refused, and a block on the list is taken back. -/
theorem free_exact_iff_phys :
    Guarded step (fun s req ↦ s.FreeExact req ∧ s.SearchStays req) (init .phys 0)
      [.alloc 3, .free 0x400000 21, .free 0x400000 3] := by
  refine (free_exact_iff (Or.inl rfl) 0 _).mpr
    ⟨⟨trivial, Or.inr ⟨0, by decide, ?_⟩⟩, ⟨Or.inl (by decide), trivial⟩,
      ⟨Or.inr (Or.inl ?_), trivial⟩, trivial⟩
  all_goals decide +kernel

/-- Half of a block of order 3, a larger order at the same place, an address off the start of a
cell, an address outside the managed range and the block of the metadata are all taken. -/
theorem free_takes_other_blocks :
    (∀ req ∈ ([.free 0x400000 2, .free 0x400001 3, .free 0x40400000 3, .free 0 14] :
        List (Request .phys)), ¬(run step (init .phys 0) [.alloc 3]).FreeExact req) ∧
      ¬(run step (init .phys 0) [.alloc 2]).FreeExact (.free 0x400000 3) := by
  decide +kernel

end Ledger

end FpgaOs.Alloc
