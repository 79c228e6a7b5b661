import FpgaOs.Mapping.Permission
import FpgaOs.Mapping.RefusedGet

/-!
# Key 0

A slot that is not taken shows key 0, and `__compare` does not look at the bitmap. So a search for
key 0 may end at a slot that is not taken. For a `SET` this does no harm in DRAM, where the slot is
the one it would have taken anyway. In BRAM the slot is written without being marked, so that the
mapping is lost when the slot is taken. And a `GET` takes such a slot as a hit.

`Tables.Tracks` is agreement with the map for all keys: only slots that are taken count. It is kept
by every request other than one for key 0 whose search may end at a slot that is not taken, and a
write `GET` that promotes the empty mapping into the BRAM bucket of key 0, where it looks like an
entry.
-/

namespace FpgaOs.Mapping

open Linked PipelineInfo

/-! ## A bucket of the cache -/

/-- The slots of a BRAM bucket that are taken hold entries of the map, each at most once; but in
other buckets than its own key 0 may be in slots that are taken without being an entry. -/
structure Copied (μ : PageMap) (index : BitVec 6) (hb : Bucket) : Prop where
  low : ∀ i j, i < j → hb.used j = true → hb.used i = true
  blank : ∀ i, hb.used i = false → hb.key i = 0
  home : ∀ i, hb.key i ≠ 0 → (hb.key i).setWidth 6 = index
  current : ∀ i, hb.used i = true → (hb.key i).setWidth 6 = index →
    ∃ p, μ (hb.key i) = some (hb.val i, p)
  unique : ∀ i j, hb.used i = true → hb.used j = true → (hb.key i).setWidth 6 = index →
    hb.key i = hb.key j → i = j

section Copied

variable {μ μ' : PageMap} {index : BitVec 6} {hb hb' : Bucket} {k v : BitVec 32} {p : Bool}

theorem Copied.zero (μ : PageMap) (index : BitVec 6) : Copied μ index 0 := by
  have hfree : ∀ i, ¬Bucket.used 0 i = true := fun i ↦ by
    rw [Bucket.used_zero]
    exact Bool.false_ne_true
  constructor
  · exact fun i j _ hused ↦ absurd hused (hfree j)
  · exact fun i _ ↦ Bucket.key_zero i
  · exact fun i hne ↦ absurd (Bucket.key_zero i) hne
  · exact fun i hused ↦ absurd hused (hfree i)
  · exact fun i j hused ↦ absurd hused (hfree i)

theorem Copied.used_of_key_ne (h : Copied μ index hb) {i : Slot} (hne : hb.key i ≠ 0) :
    hb.used i = true := by
  by_contra hfree
  exact hne (h.blank i (by simpa using hfree))

theorem Copied.cached (h : Copied μ index hb) : Cached μ index hb where
  home := h.home
  current i hne := h.current i (h.used_of_key_ne hne) (h.home i hne)
  unique i j hne heq := h.unique i j (h.used_of_key_ne hne) (h.used_of_key_ne (heq ▸ hne))
    (h.home i hne) heq

theorem Copied.write (h : Copied μ index hb) {s : Slot}
    (hused : ∀ j, hb'.used j = if j = s then true else hb.used j)
    (hkey : ∀ j, hb'.key j = if j = s then k else hb.key j)
    (hval : ∀ j, hb'.val j = if j = s then v else hb.val j)
    (hlow : ∀ j < s, hb.used j = true)
    (honly : k.setWidth 6 = index → ∀ j, hb.used j = true → hb.key j = k → j = s)
    (hhome : k ≠ 0 → k.setWidth 6 = index)
    (hμ : k.setWidth 6 = index → ∃ p, μ' k = some (v, p))
    (hother : ∀ k' ≠ k, μ' k' = μ k') : Copied μ' index hb' := by
  constructor
  · intro i j hij
    rw [hused, hused]
    by_cases hj : j = s
    · rw [hlow i (hj ▸ hij), ite_self]
      exact fun _ ↦ rfl
    · rw [if_neg hj]
      intro hold
      rw [h.low i j hij hold, ite_self]
  · intro j
    rw [hused, hkey]
    split
    · exact nofun
    · exact h.blank j
  · intro j
    rw [hkey]
    split
    · exact hhome
    · exact h.home j
  · intro j
    rw [hused, hkey, hval]
    by_cases hj : j = s
    · simp only [if_pos hj]
      exact fun _ ↦ hμ
    · simp only [if_neg hj]
      intro hold hindex
      -- a key that is still there is not the new one
      have hne : hb.key j ≠ k := fun hk ↦ hj (honly (hk ▸ hindex) j hold hk)
      rw [hother _ hne]
      exact h.current j hold hindex
  · intro i j
    rw [hused, hused, hkey, hkey]
    by_cases hi : i = s
    · by_cases hj : j = s
      · exact fun _ _ _ _ ↦ hi.trans hj.symm
      · simp only [if_pos hi, if_neg hj]
        exact fun _ hold hindex heq ↦ absurd (honly hindex j hold heq.symm) hj
    · by_cases hj : j = s
      · simp only [if_neg hi, if_pos hj]
        exact fun hold _ hindex heq ↦ absurd (honly (heq ▸ hindex) i hold heq) hi
      · simp only [if_neg hi, if_neg hj]
        exact h.unique i j

/-- The mapping of key 0 is written to a slot that is not taken and stays so. -/
theorem Copied.shadow (h : Copied μ index hb) {s : Slot} (hfree : hb.used s = false)
    (hnone : ∀ j, hb.used j = true → hb.key j ≠ 0) (x : Option (BitVec 32 × Bool)) :
    Copied (Function.update μ 0 x) index (hb.replace s 0 v p) := by
  have hkey : ∀ j, (hb.replace s 0 v p).key j = hb.key j := by
    intro j
    rw [Bucket.key_replace]
    split
    · next hj => rw [hj, h.blank s hfree]
    · rfl
  constructor
  · intro i j
    rw [Bucket.used_replace, Bucket.used_replace]
    exact h.low i j
  · intro j
    rw [Bucket.used_replace, hkey]
    exact h.blank j
  · intro j
    rw [hkey]
    exact h.home j
  · intro j
    rw [Bucket.used_replace, hkey, Bucket.val_replace]
    intro hused hindex
    have hj : j ≠ s := by
      rintro rfl
      rw [hused] at hfree
      cases hfree
    rw [if_neg hj, Function.update_of_ne (hnone j hused)]
    exact h.current j hused hindex
  · intro i j
    rw [Bucket.used_replace, Bucket.used_replace, hkey, hkey]
    exact h.unique i j

theorem Bucket.used_of_lt_findEmptySlot (hb : Bucket) {j : Slot} (hj : j < hb.findEmptySlot) :
    hb.used j = true := by
  rcases hb.findEmptySlot_spec with ⟨-, hlow⟩ | ⟨hfull, -⟩
  · exact hlow j hj
  · exact hfull j

/-- A search that ends at a slot that is not taken is for key 0, which is in no slot that is. -/
theorem Copied.hit_free (h : Copied μ index hb) {s : Slot} (hcmp : hb.compare k = some s)
    (hfree : hb.used s = false) : k = 0 ∧ ∀ j, hb.used j = true → hb.key j ≠ 0 := by
  obtain rfl : k = 0 := (Bucket.key_of_compare hcmp).symm.trans (h.blank s hfree)
  refine ⟨rfl, fun j hj hkey ↦ ?_⟩
  rcases lt_trichotomy j s with hlt | rfl | hgt
  · exact Bucket.key_ne_of_lt hcmp hlt hkey
  · rw [hj] at hfree
    cases hfree
  · rw [h.low s j hgt hj] at hfree
    cases hfree

/-- **A `SET` keeps its bucket of the cache current**, whatever its key is. -/
theorem Copied.cache (h : Copied μ index hb) (hindex : k.setWidth 6 = index) :
    Copied (Function.update μ k (some (v, p))) index (hb.cache k v p) := by
  rw [Bucket.cache]
  cases hcmp : hb.compare k with
  | none =>
    refine h.write (s := hb.findEmptySlot) (fun j ↦ ?_) (fun j ↦ ?_) (fun j ↦ ?_)
      (fun j ↦ hb.used_of_lt_findEmptySlot)
      (fun _ j _ hj ↦ absurd hj (Bucket.compare_eq_none.mp hcmp j)) (fun _ ↦ hindex)
      (fun _ ↦ ⟨p, Function.update_self ..⟩) fun k' hne ↦ Function.update_of_ne hne ..
    · rw [Bucket.used_replace, Bucket.used_take]
    · rw [Bucket.key_replace, Bucket.key_take]
    · rw [Bucket.val_replace, Bucket.val_take]
  | some s =>
    have hs := Bucket.key_of_compare hcmp
    dsimp only
    cases hused : hb.used s with
    | true =>
      refine h.write (s := s) (fun j ↦ ?_) (Bucket.key_replace _ _ · _ _ _)
        (Bucket.val_replace _ _ · _ _ _) (fun j hj ↦ h.low j s hj hused)
        (fun _ j hj hkey ↦ h.unique j s hj hused (by rw [hkey, hindex]) (hkey.trans hs.symm))
        (fun _ ↦ hindex) (fun _ ↦ ⟨p, Function.update_self ..⟩)
        fun k' hne ↦ Function.update_of_ne hne ..
      rw [Bucket.used_replace]
      split
      · next hj => rw [hj, hused]
      · rfl
    | false =>
      obtain ⟨rfl, hnone⟩ := h.hit_free hcmp hused
      exact h.shadow hused hnone _

/-- A `SET` of a key that belongs elsewhere does not concern a bucket. -/
theorem Copied.elsewhere (h : Copied μ index hb) (hindex : k.setWidth 6 ≠ index)
    (x : Option (BitVec 32 × Bool)) : Copied (Function.update μ k x) index hb where
  low := h.low
  blank := h.blank
  home := h.home
  current i hused hi := by
    have hne : hb.key i ≠ k := by
      rintro rfl
      exact hindex hi
    rw [Function.update_of_ne hne]
    exact h.current i hused hi
  unique := h.unique

/-- **A promotion keeps its bucket of the cache current**, if the mapping is an entry or does not
look like one. -/
theorem Copied.promote (h : Copied μ index hb)
    (hcmp : k.setWidth 6 = index → hb.compare k = none) (hhome : k ≠ 0 → k.setWidth 6 = index)
    (hμ : k.setWidth 6 = index → ∃ p, μ k = some (v, p)) :
    Copied μ index (hb.promote hb.findEmptySlot k v) :=
  h.write (Bucket.used_promote _ _ · _ _) (Bucket.key_promote _ _ · _ _)
    (Bucket.val_promote _ _ · _ _) (fun _ ↦ hb.used_of_lt_findEmptySlot)
    (fun hindex j _ hj ↦ absurd hj (Bucket.compare_eq_none.mp (hcmp hindex) j)) hhome hμ
    fun _ _ ↦ rfl

end Copied

/-! ## The tables and the map -/

/-- **The tables agree with the map** on all keys. -/
structure Tables.Tracks (e : Env) (t : Tables) (f : BitVec 10 → List (BitVec 26)) (μ : PageMap) :
    Prop where
  orderly : t.Orderly e f
  has : ∀ k v p, Has (t.bucket e) f k v p ↔ μ k = some (v, p)
  copied : ∀ index, Copied μ index (t.bram index)

/-- A search for key 0 cannot end at a slot that is not taken: all slots are, in its BRAM bucket and
on its chain, or one that is taken has the key. -/
def Tables.ZeroShown (e : Env) (t : Tables) : Prop :=
  ((∀ i, (t.bram 0).used i = true) ∨ ∃ i, (t.bram 0).used i = true ∧ (t.bram 0).key i = 0)
    ∧ ∃ l, Chain (next (t.bucket e)) (root 0) l ∧ ((∀ a ∈ l, ∀ i, (t.bucket e a).used i = true)
      ∨ ∃ a ∈ l, ∃ i, (t.bucket e a).used i = true ∧ (t.bucket e a).key i = 0)

/-- The searches for a key, in BRAM and on its chain, end at slots that are taken, if they find the
key. -/
def Tables.HitsTaken (e : Env) (t : Tables) (k : BitVec 32) : Prop :=
  (∀ i, (t.bram (k.setWidth 6)).compare k = some i → (t.bram (k.setWidth 6)).used i = true)
    ∧ ∀ l, Chain (next (t.bucket e)) (root k) l → ∀ a i, findKey (t.bucket e) l k = some (a, i) →
      (t.bucket e a).used i = true

/-- A request for key 0 comes when its search cannot end at a slot that is not taken, and no `GET`
promotes the empty mapping into the BRAM bucket of key 0. -/
def Tables.ZeroSafe (e : Env) (t : Tables) (q : Call) : Prop :=
  (q.2.address = 0 → t.ZeroShown e) ∧ ¬(q.2.index = 0 ∧ t.Spoils e q)

namespace Tables

variable {e : Env} {t : Tables} {f : BitVec 10 → List (BitVec 26)} {μ : PageMap} {q : Call}

theorem Initial.tracks (h : t.Initial e) : t.Tracks e (fun r ↦ [r.setWidth 26]) fun _ ↦ none where
  orderly := h.sound.orderly
  has k v p := iff_of_false (not_has_init h) nofun
  copied index := by
    rw [h.bram]
    exact Copied.zero _ _

theorem Tracks.shows (h : t.Tracks e f μ) : t.Shows e f μ where
  chains := h.orderly.chains
  holds k hk v p := (h.orderly.stocked.holds_iff hk).trans (h.has k v p)
  cached index := (h.copied index).cached

/-- If the searches for key 0 end at slots that are taken, then each bucket is full or one of its
taken slots has the key: an untaken slot is blank, so the search would have found it. -/
theorem Tracks.zeroShown (h : t.Tracks e f μ) (htaken : t.HitsTaken e 0) : t.ZeroShown e := by
  have hst := h.orderly.stocked
  obtain ⟨hbram, hdram⟩ := htaken
  refine ⟨?_, _, h.shows.chain 0, ?_⟩
  · by_cases hfull : ∀ i, (t.bram 0).used i = true
    · exact .inl hfull
    · obtain ⟨i, hfree⟩ := not_forall.mp hfull
      cases hcmp : (t.bram 0).compare 0 with
      | none =>
        have hblank := (h.copied 0).blank i (by simpa using hfree)
        exact absurd hblank (Bucket.compare_eq_none.mp hcmp i)
      | some s => exact .inr ⟨s, hbram s hcmp, Bucket.key_of_compare hcmp⟩
  · by_cases hfull : ∀ a ∈ f ((0 : BitVec 32).setWidth 10), ∀ i, (t.bucket e a).used i = true
    · exact .inl hfull
    · simp only [not_forall] at hfull
      obtain ⟨a, ha, i, hfree⟩ := hfull
      cases hkey : findKey (t.bucket e) (f ((0 : BitVec 32).setWidth 10)) 0 with
      | none =>
        have hblank := hst.blank _ a ha i (by simpa using hfree)
        exact absurd hblank (findKey_eq_none.mp hkey a ha i)
      | some x =>
        obtain ⟨hx, hkeyx⟩ := mem_of_findKey hkey
        exact .inr ⟨x.1, hx, x.2, hdram _ (h.shows.chain 0) _ _ hkey, hkeyx⟩

/-- And then they do: a slot that is not taken can be hit for key 0 only, and only if the bucket is
not full and none of its taken slots has the key. -/
theorem Tracks.hitsTaken (h : t.Tracks e f μ) {k : BitVec 32} (hshown : k = 0 → t.ZeroShown e) :
    t.HitsTaken e k := by
  have hst := h.orderly.stocked
  constructor
  · intro i hcmp
    by_contra hfree
    have hfree : (t.bram (k.setWidth 6)).used i = false := by simpa using hfree
    obtain ⟨rfl, hnone⟩ := (h.copied _).hit_free hcmp hfree
    obtain ⟨hall | ⟨j, hused, hkey⟩, -⟩ := hshown rfl
    · have hused := hall i
      rw [show (t.bram 0).used i = false from hfree] at hused
      cases hused
    · exact hnone j hused hkey
  · intro l hl a i hkey
    by_contra hfree
    have hfree : (t.bucket e a).used i = false := by simpa using hfree
    obtain rfl := hl.unique (h.shows.chain k)
    obtain ⟨ha, hkeyi⟩ := mem_of_findKey hkey
    obtain rfl : k = 0 := hkeyi.symm.trans (hst.blank _ a ha i hfree)
    obtain ⟨-, l', hl', hall | ⟨b, hb, j, hused, hkeyj⟩⟩ := hshown rfl
    · rw [hall a (hl'.unique hl ▸ ha) i] at hfree
      cases hfree
    · exact (hst.hit_free hl hkey hfree).2 b (hl'.unique hl ▸ hb) j hused hkeyj

/-- **When a search cannot end at a slot that is not taken.** -/
theorem Tracks.hitsTaken_iff (h : t.Tracks e f μ) (k : BitVec 32) :
    t.HitsTaken e k ↔ (k = 0 → t.ZeroShown e) := by
  refine ⟨?_, h.hitsTaken⟩
  rintro htaken rfl
  exact h.zeroShown htaken

/-- Then the searches end where the map says, for key 0 too. -/
theorem Tracks.finds (h : t.Tracks e f μ) {k : BitVec 32} (hzero : k = 0 → t.ZeroShown e) :
    t.Finds e (f (k.setWidth 10)) μ k := by
  obtain ⟨hbram, hdram⟩ := (h.hitsTaken_iff k).mpr hzero
  constructor
  · exact h.shows.chain k
  · exact h.shows.nodup k
  · intro i hcmp
    have hkey := Bucket.key_of_compare hcmp
    obtain ⟨p, hμ⟩ := (h.copied _).current i (hbram i hcmp) (by rw [hkey])
    rw [hkey] at hμ
    exact ⟨p, hμ⟩
  · intro hkey
    cases hμ : μ k with
    | none => rfl
    | some x =>
      obtain ⟨a, ha, i, -, hkeyi, -⟩ := (h.has k x.1 x.2).mpr hμ
      exact absurd hkeyi (findKey_eq_none.mp hkey a ha i)
  · intro a i hkey
    obtain ⟨ha, hkeyi⟩ := mem_of_findKey hkey
    exact (h.has k _ _).mp ⟨a, ha, i, hdram _ (h.shows.chain k) a i hkey, hkeyi, rfl, rfl⟩

/-! ## One request -/

theorem Tracks.step_set (h : t.Tracks e f μ) (hset : q.2.isSet = true)
    (hfresh : e.Fresh (t.step e q).allocs) (hgranted : ¬Starved e t q) :
    ∃ f', (t.step e q).Tracks e f' (μ.record q) := by
  have hl := h.shows.chain q.2.address
  have hnodup := h.shows.nodup q.2.address
  obtain ⟨hst, -⟩ := t.stored_serve (c := q.1) hl hnodup
  obtain ⟨hbram, -⟩ := serve_set (c := q.1) hset hl hnodup
  obtain ⟨f', hf', ⟨-, -, hrefused⟩ | ⟨-, hhas⟩⟩ := h.orderly.stored hst hfresh
  · exact absurd ⟨hset, hrefused hset⟩ hgranted
  refine ⟨f', hf', fun k v p ↦ ?_, fun index ↦ ?_⟩
  · rw [PageMap.record_set μ hset, Function.update_apply]
    refine (hhas k v p).trans ?_
    split
    · simp [eq_comm]
    · exact h.has k v p
  · rw [PageMap.record_set μ hset]
    change Copied _ index ((t.serve e q.1 q.2).1.bram index)
    rw [hbram]
    by_cases hindex : index = q.2.index
    · subst hindex
      rw [Function.update_self]
      exact (h.copied q.2.index).cache rfl
    · rw [Function.update_of_ne hindex]
      exact (h.copied index).elsewhere (fun heq ↦ hindex heq.symm) _

theorem Tracks.promoted (h : t.Tracks e f μ) {r : MappingRequest} {k v : BitVec 32}
    (hk : (k = r.address ∧ ∃ p, μ k = some (v, p)) ∨ (k = 0 ∧ r.index ≠ 0)) :
    (t.promoted r k v).Tracks e f μ := by
  refine ⟨⟨?_, ?_⟩, ?_, fun index ↦ ?_⟩
  · rw [bucket_promoted, allocs_promoted]
    exact h.orderly.chains
  · rw [bucket_promoted]
    exact h.orderly.stocked
  · rw [bucket_promoted]
    exact h.has
  by_cases hcmp : (t.bram r.index).compare r.address = none
  swap
  · rw [Tables.promoted, if_pos (Option.isSome_iff_ne_none.mpr hcmp)]
    exact h.copied index
  rw [bram_promoted hcmp]
  by_cases hindex : index = r.index
  swap
  · rw [Function.update_of_ne hindex]
    exact h.copied index
  subst hindex
  rw [Function.update_self]
  rcases hk with ⟨rfl, hμ⟩ | ⟨rfl, hne⟩
  · exact (h.copied r.index).promote (fun _ ↦ hcmp) (fun _ ↦ rfl) fun _ ↦ hμ
  · exact (h.copied r.index).promote (fun heq ↦ absurd heq.symm hne) (fun hzero ↦ absurd rfl hzero)
      fun heq ↦ absurd heq.symm hne

theorem Tracks.step_get (h : t.Tracks e f μ) (hget : q.2.isGet = true) (hsafe : t.ZeroSafe e q) :
    (t.step e q).Tracks e f μ := by
  have hfinds := h.finds hsafe.1
  rcases hfinds.get_effect hget with ⟨hstep, -⟩ | ⟨v, p, hμ, ⟨-, hstep⟩ | ⟨⟨hrw, rfl⟩, hstep⟩⟩
  · rw [hstep]
    exact h
  · rw [hstep]
    exact h.promoted (.inl ⟨rfl, p, hμ⟩)
  · rw [hstep]
    by_cases hcmp : (t.bram q.2.index).compare q.2.address = none
    swap
    · rw [Tables.promoted, if_pos (Option.isSome_iff_ne_none.mpr hcmp)]
      exact h
    refine h.promoted (.inr ⟨rfl, fun hindex ↦ hsafe.2 ⟨hindex, ?_⟩⟩)
    rw [spoils_iff hfinds.chain]
    refine ⟨write_of_isGet hget hrw, hcmp, ?_⟩
    cases hkey : findKey (t.bucket e) (f (q.2.address.setWidth 10)) q.2.address with
    | none =>
      rw [hfinds.absent hkey] at hμ
      cases hμ
    | some x =>
      rw [hfinds.found _ _ hkey] at hμ
      exact ⟨x.1, x.2, rfl, (Prod.mk.inj (Option.some.inj hμ)).2⟩

/-- **A request keeps the tables in agreement with the map** on all keys. -/
theorem Tracks.step (h : t.Tracks e f μ) (hsafe : t.ZeroSafe e q)
    (hgrants : Grants e (t.step e q).allocs) : ∃ f', (t.step e q).Tracks e f' (μ.record q) := by
  cases hset : q.2.isSet with
  | true => exact h.step_set hset hgrants.toFresh hgrants.not_starved
  | false =>
    rw [μ.record_other hset]
    cases hget : q.2.isGet with
    | true => exact ⟨f, h.step_get hget hsafe⟩
    | false =>
      rw [h.shows.step_unknown hset hget]
      exact ⟨f, h⟩

/-- A request for key 0 does not touch the permission bits of other keys. -/
theorem Tracks.permitted_step_zero (h : t.Tracks e f μ) (hsafe : t.ZeroSafe e q)
    (hp : Permitted t μ) (hk : q.2.address = 0) : Permitted (t.step e q) (μ.record q) := by
  cases hset : q.2.isSet with
  | true =>
    obtain ⟨hbram, -⟩ := serve_set (c := q.1) hset (h.shows.chain q.2.address) (h.shows.nodup _)
    obtain ⟨s, -, hkey, -, hperm⟩ :=
      (t.bram q.2.index).exists_cache_slot q.2.address q.2.length q.2.rw
    rw [PageMap.record_set μ hset, hk]
    rw [hk] at hbram hkey hperm
    refine (Permitted.update hp hbram fun i _ j hne ↦ Function.update_of_ne hne ..).mpr ?_
    intro j hne
    rw [hkey] at hne
    rw [hperm, hkey]
    by_cases hj : j = s
    · exact absurd (if_pos hj) hne
    · rw [if_neg hj] at hne
      rw [if_neg hj, if_neg hj, Function.update_of_ne hne]
      exact hp q.2.index j hne
  | false =>
    rw [μ.record_other hset]
    cases hget : q.2.isGet with
    | false =>
      rwa [h.shows.step_unknown hset hget]
    | true =>
      have hpromoted : ∀ v, Permitted (t.promoted q.2 0 v) μ := by
        intro v
        by_cases hcmp : (t.bram q.2.index).compare q.2.address = none
        · exact (permitted_promoted hp hcmp).mpr fun hne ↦ absurd rfl hne
        · rwa [Tables.promoted, if_pos (Option.isSome_iff_ne_none.mpr hcmp)]
      rcases (h.finds hsafe.1).get_effect hget with
        ⟨hstep, -⟩ | ⟨v, p, -, ⟨-, hstep⟩ | ⟨-, hstep⟩⟩
      · rwa [hstep]
      · rw [hstep, hk]
        exact hpromoted v
      · rw [hstep]
        exact hpromoted 0

/-! ## Runs -/

theorem tracks_run (hinit : t.Initial e) {qs : List Call}
    (hsafe : Machine.Guarded (Tables.step e) (ZeroSafe e) t qs)
    (hgrants : Grants e (Machine.run (Tables.step e) t qs).allocs) :
    ∃ f, (Machine.run (Tables.step e) t qs).Tracks e f (latest qs) := by
  induction qs using List.reverseRecOn with
  | nil => exact ⟨_, hinit.tracks⟩
  | append_singleton qs q ih =>
    rw [Machine.guarded_append, Machine.guarded_cons] at hsafe
    rw [Machine.run_concat] at hgrants ⊢
    obtain ⟨f, hf⟩ := ih hsafe.1 (hgrants.mono (allocs_le_step q))
    rw [latest_concat]
    exact hf.step hsafe.2.1 hgrants

end Tables

/-- No request for a key other than 0 escalates; see `Escalates`. -/
def Unescalated (e : Env) (t : Tables) (qs : List Call) : Prop :=
  ∀ pre q, pre ++ [q] <+: qs → q.2.address ≠ 0 →
    ¬Escalates (Machine.run (Tables.step e) t pre) (latest pre) q

/-- A `GET` gets a value, or failure. -/
def Tables.Gets (e : Env) (t : Tables) (q : Call) (x : Option (BitVec 32)) : Prop :=
  ∃ reply, (t.serve e q.1 q.2).2 = some reply ∧ match x with
    | some v => reply.status = piOutputSucceed ∧ reply.address = v
    | none => reply.status = piOutputFailure

/-- What a `GET` should get, by the entry of its key. -/
def lookup (entry : Option (BitVec 32 × Bool)) (rw : Bool) : Option (BitVec 32) :=
  match entry with
  | some (v, p) => if rw && !p then none else some v
  | none => none

section Answers

variable {e : Env} {t : Tables} {f : BitVec 10 → List (BitVec 26)} {μ : PageMap} {q : Call}
  {l : List (BitVec 26)}

theorem Tables.Finds.gets_none (h : t.Finds e l μ q.2.address) (hget : q.2.isGet = true)
    (hμ : μ q.2.address = none) : t.Gets e q none := by
  obtain ⟨reply, hreply, -, hanswer⟩ := h.answers hget
  have hfailure := hanswer hget
  rw [hμ] at hfailure
  exact ⟨reply, hreply, hfailure⟩

theorem Tables.Finds.gets_read (h : t.Finds e l μ q.2.address)
    (hread : q.2.opcode = mappingRequestRead) {v : BitVec 32} {p : Bool}
    (hμ : μ q.2.address = some (v, p)) : t.Gets e q (some v) := by
  have hget : q.2.isGet = true := by rw [MappingRequest.isGet, hread]; rfl
  have hrw : q.2.rw = false := by rw [MappingRequest.rw, hread]; rfl
  obtain ⟨reply, hreply, -, hanswer⟩ := h.answers hget
  have hvalue := hanswer hget
  rw [hμ, hrw] at hvalue
  exact ⟨reply, hreply, hvalue fun hwrite ↦ absurd hwrite Bool.false_ne_true⟩

/-- A `GET` of another key than 0 gets what the map says; one for writing does if the permission
bits in BRAM are backed. -/
theorem Tables.Shows.gets (h : t.Shows e f μ) (hk : q.2.address ≠ 0) (hget : q.2.isGet = true)
    (hread : q.2.opcode = mappingRequestRead ∨ Permitted t μ) :
    t.Gets e q (lookup (μ q.2.address) q.2.rw) := by
  by_cases hop : q.2.opcode = mappingRequestRead
  · have hrw : q.2.rw = false := by rw [MappingRequest.rw, hop]; rfl
    rw [hrw]
    cases hμ : μ q.2.address with
    | none => exact (h.finds hk).gets_none hget hμ
    | some x => exact (h.finds hk).gets_read hop hμ
  · have hrw : q.2.rw = true := by
      by_contra hrw
      exact hop (Tables.read_of_isGet hget (by simpa using hrw))
    obtain ⟨reply, hreply, hanswer⟩ := h.writeSafe_iff.mpr (hread.resolve_left hop) q.1 q.2
      (Tables.write_of_isGet hget hrw) hk
    refine ⟨reply, hreply, ?_⟩
    rw [hrw]
    rcases hμ : μ q.2.address with _ | ⟨v, _ | _⟩ <;> rw [hμ] at hanswer <;> exact hanswer

end Answers

section Runs

variable {e : Env} {t : Tables} {qs : List Call}

theorem permitted_run (hinit : t.Initial e)
    (hshows : ∀ pre, pre <+: qs → ∃ f, (Machine.run (Tables.step e) t pre).Shows e f (latest pre))
    (hzero : ∀ pre q, pre ++ [q] <+: qs → q.2.address = 0 →
      Permitted (Machine.run (Tables.step e) t pre) (latest pre) →
        Permitted (Machine.run (Tables.step e) t (pre ++ [q])) (latest (pre ++ [q])))
    (hesc : Unescalated e t qs) : Permitted (Machine.run (Tables.step e) t qs) (latest qs) := by
  induction qs using List.reverseRecOn with
  | nil =>
    intro index i hne
    rw [Machine.run_nil, hinit.bram] at hne
    exact absurd (Bucket.key_zero i) hne
  | append_singleton qs q ih =>
    have hqs : qs <+: qs ++ [q] := List.prefix_append _ _
    have hp := ih (fun pre hpre ↦ hshows pre (hpre.trans hqs))
      (fun pre q' hpre ↦ hzero pre q' (hpre.trans hqs))
      fun pre q' hpre ↦ hesc pre q' (hpre.trans hqs)
    by_cases hk : q.2.address = 0
    · exact hzero qs q (List.prefix_refl _) hk hp
    · obtain ⟨f, hf⟩ := hshows qs hqs
      rw [Machine.run_concat, latest_concat]
      exact (hf.permitted_step hp hk).mpr (hesc qs q (List.prefix_refl _) hk)

/-- The requests for keys other than 0. -/
def others (qs : List Call) : List Call := qs.filter fun q ↦ q.2.address != 0

theorem address_ne_of_mem_others {q : Call} (h : q ∈ others qs) : q.2.address ≠ 0 := by
  simpa using (List.mem_filter.mp h).2

theorem latest_others {k : BitVec 32} (hk : k ≠ 0) : latest (others qs) k = latest qs k := by
  induction qs using List.reverseRecOn with
  | nil => rfl
  | append_singleton qs q ih =>
    rw [others, List.filter_append, latest_concat, ← others]
    by_cases hq : q.2.address = 0
    · rw [List.filter_cons_of_neg (by simp [hq]), List.filter_nil, List.append_nil, ih,
        PageMap.record]
      split
      · rw [hq, Function.update_of_ne hk]
      · rfl
    · rw [List.filter_cons_of_pos (by simpa using hq), List.filter_nil, latest_concat,
        PageMap.record, PageMap.record]
      split
      · rw [Function.update_apply, Function.update_apply, ih]
      · exact ih

/-- The tables at every point of a run whose requests meet the conditions. -/
theorem tracks_prefix (hinit : t.Initial e)
    (hgrants : Tables.Grants e (Machine.run (Tables.step e) t qs).allocs)
    (hsafe : Machine.Guarded (Tables.step e) (Tables.ZeroSafe e) t qs) {pre : List Call}
    (hpre : pre <+: qs) : ∃ f, (Machine.run (Tables.step e) t pre).Tracks e f (latest pre) := by
  obtain ⟨post, rfl⟩ := hpre
  rw [Machine.run_append] at hgrants
  exact Tables.tracks_run hinit (Machine.guarded_append.mp hsafe).1
    (hgrants.mono (Tables.allocs_le_run _ post))

theorem shows_others (hinit : t.Initial e)
    (hgrants : Tables.Grants e (Machine.run (Tables.step e) t (others qs)).allocs)
    {pre : List Call} (hpre : pre <+: others qs) :
    ∃ f, (Machine.run (Tables.step e) t pre).Shows e f (latest pre) := by
  obtain ⟨post, hpost⟩ := hpre
  rw [← hpost, Machine.run_append] at hgrants
  obtain ⟨f, hf⟩ := Tables.agrees_run hinit (fun q hq ↦ address_ne_of_mem_others
    (hpost ▸ List.mem_append_left post hq)) (hgrants.mono (Tables.allocs_le_run _ post))
  exact ⟨f, hf.shows⟩

theorem permitted_prefix (hinit : t.Initial e)
    (hgrants : Tables.Grants e (Machine.run (Tables.step e) t qs).allocs)
    (hsafe : Machine.Guarded (Tables.step e) (Tables.ZeroSafe e) t qs) {pre : List Call}
    (hpre : pre <+: qs) (hesc : Unescalated e t pre) :
    Permitted (Machine.run (Tables.step e) t pre) (latest pre) := by
  refine permitted_run hinit (fun pre' hpre' ↦ ?_) (fun pre' q hpre' hzero hp ↦ ?_) hesc
  · obtain ⟨f, hf⟩ := tracks_prefix hinit hgrants hsafe (hpre'.trans hpre)
    exact ⟨f, hf.shows⟩
  · obtain ⟨f, hf⟩ := tracks_prefix hinit hgrants hsafe
      ((List.prefix_append _ _).trans (hpre'.trans hpre))
    obtain ⟨post, rfl⟩ := hpre'.trans hpre
    rw [List.append_assoc, Machine.guarded_append] at hsafe
    rw [Machine.run_concat, latest_concat]
    exact hf.permitted_step_zero hsafe.2.1 hp hzero

theorem permitted_others (hinit : t.Initial e)
    (hgrants : Tables.Grants e (Machine.run (Tables.step e) t (others qs)).allocs)
    {pre : List Call} (hpre : pre <+: others qs) (hesc : Unescalated e t pre) :
    Permitted (Machine.run (Tables.step e) t pre) (latest pre) := by
  refine permitted_run hinit (fun pre' hpre' ↦ shows_others hinit hgrants (hpre'.trans hpre))
    (fun pre' q hpre' hzero _ ↦ ?_) hesc
  exact absurd hzero (address_ne_of_mem_others ((hpre'.trans hpre).subset
    (List.mem_append_right _ (List.mem_singleton_self q))))

/-- **When key 0 is an ordinary key.** Take a run whose allocations succeed, in which every request
for key 0 comes when its search cannot end at a slot that is not taken, and no `GET` promotes the
empty mapping into the BRAM bucket of key 0. Then all requests hit only slots that are taken. A
`GET` of key 0 fails before any `SET` of it, and one for reading gets the latest value after that. A
`GET` of another key gets what it would without the requests for key 0; one for writing does unless
permission has been gained by a promotion. -/
theorem key_zero_ordinary (hinit : t.Initial e)
    (hgrants : Tables.Grants e (Machine.run (Tables.step e) t qs).allocs)
    (hgrants' : Tables.Grants e (Machine.run (Tables.step e) t (others qs)).allocs)
    (hsafe : Machine.Guarded (Tables.step e) (Tables.ZeroSafe e) t qs) (pre : List Call) (q : Call)
    (hpre : pre ++ [q] <+: qs) :
    (Machine.run (Tables.step e) t pre).HitsTaken e q.2.address
      ∧ (q.2.isGet = true →
        (q.2.address = 0 → latest pre 0 = none →
            (Machine.run (Tables.step e) t pre).Gets e q none)
          ∧ (q.2.address = 0 → q.2.opcode = mappingRequestRead → ∀ v p, latest pre 0 = some (v, p) →
            (Machine.run (Tables.step e) t pre).Gets e q (some v))
          ∧ (q.2.address ≠ 0 → (q.2.opcode = mappingRequestRead
              ∨ Unescalated e t pre ∧ Unescalated e t (others pre)) →
            ∃ x, (Machine.run (Tables.step e) t pre).Gets e q x
              ∧ (Machine.run (Tables.step e) t (others pre)).Gets e q x)) := by
  have hpre' : pre <+: qs := (List.prefix_append _ _).trans hpre
  obtain ⟨f, hf⟩ := tracks_prefix hinit hgrants hsafe hpre'
  have hguard : (Machine.run (Tables.step e) t pre).ZeroSafe e q := by
    obtain ⟨post, rfl⟩ := hpre
    rw [List.append_assoc, Machine.guarded_append] at hsafe
    exact hsafe.2.1
  have hfinds := hf.finds hguard.1
  refine ⟨(hf.hitsTaken_iff _).mpr hguard.1, fun hget ↦ ⟨
    fun hk hμ ↦ hfinds.gets_none hget (hk ▸ hμ),
    fun hk hread v p hμ ↦ hfinds.gets_read hread (hk ▸ hμ), fun hk hread ↦ ?_⟩⟩
  have hothers : others pre <+: others qs := hpre'.filter _
  obtain ⟨f', hf'⟩ := shows_others hinit hgrants' hothers
  refine ⟨_, hf.shows.gets hk hget (hread.imp_right fun hesc ↦ ?_), ?_⟩
  · exact permitted_prefix hinit hgrants hsafe hpre' hesc.1
  · -- the map says the same of this key without the requests for key 0
    rw [← latest_others hk]
    exact hf'.gets hk hget (hread.imp_right fun hesc ↦
      permitted_others hinit hgrants' hothers hesc.2)

end Runs

/-- Seven keys that fill the BRAM bucket of key 0 and the first bucket of its chain. -/
def zeroFilled : List Call := setCalls [1024, 2048, 3072, 4096, 5120, 6144, 7168]

/-- Key 0 after them: it evicts a key in BRAM and is put in a second bucket of the chain. A `GET`
for reading gets its value. -/
theorem key_zero_ordinary_last :
    (Machine.run (Tables.step (Env.bump 0x100000 0x200000)) Tables.blank
        (zeroFilled ++ setCalls [0])).Gets
      (Env.bump 0x100000 0x200000) (.read, ⟨0, 0, mappingRequestRead⟩) (some 1) := by
  let e := Env.bump 0x100000 0x200000
  let full := Machine.run (Tables.step e) Tables.blank zeroFilled
  let t := Machine.run (Tables.step e) Tables.blank (zeroFilled ++ setCalls [0])
  have hallocs : (Machine.run (Tables.step e) Tables.blank
      ((zeroFilled ++ setCalls [0]) ++ [(.read, ⟨0, 0, mappingRequestRead⟩)])).allocs = 1 := by
    decide +kernel
  have hallocs' : (Machine.run (Tables.step e) Tables.blank
      (others ((zeroFilled ++ setCalls [0]) ++ [(.read, ⟨0, 0, mappingRequestRead⟩)]))).allocs
        = 0 := by
    decide +kernel
  have hgrants : Tables.Grants e 1 := ⟨by constructor <;> decide, by decide⟩
  have hfull : (∀ i, (full.bram 0).used i = true) ∧ next (full.bucket e) 0 = none
      ∧ ∀ i, (full.bucket e 0).used i = true := by decide +kernel
  have hbram : (t.bram 0).used 0 = true ∧ (t.bram 0).key 0 = 0 := by decide +kernel
  have hdram : next (t.bucket e) 0 = some 0x4000 ∧ next (t.bucket e) 0x4000 = none
      ∧ (t.bucket e 0x4000).used 0 = true ∧ (t.bucket e 0x4000).key 0 = 0 := by decide +kernel
  have hset : full.ZeroSafe e (.write, ⟨0, 1, mappingSet ||| mappingPermissionRW⟩) := by
    refine ⟨fun _ ↦ ⟨.inl hfull.1, [0], .last hfull.2.1, .inl fun a ha ↦ ?_⟩,
      fun h ↦ absurd h.2.1 (by decide)⟩
    obtain rfl := List.mem_singleton.mp ha
    exact hfull.2.2
  have hget : t.ZeroSafe e (.read, ⟨0, 0, mappingRequestRead⟩) := by
    refine ⟨fun _ ↦ ⟨.inr ⟨0, hbram⟩, [0, 0x4000], .link hdram.1 (.last hdram.2.1), .inr ?_⟩,
      fun h ↦ absurd h.2.1 (by decide)⟩
    exact ⟨0x4000, by simp, 0, hdram.2.2⟩
  have hsets : ∀ q ∈ zeroFilled, q.2.address ≠ 0 ∧ q.2.opcode ≠ mappingRequestWrite := by decide
  have hsafe : Machine.Guarded (Tables.step e) (Tables.ZeroSafe e) Tables.blank
      ((zeroFilled ++ setCalls [0]) ++ [(.read, ⟨0, 0, mappingRequestRead⟩)]) := by
    refine Machine.guarded_append.mpr
      ⟨Machine.guarded_append.mpr ⟨?_, hset, trivial⟩, hget, trivial⟩
    -- the other requests are none that the condition is about
    exact Machine.Guarded.mono (fun t q hq ↦ ⟨fun hk ↦ absurd hk hq.1, fun h ↦ hq.2 h.2.1⟩)
      (Machine.guarded_of_forall hsets)
  obtain ⟨-, hgets⟩ := key_zero_ordinary (Tables.initial_blank e) (hallocs.symm ▸ hgrants)
    (hallocs'.symm ▸ hgrants.mono (Nat.zero_le 1)) hsafe (zeroFilled ++ setCalls [0])
    (.read, ⟨0, 0, mappingRequestRead⟩) (List.prefix_refl _)
  exact (hgets rfl).2.1 rfl rfl 1 true (by decide)

/-- On empty tables key 0 is found. If it is set, and then another key of its BRAM bucket, a `GET`
finds it in the next slot there, with another value than it has been set to. -/
theorem key_zero_found :
    (latest [] 0 = none
        ∧ (Tables.blank.serve (Env.bump 0x100000 0x200000) .read ⟨0, 0, mappingRequestRead⟩).2
          = some ⟨piOutputSucceed, 0, 1⟩
        ∧ ¬Tables.blank.Gets (Env.bump 0x100000 0x200000) (.read, ⟨0, 0, mappingRequestRead⟩) none
        ∧ ¬Tables.blank.HitsTaken (Env.bump 0x100000 0x200000) 0)
      ∧ (latest (setCalls [0, 64]) 0 = some (1, true)
        ∧ Tables.Grants (Env.bump 0x100000 0x200000)
          (Machine.run (Tables.step (Env.bump 0x100000 0x200000)) Tables.blank
            (setCalls [0, 64])).allocs
        ∧ ((Machine.run (Tables.step (Env.bump 0x100000 0x200000)) Tables.blank
            (setCalls [0, 64])).serve (Env.bump 0x100000 0x200000) .read
              ⟨0, 0, mappingRequestRead⟩).2 = some ⟨piOutputSucceed, 0, 1⟩) := by
  have hreply : (Tables.blank.serve (Env.bump 0x100000 0x200000) .read ⟨0, 0, mappingRequestRead⟩).2
      = some ⟨piOutputSucceed, 0, 1⟩ := by decide +kernel
  have hallocs : (Machine.run (Tables.step (Env.bump 0x100000 0x200000)) Tables.blank
      (setCalls [0, 64])).allocs = 0 := by decide +kernel
  refine ⟨⟨rfl, hreply, ?_, fun hhits ↦ ?_⟩, by decide, ?_, by decide +kernel⟩
  · rintro ⟨reply, heq, hfailure⟩
    rw [hreply] at heq
    obtain rfl := Option.some.inj heq
    exact absurd hfailure (by decide)
  · exact absurd (hhits.1 0 (by decide +kernel)) (by decide +kernel)
  · rw [hallocs]
    exact ⟨by constructor <;> decide, by decide⟩

end FpgaOs.Mapping
