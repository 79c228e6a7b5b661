import FpgaOs.Mapping.Chains

/-!
# The page table is a map

What the page table is for: a map from keys to values and permissions that `SET` changes and `GET`
looks up. `PageMap` is this map and `PageMap.record` is all that a request does to it.

The tables agree with the map when the chains hold exactly its entries and the BRAM buckets hold
some of them. A `SET` writes both copies; a `GET` may copy an entry from DRAM to BRAM, over another
one or into an empty slot. So BRAM is never stale, whatever is evicted, as long as no `SET` fails
half way: a `SET` that is refused a bucket has already written to BRAM. The permission bits in BRAM
are left out here; see `Permission`.
-/

namespace FpgaOs.Mapping

open Linked PipelineInfo

/-! ## The abstract map -/

/-- Values and permissions by key. -/
abbrev PageMap := BitVec 32 → Option (BitVec 32 × Bool)

/-- What a request does to the map. -/
def PageMap.record (μ : PageMap) (q : Call) : PageMap :=
  if q.2.isSet then Function.update μ q.2.address (some (q.2.length, q.2.rw)) else μ

theorem PageMap.record_set (μ : PageMap) {q : Call} (h : q.2.isSet = true) :
    μ.record q = Function.update μ q.2.address (some (q.2.length, q.2.rw)) := if_pos h

theorem PageMap.record_other (μ : PageMap) {q : Call} (h : q.2.isSet = false) : μ.record q = μ := by
  rw [record, h]
  rfl

/-- The value and the permission of the latest `SET` of a key. -/
def latest (qs : List Call) : PageMap := Machine.run PageMap.record (fun _ ↦ none) qs

theorem latest_concat (qs : List Call) (q : Call) : latest (qs ++ [q]) = (latest qs).record q :=
  Machine.run_concat _ _ _ _

/-! ## A bucket of the cache -/

/-- A BRAM bucket holds entries of the map, each at most once, whose keys belong there. -/
structure Cached (μ : PageMap) (index : BitVec 6) (hb : Bucket) : Prop where
  home : ∀ i, hb.key i ≠ 0 → (hb.key i).setWidth 6 = index
  current : ∀ i, hb.key i ≠ 0 → ∃ p, μ (hb.key i) = some (hb.val i, p)
  unique : ∀ i j, hb.key i ≠ 0 → hb.key i = hb.key j → i = j

section Cached

variable {μ : PageMap} {index : BitVec 6} {hb : Bucket} {k v : BitVec 32} {p : Bool}

theorem Cached.zero (μ : PageMap) (index : BitVec 6) : Cached μ index 0 := by
  constructor
  · intro i hne
    exact absurd (Bucket.key_zero i) hne
  · intro i hne
    exact absurd (Bucket.key_zero i) hne
  · intro i j hne
    exact absurd (Bucket.key_zero i) hne

theorem Cached.write (h : Cached μ index hb) {s : Slot} {hb' : Bucket}
    (hkey : ∀ j, hb'.key j = if j = s then k else hb.key j)
    (hval : ∀ j, hb'.val j = if j = s then v else hb.val j)
    (honly : k ≠ 0 → ∀ j, hb.key j = k → j = s)
    (hhome : k ≠ 0 → k.setWidth 6 = index) {μ' : PageMap} (hμ : k ≠ 0 → ∃ p, μ' k = some (v, p))
    (hother : ∀ k' ≠ k, μ' k' = μ k') : Cached μ' index hb' := by
  constructor
  · intro j hne
    rw [hkey] at hne ⊢
    split
    · next hj => exact hhome (by rwa [if_pos hj] at hne)
    · next hj => exact h.home j (by rwa [if_neg hj] at hne)
  · intro j hne
    rw [hkey] at hne
    rw [hkey, hval]
    by_cases hj : j = s
    · rw [if_pos hj] at hne
      simp only [if_pos hj]
      exact hμ hne
    · rw [if_neg hj] at hne
      simp only [if_neg hj]
      -- a key that is still there is not the new one
      by_cases hk : hb.key j = k
      · exact absurd (honly (hk ▸ hne) j hk) hj
      · rw [hother _ hk]
        exact h.current j hne
  · intro i j hne heq
    rw [hkey] at hne heq
    rw [hkey] at heq
    by_cases hi : i = s
    · rw [if_pos hi] at hne heq
      by_cases hj : j = s
      · rw [hi, hj]
      · rw [if_neg hj] at heq
        exact absurd (honly hne j heq.symm) hj
    · rw [if_neg hi] at hne heq
      by_cases hj : j = s
      · rw [if_pos hj] at heq
        exact absurd (honly (heq ▸ hne) i heq) hi
      · rw [if_neg hj] at heq
        exact h.unique i j hne heq

theorem Bucket.exists_cache_slot (hb : Bucket) (k v : BitVec 32) (p : Bool) :
    ∃ s, (hb.compare k = some s ∨ (hb.compare k = none ∧ s = hb.findEmptySlot))
      ∧ (∀ j, (hb.cache k v p).key j = if j = s then k else hb.key j)
      ∧ (∀ j, (hb.cache k v p).val j = if j = s then v else hb.val j)
      ∧ (∀ j, (hb.cache k v p).perm j = if j = s then p else hb.perm j) := by
  cases hcmp : hb.compare k with
  | some s =>
    simp only [cache, hcmp]
    refine ⟨s, .inl rfl, fun j ↦ ?_, fun j ↦ ?_, fun j ↦ ?_⟩
    · rw [key_replace]
    · rw [val_replace]
    · rw [perm_replace]
  | none =>
    simp only [cache, hcmp]
    refine ⟨hb.findEmptySlot, .inr ⟨trivial, rfl⟩, fun j ↦ ?_, fun j ↦ ?_, fun j ↦ ?_⟩
    · rw [key_replace, key_take]
    · rw [val_replace, val_take]
    · rw [perm_replace, perm_take]

/-- In a bucket of the cache a key is in the slot that the search finds, or nowhere. -/
theorem Cached.only (h : Cached μ index hb) {s : Slot} (hk : k ≠ 0)
    (hs : hb.compare k = some s ∨ hb.compare k = none) (j : Slot) (hj : hb.key j = k) : j = s := by
  rcases hs with hs | hs
  · exact h.unique j s (hj ▸ hk) (hj.trans (Bucket.key_of_compare hs).symm)
  · exact absurd hj (Bucket.compare_eq_none.mp hs j)

/-- **A `SET` keeps its bucket of the cache current.** -/
theorem Cached.cache (h : Cached μ index hb) (hk : k ≠ 0) (hindex : k.setWidth 6 = index) :
    Cached (Function.update μ k (some (v, p))) index (hb.cache k v p) := by
  obtain ⟨s, hs, hkey, hval, -⟩ := hb.exists_cache_slot k v p
  refine h.write hkey hval (fun _ ↦ h.only hk (hs.imp_right And.left)) (fun _ ↦ hindex)
    (fun _ ↦ ⟨p, Function.update_self ..⟩) fun k' hne ↦ Function.update_of_ne hne ..

theorem Cached.elsewhere (h : Cached μ index hb) (hindex : k.setWidth 6 ≠ index)
    (x : Option (BitVec 32 × Bool)) : Cached (Function.update μ k x) index hb where
  home := h.home
  current i hne := by
    have hki : hb.key i ≠ k := by
      rintro rfl
      exact hindex (h.home i hne)
    rw [Function.update_of_ne hki]
    exact h.current i hne
  unique := h.unique

/-- **A promotion keeps its bucket of the cache current**; the empty mapping may be promoted. -/
theorem Cached.promote (h : Cached μ index hb) {s : Slot} (hcmp : k ≠ 0 → hb.compare k = none)
    (hindex : k ≠ 0 → k.setWidth 6 = index) (hμ : k ≠ 0 → ∃ p, μ k = some (v, p)) :
    Cached μ index (hb.promote s k v) :=
  h.write (Bucket.key_promote _ _ · _ _) (Bucket.val_promote _ _ · _ _)
    (fun hk ↦ h.only hk (.inr (hcmp hk))) hindex hμ fun _ _ ↦ rfl

end Cached

/-! ## The tables and the map -/

/-- **The tables agree with the map.** -/
structure Tables.Agrees (e : Env) (t : Tables) (f : BitVec 10 → List (BitVec 26)) (μ : PageMap) :
    Prop where
  sound : t.Sound e f
  holds : ∀ k ≠ 0, ∀ v p, Holds (t.bucket e) f k v p ↔ μ k = some (v, p)
  cached : ∀ index, Cached μ index (t.bram index)

/-- What of this matters to requests for keys other than 0. -/
structure Tables.Shows (e : Env) (t : Tables) (f : BitVec 10 → List (BitVec 26)) (μ : PageMap) :
    Prop where
  chains : Chains e t.allocs (t.bucket e) f
  holds : ∀ k ≠ 0, ∀ v p, Holds (t.bucket e) f k v p ↔ μ k = some (v, p)
  cached : ∀ index, Cached μ index (t.bram index)

namespace Tables

variable {e : Env} {t : Tables} {f : BitVec 10 → List (BitVec 26)} {μ : PageMap}

theorem Agrees.shows (h : t.Agrees e f μ) : t.Shows e f μ := ⟨h.sound.chains, h.holds, h.cached⟩

theorem Initial.agrees (h : t.Initial e) : t.Agrees e (fun r ↦ [r.setWidth 26]) fun _ ↦ none where
  sound := h.sound
  holds k hk v p := by
    refine iff_of_false ?_ nofun
    rintro ⟨a, ha, i, hkey, -⟩
    rw [List.mem_singleton.mp ha, h.dram, Bucket.key_zero] at hkey
    exact hk hkey.symm
  cached index := by
    rw [h.bram]
    exact Cached.zero _ _

variable {q : Call}

theorem Shows.chain (h : t.Shows e f μ) (k : BitVec 32) :
    Chain (next (t.bucket e)) (root k) (f (k.setWidth 10)) := h.chains.chain _

theorem Shows.nodup (h : t.Shows e f μ) (k : BitVec 32) : (f (k.setWidth 10)).Nodup :=
  h.chains.nodup _

/-- A request that is neither `SET` nor `GET` has no effect. -/
theorem Shows.step_unknown (h : t.Shows e f μ) (hset : q.2.isSet = false)
    (hget : q.2.isGet = false) : t.step e q = t := by
  obtain ⟨reply, heq⟩ := serve_unknown (c := q.1) hset hget (h.chain q.2.address) (h.nodup _)
  rw [step, heq]

/-- The searches for a key, in BRAM and on its chain, end where the map says. -/
structure Finds (e : Env) (t : Tables) (l : List (BitVec 26)) (μ : PageMap) (k : BitVec 32) :
    Prop where
  chain : Chain (next (t.bucket e)) (root k) l
  nodup : l.Nodup
  bram : ∀ i, (t.bram (k.setWidth 6)).compare k = some i →
    ∃ p, μ k = some ((t.bram (k.setWidth 6)).val i, p)
  absent : findKey (t.bucket e) l k = none → μ k = none
  found : ∀ a i, findKey (t.bucket e) l k = some (a, i) →
    μ k = some ((t.bucket e a).val i, (t.bucket e a).perm i)

theorem Shows.finds (h : t.Shows e f μ) {k : BitVec 32} (hk : k ≠ 0) :
    t.Finds e (f (k.setWidth 10)) μ k where
  chain := h.chain k
  nodup := h.nodup k
  bram i hcmp := by
    have hkey := Bucket.key_of_compare hcmp
    obtain ⟨p, hμ⟩ := (h.cached (k.setWidth 6)).current i (by rw [hkey]; exact hk)
    rw [hkey] at hμ
    exact ⟨p, hμ⟩
  absent hkey := by
    cases hμ : μ k with
    | none => rfl
    | some x =>
      obtain ⟨a, ha, i, hkeyi, -⟩ := (h.holds k hk x.1 x.2).mpr hμ
      exact absurd hkeyi (findKey_eq_none.mp hkey a ha i)
  found a i hkey := by
    obtain ⟨ha, hkeyi⟩ := mem_of_findKey hkey
    exact (h.holds k hk _ _).mp ⟨a, ha, i, hkeyi, rfl, rfl⟩

theorem serve_set {l : List (BitVec 26)} {c : Channel} {r : MappingRequest} (hset : r.isSet = true)
    (hl : Chain (next (t.bucket e)) (root r.address) l) (hnodup : l.Nodup) :
    (t.serve e c r).1.bram
        = Function.update t.bram r.index ((t.bram r.index).cache r.address r.length r.rw)
      ∧ ∃ reply, (t.serve e c r).2 = some reply ∧ (reply.status = piOutputSucceed
        ∨ ((t.serve e c r).1.allocs = t.allocs + 1 ∧ (e.answers t.allocs).stat ≠ 0)) := by
  have hinserted : Inserted e t l c r := inserted_serve hset hl hnodup
  cases hinserted with
  | slot _ hstatus heq | append _ _ hstatus heq =>
    rw [heq]
    exact ⟨rfl, _, rfl, .inl hstatus⟩
  | refused _ hstat _ heq =>
    rw [heq]
    exact ⟨rfl, _, rfl, .inr ⟨rfl, hstat⟩⟩

/-- The allocator grants whatever it is asked for in the first `n` requests. -/
structure Grants (e : Env) (n : ℕ) : Prop extends e.Fresh n where
  success : ∀ i < n, (e.answers i).stat = 0

theorem Grants.mono {n n' : ℕ} (h : Grants e n') (hn : n ≤ n') : Grants e n where
  toFresh := h.toFresh.mono hn
  success i hi := h.success i (hi.trans_le hn)

/-- The reply is the one the map gives. Whether a `GET` for writing is refused is left open here. -/
def Answers (μ : PageMap) (r : MappingRequest) (reply : MappingReply) : Prop :=
  (r.isSet = true → reply.status = piOutputSucceed) ∧
  (r.isGet = true → match μ r.address with
    | some (v, p) => ((r.rw = true → p = true) →
        reply.status = piOutputSucceed ∧ reply.address = v)
    | none => reply.status = piOutputFailure)

/-- A `SET` that the allocator has refused a bucket. -/
def Starved (e : Env) (t : Tables) (q : Call) : Prop :=
  q.2.isSet = true ∧ (t.step e q).allocs = t.allocs + 1 ∧ (e.answers t.allocs).stat ≠ 0

theorem Grants.not_starved (h : Grants e (t.step e q).allocs) : ¬Starved e t q := by
  rintro ⟨-, hallocs, hstat⟩
  exact hstat (h.success t.allocs (hallocs ▸ Nat.lt_succ_self _))

theorem Agrees.step_set (h : t.Agrees e f μ) (hk : q.2.address ≠ 0) (hset : q.2.isSet = true)
    (hfresh : e.Fresh (t.step e q).allocs) (hgranted : ¬Starved e t q) :
    (∃ f', (t.step e q).Agrees e f' (μ.record q))
      ∧ ∃ reply, (t.serve e q.1 q.2).2 = some reply ∧ reply.status = piOutputSucceed := by
  have hl := h.shows.chain q.2.address
  have hnodup := h.shows.nodup q.2.address
  obtain ⟨hst, -⟩ := t.stored_serve (c := q.1) hl hnodup
  obtain ⟨hbram, reply, hreply, hstatus⟩ := serve_set (c := q.1) hset hl hnodup
  obtain ⟨f', hf', ⟨-, -, hrefused⟩ | ⟨-, hholds⟩⟩ := h.sound.stored hst hfresh hk
  · exact absurd ⟨hset, hrefused hset⟩ hgranted
  refine ⟨⟨f', hf', fun k hk' v p ↦ ?_, fun index ↦ ?_⟩, reply, hreply,
    hstatus.resolve_right fun hrefused ↦ hgranted ⟨hset, hrefused⟩⟩
  · rw [PageMap.record_set μ hset, Function.update_apply]
    refine (hholds k hk' v p).trans ?_
    split
    · simp [eq_comm]
    · exact h.holds k hk' v p
  · rw [PageMap.record_set μ hset]
    change Cached _ index ((t.serve e q.1 q.2).1.bram index)
    rw [hbram]
    by_cases hindex : index = q.2.index
    · subst hindex
      rw [Function.update_self]
      exact (h.cached q.2.index).cache hk rfl
    · rw [Function.update_of_ne hindex]
      exact (h.cached index).elsewhere (fun heq ↦ hindex heq.symm) _

theorem Agrees.of_bram (h : t.Agrees e f μ) {t' : Tables} (hbucket : t'.bucket e = t.bucket e)
    (hallocs : t'.allocs = t.allocs) (hcached : ∀ index, Cached μ index (t'.bram index)) :
    t'.Agrees e f μ where
  sound := ⟨by rw [hbucket, hallocs]; exact h.sound.chains, by rw [hbucket]; exact h.sound.filled⟩
  holds := by rw [hbucket]; exact h.holds
  cached := hcached

theorem Agrees.promoted (h : t.Agrees e f μ) {r : MappingRequest} {k v : BitVec 32}
    (hk : k ≠ 0 → k = r.address ∧ ∃ p, μ k = some (v, p)) : (t.promoted r k v).Agrees e f μ := by
  refine h.of_bram (bucket_promoted k v) (allocs_promoted k v) fun index ↦ ?_
  rw [Tables.promoted]
  split
  · exact h.cached index
  · next hcmp =>
    rw [bram_writeBram]
    by_cases hindex : index = r.index
    · subst hindex
      rw [Function.update_self]
      refine (h.cached r.index).promote (fun hne ↦ ?_) (fun hne ↦ ?_) fun hne ↦ (hk hne).2
      · rw [(hk hne).1]
        simpa using hcmp
      · rw [(hk hne).1]
        rfl
    · rw [Function.update_of_ne hindex]
      exact h.cached index

section Get

variable {l : List (BitVec 26)}

theorem Finds.get_effect (h : t.Finds e l μ q.2.address) (hget : q.2.isGet = true) :
    (t.step e q = t ∧ ((t.bram q.2.index).compare q.2.address ≠ none ∨ μ q.2.address = none))
      ∨ ∃ v p, μ q.2.address = some (v, p) ∧
        ((q.2.rw = true → p = true) ∧ t.step e q = t.promoted q.2 q.2.address v
          ∨ (q.2.rw = true ∧ p = false) ∧ t.step e q = t.promoted q.2 0 0) := by
  rw [Tables.step]
  have hfetched : Fetched e t l q.1 q.2 := fetched_serve hget h.chain h.nodup
  cases hfetched with
  | bram hcmp _ _ _ heq =>
    exact .inl ⟨by rw [heq], .inl (by rw [hcmp]; exact Option.some_ne_none _)⟩
  | miss _ hkey _ heq => exact .inl ⟨by rw [heq], .inr (h.absent hkey)⟩
  | dram _ hkey hperm _ _ heq =>
    exact .inr ⟨_, _, h.found _ _ hkey, .inl ⟨hperm, by rw [heq]⟩⟩
  | denied _ hkey hrw hperm _ heq =>
    exact .inr ⟨_, _, h.found _ _ hkey, .inr ⟨⟨hrw, hperm⟩, by rw [heq]⟩⟩

/-- **A `GET`** is answered from the map, if it is not answered from BRAM. -/
theorem Finds.answers (h : t.Finds e l μ q.2.address) (hget : q.2.isGet = true) :
    ∃ reply, (t.serve e q.1 q.2).2 = some reply ∧ Answers μ q.2 reply := by
  have hset := isSet_eq_false_of_isGet hget
  simp only [Answers, hset, hget, Bool.false_eq_true, false_implies, true_and, true_implies]
  have hfetched : Fetched e t l q.1 q.2 := fetched_serve hget h.chain h.nodup
  cases hfetched with
  | bram hcmp _ hstatus haddress heq =>
    obtain ⟨p, hμ⟩ := h.bram _ hcmp
    rw [heq, hμ]
    exact ⟨_, rfl, fun _ ↦ ⟨hstatus, haddress⟩⟩
  | miss _ hkey hstatus heq =>
    rw [heq, h.absent hkey]
    exact ⟨_, rfl, hstatus⟩
  | dram _ hkey _ hstatus haddress heq =>
    rw [heq, h.found _ _ hkey]
    exact ⟨_, rfl, fun _ ↦ ⟨hstatus, haddress⟩⟩
  | denied _ hkey hrw hperm hstatus heq =>
    rw [heq, h.found _ _ hkey]
    refine ⟨_, rfl, fun hallow ↦ ?_⟩
    rw [hallow hrw] at hperm
    cases hperm

end Get

theorem Agrees.step_get (h : t.Agrees e f μ) (hk : q.2.address ≠ 0) (hget : q.2.isGet = true) :
    (t.step e q).Agrees e f μ := by
  rcases (h.shows.finds hk).get_effect hget with ⟨hstep, -⟩ | ⟨v, p, hμ, ⟨-, hstep⟩ | ⟨-, hstep⟩⟩
  · rw [hstep]
    exact h
  · rw [hstep]
    exact h.promoted fun _ ↦ ⟨rfl, p, hμ⟩
  · rw [hstep]
    exact h.promoted fun hne ↦ absurd rfl hne

/-- **A request keeps the tables in agreement with the map** and is answered by it. -/
theorem Agrees.step (h : t.Agrees e f μ) (hk : q.2.address ≠ 0)
    (hfresh : e.Fresh (t.step e q).allocs) (hgranted : ¬Starved e t q) :
    (∃ f', (t.step e q).Agrees e f' (μ.record q))
      ∧ ∃ reply, (t.serve e q.1 q.2).2 = some reply ∧ Answers μ q.2 reply := by
  cases hset : q.2.isSet with
  | true =>
    obtain ⟨hf', reply, hreply, hstatus⟩ := h.step_set hk hset hfresh hgranted
    refine ⟨hf', reply, hreply, fun _ ↦ hstatus, fun hget ↦ ?_⟩
    rw [isSet_eq_false_of_isGet hget] at hset
    cases hset
  | false =>
    rw [μ.record_other hset]
    cases hget : q.2.isGet with
    | true => exact ⟨⟨f, h.step_get hk hget⟩, (h.shows.finds hk).answers hget⟩
    | false =>
      obtain ⟨reply, heq⟩ := serve_unknown (c := q.1) hset hget (h.shows.chain q.2.address)
        (h.shows.nodup _)
      rw [Tables.step, heq]
      refine ⟨⟨f, h⟩, reply, rfl, fun hset' ↦ ?_, fun hget' ↦ ?_⟩
      · rw [hset] at hset'
        cases hset'
      · rw [hget] at hget'
        cases hget'

theorem agrees_run (hinit : t.Initial e) {qs : List Call} (hkeys : ∀ q ∈ qs, q.2.address ≠ 0)
    (hgrants : Grants e (Machine.run (Tables.step e) t qs).allocs) :
    ∃ f, (Machine.run (Tables.step e) t qs).Agrees e f (latest qs) := by
  induction qs using List.reverseRecOn with
  | nil => exact ⟨_, hinit.agrees⟩
  | append_singleton qs q ih =>
    rw [Machine.run_concat] at hgrants ⊢
    obtain ⟨f, hf⟩ := ih (fun q' hq' ↦ hkeys q' (List.mem_append_left _ hq'))
      (hgrants.mono (allocs_le_step q))
    rw [latest_concat]
    exact (hf.step (hkeys q (List.mem_append_right _ (List.mem_singleton_self q)))
      hgrants.toFresh hgrants.not_starved).1

theorem allocs_le_run (t : Tables) (qs : List Call) :
    t.allocs ≤ (Machine.run (Tables.step e) t qs).allocs := by
  induction qs generalizing t with
  | nil => exact le_rfl
  | cons q qs ih => exact (allocs_le_step q).trans (ih _)

theorem answers_run (hinit : t.Initial e) {pre post : List Call}
    (hkeys : ∀ q' ∈ pre ++ q :: post, q'.2.address ≠ 0)
    (hgrants : Grants e (Machine.run (Tables.step e) t (pre ++ q :: post)).allocs) :
    ∃ reply, ((Machine.run (Tables.step e) t pre).serve e q.1 q.2).2 = some reply
      ∧ Answers (latest pre) q.2 reply := by
  rw [Machine.run_append, Machine.run_cons] at hgrants
  have hgrants' :=
    hgrants.mono (allocs_le_run (Tables.step e (Machine.run (Tables.step e) t pre) q) post)
  obtain ⟨f, hf⟩ := agrees_run hinit (fun q' hq' ↦ hkeys q' (List.mem_append_left _ hq'))
    (hgrants'.mono (allocs_le_step q))
  exact (hf.step (hkeys q (List.mem_append_right _ List.mem_cons_self))
    hgrants'.toFresh hgrants'.not_starved).2

end Tables

/-- **The hashed page table is a map.** In every run with keys other than 0 whose allocations
succeed, each request gets a reply: a `SET` success; a read-`GET` the value of the latest `SET` of
its key, or failure if there was none; a write-`GET` the value of the latest `SET`, if that permits
writing. No BRAM slot is stale, and no key is in two slots of its chain. -/
theorem page_table_is_map {e : Env} {t : Tables} (hinit : t.Initial e) (qs : List Call)
    (hkeys : ∀ q ∈ qs, q.2.address ≠ 0)
    (hgrants : Tables.Grants e (Machine.run (Tables.step e) t qs).allocs) :
    (∀ pre q post, qs = pre ++ q :: post →
      ∃ reply, ((Machine.run (Tables.step e) t pre).serve e q.1 q.2).2 = some reply
        ∧ (q.2.isSet = true → reply.status = piOutputSucceed)
        ∧ (q.2.opcode = mappingRequestRead → match latest pre q.2.address with
          | some (v, _) => reply.status = piOutputSucceed ∧ reply.address = v
          | none => reply.status = piOutputFailure)
        ∧ (q.2.opcode = mappingRequestWrite → ∀ v, latest pre q.2.address = some (v, true) →
          reply.status = piOutputSucceed ∧ reply.address = v))
    ∧ (∀ index i, let hb := (Machine.run (Tables.step e) t qs).bram index
        hb.key i ≠ 0 → ∃ p, latest qs (hb.key i) = some (hb.val i, p))
    ∧ ∃ f : BitVec 10 → List (BitVec 26),
        let m := (Machine.run (Tables.step e) t qs).bucket e
        (∀ r, Chain (next m) (r.setWidth 26) (f r)) ∧ ∀ r, ∀ a ∈ f r, ∀ b ∈ f r, ∀ i j,
          (m a).used i = true → (m a).key i = (m b).key j → a = b ∧ i = j := by
  refine ⟨?_, ?_⟩
  · rintro pre q post rfl
    obtain ⟨reply, hreply, hset, hget⟩ := Tables.answers_run hinit hkeys hgrants
    refine ⟨reply, hreply, hset, fun hread ↦ ?_, fun hwrite v hv ↦ ?_⟩
    · have hrw : q.2.rw = false := by rw [MappingRequest.rw, hread]; rfl
      have hanswer := hget (by rw [MappingRequest.isGet, hread]; rfl)
      cases hμ : latest pre q.2.address with
      | none =>
        rw [hμ] at hanswer
        exact hanswer
      | some x =>
        rw [hμ] at hanswer
        exact hanswer fun h ↦ by
          rw [hrw] at h
          cases h
    · have hanswer := hget (by rw [MappingRequest.isGet, hwrite]; rfl)
      rw [hv] at hanswer
      exact hanswer fun _ ↦ rfl
  · obtain ⟨f, hf⟩ := Tables.agrees_run hinit hkeys hgrants
    refine ⟨fun index i hne ↦ (hf.cached index).current i hne, f, hf.sound.chains.chain, ?_⟩
    intro r a ha b hb i j hused heq
    exact hf.sound.filled.unique r a ha b hb i j ((hf.sound.filled.used_iff r a ha i).mp hused) heq

/-- Nine keys of one chain, with the first looked up in the end. -/
theorem page_table_is_map_nine :
    (Machine.run (Tables.step (Env.bump 0x100000 0x200000)) Tables.blank
        (setCalls [1, 1025, 2049, 3073, 4097, 5121, 6145, 7169, 8193]
          ++ [(.read, ⟨1, 0, 0⟩)])).allocs = 1
      ∧ ∃ reply, ((Machine.run (Tables.step (Env.bump 0x100000 0x200000)) Tables.blank
          (setCalls [1, 1025, 2049, 3073, 4097, 5121, 6145, 7169, 8193])).serve
            (Env.bump 0x100000 0x200000) .read ⟨1, 0, 0⟩).2 = some reply
        ∧ reply.status = piOutputSucceed ∧ reply.address = 2 := by
  have hallocs : (Machine.run (Tables.step (Env.bump 0x100000 0x200000)) Tables.blank
      (setCalls [1, 1025, 2049, 3073, 4097, 5121, 6145, 7169, 8193] ++ [(.read, ⟨1, 0, 0⟩)])).allocs
        = 1 := by
    decide +kernel
  have hgrants : Tables.Grants (Env.bump 0x100000 0x200000) 1 :=
    ⟨by constructor <;> decide, by decide⟩
  obtain ⟨reply, hreply, -, hread, -⟩ := (page_table_is_map
    (Tables.initial_blank (Env.bump 0x100000 0x200000))
    (setCalls [1, 1025, 2049, 3073, 4097, 5121, 6145, 7169, 8193] ++ [(.read, ⟨1, 0, 0⟩)])
    (by decide) (hallocs ▸ hgrants)).1 _ _ [] rfl
  exact ⟨hallocs, reply, hreply, hread rfl⟩

end FpgaOs.Mapping
