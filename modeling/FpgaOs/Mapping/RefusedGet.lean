import FpgaOs.Mapping.FailedSet

/-!
# A `GET` that is refused

A `GET` for writing is refused when its key may only be read. If the key was not in BRAM either, the
request nevertheless reaches the promotion in `fill_S2`, and there it promotes what `fill_S1` has
left in the fields of a request it refuses: the empty mapping. The slot it takes in BRAM is then
marked as occupied, although key 0 is on no chain, and a good entry may have been evicted for it.

`refused_get_iff` says that this is the only way in which a refused `GET` does harm: any other one
leaves the tables as they are. What it leaves in BRAM is then right if it was right before, which it
is in all runs in which no `GET` was refused in that way and no `SET` has failed.
-/

namespace FpgaOs.Mapping

open Linked PipelineInfo

/-! ## Backed entries -/

namespace Tables

variable (e : Env) (t : Tables) (q : Call)

/-- A mapping is in an occupied slot of the chain of its key. -/
def Backed (k v : BitVec 32) : Prop :=
  ∃ l, Chain (next (t.bucket e)) (root k) l ∧ ∃ a ∈ l, ∃ i,
    (t.bucket e a).used i = true ∧ (t.bucket e a).key i = k ∧ (t.bucket e a).val i = v

/-- What the occupied slots of BRAM hold is in DRAM. -/
def AllBacked : Prop :=
  ∀ index i, (t.bram index).used i = true → t.Backed e ((t.bram index).key i) ((t.bram index).val i)

/-- A write-`GET` that replies failure. -/
def RefusesWrite : Prop :=
  q.2.opcode = mappingRequestWrite
    ∧ (t.serve e q.1 q.2).2.map MappingReply.status = some piOutputFailure

/-- A write-`GET` that misses in BRAM and finds its key in DRAM without permission. -/
def Spoils : Prop :=
  q.2.opcode = mappingRequestWrite ∧ (t.bram q.2.index).compare q.2.address = none
    ∧ ∃ l, Chain (next (t.bucket e)) (root q.2.address) l ∧ ∃ a i,
      findKey (t.bucket e) l q.2.address = some (a, i) ∧ (t.bucket e a).perm i = false

/-- An occupied slot of BRAM shows a key. -/
def Occupied : Prop := ∀ index i, (t.bram index).used i = true → (t.bram index).key i ≠ 0

end Tables

/-! ## One request -/

theorem Bucket.key_of_used_cache {hb : Bucket} {k v : BitVec 32} {p : Bool} {j : Slot}
    (h : (hb.cache k v p).used j = true) :
    (hb.cache k v p).key j = k ∨ (hb.used j = true ∧ (hb.cache k v p).key j = hb.key j) := by
  rw [cache] at h ⊢
  cases hcmp : hb.compare k with
  | some s =>
    rw [hcmp] at h
    dsimp only at h ⊢
    rw [used_replace] at h
    rw [key_replace]
    by_cases hj : j = s
    · rw [if_pos hj]
      exact .inl rfl
    · rw [if_neg hj]
      exact .inr ⟨h, rfl⟩
  | none =>
    rw [hcmp] at h
    dsimp only at h ⊢
    rw [used_replace, used_take] at h
    rw [key_replace, key_take]
    by_cases hj : j = hb.findEmptySlot
    · rw [if_pos hj]
      exact .inl rfl
    · rw [if_neg hj] at h ⊢
      exact .inr ⟨h, rfl⟩

namespace Tables

variable {e : Env} {t : Tables} {q : Call} {l : List (BitVec 26)}

theorem write_of_isGet {r : MappingRequest} (hget : r.isGet = true) (hrw : r.rw = true) :
    r.opcode = mappingRequestWrite := by
  simp only [MappingRequest.isGet, Bool.or_eq_true, beq_iff_eq] at hget
  refine hget.resolve_left fun hread ↦ ?_
  rw [MappingRequest.rw, hread] at hrw
  exact absurd hrw (by decide)

theorem bram_promoted {r : MappingRequest} {k v : BitVec 32}
    (hcmp : (t.bram r.index).compare r.address = none) :
    (t.promoted r k v).bram = Function.update t.bram r.index
      ((t.bram r.index).promote (t.bram r.index).findEmptySlot k v) := by
  rw [promoted, hcmp]
  rfl

theorem Occupied.promoted (h : t.Occupied) {r : MappingRequest} {k v : BitVec 32} (hk : k ≠ 0) :
    (t.promoted r k v).Occupied := by
  intro index i
  by_cases hcmp : (t.bram r.index).compare r.address = none
  · rw [bram_promoted hcmp]
    by_cases hindex : index = r.index
    · subst hindex
      rw [Function.update_self, Bucket.used_promote, Bucket.key_promote]
      split
      · exact fun _ ↦ hk
      · exact h r.index i
    · rw [Function.update_of_ne hindex]
      exact h index i
  · rw [Tables.promoted, if_pos (Option.isSome_iff_ne_none.mpr hcmp)]
    exact h index i

section Chain

variable (hl : Chain (next (t.bucket e)) (root q.2.address) l) (hnodup : l.Nodup)

include hl

theorem spoils_iff : t.Spoils e q ↔ q.2.opcode = mappingRequestWrite
    ∧ (t.bram q.2.index).compare q.2.address = none
    ∧ ∃ a i, findKey (t.bucket e) l q.2.address = some (a, i) ∧ (t.bucket e a).perm i = false := by
  refine and_congr_right fun _ ↦ and_congr_right fun _ ↦ ⟨?_, fun h ↦ ⟨l, hl, h⟩⟩
  rintro ⟨l', hl', h⟩
  rwa [hl.unique hl']

include hnodup

/-- **A `GET` for writing that is refused** leaves the tables alone, or it promotes the empty
mapping. -/
theorem RefusesWrite.step (h : t.RefusesWrite e q) :
    (¬t.Spoils e q ∧ t.step e q = t) ∨ (t.Spoils e q ∧ t.step e q = t.promoted q.2 0 0) := by
  obtain ⟨hwrite, hstatus⟩ := h
  have hget : q.2.isGet = true := by rw [MappingRequest.isGet, hwrite]; rfl
  have hrw : q.2.rw = true := by rw [MappingRequest.rw, hwrite]; rfl
  have hno : some piOutputSucceed ≠ some piOutputFailure := by decide
  rw [spoils_iff hl, Tables.step]
  have hfetched : Fetched e t l q.1 q.2 := fetched_serve hget hl hnodup
  cases hfetched with
  | bram _ _ hsucceed _ heq | dram _ _ _ hsucceed _ heq =>
    rw [heq, Option.map_some, hsucceed] at hstatus
    exact absurd hstatus hno
  | miss _ hkey _ heq =>
    refine .inl ⟨?_, by rw [heq]⟩
    rintro ⟨-, -, a, i, hfound, -⟩
    rw [hkey] at hfound
    cases hfound
  | denied _ hkey _ hperm _ heq =>
    rw [heq]
    by_cases hcmp : (t.bram q.2.index).compare q.2.address = none
    · exact .inr ⟨⟨hwrite, hcmp, _, _, hkey, hperm⟩, rfl⟩
    · -- the key is in BRAM, without permission there too
      refine .inl ⟨fun hspoils ↦ hcmp hspoils.2.1, ?_⟩
      rw [promoted, if_pos (Option.isSome_iff_ne_none.mpr hcmp)]

/-- A `GET` that does not spoil BRAM leaves a key in every occupied slot. -/
theorem Occupied.get (h : t.Occupied) (hk : q.2.address ≠ 0) (hget : q.2.isGet = true)
    (hno : ¬t.Spoils e q) : (t.step e q).Occupied := by
  rw [spoils_iff hl] at hno
  rw [step]
  have hfetched : Fetched e t l q.1 q.2 := fetched_serve hget hl hnodup
  cases hfetched with
  | bram _ _ _ _ heq | miss _ _ _ heq => rwa [heq]
  | dram _ _ _ _ _ heq =>
    rw [heq]
    exact h.promoted hk
  | denied _ hkey hrw hperm _ heq =>
    rw [heq]
    by_cases hcmp : (t.bram q.2.index).compare q.2.address = none
    · exact absurd ⟨write_of_isGet hget hrw, hcmp, _, _, hkey, hperm⟩ hno
    · rwa [Tables.promoted, if_pos (Option.isSome_iff_ne_none.mpr hcmp)]

end Chain

/-! ## Runs -/

variable {f : BitVec 10 → List (BitVec 26)} {μ : PageMap}

theorem Occupied.set (h : t.Occupied) (hl : Chain (next (t.bucket e)) (root q.2.address) l)
    (hnodup : l.Nodup) (hk : q.2.address ≠ 0) (hset : q.2.isSet = true) :
    (t.step e q).Occupied := by
  intro index i
  rw [step, (serve_set (c := q.1) hset hl hnodup).1]
  by_cases hindex : index = q.2.index
  · subst hindex
    rw [Function.update_self]
    intro hused
    rcases Bucket.key_of_used_cache hused with hkey | ⟨hold, hkey⟩
    · rwa [hkey]
    · rw [hkey]
      exact h q.2.index i hold
  · rw [Function.update_of_ne hindex]
    exact h index i

/-- Tables that agree with a map have only backed entries in BRAM, if every occupied slot there
shows a key. -/
theorem Agrees.allBacked (h : t.Agrees e f μ) (hocc : t.Occupied) : t.AllBacked e := by
  intro index i hused
  have hk := hocc index i hused
  obtain ⟨p, hμ⟩ := (h.cached index).current i hk
  obtain ⟨a, ha, j, hkey, hval, -⟩ := (h.holds _ hk _ _).mpr hμ
  refine ⟨_, h.shows.chain _, a, ha, j, ?_, hkey, hval⟩
  exact (h.sound.filled.used_iff _ a ha j).mpr (hkey ▸ hk)

/-- The empty mapping is not backed. -/
theorem Sound.not_backed (h : t.Sound e f) (v : BitVec 32) : ¬t.Backed e 0 v := by
  rintro ⟨l, hl, a, ha, i, hused, hkey, -⟩
  obtain rfl := hl.unique (h.chains.chain ((0 : BitVec 32).setWidth 10))
  exact (h.filled.used_iff _ a ha i).mp hused hkey

/-- **What a refused `GET` leaves in BRAM.** -/
theorem Sound.allBacked_step (h : t.Sound e f) (href : t.RefusesWrite e q) :
    (t.step e q).AllBacked e ↔ t.AllBacked e ∧ ¬t.Spoils e q := by
  rcases href.step (h.chains.chain (q.2.address.setWidth 10)) (h.chains.nodup _) with
    ⟨hno, hstep⟩ | ⟨hspoils, hstep⟩
  · rw [hstep]
    exact (and_iff_left hno).symm
  · refine iff_of_false (fun hall ↦ ?_) fun hall ↦ hall.2 hspoils
    -- the slot that the empty mapping was promoted to
    have hbacked := hall q.2.index (t.bram q.2.index).findEmptySlot
    rw [hstep, bram_promoted hspoils.2.1, Function.update_self, Bucket.used_promote,
      Bucket.key_promote, Bucket.val_promote, if_pos rfl, if_pos rfl, if_pos rfl] at hbacked
    have hsound : (t.promoted q.2 0 0).Sound e f :=
      ⟨by rw [bucket_promoted, allocs_promoted]; exact h.chains, by
        rw [bucket_promoted]; exact h.filled⟩
    exact hsound.not_backed 0 (hbacked rfl)

/-- No `SET` fails and no `GET` spoils BRAM. -/
def Clean (e : Env) (t : Tables) (q : Call) : Prop := ¬t.Fails e q ∧ ¬t.Spoils e q

theorem Agrees.clean_step (h : t.Agrees e f μ) (hocc : t.Occupied) (hk : q.2.address ≠ 0)
    (hfresh : e.Fresh (t.step e q).allocs) (hclean : Clean e t q) :
    (∃ f', (t.step e q).Agrees e f' (μ.record q)) ∧ (t.step e q).Occupied := by
  have hl := h.shows.chain q.2.address
  have hnodup := h.shows.nodup q.2.address
  refine ⟨(h.step hk hfresh fun hstarved ↦ hclean.1 (hstarved.fails hl hnodup)).1, ?_⟩
  cases hset : q.2.isSet with
  | true => exact hocc.set hl hnodup hk hset
  | false =>
    cases hget : q.2.isGet with
    | true => exact hocc.get hl hnodup hk hget hclean.2
    | false =>
      rwa [h.shows.step_unknown hset hget]

theorem Initial.occupied (h : t.Initial e) : t.Occupied := by
  intro index i hused
  rw [h.bram, Bucket.used_zero] at hused
  cases hused

theorem clean_run (hinit : t.Initial e) {qs : List Call} (hkeys : ∀ q ∈ qs, q.2.address ≠ 0)
    (hfresh : e.Fresh (Machine.run (Tables.step e) t qs).allocs)
    (hclean : Machine.Guarded (Tables.step e) (Clean e) t qs) :
    (Machine.run (Tables.step e) t qs).AllBacked e := by
  -- the map is that of the requests so far, which the induction need not know
  have hinv : e.Fresh (Machine.run (Tables.step e) t qs).allocs →
      ∃ f μ, (Machine.run (Tables.step e) t qs).Agrees e f μ
        ∧ (Machine.run (Tables.step e) t qs).Occupied := by
    refine @Machine.Guarded.invariant _ _ (Tables.step e) (fun t q ↦ q.2.address ≠ 0 ∧ Clean e t q)
      (fun t ↦ e.Fresh t.allocs → ∃ f μ, t.Agrees e f μ ∧ t.Occupied)
      (fun t q ih hq hfresh ↦ ?_) t qs (fun _ ↦ ⟨_, _, hinit.agrees, hinit.occupied⟩)
      ((Machine.guarded_of_forall hkeys).and hclean)
    obtain ⟨f, μ, hf, hocc⟩ := ih (hfresh.mono (allocs_le_step q))
    obtain ⟨⟨f', hf'⟩, hocc'⟩ := hf.clean_step hocc hq.1 hfresh hq.2
    exact ⟨f', _, hf', hocc'⟩
  obtain ⟨f, μ, hf, hocc⟩ := hinv hfresh
  exact hf.allBacked hocc

end Tables

/-- **When a refused `GET` stores nothing wrong.** After requests with keys other than 0, whatever
the allocator has answered: a write-`GET` that is refused leaves only backed entries in BRAM exactly
when there were no others before and it is not one that misses in BRAM and finds its key in DRAM
without permission. In a run without such a `GET` and without a failed `SET` there are no others. -/
theorem refused_get_iff {e : Env} {t : Tables} (hinit : t.Initial e) (qs : List Call)
    (hkeys : ∀ q ∈ qs, q.2.address ≠ 0)
    (hfresh : e.Fresh (Machine.run (Tables.step e) t qs).allocs) :
    (∀ q : Call, (Machine.run (Tables.step e) t qs).RefusesWrite e q →
      (((Machine.run (Tables.step e) t qs).step e q).AllBacked e
        ↔ (Machine.run (Tables.step e) t qs).AllBacked e
          ∧ ¬(Machine.run (Tables.step e) t qs).Spoils e q))
      ∧ (Machine.Guarded (Tables.step e) (Tables.Clean e) t qs →
        (Machine.run (Tables.step e) t qs).AllBacked e) := by
  obtain ⟨f, hf⟩ := Tables.sound_run hinit hkeys hfresh
  exact ⟨fun q href ↦ hf.allBacked_step href, Tables.clean_run hinit hkeys hfresh⟩

/-- Tables with a key that may only be read. -/
def Tables.single : Tables :=
  Machine.run (Tables.step (Env.bump 0x100000 0x200000)) Tables.blank
    [(.write, ⟨1, 100, mappingSet ||| mappingPermissionR⟩)]

/-- A `GET` for writing of this key is refused, and does no harm. -/
theorem refused_get_iff_single :
    Tables.single.RefusesWrite (Env.bump 0x100000 0x200000) (.write, ⟨1, 0, mappingRequestWrite⟩)
      ∧ (Tables.single.step (Env.bump 0x100000 0x200000)
        (.write, ⟨1, 0, mappingRequestWrite⟩)).AllBacked (Env.bump 0x100000 0x200000) := by
  have hallocs : Tables.single.allocs = 0 := by decide +kernel
  have hfresh : (Env.bump 0x100000 0x200000).Fresh Tables.single.allocs := by
    rw [hallocs]
    constructor <;> decide
  have hrefused : Tables.single.RefusesWrite (Env.bump 0x100000 0x200000)
    (.write, ⟨1, 0, mappingRequestWrite⟩) := ⟨rfl, by decide +kernel⟩
  obtain ⟨hstep, hrun⟩ := refused_get_iff (Tables.initial_blank (Env.bump 0x100000 0x200000))
    [(.write, ⟨1, 100, mappingSet ||| mappingPermissionR⟩)] (by decide) hfresh
  refine ⟨hrefused, (hstep _ hrefused).mpr ⟨hrun ⟨⟨fun h ↦ ?_, fun h ↦ ?_⟩, trivial⟩, fun h ↦ ?_⟩⟩
  · exact absurd h.2 (by decide +kernel)
  · exact absurd h.1 (by decide)
  · exact absurd h.2.1 (by decide +kernel)

/-- The tables after seven more keys of its BRAM bucket, the last of which has taken its slot. -/
def Tables.displaced : Tables :=
  Machine.run (Tables.step (Env.bump 0x100000 0x200000)) Tables.blank
    ((.write, ⟨1, 100, mappingSet ||| mappingPermissionR⟩)
      :: setCalls [65, 129, 193, 257, 321, 385, 449])

/-- Now a `GET` for writing of the first key takes the slot with the empty mapping. -/
theorem refused_get_spoils :
    Tables.displaced.RefusesWrite (Env.bump 0x100000 0x200000)
        (.write, ⟨1, 0, mappingRequestWrite⟩)
      ∧ ((Tables.displaced.bram 1).used 0 = true ∧ (Tables.displaced.bram 1).key 0 = 449)
      ∧ (let t' := Tables.displaced.step (Env.bump 0x100000 0x200000)
          (.write, ⟨1, 0, mappingRequestWrite⟩)
        (t'.bram 1).used 0 = true ∧ (t'.bram 1).key 0 = 0
          ∧ ¬t'.AllBacked (Env.bump 0x100000 0x200000)) := by
  refine ⟨⟨rfl, by decide +kernel⟩, by decide +kernel, ?_⟩
  have hused : ((Tables.displaced.step (Env.bump 0x100000 0x200000)
      (.write, ⟨1, 0, mappingRequestWrite⟩)).bram 1).used 0 = true := by decide +kernel
  have hkey : ((Tables.displaced.step (Env.bump 0x100000 0x200000)
      (.write, ⟨1, 0, mappingRequestWrite⟩)).bram 1).key 0 = 0 := by decide +kernel
  refine ⟨hused, hkey, fun hall ↦ ?_⟩
  have hbacked := hall 1 0 hused
  rw [hkey] at hbacked
  have hfresh : (Env.bump 0x100000 0x200000).Fresh 0 := by constructor <;> decide
  have hallocs : Tables.displaced.allocs = 0 := by decide +kernel
  have hallocs' : (Tables.displaced.step (Env.bump 0x100000 0x200000)
      (.write, ⟨1, 0, mappingRequestWrite⟩)).allocs = 0 := by decide +kernel
  obtain ⟨f, hf⟩ := Tables.sound_run (Tables.initial_blank _) (by decide) (hallocs.symm ▸ hfresh)
  obtain ⟨f', hf'⟩ := hf.step (q := (.write, ⟨1, 0, mappingRequestWrite⟩)) (by decide)
    (hallocs'.symm ▸ hfresh)
  exact hf'.not_backed _ hbacked

end FpgaOs.Mapping
