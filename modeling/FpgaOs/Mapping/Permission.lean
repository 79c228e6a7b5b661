import FpgaOs.Mapping.Table

/-!
# Write permission

A write-`GET` is to succeed exactly when the latest `SET` of its key gave write permission. In DRAM
the permission bit is written together with key and value. In BRAM it is not when an entry is
promoted: the slot keeps the bit of whatever was in it before. So a read-only key that is promoted
into a slot whose bit is set can be written through the cache.

`Escalates` is this step, as a condition on the tables before it, and `write_permission_iff` says
that it is the only way in which permission is gained: a run keeps write-`GET`s honest in every
state exactly when none of its steps is one.
-/

namespace FpgaOs.Mapping

open Linked PipelineInfo

/-- The answer that a write-`GET` should give, by what was last `SET`. -/
def WriteAnswer (entry : Option (BitVec 32 × Bool)) (reply : MappingReply) : Prop :=
  match entry with
  | some (v, true) => reply.status = piOutputSucceed ∧ reply.address = v
  | _ => reply.status = piOutputFailure

/-- A write-`GET` of any key answers by the map, whatever else is in the tables. -/
def WriteSafe (e : Env) (t : Tables) (μ : PageMap) : Prop :=
  ∀ c r, r.opcode = mappingRequestWrite → r.address ≠ 0 →
    ∃ reply, (t.serve e c r).2 = some reply ∧ WriteAnswer (μ r.address) reply

/-- A read-`GET` of a read-only key that is not in BRAM, when the slot it will be promoted to has
its permission bit set. -/
def Escalates (t : Tables) (μ : PageMap) (q : Call) : Prop :=
  q.2.opcode = mappingRequestRead ∧ (t.bram q.2.index).compare q.2.address = none
    ∧ (∃ v, μ q.2.address = some (v, false))
    ∧ (t.bram q.2.index).perm (t.bram q.2.index).findEmptySlot = true

/-- The permission bits of BRAM are backed by the map. -/
def Permitted (t : Tables) (μ : PageMap) : Prop :=
  ∀ index i, (t.bram index).key i ≠ 0 → (t.bram index).perm i = true →
    ∃ v, μ ((t.bram index).key i) = some (v, true)

namespace Tables

variable {e : Env} {t : Tables} {f : BitVec 10 → List (BitVec 26)} {μ : PageMap} {q : Call}

/-- What a write-`GET` answers depends on the map, and on the permission bits in BRAM. -/
theorem Shows.write_get (h : t.Shows e f μ) {c : Channel} {r : MappingRequest}
    (hwrite : r.opcode = mappingRequestWrite) (hk : r.address ≠ 0) :
    ∃ reply, (t.serve e c r).2 = some reply
      ∧ ((reply.status = piOutputSucceed ∧ (∃ p, μ r.address = some (reply.address, p))
          ∧ ∃ i, (t.bram r.index).key i = r.address ∧ (t.bram r.index).perm i = true)
        ∨ ((∀ i, (t.bram r.index).compare r.address = some i → (t.bram r.index).perm i = false)
          ∧ WriteAnswer (μ r.address) reply)) := by
  have hfinds := h.finds hk
  have hget : r.isGet = true := by rw [MappingRequest.isGet, hwrite]; rfl
  have hrw : r.rw = true := by rw [MappingRequest.rw, hwrite]; rfl
  -- a bit in BRAM is believed; otherwise the bucket in DRAM decides
  have hbram : t.ToDram r → ∀ i, (t.bram r.index).compare r.address = some i →
      (t.bram r.index).perm i = false := by
    intro hto i hcmp
    have hdeny := hto i hcmp
    rw [hrw] at hdeny
    simpa using hdeny
  have hfetched : Fetched e t _ c r := fetched_serve hget hfinds.chain hfinds.nodup
  cases hfetched with
  | bram hcmp hperm hstatus haddress heq =>
    obtain ⟨p, hμ⟩ := hfinds.bram _ hcmp
    rw [heq]
    rw [hrw] at hperm
    exact ⟨_, rfl, .inl ⟨hstatus, ⟨p, by rw [haddress]; exact hμ⟩, _,
      Bucket.key_of_compare hcmp, by simpa using hperm⟩⟩
  | miss hto hkey hstatus heq =>
    rw [heq, hfinds.absent hkey]
    exact ⟨_, rfl, .inr ⟨hbram hto, hstatus⟩⟩
  | dram hto hkey hperm hstatus haddress heq =>
    rw [heq, hfinds.found _ _ hkey, hperm hrw]
    exact ⟨_, rfl, .inr ⟨hbram hto, hstatus, haddress⟩⟩
  | denied hto hkey _ hperm hstatus heq =>
    rw [heq, hfinds.found _ _ hkey, hperm]
    exact ⟨_, rfl, .inr ⟨hbram hto, hstatus⟩⟩

/-- **Write-`GET`s are honest exactly when the permission bits in BRAM are.** -/
theorem Shows.writeSafe_iff (h : t.Shows e f μ) : WriteSafe e t μ ↔ Permitted t μ := by
  constructor
  · intro hsafe index i hne hperm
    -- The slot is asked for: the search finds it, since the key is in no other.
    have hindex := (h.cached index).home i hne
    obtain ⟨reply, hreply, hanswer⟩ := hsafe .write
      ⟨(t.bram index).key i, 0, mappingRequestWrite⟩ rfl hne
    obtain ⟨reply', hreply', hcases⟩ := h.write_get (c := .write)
      (r := ⟨(t.bram index).key i, 0, mappingRequestWrite⟩) rfl hne
    have hsame : reply = reply' := Option.some.inj (hreply.symm.trans hreply')
    rw [← hsame] at hcases
    rcases hcases with ⟨hstatus, -, -⟩ | ⟨hbram, -⟩
    · unfold WriteAnswer at hanswer
      split at hanswer
      · next v hμ => exact ⟨v, hμ⟩
      · rw [hstatus] at hanswer
        exact absurd hanswer (by decide)
    · have hcmp : (t.bram index).compare ((t.bram index).key i) = some i := by
        cases hcmp : (t.bram index).compare ((t.bram index).key i) with
        | none => exact absurd rfl (Bucket.compare_eq_none.mp hcmp i)
        | some j => rw [(h.cached index).unique i j hne (Bucket.key_of_compare hcmp).symm]
      have hclear := hbram i (by simp only [MappingRequest.index, hindex, hcmp])
      simp only [MappingRequest.index, hindex, hperm] at hclear
      cases hclear
  · intro hpermitted c r hwrite hk
    obtain ⟨reply, hreply, ⟨hstatus, ⟨p, hμ⟩, i, hkey, hperm⟩ | ⟨-, hanswer⟩⟩ :=
      h.write_get (c := c) hwrite hk
    · obtain ⟨v, hv⟩ := hpermitted r.index i (hkey ▸ hk) hperm
      rw [hkey] at hv
      have hvalue := (Prod.mk.inj (Option.some.inj (hμ.symm.trans hv))).1
      refine ⟨reply, hreply, ?_⟩
      rw [hv]
      exact ⟨hstatus, hvalue⟩
    · exact ⟨reply, hreply, hanswer⟩

theorem Permitted.update {t' : Tables} (h : Permitted t μ) {index : BitVec 6} {hb : Bucket}
    (hbram : t'.bram = Function.update t.bram index hb) {μ' : PageMap}
    (hother : ∀ i ≠ index, ∀ j, (t.bram i).key j ≠ 0 → μ' ((t.bram i).key j) = μ
      ((t.bram i).key j)) :
    Permitted t' μ' ↔ ∀ j, hb.key j ≠ 0 → hb.perm j = true →
      ∃ v, μ' (hb.key j) = some (v, true) := by
  constructor
  · intro h' j
    have hj := h' index j
    rwa [hbram, Function.update_self] at hj
  · intro hnew i j
    rw [hbram]
    by_cases hi : i = index
    · subst hi
      rw [Function.update_self]
      exact hnew j
    · rw [Function.update_of_ne hi]
      intro hne hperm
      rw [hother i hi j hne]
      exact h i j hne hperm

theorem Shows.permitted_set (h : t.Shows e f μ) (hp : Permitted t μ) (hk : q.2.address ≠ 0)
    (hset : q.2.isSet = true) : Permitted (t.step e q) (μ.record q) := by
  obtain ⟨hbram, -⟩ := serve_set (c := q.1) hset (h.chain q.2.address) (h.nodup q.2.address)
  have hcached := h.cached q.2.index
  obtain ⟨s, hs, hkey, -, hperm⟩ :=
    (t.bram q.2.index).exists_cache_slot q.2.address q.2.length q.2.rw
  have honly := hcached.only hk (hs.imp_right And.left)
  rw [PageMap.record_set μ hset]
  refine (Permitted.update hp hbram ?_).mpr ?_
  · intro i hi j hne
    rw [Function.update_of_ne]
    intro heq
    exact hi (((h.cached i).home j hne).symm.trans (by rw [heq]; rfl))
  · intro j hne
    rw [hperm, hkey]
    rw [hkey] at hne
    by_cases hj : j = s
    · rw [if_pos hj, if_pos hj, Function.update_self]
      intro hrw
      exact ⟨_, by rw [hrw]⟩
    · rw [if_neg hj] at hne
      rw [if_neg hj, if_neg hj, Function.update_of_ne fun heq ↦ hj (honly j heq)]
      exact hp q.2.index j hne

theorem read_of_isGet {r : MappingRequest} (hget : r.isGet = true) (hrw : r.rw = false) :
    r.opcode = mappingRequestRead := by
  simp only [MappingRequest.isGet, MappingRequest.rw, Bool.or_eq_true, Bool.or_eq_false_iff,
    beq_iff_eq, beq_eq_false_iff_ne] at hget hrw
  exact hget.resolve_right hrw.1

theorem permitted_promoted {r : MappingRequest} {k v : BitVec 32} (hp : Permitted t μ)
    (hcmp : (t.bram r.index).compare r.address = none) :
    Permitted (t.promoted r k v) μ ↔ (k ≠ 0 →
      (t.bram r.index).perm (t.bram r.index).findEmptySlot = true →
        ∃ v', μ k = some (v', true)) := by
  have hbram : (t.promoted r k v).bram = Function.update t.bram r.index
      ((t.bram r.index).promote (t.bram r.index).findEmptySlot k v) := by
    rw [Tables.promoted, hcmp]
    rfl
  rw [Permitted.update hp hbram fun _ _ _ _ ↦ rfl]
  constructor
  · intro h hk hperm
    have hs := h (t.bram r.index).findEmptySlot
    rw [Bucket.key_promote, if_pos rfl, Bucket.perm_promote] at hs
    exact hs hk hperm
  · intro h j
    rw [Bucket.key_promote, Bucket.perm_promote]
    by_cases hj : j = (t.bram r.index).findEmptySlot
    · rw [if_pos hj, hj]
      exact h
    · rw [if_neg hj]
      exact hp r.index j

/-- **The permission bits stay backed exactly when the request does not escalate.** -/
theorem Shows.permitted_step (h : t.Shows e f μ) (hp : Permitted t μ) (hk : q.2.address ≠ 0) :
    Permitted (t.step e q) (μ.record q) ↔ ¬Escalates t μ q := by
  have hread : Escalates t μ q → q.2.isSet = false ∧ q.2.isGet = true ∧ q.2.rw = false := by
    rintro ⟨hread, -⟩
    rw [MappingRequest.isSet, MappingRequest.isGet, MappingRequest.rw, hread]
    exact ⟨rfl, rfl, rfl⟩
  cases hset : q.2.isSet with
  | true =>
    refine iff_of_true (h.permitted_set hp hk hset) fun hesc ↦ ?_
    rw [(hread hesc).1] at hset
    cases hset
  | false =>
    rw [μ.record_other hset]
    cases hget : q.2.isGet with
    | false =>
      rw [h.step_unknown hset hget]
      refine iff_of_true hp fun hesc ↦ ?_
      rw [(hread hesc).2.1] at hget
      cases hget
    | true =>
      rcases (h.finds hk).get_effect hget with ⟨hstep, hno⟩ | ⟨v, p, hμ, hpromoted⟩
      · rw [hstep]
        refine iff_of_true hp ?_
        rintro ⟨-, hcmp, ⟨v, hμ⟩, -⟩
        rcases hno with hno | hno
        · exact hno hcmp
        · rw [hno] at hμ
          cases hμ
      by_cases hcmp : (t.bram q.2.index).compare q.2.address = none
      swap
      · -- The key is in BRAM without permission: nothing is promoted.
        have hsome := Option.isSome_iff_ne_none.mpr hcmp
        have hstep : t.step e q = t := by
          rcases hpromoted with ⟨-, hstep⟩ | ⟨-, hstep⟩ <;>
            rw [hstep, Tables.promoted, if_pos hsome]
        rw [hstep]
        exact iff_of_true hp fun hesc ↦ hcmp hesc.2.1
      -- a promotion keeps the permission bit that the victim left in the slot
      rcases hpromoted with ⟨hallow, hstep⟩ | ⟨⟨hrw, -⟩, hstep⟩
      · rw [hstep, permitted_promoted hp hcmp]
        constructor
        · rintro hbacked ⟨-, -, ⟨v', hv'⟩, hperm⟩
          obtain ⟨v'', hv''⟩ := hbacked hk hperm
          rw [hv'] at hv''
          cases hv''
        · intro hesc _ hperm
          cases p with
          | true => exact ⟨v, hμ⟩
          | false =>
            have hrw : q.2.rw = false := by
              cases hrw : q.2.rw with
              | false => rfl
              | true => cases hallow hrw
            exact absurd ⟨read_of_isGet hget hrw, hcmp, ⟨v, hμ⟩, hperm⟩ hesc
      · rw [hstep, permitted_promoted hp hcmp]
        refine iff_of_true (fun hne ↦ absurd rfl hne) fun hesc ↦ ?_
        rw [(hread hesc).2.2] at hrw
        cases hrw

end Tables

section Run

variable {e : Env} {t : Tables}

/-- **When write permission is never gained.** In a run with keys other than 0 whose allocations
succeed, every write-`GET` in every state reached answers by the latest `SET` of its key, exactly
when no request of the run is a read-`GET` that promotes a read-only key into a slot with the
permission bit set. -/
theorem write_permission_iff (hinit : t.Initial e) (qs : List Call)
    (hkeys : ∀ q ∈ qs, q.2.address ≠ 0)
    (hgrants : Tables.Grants e (Machine.run (Tables.step e) t qs).allocs) :
    (∀ pre, pre <+: qs → WriteSafe e (Machine.run (Tables.step e) t pre) (latest pre))
      ↔ ∀ pre q, pre ++ [q] <+: qs →
        ¬Escalates (Machine.run (Tables.step e) t pre) (latest pre) q := by
  -- Both sides are put together request by request; the step is that of the permission bits.
  induction qs using List.reverseRecOn with
  | nil =>
    refine iff_of_true (fun pre hpre ↦ ?_) fun pre q hpre ↦ ?_
    · rw [List.prefix_nil.mp hpre]
      refine hinit.agrees.shows.writeSafe_iff.mpr fun index i hne ↦ ?_
      rw [hinit.bram] at hne
      exact absurd (Bucket.key_zero i) hne
    · exact absurd (List.prefix_nil.mp hpre)
        (List.append_ne_nil_of_right_ne_nil _ (List.cons_ne_nil _ _))
  | append_singleton qs q ih =>
    have hkeys' : ∀ q' ∈ qs, q'.2.address ≠ 0 := fun q' hq' ↦ hkeys q' (List.mem_append_left _ hq')
    have hk := hkeys q (List.mem_append_right _ (List.mem_singleton_self q))
    obtain ⟨f', hf'⟩ := Tables.agrees_run hinit hkeys hgrants
    rw [Machine.run_concat] at hgrants hf'
    have hgrants' := hgrants.mono (Tables.allocs_le_step q)
    obtain ⟨f, hf⟩ := Tables.agrees_run hinit hkeys' hgrants'
    have ih := ih hkeys' hgrants'
    have hstep : WriteSafe e (Machine.run (Tables.step e) t qs) (latest qs) →
        (WriteSafe e (Machine.run (Tables.step e) t (qs ++ [q])) (latest (qs ++ [q]))
          ↔ ¬Escalates (Machine.run (Tables.step e) t qs) (latest qs) q) := by
      intro hsafe
      rw [Machine.run_concat, hf'.shows.writeSafe_iff, latest_concat]
      exact hf.shows.permitted_step (hf.shows.writeSafe_iff.mp hsafe) hk
    constructor
    · intro hall pre q' hpre
      rcases List.prefix_concat_iff.mp hpre with heq | hpre
      · obtain ⟨rfl, hq⟩ := List.append_inj' heq rfl
        obtain rfl := List.singleton_inj.mp hq
        exact (hstep (hall pre (List.prefix_append _ _))).mp (hall _ (List.prefix_refl _))
      · exact ih.mp (fun pre' hpre' ↦ hall pre' (hpre'.trans (List.prefix_append _ _))) pre q' hpre
    · intro hall pre hpre
      have hprev := ih.mpr fun pre' q' hpre' ↦ hall pre' q' (hpre'.trans (List.prefix_append _ _))
      rcases List.prefix_concat_iff.mp hpre with rfl | hpre
      · exact (hstep (hprev qs (List.prefix_refl _))).mpr (hall qs q (List.prefix_refl _))
      · exact hprev pre hpre

end Run

/-- A read-only key, then seven keys that share its BRAM bucket, the last of which takes its slot
there and may be written; then the first key is read. -/
def escalation : List Call :=
  (.write, ⟨1, 100, mappingSet ||| mappingPermissionR⟩) :: setCalls
  [65, 129, 193, 257, 321, 385, 449]
    ++ [(.read, ⟨1, 0, mappingRequestRead⟩)]

/-- After this the first key can be written. -/
theorem write_permission_gained :
    (∀ q ∈ escalation, q.2.address ≠ 0)
      ∧ Tables.Grants (Env.bump 0x100000 0x200000)
        (Machine.run (Tables.step (Env.bump 0x100000 0x200000)) Tables.blank escalation).allocs
      ∧ latest escalation 1 = some (100, false)
      ∧ ((Machine.run (Tables.step (Env.bump 0x100000 0x200000)) Tables.blank escalation).serve
          (Env.bump 0x100000 0x200000) .write ⟨1, 0, mappingRequestWrite⟩).2
        = some ⟨piOutputSucceed, 100, 1⟩ := by
  have hallocs : (Machine.run (Tables.step (Env.bump 0x100000 0x200000)) Tables.blank
      escalation).allocs = 0 := by decide +kernel
  refine ⟨by decide, ?_, by decide +kernel, by decide +kernel⟩
  rw [hallocs]
  exact ⟨by constructor <;> decide, by decide⟩

/-- Without the last request no permission is gained. -/
theorem write_permission_iff_eight :
    (∀ q ∈ escalation.dropLast, q.2.opcode ≠ mappingRequestRead)
      ∧ WriteSafe (Env.bump 0x100000 0x200000)
        (Machine.run (Tables.step (Env.bump 0x100000 0x200000)) Tables.blank escalation.dropLast)
        (latest escalation.dropLast) := by
  have hallocs : (Machine.run (Tables.step (Env.bump 0x100000 0x200000)) Tables.blank
      escalation.dropLast).allocs = 0 := by decide +kernel
  have hsets : ∀ q ∈ escalation.dropLast, q.2.opcode ≠ mappingRequestRead := by decide
  refine ⟨hsets, (write_permission_iff (Tables.initial_blank (Env.bump 0x100000 0x200000))
    escalation.dropLast (by decide) ?_).mpr (fun pre q hpre hesc ↦ ?_) _ (List.prefix_refl _)⟩
  · rw [hallocs]
    exact ⟨by constructor <;> decide, by decide⟩
  · exact hsets q (hpre.subset (List.mem_append_right _ (List.mem_singleton_self q))) hesc.1

end FpgaOs.Mapping
