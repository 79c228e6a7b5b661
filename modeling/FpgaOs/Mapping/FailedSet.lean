import FpgaOs.Mapping.Table

/-!
# A `SET` that fails

A `SET` fails when its chain is full and the allocator refuses another bucket. DRAM is then as it
was, since the link and the new bucket are written after the answer. But the copy in BRAM has been
written by that time and stays: a `GET` of the key finds it there, although the `SET` was reported
to have failed.

`failed_set_iff` says when this does not show. The key is not on its chain, so that what a `GET` of
it returns depends on the BRAM bucket alone; and the only buckets that a failed `SET` leaves alone
are those that had its mapping already, from a `SET` that failed before.
-/

namespace FpgaOs.Mapping

open Linked PipelineInfo

/-! ## What is compared -/

namespace Tables

variable (e : Env) (t : Tables) (q : Call)

/-- What the requester sees of a reply: whether it is a success, and the value. -/
def returned : Option (BitVec 1 × BitVec 32) :=
  (t.serve e q.1 q.2).2.map fun reply ↦ (reply.status, reply.address)

/-- A `SET` whose reply is failure. -/
def Fails : Prop :=
  q.2.isSet = true ∧ (t.serve e q.1 q.2).2.map MappingReply.status = some piOutputFailure

/-- The tables without the request that has just been made to the allocator in vain: later requests
get the answers that come after that one. -/
def passOver : Tables := { t with allocs := t.allocs + 1 }

/-- After any later requests a `GET` returns what it would return if `q` had not been made. -/
def NoEffect : Prop :=
  ∀ rs : List Call, (∀ r ∈ rs, r.2.address ≠ 0) → ∀ g : Call, g.2.isGet = true → g.2.address ≠ 0 →
    (Machine.run (Tables.step e) (t.step e q) rs).returned e g
      = (Machine.run (Tables.step e) t.passOver rs).returned e g

/-- The mapping of a `SET` is what the search in BRAM finds. -/
def HasCopy (r : MappingRequest) : Prop :=
  ∃ i, (t.bram r.index).compare r.address = some i ∧ (t.bram r.index).val i = r.length
    ∧ (t.bram r.index).perm i = r.rw

end Tables

/-! ## The bucket of the cache -/

namespace Bucket

variable {hb : Bucket} {i : Slot} {k v : BitVec 32} {p : Bool}

theorem cache_self (h : hb.compare k = some i) : hb.cache k (hb.val i) (hb.perm i) = hb := by
  have hkey := key_of_compare h
  rw [cache, h]
  dsimp only
  rw [← hkey, replace_self]

/-- The search finds what has just been cached. -/
theorem exists_compare_cache (hb : Bucket) (k v : BitVec 32) (p : Bool) :
    ∃ i, (hb.cache k v p).compare k = some i ∧ (hb.cache k v p).val i = v
      ∧ (hb.cache k v p).perm i = p := by
  obtain ⟨s, hs, hkey, hval, hperm⟩ := hb.exists_cache_slot k v p
  refine ⟨s, ?_, by rw [hval, if_pos rfl], by rw [hperm, if_pos rfl]⟩
  cases hcmp : (hb.cache k v p).compare k with
  | none => exact absurd ((hkey s).trans (if_pos rfl)) (compare_eq_none.mp hcmp s)
  | some j =>
    rcases hs with hs | ⟨hs, -⟩
    · -- the keys are what they were
      have hsame : (hb.cache k v p).compare k = hb.compare k := by
        have hkeys : ∀ j, (hb.cache k v p).key j = hb.key j := by
          intro j
          rw [hkey]
          split
          · next hj => rw [hj, key_of_compare hs]
          · rfl
        simp only [compare, hkeys]
      rw [← hcmp, hsame, hs]
    · -- the key is new in the bucket
      have hj := key_of_compare hcmp
      rw [hkey] at hj
      by_cases hjs : j = s
      · rw [hjs]
      · rw [if_neg hjs] at hj
        exact absurd hj (compare_eq_none.mp hs j)

end Bucket

/-! ## One failed request -/

namespace Tables

variable {e : Env} {t : Tables} {q : Call} {l : List (BitVec 26)}

section Absent

variable (hl : Chain (next (t.bucket e)) (root q.2.address) l) (hnodup : l.Nodup)

include hl hnodup

/-- **A `SET` fails only by the allocator**, and then its key is not on the chain. It has written to
BRAM. -/
theorem Fails.serve (h : t.Fails e q) :
    findKey (t.bucket e) l q.2.address = none ∧ (e.answers t.allocs).stat ≠ 0
      ∧ t.step e q = { t.cached q.2 with allocs := t.allocs + 1 } := by
  obtain ⟨hset, hstatus⟩ := h
  have hno : some piOutputSucceed ≠ some piOutputFailure := by decide
  have hinserted : Inserted e t l q.1 q.2 := inserted_serve hset hl hnodup
  cases hinserted with
  | slot _ hsucceed heq | append _ _ hsucceed heq =>
    rw [heq, Option.map_some, hsucceed] at hstatus
    exact absurd hstatus hno
  | refused hplace hstat _ heq => exact ⟨(place_append hplace).1, hstat, by rw [step, heq]⟩

/-- A `SET` that is refused a bucket fails. -/
theorem Starved.fails (h : t.Starved e q) : t.Fails e q := by
  obtain ⟨hset, hallocs, hstat⟩ := h
  refine ⟨hset, ?_⟩
  rw [step] at hallocs
  have hinserted : Inserted e t l q.1 q.2 := inserted_serve hset hl hnodup
  cases hinserted with
  | slot _ _ heq =>
    rw [heq] at hallocs
    exact absurd hallocs.symm (Nat.succ_ne_self _)
  | append _ hgranted => exact absurd hgranted hstat
  | refused _ _ hstatus heq => rw [heq, Option.map_some, hstatus]

/-- A key that is not on its chain is found in BRAM only. -/
theorem returned_of_absent (habsent : findKey (t.bucket e) l q.2.address = none)
    (hget : q.2.isGet = true) (v : BitVec 32) :
    t.returned e q = some (piOutputSucceed, v) ↔
      ∃ i, (t.bram q.2.index).compare q.2.address = some i
        ∧ (q.2.rw && !(t.bram q.2.index).perm i) = false ∧ (t.bram q.2.index).val i = v := by
  rw [returned]
  rcases t.get_cases q.2 with ⟨i, hcmp, hperm⟩ | hto
  · obtain ⟨reply, hstatus, haddress, heq⟩ := serve_get_bram (c := q.1) hget hl hnodup hcmp hperm
    rw [heq, Option.map_some, hstatus, haddress]
    constructor
    · intro hv
      exact ⟨i, hcmp, hperm, (Prod.mk.inj (Option.some.inj hv)).2⟩
    · rintro ⟨j, hj, -, rfl⟩
      rw [Option.some.inj (hcmp.symm.trans hj)]
  · obtain ⟨reply, hstatus, heq⟩ := serve_get_miss (c := q.1) hget hl hnodup hto habsent
    rw [heq, Option.map_some, hstatus]
    refine iff_of_false (fun hv ↦ ?_) ?_
    · exact absurd (Prod.mk.inj (Option.some.inj hv)).1 (by decide)
    · rintro ⟨i, hi, hallowed, -⟩
      rw [hto i hi] at hallowed
      cases hallowed

end Absent

section Probe

variable {c : Channel} {k : BitVec 32}
  (hl : Chain (next (t.bucket e)) (root k) l) (hnodup : l.Nodup)
  (habsent : findKey (t.bucket e) l k = none)

include hl hnodup habsent

theorem read_of_absent (v : BitVec 32) :
    t.returned e (c, ⟨k, 0, mappingRequestRead⟩) = some (piOutputSucceed, v) ↔
      ∃ i, (t.bram (k.setWidth 6)).compare k = some i ∧ (t.bram (k.setWidth 6)).val i = v := by
  rw [returned_of_absent (q := (c, ⟨k, 0, mappingRequestRead⟩)) hl hnodup habsent rfl]
  exact exists_congr fun i ↦ and_congr_right fun _ ↦ and_iff_right rfl

theorem write_of_absent (v : BitVec 32) :
    t.returned e (c, ⟨k, 0, mappingRequestWrite⟩) = some (piOutputSucceed, v) ↔
      ∃ i, (t.bram (k.setWidth 6)).compare k = some i
        ∧ (t.bram (k.setWidth 6)).perm i = true ∧ (t.bram (k.setWidth 6)).val i = v := by
  rw [returned_of_absent (q := (c, ⟨k, 0, mappingRequestWrite⟩)) hl hnodup habsent rfl]
  refine exists_congr fun i ↦ and_congr_right fun _ ↦ and_congr_left fun _ ↦ ?_
  change (true && !(t.bram (k.setWidth 6)).perm i) = false ↔ _
  rw [Bool.true_and, Bool.not_eq_false']

end Probe

/-- **When a failed `SET` has no effect.** If its mapping is in BRAM already, the tables are as they
were; otherwise a `GET` that comes next shows the difference. -/
theorem Fails.noEffect_iff (hl : Chain (next (t.bucket e)) (root q.2.address) l) (hnodup : l.Nodup)
    (hk : q.2.address ≠ 0) (h : t.Fails e q) : t.NoEffect e q ↔ t.HasCopy q.2 := by
  obtain ⟨habsent, -, hstep⟩ := h.serve hl hnodup
  constructor
  · intro hno
    obtain ⟨s, hs, hval, hperm⟩ :=
      (t.bram q.2.index).exists_compare_cache q.2.address q.2.length q.2.rw
    have hbucket : (t.step e q).bucket e = t.bucket e := by rw [hstep]; rfl
    have hbram : (t.step e q).bram q.2.index
        = (t.bram q.2.index).cache q.2.address q.2.length q.2.rw := by
      rw [hstep]
      exact Function.update_self ..
    rw [← hbram] at hs hval hperm
    have hl' : Chain (next ((t.step e q).bucket e)) (root q.2.address) l := hbucket ▸ hl
    have habsent' : findKey ((t.step e q).bucket e) l q.2.address = none := hbucket ▸ habsent
    have hsame (o : BitVec 8) (hget : (⟨q.2.address, 0, o⟩ : MappingRequest).isGet = true) :=
      hno [] nofun (q.1, ⟨q.2.address, 0, o⟩) hget hk
    -- a `GET` for reading shows the value
    have hread := (read_of_absent (c := q.1) hl' hnodup habsent' q.2.length).mpr ⟨s, hs, hval⟩
    obtain ⟨i, hi, hvali⟩ := (read_of_absent (t := t.passOver) hl hnodup habsent q.2.length).mp
      ((hsame mappingRequestRead rfl).symm.trans hread)
    refine ⟨i, hi, hvali, Bool.eq_iff_iff.mpr ?_⟩
    -- and one for writing shows the permission
    constructor
    · intro hpermi
      have hwrite := (write_of_absent (t := t.passOver) (c := q.1) hl hnodup habsent
        q.2.length).mpr ⟨i, hi, hpermi, hvali⟩
      obtain ⟨j, hj, hpermj, -⟩ := (write_of_absent hl' hnodup habsent' q.2.length).mp
        ((hsame mappingRequestWrite rfl).trans hwrite)
      obtain rfl := Option.some.inj (hs.symm.trans hj)
      exact hperm.symm.trans hpermj
    · intro hrw
      have hwrite := (write_of_absent (c := q.1) hl' hnodup habsent' q.2.length).mpr
        ⟨s, hs, hperm.trans hrw, hval⟩
      obtain ⟨j, hj, hpermj, -⟩ := (write_of_absent (t := t.passOver) hl hnodup habsent
        q.2.length).mp ((hsame mappingRequestWrite rfl).symm.trans hwrite)
      obtain rfl := Option.some.inj (hi.symm.trans hj)
      exact hpermj
  · rintro ⟨i, hcmp, hval, hperm⟩ rs hrs g hget hg
    have hcached : t.cached q.2 = t := by
      rw [cached, ← hval, ← hperm, Bucket.cache_self hcmp, writeBram, Function.update_eq_self]
    rw [hstep, hcached, passOver]

end Tables

section Run

/-- **A failed `SET` and what comes after it.** In every state reached with keys other than 0,
whatever the allocator has answered, and for every `SET` of such a key that fails: all later `GET`s
return what they would have returned without it exactly when the BRAM bucket had its value and its
permission for the key before. -/
theorem failed_set_iff {e : Env} {t : Tables} (hinit : t.Initial e) (qs : List Call)
    (hkeys : ∀ q ∈ qs, q.2.address ≠ 0)
    (hfresh : e.Fresh (Machine.run (Tables.step e) t qs).allocs) (q : Call) (hk : q.2.address ≠ 0)
    (hfails : (Machine.run (Tables.step e) t qs).Fails e q) :
    (Machine.run (Tables.step e) t qs).NoEffect e q
      ↔ (Machine.run (Tables.step e) t qs).HasCopy q.2 := by
  obtain ⟨f, hf⟩ := Tables.sound_run hinit hkeys hfresh
  exact hfails.noEffect_iff (hf.chains.chain (q.2.address.setWidth 10)) (hf.chains.nodup _) hk

/-- An allocator that has nothing to give. -/
def Env.exhausted (base : BitVec 32) : Env := ⟨base, fun _ ↦ ⟨1, 0⟩⟩

theorem Env.fresh_exhausted (base : BitVec 32) (n : ℕ) : (Env.exhausted base).Fresh n := by
  have hno : (1 : BitVec 1) ≠ 0 := by decide
  constructor
  · exact fun _ _ h ↦ absurd h hno
  · exact fun _ _ h ↦ absurd h hno
  · exact fun _ _ _ _ h ↦ absurd h hno

/-- The tables after `SET`s of keys of one chain, which has room for seven. -/
def Tables.crowded (ks : List (BitVec 32)) : Tables :=
  Machine.run (Tables.step (Env.exhausted 0x100000)) Tables.blank (setCalls ks)

/-- When the `SET` of the eighth key is made again, nothing changes. -/
theorem failed_set_iff_again :
    (Tables.crowded [1, 1025, 2049, 3073, 4097, 5121, 6145, 7169]).NoEffect (Env.exhausted 0x100000)
      (.write, ⟨7169, 7170, mappingSet ||| mappingPermissionRW⟩) :=
  (failed_set_iff (Tables.initial_blank _) (setCalls [1, 1025, 2049, 3073, 4097, 5121, 6145, 7169])
    (by decide) (Env.fresh_exhausted _ _) (.write, ⟨7169, 7170, mappingSet ||| mappingPermissionRW⟩)
    (by decide) ⟨rfl, by decide +kernel⟩).mpr
    ⟨0, by decide +kernel, by decide +kernel, by decide +kernel⟩

/-- The first time it fails too, but a `GET` of the key is then answered with its value. -/
theorem failed_set_found :
    (Tables.crowded [1, 1025, 2049, 3073, 4097, 5121, 6145]).Fails (Env.exhausted 0x100000)
        (.write, ⟨7169, 7170, mappingSet ||| mappingPermissionRW⟩)
      ∧ (Tables.crowded [1, 1025, 2049, 3073, 4097, 5121, 6145, 7169]).returned
        (Env.exhausted 0x100000) (.read, ⟨7169, 0, mappingRequestRead⟩)
        = some (piOutputSucceed, 7170)
      ∧ ¬(Tables.crowded [1, 1025, 2049, 3073, 4097, 5121, 6145]).NoEffect (Env.exhausted 0x100000)
        (.write, ⟨7169, 7170, mappingSet ||| mappingPermissionRW⟩) := by
  refine ⟨⟨rfl, by decide +kernel⟩, by decide +kernel, fun hno ↦ ?_⟩
  have hsame := hno [] nofun (.read, ⟨7169, 0, mappingRequestRead⟩) rfl (by decide)
  exact absurd hsame (by decide +kernel)

end Run

end FpgaOs.Mapping
