import FpgaOs.Lib.Machine
import FpgaOs.Mapping.Effect

/-!
# The chains in DRAM

Each of the 1024 buckets of the DRAM table is the first of a chain. `Chains` is the shape of this:
every chain ends, no bucket is on it twice or on two of them, and the buckets behind the first ones
are buckets the allocator has granted. It holds whatever keys are used. `Filled` is what the chains
hold, as long as key 0 is not used: a bucket that has a successor is full, slots are taken from the
lowest on, a taken slot is one that shows a key, and the key belongs to this chain and is on it only
once.

The allocator is asked for buckets and may refuse. What it grants has to be new, aligned to buckets
and outside the table; what these buckets hold does not matter.
-/

namespace FpgaOs.Mapping

open Linked PipelineInfo

/-! ## The allocator -/

/-- The index of the bucket that an answer of the allocator names. -/
def Env.granted (e : Env) (i : ℕ) : BitVec 26 :=
  (allocAddrTrans e.base (e.answers i).addr).setWidth 26

/-- The first `n` answers of the allocator are refusals, or different buckets outside the table. -/
structure Env.Fresh (e : Env) (n : ℕ) : Prop where
  aligned : ∀ i < n, (e.answers i).stat = 0 → 64 ∣ ((e.answers i).addr - e.base).toNat
  outside : ∀ i < n, (e.answers i).stat = 0 → 1024 * 64 ≤ ((e.answers i).addr - e.base).toNat
  distinct : ∀ i < n, ∀ j < n, (e.answers i).stat = 0 → (e.answers j).stat = 0 →
    (e.answers i).addr = (e.answers j).addr → i = j

theorem Env.Fresh.mono {e : Env} {n n' : ℕ} (h : e.Fresh n') (hn : n ≤ n') : e.Fresh n where
  aligned i hi := h.aligned i (hi.trans_le hn)
  outside i hi := h.outside i (hi.trans_le hn)
  distinct i hi j hj := h.distinct i (hi.trans_le hn) j (hj.trans_le hn)

/-- The sign bit that the translation may have does not reach the index. -/
theorem toNat_allocAddrTrans (base addr : BitVec 32) :
    ((allocAddrTrans base addr).setWidth 26).toNat = (addr - base).toNat / 64 := by
  have hsub : (addr.setWidth 33 - base.setWidth 33).setWidth 32 = addr - base := by
    apply BitVec.eq_of_toNat_eq
    simp only [BitVec.toNat_setWidth, BitVec.toNat_sub]
    omega
  have hbits : (allocAddrTrans base addr).setWidth 26 = ((addr - base) >>> 6).setWidth 26 := by
    apply BitVec.eq_of_getLsbD_eq
    intro i hi
    rw [← hsub, allocAddrTrans]
    simp only [BitVec.getLsbD_setWidth, BitVec.getLsbD_sshiftRight, BitVec.getLsbD_ushiftRight]
    have h1 : i < 32 := by omega
    have h2 : ¬33 ≤ i := by omega
    have h3 : 6 + i < 33 := by omega
    have h4 : 6 + i < 32 := by omega
    simp [hi, h1, h2, h3, h4]
  rw [hbits, BitVec.toNat_setWidth, BitVec.toNat_ushiftRight, Nat.shiftRight_eq_div_pow]
  have hlt := (addr - base).isLt
  omega

section Granted

variable {e : Env} {n : ℕ} (h : e.Fresh n)

include h

theorem Env.Fresh.granted_ne_root {i : ℕ} (hi : i < n) (hstat : (e.answers i).stat = 0)
    (r : BitVec 10) :
    e.granted i ≠ r.setWidth 26 := by
  intro heq
  have hout := h.outside i hi hstat
  have htoNat := congrArg BitVec.toNat heq
  rw [Env.granted, toNat_allocAddrTrans, BitVec.toNat_setWidth] at htoNat
  have hlt := r.isLt
  omega

theorem Env.Fresh.granted_inj {i j : ℕ} (hi : i < n) (hj : j < n) (histat : (e.answers i).stat = 0)
    (hjstat : (e.answers j).stat = 0) (heq : e.granted i = e.granted j) : i = j := by
  apply h.distinct i hi j hj histat hjstat
  have htoNat := congrArg BitVec.toNat heq
  rw [Env.granted, Env.granted, toNat_allocAddrTrans, toNat_allocAddrTrans] at htoNat
  have hidvd := h.aligned i hi histat
  have hjdvd := h.aligned j hj hjstat
  have hsub : (e.answers i).addr - e.base = (e.answers j).addr - e.base := by
    apply BitVec.eq_of_toNat_eq
    rw [← Nat.div_mul_cancel hidvd, ← Nat.div_mul_cancel hjdvd, htoNat]
  rw [← BitVec.sub_add_cancel (e.answers i).addr e.base, hsub, BitVec.sub_add_cancel]

end Granted

/-! ## What a request does to DRAM -/

/-- DRAM before and after a request whose chain is `l`. -/
inductive Stored (e : Env) (t : Tables) (l : List (BitVec 26)) (r : MappingRequest) (t' : Tables) :
    Prop
  | same (hbucket : t'.bucket e = t.bucket e) (hallocs : t.allocs ≤ t'.allocs)
    (hset : r.isSet = true → t'.allocs = t.allocs + 1 ∧ (e.answers t.allocs).stat ≠ 0)
  | slot {a : BitVec 26} {i : Slot} (hset : r.isSet = true)
      (hplace : place (t.bucket e) l r.address = (a, some i))
    (hbucket : t'.bucket e
      = Function.update (t.bucket e) a ((t.bucket e a).put i r.address r.length r.rw))
    (hallocs : t'.allocs = t.allocs)
  | append {z : BitVec 26} (hset : r.isSet = true)
      (hplace : place (t.bucket e) l r.address = (z, none))
    (hstat : (e.answers t.allocs).stat = 0)
    (hbucket : t'.bucket e = Function.update
      (Function.update (t.bucket e) (e.granted t.allocs) (Bucket.put 0 0 r.address r.length r.rw))
      z ((t.bucket e z).link (e.granted t.allocs)))
    (hallocs : t'.allocs = t.allocs + 1)

/-- How a `SET` whose chain is `l` is served. -/
inductive Inserted (e : Env) (t : Tables) (l : List (BitVec 26)) (c : Channel)
    (r : MappingRequest) : Prop
  | slot {a : BitVec 26} {i : Slot} {reply : MappingReply}
    (hplace : place (t.bucket e) l r.address = (a, some i))
    (hstatus : reply.status = piOutputSucceed)
    (heq : t.serve e c r = ((t.cached r).writeDram e (a.setWidth 32)
      ((t.bucket e a).put i r.address r.length r.rw), some reply))
  | append {z : BitVec 26} {reply : MappingReply}
    (hplace : place (t.bucket e) l r.address = (z, none)) (hstat : (e.answers t.allocs).stat = 0)
    (hstatus : reply.status = piOutputSucceed)
    (heq : t.serve e c r =
      ((({ t.cached r with allocs := t.allocs + 1 } : Tables).writeDram e
          (allocAddrTrans e.base (e.answers t.allocs).addr)
          (Bucket.put 0 0 r.address r.length r.rw)).writeDram e (z.setWidth 32)
          ((t.bucket e z).link ((allocAddrTrans e.base (e.answers t.allocs).addr).setWidth 26)),
        some reply))
  | refused {z : BitVec 26} {reply : MappingReply}
    (hplace : place (t.bucket e) l r.address = (z, none)) (hstat : (e.answers t.allocs).stat ≠ 0)
    (hstatus : reply.status = piOutputFailure)
    (heq : t.serve e c r = ({ t.cached r with allocs := t.allocs + 1 }, some reply))

/-- How a `GET` whose chain is `l` is served. -/
inductive Fetched (e : Env) (t : Tables) (l : List (BitVec 26)) (c : Channel)
    (r : MappingRequest) : Prop
  | bram {i : Slot} {reply : MappingReply} (hcmp : (t.bram r.index).compare r.address = some i)
    (hperm : (r.rw && !(t.bram r.index).perm i) = false) (hstatus : reply.status = piOutputSucceed)
    (haddress : reply.address = (t.bram r.index).val i) (heq : t.serve e c r = (t, some reply))
  | miss {reply : MappingReply} (hto : t.ToDram r)
    (hkey : findKey (t.bucket e) l r.address = none) (hstatus : reply.status = piOutputFailure)
    (heq : t.serve e c r = (t, some reply))
  | dram {a : BitVec 26} {i : Slot} {reply : MappingReply} (hto : t.ToDram r)
    (hkey : findKey (t.bucket e) l r.address = some (a, i))
    (hperm : r.rw = true → (t.bucket e a).perm i = true) (hstatus : reply.status = piOutputSucceed)
    (haddress : reply.address = (t.bucket e a).val i)
    (heq : t.serve e c r = (t.promoted r r.address ((t.bucket e a).val i), some reply))
  | denied {a : BitVec 26} {i : Slot} {reply : MappingReply} (hto : t.ToDram r)
    (hkey : findKey (t.bucket e) l r.address = some (a, i)) (hrw : r.rw = true)
    (hperm : (t.bucket e a).perm i = false) (hstatus : reply.status = piOutputFailure)
    (heq : t.serve e c r = (t.promoted r 0 0, some reply))

section Serve

variable {e : Env} {t : Tables} {l : List (BitVec 26)} {c : Channel} {r : MappingRequest}

theorem Tables.bucket_promoted (k v : BitVec 32) : (t.promoted r k v).bucket e = t.bucket e := by
  rw [promoted]
  split <;> rfl

theorem Tables.allocs_promoted (k v : BitVec 32) : (t.promoted r k v).allocs = t.allocs := by
  rw [promoted]
  split <;> rfl

/-- **Every `SET` is answered**, after the chain has been searched for a place. -/
theorem Tables.inserted_serve (hset : r.isSet = true)
    (hl : Chain (next (t.bucket e)) (root r.address) l) (hnodup : l.Nodup) :
    Inserted e t l c r := by
  cases hplace : place (t.bucket e) l r.address with
  | mk a slot =>
    cases slot with
    | some i =>
      obtain ⟨reply, hstatus, heq⟩ := serve_set_slot (c := c) hset hl hnodup hplace
      exact .slot hplace hstatus heq
    | none =>
      by_cases hstat : (e.answers t.allocs).stat = 0
      · obtain ⟨reply, hstatus, heq⟩ := serve_set_append (c := c) hset hl hnodup hplace hstat
        exact .append hplace hstat hstatus heq
      · obtain ⟨reply, hstatus, heq⟩ := serve_set_refused (c := c) hset hl hnodup hplace hstat
        exact .refused hplace hstat hstatus heq

/-- The case that a `GET` is in. -/
theorem Tables.get_cases (t : Tables) (r : MappingRequest) :
    (∃ i, (t.bram r.index).compare r.address = some i ∧ (r.rw && !(t.bram r.index).perm i) = false)
      ∨ t.ToDram r := by
  by_cases h : t.ToDram r
  · exact .inr h
  · simp only [ToDram, not_forall] at h
    obtain ⟨i, hcmp, hperm⟩ := h
    exact .inl ⟨i, hcmp, by simpa using hperm⟩

/-- **Every `GET` is answered**, from BRAM if its bucket there allows it. -/
theorem Tables.fetched_serve (hget : r.isGet = true)
    (hl : Chain (next (t.bucket e)) (root r.address) l) (hnodup : l.Nodup) :
    Fetched e t l c r := by
  -- the cached bucket decides, or the walk through DRAM does
  rcases t.get_cases r with ⟨i, hcmp, hperm⟩ | hto
  · obtain ⟨reply, hstatus, haddress, heq⟩ := serve_get_bram (c := c) hget hl hnodup hcmp hperm
    exact .bram hcmp hperm hstatus haddress heq
  cases hkey : findKey (t.bucket e) l r.address with
  | none =>
    obtain ⟨reply, hstatus, heq⟩ := serve_get_miss (c := c) hget hl hnodup hto hkey
    exact .miss hto hkey hstatus heq
  | some x =>
    cases hperm : r.rw && !(t.bucket e x.1).perm x.2 with
    | false =>
      obtain ⟨reply, hstatus, haddress, heq⟩ :=
        serve_get_dram (c := c) hget hl hnodup hto hkey hperm
      refine .dram hto hkey (fun hrw ↦ ?_) hstatus haddress heq
      rw [hrw] at hperm
      simpa using hperm
    | true =>
      obtain ⟨reply, hstatus, heq⟩ := serve_get_denied (c := c) hget hl hnodup hto hkey hperm
      obtain ⟨hrw, hclear⟩ := Bool.and_eq_true_iff.mp hperm
      exact .denied hto hkey hrw (by simpa using hclear) hstatus heq

/-- **Every request is answered**, and changes DRAM in one of the ways of `Stored`. -/
theorem Tables.stored_serve (hl : Chain (next (t.bucket e)) (root r.address) l) (hnodup : l.Nodup) :
    Stored e t l r (t.serve e c r).1 ∧ ∃ reply, (t.serve e c r).2 = some reply := by
  cases hset : r.isSet with
  | true =>
    have hinserted : Inserted e t l c r := inserted_serve hset hl hnodup
    cases hinserted with
    | slot hplace _ heq =>
      rw [heq]
      refine ⟨.slot hset hplace ?_ rfl, _, rfl⟩
      rw [bucket_writeDram]
      simp [cached]
    | append hplace hstat _ heq =>
      rw [heq]
      refine ⟨.append hset hplace hstat ?_ rfl, _, rfl⟩
      rw [bucket_writeDram, bucket_writeDram, Env.granted]
      simp only [BitVec.setWidth_setWidth_of_le, BitVec.setWidth_eq, Nat.reduceLeDiff]
      rfl
    | refused _ hstat _ heq =>
      rw [heq]
      exact ⟨.same rfl (Nat.le_succ _) fun _ ↦ ⟨rfl, hstat⟩, _, rfl⟩
  | false =>
    have hno : ∀ {p : Prop}, r.isSet = true → p := fun h ↦ by
      rw [hset] at h
      cases h
    cases hget : r.isGet with
    | false =>
      obtain ⟨reply, heq⟩ := serve_unknown (c := c) hset hget hl hnodup
      rw [heq]
      exact ⟨.same rfl le_rfl hno, reply, rfl⟩
    | true =>
      have hfetched : Fetched e t l c r := fetched_serve hget hl hnodup
      cases hfetched with
      | bram _ _ _ _ heq | miss _ _ _ heq =>
        rw [heq]
        exact ⟨.same rfl le_rfl hno, _, rfl⟩
      | dram _ _ _ _ _ heq | denied _ _ _ _ _ heq =>
        rw [heq]
        exact ⟨.same (bucket_promoted _ _) (allocs_promoted _ _).ge hno, _, rfl⟩

end Serve

section Place

variable {m : Store} {l : List (BitVec 26)} {k : BitVec 32} {a z : BitVec 26} {i : Slot}

theorem place_slot (h : place m l k = (a, some i)) :
    a ∈ l ∧ (findKey m l k = some (a, i) ∨
      (findKey m l k = none ∧ (m a).findEmptySlotDram = some i)) := by
  rw [place] at h
  cases hkey : findKey m l k with
  | some x =>
    rw [hkey] at h
    obtain ⟨rfl, hi⟩ := Prod.mk.inj h
    obtain rfl := Option.some.inj hi
    exact ⟨(mem_of_findKey hkey).1, .inl rfl⟩
  | none =>
    rw [hkey] at h
    cases hroom : findRoom m l with
    | none =>
      rw [hroom] at h
      cases (Prod.mk.inj h).2
    | some x =>
      rw [hroom] at h
      obtain ⟨rfl, hi⟩ := Prod.mk.inj h
      obtain rfl := Option.some.inj hi
      exact ⟨(mem_of_findRoom hroom).1, .inr ⟨rfl, (mem_of_findRoom hroom).2⟩⟩

/-- A chain is extended when the key is not on it and it has no empty slot. -/
theorem place_append (h : place m l k = (z, none)) :
    findKey m l k = none ∧ findRoom m l = none ∧ z = l.getLastD 0 := by
  rw [place] at h
  cases hkey : findKey m l k with
  | some x =>
    rw [hkey] at h
    cases (Prod.mk.inj h).2
  | none =>
    rw [hkey] at h
    cases hroom : findRoom m l with
    | none =>
      rw [hroom] at h
      exact ⟨rfl, rfl, (Prod.mk.inj h).1.symm⟩
    | some x =>
      rw [hroom] at h
      cases (Prod.mk.inj h).2

end Place

/-! ## The shape of the chains -/

/-- The chains of the table: `f r` lists the buckets of the chain with root `r`. -/
structure Chains (e : Env) (n : ℕ) (m : Store) (f : BitVec 10 → List (BitVec 26)) : Prop where
  chain : ∀ r, Chain (next m) (r.setWidth 26) (f r)
  nodup : ∀ r, (f r).Nodup
  apart : ∀ r r' a, a ∈ f r → a ∈ f r' → r = r'
  owned : ∀ r, ∀ a ∈ f r, a = r.setWidth 26 ∨ ∃ i < n, (e.answers i).stat = 0 ∧ a = e.granted i

/-- The tables before the first request. BRAM and the table in DRAM are zero; the rest of DRAM holds
anything. -/
structure Tables.Initial (e : Env) (t : Tables) : Prop where
  bram : ∀ i, t.bram i = 0
  dram : ∀ r : BitVec 10, t.bucket e (r.setWidth 26) = 0
  allocs : t.allocs = 0

theorem setWidth_root_inj {r r' : BitVec 10} (h : r.setWidth 26 = r'.setWidth 26) : r = r' := by
  apply BitVec.eq_of_toNat_eq
  have h := congrArg BitVec.toNat h
  rw [BitVec.toNat_setWidth, BitVec.toNat_setWidth] at h
  have hr := r.isLt
  have hr' := r'.isLt
  omega

theorem Chains.init {e : Env} {t : Tables} (h : t.Initial e) :
    Chains e t.allocs (t.bucket e) fun r ↦ [r.setWidth 26] where
  chain r := .last (by rw [next, h.dram, Bucket.chained_zero]; rfl)
  nodup r := List.nodup_singleton _
  apart r r' a ha ha' :=
    setWidth_root_inj ((List.mem_singleton.mp ha).symm.trans (List.mem_singleton.mp ha'))
  owned r a ha := .inl (List.mem_singleton.mp ha)

section Step

variable {e : Env} {n n' : ℕ} {m m' : Store} {f : BitVec 10 → List (BitVec 26)}

theorem Chains.mono (h : Chains e n m f) (hn : n ≤ n') : Chains e n' m f where
  chain := h.chain
  nodup := h.nodup
  apart := h.apart
  owned r a ha := (h.owned r a ha).imp_right fun ⟨i, hi, hrest⟩ ↦ ⟨i, hi.trans_le hn, hrest⟩

theorem next_update_put (a : BitVec 26) (i : Slot) (k v : BitVec 32) (p : Bool) :
    next (Function.update m a ((m a).put i k v p)) = next m := by
  funext x
  rw [next, next, Function.update_apply]
  split
  · next h =>
    subst h
    rw [Bucket.chained_put, Bucket.chainAddr_put]
  · rfl

theorem Chains.put (h : Chains e n m f) (a : BitVec 26) (i : Slot) (k v : BitVec 32) (p : Bool) :
    Chains e n (Function.update m a ((m a).put i k v p)) f where
  chain r := by
    rw [next_update_put]
    exact h.chain r
  nodup := h.nodup
  apart := h.apart
  owned := h.owned

/-- A bucket that has just been granted is on no chain. -/
theorem Chains.granted_not_mem (h : Chains e n m f) (hfresh : e.Fresh (n + 1))
    (hstat : (e.answers n).stat = 0) (r : BitVec 10) : e.granted n ∉ f r := by
  intro hmem
  rcases h.owned r _ hmem with heq | ⟨i, hi, histat, heq⟩
  · exact hfresh.granted_ne_root (Nat.lt_succ_self n) hstat r heq
  · have hn := hfresh.granted_inj (Nat.lt_succ_self n) (hi.trans (Nat.lt_succ_self n))
      hstat histat heq
    exact absurd hn hi.ne'

/-- The store after a bucket has been linked behind the last one of a chain. -/
def appended (m : Store) (z g : BitVec 26) (hb : Bucket) : Store :=
  Function.update (Function.update m g hb) z ((m z).link g)

theorem appended_of_ne {z g x : BitVec 26} {hb : Bucket} (hz : x ≠ z) (hg : x ≠ g) :
    appended m z g hb x = m x := by
  rw [appended, Function.update_of_ne hz, Function.update_of_ne hg]

theorem mem_extended {r r' : BitVec 10} {g x : BitVec 26} :
    x ∈ Function.update f r (f r ++ [g]) r' ↔ x ∈ f r' ∨ (x = g ∧ r' = r) := by
  by_cases hr : r' = r
  · subst hr
    simp
  · simp [hr]

/-- **Appending a bucket to a chain.** -/
theorem Chains.append (h : Chains e n m f) (hfresh : e.Fresh (n + 1))
    (hstat : (e.answers n).stat = 0) (r : BitVec 10) {hb : Bucket} (hhb : hb.chained = false) :
    Chains e (n + 1) (appended m ((f r).getLastD 0) (e.granted n) hb)
      (Function.update f r (f r ++ [e.granted n])) := by
  -- the bucket that has been granted is on no chain yet
  have hnew := h.granted_not_mem hfresh hstat
  obtain ⟨hz, hznext⟩ := (h.chain r).getLastD 0
  have hgz : e.granted n ≠ (f r).getLastD 0 := fun heq ↦ hnew r (heq ▸ hz)
  constructor
  · intro r'
    by_cases hr : r' = r
    · subst hr
      rw [Function.update_self]
      refine (h.chain r').extend (h.nodup r') hz hznext ?_ ?_ ?_
      · intro x hx hxz
        rw [next, next, appended_of_ne hxz (ne_of_mem_of_not_mem hx (hnew r'))]
      · rw [next, appended, Function.update_self, Bucket.chained_link, Bucket.chainAddr_link]
        rfl
      · rw [next, appended, Function.update_of_ne hgz, Function.update_self, hhb]
        rfl
    · rw [Function.update_of_ne hr]
      refine (h.chain r').congr fun x hx ↦ ?_
      have hxz : x ≠ (f r).getLastD 0 := fun heq ↦ hr (h.apart r' r x hx (heq ▸ hz))
      rw [next, next, appended_of_ne hxz (ne_of_mem_of_not_mem hx (hnew r'))]
  · intro r'
    by_cases hr : r' = r
    · subst hr
      rw [Function.update_self]
      exact List.nodup_append.mpr ⟨h.nodup r', List.nodup_singleton _, fun x hx y hy heq ↦
        hnew r' ((List.mem_singleton.mp hy) ▸ heq ▸ hx)⟩
    · rw [Function.update_of_ne hr]
      exact h.nodup r'
  · intro r₁ r₂ x h₁ h₂
    rcases mem_extended.mp h₁ with h₁ | ⟨hx₁, hr₁⟩
    · rcases mem_extended.mp h₂ with h₂ | ⟨hx₂, -⟩
      · exact h.apart r₁ r₂ x h₁ h₂
      · exact absurd h₁ (hx₂ ▸ hnew r₁)
    · rcases mem_extended.mp h₂ with h₂ | ⟨-, hr₂⟩
      · exact absurd h₂ (hx₁ ▸ hnew r₂)
      · rw [hr₁, hr₂]
  · intro r' x hx
    rcases mem_extended.mp hx with hx | ⟨rfl, -⟩
    · exact (h.mono (Nat.le_succ n)).owned r' x hx
    · exact .inr ⟨n, Nat.lt_succ_self n, hstat, rfl⟩

end Step

/-! ## What the chains hold -/

/-- The contents of the chains. Slots that are not taken show key 0. -/
structure Stocked (m : Store) (f : BitVec 10 → List (BitVec 26)) : Prop where
  full : ∀ r, ∀ a ∈ f r, next m a ≠ none → ∀ i, (m a).used i = true
  low : ∀ r, ∀ a ∈ f r, ∀ i j, i < j → (m a).used j = true → (m a).used i = true
  blank : ∀ r, ∀ a ∈ f r, ∀ i, (m a).used i = false → (m a).key i = 0
  home : ∀ r, ∀ a ∈ f r, ∀ i, (m a).used i = true → ((m a).key i).setWidth 10 = r
  unique : ∀ r, ∀ a ∈ f r, ∀ b ∈ f r, ∀ i j, (m a).used i = true → (m b).used j = true →
    (m a).key i = (m b).key j → a = b ∧ i = j

/-- A mapping is in a slot that is taken, on the chain of its key. -/
def Has (m : Store) (f : BitVec 10 → List (BitVec 26)) (k v : BitVec 32) (p : Bool) : Prop :=
  ∃ a ∈ f (k.setWidth 10), ∃ i,
    (m a).used i = true ∧ (m a).key i = k ∧ (m a).val i = v ∧ (m a).perm i = p

/-- The contents of the chains, when key 0 is not used. -/
structure Filled (m : Store) (f : BitVec 10 → List (BitVec 26)) : Prop where
  full : ∀ r, ∀ a ∈ f r, next m a ≠ none → ∀ i, (m a).used i = true
  low : ∀ r, ∀ a ∈ f r, ∀ i j, i < j → (m a).used j = true → (m a).used i = true
  used_iff : ∀ r, ∀ a ∈ f r, ∀ i, (m a).used i = true ↔ (m a).key i ≠ 0
  home : ∀ r, ∀ a ∈ f r, ∀ i, (m a).key i ≠ 0 → ((m a).key i).setWidth 10 = r
  unique : ∀ r, ∀ a ∈ f r, ∀ b ∈ f r, ∀ i j, (m a).key i ≠ 0 → (m a).key i = (m b).key j →
    a = b ∧ i = j

/-- A mapping is on the chain of its key. -/
def Holds (m : Store) (f : BitVec 10 → List (BitVec 26)) (k v : BitVec 32) (p : Bool) : Prop :=
  ∃ a ∈ f (k.setWidth 10), ∃ i, (m a).key i = k ∧ (m a).val i = v ∧ (m a).perm i = p

section Contents

variable {m : Store} {f : BitVec 10 → List (BitVec 26)} {k v : BitVec 32} {p : Bool}

theorem Filled.stocked (h : Filled m f) : Stocked m f where
  full := h.full
  low := h.low
  blank r a ha i hfree := by
    by_contra hne
    rw [(h.used_iff r a ha i).mpr hne] at hfree
    cases hfree
  home r a ha i hused := h.home r a ha i ((h.used_iff r a ha i).mp hused)
  unique r a ha b hb i j hused _ := h.unique r a ha b hb i j ((h.used_iff r a ha i).mp hused)

theorem Stocked.used_of_key_ne (h : Stocked m f) {r : BitVec 10} {a : BitVec 26} (ha : a ∈ f r)
    {i : Slot} (hkey : (m a).key i ≠ 0) : (m a).used i = true := by
  by_contra hfree
  exact hkey (h.blank r a ha i (by simpa using hfree))

/-- The difference is whether key 0 is on its chain. -/
theorem Stocked.filled (h : Stocked m f) (hzero : ∀ v p, ¬Has m f 0 v p) : Filled m f := by
  have hne : ∀ r, ∀ a ∈ f r, ∀ i, (m a).used i = true → (m a).key i ≠ 0 := by
    intro r a ha i hused hkey
    have hr := h.home r a ha i hused
    rw [hkey] at hr
    exact hzero _ _ ⟨a, hr ▸ ha, i, hused, hkey, rfl, rfl⟩
  constructor
  · exact h.full
  · exact h.low
  · exact fun r a ha i ↦ ⟨hne r a ha i, h.used_of_key_ne ha⟩
  · exact fun r a ha i hkey ↦ h.home r a ha i (h.used_of_key_ne ha hkey)
  · intro r a ha b hb i j hkey heq
    exact h.unique r a ha b hb i j (h.used_of_key_ne ha hkey)
      (h.used_of_key_ne hb (heq ▸ hkey)) heq

theorem Filled.not_has (h : Filled m f) : ¬Has m f 0 v p := by
  rintro ⟨a, ha, i, hused, hkey, -⟩
  exact (h.used_iff _ a ha i).mp hused hkey

theorem Stocked.holds_iff (h : Stocked m f) (hk : k ≠ 0) : Holds m f k v p ↔ Has m f k v p := by
  refine exists_congr fun a ↦ and_congr_right fun ha ↦ exists_congr fun i ↦ ?_
  refine ⟨fun hkey ↦ ⟨h.used_of_key_ne ha (hkey.1 ▸ hk), hkey⟩, And.right⟩

/-- A search for key 0 that ends at a slot that is not taken ends at the lowest one, and the key is
not on the chain. -/
theorem Stocked.hit_free (h : Stocked m f) {x : BitVec 26} {r : BitVec 10}
    (hl : Chain (next m) x (f r)) {a : BitVec 26} {i : Slot}
    (hkey : findKey m (f r) k = some (a, i)) (hfree : (m a).used i = false) :
    (∀ j < i, (m a).used j = true) ∧ ∀ b ∈ f r, ∀ j, (m b).used j = true → (m b).key j ≠ k := by
  obtain ⟨ha, hki⟩ := mem_of_findKey hkey
  have hk : k = 0 := hki.symm.trans (h.blank r a ha i hfree)
  obtain ⟨l₁, b, l₂, heq, hb, hbefore⟩ := List.findSome?_eq_some_iff.mp hkey
  obtain ⟨s, hs, hpair⟩ := Option.map_eq_some_iff.mp hb
  obtain ⟨rfl, rfl⟩ := Prod.mk.inj hpair
  -- a bucket with a free slot is the last one
  have hlast : next m b = none := by
    by_contra hne
    rw [h.full r b ha hne s] at hfree
    cases hfree
  have hl₂ : l₂ = [] := (heq ▸ hl).eq_nil_of_next hlast
  have hlow : ∀ j < s, (m b).used j = true := fun j hj ↦
    h.used_of_key_ne ha (hk ▸ Bucket.key_ne_of_lt hs hj)
  refine ⟨hlow, fun c hc j hused hkc ↦ ?_⟩
  rw [heq, hl₂] at hc
  rcases List.mem_append.mp hc with hc | hc
  · have hnone := Option.map_eq_none_iff.mp (hbefore c hc)
    exact Bucket.compare_eq_none.mp hnone j hkc
  · obtain rfl := List.mem_singleton.mp hc
    rcases lt_trichotomy j s with hlt | rfl | hgt
    · exact Bucket.key_ne_of_lt hs hlt hkc
    · rw [hused] at hfree
      cases hfree
    · rw [h.low r c ha s j hgt hused] at hfree
      cases hfree

theorem Stocked.init {e : Env} {t : Tables} (h : t.Initial e) :
    Stocked (t.bucket e) fun r ↦ [r.setWidth 26] := by
  have hzero : ∀ r : BitVec 10, ∀ a ∈ [r.setWidth 26], t.bucket e a = 0 := by
    intro r a ha
    rw [List.mem_singleton.mp ha, h.dram]
  have hfree : ∀ r : BitVec 10, ∀ a ∈ [r.setWidth 26], ∀ i, ¬(t.bucket e a).used i = true := by
    intro r a ha i
    rw [hzero r a ha, Bucket.used_zero]
    exact Bool.false_ne_true
  constructor
  · intro r a ha hnext
    rw [next, hzero r a ha, Bucket.chained_zero] at hnext
    exact absurd rfl hnext
  · exact fun r a ha i j _ hused ↦ absurd hused (hfree r a ha j)
  · intro r a ha i _
    rw [hzero r a ha, Bucket.key_zero]
  · exact fun r a ha i hused ↦ absurd hused (hfree r a ha i)
  · exact fun r a ha b _ i j hused ↦ absurd hused (hfree r a ha i)

theorem not_has_init {e : Env} {t : Tables} (h : t.Initial e) :
    ¬Has (t.bucket e) (fun r ↦ [r.setWidth 26]) k v p := by
  rintro ⟨a, ha, i, hused, -⟩
  rw [List.mem_singleton.mp ha, h.dram, Bucket.used_zero] at hused
  cases hused

theorem Filled.init {e : Env} {t : Tables} (h : t.Initial e) :
    Filled (t.bucket e) fun r ↦ [r.setWidth 26] :=
  (Stocked.init h).filled fun _ _ ↦ not_has_init h

end Contents

section Put

variable {m : Store} {a x : BitVec 26} {i j : Slot} {k v : BitVec 32} {p : Bool}

theorem key_update_put : (Function.update m a ((m a).put i k v p) x).key j
    = if x = a ∧ j = i then k else (m x).key j := by
  rw [Function.update_apply]
  by_cases hx : x = a
  · subst hx
    rw [if_pos rfl, Bucket.key_put]
    exact if_congr (by simp) rfl rfl
  · rw [if_neg hx, if_neg fun h ↦ hx h.1]

theorem used_update_put : (Function.update m a ((m a).put i k v p) x).used j
    = if x = a ∧ j = i then true else (m x).used j := by
  rw [Function.update_apply]
  by_cases hx : x = a
  · subst hx
    rw [if_pos rfl, Bucket.used_put]
    exact if_congr (by simp) rfl rfl
  · rw [if_neg hx, if_neg fun h ↦ hx h.1]

theorem val_update_put : (Function.update m a ((m a).put i k v p) x).val j
    = if x = a ∧ j = i then v else (m x).val j := by
  rw [Function.update_apply]
  by_cases hx : x = a
  · subst hx
    rw [if_pos rfl, Bucket.val_put]
    exact if_congr (by simp) rfl rfl
  · rw [if_neg hx, if_neg fun h ↦ hx h.1]

theorem perm_update_put : (Function.update m a ((m a).put i k v p) x).perm j
    = if x = a ∧ j = i then p else (m x).perm j := by
  rw [Function.update_apply]
  by_cases hx : x = a
  · subst hx
    rw [if_pos rfl, Bucket.perm_put]
    exact if_congr (by simp) rfl rfl
  · rw [if_neg hx, if_neg fun h ↦ hx h.1]

/-- **Writing a mapping to a slot**, which is the only one on the chain that may have its key. -/
theorem Stocked.put {f : BitVec 10 → List (BitVec 26)} (h : Stocked m f) {r : BitVec 10}
    (hr : k.setWidth 10 = r) (hapart : ∀ r', a ∈ f r' → r' = r)
    (hlow : ∀ j < i, (m a).used j = true)
    (honly : ∀ b ∈ f r, ∀ j, (m b).used j = true → (m b).key j = k → b = a ∧ j = i) :
    Stocked (Function.update m a ((m a).put i k v p)) f := by
  constructor
  · intro r' x hx hnext j
    rw [next_update_put] at hnext
    rw [used_update_put, h.full r' x hx hnext j, ite_self]
  · intro r' x hx j j' hlt
    rw [used_update_put, used_update_put]
    by_cases hj' : x = a ∧ j' = i
    · obtain ⟨rfl, rfl⟩ := hj'
      rw [hlow j hlt, ite_self]
      exact fun _ ↦ rfl
    · rw [if_neg hj']
      intro hused
      rw [h.low r' x hx j j' hlt hused, ite_self]
  · intro r' x hx j
    rw [used_update_put, key_update_put]
    split
    · exact nofun
    · exact h.blank r' x hx j
  · intro r' x hx j
    rw [used_update_put, key_update_put]
    split
    · next heq => exact fun _ ↦ hr.trans (hapart r' (heq.1 ▸ hx)).symm
    · exact h.home r' x hx j
  · intro r' x hx y hy j j' hused hused' heq
    rw [used_update_put] at hused hused'
    rw [key_update_put, key_update_put] at heq
    -- each of the two slots is the written one or not
    by_cases hj : x = a ∧ j = i
    · by_cases hj' : y = a ∧ j' = i
      · exact ⟨hj.1.trans hj'.1.symm, hj.2.trans hj'.2.symm⟩
      · rw [if_neg hj'] at hused'
        rw [if_pos hj, if_neg hj'] at heq
        obtain rfl := hapart r' (hj.1 ▸ hx)
        exact absurd (honly y hy j' hused' heq.symm) hj'
    · rw [if_neg hj] at hused
      by_cases hj' : y = a ∧ j' = i
      · rw [if_neg hj, if_pos hj'] at heq
        obtain rfl := hapart r' (hj'.1 ▸ hy)
        exact absurd (honly x hx j hused heq) hj
      · rw [if_neg hj'] at hused'
        rw [if_neg hj, if_neg hj'] at heq
        exact h.unique r' x hx y hy j j' hused hused' heq

theorem has_put {f : BitVec 10 → List (BitVec 26)} (ha : a ∈ f (k.setWidth 10))
    (honly : ∀ b ∈ f (k.setWidth 10), ∀ j, (m b).used j = true → (m b).key j = k → b = a ∧ j = i)
    (hslot : (m a).used i = true → (m a).key i = k) {k' v' : BitVec 32} {p' : Bool} :
    Has (Function.update m a ((m a).put i k v p)) f k' v' p'
      ↔ if k' = k then v' = v ∧ p' = p else Has m f k' v' p' := by
  simp only [Has, used_update_put, key_update_put, val_update_put, perm_update_put]
  split
  · next heq =>
    subst heq
    -- of the key that has been written only the new mapping is there
    constructor
    · rintro ⟨x, hx, j, hused, hkey, hval, hperm⟩
      have hij : x = a ∧ j = i := by
        by_contra hne
        rw [if_neg hne] at hused hkey
        exact hne (honly x hx j hused hkey)
      rw [if_pos hij] at hval hperm
      exact ⟨hval.symm, hperm.symm⟩
    · rintro ⟨rfl, rfl⟩
      exact ⟨a, ha, i, by simp⟩
  · next hne =>
    -- another key was not in the slot that has been overwritten
    refine exists_congr fun x ↦ and_congr_right fun hx ↦ exists_congr fun j ↦ ?_
    by_cases hij : x = a ∧ j = i
    · obtain ⟨rfl, rfl⟩ := hij
      refine iff_of_false (fun hnew ↦ ?_) fun hold ↦ hne (hold.2.1.symm.trans (hslot hold.1))
      rw [if_pos ⟨rfl, rfl⟩] at hnew
      exact hne (hnew.2.1.symm.trans (if_pos ⟨rfl, rfl⟩))
    · rw [if_neg hij, if_neg hij, if_neg hij, if_neg hij]

end Put

section Append

variable {m : Store} {z g x : BitVec 26} {hb : Bucket} {j : Slot}

theorem key_appended (hx : x ≠ g) : (appended m z g hb x).key j = (m x).key j := by
  by_cases hz : x = z
  · rw [hz, appended, Function.update_self, Bucket.key_link]
  · rw [appended_of_ne hz hx]

theorem used_appended (hx : x ≠ g) : (appended m z g hb x).used j = (m x).used j := by
  by_cases hz : x = z
  · rw [hz, appended, Function.update_self, Bucket.used_link]
  · rw [appended_of_ne hz hx]

theorem val_appended (hx : x ≠ g) : (appended m z g hb x).val j = (m x).val j := by
  by_cases hz : x = z
  · rw [hz, appended, Function.update_self, Bucket.val_link]
  · rw [appended_of_ne hz hx]

theorem perm_appended (hx : x ≠ g) : (appended m z g hb x).perm j = (m x).perm j := by
  by_cases hz : x = z
  · rw [hz, appended, Function.update_self, Bucket.perm_link]
  · rw [appended_of_ne hz hx]

theorem appended_self (hz : g ≠ z) : appended m z g hb g = hb := by
  rw [appended, Function.update_of_ne hz, Function.update_self]

section New

variable {f : BitVec 10 → List (BitVec 26)} {k v : BitVec 32} {p : Bool} (hgz : g ≠ z)

include hgz

theorem key_new (j : Slot) :
    (appended m z g (Bucket.put 0 0 k v p) g).key j = if j = 0 then k else 0 := by
  rw [appended_self hgz, Bucket.key_put, Bucket.key_zero]

theorem used_new (j : Slot) : (appended m z g (Bucket.put 0 0 k v p) g).used j = true ↔ j = 0 := by
  rw [appended_self hgz, Bucket.used_put, Bucket.used_zero]
  split
  · next hj => exact iff_of_true rfl hj
  · next hj => exact iff_of_false Bool.false_ne_true hj

end New

/-- **Writing a mapping to a new bucket** behind a chain that is full. -/
theorem Stocked.append {f : BitVec 10 → List (BitVec 26)} (h : Stocked m f) {r : BitVec 10}
    {k v : BitVec 32} {p : Bool} (hr : k.setWidth 10 = r) (hz : z ∈ f r) (hnew : ∀ r', g ∉ f r')
    (hapart : ∀ r', z ∈ f r' → r' = r) (hfull : ∀ b ∈ f r, ∀ j, (m b).used j = true)
    (hnone : ∀ b ∈ f r, ∀ j, (m b).key j ≠ k) :
    Stocked (appended m z g (Bucket.put 0 0 k v p)) (Function.update f r (f r ++ [g])) := by
  have hgz : g ≠ z := fun heq ↦ hnew r (heq ▸ hz)
  have hne : ∀ {r' x}, x ∈ f r' → x ≠ g := fun hx ↦ ne_of_mem_of_not_mem hx (hnew _)
  constructor
  · intro r' x hx hnext j
    rcases mem_extended.mp hx with hx | ⟨rfl, -⟩
    · rw [used_appended (hne hx)]
      -- `z` is chained now, and it is full
      by_cases hxz : x = z
      · have hr' := hapart r' (hxz ▸ hx)
        exact hfull x (hr' ▸ hx) j
      · rw [next, appended_of_ne hxz (hne hx), ← next] at hnext
        exact h.full r' x hx hnext j
    · rw [next, appended_self hgz, Bucket.chained_put, Bucket.chained_zero] at hnext
      exact absurd rfl hnext
  · intro r' x hx i j hij
    rcases mem_extended.mp hx with hx | ⟨rfl, -⟩
    · rw [used_appended (hne hx), used_appended (hne hx)]
      exact h.low r' x hx i j hij
    · rw [used_new hgz, used_new hgz]
      rintro rfl
      exact absurd hij (Fin.not_lt_zero i)
  · intro r' x hx i
    rcases mem_extended.mp hx with hx | ⟨rfl, -⟩
    · rw [used_appended (hne hx), key_appended (hne hx)]
      exact h.blank r' x hx i
    · rw [← Bool.not_eq_true, used_new hgz, key_new hgz]
      exact fun hi ↦ if_neg hi
  · intro r' x hx i
    rcases mem_extended.mp hx with hx | ⟨rfl, rfl⟩
    · rw [used_appended (hne hx), key_appended (hne hx)]
      exact h.home r' x hx i
    · rw [used_new hgz, key_new hgz]
      intro hi
      rwa [if_pos hi]
  · intro r' x hx y hy i j hused hused' heq
    -- a key on the old chain is not the new one, so no two slots share a key
    rcases mem_extended.mp hx with hx' | ⟨rfl, rfl⟩
    · rw [used_appended (hne hx')] at hused
      rw [key_appended (hne hx')] at heq
      rcases mem_extended.mp hy with hy' | ⟨rfl, rfl⟩
      · rw [used_appended (hne hy')] at hused'
        rw [key_appended (hne hy')] at heq
        exact h.unique r' x hx' y hy' i j hused hused' heq
      · rw [used_new hgz] at hused'
        rw [key_new hgz, if_pos hused'] at heq
        exact absurd heq (hnone x hx' i)
    · rw [used_new hgz] at hused
      rw [key_new hgz, if_pos hused] at heq
      rcases mem_extended.mp hy with hy' | ⟨rfl, -⟩
      · rw [key_appended (hne hy')] at heq
        exact absurd heq.symm (hnone y hy' j)
      · rw [used_new hgz] at hused'
        exact ⟨rfl, hused.trans hused'.symm⟩

theorem has_append {f : BitVec 10 → List (BitVec 26)} {k v : BitVec 32} {p : Bool}
    (hgz : g ≠ z) (hnew : ∀ r', g ∉ f r') (hnone : ∀ b ∈ f (k.setWidth 10), ∀ j, (m b).key j ≠ k)
    {k' v' : BitVec 32} {p' : Bool} :
    Has (appended m z g (Bucket.put 0 0 k v p))
        (Function.update f (k.setWidth 10) (f (k.setWidth 10) ++ [g])) k' v' p'
      ↔ if k' = k then v' = v ∧ p' = p else Has m f k' v' p' := by
  have hne : ∀ {r' x}, x ∈ f r' → x ≠ g := fun hx ↦ ne_of_mem_of_not_mem hx (hnew _)
  simp only [Has, mem_extended]
  split
  · next heq =>
    subst heq
    -- the old chain does not have the key
    constructor
    · rintro ⟨x, hx | ⟨rfl, -⟩, j, hused, hkey, hval, hperm⟩
      · rw [key_appended (hne hx)] at hkey
        exact absurd hkey (hnone x hx j)
      · rw [used_new hgz] at hused
        rw [appended_self hgz, Bucket.val_put, if_pos hused] at hval
        rw [appended_self hgz, Bucket.perm_put, if_pos hused] at hperm
        exact ⟨hval.symm, hperm.symm⟩
    · rintro ⟨rfl, rfl⟩
      refine ⟨g, .inr ⟨rfl, rfl⟩, 0, (used_new hgz 0).mpr rfl, ?_, ?_, ?_⟩
      · rw [key_new hgz, if_pos rfl]
      · rw [appended_self hgz, Bucket.val_put, if_pos rfl]
      · rw [appended_self hgz, Bucket.perm_put, if_pos rfl]
  · next hkk =>
    constructor
    · rintro ⟨x, hx | ⟨rfl, -⟩, j, hused, hkey, hval, hperm⟩
      · rw [used_appended (hne hx)] at hused
        rw [key_appended (hne hx)] at hkey
        rw [val_appended (hne hx)] at hval
        rw [perm_appended (hne hx)] at hperm
        exact ⟨x, hx, j, hused, hkey, hval, hperm⟩
      · rw [used_new hgz] at hused
        rw [key_new hgz, if_pos hused] at hkey
        exact absurd hkey.symm hkk
    · rintro ⟨x, hx, j, hused, hkey, hval, hperm⟩
      refine ⟨x, .inl hx, j, ?_, ?_, ?_, ?_⟩
      · rw [used_appended (hne hx), hused]
      · rw [key_appended (hne hx), hkey]
      · rw [val_appended (hne hx), hval]
      · rw [perm_appended (hne hx), hperm]

end Append

/-! ## Along a run -/

/-- A request with the channel it comes from. -/
abbrev Call := Channel × MappingRequest

/-- The tables after a request. -/
def Tables.step (e : Env) (t : Tables) (q : Call) : Tables := (t.serve e q.1 q.2).1

/-- The chains of DRAM and what they hold. -/
structure Tables.Orderly (e : Env) (t : Tables) (f : BitVec 10 → List (BitVec 26)) : Prop where
  chains : Chains e t.allocs (t.bucket e) f
  stocked : Stocked (t.bucket e) f

/-- The same when key 0 is not used. -/
structure Tables.Sound (e : Env) (t : Tables) (f : BitVec 10 → List (BitVec 26)) : Prop where
  chains : Chains e t.allocs (t.bucket e) f
  filled : Filled (t.bucket e) f

section Step

variable {e : Env} {t t' : Tables} {f : BitVec 10 → List (BitVec 26)} {r : MappingRequest}

/-- A request leaves the other chains alone. -/
theorem Chains.stored (h : Chains e t.allocs (t.bucket e) f)
    (hst : Stored e t (f (r.address.setWidth 10)) r t') (hfresh : e.Fresh t'.allocs) :
    ∃ f', Chains e t'.allocs (t'.bucket e) f' ∧ ∀ r' ≠ r.address.setWidth 10,
      f' r' = f r' ∧ ∀ a ∈ f r', t'.bucket e a = t.bucket e a := by
  cases hst with
  | same hbucket hallocs _ =>
    refine ⟨f, hbucket ▸ h.mono hallocs, fun r' _ ↦ ⟨rfl, fun a _ ↦ ?_⟩⟩
    rw [hbucket]
  | @slot a i hset hplace hbucket hallocs =>
    have ha := (place_slot hplace).1
    rw [hbucket, hallocs]
    refine ⟨f, h.put a i _ _ _, fun r' hr' ↦ ⟨rfl, fun b hb ↦ ?_⟩⟩
    rw [Function.update_of_ne]
    rintro rfl
    exact hr' (h.apart _ _ b hb ha)
  -- only the last bucket of the chain and the new one are written
  | @append z hset hplace hstat hbucket hallocs =>
    obtain ⟨-, -, rfl⟩ := place_append hplace
    have hz := ((h.chain (r.address.setWidth 10)).getLastD 0).1
    rw [hallocs] at hfresh ⊢
    rw [hbucket]
    refine ⟨_, h.append hfresh hstat (r.address.setWidth 10)
      (by rw [Bucket.chained_put, Bucket.chained_zero]), fun r' hr' ↦ ⟨?_, fun b hb ↦ ?_⟩⟩
    · exact Function.update_of_ne hr' _ _
    · refine appended_of_ne ?_ (ne_of_mem_of_not_mem hb (h.granted_not_mem hfresh hstat r'))
      rintro rfl
      exact hr' (h.apart _ _ _ hb hz)

/-- **A request keeps the chains in order.** It stores its own mapping, or nothing. -/
theorem Tables.Orderly.stored (h : t.Orderly e f)
    (hst : Stored e t (f (r.address.setWidth 10)) r t') (hfresh : e.Fresh t'.allocs) :
    ∃ f', t'.Orderly e f' ∧ ((t'.bucket e = t.bucket e ∧ f' = f
        ∧ (r.isSet = true → t'.allocs = t.allocs + 1 ∧ (e.answers t.allocs).stat ≠ 0))
      ∨ (r.isSet = true ∧ ∀ k v p, Has (t'.bucket e) f' k v p
        ↔ if k = r.address then v = r.length ∧ p = r.rw else Has (t.bucket e) f k v p)) := by
  cases hst with
  | same hbucket hallocs hset =>
    exact ⟨f, ⟨hbucket ▸ h.chains.mono hallocs, hbucket ▸ h.stocked⟩, .inl ⟨hbucket, rfl, hset⟩⟩
  | @slot a i hset hplace hbucket hallocs =>
    obtain ⟨ha, hslot⟩ := place_slot hplace
    have hapart : ∀ r', a ∈ f r' → r' = r.address.setWidth 10 :=
      fun r' ha' ↦ h.chains.apart _ _ a ha' ha
    -- a slot that is taken has the key; if the chosen one is not, no slot of the chain has it
    have hcases : ((t.bucket e a).used i = true ∧ (t.bucket e a).key i = r.address)
        ∨ ((t.bucket e a).used i = false ∧ (∀ j < i, (t.bucket e a).used j = true)
          ∧ ∀ b ∈ f (r.address.setWidth 10), ∀ j, (t.bucket e b).used j = true →
            (t.bucket e b).key j ≠ r.address) := by
      rcases hslot with hkey | ⟨hnone, hroom⟩
      · cases hused : (t.bucket e a).used i with
        | true => exact .inl ⟨rfl, (mem_of_findKey hkey).2⟩
        | false => exact .inr ⟨rfl, h.stocked.hit_free (h.chains.chain _) hkey hused⟩
      · exact .inr ⟨Bucket.used_of_findEmptySlotDram hroom, fun j hj ↦ Bucket.used_of_lt hroom hj,
          fun b hb j _ ↦ findKey_eq_none.mp hnone b hb j⟩
    have honly : ∀ b ∈ f (r.address.setWidth 10), ∀ j, (t.bucket e b).used j = true →
        (t.bucket e b).key j = r.address → b = a ∧ j = i := by
      intro b hb j hused hkey
      rcases hcases with ⟨hused', hkey'⟩ | ⟨-, -, hnone⟩
      · exact h.stocked.unique _ b hb a ha j i hused hused' (hkey.trans hkey'.symm)
      · exact absurd hkey (hnone b hb j hused)
    have hlow : ∀ j < i, (t.bucket e a).used j = true := by
      intro j hj
      rcases hcases with ⟨hused, -⟩ | ⟨-, hlow, -⟩
      · exact h.stocked.low _ a ha j i hj hused
      · exact hlow j hj
    have hkey : (t.bucket e a).used i = true → (t.bucket e a).key i = r.address := by
      intro hused
      rcases hcases with ⟨-, hkey⟩ | ⟨hfree, -⟩
      · exact hkey
      · rw [hused] at hfree
        cases hfree
    refine ⟨f, ⟨?_, ?_⟩, .inr ⟨hset, fun k v p ↦ ?_⟩⟩
    · rw [hbucket, hallocs]
      exact h.chains.put a i _ _ _
    · rw [hbucket]
      exact h.stocked.put rfl hapart hlow honly
    · rw [hbucket]
      exact has_put ha honly hkey
  | @append z hset hplace hstat hbucket hallocs =>
    obtain ⟨hnone, hroom, rfl⟩ := place_append hplace
    rw [hallocs] at hfresh
    have hz := ((h.chains.chain (r.address.setWidth 10)).getLastD 0).1
    have hnew := h.chains.granted_not_mem hfresh hstat
    have hgz : e.granted t.allocs ≠ (f (r.address.setWidth 10)).getLastD 0 :=
      fun heq ↦ hnew _ (heq ▸ hz)
    refine ⟨
      Function.update f (r.address.setWidth 10) (f (r.address.setWidth 10) ++ [e.granted t.allocs]),
      ⟨?_, ?_⟩, .inr ⟨hset, fun k v p ↦ ?_⟩⟩
    · rw [hallocs, hbucket]
      exact h.chains.append hfresh hstat _ (by rw [Bucket.chained_put, Bucket.chained_zero])
    · rw [hbucket]
      exact h.stocked.append rfl hz hnew (fun r' hz' ↦ h.chains.apart _ _ _ hz' hz)
        (findRoom_eq_none.mp hroom) (findKey_eq_none.mp hnone)
    · rw [hbucket]
      exact has_append hgz hnew (findKey_eq_none.mp hnone)

theorem Tables.Sound.orderly (h : t.Sound e f) : t.Orderly e f := ⟨h.chains, h.filled.stocked⟩

/-- **A request keeps the chains sound** if it is not for key 0. -/
theorem Tables.Sound.stored (h : t.Sound e f) (hst : Stored e t (f (r.address.setWidth 10)) r t')
    (hfresh : e.Fresh t'.allocs) (hk : r.address ≠ 0) :
    ∃ f', t'.Sound e f' ∧ ((t'.bucket e = t.bucket e ∧ f' = f
        ∧ (r.isSet = true → t'.allocs = t.allocs + 1 ∧ (e.answers t.allocs).stat ≠ 0))
      ∨ (r.isSet = true ∧ ∀ k ≠ 0, ∀ v p, Holds (t'.bucket e) f' k v p
        ↔ if k = r.address then v = r.length ∧ p = r.rw else Holds (t.bucket e) f k v p)) := by
  obtain ⟨f', hf', ⟨hbucket, rfl, hset⟩ | ⟨hset, hhas⟩⟩ := h.orderly.stored hst hfresh
  · exact ⟨f', ⟨hf'.chains, hbucket ▸ h.filled⟩, .inl ⟨hbucket, rfl, hset⟩⟩
  · refine ⟨f', ⟨hf'.chains, hf'.stocked.filled fun v p hzero ↦ ?_⟩,
      .inr ⟨hset, fun k hk' v p ↦ ?_⟩⟩
    · rw [hhas, if_neg hk.symm] at hzero
      exact h.filled.not_has hzero
    · rw [hf'.stocked.holds_iff hk', h.filled.stocked.holds_iff hk', hhas]

end Step

section Run

variable {e : Env} {t : Tables}

theorem Tables.allocs_le_fillS2 (pi : PipelineInfo) : t.allocs ≤ (t.fillS2 e pi).1.allocs := by
  simp only [fillS2]
  cases pi.fillIdle.2.2 with
  | idle => cases pi.fillIdle.2.1 <;> exact le_rfl
  | writeData => cases pi.fillIdle.2.1 <;> exact le_rfl
  | recvRet =>
    cases (pi.fillIdle.1.fillRecvRet e.base (e.answers t.allocs)).2 <;> exact Nat.le_succ _

theorem Tables.allocs_le_step (q : Call) : t.allocs ≤ (t.step e q).allocs := by
  rw [step, serve]
  split
  · exact le_rfl
  · exact allocs_le_fillS2 _

/-- **The chains are sound after every request** with a key other than 0. -/
theorem Tables.Sound.step {f : BitVec 10 → List (BitVec 26)} (h : t.Sound e f) {q : Call}
    (hk : q.2.address ≠ 0) (hfresh : e.Fresh (t.step e q).allocs) :
      ∃ f', (t.step e q).Sound e f' := by
  obtain ⟨hst, -⟩ := t.stored_serve (c := q.1) (h.chains.chain (q.2.address.setWidth 10))
    (h.chains.nodup _)
  obtain ⟨f', hf', -⟩ := h.stored hst hfresh hk
  exact ⟨f', hf'⟩

theorem Tables.Initial.sound (h : t.Initial e) : t.Sound e fun r ↦ [r.setWidth 26] :=
  ⟨Chains.init h, Filled.init h⟩

theorem Tables.sound_run (hinit : t.Initial e) {qs : List Call} (hkeys : ∀ q ∈ qs, q.2.address ≠ 0)
    (hfresh : e.Fresh (Machine.run (Tables.step e) t qs).allocs) :
    ∃ f, (Machine.run (Tables.step e) t qs).Sound e f := by
  refine @Machine.Guarded.invariant _ _ (Tables.step e) (fun _ q ↦ q.2.address ≠ 0)
    (fun t ↦ e.Fresh t.allocs → ∃ f, t.Sound e f) (fun t q ih hk hfresh ↦ ?_) t qs
    (fun _ ↦ ⟨_, hinit.sound⟩) (Machine.guarded_of_forall hkeys) hfresh
  obtain ⟨f, hf⟩ := ih (hfresh.mono (allocs_le_step q))
  exact hf.step hk hfresh

/-- The slots of a bucket that are taken are the low ones. -/
theorem Filled.exists_low {m : Store} {f : BitVec 10 → List (BitVec 26)} (h : Filled m f)
    {r : BitVec 10}
    {a : BitVec 26} (ha : a ∈ f r) : ∃ n : ℕ, ∀ i : Slot, (m a).used i = true ↔ (i : ℕ) < n := by
  cases hroom : (m a).findEmptySlotDram with
  | none => exact ⟨7, fun i ↦ iff_of_true (Bucket.findEmptySlotDram_eq_none.mp hroom i) i.isLt⟩
  | some s =>
    refine ⟨s, fun i ↦ ⟨fun hused ↦ ?_, fun hlt ↦ Bucket.used_of_lt hroom hlt⟩⟩
    by_contra hge
    have hfree := Bucket.used_of_findEmptySlotDram hroom
    rcases lt_or_eq_of_le (not_lt.mp hge) with hlt | heq
    · rw [h.low r a ha s i hlt hused] at hfree
      cases hfree
    · rw [Fin.ext heq, hused] at hfree
      cases hfree

/-- **DRAM chains stay well formed.** After any requests with keys other than 0, some of whose
allocations may have failed: the chains end, and no bucket is on two of them or twice on one; a
bucket with a successor is full, and of the last one the low slots are taken; the keys on a chain
belong to its root. So the walk for any request reads at most as many buckets as its chain has. -/
theorem chains_well_formed (hinit : t.Initial e) (qs : List Call)
    (hkeys : ∀ q ∈ qs, q.2.address ≠ 0)
    (hfresh : e.Fresh (Machine.run (Tables.step e) t qs).allocs) :
    ∃ f : BitVec 10 → List (BitVec 26),
      let t' := Machine.run (Tables.step e) t qs
      let m := t'.bucket e
      (∀ r, Chain (next m) (r.setWidth 26) (f r)) ∧ (∀ r, (f r).Nodup)
        ∧ (∀ r r' a, a ∈ f r → a ∈ f r' → r = r')
        ∧ (∀ r, ∀ a ∈ f r, next m a ≠ none → ∀ i, (m a).used i = true)
        ∧ (∀ r, ∃ n : ℕ, ∀ i : Slot, (m ((f r).getLastD 0)).used i = true ↔ (i : ℕ) < n)
        ∧ (∀ r, ∀ a ∈ f r, ∀ i, (m a).used i = true → ((m a).key i).setWidth 10 = r)
        ∧ ∀ c r, ∃ pi, ((entry c r).compareBram (t'.bram r.index)).fillS1 (t'.readDram e)
            (f (r.address.setWidth 10)).length = some pi := by
  obtain ⟨f, h⟩ := Tables.sound_run hinit hkeys hfresh
  refine ⟨f, h.chains.chain, h.chains.nodup, h.chains.apart, h.filled.full, fun r ↦ ?_, ?_, ?_⟩
  · exact h.filled.exists_low ((h.chains.chain r).getLastD 0).1
  · intro r a ha i hused
    exact h.filled.home r a ha i ((h.filled.used_iff r a ha i).mp hused)
  · intro c r
    exact ⟨_, Tables.fillS1_eq (h.chains.chain (r.address.setWidth 10)) le_rfl⟩

end Run

/-- An allocator that grants one bucket after the other, from `first` on. -/
def Env.bump (base first : BitVec 32) : Env := ⟨base, fun i ↦ ⟨0, first + 64 * BitVec.ofNat 32 i⟩⟩

/-- All memory is zero. -/
def Tables.blank : Tables := ⟨fun _ ↦ 0, fun _ ↦ 0, 0⟩

theorem Tables.initial_blank (e : Env) : Tables.blank.Initial e := ⟨fun _ ↦ rfl, fun _ ↦ rfl, rfl⟩

/-- `SET` requests on the write channel for the given keys. -/
def setCalls (ks : List (BitVec 32)) : List Call :=
  ks.map fun k ↦ (.write, ⟨k, k + 1, mappingSet ||| mappingPermissionRW⟩)

/-- The tables after eight keys of one chain, the last of which is put in a second bucket. -/
def Tables.eight : Tables :=
  Machine.run (Tables.step (Env.bump 0x100000 0x200000)) Tables.blank
    (setCalls [1, 1025, 2049, 3073, 4097, 5121, 6145, 7169])

theorem chains_well_formed_eight :
    Tables.eight.allocs = 1 ∧ ∃ f : BitVec 10 → List (BitVec 26),
      Chain (next (Tables.eight.bucket (Env.bump 0x100000 0x200000)))
        ((1 : BitVec 10).setWidth 26) (f 1)
        ∧ (f 1).Nodup := by
  have hallocs : Tables.eight.allocs = 1 := by decide +kernel
  have hfresh : (Env.bump 0x100000 0x200000).Fresh Tables.eight.allocs := by
    rw [hallocs]
    constructor <;> decide
  obtain ⟨f, hchain, hnodup, -⟩ := chains_well_formed
    (Tables.initial_blank (Env.bump 0x100000 0x200000))
    (setCalls [1, 1025, 2049, 3073, 4097, 5121, 6145, 7169]) (by decide) hfresh
  exact ⟨hallocs, f, hchain 1, hnodup 1⟩

end FpgaOs.Mapping
