import FpgaOs.Lib.Window
import FpgaOs.Mapping.Chains

/-!
# One request after the other

The requests that the pipeline accepts form a sequence `Q`. This file looks at what happens to them
when each is served before the next one starts: `tables k` are the tables that request `k` finds,
and `entered k` to `finished k` are the words it then is on its way through the stages. The pipeline
will be compared with these sequences, which do not depend on its schedule.

Requests do not disturb each other unless they share a BRAM bucket. A request writes to its own BRAM
bucket only; in DRAM it writes to buckets of its own chain and to a bucket that is on no chain; and
two keys of different BRAM buckets have different chains, since the chain is chosen by more bits of
the key.
-/

namespace FpgaOs.Mapping

open Linked PipelineInfo

/-! ## The sequences -/

section Serial

variable (e : Env) (t : Tables) (Q : ℕ → Call)

/-- The tables before request `k`. -/
def tables : ℕ → Tables
  | 0 => t
  | k + 1 => (tables k).step e (Q k)

/-- The bucket of the BRAM table that request `k` uses. -/
def bramIndexOf (k : ℕ) : BitVec 6 := (Q k).2.index

/-- Request `k` as `remux` hands it on. -/
def entered (k : ℕ) : PipelineInfo := remux (Q k).1 (Q k).2

/-- Request `k` as `compute_hash` hands it on. -/
def hashed (k : ℕ) : PipelineInfo := entry (Q k).1 (Q k).2

/-- What request `k` reads from BRAM. -/
def readBucketOf (k : ℕ) : Bucket := (tables e t Q k).bram (bramIndexOf Q k)

/-- Request `k` as `compare_bram` hands it on. -/
def compared (k : ℕ) : PipelineInfo := (hashed Q k).compareBram (readBucketOf e t Q k)

/-- Request `k` as `fill_S1` hands it on. -/
def filled (k : ℕ) : PipelineInfo :=
  ((compared e t Q k).fillS1 ((tables e t Q k).readDram e) Tables.nrBuckets).getD {}

/-- Request `k` as `fill_S2` hands it on. -/
def finished (k : ℕ) : PipelineInfo := ((tables e t Q k).fillS2 e (filled e t Q k)).2

end Serial

/-! ## Frames -/

section Frame

variable {e : Env} {t : Tables}

theorem Tables.bram_fillS2 {pi : PipelineInfo} {i : BitVec 6} (hi : i ≠ pi.bramIndex) :
    (t.fillS2 e pi).1.bram i = t.bram i := by
  simp only [fillS2]
  cases pi.fillIdle.2.1 with
  | none =>
    cases pi.fillIdle.2.2 with
    | idle => rfl
    | writeData => rfl
    | recvRet => cases (pi.fillIdle.1.fillRecvRet e.base (e.answers t.allocs)).2 <;> rfl
  | some hb =>
    have hwrite : (t.writeBram pi.bramIndex hb).bram i = t.bram i := Function.update_of_ne hi _ _
    cases pi.fillIdle.2.2 with
    | idle => exact hwrite
    | writeData => exact hwrite
    | recvRet => cases (pi.fillIdle.1.fillRecvRet e.base (e.answers t.allocs)).2 <;> exact hwrite

theorem root_ne_of_index_ne {k k' : BitVec 32} (h : k.setWidth 6 ≠ k'.setWidth 6) :
    k.setWidth 10 ≠ k'.setWidth 10 := by
  intro heq
  apply h
  have hsix := congrArg (BitVec.setWidth 6) heq
  rwa [BitVec.setWidth_setWidth_of_le _ (by decide),
    BitVec.setWidth_setWidth_of_le _ (by decide)] at hsix

end Frame

section Serial

variable {e : Env} {t : Tables} {Q : ℕ → Call} (hinit : t.Initial e) (hfresh : ∀ n, e.Fresh n)

include hinit hfresh

theorem chains_tables (k : ℕ) :
    ∃ f, Chains e (tables e t Q k).allocs ((tables e t Q k).bucket e) f := by
  induction k with
  | zero => exact ⟨_, Chains.init hinit⟩
  | succ k ih =>
    obtain ⟨f, hf⟩ := ih
    obtain ⟨hst, -⟩ :=
      Tables.stored_serve (c := (Q k).1) (hf.chain ((Q k).2.address.setWidth 10)) (hf.nodup _)
    obtain ⟨f', hf', -⟩ := hf.stored hst (hfresh _)
    exact ⟨f', hf'⟩

theorem fillS1_compared (k : ℕ) :
    (compared e t Q k).fillS1 ((tables e t Q k).readDram e) Tables.nrBuckets = some
    (filled e t Q k) := by
  obtain ⟨f, hf⟩ := chains_tables (Q := Q) hinit hfresh k
  have hfill := Tables.fillS1_eq (c := (Q k).1) (hf.chain ((Q k).2.address.setWidth 10))
    (Tables.length_le_nrBuckets (hf.nodup _))
  rw [filled]
  exact (congrArg (fun x ↦ some (x.getD {})) hfill).symm ▸ hfill

theorem serve_tables (k : ℕ) :
    (tables e t Q k).serve e (Q k).1 (Q k).2
      = (tables e t Q (k + 1), some (finished e t Q k).demux) := by
  have hfill := fillS1_compared (Q := Q) hinit hfresh k
  have hserve : (tables e t Q k).serve e (Q k).1 (Q k).2
      = (((tables e t Q k).fillS2 e (filled e t Q k)).1, some (finished e t Q k).demux) := by
    have hcmp : (remux (Q k).1 (Q k).2).computeHash.compareBram
        ((tables e t Q k).bram (remux (Q k).1 (Q k).2).computeHash.bramIndex) = compared e t Q k :=
          rfl
    rw [Tables.serve, hcmp, hfill]
    rfl
  rw [tables, Tables.step, hserve]

theorem tables_succ (k : ℕ) :
    tables e t Q (k + 1) = ((tables e t Q k).fillS2 e (filled e t Q k)).1 := by
  have hserve := serve_tables (Q := Q) hinit hfresh k
  have hfill := fillS1_compared (Q := Q) hinit hfresh k
  have hcmp : (remux (Q k).1 (Q k).2).computeHash.compareBram
      ((tables e t Q k).bram (remux (Q k).1 (Q k).2).computeHash.bramIndex) = compared e t Q k :=
        rfl
  rw [Tables.serve, hcmp, hfill] at hserve
  exact (Prod.mk.inj hserve).1.symm

theorem same_filled (k : ℕ) : (hashed Q k).Same (filled e t Q k) := by
  obtain ⟨f, hf⟩ := chains_tables (Q := Q) hinit hfresh k
  have hfill := Tables.fillS1_eq (c := (Q k).1) (hf.chain ((Q k).2.address.setWidth 10))
    (Tables.length_le_nrBuckets (hf.nodup _))
  have heq : filled e t Q k = searched (tables e t Q k) e (f ((Q k).2.address.setWidth 10))
    (Q k).1 (Q k).2 :=
    Option.some.inj ((fillS1_compared (Q := Q) hinit hfresh k).symm.trans hfill)
  rw [heq]
  exact Tables.same_searched _ _ _ _ _

theorem bramIndex_filled (k : ℕ) : (filled e t Q k).bramIndex = bramIndexOf Q k := by
  rw [bramIndex, (same_filled hinit hfresh k).hash]
  rfl

/-- A BRAM bucket that is not used from request `j` on is at `k` as it was. -/
theorem bram_tables {j k : ℕ} (hjk : j ≤ k) {i : BitVec 6}
    (hne : ∀ n, j ≤ n → n < k → bramIndexOf Q n ≠ i) :
    (tables e t Q k).bram i = (tables e t Q j).bram i := by
  induction k, hjk using Nat.le_induction with
  | base => rfl
  | succ k hjk ih =>
    have hi : i ≠ (filled e t Q k).bramIndex := by
      rw [bramIndex_filled hinit hfresh]
      exact (hne k hjk (Nat.lt_succ_self k)).symm
    rw [tables_succ hinit hfresh, Tables.bram_fillS2 hi]
    exact ih fun n hjn hnk ↦ hne n hjn (Nat.lt_succ_of_lt hnk)

omit hinit in
/-- A chain that is not used from request `j` on is at `k` as it was. -/
theorem chain_tables {j k : ℕ} (hjk : j ≤ k) {f : BitVec 10 → List (BitVec 26)}
    (hf : Chains e (tables e t Q j).allocs ((tables e t Q j).bucket e) f) {r : BitVec 10}
    (hne : ∀ n, j ≤ n → n < k → (Q n).2.address.setWidth 10 ≠ r) :
    ∃ f', Chains e (tables e t Q k).allocs ((tables e t Q k).bucket e) f' ∧ f' r = f r
      ∧ ∀ a ∈ f r, (tables e t Q k).bucket e a = (tables e t Q j).bucket e a := by
  induction k, hjk using Nat.le_induction with
  | base => exact ⟨f, hf, rfl, fun _ _ ↦ rfl⟩
  | succ k hjk ih =>
    obtain ⟨g, hg, hgr, hsame⟩ := ih fun n hjn hnk ↦ hne n hjn (Nat.lt_succ_of_lt hnk)
    obtain ⟨hst, -⟩ :=
      Tables.stored_serve (c := (Q k).1) (hg.chain ((Q k).2.address.setWidth 10)) (hg.nodup _)
    obtain ⟨f', hf', hframe⟩ := hg.stored hst (hfresh _)
    obtain ⟨hr, hbucket⟩ := hframe r (hne k hjk (Nat.lt_succ_self k)).symm
    refine ⟨f', hf', hr.trans hgr, fun a ha ↦ ?_⟩
    exact (hbucket a (hgr.symm ▸ ha)).trans (hsame a ha)

end Serial

/-! ## The rest of `fill_S2` -/

/-- What `fill_S2` still does from one of its states on, with the allocator's answer at hand. -/
def Tables.finish (e : Env) (t : Tables) (pi : PipelineInfo) (new : Bucket) :
    AllocState → Tables × PipelineInfo
  | .idle => (t, pi)
  | .writeData => (t.writeDram e (pi.hbDramAddr.setWidth 32) pi.hbDram, pi.fillWriteData)
  | .recvRet =>
    match pi.fillRecvRet e.base (e.answers t.allocs) with
    | (pi, none) => ({ t with allocs := t.allocs + 1 }, pi)
    | (pi, some addr) =>
      ((({ t with allocs := t.allocs + 1 } : Tables).writeDram e addr new).writeDram e
        (pi.hbDramAddr.setWidth 32) pi.hbDram, pi.fillWriteData)

/-- What `fill_S2` does first: it may write to BRAM. -/
def Tables.writeBack (t : Tables) (i : BitVec 6) : Option Bucket → Tables
  | some hb => t.writeBram i hb
  | none => t

theorem Tables.fillS2_eq_finish (e : Env) (t : Tables) (pi : PipelineInfo) :
    t.fillS2 e pi = Tables.finish e (t.writeBack pi.bramIndex pi.fillIdle.2.1) pi.fillIdle.1
      pi.fillIdle.1.newHbDram pi.fillIdle.2.2 := by
  simp only [fillS2]
  cases pi.fillIdle.2.1 with
  | none =>
    cases pi.fillIdle.2.2 with
    | idle => rfl
    | writeData => rfl
    | recvRet =>
      simp only [finish, writeBack]
      rcases pi.fillIdle.1.fillRecvRet e.base (e.answers t.allocs) with ⟨pi', _ | addr⟩ <;> rfl
  | some hb =>
    cases pi.fillIdle.2.2 with
    | idle => rfl
    | writeData => rfl
    | recvRet =>
      simp only [finish, writeBack, allocs_writeBram]
      rcases pi.fillIdle.1.fillRecvRet e.base (e.answers t.allocs) with ⟨pi', _ | addr⟩ <;> rfl

/-! The word keeps its channel. -/

theorem PipelineInfo.channel_fillIdle (pi : PipelineInfo) : pi.fillIdle.1.channel = pi.channel := by
  rw [fillIdle]
  split
  · dsimp only
    split <;> rfl
  · split
    · split <;> rfl
    · rfl

theorem PipelineInfo.channel_fillRecvRet (pi : PipelineInfo) (base : BitVec 32)
    (ret : BuddyAllocRet) :
    (pi.fillRecvRet base ret).1.channel = pi.channel := by
  rw [fillRecvRet]
  split <;> rfl

theorem Tables.channel_finish (e : Env) (t : Tables) (pi : PipelineInfo) (new : Bucket)
    (st : AllocState) :
    (t.finish e pi new st).2.channel = pi.channel := by
  cases st with
  | idle => rfl
  | writeData => rfl
  | recvRet =>
    have hret := pi.channel_fillRecvRet e.base (e.answers t.allocs)
    rw [finish]
    rcases h : pi.fillRecvRet e.base (e.answers t.allocs) with ⟨pi', _ | addr⟩
    · rwa [h] at hret
    · rwa [h] at hret

theorem channel_finished {e : Env} {t : Tables} {Q : ℕ → Call} (hinit : t.Initial e)
    (hfresh : ∀ n, e.Fresh n) (k : ℕ) : (finished e t Q k).channel = (Q k).1 := by
  rw [finished, Tables.fillS2_eq_finish, Tables.channel_finish, PipelineInfo.channel_fillIdle,
    (same_filled hinit hfresh k).channel]
  rfl

end FpgaOs.Mapping
