import FpgaOs.AxiRab.RData

/-!
# The beats of a dropped read

When a read is dropped, `axi_rdata_chs` makes up the beats itself. It counts them from one, and
compares the counter with `in_arlen - 1`, as if `in_arlen` were the number of beats; but a burst has
one beat more. So the last beat comes too early, for a burst of two beats without `drop_done`, and
for a burst of one beat it never comes.
-/

namespace FpgaOs.AxiRab

open Machine

variable {k idWid dataWid userWid : ℕ}

/-! ## What is expected -/

/-- A drop is taken in this cycle. -/
def RData.Takes (s : RData k idWid dataWid userWid) (i : RDataIn idWid dataWid userWid) : Prop :=
  s.state = .idle ∧ (i.drop = true ∨ s.dropCount ≠ 0)

/-- The channel, the beats that have been accepted since a drop was taken, and the cycles with
`drop_done`. -/
structure DropLog (k idWid dataWid userWid : ℕ) where
  chan : RData k idWid dataWid userWid
  accepted : List (RBeat idWid dataWid userWid)
  done : ℕ

namespace DropLog

variable (l : DropLog k idWid dataWid userWid) (i : RDataIn idWid dataWid userWid)

/-- A cycle. -/
def step : DropLog k idWid dataWid userWid where
  chan := l.chan.posedge i
  accepted := if l.chan.outSrvalid && i.inSrready then l.accepted ++ [l.chan.out] else l.accepted
  done := if l.chan.dropDone then l.done + 1 else l.done

/-- After the cycle in which the drop is taken. -/
def start (s : RData k idWid dataWid userWid) (i : RDataIn idWid dataWid userWid) :
    DropLog k idWid dataWid userWid :=
  ⟨s.posedge i, [], 0⟩

variable (id : BitVec idWid) (n : BitVec 8)

/-- What is presented in a cycle is an error for the request. There are `n + 1` of them, the last
one is marked, and each is held until it is accepted. -/
structure Presents : Prop where
  rid : l.chan.outSrvalid = true → l.chan.out.rid = id
  rresp : l.chan.outSrvalid = true → l.chan.out.rresp = SLVERR
  beats : l.chan.outSrvalid = true → l.accepted.length ≤ n.toNat
  rlast : l.chan.outSrvalid = true → (l.chan.out.rlast = 1 ↔ l.accepted.length = n.toNat)
  held : l.chan.outSrvalid = true → i.inSrready = false →
    (l.step i).chan.outSrvalid = true ∧ (l.step i).chan.out = l.chan.out

/-- All beats have been accepted, there has been one pulse of `drop_done`, and the channel is idle
with no drop left. -/
structure Complete : Prop where
  beats : l.accepted.length = n.toNat + 1
  pulse : l.done + (if l.chan.dropDone then 1 else 0) = 1
  idle : l.chan.state = .idle
  dropCount : l.chan.dropCount = 0

/-- The drop is served in these cycles. -/
def Served (is : List (RDataIn idWid dataWid userWid)) : Prop :=
  Guarded step (fun l i ↦ l.Presents i id n) l is ∧ (run step l is).Complete n

end DropLog

/-! ## The beats are counted from one -/

theorem RData.lastCount_iff (s : RData k idWid dataWid userWid)
    {i : RDataIn idWid dataWid userWid} (hlen : 0 < i.inArlen.toNat) :
    s.lastCount i = true ↔ s.count.toNat + 1 = i.inArlen.toNat := by
  have hcount := s.count.isLt
  have hlt := i.inArlen.isLt
  have hlen' : (i.inArlen.setWidth 32).toNat = i.inArlen.toNat := by
    rw [BitVec.toNat_setWidth]
    omega
  have hsub : (i.inArlen.setWidth 32 - 1 : BitVec 32).toNat = i.inArlen.toNat - 1 := by
    rw [BitVec.toNat_sub_of_le (by rw [BitVec.le_def, hlen']; exact hlen), hlen']
    rfl
  rw [RData.lastCount, beq_iff_eq, ← BitVec.toNat_inj, hsub, BitVec.toNat_setWidth]
  omega

namespace DropLog

variable {l : DropLog k idWid dataWid userWid} {i : RDataIn idWid dataWid userWid}
  {id : BitVec idWid} {n : BitVec 8}

/-- No beat has been presented; or the counter is one ahead of the beats that have been accepted,
and two more are to come; or what is presented is wrong. -/
inductive Inv (n : BitVec 8) (l : DropLog k idWid dataWid userWid) : Prop
  | first (state : l.chan.state = .drop) (count : l.chan.count = 0)
      (valid : l.chan.outSrvalid = false) (accepted : l.accepted = [])
  | going (state : l.chan.state = .drop) (valid : l.chan.outSrvalid = true)
      (count : l.chan.count.toNat = l.accepted.length + 1)
      (more : l.accepted.length + 2 ≤ n.toNat)
  | wrong (valid : l.chan.outSrvalid = true) (accepted : l.accepted.length ≤ n.toNat)
      (rlast : ¬(l.chan.out.rlast = 1 ↔ l.accepted.length = n.toNat))

theorem inv_start {s : RData k idWid dataWid userWid} (h : s.Takes i) : (start s i).Inv n := by
  obtain ⟨hidle, hdrop⟩ := h
  have hstate : (i.drop || s.dropCount != 0) = true := by
    rw [Bool.or_eq_true, bne_iff_ne]
    exact hdrop
  refine .first ?_ ?_ ?_ rfl
  · rw [start, RData.posedge, hidle]
    exact if_pos hstate
  · rw [start, RData.posedge, hidle]
  · rw [start, RData.posedge, hidle]

/-- The counter starts at one, and the first beat is the last if `in_arlen` is one. -/
theorem step_first (hstate : l.chan.state = .drop) (hcount : l.chan.count = 0)
    (hvalid : l.chan.outSrvalid = false) (haccepted : l.accepted = []) (hlen : i.inArlen = n) :
    (l.step i).Inv n := by
  have hvalid' : (l.step i).chan.outSrvalid = true := by rw [step, RData.posedge, hstate]
  have haccepted' : (l.step i).accepted = [] := by simp [step, hvalid, haccepted]
  have hrlast : (l.step i).chan.out.rlast = if n = 1#8 then 1 else 0 := by
    rw [step, RData.posedge, hstate, ← hlen]
    exact if_pos hcount
  by_cases htwo : 2 ≤ n.toNat
  · have hn : n ≠ 1#8 := by
      rintro rfl
      contradiction
    refine .going ?_ hvalid' ?_ (by rw [haccepted']; exact htwo)
    · simp [step, RData.posedge, hstate, hcount, hlen, hn]
    · rw [haccepted']
      simp [step, RData.posedge, hstate, hcount]
  · refine .wrong hvalid' (by rw [haccepted']; exact Nat.zero_le _) ?_
    rw [hrlast, haccepted', List.length_nil]
    by_cases hn : n = 1#8
    · simp [hn]
    · have hzero : n.toNat = 0 := by
        have : n.toNat ≠ 1 := fun h ↦ hn (BitVec.eq_of_toNat_eq h)
        omega
      simp [hn, hzero]

/-- The beat that is presented last has the number `n`, and not `n + 1`. -/
theorem step_going (hstate : l.chan.state = .drop) (hvalid : l.chan.outSrvalid = true)
    (hcount : l.chan.count.toNat = l.accepted.length + 1) (hmore : l.accepted.length + 2 ≤ n.toNat)
    (hlen : i.inArlen = n) : (l.step i).Inv n := by
  have hvalid' : (l.step i).chan.outSrvalid = true := by rw [step, RData.posedge, hstate]
  have hne : l.chan.count ≠ 0#8 := by
    intro h
    rw [h] at hcount
    simp at hcount
  have hlast := l.chan.lastCount_iff (i := i) (by rw [hlen]; omega)
  rw [hcount, hlen] at hlast
  cases hready : i.inSrready with
  | false =>
    have haccepted' : (l.step i).accepted = l.accepted := by simp [step, hready]
    refine .going ?_ hvalid' ?_ (by rw [haccepted']; exact hmore)
    · simp [step, RData.posedge, hstate, hne, hready]
    · rw [haccepted', ← hcount]
      simp [step, RData.posedge, hstate, hne, hready]
  | true =>
    have haccepted' : (l.step i).accepted.length = l.accepted.length + 1 := by
      simp [step, hready, hvalid]
    by_cases hend : l.accepted.length + 2 = n.toNat
    · -- one beat is accepted now, and the beat that is loaded has the number `n`
      refine .wrong hvalid' (by omega) ?_
      have hrlast : (l.step i).chan.out.rlast = 1 := by
        simp [step, RData.posedge, hstate, hne, hready, hlast.mpr hend]
      rw [hrlast, haccepted']
      simp only [true_iff]
      omega
    · have hnot : l.chan.lastCount i = false := Bool.eq_false_iff.mpr fun h ↦ hend (hlast.mp h)
      refine .going ?_ hvalid' ?_ (by omega)
      · simp [step, RData.posedge, hstate, hne, hready, hnot]
      · rw [haccepted', ← hcount]
        have hlt := n.isLt
        simp [step, RData.posedge, hstate, hne, hready, hnot]
        omega

theorem Inv.step (h : l.Inv n) (hp : l.Presents i id n) (hlen : i.inArlen = n) :
    (l.step i).Inv n := by
  cases h with
  | first hstate hcount hvalid haccepted => exact step_first hstate hcount hvalid haccepted hlen
  | going hstate hvalid hcount hmore => exact step_going hstate hvalid hcount hmore hlen
  | wrong hvalid _ hrlast => exact absurd (hp.rlast hvalid) hrlast

theorem Inv.length_le (h : l.Inv n) : l.accepted.length ≤ n.toNat := by
  cases h with
  | first _ _ _ haccepted => simp [haccepted]
  | going _ _ _ hmore => omega
  | wrong _ haccepted _ => exact haccepted

/-- The master can be ready for one cycle before the first beat, and then for `n` cycles. -/
def budget (n : BitVec 8) (l : DropLog k idWid dataWid userWid) : ℕ :=
  if l.chan.outSrvalid then n.toNat - l.accepted.length else n.toNat + 1

theorem Inv.budget_step (h : l.Inv n) (hp : l.Presents i id n) :
    budget n (l.step i) + (if i.inSrready then 1 else 0) ≤ budget n l := by
  have hvalid' : l.chan.state = .drop → (l.step i).chan.outSrvalid = true := fun hs ↦ by
    rw [DropLog.step, RData.posedge, hs]
  cases h with
  | first hstate _ hvalid _ =>
    rw [budget, budget, if_pos (hvalid' hstate), hvalid, if_neg Bool.false_ne_true]
    split <;> omega
  | going hstate hvalid _ hmore =>
    rw [budget, budget, if_pos (hvalid' hstate), if_pos hvalid]
    cases hready : i.inSrready with
    | false => simp [DropLog.step, hready]
    | true =>
      simp [DropLog.step, hready, hvalid]
      omega
  | wrong hvalid _ hrlast => exact absurd (hp.rlast hvalid) hrlast

/-- In the cycles in which what is presented is right, not all beats are accepted, and the master is
not ready more often than there are beats. -/
theorem Inv.run (h : l.Inv n) {is : List (RDataIn idWid dataWid userWid)}
    (hlen : ∀ i ∈ is, i.inArlen = n)
    (hg : Guarded DropLog.step (fun l i ↦ l.Presents i id n) l is) :
    (Machine.run DropLog.step l is).accepted.length ≤ n.toNat
      ∧ is.countP (·.inSrready) ≤ budget n l := by
  have hg' := hg.and (guarded_of_forall hlen)
  exact ⟨(hg'.invariant (fun _ _ hi hc ↦ hi.step hc.1 hc.2) h).length_le,
    hg'.countP_le (fun _ _ hi hc ↦ ⟨hi.step hc.1 hc.2, hi.budget_step hc.1⟩) h⟩

theorem Inv.not_served (h : l.Inv n) {is : List (RDataIn idWid dataWid userWid)}
    (hlen : ∀ i ∈ is, i.inArlen = n) : ¬l.Served id n is := by
  rintro ⟨hg, hcomplete⟩
  have hle := (h.run hlen hg).1
  rw [hcomplete.beats] at hle
  omega

end DropLog

/-! ## No drop is served -/

/-- Whatever there was before, no drop is served, for no length of the burst; and a master that is
ready more often than there are beats is presented a wrong one. -/
theorem drop_not_served (s : RData k idWid dataWid userWid) (i : RDataIn idWid dataWid userWid)
    (n : BitVec 8) (is : List (RDataIn idWid dataWid userWid)) (hs : s.Takes i)
    (hlen : ∀ i ∈ is, i.inArlen = n) :
    ¬(DropLog.start s i).Served i.inArid n is
      ∧ (n.toNat + 1 < is.countP (·.inSrready) →
        ¬Guarded DropLog.step (fun l j ↦ l.Presents j i.inArid n) (.start s i) is) := by
  have h : (DropLog.start s i).Inv n := DropLog.inv_start hs
  refine ⟨h.not_served hlen, fun hlt hg ↦ ?_⟩
  have hvalid : (DropLog.start s i).chan.outSrvalid = false := by
    rw [DropLog.start, RData.posedge, hs.1]
  have hle := (h.run hlen hg).2
  rw [DropLog.budget, hvalid, if_neg Bool.false_ne_true] at hle
  omega

/-- A cycle for a burst of two beats whose master is always ready. -/
def dropCycle (drop : Bool) : RDataIn 1 32 1 := ⟨singleBeat, false, true, 1, 0, 1, drop⟩

/-- After a reset a read of two beats is dropped. -/
theorem drop_not_served_twoBeats :
    ¬(DropLog.start (.init fun _ : BitVec 1 ↦ 0) (dropCycle true)).Served 1 1
        (List.replicate 4 (dropCycle false))
      ∧ (1 + 1 < (List.replicate 4 (dropCycle false)).countP (·.inSrready) →
        ¬Guarded DropLog.step (fun l j ↦ l.Presents j 1 1)
          (.start (.init fun _ : BitVec 1 ↦ 0) (dropCycle true))
          (List.replicate 4 (dropCycle false))) :=
  drop_not_served (.init fun _ : BitVec 1 ↦ 0) (dropCycle true) 1 _ ⟨rfl, .inl rfl⟩ (by decide)

/-- Its first beat is marked as the last one, however long one waits. -/
theorem not_served_twoBeats : ¬∃ m,
    (DropLog.start (.init fun _ : BitVec 1 ↦ 0) (dropCycle true)).Served 1 1
      (List.replicate m (dropCycle false)) := by
  rintro ⟨m, hserved⟩
  have hs : (RData.init fun _ : BitVec 1 ↦ 0 : RData 1 1 32 1).Takes (dropCycle true) :=
    ⟨rfl, .inl rfl⟩
  refine (DropLog.inv_start hs).not_served (fun i hi ↦ ?_) hserved
  rw [List.eq_of_mem_replicate hi]
  rfl

end FpgaOs.AxiRab
