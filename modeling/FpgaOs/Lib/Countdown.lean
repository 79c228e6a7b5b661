import FpgaOs.Lib.Machine

/-!
# Loops that count their inputs

A stage takes inputs one at a time, advances a counter with each, and goes back to its first state
when a test on the counter succeeds. So it comes back with the first number, from one on, that
passes the test, and never if there is none.
-/

namespace FpgaOs.Machine

variable {σ ι : Type*} {step : σ → ι → σ} {idle : σ → Prop} {out : σ → ℕ}

/-- The machine comes back with the `n`-th input, and not before; with each input up to this one it
puts out a unit. -/
structure Returns (step : σ → ι → σ) (idle : σ → Prop) (out : σ → ℕ) (s : σ) (n : ℕ) : Prop where
  back : ∀ is : List ι, is.length = n → idle (run step s is)
  before : ∀ is : List ι, is.length < n → ¬idle (run step s is)
  emitted : ∀ is : List ι, is.length ≤ n → out (run step s is) = out s + is.length

/-- A machine that counts: in `count k` it has counted up to `k`, and the next input brings it back
if `k + 1` passes the test. -/
structure Counts (step : σ → ι → σ) (idle : σ → Prop) (out : σ → ℕ) (count : ℕ → σ → Prop)
    (test : ℕ → Prop) : Prop where
  busy : ∀ k s, count k s → ¬idle s
  last : ∀ k s i, count k s → test (k + 1) → idle (step s i)
  more : ∀ k s i, count k s → ¬test (k + 1) → count (k + 1) (step s i)
  emit : ∀ k s i, count k s → out (step s i) = out s + 1

variable {count : ℕ → σ → Prop} {test : ℕ → Prop} {s : σ}

theorem Counts.run (h : Counts step idle out count test) {k : ℕ} (hs : count k s) {is : List ι}
    (hno : ∀ j, 0 < j → j ≤ is.length → ¬test (k + j)) :
    count (k + is.length) (run step s is) ∧ out (run step s is) = out s + is.length := by
  induction is generalizing k s with
  | nil => exact ⟨hs, rfl⟩
  | cons i is ih =>
    have hnext := h.more k s i hs (hno 1 Nat.one_pos (Nat.le_add_left _ _))
    have hrest : ∀ j, 0 < j → j ≤ is.length → ¬test (k + 1 + j) := by
      intro j hpos hle
      have hj := hno (j + 1) (Nat.succ_pos j) (Nat.succ_le_succ hle)
      rwa [Nat.add_assoc, Nat.add_comm 1 j]
    obtain ⟨hcount, hout⟩ := ih hnext hrest
    rw [run_cons, List.length_cons, Nat.add_comm is.length 1, ← Nat.add_assoc]
    exact ⟨hcount, by rw [hout, h.emit k s i hs, Nat.add_assoc]⟩

section Returns

variable (h : Counts step idle out count test) (hs : count 0 s)

include h hs

theorem Counts.run_zero (is : List ι) (hno : ∀ j, 0 < j → j ≤ is.length → ¬test j) :
    count is.length (Machine.run step s is)
      ∧ out (Machine.run step s is) = out s + is.length := by
  have hall := h.run hs fun j hpos hle ↦ (Nat.zero_add j).symm ▸ hno j hpos hle
  rwa [Nat.zero_add] at hall

theorem Counts.run_last (is : List ι) (i : ι) (hno : ∀ j, 0 < j → j ≤ is.length → ¬test j)
    (htest : test (is.length + 1)) :
    idle (Machine.run step s (is ++ [i]))
      ∧ out (Machine.run step s (is ++ [i])) = out s + (is.length + 1) := by
  obtain ⟨hcount, hout⟩ := h.run_zero hs is hno
  rw [run_concat]
  exact ⟨h.last _ _ i hcount htest, by rw [h.emit _ _ i hcount, hout, Nat.add_assoc]⟩

theorem Counts.returns {n : ℕ} (htest : test (n + 1)) (hno : ∀ k, 0 < k → k ≤ n → ¬test k) :
    Returns step idle out s (n + 1) := by
  have hlast (is : List ι) (hlen : is.length = n + 1) :
      idle (Machine.run step s is) ∧ out (Machine.run step s is) = out s + is.length := by
    have hne : is ≠ [] := List.ne_nil_of_length_eq_add_one hlen
    obtain ⟨is, i, rfl⟩ : ∃ is' i, is = is' ++ [i] :=
      ⟨_, _, (List.dropLast_append_getLast hne).symm⟩
    rw [List.length_append, List.length_singleton, Nat.add_right_cancel_iff] at hlen
    rw [List.length_append, List.length_singleton]
    exact h.run_last hs is i (hlen ▸ hno) (hlen ▸ htest)
  have hearly (is : List ι) (hlt : is.length < n + 1) (j : ℕ) (hpos : 0 < j)
      (hle : j ≤ is.length) : ¬test j := hno j hpos (by omega)
  refine ⟨fun is hlen ↦ (hlast is hlen).1, fun is hlt ↦ ?_, fun is hle ↦ ?_⟩
  · exact h.busy _ _ (h.run_zero hs is (hearly is hlt)).1
  · rcases Nat.lt_or_eq_of_le hle with hlt | heq
    · exact (h.run_zero hs is (hearly is hlt)).2
    · exact (hlast is heq).2

/-- **When a machine that counts comes back.** -/
theorem Counts.returns_iff [Nonempty ι] (n : ℕ) :
    Returns step idle out s n ↔ 0 < n ∧ test n ∧ ∀ k, 0 < k → k < n → ¬test k := by
  constructor
  · intro hret
    have i : ι := Classical.arbitrary ι
    have hlen (m : ℕ) : (List.replicate m i).length = m := List.length_replicate
    have hno : ∀ k, 0 < k → k < n → ¬test k := by
      intro k
      induction k using Nat.strongRecOn with
      | _ k ih =>
        intro hpos hlt htest
        -- the first success would have brought the machine back already
        obtain ⟨m, rfl⟩ := Nat.exists_eq_add_of_le' hpos
        rw [← hlen m] at ih htest
        refine hret.before (List.replicate m i ++ [i]) ?_
          (h.run_last hs _ i (fun j hj hle ↦ ih j (by omega) hj ?_) htest).1
        · rwa [List.length_append, hlen]
        · rw [hlen] at hle
          omega
    obtain ⟨m, rfl⟩ : ∃ m, n = m + 1 := by
      refine Nat.exists_eq_add_of_le' (Nat.pos_of_ne_zero fun hzero ↦ ?_)
      exact h.busy 0 s hs (hret.back [] hzero.symm)
    refine ⟨Nat.succ_pos m, ?_, hno⟩
    by_contra htest
    -- the machine would still be counting
    have hall : ∀ j, 0 < j → j ≤ (List.replicate (m + 1) i).length → ¬test j := by
      intro j hpos hle
      rw [hlen] at hle
      rcases Nat.lt_or_eq_of_le hle with hlt | rfl
      · exact hno j hpos hlt
      · exact htest
    exact h.busy _ _ (h.run_zero hs _ hall).1 (hret.back _ (hlen _))
  · rintro ⟨hpos, htest, hno⟩
    obtain ⟨m, rfl⟩ := Nat.exists_eq_add_of_le' hpos
    exact h.returns hs htest fun k hk hle ↦ hno k hk (Nat.lt_succ_of_le hle)

end Returns

end FpgaOs.Machine
