import FpgaOs.Icap.Controller

/-!
# The words of a frame

A readback announces how many words it is going to read, and then reads a register until a static
counter of the words that are left is zero. The test is made before the counter goes down, so one
more word is read than it counts; and nothing ever sets the counter again, so that from the second
readback on it is zero from the beginning.
-/

namespace FpgaOs.Icap

open Machine

/-- What a call of `cmd_read_bitstreams` finds at its inputs. -/
structure ReadbackInput where
  fromIcap : Option (BitVec 32)
  frameAddr : BitVec 32

/-- The variables of `cmd_read_bitstreams` and of the `cmd_read_regs` it calls, the number of
registers that have been read since the last command was done, and the numbers for all commands that
have been done. -/
structure ReadbackLog where
  readback : Readback
  regs : ReadRegs
  reads : ℕ
  counts : List ℕ

namespace ReadbackLog

/-- Before the first command. -/
def start : ReadbackLog :=
  ⟨⟨.idle, 0, 0, nrWordsReadOneFrame, commandReadback1⟩, ⟨.idle, 0, 0, 0, commandRegs1⟩, 0, []⟩

variable (l : ReadbackLog) (i : ReadbackInput)

/-- The call completes the reading of a register. -/
def Completes : Prop :=
  l.readback.state = .read ∧ (l.regs.call icapRegFdro i.fromIcap).2.ret = .done

instance : Decidable (l.Completes i) := by unfold Completes; infer_instance

/-- The registers that have been read after the call. -/
def readsAfter : ℕ := if l.Completes i then l.reads + 1 else l.reads

/-- A call of `cmd_read_bitstreams`. -/
def step : ReadbackLog :=
  let call := l.readback.call l.regs i.fromIcap i.frameAddr
  if call.2.2.ret = .done then ⟨call.1, call.2.1, 0, l.counts ++ [l.readsAfter i]⟩
  else ⟨call.1, call.2.1, l.readsAfter i, l.counts⟩

end ReadbackLog

/-! ## The counter -/

/-- How many registers the `k`-th command reads. -/
def registersRead (k : ℕ) : ℕ := if k = 0 then nrWordsReadOneFrame + 1 else 1

/-- What a call does to the counter: nothing, or it counts a word, or it goes on to the closing
sequence with a word that finds the counter zero, or it ends the command. -/
inductive Counted (b : Readback) (completes : Prop) (call : Readback × ReadRegs × Out) : Prop
  | other (hcompletes : ¬completes) (hret : call.2.2.ret = .wip)
    (hstate : call.1.state = .write2 ↔ b.state = .write2) (hleft : call.1.nrToRead = b.nrToRead)
  | word (hcompletes : completes) (hret : call.2.2.ret = .wip) (hstate : call.1.state = .read)
    (hleft : call.1.nrToRead + 1 = b.nrToRead)
  | last (hcompletes : completes) (hret : call.2.2.ret = .wip) (hstate : call.1.state = .write2)
    (hzero : b.nrToRead = 0) (hleft : call.1.nrToRead = 0)
  | ends (hcompletes : ¬completes) (hret : call.2.2.ret = .done) (hwas : b.state = .write2)
    (hstate : call.1.state = .idle) (hleft : call.1.nrToRead = b.nrToRead)

namespace ReadbackLog

variable (l : ReadbackLog) (i : ReadbackInput)

theorem counted :
    Counted l.readback (l.Completes i) (l.readback.call l.regs i.fromIcap i.frameAddr) := by
  rw [Completes, Readback.call.eq_def]
  obtain ⟨⟨state, nr1, nr2, nrToRead, sequence⟩, regs, reads, counts⟩ := l
  dsimp only
  cases state with
  | idle => exact .other nofun rfl (iff_of_false nofun nofun) rfl
  | write1 =>
    dsimp only
    cases sequence[nr1]? with
    | some data => exact .other nofun rfl (iff_of_false nofun nofun) rfl
    | none => exact .other nofun rfl (iff_of_false nofun nofun) rfl
  | write1Transition => exact .other nofun rfl (iff_of_false nofun nofun) rfl
  | read =>
    dsimp only
    split_ifs with hdone hzero
    · exact .last ⟨rfl, hdone⟩ rfl rfl hzero hzero
    · exact .word ⟨rfl, hdone⟩ rfl rfl (Nat.succ_pred_eq_of_ne_zero hzero)
    · refine .other (fun h ↦ hdone h.2) ?_ (iff_of_false nofun nofun) rfl
      cases hret : (regs.call icapRegFdro i.fromIcap).2.ret with
      | done => exact absurd hret hdone
      | wip => rfl
  | write2 =>
    dsimp only
    cases commandReadback2[nr2]? with
    | some data => exact .other nofun rfl (iff_of_true rfl rfl) rfl
    | none => exact .ends nofun rfl rfl rfl rfl

/-- The first command has one word more to read than the counter says, every later one has one word
to read; the numbers of those that have been done are as stated. -/
structure Inv : Prop where
  reading : l.readback.state ≠ .write2 →
    l.reads + l.readback.nrToRead + 1 = registersRead l.counts.length
  written : l.readback.state = .write2 →
    l.readback.nrToRead = 0 ∧ l.reads = registersRead l.counts.length
  counts : l.counts = (List.range l.counts.length).map registersRead

variable {l}

theorem inv_start : start.Inv := ⟨fun _ ↦ rfl, nofun, rfl⟩

theorem Inv.step (h : l.Inv) (i : ReadbackInput) : (l.step i).Inv := by
  rw [ReadbackLog.step, readsAfter]
  cases l.counted i with
  | other hcompletes hret hstate hleft =>
    rw [hret, if_neg nofun, if_neg hcompletes]
    refine ⟨fun hne ↦ ?_, fun hwrite ↦ ?_, h.counts⟩
    · dsimp only at hne ⊢
      rw [hleft]
      exact h.reading (mt hstate.mpr hne)
    · dsimp only at hwrite ⊢
      rw [hleft]
      exact h.written (hstate.mp hwrite)
  | word hcompletes hret hstate hleft =>
    have hreading := h.reading (by rw [hcompletes.1]; nofun)
    rw [hret, if_neg nofun, if_pos hcompletes]
    refine ⟨fun _ ↦ ?_, fun hwrite ↦ ?_, h.counts⟩
    · dsimp only
      omega
    · rw [hstate] at hwrite
      contradiction
  | last hcompletes hret hstate hzero hleft =>
    have hreading := h.reading (by rw [hcompletes.1]; nofun)
    rw [hret, if_neg nofun, if_pos hcompletes]
    refine ⟨fun hne ↦ absurd hstate hne, fun _ ↦ ⟨hleft, ?_⟩, h.counts⟩
    dsimp only
    rwa [hzero, Nat.add_zero] at hreading
  | ends hcompletes hret hwas hstate hleft =>
    obtain ⟨hzero, hreads⟩ := h.written hwas
    rw [hret, if_pos rfl, if_neg hcompletes]
    refine ⟨fun _ ↦ ?_, fun hwrite ↦ ?_, ?_⟩
    · -- the counter is left at zero for the next command
      dsimp only
      rw [hleft, hzero, List.length_append]
      rfl
    · rw [hstate] at hwrite
      contradiction
    · dsimp only
      rw [List.length_append, List.length_singleton, List.range_succ, List.map_append, ← h.counts,
        hreads]
      rfl

end ReadbackLog

/-- **The numbers of words.** Whatever the port returns, the first command reads one word more than
it announces and every later one reads a single word. -/
theorem counts_readback (is : List ReadbackInput) :
    (run ReadbackLog.step .start is).counts
      = (List.range (run ReadbackLog.step .start is).counts.length).map registersRead :=
  (run_invariant (fun _ i h ↦ h.step i) ReadbackLog.inv_start is).counts

/-- **No readback is complete.** -/
theorem readback_never_complete (is : List ReadbackInput) :
    nrWordsReadOneFrame ∉ (run ReadbackLog.step .start is).counts := by
  rw [counts_readback is, List.mem_map]
  rintro ⟨k, -, hk⟩
  rw [registersRead] at hk
  split at hk
  · exact absurd hk (by decide)
  · exact absurd hk (by decide)

/-! ## A first readback -/

namespace ReadbackLog

/-- A call of `cmd_read_regs` in a readback. -/
def regsStep (r : ReadRegs) (i : ReadbackInput) : ReadRegs := (r.call icapRegFdro i.fromIcap).1

theorem run_wip {l : ReadbackLog} (hl : l.readback.state = .read) {is : List ReadbackInput}
    (h : Guarded regsStep (fun r i ↦ (r.call icapRegFdro i.fromIcap).2.ret = .wip) l.regs is) :
    run step l is = { l with regs := run regsStep l.regs is } := by
  induction is generalizing l with
  | nil => rfl
  | cons i is ih =>
    obtain ⟨hwip, hrest⟩ := h
    have hstep : l.step i = { l with regs := regsStep l.regs i } := by
      have hno : ¬l.Completes i := fun hc ↦ by
        rw [hc.2] at hwip
        contradiction
      have hcall : l.readback.call l.regs i.fromIcap i.frameAddr
          = (l.readback, l.regs.call icapRegFdro i.fromIcap) := by
        rw [Readback.call.eq_def, hl]
        dsimp only
        rw [if_neg (by rw [hwip]; nofun)]
      rw [step, readsAfter, if_neg hno, hcall, if_neg (by rw [hwip]; nofun)]
      rfl
    rw [run_cons, hstep, ih (l := { l with regs := regsStep l.regs i }) hl hrest, run_cons]

/-- The port has a word to be read at every call. -/
def word : ReadbackInput := ⟨some 1, 0⟩

/-- The variables of `cmd_read_regs` after a register has been read. -/
def betweenRegs : ReadRegs := ⟨.idle, 9, 4, 1, commandRegs1.set 6 (cookCmd ⟨0b00011, .r⟩)⟩

/-- Between two registers of the first readback. -/
def midway (m reads : ℕ) : ReadbackLog :=
  ⟨⟨.read, 89, 0, m, commandReadback1.set 22 0⟩, betweenRegs, reads, []⟩

set_option maxRecDepth 20000 in
theorem run_opening :
    run step start (List.replicate 111 word) = midway (nrWordsReadOneFrame - 1) 1 := by
  rfl

theorem register_wip : Guarded regsStep (fun r i ↦ (r.call icapRegFdro i.fromIcap).2.ret = .wip)
    betweenRegs (List.replicate 18 word) := by
  decide +kernel

theorem register_done :
    (run regsStep betweenRegs (List.replicate 18 word)).call icapRegFdro word.fromIcap
      = (betweenRegs, { pins := some ⟨icapCsibDisable, icapRdwrbRead⟩, ret := .done }) := by
  rfl

/-- A register takes 19 calls. -/
theorem run_register (m reads : ℕ) :
    run step (midway m reads) (List.replicate 19 word)
      = ⟨if m = 0 then { (midway 0 reads).readback with state := .write2 }
          else (midway (m - 1) reads).readback, betweenRegs, reads + 1, []⟩ := by
  rw [List.replicate_succ', run_concat, run_wip rfl register_wip]
  have hdone := register_done
  dsimp only [midway]
  generalize run regsStep betweenRegs (List.replicate 18 word) = regs at hdone ⊢
  have hcompletes : Completes ⟨⟨.read, 89, 0, m, commandReadback1.set 22 0⟩, regs, reads, []⟩
      word := ⟨rfl, by rw [hdone]⟩
  rw [step, readsAfter, if_pos hcompletes, Readback.call.eq_def]
  dsimp only
  rw [hdone]
  cases m with
  | zero => rfl
  | succ m => rfl

theorem run_registers (m reads : ℕ) :
    run step (midway m reads) (List.replicate (19 * (m + 1)) word)
      = ⟨{ (midway 0 0).readback with state := .write2 }, betweenRegs, reads + m + 1, []⟩ := by
  induction m generalizing reads with
  | zero => exact run_register 0 reads
  | succ m ih =>
    have hnext : run step (midway (m + 1) reads) (List.replicate 19 word) = midway m (reads + 1) :=
      run_register (m + 1) reads
    rw [show 19 * (m + 1 + 1) = 19 + 19 * (m + 1) from by omega, List.replicate_add, run_append,
      hnext, ih, Nat.add_assoc reads 1, Nat.add_comm 1 m]

end ReadbackLog

/-- The port always returns the word 1, and the first readback reads 212 registers. -/
theorem not_complete_first :
    ∃ n ∈ (run ReadbackLog.step .start (List.replicate 4136 ReadbackLog.word)).counts,
      n ≠ nrWordsReadOneFrame := by
  have hcounts : (run ReadbackLog.step .start (List.replicate 4136 ReadbackLog.word)).counts
      = [212] := by
    rw [show 4136 = 111 + (19 * (210 + 1) + 16) from rfl, List.replicate_add, List.replicate_add,
      run_append, run_append, ReadbackLog.run_opening]
    have hreads : nrWordsReadOneFrame - 1 = 210 := rfl
    rw [hreads, ReadbackLog.run_registers]
    rfl
  exact ⟨212, hcounts ▸ List.mem_singleton_self 212, by decide⟩

end FpgaOs.Icap
