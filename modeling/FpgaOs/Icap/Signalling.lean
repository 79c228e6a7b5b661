import FpgaOs.Icap.Controller

/-!
# Signalling to the configuration port

The port must not be enabled while the direction changes, and takes words only when it is enabled
for writing. Every state of the machines that goes on with the port enabled does so in one
direction. So the signals are safe if, when such a state is entered or stays, the port is disabled
or has that direction already; `Pins.Directed` says this about the signals, and each operation has a
predicate `Ready` that says it about its state.
-/

namespace FpgaOs.Icap

/-- The port is disabled, or has the direction. -/
def Pins.Directed (p : Pins) (rdwrb : BitVec 1) : Prop := p.csib = icapCsibEnable → p.rdwrb = rdwrb

theorem Pins.directed_disabled (d rdwrb : BitVec 1) :
    (⟨icapCsibDisable, d⟩ : Pins).Directed rdwrb := fun h ↦
  absurd h (by decide : icapCsibDisable ≠ icapCsibEnable)

/-- The signals after a call. -/
def Out.held (out : Out) (p : Pins) : Pins := out.pins.getD p

/-- What a call writes is safe after the signals `p`: it does not turn the direction of a port that
is and stays enabled, and a word is written to a port that is enabled for writing. -/
structure Safe (p : Pins) (out : Out) : Prop where
  steady : (out.held p).csib = icapCsibEnable → p.Directed (out.held p).rdwrb
  toIcap_enabled : ∀ data, out.toIcap = some data →
    (out.held p).csib = icapCsibEnable ∧ (out.held p).rdwrb = icapRdwrbWrite

namespace Safe

variable {p : Pins} {out : Out} {rdwrb : BitVec 1}

theorem of_none (hpins : out.pins = none) (hto : out.toIcap = none) : Safe p out := by
  have hheld : out.held p = p := by rw [Out.held, hpins, Option.getD_none]
  constructor
  · rw [hheld]
    exact fun _ _ ↦ rfl
  · rw [hto]
    nofun

theorem of_disable (hpins : out.pins = some ⟨icapCsibDisable, rdwrb⟩) (hto : out.toIcap = none) :
    Safe p out := by
  constructor
  · rw [Out.held, hpins, Option.getD_some]
    intro h
    exact absurd h (by decide : icapCsibDisable ≠ icapCsibEnable)
  · rw [hto]
    nofun

theorem of_enable (hpins : out.pins = some ⟨icapCsibEnable, rdwrb⟩) (hp : p.Directed rdwrb)
    (hto : ∀ data, out.toIcap = some data → rdwrb = icapRdwrbWrite) : Safe p out := by
  constructor
  · rw [Out.held, hpins, Option.getD_some]
    exact fun _ ↦ hp
  · rw [Out.held, hpins, Option.getD_some]
    exact fun data hdata ↦ ⟨rfl, hto data hdata⟩

end Safe

/-! ## Reading a register -/

/-- The direction in which the state goes on with the port enabled. -/
def ReadRegsState.direction : ReadRegsState → Option (BitVec 1)
  | .write1 => some icapRdwrbWrite
  | .read => some icapRdwrbRead
  | .writeDesync => some icapRdwrbWrite
  | _ => none

namespace ReadRegs

variable {r : ReadRegs} {p : Pins} {entry : RegisterEntry} {fromIcap : Option (BitVec 32)}

/-- The signals suit the state. -/
def Ready (r : ReadRegs) (p : Pins) : Prop := ∀ d, r.state.direction = some d → p.Directed d

theorem ready_idle (h : r.state = .idle) : r.Ready p := by
  intro d hd
  rw [h] at hd
  cases hd

/-- A step whose outputs are safe, and after which the signals suit the next state; the operation
ends in its first state with the port disabled. -/
structure Plays (p : Pins) (step : ReadRegs × Out) : Prop where
  safe : Safe p step.2
  ready : step.1.Ready (step.2.held p)
  done : step.2.ret = .done → step.1.state = .idle ∧ ∀ d, (step.2.held p).Directed d

/-- After a step that disables the port, the signals suit every state. -/
theorem plays_disable {r' : ReadRegs} {out : Out} {d : BitVec 1}
    (hpins : out.pins = some ⟨icapCsibDisable, d⟩) (hto : out.toIcap = none)
    (hdone : out.ret = .done → r'.state = .idle) : Plays p (r', out) := by
  have hdir : ∀ rdwrb, (out.held p).Directed rdwrb := by
    rw [Out.held, hpins, Option.getD_some]
    exact Pins.directed_disabled d
  exact ⟨.of_disable hpins hto, fun rdwrb _ ↦ hdir rdwrb, fun h ↦ ⟨hdone h, hdir⟩⟩

/-- A step that enables the port has the direction that its state and the next one go on with. -/
theorem plays_enable {r' : ReadRegs} {out : Out} {rdwrb : BitVec 1} (h : r.Ready p)
    (hpins : out.pins = some ⟨icapCsibEnable, rdwrb⟩)
    (hto : ∀ data, out.toIcap = some data → rdwrb = icapRdwrbWrite) (hret : out.ret = .wip)
    (hdir : r.state.direction = some rdwrb)
    (hnext : ∀ d, r'.state.direction = some d → d = rdwrb) : Plays p (r', out) := by
  refine ⟨.of_enable hpins (h rdwrb hdir) hto, fun d hd ↦ ?_, fun hdone ↦ ?_⟩
  · rw [Out.held, hpins, Option.getD_some, hnext d hd]
    exact fun _ ↦ rfl
  · rw [hret] at hdone
    cases hdone

theorem next_plays (h : r.Ready p) (entry : RegisterEntry) (fromIcap : Option (BitVec 32)) :
    Plays p (r.next entry fromIcap) := by
  rw [next.eq_def]
  cases hstate : r.state with
  | idle => exact plays_disable rfl rfl nofun
  | write1 =>
    have hdir : r.state.direction = some icapRdwrbWrite := by rw [hstate]; rfl
    cases r.commandRegs1[r.nr1]? with
    | some data =>
      exact plays_enable h rfl (fun _ _ ↦ rfl) rfl hdir fun d hd ↦ (Option.some.inj hd).symm
    | none => exact plays_disable rfl rfl nofun
  | write1Transition => exact plays_disable rfl rfl nofun
  | read =>
    have hdir : r.state.direction = some icapRdwrbRead := by rw [hstate]; rfl
    cases fromIcap with
    | none =>
      refine plays_enable h rfl nofun rfl hdir fun d hd ↦ ?_
      exact Option.some.inj (hd.symm.trans hdir)
    | some data =>
      dsimp only
      split_ifs
      · exact plays_enable h rfl nofun rfl hdir fun d hd ↦ (Option.some.inj hd).symm
      · exact plays_enable h rfl nofun rfl hdir nofun
  | readTransition => exact plays_disable rfl rfl nofun
  | writeDesync =>
    have hdir : r.state.direction = some icapRdwrbWrite := by rw [hstate]; rfl
    cases commandRegsDesync[r.nr2]? with
    | some data =>
      exact plays_enable h rfl (fun _ _ ↦ rfl) rfl hdir fun d hd ↦ (Option.some.inj hd).symm
    | none => exact plays_disable rfl rfl fun _ ↦ rfl

/-- The register can be read. -/
def Readable (regNr : ℕ) : Prop := ∃ entry, icapRegisterTable[regNr]? = some entry ∧ entry.rw ≠ .w

theorem readable_idcode : Readable icapRegIdcode := ⟨⟨0b01100, .rw⟩, rfl, nofun⟩

theorem readable_fdro : Readable icapRegFdro := ⟨⟨0b00011, .r⟩, rfl, nofun⟩

theorem call_plays (h : r.Ready p) {regNr : ℕ} (hreg : Readable regNr)
    (fromIcap : Option (BitVec 32)) : Plays p (r.call regNr fromIcap) := by
  obtain ⟨entry, hentry, hrw⟩ := hreg
  rw [call, hentry]
  simp only [hrw, if_false]
  exact next_plays h entry fromIcap

end ReadRegs

/-! ## Reading back the bitstream -/

namespace Readback

/-- The signals suit the state. Except when it is reading, no register is being read. -/
def Ready (b : Readback) (r : ReadRegs) (p : Pins) : Prop :=
  match b.state with
  | .idle => r.state = .idle
  | .write1 => r.state = .idle ∧ p.Directed icapRdwrbWrite
  | .write1Transition => r.state = .idle
  | .read => r.Ready p
  | .write2 => r.state = .idle ∧ p.Directed icapRdwrbWrite

/-- A step of the readback that is safe. -/
structure Plays (p : Pins) (step : Readback × ReadRegs × Out) : Prop where
  safe : Safe p step.2.2
  ready : step.1.Ready step.2.1 (step.2.2.held p)
  done : step.2.2.ret = .done → step.1.state = .idle ∧ step.2.1.state = .idle

variable {b : Readback} {r : ReadRegs} {p : Pins}

theorem call_plays (h : b.Ready r p) (fromIcap : Option (BitVec 32)) (frameAddr : BitVec 32) :
    Plays p (b.call r fromIcap frameAddr) := by
  rw [Ready] at h
  rw [call.eq_def]
  cases hstate : b.state with
  | idle =>
    rw [hstate] at h
    exact ⟨.of_disable rfl rfl, ⟨h, Pins.directed_disabled _ _⟩, nofun⟩
  | write1 =>
    rw [hstate] at h
    cases b.commandReadback1[b.nr1]? with
    | some data =>
      exact ⟨.of_enable rfl h.2 fun _ _ ↦ rfl, ⟨h.1, fun _ ↦ rfl⟩, nofun⟩
    | none => exact ⟨.of_disable rfl rfl, h.1, nofun⟩
  | write1Transition =>
    rw [hstate] at h
    exact ⟨.of_disable rfl rfl, ReadRegs.ready_idle h, nofun⟩
  | read =>
    rw [hstate] at h
    have hread := ReadRegs.call_plays h ReadRegs.readable_fdro fromIcap
    dsimp only
    split_ifs with hdone hnr
    · obtain ⟨hidle, hdir⟩ := hread.done hdone
      exact ⟨⟨hread.safe.steady, hread.safe.toIcap_enabled⟩, ⟨hidle, hdir _⟩, nofun⟩
    · exact ⟨⟨hread.safe.steady, hread.safe.toIcap_enabled⟩, hread.ready, nofun⟩
    · refine ⟨hread.safe, ?_, fun h ↦ absurd h hdone⟩
      rw [Ready, hstate]
      exact hread.ready
  | write2 =>
    rw [hstate] at h
    cases commandReadback2[b.nr2]? with
    | some data =>
      exact ⟨.of_enable rfl h.2 fun _ _ ↦ rfl, ⟨h.1, fun _ ↦ rfl⟩, nofun⟩
    | none => exact ⟨.of_disable rfl rfl, h.1, fun _ ↦ ⟨rfl, h.1⟩⟩

end Readback

/-! ## The controller -/

namespace Controller

/-- A test has been chosen: a register that can be read, or a readback. -/
def Chosen (s : Controller) : Prop :=
  s.testCmd = 0 ∧ ReadRegs.Readable s.registerAddr ∨ s.testCmd = 2

/-- Both operations are in their first states. -/
def OpIdle (s : Controller) : Prop := s.regs.state = .idle ∧ s.readback.state = .idle

/-- The operation of the test is in a state that suits the signals; the other one has not begun. -/
inductive Operating (s : Controller) : Prop
  | regs (htest : s.testCmd = 0) (hreg : ReadRegs.Readable s.registerAddr)
    (hready : s.regs.Ready s.pins) (hidle : s.readback.state = .idle)
  | readback (htest : s.testCmd = 2) (hready : s.readback.Ready s.regs s.pins)

/-- Outside an operation nothing has begun, and a test has been chosen before one starts. -/
def Inv (s : Controller) : Prop :=
  match s.state with
  | .inactive => s.OpIdle
  | .active => s.OpIdle ∧ s.Chosen
  | .opStart => s.Operating
  | .done => s.OpIdle

variable {s : Controller} {i : Inputs}

theorem inv_init (pins : Pins) : (init pins).Inv := ⟨rfl, rfl⟩

/-- With both operations in their first states, the one that has been chosen can start. -/
theorem OpIdle.operating (h : s.OpIdle) (hchosen : s.Chosen) : s.Operating := by
  rcases hchosen with ⟨htest, hreg⟩ | htest
  · exact .regs htest hreg (ReadRegs.ready_idle h.1) h.2
  · refine .readback htest ?_
    rw [Readback.Ready, h.2]
    exact h.1

theorem selectTest_chosen {nrTest : ℕ} {s' : Controller} (h : s.selectTest nrTest = some s')
    (hidle : s.OpIdle) : s'.OpIdle ∧ s'.Chosen := by
  rw [selectTest.eq_def] at h
  split at h
  · rw [← Option.some.inj h]
    exact ⟨hidle, .inl ⟨rfl, ReadRegs.readable_idcode⟩⟩
  · rw [← Option.some.inj h]
    exact ⟨hidle, .inr rfl⟩
  · rw [← Option.some.inj h]
    exact ⟨hidle, .inl ⟨rfl, ReadRegs.readable_idcode⟩⟩
  · cases h

theorem operate_regs (h : s.testCmd = 0) (i : Inputs) :
    s.operate i = ({ s with regs := (s.regs.call s.registerAddr i.fromIcap).1 },
      (s.regs.call s.registerAddr i.fromIcap).2) := by
  rw [operate.eq_def, h]
  rfl

theorem operate_readback (h : s.testCmd = 2) (i : Inputs) :
    s.operate i =
      ({ s with
          readback := (s.readback.call s.regs i.fromIcap i.frameAddr).1
          regs := (s.readback.call s.regs i.fromIcap i.frameAddr).2.1 },
        (s.readback.call s.regs i.fromIcap i.frameAddr).2.2) := by
  rw [operate.eq_def, h]
  rfl

theorem Operating.safe (h : s.Operating) (i : Inputs) : Safe s.pins (s.operate i).2 := by
  cases h with
  | regs htest hreg hready hidle =>
    rw [operate_regs htest]
    exact (ReadRegs.call_plays hready hreg i.fromIcap).safe
  | readback htest hready =>
    rw [operate_readback htest]
    exact (Readback.call_plays hready i.fromIcap i.frameAddr).safe

theorem Operating.next (h : s.Operating) (i : Inputs) (state : ControllerState) :
    Operating
      { (s.operate i).1 with state := state, pins := (s.operate i).2.pins.getD s.pins } := by
  cases h with
  | regs htest hreg hready hidle =>
    rw [operate_regs htest]
    exact .regs htest hreg (ReadRegs.call_plays hready hreg i.fromIcap).ready hidle
  | readback htest hready =>
    rw [operate_readback htest]
    exact .readback htest (Readback.call_plays hready i.fromIcap i.frameAddr).ready

theorem Operating.done (h : s.Operating) (hdone : (s.operate i).2.ret = .done) :
    (s.operate i).1.OpIdle := by
  cases h with
  | regs htest hreg hready hidle =>
    rw [operate_regs htest] at hdone ⊢
    exact ⟨((ReadRegs.call_plays hready hreg i.fromIcap).done hdone).1, hidle⟩
  | readback htest hready =>
    rw [operate_readback htest] at hdone ⊢
    obtain ⟨hidle, hregs⟩ := (Readback.call_plays hready i.fromIcap i.frameAddr).done hdone
    exact ⟨hregs, hidle⟩

/-- What comes of a call that finds no operation under way. -/
theorem next_inactive (hstate : s.state = .inactive) (hidle : s.OpIdle) (i : Inputs) :
    (s.next i).2.toIcap = none
      ∧ (((s.next i).2.pins = none ∧ (s.next i).1.state = .inactive ∧ (s.next i).1.OpIdle)
        ∨ ((s.next i).2.pins = some ⟨icapCsibDisable, icapRdwrbRead⟩
          ∧ ((s.next i).1.state = .inactive ∨ (s.next i).1.state = .active)
          ∧ (s.next i).1.OpIdle ∧ (s.next i).1.Chosen)) := by
  rw [Controller.next.eq_def, hstate]
  by_cases hstart : i.startTest = 0
  · simp only [hstart, if_true]
    exact ⟨trivial, .inl ⟨trivial, hstate, hidle⟩⟩
  · simp only [hstart, if_false]
    cases hsel : s.selectTest (if i.resetTest = 1 then 0 else s.nrTest) with
    | none => exact ⟨rfl, .inl ⟨rfl, rfl, hidle⟩⟩
    | some s' =>
      obtain ⟨hidle', hchosen⟩ := selectTest_chosen hsel hidle
      refine ⟨rfl, .inr ⟨rfl, ?_, hidle', hchosen⟩⟩
      by_cases havail : i.avail = 0
      · exact .inl (if_pos havail)
      · exact .inr (if_neg havail)

theorem Inv.safe (h : s.Inv) (i : Inputs) : Safe s.pins (s.next i).2 := by
  rw [Inv] at h
  cases hstate : s.state with
  | inactive =>
    rw [hstate] at h
    obtain ⟨hto, ⟨hpins, -⟩ | ⟨hpins, -⟩⟩ := next_inactive hstate h i
    · exact .of_none hpins hto
    · exact .of_disable hpins hto
  | active =>
    rw [Controller.next.eq_def, hstate]
    exact .of_disable rfl rfl
  | opStart =>
    rw [hstate] at h
    rw [Controller.next.eq_def, hstate]
    exact h.safe i
  | done =>
    rw [Controller.next.eq_def, hstate]
    exact .of_disable rfl rfl

theorem Inv.call (h : s.Inv) (i : Inputs) : (s.call i).Inv := by
  rw [Inv] at h ⊢
  cases hstate : s.state with
  | inactive =>
    rw [hstate] at h
    obtain ⟨-, ⟨-, hnext, hidle⟩ | ⟨-, hnext, hidle, hchosen⟩⟩ := next_inactive hstate h i
    · rw [Controller.call, hnext]
      exact hidle
    · rw [Controller.call]
      rcases hnext with hnext | hnext
      · rw [hnext]
        exact hidle
      · rw [hnext]
        exact ⟨hidle, hchosen⟩
  | active =>
    rw [hstate] at h
    rw [Controller.call, Controller.next.eq_def, hstate]
    dsimp only
    split_ifs with havail
    · exact h.1
    · exact OpIdle.operating h.1 h.2
  | opStart =>
    rw [hstate] at h
    rw [Controller.call, Controller.next.eq_def, hstate]
    dsimp only
    split_ifs with hdone
    · exact h.done hdone
    · exact h.next i .opStart
  | done =>
    rw [hstate] at h
    rw [Controller.call, Controller.next.eq_def, hstate]
    exact h

/-- A call is safe: the port is not enabled before and after it with different directions, and a
word is written only with the port enabled for writing. -/
structure Signalling (s : Controller) (i : Inputs) : Prop where
  steady : s.pins.csib = icapCsibEnable → (s.call i).pins.csib = icapCsibEnable →
    s.pins.rdwrb = (s.call i).pins.rdwrb
  toIcap_enabled : ∀ data, (s.next i).2.toIcap = some data →
    (s.call i).pins.csib = icapCsibEnable ∧ (s.call i).pins.rdwrb = icapRdwrbWrite

theorem Inv.signalling (h : s.Inv) (i : Inputs) : s.Signalling i :=
  ⟨fun hbefore hafter ↦ (h.safe i).steady hafter hbefore, (h.safe i).toIcap_enabled⟩

/-- **Signalling is safe.** Whatever the inputs are and whatever the signals are at the start, every
call of a run is safe. -/
theorem icap_signalling (pins : Pins) (is : List Inputs) :
    Machine.Guarded call Signalling (init pins) is := by
  have hall : Machine.Guarded call (fun _ _ ↦ True) (init pins) is :=
    Machine.guarded_of_forall fun _ _ ↦ trivial
  exact hall.imp (fun s i h _ ↦ h.call i) (fun s i h _ ↦ h.signalling i) (inv_init pins)

end Controller

end FpgaOs.Icap
