import FpgaOs.Lib.Inputs
import FpgaOs.Lib.Machine

/-!
# The transmit arbiter for units of 64 bits

`sysnet_tx_64` sends the packets of two inputs to one output. The turn passes to the other input
after the final unit of a packet, but also when a call finds the input whose turn it is empty, even
in the middle of a packet. Then a packet of the other input may be sent inside the packet that was
begun. The arbiter for units of 512 bits stays with the port in that case.
-/

namespace FpgaOs.Net

open Machine Inputs

/-- `struct net_axis_64`. -/
structure NetAxis64 where
  data : BitVec 64 := 0
  last : BitVec 1 := 0
  keep : BitVec 8 := 0
  user : BitVec 8 := 0
  deriving DecidableEq

/-- The two input streams. -/
inductive App
  | input0
  | input1
  deriving DecidableEq

/-- The static variable of `sysnet_tx_64` and its streams. -/
structure SysnetTx64 where
  count : ℕ
  ports : Inputs App NetAxis64

namespace SysnetTx64

/-- `(count+1) % NUM_APPS`. -/
def pass (count : ℕ) : ℕ := (count + 1) % 2

/-- The case of `sysnet_tx_64` for an input. -/
def serve (s : SysnetTx64) (input : App) : SysnetTx64 :=
  match s.ports.forward input with
  | none => { s with count := pass s.count }
  | some (current, ports) => ⟨if current.last = 1 then pass s.count else s.count, ports⟩

/-- The input whose turn it is: `APP0` or `APP1`. -/
def turn (s : SysnetTx64) : Option App :=
  if s.count = 0 then some .input0 else if s.count = 1 then some .input1 else none

/-- A call of `sysnet_tx_64`. -/
def call (s : SysnetTx64) : SysnetTx64 :=
  match s.turn with
  | none => s
  | some input => s.serve input

/-- A unit arrives at an input, or the function is called. -/
inductive Event
  | arrive (input : App)
  | call

def step (s : SysnetTx64) : Event → SysnetTx64
  | .arrive input => { s with ports := s.ports.arrive input }
  | .call => s.call

end SysnetTx64

/-- A packet of one or more units. -/
abbrev TxPacket64 := Frame fun d : NetAxis64 ↦ d.last = 1

/-- The units of both inputs. -/
def unitsOf64 (ps : App → List TxPacket64) (input : App) : List NetAxis64 :=
  (ps input).flatMap Frame.units

/-- At the start. -/
def SysnetTx64.init (ps : App → List TxPacket64) : SysnetTx64 := ⟨0, Inputs.start (unitsOf64 ps)⟩

/-- `sysnet_tx_64` on packets for each input, under a schedule of arrivals and calls. -/
def transmitted64 (ps : App → List TxPacket64) (es : List SysnetTx64.Event) : SysnetTx64 :=
  run SysnetTx64.step (.init ps) es

/-- The units written are the beginning of a sequence of whole packets, in the order of each
input. -/
def Whole64 (ps : App → List TxPacket64) (out : List NetAxis64) : Prop :=
  ∃ done, KeepsOrder ps done ∧ out <+: done.flatMap fun d ↦ d.2.units

/-- A packet of the input has been begun and not ended. -/
def MidPacket64 (input : App) (out : List (App × NetAxis64)) : Prop :=
  ∃ u, (ofInput input out).getLast? = some u ∧ ¬u.last = 1

/-- The condition: no call finds the input whose turn it is empty in the middle of a packet. -/
def KeepsTurn (s : SysnetTx64) : SysnetTx64.Event → Prop
  | .arrive _ => True
  | .call =>
    ∀ input, s.turn = some input → s.ports.queue input = [] → ¬MidPacket64 input s.ports.out

namespace SysnetTx64

/-- The packet that has been begun, if any, is of the input whose turn it is. -/
structure Inv (ps : App → List TxPacket64) (s : SysnetTx64) : Prop where
  conserves : Conserves (unitsOf64 ps) s.ports
  sent : ∃ input done part, s.turn = some input ∧ Sent ps s.ports.out done input part

variable {ps : App → List TxPacket64} {s : SysnetTx64}

theorem turn_pass {input : App} (h : s.turn = some input) (ports : Inputs App NetAxis64) :
    ∃ other, turn ⟨pass s.count, ports⟩ = some other := by
  rw [turn] at h
  split at h
  · next h0 => exact ⟨.input1, by rw [h0]; rfl⟩
  · split at h
    · next h1 => exact ⟨.input0, by rw [h1]; rfl⟩
    · exact absurd h (Option.some_ne_none _).symm

/-- Between packets the turn may pass. -/
theorem inv_pass {input : App} (hturn : s.turn = some input) {ports : Inputs App NetAxis64}
    (hc : Conserves (unitsOf64 ps) ports) {done : List (App × TxPacket64)}
    (hout : ports.out = tagged done)
    (horder : KeepsOrder ps done) : Inv ps ⟨pass s.count, ports⟩ := by
  obtain ⟨other, hother⟩ := turn_pass hturn ports
  exact ⟨hc, other, done, [], hother, sent_nil hout horder other⟩

theorem inv_call (h : Inv ps s) (hg : KeepsTurn s .call) : Inv ps s.call := by
  obtain ⟨input, done, part, hturn, hsent⟩ := h.sent
  have hcall : s.call = s.serve input := by rw [call, hturn]
  rw [hcall, serve]
  split
  · next hf =>
    -- the guard excludes that a packet has been begun
    have hmid := hg input hturn (forward_eq_none.mp hf)
    obtain rfl | ⟨part, u, rfl⟩ := List.eq_nil_or_concat part
    · exact inv_pass hturn h.conserves (hsent.out_eq.trans (List.append_nil _)) hsent.order
    · rw [List.concat_eq_append] at hsent
      refine absurd ⟨u, ?_, hsent.not_last⟩ hmid
      rw [hsent.out_eq, ofInput_append, ofInput_map, if_pos rfl, ← List.append_assoc,
        List.getLast?_concat]
  · next u ports hf =>
    obtain ⟨hlast, p, hout, horder⟩ | ⟨hlast, hsent'⟩ := hsent.forward h.conserves hf
    · rw [if_pos hlast]
      exact inv_pass hturn (h.conserves.forward hf) hout horder
    · rw [if_neg hlast]
      exact ⟨h.conserves.forward hf, input, done, part ++ [u], hturn, hsent'⟩

theorem inv_step (h : Inv ps s) (e : Event) (hg : KeepsTurn s e) : Inv ps (s.step e) := by
  cases e with
  | arrive i =>
    refine ⟨h.conserves.arrive i, ?_⟩
    rw [step, arrive_out]
    exact h.sent
  | call => exact inv_call h hg

theorem inv_init (ps : App → List TxPacket64) : Inv ps (init ps) :=
  ⟨conserves_start _, .input0, [], [], rfl, sent_start ps _⟩

end SysnetTx64

theorem Whole64.of_framed {ps : App → List TxPacket64} {out : List (App × NetAxis64)}
    (h : Framed ps out) :
    Whole64 ps (out.map Prod.snd) := by
  obtain ⟨done, horder, hpre⟩ := h
  refine ⟨done, horder, ?_⟩
  have hunits : (tagged done).map Prod.snd = done.flatMap fun d ↦ d.2.units := by
    rw [tagged, List.map_flatMap]
    simp [Function.comp_def]
  rw [← hunits]
  exact hpre.map _

/-- **Transmit arbitration.** As long as no call finds the input whose turn it is empty in the
middle of a packet, packets are sent whole. -/
theorem whole64_of_keepsTurn {ps : App → List TxPacket64} {es : List SysnetTx64.Event}
    (h : Guarded SysnetTx64.step KeepsTurn (.init ps) es) :
    Whole64 ps ((transmitted64 ps es).ports.out.map Prod.snd) := by
  have hstep : ∀ s e, SysnetTx64.Inv ps s → KeepsTurn s e → SysnetTx64.Inv ps (s.step e) :=
    fun _ e hs hg ↦ SysnetTx64.inv_step hs e hg
  obtain ⟨input, done, part, -, hsent⟩ := (h.invariant hstep (SysnetTx64.inv_init ps)).sent
  exact .of_framed hsent.framed

/-- A packet of two units on the first input, and a packet of one unit on the second. -/
def packets64 : App → List TxPacket64
  | .input0 => [⟨{ data := 1 }, [{ data := 2, last := 1 }], by decide⟩]
  | .input1 => [⟨{ data := 3, last := 1 }, [], by decide⟩]

/-- Each unit arrives before the call that is to read it. -/
theorem whole64_inTurn : Whole64 packets64
    ((transmitted64 packets64 [.arrive .input0, .call, .arrive .input0, .call]).ports.out.map
      Prod.snd) := by
  refine whole64_of_keepsTurn ⟨trivial, ?_, trivial, ?_, trivial⟩
  · rintro (_ | _) hturn hqueue
    · exact absurd hqueue (by decide +kernel)
    · exact absurd hturn (by decide +kernel)
  · rintro (_ | _) hturn hqueue
    · exact absurd hqueue (by decide +kernel)
    · exact absurd hturn (by decide +kernel)

/-- The first input runs empty in its packet, and the packet of the second one is sent inside it. -/
theorem not_whole64_stalled : ¬Whole64 packets64
    ((transmitted64 packets64 [.arrive .input0, .arrive .input1, .call, .call, .call]).ports.out.map
      Prod.snd) := by
  have hout : (transmitted64 packets64
      [.arrive .input0, .arrive .input1, .call, .call, .call]).ports.out.map Prod.snd
        = [{ data := 1 }, { data := 3, last := 1 }] := by decide +kernel
  rw [hout]
  rintro ⟨done, horder, hpre⟩
  obtain _ | ⟨⟨input, p⟩, done⟩ := done
  · exact absurd (List.prefix_nil.mp hpre) (List.cons_ne_nil _ _)
  · -- the packet that is sent first is one of the two
    have hmem : p ∈ packets64 input := (horder input).subset (by
      rw [← List.singleton_append, ofInput_append, ofInput_singleton, if_pos rfl]
      exact List.mem_append_left _ (List.mem_singleton_self p))
    cases input with
    | input0 =>
      rw [List.mem_singleton.mp hmem] at hpre
      have h2 := (List.cons_prefix_cons.mp (List.cons_prefix_cons.mp hpre).2).1
      exact absurd h2 (by decide)
    | input1 =>
      rw [List.mem_singleton.mp hmem] at hpre
      exact absurd (List.cons_prefix_cons.mp hpre).1 (by decide)

end FpgaOs.Net
