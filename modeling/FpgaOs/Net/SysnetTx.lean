import FpgaOs.Lib.Inputs
import FpgaOs.Lib.Machine
import FpgaOs.Rdm.Format
import Mathlib.Data.Fintype.Basic

/-!
# The transmit arbiter

`sysnet_tx_512` sends the packets of several ports to one output. Between packets it takes the
lowest-numbered port that has a unit; in a packet it stays with the port, also when that runs empty
for a while. So packets are sent whole, and `SysnetTx.Inv` says how the static variables show where
in a packet the output is.
-/

namespace FpgaOs.Net

open Machine Inputs Rdm

/-- `enum SYSNET_TX_STATE`. -/
inductive TxState
  | idle
  | stream
  deriving DecidableEq

/-- The static variables of `sysnet_tx_512` and its streams, for `n + 1` ports. -/
structure SysnetTx (n : ℕ) where
  state : TxState
  index : Fin (n + 1)
  ports : Inputs (Fin (n + 1)) NetAxis

namespace SysnetTx

variable {n : ℕ}

/-- The first port that has a unit. -/
def firstPort (ports : Inputs (Fin (n + 1)) NetAxis) : Option (Fin (n + 1)) :=
  (List.finRange (n + 1)).find? fun i ↦ !(ports.queue i).isEmpty

/-- A call of `sysnet_tx_512`. -/
def call (s : SysnetTx n) : SysnetTx n :=
  match s.state with
  | .idle =>
    match firstPort s.ports with
    | none => s
    | some i =>
      match s.ports.forward i with
      | none => { s with index := i }
      | some (current, ports) => ⟨if current.last = 0 then .stream else .idle, i, ports⟩
  | .stream =>
    match s.ports.forward s.index with
    | none => s
    | some (current, ports) => ⟨if current.last = 1 then .idle else .stream, s.index, ports⟩

/-- A unit arrives at a port, or the function is called. -/
inductive Event (n : ℕ)
  | arrive (i : Fin (n + 1))
  | call

def step (s : SysnetTx n) : Event n → SysnetTx n
  | .arrive i => { s with ports := s.ports.arrive i }
  | .call => s.call

end SysnetTx

variable {n : ℕ}

/-- The packets of a port. -/
abbrev TxPacket := Frame fun d : NetAxis ↦ d.last = 1

/-- The units of all ports. -/
def unitsOf (ps : Fin (n + 1) → List TxPacket) (i : Fin (n + 1)) : List NetAxis :=
  (ps i).flatMap Frame.units

/-- `sysnet_tx_512` on packets for each port, under a schedule of arrivals and calls. -/
def transmitted (ps : Fin (n + 1) → List TxPacket) (es : List (SysnetTx.Event n)) : SysnetTx n :=
  run SysnetTx.step ⟨.idle, 0, Inputs.start (unitsOf ps)⟩ es

/-- No packet has been begun without being ended. -/
def BetweenPackets (out : List (Fin (n + 1) × NetAxis)) : Prop := ∀ w ∈ out.getLast?, w.2.last = 1

/-- No packet has arrived in part. -/
def SysnetTx.Complete (s : SysnetTx n) : Prop :=
  ∀ i, ∀ u ∈ (s.ports.arrived i).getLast?, u.last = 1

/-- The output is whole packets up to its end, in the order of each port; no unit is lost or
duplicated; between packets a call takes the lowest-numbered port that has a unit, and in a packet
the next unit of its port; and as soon as no packet has arrived in part, enough calls send all that
has arrived. -/
structure Arbitrated (ps : Fin (n + 1) → List TxPacket) (s : SysnetTx n) : Prop where
  framed : Framed ps s.ports.out
  conserved : Conserves (unitsOf ps) s.ports
  lowest : BetweenPackets s.ports.out → ∀ i u queue, s.ports.queue i = u :: queue →
    (∀ j < i, s.ports.queue j = []) →
    (s.step .call).ports.out = s.ports.out ++ [(i, u)]
  goesOn : ∀ i v, s.ports.out.getLast? = some (i, v) → ¬v.last = 1 →
    ∀ u queue, s.ports.queue i = u :: queue →
    (s.step .call).ports.out = s.ports.out ++ [(i, u)]
  ends : s.Complete → ∀ k, s.ports.unread ≤ k →
    ∀ i, ofInput i (run SysnetTx.step s (List.replicate k .call)).ports.out = s.ports.arrived i

namespace SysnetTx

/-- Between packets the state is idle; in a packet it is the index that says whose it is. -/
structure Inv (ps : Fin (n + 1) → List TxPacket) (s : SysnetTx n) : Prop where
  conserves : Conserves (unitsOf ps) s.ports
  idle : s.state = .idle → ∃ done, s.ports.out = tagged done ∧ KeepsOrder ps done
  stream : s.state = .stream → ∃ done part u, Sent ps s.ports.out done s.index (part ++ [u])

variable {ps : Fin (n + 1) → List TxPacket} {s : SysnetTx n}

theorem last_eq_zero_iff (d : NetAxis) : d.last = 0 ↔ ¬d.last = 1 := by
  rcases BitVec.eq_zero_or_eq_one d.last with h | h
  · exact iff_of_true h (h ▸ by decide)
  · exact iff_of_false (h ▸ by decide) (not_not_intro h)

theorem firstPort_eq_some {ports : Inputs (Fin (n + 1)) NetAxis} {i : Fin (n + 1)}
    (hi : ports.queue i ≠ []) (hlt : ∀ j < i, ports.queue j = []) : firstPort ports = some i := by
  rw [firstPort, List.find?_eq_some_iff_getElem]
  refine ⟨?_, i, i.isLt.trans_eq (List.length_finRange).symm, by simp, fun j hj ↦ ?_⟩
  · simpa using hi
  · simpa using hlt _ hj

theorem queue_of_firstPort {ports : Inputs (Fin (n + 1)) NetAxis} {i : Fin (n + 1)}
    (h : firstPort ports = some i) : ports.queue i ≠ [] := by
  have hfind := List.find?_some h
  simpa using hfind

theorem queue_of_firstPort_none {ports : Inputs (Fin (n + 1)) NetAxis} (h : firstPort ports = none)
    (i : Fin (n + 1)) : ports.queue i = [] := by
  have hfind := List.find?_eq_none.mp h i (List.mem_finRange i)
  simpa using hfind

/-- A call sends a unit, or there is none that it may send. -/
theorem call_cases (s : SysnetTx n) :
    (∃ i u, s.ports.forward i = some (u, s.call.ports)) ∨
      (s.call = s ∧ ((∀ i, s.ports.queue i = []) ∨
        (s.state = .stream ∧ s.ports.queue s.index = []))) := by
  rw [call]
  split
  · split
    · next hport => exact .inr ⟨rfl, .inl (queue_of_firstPort_none hport)⟩
    · next i hport =>
      split
      · next hf => exact absurd (forward_eq_none.mp hf) (queue_of_firstPort hport)
      · next u ports hf => exact .inl ⟨i, u, hf⟩
  · next hst =>
    split
    · next hf => exact .inr ⟨rfl, .inr ⟨hst, forward_eq_none.mp hf⟩⟩
    · next u ports hf => exact .inl ⟨s.index, u, hf⟩

/-- The state after a unit shows whether it was the final one of its packet. -/
theorem inv_forward {done : List (Fin (n + 1) × TxPacket)} {i : Fin (n + 1)} {part : List NetAxis}
    {u : NetAxis} {ports ports' : Inputs (Fin (n + 1)) NetAxis} (hc : Conserves (unitsOf ps) ports)
    (hsent : Sent ps ports.out done i part) (hf : ports.forward i = some (u, ports')) :
    Inv ps ⟨if u.last = 1 then .idle else .stream, i, ports'⟩ := by
  obtain ⟨hlast, p, hout, horder⟩ | ⟨hlast, hsent'⟩ := hsent.forward hc hf
  · rw [if_pos hlast]
    exact ⟨hc.forward hf, fun _ ↦ ⟨_, hout, horder⟩, fun h ↦ TxState.noConfusion h⟩
  · rw [if_neg hlast]
    exact ⟨hc.forward hf, fun h ↦ TxState.noConfusion h, fun _ ↦ ⟨done, part, u, hsent'⟩⟩

theorem inv_call (h : Inv ps s) : Inv ps s.call := by
  rw [call]
  split
  · next hst =>
    split
    · exact h
    · next i _ =>
      split
      · exact ⟨h.conserves, h.idle, fun hst' ↦ TxState.noConfusion (hst.symm.trans hst')⟩
      · next u ports hf =>
        obtain ⟨done, hout, horder⟩ := h.idle hst
        have hinv := inv_forward h.conserves (sent_nil hout horder i) hf
        rw [← ite_not] at hinv
        simp only [last_eq_zero_iff]
        exact hinv
  · next hst =>
    split
    · exact h
    · next u ports hf =>
      obtain ⟨done, part, v, hsent⟩ := h.stream hst
      exact inv_forward h.conserves hsent hf

theorem inv_step (h : Inv ps s) (e : Event n) : Inv ps (s.step e) := by
  cases e with
  | arrive i =>
    refine ⟨h.conserves.arrive i, ?_, ?_⟩
    · rw [step, arrive_out]
      exact h.idle
    · rw [step, arrive_out]
      exact h.stream
  | call => exact inv_call h

theorem inv_transmitted (ps : Fin (n + 1) → List TxPacket) (es : List (Event n)) :
    Inv ps (transmitted ps es) := by
  have hstart : Inv ps ⟨.idle, 0, Inputs.start (unitsOf ps)⟩ :=
    ⟨conserves_start _, fun _ ↦ ⟨[], rfl, keepsOrder_nil ps⟩, fun h ↦ TxState.noConfusion h⟩
  have hstep : ∀ (s : SysnetTx n) e, Inv ps s → Inv ps (s.step e) := fun _ e hs ↦ inv_step hs e
  exact run_invariant hstep hstart es

/-- In a packet the state says so, and the index whose it is. -/
theorem getLast?_out {done : List (Fin (n + 1) × TxPacket)} {part : List NetAxis} {u : NetAxis}
    (hsent : Sent ps s.ports.out done s.index (part ++ [u])) :
    s.ports.out.getLast? = some (s.index, u) := by
  rw [hsent.out_eq, List.map_append, ← List.append_assoc, List.map_singleton, List.getLast?_concat]

theorem Inv.idle_of_betweenPackets (h : Inv ps s) (hb : BetweenPackets s.ports.out) :
    s.state = .idle := by
  cases hst : s.state with
  | idle => rfl
  | stream =>
    obtain ⟨done, part, u, hsent⟩ := h.stream hst
    exact absurd (hb (s.index, u) (getLast?_out hsent)) hsent.not_last

theorem Inv.stream_of_getLast? (h : Inv ps s) {i : Fin (n + 1)} {v : NetAxis}
    (hlast : s.ports.out.getLast? = some (i, v)) (hv : ¬v.last = 1) :
    s.state = .stream ∧ s.index = i := by
  cases hst : s.state with
  | idle =>
    obtain ⟨done, hout, -⟩ := h.idle hst
    rw [hout] at hlast
    exact absurd (last_of_getLast?_tagged hlast) hv
  | stream =>
    obtain ⟨done, part, u, hsent⟩ := h.stream hst
    rw [getLast?_out hsent] at hlast
    exact ⟨rfl, congrArg Prod.fst (Option.some.inj hlast)⟩

/-- A packet that has been begun goes on, if none has arrived in part. -/
theorem Inv.queue_ne_nil (h : Inv ps s) (hcomplete : s.Complete) (hst : s.state = .stream) :
    s.ports.queue s.index ≠ [] := by
  intro hqueue
  obtain ⟨done, part, u, hsent⟩ := h.stream hst
  have harrived : s.ports.arrived s.index
      = ofInput s.index (tagged done) ++ part ++ [u] := by
    rw [arrived, hqueue, List.append_nil, hsent.out_eq, ofInput_append, ofInput_map, if_pos rfl,
      List.append_assoc]
  refine hsent.not_last (hcomplete s.index u ?_)
  rw [harrived, List.getLast?_concat]
  rfl

/-- **Enough calls send everything.** -/
theorem Inv.run_calls (h : Inv ps s) (hcomplete : s.Complete) {k : ℕ} (hk : s.ports.unread ≤ k)
    (i : Fin (n + 1)) :
    ofInput i (run step s (List.replicate k .call)).ports.out = s.ports.arrived i := by
  let inv : SysnetTx n → Prop := fun t ↦ Inv ps t ∧ ∀ i, t.ports.arrived i = s.ports.arrived i
  have hstep : ∀ t e, inv t → e = .call → inv (t.step e) := by
    rintro t _ ⟨ht, harrived⟩ rfl
    refine ⟨inv_step ht .call, fun i ↦ ?_⟩
    rcases t.call_cases with ⟨j, u, hf⟩ | ⟨heq, -⟩
    · exact (arrived_forward hf i).trans (harrived i)
    · rw [step, heq]
      exact harrived i
  let unread : SysnetTx n → ℕ := fun t ↦ t.ports.unread
  have hless : ∀ t e, inv t → e = .call → t.step e = t ∨ unread (t.step e) < unread t := by
    rintro t _ - rfl
    rcases t.call_cases with ⟨j, u, hf⟩ | ⟨heq, -⟩
    · exact .inr (Nat.lt_of_succ_le (Nat.le_of_eq (unread_forward hf)))
    · exact .inl heq
  have hrounds : ∀ r ∈ List.replicate k [Event.call], ∀ e : Event n, e ∈ r ↔ e = .call :=
    fun r hr e ↦ List.eq_of_mem_replicate hr ▸ List.mem_singleton
  obtain ⟨⟨ht, harrived⟩, hstuck⟩ := stuck_of_rounds hstep hless ⟨h, fun _ ↦ rfl⟩ hrounds
    (hk.trans_eq List.length_replicate.symm)
  rw [List.flatten_replicate_singleton] at ht harrived hstuck
  have hcall := hstuck .call rfl
  rcases (run step s (List.replicate k .call)).call_cases with ⟨j, u, hf⟩ | ⟨-, hnone⟩
  · have hless := unread_forward hf
    rw [step] at hcall
    rw [hcall] at hless
    omega
  · have hcomplete' : (run step s (List.replicate k .call)).Complete := fun j ↦ by
      rw [harrived j]
      exact hcomplete j
    rcases hnone with hnone | ⟨hst, hnone⟩
    · rw [← harrived i, arrived, hnone i, List.append_nil]
    · exact absurd hnone (ht.queue_ne_nil hcomplete' hst)

end SysnetTx

/-- **Transmit arbitration.** -/
theorem arbitrated_transmitted (ps : Fin (n + 1) → List TxPacket) (es : List (SysnetTx.Event n)) :
    Arbitrated ps (transmitted ps es) := by
  have hinv := SysnetTx.inv_transmitted ps es
  refine ⟨?_, hinv.conserves, ?_, ?_, fun hcomplete k hk ↦ hinv.run_calls hcomplete hk⟩
  · cases hst : (transmitted ps es).state with
    | idle =>
      obtain ⟨done, hout, horder⟩ := hinv.idle hst
      exact (sent_nil hout horder 0).framed
    | stream =>
      obtain ⟨done, part, u, hsent⟩ := hinv.stream hst
      exact hsent.framed
  · intro hb i u queue hqueue hlt
    have hidle := hinv.idle_of_betweenPackets hb
    have hport := SysnetTx.firstPort_eq_some (hqueue ▸ List.cons_ne_nil _ _) hlt
    have hforward := forward_eq_some.mpr ⟨queue, hqueue, rfl⟩
    simp only [SysnetTx.step, SysnetTx.call, hidle, hport, hforward]
  · intro i v hlast hv u queue hqueue
    obtain ⟨hstream, rfl⟩ := hinv.stream_of_getLast? hlast hv
    have hforward := forward_eq_some.mpr ⟨queue, hqueue, rfl⟩
    simp only [SysnetTx.step, SysnetTx.call, hstream, hforward]

end FpgaOs.Net
