import FpgaOs.Lib.Burst
import FpgaOs.Rdm.Drain

/-!
# What the service writes to memory

`map` sends a write command for a `WRITE` that is mapped, and the data of every `WRITE`, mapped or
not. The commands and the data go through two streams of their own, and `DRAM_wr_pipe` puts them
together again by counting: it takes a command, and then as many units as the command says. So what
is written is the data of all `WRITE`s, cut into bursts of the lengths of those that are mapped.

The invariant `WrInv` says this of every state that a schedule leads to. The data then stay with
their command exactly if the data of the mapped `WRITE`s are a beginning of the data of all
`WRITE`s; one `WRITE` that is not mapped moves the data of all later ones.
-/

namespace FpgaOs.Rdm

open BitField Mapping Service

/-! ## What is to be written -/

namespace Packet

variable (e : Env) (p : Packet)

/-- The write command for a `WRITE` that is mapped to `pa`. -/
def writeCmd (pa : BitVec 32) : DmCmd := ⟨BitVec.ofNat 23 (64 * p.nrUnits), pa⟩

/-- The data units of a `WRITE`, as the data mover is to get them. -/
def writeUnits : List AxisMem := p.payload.map fun d ↦ ⟨d.data, BitVec.allOnes 64, d.last⟩

/-- The address that the mapping gives to a `WRITE`. -/
def writeAddress (t : Turn) : Option (BitVec 32) :=
  if p.app.opcode = opcodeWrite ∧ (e.map t.maps p.getRequest).status = 0 then
    some (e.map t.maps p.getRequest).address
  else none

end Packet

/-- The `WRITE`s that are mapped, with their addresses. -/
def mappedWrites (e : Env) : Turn → List Packet → List (Packet × BitVec 32)
  | _, [] => []
  | t, p :: ps => ((p.writeAddress e t).map (p, ·)).toList ++ mappedWrites e (p.serve e t).2 ps

/-- The commands of `WRITE`s. -/
def writeCmds (ws : List (Packet × BitVec 32)) : List DmCmd := ws.map fun w ↦ w.1.writeCmd w.2

/-- The data units of `WRITE`s. -/
def writeUnits (ws : List (Packet × BitVec 32)) : List AxisMem := ws.flatMap fun w ↦ w.1.writeUnits

/-- Nothing is left that could be written. -/
structure Service.Written (s : Service) : Prop where
  drained : s.Drained
  fifoWrCmd : s.fifoWrCmd = []
  wrPipeSt : s.wrPipeSt.state = .idle

/-- **What is to hold of the write path.** -/
structure WritesStay (e : Env) (ps : List Packet) (s : Service) : Prop where
  /-- Commands are sent for the mapped `WRITE`s, in their order, and for no others. -/
  cmds : s.dramWrCmd <+: writeCmds (mappedWrites e .first ps)
  /-- What has been sent is a beginning of the data of those whose command has been sent. -/
  units : s.dramWrData <+: writeUnits ((mappedWrites e .first ps).take s.dramWrCmd.length)
  /-- All of it is sent when nothing is left to be done, and it can always come to that. -/
  all : s.Written → s.dramWrCmd = writeCmds (mappedWrites e .first ps)
    ∧ s.dramWrData = writeUnits (mappedWrites e .first ps)
  leads : s.Leads e Written

/-- The data of all `WRITE`s. -/
def allData (ps : List Packet) : List (BitVec 512) := (ps.flatMap Packet.payload).map NetAxis.data

/-- The data of the `WRITE`s that are mapped. -/
def mappedData (e : Env) (ps : List Packet) : List (BitVec 512) :=
  ((mappedWrites e .first ps).flatMap fun w ↦ w.1.payload).map NetAxis.data

/-! ## The invariant -/

/-- A unit for the data mover. -/
def memUnit (x : BitVec 512) (last : Bool) : AxisMem :=
  ⟨x, BitVec.allOnes 64, if last then 1 else 0⟩

/-- How often a counter of 32 bits is to be advanced to get by `n` further; it is advanced before it
is looked at. -/
def laps (n : BitVec 32) : ℕ := if n = 0 then 2 ^ 32 else n.toNat

/-- The number of units that `DRAM_wr_pipe` takes for a command. -/
def MemCmd.units (cmd : MemCmd) : ℕ := laps cmd.nrUnits

/-- The units that `DRAM_wr_pipe` has still to send for the command it is at. -/
def WrPipe.left (w : WrPipe) : ℕ :=
  match w.state with
  | .idle => 0
  | .stream => laps (w.nrUnits - w.nrWritten)

/-- **The invariant of the write path.** The commands `sent` have been sent, out of `cmds`; what has
been sent of `data`, and what is left of the last burst, are the bursts of these. -/
structure WrInv (cmds : List MemCmd) (data : List (BitVec 512)) (sent : List MemCmd) (v : View)
    (s : Service) :
    Prop where
  wrCmds : sent ++ (s.fifoWrCmd ++ wrCmdsOf v.mapped) = cmds
  dramWrCmd : s.dramWrCmd = sent.map MemCmd.cook
  supply : s.fifoWrData ++ v.dataMap.map NetAxis.data = data.drop s.dramWrData.length
  bursts : s.dramWrData ++ Burst.cut memUnit s.wrPipeSt.left (data.drop s.dramWrData.length)
    = Burst.cutAll memUnit (sent.map MemCmd.units) data
  count : s.dramWrData.length + s.wrPipeSt.left = Burst.total (sent.map MemCmd.units)

/-- There are data for all commands. -/
def Supplied (cmds : List MemCmd) (data : List (BitVec 512)) : Prop :=
  Burst.total (cmds.map MemCmd.units) ≤ data.length

section Steps

variable {e : Env} {cmds sent : List MemCmd} {data : List (BitVec 512)} {v v' : View} {s : Service}

/-- What only `DRAM_wr_pipe` has a part in. -/
def Service.writeOut (s : Service) : WrPipe × List DmCmd × List AxisMem :=
  (s.wrPipeSt, s.dramWrCmd, s.dramWrData)

theorem writeOut_dramRdPipe (s : Service) : s.dramRdPipe.writeOut = s.writeOut := by
  obtain ⟨_, _, _, _, _, hstep⟩ := s.exists_dramRdPipe
  rw [hstep]
  rfl

theorem writeOut_step (s : Service) {a : Action} (ha : a ≠ .dramWrPipe) :
    (s.step e a).writeOut = s.writeOut := by
  cases a with
  | arrive => rw [Service.step]; fun_cases Service.arrive s <;> rfl
  | buffering => rw [Service.step]; fun_cases Service.buffering s <;> rfl
  | parser => rw [Service.step]; fun_cases Service.parser s <;> rfl
  | allocAddress => rw [Service.step]; fun_cases Service.allocAddress s <;> rfl
  | map => rw [Service.step]; fun_cases Service.map s <;> rfl
  | access => rw [Service.step]; fun_cases Service.access s <;> rfl
  | reply => rw [Service.step, Service.reply]; split <;> rfl
  | dramRdPipe => exact writeOut_dramRdPipe s
  | dramWrPipe => exact absurd rfl ha
  | answerAlloc => rfl
  | answerMap => rfl
  | dramTake => rw [Service.step]; fun_cases Service.dramTake s e <;> rfl
  | dramDeliver => rw [Service.step]; fun_cases Service.dramDeliver s <;> rfl
  | rdStatus status => rfl
  | wrStatus status => rfl

theorem WrInv.carry {s' : Service} (h : WrInv cmds data sent v s) (hc : Carries v s v' s')
    (hout : s'.writeOut = s.writeOut) : WrInv cmds data sent v' s' := by
  obtain ⟨hpipe, hrest⟩ := Prod.mk.inj hout
  obtain ⟨hcmd, hdata⟩ := Prod.mk.inj hrest
  refine ⟨?_, ?_, ?_, ?_, ?_⟩
  · rw [hc.wrCmds]
    exact h.wrCmds
  · rw [hcmd]
    exact h.dramWrCmd
  · rw [hc.wrData, hdata]
    exact h.supply
  · rw [hdata, hpipe]
    exact h.bursts
  · rw [hdata, hpipe]
    exact h.count

theorem WrInv.takeCmd (h : WrInv cmds data sent v s) (hst : s.wrPipeSt.state = .idle)
    {cmd : MemCmd} {rest : List MemCmd} (hcmd : s.fifoWrCmd = cmd :: rest) :
    WrInv cmds data (sent ++ [cmd]) v
      { s with
        fifoWrCmd := rest
        dramWrCmd := s.dramWrCmd ++ [cmd.cook]
        wrPipeSt := ⟨.stream, 0, cmd.nrUnits⟩ } := by
  have hcmds := h.wrCmds
  have hbursts := h.bursts
  have hcount := h.count
  rw [hcmd] at hcmds
  rw [WrPipe.left, hst] at hbursts hcount
  -- no burst is under way, so what has been sent is whole bursts
  have hsent : s.dramWrData = Burst.cutAll memUnit (sent.map MemCmd.units) data := by
    rw [← hbursts]
    exact (List.append_nil _).symm
  have hleft : (⟨.stream, 0, cmd.nrUnits⟩ : WrPipe).left = cmd.units := by
    rw [WrPipe.left, MemCmd.units]
    exact congrArg laps (BitVec.sub_zero cmd.nrUnits)
  refine ⟨?_, ?_, h.supply, ?_, ?_⟩
  · rw [← hcmds, List.append_assoc]
    rfl
  · dsimp only
    rw [h.dramWrCmd, List.map_append]
    rfl
  · dsimp only
    rw [List.map_append, Burst.cutAll_lengths_append, ← hsent, ← hcount, hleft]
    exact congrArg (s.dramWrData ++ ·) (List.append_nil _).symm
  · dsimp only
    rw [List.map_append, Burst.total_append, ← hcount, hleft]
    rfl

theorem laps_pos (n : BitVec 32) : 0 < laps n := by
  rw [laps]
  split
  · decide
  · next h => exact Nat.pos_of_ne_zero fun hzero ↦ h (BitVec.eq_of_toNat_eq hzero)

theorem laps_step (n w : BitVec 32) : (w + 1 = n ↔ laps (n - w) = 1)
    ∧ (w + 1 ≠ n → laps (n - (w + 1)) + 1 = laps (n - w)) := by
  have hn := n.isLt
  have hw := w.isLt
  have hone : (1 : BitVec 32).toNat = 1 := rfl
  have hzero : (0 : BitVec 32).toNat = 0 := rfl
  have hsucc : (w + 1).toNat = (w.toNat + 1) % 2 ^ 32 := by rw [BitVec.toNat_add, hone]
  have hlaps (x y : BitVec 32) : laps (x - y)
      = if (2 ^ 32 - y.toNat + x.toNat) % 2 ^ 32 = 0 then 2 ^ 32
        else (2 ^ 32 - y.toNat + x.toNat) % 2 ^ 32 := by
    rw [laps]
    simp only [← BitVec.toNat_inj, BitVec.toNat_sub, hzero]
  rw [hlaps, hlaps, ne_eq, ← BitVec.toNat_inj, hsucc]
  constructor
  · split <;> omega
  · intro hne
    split <;> split <;> omega

theorem WrInv.sendUnit (h : WrInv cmds data sent v s) (hst : s.wrPipeSt.state = .stream)
    {x : BitVec 512} {rest : List (BitVec 512)} (hx : s.fifoWrData = x :: rest) :
      WrInv cmds data sent v s.dramWrPipe := by
  have hsupply := h.supply
  have hbursts := h.bursts
  have hcount := h.count
  have hleft : s.wrPipeSt.left = laps (s.wrPipeSt.nrUnits - s.wrPipeSt.nrWritten) := by
    rw [WrPipe.left, hst]
  obtain ⟨hdone, hmore⟩ := laps_step s.wrPipeSt.nrUnits s.wrPipeSt.nrWritten
  have htail : data.drop (s.dramWrData.length + 1) = rest ++ v.dataMap.map NetAxis.data := by
    rw [← List.tail_drop, ← hsupply, hx]
    rfl
  rw [hleft, ← hsupply, hx, List.cons_append] at hbursts
  rw [hleft] at hcount
  rw [Service.dramWrPipe, hst]
  dsimp only
  rw [hx]
  -- the counter wraps around, so a command of 0 units lasts for `2 ^ 32`
  by_cases hend : s.wrPipeSt.nrWritten + 1 = s.wrPipeSt.nrUnits
  · rw [hdone.mp hend] at hbursts hcount
    refine ⟨h.wrCmds, h.dramWrCmd, ?_, ?_, ?_⟩
    · dsimp only
      rw [List.length_append]
      exact htail.symm
    · simp only [if_pos hend, WrPipe.left]
      rw [← hbursts, List.append_assoc]
      rfl
    · simp only [if_pos hend, WrPipe.left, List.length_append, List.length_singleton]
      exact hcount
  · have hpos := laps_pos (s.wrPipeSt.nrUnits - (s.wrPipeSt.nrWritten + 1))
    have hnot : (laps (s.wrPipeSt.nrUnits - (s.wrPipeSt.nrWritten + 1)) == 0) = false :=
      beq_false_of_ne hpos.ne'
    rw [← hmore hend] at hbursts hcount
    rw [Burst.cut, hnot, ← htail] at hbursts
    refine ⟨h.wrCmds, h.dramWrCmd, ?_, ?_, ?_⟩
    · dsimp only
      rw [List.length_append]
      exact htail.symm
    · simp only [if_neg hend, WrPipe.left, List.length_append, List.length_singleton]
      rw [← hbursts, List.append_assoc]
      rfl
    · simp only [if_neg hend, WrPipe.left, List.length_append, List.length_singleton]
      rw [← hcount, Nat.add_assoc, Nat.add_comm 1]

theorem WrInv.dramWrPipe (h : WrInv cmds data sent v s) :
    ∃ sent', WrInv cmds data sent' v s.dramWrPipe := by
  cases hst : s.wrPipeSt.state with
  | idle =>
    rw [Service.dramWrPipe, hst]
    dsimp only
    cases hcmd : s.fifoWrCmd with
    | cons cmd rest => exact ⟨sent ++ [cmd], { h.takeCmd hst hcmd with }⟩
    | nil => exact ⟨sent, { h with }⟩
  | stream =>
    cases hx : s.fifoWrData with
    | cons x rest => exact ⟨sent, h.sendUnit hst hx⟩
    | nil =>
      rw [Service.dramWrPipe, hst]
      dsimp only
      rw [hx]
      exact ⟨sent, h⟩

/-- A state that is bound to send `out` and to write `data` in bursts for `cmds`. -/
def Writing (e : Env) (out : List NetAxis) (cmds : List MemCmd) (data : List (BitVec 512))
    (s : Service) : Prop :=
  ∃ v sent, Inv e out v s ∧ WrInv cmds data sent v s

/-- **The step lemma.** -/
theorem Writing.step {out : List NetAxis} (h : Writing e out cmds data s) (a : Action) :
    Writing e out cmds data (s.step e a) := by
  obtain ⟨v, sent, hinv, hwr⟩ := h
  by_cases ha : a = .dramWrPipe
  · rw [ha]
    obtain ⟨sent', hwr'⟩ := hwr.dramWrPipe
    exact ⟨v, sent', hinv.dramWrPipe, hwr'⟩
  · obtain ⟨v', hinv', hcarries⟩ := hinv.step_writes ha
    exact ⟨v', sent, hinv', hwr.carry hcarries (writeOut_step s ha)⟩

/-- **The run lemma.** -/
theorem Writing.run {out : List NetAxis} (h : Writing e out cmds data s) (as : List Action) :
    Writing e out cmds data (Machine.run (Service.step e) s as) := by
  induction as generalizing s with
  | nil => exact h
  | cons a as ih => exact ih (h.step a)

end Steps

/-! ## The first state -/

section First

variable {e : Env}

theorem units_memCmd (p : Packet) (base : PipelineInfo) (nr : BitVec 64) (ret : MappingReply) :
    ((p.info base nr).translate ret).memCmd.units = p.nrUnits := by
  have hlt := nrUnits_lt p
  have hpos := nrUnits_pos p
  have hnat : (((p.info base nr).translate ret).nrUnits.setWidth 32).toNat = p.nrUnits := by
    rw [nrUnits_translate, BitVec.toNat_setWidth, toNat_nrUnits_info, Nat.mod_eq_of_lt (by omega)]
  have hne : ((p.info base nr).translate ret).nrUnits.setWidth 32 ≠ 0 := by
    intro hzero
    rw [hzero] at hnat
    exact hpos.ne hnat
  rw [MemCmd.units, PipelineInfo.memCmd, laps, if_neg hne, hnat]

theorem mappedFrom_next (t : Turn) (p : Packet) (base : PipelineInfo) (nr : BitVec 64)
    (pis : List PipelineInfo) :
    mappedFrom e (t.next e (p.info base nr)) pis = mappedFrom e (p.serve e t).2 pis := by
  have hopi : (p.info base nr).opcode = p.app.opcode := rfl
  rw [Turn.next, hopi, Packet.serve]
  obtain hop | hop | hop := p.opcode_mem
  · rw [if_neg (by rw [hop]; decide), if_pos hop]
    dsimp only
    split <;> rfl
  · rw [if_neg (by rw [hop]; decide), if_neg (by rw [hop]; decide), if_pos hop]
  · rw [if_pos hop, if_neg (by rw [hop]; decide), if_neg (by rw [hop]; decide), Turn.alloc]
    dsimp only
    split <;> rfl

/-- **The commands that the requests lead to**, with the numbers of their units. -/
theorem wrCmdsOf_infos (t : Turn) (base : PipelineInfo) (nr : BitVec 64) (ps : List Packet) :
    (wrCmdsOf (mappedFrom e t (infos base nr ps))).map (fun cmd ↦ (cmd.cook, cmd.units))
      = (mappedWrites e t ps).map fun w ↦ (w.1.writeCmd w.2, w.1.nrUnits) := by
  induction ps generalizing t base nr with
  | nil => rfl
  | cons p ps ih =>
    have hopi : (p.info base nr).opcode = p.app.opcode := rfl
    rw [infos, wrCmdsOf_mappedFrom_cons p.opcode_mem, List.map_append, mappedFrom_next, ih,
      mappedWrites, List.map_append, Packet.writeAddress, hopi]
    congr 1
    by_cases hop : p.app.opcode = opcodeWrite
    · have hne : p.app.opcode ≠ opcodeAlloc := by rw [hop]; decide
      rw [mapRequest_info p base nr hne]
      by_cases hret : (e.map t.maps p.getRequest).status = 0
      · rw [if_pos ⟨hop, hret⟩, if_pos ⟨hop, hret⟩]
        have hcook := cook_memCmd p base nr _ hret
        have hunits := units_memCmd p base nr (e.map t.maps p.getRequest)
        exact congrArg₂ (fun cmd n ↦ [(cmd, n)]) hcook hunits
      · rw [if_neg fun h ↦ hret h.2, if_neg fun h ↦ hret h.2]
        rfl
    · rw [if_neg fun h ↦ hop h.1, if_neg fun h ↦ hop h.1]
      rfl

theorem writesOf_payload (p : Packet) (t : Turn) :
    ((p.writeAddress e t).map (p, ·)).toList.flatMap (fun w ↦ w.1.payload) = []
      ∨ ((p.writeAddress e t).map (p, ·)).toList.flatMap (fun w ↦ w.1.payload) = p.payload := by
  cases p.writeAddress e t with
  | none => exact .inl rfl
  | some pa => exact .inr (List.append_nil _)

theorem opcode_of_mem_mappedWrites {t : Turn} {ps : List Packet} {w : Packet × BitVec 32}
    (hw : w ∈ mappedWrites e t ps) : w.1.app.opcode = opcodeWrite := by
  induction ps generalizing t with
  | nil => exact absurd hw List.not_mem_nil
  | cons p ps ih =>
    rw [mappedWrites, List.mem_append] at hw
    rcases hw with hw | hw
    · rw [Packet.writeAddress] at hw
      split at hw
      · next h =>
        rw [List.mem_singleton.mp hw]
        exact h.1
      · exact absurd hw List.not_mem_nil
    · exact ih hw

theorem length_payload {p : Packet} (hop : p.app.opcode = opcodeWrite) :
    p.payload.length = p.nrUnits := by
  rw [p.payload_length, if_pos hop]
  rfl

theorem cut_payload {p : Packet} (hop : p.app.opcode = opcodeWrite) :
    Burst.cut memUnit p.nrUnits (p.payload.map NetAxis.data) = p.writeUnits := by
  have hlast (i : ℕ) (d : NetAxis) (hd : p.payload[i]? = some d) : d.last = 1
    ↔ i + 1 = p.payload.length := by
    rw [p.last_iff (i + 2) d hd]
    omega
  rw [← length_payload hop, Packet.writeUnits]
  generalize p.payload = ds at hlast
  induction ds with
  | nil => rfl
  | cons d ds ih =>
    have hd := hlast 0 d rfl
    have hunit : memUnit d.data (ds.length == 0) = ⟨d.data, BitVec.allOnes 64, d.last⟩ := by
      cases ds with
      | nil => rw [hd.mpr rfl]; rfl
      | cons d' ds =>
        have hne : d.last ≠ 1 := by
          rw [ne_eq, hd, List.length_cons, List.length_cons]
          omega
        have hzero : d.last = 0 := (BitVec.eq_zero_or_eq_one d.last).resolve_right hne
        rw [hzero]
        rfl
    rw [List.map_cons, List.map_cons, List.length_cons, Burst.cut, hunit, ih]
    intro i x hx
    rw [hlast (i + 1) x hx, List.length_cons]
    omega

theorem cutAll_writes {ws : List (Packet × BitVec 32)}
    (hws : ∀ w ∈ ws, w.1.app.opcode = opcodeWrite) :
    Burst.cutAll memUnit (ws.map fun w ↦ w.1.nrUnits)
      ((ws.flatMap fun w ↦ w.1.payload).map NetAxis.data)
      = writeUnits ws := by
  induction ws with
  | nil => rfl
  | cons w ws ih =>
    obtain ⟨hw, hws⟩ := List.forall_mem_cons.mp hws
    have hlen : (w.1.payload.map NetAxis.data).length = w.1.nrUnits := by
      rw [List.length_map, length_payload hw]
    rw [List.map_cons, Burst.cutAll, List.flatMap_cons, List.map_append, Burst.cut_append hlen.ge,
      cut_payload hw, ← hlen, List.drop_left, ih hws]
    rfl

theorem length_mappedData {ws : List (Packet × BitVec 32)}
    (hws : ∀ w ∈ ws, w.1.app.opcode = opcodeWrite) :
    (ws.flatMap fun w ↦ w.1.payload).length = Burst.total (ws.map fun w ↦ w.1.nrUnits) := by
  induction ws with
  | nil => rfl
  | cons w ws ih =>
    obtain ⟨hw, hws⟩ := List.forall_mem_cons.mp hws
    rw [List.flatMap_cons, List.length_append, length_payload hw, ih hws]
    rfl

theorem length_mappedWrites_le (t : Turn) (ps : List Packet) :
    ((mappedWrites e t ps).flatMap fun w ↦ w.1.payload).length
      ≤ (ps.flatMap Packet.payload).length := by
  induction ps generalizing t with
  | nil => exact Nat.le_refl _
  | cons p ps ih =>
    rw [mappedWrites, List.flatMap_append, List.length_append, List.flatMap_cons,
      List.length_append]
    refine Nat.add_le_add ?_ (ih _)
    rcases @writesOf_payload e p t with hnone | hall
    · rw [hnone]
      exact Nat.zero_le _
    · rw [hall]

/-- The write commands that the packets lead to. -/
def firstCmds (e : Env) (ps : List Packet) : List MemCmd :=
  wrCmdsOf (mappedFrom e .first (infos {} 1 ps))

theorem cook_firstCmds (e : Env) (ps : List Packet) :
    (firstCmds e ps).map MemCmd.cook = writeCmds (mappedWrites e .first ps) := by
  have h := congrArg (List.map Prod.fst) (@wrCmdsOf_infos e .first {} 1 ps)
  rwa [List.map_map, List.map_map] at h

theorem units_firstCmds (e : Env) (ps : List Packet) :
    (firstCmds e ps).map MemCmd.units = (mappedWrites e .first ps).map fun w ↦ w.1.nrUnits := by
  have h := congrArg (List.map Prod.snd) (@wrCmdsOf_infos e .first {} 1 ps)
  rwa [List.map_map, List.map_map] at h

theorem length_mappedData_eq (e : Env) (ps : List Packet) :
    (mappedData e ps).length = Burst.total ((firstCmds e ps).map MemCmd.units) := by
  rw [mappedData, List.length_map, units_firstCmds, length_mappedData fun w ↦
    opcode_of_mem_mappedWrites]

theorem supplied_first (e : Env) (ps : List Packet) : Supplied (firstCmds e ps) (allData ps) := by
  rw [Supplied, ← length_mappedData_eq, mappedData, allData, List.length_map, List.length_map]
  exact length_mappedWrites_le _ _

theorem writing_after (e : Env) (ps : List Packet) (as : List Action) :
    Writing e (replies e 1 .first ps).flatten (firstCmds e ps) (allData ps) (after e ps as) := by
  have hwr : WrInv (firstCmds e ps) (allData ps) [] (.first e ps)
    (Service.init (ps.flatMap Packet.units)) :=
    { wrCmds := rfl
      dramWrCmd := rfl
      supply := rfl
      bursts := rfl
      count := rfl }
  exact Writing.run ⟨_, [], Inv.init e ps, hwr⟩ as

end First

/-! ## Everything can be written -/

section Liveness

variable {e : Env} {out : List NetAxis} {cmds : List MemCmd} {data : List (BitVec 512)}
  {s : Service}

theorem drained_dramWrPipe (h : s.Drained) : s.dramWrPipe.Drained := by
  rw [Service.dramWrPipe]
  split
  · split
    · exact { h with }
    · exact { h with }
  · split
    · exact { h with }
    · exact h

/-- What is to be done until everything has been written. -/
def Service.writeWork (s : Service) : ℕ :=
  2 * s.fifoWrCmd.length + s.fifoWrData.length + if s.wrPipeSt.state = .stream then 1 else 0

/-- `DRAM_wr_pipe` finds data for the command it is at. -/
theorem Writing.fifoWrData_ne_nil (h : Writing e out cmds data s) (hs : Supplied cmds data)
    (hd : s.Drained) (hst : s.wrPipeSt.state = .stream) : s.fifoWrData ≠ [] := by
  obtain ⟨v, sent, hinv, hwr⟩ := h
  obtain ⟨-, hdataMap, hmapped⟩ := hinv.quiet₃ hd.quiet₃
  have hsupply := hwr.supply
  have hcount := hwr.count
  have hpos := laps_pos (s.wrPipeSt.nrUnits - s.wrPipeSt.nrWritten)
  rw [Supplied, ← hwr.wrCmds, List.map_append, Burst.total_append] at hs
  rw [WrPipe.left, hst] at hcount
  intro hnil
  have hlen := congrArg List.length hsupply
  rw [hnil, hdataMap, List.length_drop] at hlen
  have hzero : 0 = data.length - s.dramWrData.length := hlen
  dsimp only at hcount
  omega

theorem writeWork_dramWrPipe (h : Writing e out cmds data s) (hs : Supplied cmds data)
    (hd : s.Drained) :
    s.Written ∨ s.dramWrPipe.writeWork < s.writeWork := by
  cases hst : s.wrPipeSt.state with
  | idle =>
    cases hcmd : s.fifoWrCmd with
    | nil => exact .inl ⟨hd, hcmd, hst⟩
    | cons cmd rest =>
      right
      simp only [writeWork, Service.dramWrPipe, hst, hcmd, List.length_cons, if_true]
      rw [if_neg (by decide)]
      omega
  | stream =>
    right
    cases hx : s.fifoWrData with
    | nil => exact absurd hx (h.fifoWrData_ne_nil hs hd hst)
    | cons x rest =>
      have hle (st : WrPipeState) : (if st = .stream then 1 else 0) ≤ 1 := by split <;> decide
      have hbound := hle (if s.wrPipeSt.nrWritten + 1 = s.wrPipeSt.nrUnits then .idle else .stream)
      simp only [writeWork, Service.dramWrPipe, hst, hx, List.length_cons, if_true]
      omega

theorem leads_written (h : Writing e out cmds data s) (hs : Supplied cmds data) :
    s.Leads e Written := by
  have hbound : Bound e out s := by
    obtain ⟨v, -, hinv, -⟩ := h
    exact ⟨v, hinv⟩
  obtain ⟨as, has, hd⟩ := leads_drained hbound
  have hdrained : s.Leads e fun s' ↦ Writing e out cmds data s' ∧ s'.Drained :=
    ⟨as, has, h.run as, hd⟩
  have hmove (s : Service) (h : Writing e out cmds data s ∧ s.Drained) : s.Leads e Written
      ∨ s.Leads e fun s' ↦ (Writing e out cmds data s' ∧ s'.Drained)
        ∧ s'.writeWork < s.writeWork := by
    rcases writeWork_dramWrPipe h.1 hs h.2 with hdone | hlt
    · exact .inl (.now hdone)
    · exact .inr (.once trivial ⟨⟨h.1.step .dramWrPipe, drained_dramWrPipe h.2⟩, hlt⟩)
  exact hdrained.trans fun s' hs' ↦ Machine.Leads.of_measure writeWork hmove hs'

end Liveness

/-! ## Which data are written -/

section Stay

variable {e : Env} {ps : List Packet}

theorem cutAll_firstCmds (h : mappedData e ps <+: allData ps) (k : ℕ) :
    Burst.cutAll memUnit (((firstCmds e ps).take k).map MemCmd.units) (allData ps)
      = writeUnits ((mappedWrites e .first ps).take k) := by
  have hws (w : Packet × BitVec 32) (hw : w ∈ (mappedWrites e .first ps).take k) :
    w.1.app.opcode = opcodeWrite :=
    opcode_of_mem_mappedWrites (List.mem_of_mem_take hw)
  obtain ⟨rest, hrest⟩ := h
  have hsplit : allData ps = (((mappedWrites e .first ps).take k).flatMap fun w ↦ w.1.payload).map
    NetAxis.data
      ++ ((((mappedWrites e .first ps).drop k).flatMap fun w ↦ w.1.payload).map NetAxis.data
        ++ rest) := by
    rw [← hrest, ← List.append_assoc, ← List.map_append, ← List.flatMap_append,
      List.take_append_drop]
    rfl
  rw [List.map_take, units_firstCmds, ← List.map_take, hsplit, Burst.cutAll_append,
    cutAll_writes hws]
  rw [List.length_map, length_mappedData hws]

/-- **What has been written.** -/
theorem Writing.sent {cmds : List MemCmd} {data : List (BitVec 512)} {out : List NetAxis}
    {s : Service} (h : Writing e out cmds data s) : s.dramWrCmd <+: cmds.map MemCmd.cook
      ∧ s.dramWrData <+: Burst.cutAll memUnit ((cmds.take s.dramWrCmd.length).map MemCmd.units) data
      ∧ (s.Written → s.dramWrCmd = cmds.map MemCmd.cook
        ∧ s.dramWrData = Burst.cutAll memUnit (cmds.map MemCmd.units) data) := by
  obtain ⟨v, sent, hinv, hwr⟩ := h
  have hcmds := hwr.wrCmds
  have hbursts := hwr.bursts
  have hlen : s.dramWrCmd.length = sent.length := by rw [hwr.dramWrCmd, List.length_map]
  refine ⟨?_, ?_, fun hwritten ↦ ?_⟩
  · rw [hwr.dramWrCmd, ← hcmds, List.map_append]
    exact List.prefix_append _ _
  · rw [hlen, ← hcmds, List.take_left]
    exact ⟨_, hbursts⟩
  · obtain ⟨-, -, hmapped⟩ := hinv.quiet₃ hwritten.drained.quiet₃
    rw [hwritten.fifoWrCmd, hmapped] at hcmds
    have hall : sent = cmds := (List.append_nil _).symm.trans hcmds
    rw [WrPipe.left, hwritten.wrPipeSt, hall] at hbursts
    refine ⟨?_, ?_⟩
    · rw [hwr.dramWrCmd, hall]
    · rw [← hbursts]
      exact (List.append_nil _).symm

/-- **Write data stay with their command** under every schedule, exactly if the data of the mapped
`WRITE`s are a beginning of the data of all `WRITE`s. -/
theorem writesStay_iff (e : Env) (ps : List Packet) :
    (∀ as, WritesStay e ps (after e ps as)) ↔ mappedData e ps <+: allData ps := by
  constructor
  · intro h
    obtain ⟨as, -, hwritten⟩ := (h []).leads
    have hrun : Machine.run (Service.step e) (after e ps []) as = after e ps as := rfl
    rw [hrun] at hwritten
    obtain ⟨-, -, hsent⟩ := (writing_after e ps as).sent
    have hcut := (hsent hwritten).2.symm.trans ((h as).all hwritten).2
    rw [← cutAll_writes fun w ↦ opcode_of_mem_mappedWrites, units_firstCmds] at hcut
    have hlen := (length_mappedData_eq e ps).trans (congrArg Burst.total (units_firstCmds e ps))
    exact (Burst.cutAll_eq_iff (f := AxisMem.data) (fun x b ↦ rfl) hlen).mp hcut
  · intro h as
    obtain ⟨hcmds, hunits, hwritten⟩ := (writing_after e ps as).sent
    have hall : Burst.cutAll memUnit ((firstCmds e ps).map MemCmd.units) (allData ps)
        = writeUnits (mappedWrites e .first ps) := by
      have htake := cutAll_firstCmds h (firstCmds e ps).length
      have hlen := congrArg List.length (units_firstCmds e ps)
      rw [List.length_map, List.length_map] at hlen
      rwa [List.take_length, hlen, List.take_length] at htake
    rw [cutAll_firstCmds h] at hunits
    rw [cook_firstCmds] at hcmds hwritten
    rw [hall] at hwritten
    exact ⟨hcmds, hunits, hwritten, leads_written (writing_after e ps as) (supplied_first e ps)⟩

/-! ### A `WRITE` that is not mapped -/

/-- No `WRITE` that is not mapped comes before one that is. -/
def FailuresLast (e : Env) : Turn → List Packet → Prop
  | _, [] => True
  | t, p :: ps =>
    (p.app.opcode = opcodeWrite → p.writeAddress e t = none →
      mappedWrites e (p.serve e t).2 ps = [])
      ∧ FailuresLast e (p.serve e t).2 ps

theorem FailuresLast.payload_isPrefix {t : Turn} (h : FailuresLast e t ps) :
    ((mappedWrites e t ps).flatMap fun w ↦ w.1.payload) <+: ps.flatMap Packet.payload := by
  induction ps generalizing t with
  | nil => exact List.prefix_rfl
  | cons p ps ih =>
    obtain ⟨hlast, hps⟩ := h
    rw [mappedWrites, List.flatMap_append, List.flatMap_cons]
    cases haddr : p.writeAddress e t with
    | some pa =>
      have hself : ((some pa).map (p, ·)).toList.flatMap (fun w ↦ w.1.payload) = p.payload :=
        List.append_nil _
      rw [hself]
      exact (List.prefix_append_right_inj _).mpr (ih hps)
    | none =>
      by_cases hop : p.app.opcode = opcodeWrite
      · rw [hlast hop haddr]
        exact List.nil_prefix
      · have hpay := p.payload_length
        rw [if_neg hop] at hpay
        rw [List.eq_nil_of_length_eq_zero hpay]
        exact ih hps

/-- The data stay with their command when no `WRITE` fails before one that is mapped. -/
theorem FailuresLast.mappedData_isPrefix (h : FailuresLast e .first ps) :
    mappedData e ps <+: allData ps :=
  h.payload_isPrefix.map NetAxis.data

/-- A `WRITE` of one unit to address `va`. -/
def writeOne (va : BitVec 64) (x : BitVec 512) : Packet where
  eth := {}
  app := header opcodeWrite va 64
  payload := [{ data := x, last := 1 }]
  opcode_mem := by
    rw [opcode_header]
    decide
  length_pos := by
    rw [length_header]
    decide
  length_lt := by
    rw [length_header]
    decide
  payload_length := by
    rw [opcode_header, length_header]
    rfl
  last_iff i d hd := by
    match i with
    | 0 =>
      rw [← Option.some.inj hd]
      exact iff_of_false (by decide : (0 : BitVec 1) ≠ 1) (by decide : 0 ≠ 2)
    | 1 =>
      rw [← Option.some.inj hd]
      exact iff_of_false (by decide : (0 : BitVec 1) ≠ 1) (by decide : 1 ≠ 2)
    | 2 =>
      rw [← Option.some.inj hd]
      exact iff_of_true rfl rfl

/-- The mapping knows nothing but address `0x1000`. -/
def oneMapping : Env where
  alloc _ _ := ⟨1, 0⟩
  map _ r := if r.address = 0x1000 then ⟨0, 0x200, 0⟩ else ⟨1, 0, 0⟩
  dram _ _ _ := 0

/-- Two `WRITE`s, the first of which is not mapped. -/
def unmappedFirst : List Packet := [writeOne 0x2000 7, writeOne 0x1000 9]

example : (after oneMapping unmappedFirst (roundRobin 12)).dramWrData = [memUnit 7 true] := by
    decide +kernel

/-- The data of the first `WRITE` are written to the address of the second. -/
theorem not_writesStay_unmappedFirst :
    ¬∀ as, WritesStay oneMapping unmappedFirst (after oneMapping unmappedFirst as) := by
  intro h
  have hunits := (h (roundRobin 12)).units
  revert hunits
  decide +kernel

end Stay

end FpgaOs.Rdm
