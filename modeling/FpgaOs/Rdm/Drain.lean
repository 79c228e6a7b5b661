import FpgaOs.Rdm.Served

/-!
# The reply stream

The state that any schedule leads to is still bound to send the replies to the packets, so what has
been sent is a beginning of them. That everything is sent in the end is shown stage by stage, from
the network down: when nothing will come from above, a stage can be emptied, because whatever it
waits for is there or is answered. `quiet₁` to `quiet₈` are the parts of the state that are empty
when the first stages have been emptied; the stages further down do not touch them.
-/

namespace FpgaOs.Rdm

open BitField Mapping Service

/-- A state that is bound to send `out`. -/
def Bound (e : Env) (out : List NetAxis) (s : Service) : Prop := ∃ v, Inv e out v s

theorem Bound.step {e : Env} {out : List NetAxis} {s : Service} (h : Bound e out s) (a : Action) :
    Bound e out (s.step e a) := by
  obtain ⟨v, hv⟩ := h
  exact hv.step a

/-- Some schedule leads from the state to one with the property. -/
abbrev Service.Leads (e : Env) (s : Service) (p : Service → Prop) : Prop :=
  Machine.Leads (Service.step e) (fun _ ↦ True) s p

section

variable {e : Env} {out : List NetAxis} {s : Service}

/-- A call, or two, that do some of the work of a stage. -/
def Service.Moves (e : Env) (out : List NetAxis) (q : Service → Prop) (μ : Service → ℕ)
    (s : Service) : Prop :=
  s.Leads e fun s' ↦ (Bound e out s' ∧ q s') ∧ μ s' < μ s

theorem Service.Moves.once {q : Service → Prop} {μ : Service → ℕ} (h : Bound e out s) (a : Action)
    (hq : q (s.step e a)) (hμ : μ (s.step e a) < μ s) : s.Moves e out q μ := by
  rw [Service.Moves]
  exact Machine.Leads.once trivial ⟨⟨h.step a, hq⟩, hμ⟩

theorem Service.Moves.next {q : Service → Prop} {μ : Service → ℕ} (a : Action)
    (hμ : μ (s.step e a) = μ s) (h : (s.step e a).Moves e out q μ) : s.Moves e out q μ := by
  rw [Service.Moves, ← hμ]
  exact Machine.Leads.next trivial h

/-- A stage whose work can always be made less can be emptied. -/
theorem leads_of_moves {q q' : Service → Prop} (μ : Service → ℕ)
    (hmove : ∀ s, Bound e out s → q s → q' s ∨ s.Moves e out q μ) (h : Bound e out s) (hq : q s) :
    s.Leads e fun s' ↦ Bound e out s' ∧ q' s' := by
  have hstep (s : Service) (hs : Bound e out s ∧ q s) :
      s.Leads e (fun s' ↦ Bound e out s' ∧ q' s') ∨ s.Leads e fun s' ↦ (Bound e out s' ∧ q s')
        ∧ μ s' < μ s := by
    rcases hmove s hs.1 hs.2 with hdone | hmoves
    · exact .inl (.now ⟨hs.1, hdone⟩)
    · exact .inr hmoves
  exact Machine.Leads.of_measure μ hstep ⟨h, hq⟩

/-! ## The network and `parser` -/

def Service.inputs (s : Service) : List NetAxis × List NetAxis × List NetAxis :=
  (s.input, s.fromNet, s.bufferToParser)

/-- All units have been parsed. -/
def Quiet₁ (s : Service) : Prop := s.inputs = ([], [], [])

/-- What is to be done until all units have been parsed. -/
def Service.inputWork (s : Service) : ℕ :=
  3 * s.input.length + 2 * s.fromNet.length + s.bufferToParser.length

theorem moves_input (h : Bound e out s) : Quiet₁ s ∨ s.Moves e out (fun _ ↦ True) inputWork := by
  cases hinput : s.input with
  | cons d rest =>
    refine .inr (.once h .arrive trivial ?_)
    simp only [inputWork, Service.step, Service.arrive, hinput, List.length_append,
      List.length_cons, List.length_nil]
    omega
  | nil =>
    cases hfrom : s.fromNet with
    | cons d rest =>
      refine .inr (.once h .buffering trivial ?_)
      simp only [inputWork, Service.step, Service.buffering, hfrom, List.length_append,
        List.length_cons, List.length_nil]
      omega
    | nil =>
      cases hbuffer : s.bufferToParser with
      | cons d rest =>
        refine .inr (.once h .parser trivial ?_)
        simp only [inputWork, Service.step, Service.parser, hbuffer, List.length_cons]
        omega
      | nil =>
        left
        rw [Quiet₁, inputs, hinput, hfrom, hbuffer]

/-! ## `alloc_address` -/

/-- The part of the state down to `alloc_address`. -/
def Service.upToAlloc (s : Service) :
    (List NetAxis × List NetAxis × List NetAxis) × ParserState × List PipelineInfo × List
      NetAxis × AllocState :=
  (s.inputs, s.parserSt.state, s.piParserToAlloc, s.dParserToAlloc, s.allocSt.state)

def Quiet₂ (s : Service) : Prop := s.upToAlloc = (([], [], []), .ethHeader, [], [], .idle)

theorem inputs_allocAddress (s : Service) : s.allocAddress.inputs = s.inputs := by
  fun_cases Service.allocAddress s <;> rfl

theorem eq_nil_of_lasts {ds ds' : List NetAxis} (hends : EndsLast (ds' ++ ds)) (h : lasts ds = 0) :
    ds = [] := by
  cases hlast : ds.getLast? with
  | none => exact List.getLast?_eq_none_iff.mp hlast
  | some d =>
    have hd : d.last = 1 := hends d (by rw [List.getLast?_append, hlast]; rfl)
    have hpos : 0 < lasts ds :=
      List.countP_pos_iff.mpr ⟨d, List.mem_of_getLast? hlast, decide_eq_true hd⟩
    omega

theorem ne_nil_of_lasts {ds : List NetAxis} (h : 0 < lasts ds) : ds ≠ [] := by
  rintro rfl
  exact absurd h (by decide)

def AllocState.weight : AllocState → ℕ
  | .idle => 0
  | .writeStream => 1
  | .waitAlloc => 1

/-- What `alloc_address` has to do. -/
def Service.allocWork (s : Service) : ℕ :=
  2 * s.piParserToAlloc.length + s.dParserToAlloc.length + s.allocSt.state.weight

theorem allocWork_idle (hst : s.allocSt.state = .idle) (hpi : s.piParserToAlloc ≠ []) :
    s.allocAddress.allocWork < s.allocWork := by
  obtain ⟨pi, rest, hpi⟩ := List.exists_cons_of_ne_nil hpi
  rw [Service.allocAddress, hst, hpi]
  dsimp only
  split
  · simp only [allocWork, hst, hpi, AllocState.weight, List.length_cons]
    omega
  split
  · simp only [allocWork, hst, hpi, AllocState.weight, List.length_cons]
    omega
  split
  · simp only [allocWork, hst, hpi, AllocState.weight, List.length_cons]
    omega
  · simp only [allocWork, hst, hpi, AllocState.weight, List.length_cons]
    omega

theorem allocWork_writeStream (hst : s.allocSt.state = .writeStream) (hd : s.dParserToAlloc ≠ []) :
    s.allocAddress.allocWork < s.allocWork := by
  obtain ⟨d, rest, hd⟩ := List.exists_cons_of_ne_nil hd
  rw [Service.allocAddress, hst, hd]
  dsimp only
  by_cases hlast : d.last = 1
  · simp only [allocWork, hst, hd, if_pos hlast, AllocState.weight, List.length_cons]
    omega
  · simp only [allocWork, hst, hd, if_neg hlast, AllocState.weight, List.length_cons]
    omega

theorem allocWork_waitAlloc (hst : s.allocSt.state = .waitAlloc) (hret : s.buddy.rets ≠ []) :
    s.allocAddress.allocWork < s.allocWork := by
  obtain ⟨ret, rest, hret⟩ := List.exists_cons_of_ne_nil hret
  rw [Service.allocAddress, hst, hret]
  simp only [allocWork, hst, AllocState.weight]
  omega

theorem Inv.quiet₁ {v : View} (h : Inv e out v s) (hq : Quiet₁ s) :
    s.parserSt.state = .ethHeader ∧ v.toAlloc = s.piParserToAlloc
      ∧ v.dataAlloc = s.dParserToAlloc := by
  obtain ⟨hinput, hrest⟩ := Prod.mk.inj hq
  obtain ⟨hfrom, hbuffer⟩ := Prod.mk.inj hrest
  have hunits := h.units
  rw [hinput, hfrom, hbuffer] at hunits
  have hframed := h.framed
  have htoAlloc := h.toAlloc
  have hdataAlloc := h.dataAlloc
  rw [hunits] at hframed htoAlloc hdataAlloc
  exact ⟨hframed, htoAlloc.trans (List.append_nil _), hdataAlloc.trans (List.append_nil _)⟩

theorem moves_alloc (h : Bound e out s) (hq : Quiet₁ s) :
    Quiet₂ s ∨ s.Moves e out Quiet₁ allocWork := by
  obtain ⟨v, hv⟩ := h
  obtain ⟨hparser, htoAlloc, hdataAlloc⟩ := hv.quiet₁ hq
  have hpending := hv.allocPending
  rw [htoAlloc, hdataAlloc, AllocAddress.pending] at hpending
  have hcall : Quiet₁ (s.step e .allocAddress) := (inputs_allocAddress s).trans hq
  -- in each state the input that the stage waits for is there, unless it is done
  cases hst : s.allocSt.state with
  | idle =>
    by_cases hpi : s.piParserToAlloc = []
    · left
      rw [hpi, hst] at hpending
      have hends := hv.endsLast
      rw [hv.dataMap, hdataAlloc] at hends
      have hd := eq_nil_of_lasts hends hpending
      rw [Quiet₂, upToAlloc, hq, hparser, hpi, hd, hst]
    · exact .inr (.once ⟨v, hv⟩ .allocAddress hcall (allocWork_idle hst hpi))
  | writeStream =>
    rw [hst, if_pos rfl] at hpending
    have hd : s.dParserToAlloc ≠ [] := ne_nil_of_lasts (by omega)
    exact .inr (.once ⟨v, hv⟩ .allocAddress hcall (allocWork_writeStream hst hd))
  | waitAlloc =>
    have hbuddy := hv.buddy
    rw [if_pos hst] at hbuddy
    refine .inr (.next .answerAlloc rfl (.once ⟨v, hv.answerAlloc⟩ .allocAddress ?_ ?_))
    · exact (inputs_allocAddress _).trans hq
    · exact allocWork_waitAlloc hst hbuddy.ready

/-! ## `map` -/

/-- The part of the state down to `map`. -/
def Service.upToMap (s : Service) :
    ((List NetAxis × List NetAxis × List NetAxis) × ParserState × List PipelineInfo × List
      NetAxis × AllocState)
      × List PipelineInfo × List NetAxis × MapState :=
  (s.upToAlloc, s.piAllocToMap, s.dAllocToMap, s.mapSt.state)

def Quiet₃ (s : Service) : Prop :=
  s.upToMap = ((([], [], []), .ethHeader, [], [], .idle), [], [], .idle)

theorem upToAlloc_map (s : Service) : s.map.upToAlloc = s.upToAlloc := by
  fun_cases Service.map s <;> rfl

def MapState.weight : MapState → ℕ
  | .idle => 0
  | .waitMap => 2
  | .stream => 1

/-- What `map` has to do. -/
def Service.mapWork (s : Service) : ℕ :=
  3 * s.piAllocToMap.length + s.dAllocToMap.length + s.mapSt.state.weight

theorem mapWork_idle (hst : s.mapSt.state = .idle) (hpi : s.piAllocToMap ≠ []) :
    s.map.mapWork < s.mapWork := by
  obtain ⟨pi, rest, hpi⟩ := List.exists_cons_of_ne_nil hpi
  rw [Service.map, hst, hpi]
  dsimp only
  split
  · simp only [mapWork, hst, hpi, MapState.weight, List.length_cons]
    omega
  · simp only [mapWork, hst, hpi, MapState.weight, List.length_cons]
    omega

theorem mapWork_stream (hst : s.mapSt.state = .stream) (hd : s.dAllocToMap ≠ []) :
    s.map.mapWork < s.mapWork := by
  obtain ⟨d, rest, hd⟩ := List.exists_cons_of_ne_nil hd
  rw [Service.map, hst, hd]
  dsimp only
  by_cases hlast : d.last = 1
  · simp only [mapWork, hst, hd, if_pos hlast, MapState.weight, List.length_cons]
    omega
  · simp only [mapWork, hst, hd, if_neg hlast, MapState.weight, List.length_cons]
    omega

theorem mapWork_waitMap (hst : s.mapSt.state = .waitMap) (hret : s.mapping.rets ≠ []) :
    s.map.mapWork < s.mapWork := by
  obtain ⟨ret, rest, hret⟩ := List.exists_cons_of_ne_nil hret
  rw [Service.map, hst, hret]
  dsimp only
  by_cases hop : (s.mapSt.pi.translate ret).opcode = opcodeWrite
  · simp only [mapWork, hst, if_pos hop, MapState.weight]
    omega
  · simp only [mapWork, hst, if_neg hop, MapState.weight]
    omega

theorem Inv.quiet₂ {v : View} (h : Inv e out v s) (hq : Quiet₂ s) :
    v.toMap = s.piAllocToMap ∧ v.dataMap = s.dAllocToMap := by
  simp only [Quiet₂, upToAlloc, Prod.mk.injEq] at hq
  obtain ⟨hinputs, -, hpi, hd, hst⟩ := hq
  obtain ⟨-, htoAlloc, hdataAlloc⟩ := h.quiet₁ hinputs
  have htoMap := h.toMap
  have hdataMap := h.dataMap
  rw [htoAlloc, hpi, allocFrom, hst, if_neg (by decide)] at htoMap
  rw [hdataAlloc, hd] at hdataMap
  exact ⟨htoMap.trans (List.append_nil _), hdataMap.trans (List.append_nil _)⟩

theorem moves_map (h : Bound e out s) (hq : Quiet₂ s) :
    Quiet₃ s ∨ s.Moves e out Quiet₂ mapWork := by
  obtain ⟨v, hv⟩ := h
  obtain ⟨htoMap, hdataMap⟩ := hv.quiet₂ hq
  have hpending := hv.mapPending
  rw [htoMap, hdataMap, MapStage.pending] at hpending
  have hcall : Quiet₂ (s.step e .map) := (upToAlloc_map s).trans hq
  cases hst : s.mapSt.state with
  | idle =>
    by_cases hpi : s.piAllocToMap = []
    · left
      rw [hpi, hst] at hpending
      have hends := hv.endsLast
      rw [hdataMap] at hends
      have hd : s.dAllocToMap = [] := @eq_nil_of_lasts _ [] hends hpending
      rw [Quiet₃, upToMap, hq, hpi, hd, hst]
    · exact .inr (.once ⟨v, hv⟩ .map hcall (mapWork_idle hst hpi))
  | stream =>
    rw [hst] at hpending
    have hd : s.dAllocToMap ≠ [] := ne_nil_of_lasts (hpending ▸ Nat.succ_pos _)
    exact .inr (.once ⟨v, hv⟩ .map hcall (mapWork_stream hst hd))
  | waitMap =>
    have hmapping := hv.mapping
    rw [if_pos hst] at hmapping
    refine .inr (.next .answerMap rfl (.once ⟨v, hv.answerMap⟩ .map ?_ ?_))
    · exact (upToAlloc_map _).trans hq
    · exact mapWork_waitMap hst hmapping.ready

theorem Inv.quiet₃ {v : View} (h : Inv e out v s) (hq : Quiet₃ s) :
    v.toMap = [] ∧ v.dataMap = [] ∧ v.mapped = [] := by
  simp only [Quiet₃, upToMap, Prod.mk.injEq] at hq
  obtain ⟨halloc, hpi, hd, hst⟩ := hq
  obtain ⟨htoMap, hdataMap⟩ := h.quiet₂ halloc
  rw [hpi] at htoMap
  have hmapped := h.mapped
  rw [htoMap, mapFrom, hst, if_neg (by decide)] at hmapped
  exact ⟨htoMap, hdataMap.trans hd, hmapped⟩

/-! ## The read path of the data mover -/

/-- The part of the state down to the read commands. -/
def Quiet₄ (s : Service) : Prop := Quiet₃ s ∧ s.fifoRdCmd = []

def Quiet₅ (s : Service) : Prop := Quiet₄ s ∧ s.dramRdCmd = []

def Quiet₆ (s : Service) : Prop := Quiet₅ s ∧ s.dramBusy = [] ∧ s.dramRdData = []

theorem upToMap_dramRdPipe (s : Service) : s.dramRdPipe.upToMap = s.upToMap := by
  obtain ⟨_, _, _, _, _, hstep⟩ := s.exists_dramRdPipe
  rw [hstep]
  rfl

theorem fifoRdCmd_dramRdPipe (s : Service) : s.dramRdPipe.fifoRdCmd = s.fifoRdCmd.tail := by
  have hdata : s.rdPipeCmd.rdPipeData.fifoRdCmd = s.rdPipeCmd.fifoRdCmd := by
    fun_cases Service.rdPipeData s.rdPipeCmd <;> rfl
  have hcmd : s.rdPipeCmd.fifoRdCmd = s.fifoRdCmd.tail := by
    rw [Service.rdPipeCmd]
    split
    · next h => rw [h]; rfl
    · next h => rw [h]; rfl
  exact hdata.trans hcmd

theorem moves_rdCmd (h : Bound e out s) (hq : Quiet₃ s) :
    Quiet₄ s ∨ s.Moves e out Quiet₃ fun s ↦ s.fifoRdCmd.length := by
  by_cases hcmd : s.fifoRdCmd = []
  · exact .inl ⟨hq, hcmd⟩
  · refine .inr (.once h .dramRdPipe ((upToMap_dramRdPipe s).trans hq) ?_)
    simp only [Service.step, fifoRdCmd_dramRdPipe, List.length_tail]
    exact Nat.sub_lt (List.length_pos_of_ne_nil hcmd) Nat.one_pos

theorem moves_dramTake (h : Bound e out s) (hq : Quiet₄ s) :
    Quiet₅ s ∨ s.Moves e out Quiet₄ fun s ↦ s.dramRdCmd.length := by
  cases hcmd : s.dramRdCmd with
  | nil => exact .inl ⟨hq, hcmd⟩
  | cons cmd rest =>
    have hstep : s.dramTake e
        = { s with
            dramRdCmd := rest
            dramRead := s.dramRead + 1
            dramBusy := s.dramBusy ++ dramBlock e s.dramRead cmd } := by
      rw [Service.dramTake, hcmd]
    refine .inr (.once h .dramTake ?_ ?_)
    · rw [Service.step, hstep]
      exact hq
    · simp only [Service.step, hstep, hcmd, List.length_cons]
      omega

theorem moves_dramData (h : Bound e out s) (hq : Quiet₅ s) :
    Quiet₆ s ∨ s.Moves e out Quiet₅ fun s ↦ 2 * s.dramBusy.length + s.dramRdData.length := by
  cases hbusy : s.dramBusy with
  | cons data rest =>
    have hstep : s.dramDeliver
      = { s with dramBusy := rest, dramRdData := s.dramRdData ++ [data] } := by
      rw [Service.dramDeliver, hbusy]
    refine .inr (.once h .dramDeliver ?_ ?_)
    · rw [Service.step, hstep]
      exact hq
    · simp only [Service.step, hstep, hbusy, List.length_append, List.length_cons, List.length_nil]
      omega
  | nil =>
    cases hdata : s.dramRdData with
    | nil => exact .inl ⟨hq, hbusy, hdata⟩
    | cons data rest =>
      have hcmd : s.rdPipeCmd = s := by rw [Service.rdPipeCmd, hq.1.2]
      have hstep : s.dramRdPipe
          = { s with
              dramRdData := rest
              fifoRdData := s.fifoRdData ++ [data]
              dramRdStatus := s.dramRdStatus.tail } := by
        rw [Service.dramRdPipe, hcmd, Service.rdPipeData, hdata]
      refine .inr (.once h .dramRdPipe ?_ ?_)
      · rw [Service.step, hstep]
        exact hq
      · simp only [Service.step, hstep, hdata, List.length_cons]
        omega

/-! ## `access` and `reply` -/

def Quiet₇ (s : Service) : Prop :=
  Quiet₆ s ∧ s.piMapToAccess = [] ∧ s.accessSt.state = .idle ∧ s.fifoRdData = []

def AccessState.weight : AccessState → ℕ
  | .idle => 0
  | .outApp => 2
  | .read => 1

/-- What `access` has to do. -/
def Service.accessWork (s : Service) : ℕ :=
  3 * s.piMapToAccess.length + s.fifoRdData.length + s.accessSt.state.weight

theorem quiet₆_access (hq : Quiet₆ s) : Quiet₆ s.access := by
  fun_cases Service.access s <;> exact hq

theorem accessWork_idle (hst : s.accessSt.state = .idle) (hpi : s.piMapToAccess ≠ []) :
    s.access.accessWork < s.accessWork := by
  obtain ⟨pi, rest, hpi⟩ := List.exists_cons_of_ne_nil hpi
  rw [Service.access, hst, hpi]
  simp only [accessWork, hst, hpi, AccessState.weight, List.length_cons]
  omega

theorem accessWork_outApp (hst : s.accessSt.state = .outApp) (hproper : s.accessSt.pi.Proper) :
    s.access.accessWork < s.accessWork := by
  rw [Service.access, hst]
  by_cases hreads : s.accessSt.pi.reads = true
  · simp only [accessWork, hst, hproper.state_replyHeader, if_pos hreads, AccessState.weight]
    omega
  · simp only [accessWork, hst, hproper.state_replyHeader, if_neg hreads, AccessState.weight]
    omega

theorem accessWork_read (hst : s.accessSt.state = .read) (hdata : s.fifoRdData ≠ []) :
    s.access.accessWork < s.accessWork := by
  obtain ⟨data, rest, hdata⟩ := List.exists_cons_of_ne_nil hdata
  rw [Service.access, hst, hdata]
  dsimp only
  split
  · simp only [accessWork, hst, hdata, AccessState.weight, List.length_cons]
    omega
  · simp only [accessWork, hst, hdata, AccessState.weight, List.length_cons]
    omega

theorem Inv.quiet₆ {v : View} (h : Inv e out v s) (hq : Quiet₆ s) :
    v.toAccess = s.piMapToAccess ∧ v.rdData = s.fifoRdData := by
  obtain ⟨⟨⟨hmap, hfifo⟩, hcmd⟩, hbusy, hdata⟩ := hq
  obtain ⟨-, -, hmapped⟩ := h.quiet₃ hmap
  have htoAccess := h.toAccess
  have hrd := h.rdData
  rw [hmapped] at htoAccess hrd
  rw [hdata, hbusy, hcmd, hfifo] at hrd
  exact ⟨htoAccess.trans (List.append_nil _), hrd.trans (List.append_nil _)⟩

theorem moves_access (h : Bound e out s) (hq : Quiet₆ s) :
    Quiet₇ s ∨ s.Moves e out Quiet₆ accessWork := by
  obtain ⟨v, hv⟩ := h
  obtain ⟨htoAccess, hrd⟩ := hv.quiet₆ hq
  have hdemand := hv.demand
  have hok := hv.access
  rw [htoAccess, hrd, Access.demand] at hdemand
  rw [Access.Ok] at hok
  have hcall : Quiet₆ (s.step e .access) := quiet₆_access hq
  cases hst : s.accessSt.state with
  | idle =>
    by_cases hpi : s.piMapToAccess = []
    · left
      rw [hpi, hst] at hdemand
      exact ⟨hq, hpi, hst, List.eq_nil_of_length_eq_zero hdemand⟩
    · exact .inr (.once ⟨v, hv⟩ .access hcall (accessWork_idle hst hpi))
  | outApp =>
    rw [hst] at hok
    exact .inr (.once ⟨v, hv⟩ .access hcall (accessWork_outApp hst hok.1))
  | read =>
    rw [hst] at hok hdemand
    have hlt := hok.2.2
    have hne : s.fifoRdData ≠ [] := by
      apply List.ne_nil_of_length_pos
      rw [hdemand]
      exact Nat.add_pos_right _ (Nat.sub_pos_of_lt hlt)
    exact .inr (.once ⟨v, hv⟩ .access hcall (accessWork_read hst hne))

theorem moves_reply (h : Bound e out s) (hq : Quiet₇ s) :
    (Quiet₇ s ∧ s.dAccessToReply = []) ∨ s.Moves e out Quiet₇ fun s ↦ s.dAccessToReply.length := by
  cases hd : s.dAccessToReply with
  | nil => exact .inl ⟨hq, rfl⟩
  | cons d rest =>
    have hstep : s.reply
        = { s with
            dAccessToReply := rest
            toNet := s.toNet ++ [d]
            piAccessToReply := s.piAccessToReply.tail } := by
      rw [Service.reply, hd]
    refine .inr (.once h .reply ?_ ?_)
    · rw [Service.step, hstep]
      exact hq
    · simp only [Service.step, hstep, hd, List.length_cons]
      omega

/-- **Everything can be sent.** -/
theorem leads_drained (h : Bound e out s) : s.Leads e Drained := by
  have h₁ := leads_of_moves inputWork (fun s hs _ ↦ moves_input hs) h trivial
  refine h₁.trans fun s₁ hs₁ ↦ ?_
  refine (leads_of_moves allocWork (fun s hs hq ↦ moves_alloc hs hq) hs₁.1 hs₁.2).trans fun s₂ hs₂ ↦
    ?_
  refine (leads_of_moves mapWork (fun s hs hq ↦ moves_map hs hq) hs₂.1 hs₂.2).trans fun s₃ hs₃ ↦ ?_
  refine (leads_of_moves _ (fun s hs hq ↦ moves_rdCmd hs hq) hs₃.1 hs₃.2).trans fun s₄ hs₄ ↦ ?_
  refine (leads_of_moves _ (fun s hs hq ↦ moves_dramTake hs hq) hs₄.1 hs₄.2).trans fun s₅ hs₅ ↦ ?_
  refine (leads_of_moves _ (fun s hs hq ↦ moves_dramData hs hq) hs₅.1 hs₅.2).trans fun s₆ hs₆ ↦ ?_
  refine (leads_of_moves accessWork (fun s hs hq ↦ moves_access hs hq) hs₆.1 hs₆.2).trans
    fun s₇ hs₇ ↦ ?_
  refine (leads_of_moves _ (fun s hs hq ↦ moves_reply hs hq) hs₇.1 hs₇.2).trans fun s₈ hs₈ ↦ ?_
  obtain ⟨-, ⟨⟨⟨⟨hmap, hfifo⟩, hcmd⟩, hbusy, hdata⟩, hpi, hst, hrd⟩, hd⟩ := hs₈
  simp only [Quiet₃, upToMap, upToAlloc, inputs, Prod.mk.injEq] at hmap
  obtain ⟨⟨⟨h1, h2, h3⟩, h4, h5, h6, h7⟩, h8, h9, h10⟩ := hmap
  exact .now ⟨h1, h2, h3, h4, h5, h6, h7, h8, h9, h10, hpi, hfifo, hcmd, hbusy, hdata, hrd, hst, hd⟩

/-! ## The reply stream -/

theorem Service.Drained.quiet₃ (h : s.Drained) : Quiet₃ s := by
  rw [Quiet₃, upToMap, upToAlloc, inputs, h.input, h.fromNet, h.bufferToParser, h.parserSt,
    h.piParserToAlloc, h.dParserToAlloc, h.allocSt, h.piAllocToMap, h.dAllocToMap, h.mapSt]

theorem Bound.toNet_of_drained (h : Bound e out s) (hd : s.Drained) : s.toNet = out := by
  obtain ⟨v, hv⟩ := h
  obtain ⟨htoAccess, -⟩ :=
    hv.quiet₆ ⟨⟨⟨hd.quiet₃, hd.fifoRdCmd⟩, hd.dramRdCmd⟩, hd.dramBusy, hd.dramRdData⟩
  have hout := hv.output
  rw [htoAccess, hd.piMapToAccess, hd.dAccessToReply, accessFrom, hd.accessSt] at hout
  rw [← hout]
  exact (List.append_nil _).symm

end

/-- The state that a schedule leads to, when the packets are fed to the service. -/
def after (e : Env) (ps : List Packet) (as : List Action) : Service :=
  Machine.run (Service.step e) (Service.init (ps.flatMap Packet.units)) as

/-- All stages are called in turn, `n` times, and everything is answered at once. -/
def roundRobin : ℕ → List Action
  | 0 => []
  | n + 1 =>
    [.arrive, .buffering, .parser, .allocAddress, .answerAlloc, .map, .answerMap, .access, .reply,
      .dramRdPipe, .dramTake, .dramDeliver, .dramWrPipe] ++ roundRobin n

/-- **The reply stream.** Whatever the schedule, what has been sent is a beginning of the replies to
the packets, one for each and in their order, and all of them when nothing is left to be done; and
it can always come to that. -/
theorem reply_stream (e : Env) (ps : List Packet) (as : List Action) :
    (after e ps as).toNet <+: (replies e 1 .first ps).flatten
      ∧ ((after e ps as).Drained → (after e ps as).toNet = (replies e 1 .first ps).flatten)
      ∧ (after e ps as).Leads e Drained
      ∧ (replies e 1 .first ps).length = ps.length
      ∧ ∀ k p, ps[k]? = some p → ∃ o r, (outcomes e .first ps)[k]? = some o
          ∧ (replies e 1 .first ps)[k]? = some r ∧ IsReply e p (k + 1) o r := by
  obtain ⟨v, hv⟩ := (Inv.init e ps).run as
  have hbound : Bound e (replies e 1 .first ps).flatten (after e ps as) := ⟨v, hv⟩
  refine ⟨⟨_, hv.output⟩, hbound.toNet_of_drained, leads_drained hbound, length_replies _ _ _ _, ?_⟩
  intro k p hp
  obtain ⟨o, ho, hr⟩ := @getElem?_replies e ps k p hp 1 .first
  refine ⟨o, _, ho, hr, ?_⟩
  have hnr : (1 : BitVec 64) + BitVec.ofNat 64 k = BitVec.ofNat 64 (k + 1) := by
    rw [BitVec.ofNat_add, BitVec.add_comm]
    rfl
  rw [hnr]
  exact isReply e p (k + 1) o

end FpgaOs.Rdm
