import FpgaOs.Lib.Machine
import FpgaOs.Rdm.Stages

/-!
# What a state is bound to send

The stages take what they find in their streams in order, and the answers they wait for are given by
`Env`. So a state determines everything that will ever be sent, whatever the schedule: the units
that have not been parsed determine the requests that `parser` will hand on, these determine what
`alloc_address` will hand on, and so on down to the network. `Inv e out v s` says that the state `s`
is bound to send `out`, where `v` collects what will still reach each stage. A call of a stage moves
something from one of these sequences to the next one down, and leaves `out` as it is.

The invariant also says that what the stages wait for is on its way: as many ends of packets are in
the data streams as there are `WRITE`s to take them, and as many units are read from memory as
`access` will emit.
-/

namespace FpgaOs.Rdm

open BitField Mapping Service

/-! ## What a stage will hand on -/

/-- The requests and the data units that `parser` emits for units. -/
def Parser.feed : Parser → List NetAxis → List PipelineInfo × List NetAxis
  | _, [] => ([], [])
  | p, d :: ds =>
    ((p.read d).2.1.toList ++ (Parser.feed (p.read d).1 ds).1,
      (p.read d).2.2.toList ++ (Parser.feed (p.read d).1 ds).2)

/-- `parser` after it has read the units. -/
def Parser.after (p : Parser) (ds : List NetAxis) : Parser := ds.foldl (fun p d ↦ (p.read d).1) p

section Stages

variable (e : Env)

/-- What `alloc_address` hands on, from answer `n` of the allocator on. -/
def allocAll : ℕ → BitVec 64 → List PipelineInfo → List PipelineInfo
  | _, _, [] => []
  | n, va, pi :: pis =>
    if pi.opcode = opcodeAlloc then
      (pi.allocate va (e.alloc n buddyRequest)).1
        :: allocAll (n + 1) (pi.allocate va (e.alloc n buddyRequest)).2 pis
    else if pi.opcode = opcodeRead ∨ pi.opcode = opcodeWrite then pi :: allocAll n va pis
    else allocAll n va pis

def allocFrom (a : AllocAddress) (q : Query BuddyAlloc BuddyAllocRet) (pis : List PipelineInfo) :
    List PipelineInfo :=
  if a.state = .waitAlloc then
    (a.pi.allocate a.allocVa (e.alloc q.taken buddyRequest)).1
      :: allocAll e (q.taken + 1) (a.pi.allocate a.allocVa (e.alloc q.taken buddyRequest)).2 pis
  else allocAll e q.taken a.allocVa pis

/-- What `map` hands on, from answer `n` of the mapping on. -/
def mapAll : ℕ → List PipelineInfo → List PipelineInfo
  | _, [] => []
  | n, pi :: pis =>
    if pi.skipsMap then pi :: mapAll n pis
    else pi.translate (e.map n pi.mapRequest) :: mapAll (n + 1) pis

def mapFrom (m : MapStage) (q : Query MappingRequest MappingReply) (pis : List PipelineInfo) :
    List PipelineInfo :=
  if m.state = .waitMap then
    m.pi.translate (e.map q.taken m.pi.mapRequest) :: mapAll e (q.taken + 1) pis
  else mapAll e q.taken pis

/-- The request is a `READ` that has been mapped. -/
def PipelineInfo.reads (pi : PipelineInfo) : Bool :=
  pi.opcode == opcodeRead && pi.mapStatus == piMapSucceed

/-- The read commands of requests. -/
def cmdsOf (pis : List PipelineInfo) : List DmCmd :=
  (pis.filter (·.reads)).map fun pi ↦ pi.memCmd.cook

/-- The request is a `WRITE` that has been mapped. -/
def PipelineInfo.writesMapped (pi : PipelineInfo) : Bool :=
  pi.opcode == opcodeWrite && pi.mapStatus == piMapSucceed

/-- The write commands of requests. -/
def wrCmdsOf (pis : List PipelineInfo) : List MemCmd := (pis.filter (·.writesMapped)).map (·.memCmd)

/-- What `map` asks the mapping about requests. -/
def asksOf (pis : List PipelineInfo) : List MappingRequest :=
  (pis.filter (!·.skipsMap)).map (·.mapRequest)

/-- The data of read commands, the first of which is number `n`. -/
def dramUnits : ℕ → List DmCmd → List (BitVec 512)
  | _, [] => []
  | n, cmd :: cmds => dramBlock e n cmd ++ dramUnits (n + 1) cmds

end Stages

/-- The next `n` units of the data, as a reply has them. -/
def readOut : ℕ → List (BitVec 512) → List NetAxis
  | 0, _ => []
  | _ + 1, [] => []
  | n + 1, x :: xs => dataUnit x (if n = 0 then 1 else 0) :: readOut n xs

/-- What `access` emits. -/
def accessAll : List PipelineInfo → List (BitVec 512) → List NetAxis
  | [], _ => []
  | pi :: pis, data =>
    pi.ethHeader :: pi.replyHeader.1 ::
      if pi.reads then readOut pi.nrUnits.toNat data ++ accessAll pis (data.drop pi.nrUnits.toNat)
      else accessAll pis data

def accessFrom (a : Access) (pis : List PipelineInfo) (data : List (BitVec 512)) : List NetAxis :=
  match a.state with
  | .idle => accessAll pis data
  | .outApp =>
    a.pi.replyHeader.1 ::
      if a.pi.reads then
        readOut a.pi.nrUnits.toNat data ++ accessAll pis (data.drop a.pi.nrUnits.toNat)
      else accessAll pis data
  | .read =>
    readOut (a.pi.nrUnits.toNat - a.offset.toNat) data
      ++ accessAll pis (data.drop (a.pi.nrUnits.toNat - a.offset.toNat))

/-! ## What the stages wait for -/

/-- The request has one of the three opcodes, and if it is a `READ`, a length that all stages take
for the same number of units. -/
structure PipelineInfo.Proper (pi : PipelineInfo) : Prop where
  opcode_mem : pi.opcode = opcodeRead ∨ pi.opcode = opcodeWrite ∨ pi.opcode = opcodeAlloc
  pos : pi.opcode = opcodeRead → 0 < pi.nrUnits.toNat
  lt : pi.opcode = opcodeRead → pi.nrUnits.toNat < 2 ^ 31
  btt : pi.opcode = opcodeRead → (slice pi.length 0 23).toNat / 64 = pi.nrUnits.toNat

/-- The number of packets that end in the data. -/
def lasts (ds : List NetAxis) : ℕ := ds.countP (·.last = 1)

/-- The data do not stop within a packet. -/
def EndsLast (ds : List NetAxis) : Prop := ∀ d, ds.getLast? = some d → d.last = 1

/-- The number of `WRITE`s. -/
def writes (pis : List PipelineInfo) : ℕ := pis.countP (·.opcode = opcodeWrite)

/-- The number of units that `access` emits for requests. -/
def demandOf : List PipelineInfo → ℕ
  | [] => 0
  | pi :: pis => (if pi.reads then pi.nrUnits.toNat else 0) + demandOf pis

/-- `alloc_address` is within the data of a `WRITE`. -/
def AllocAddress.pending (a : AllocAddress) : ℕ := if a.state = .writeStream then 1 else 0

/-- `map` has a `WRITE` whose data are not all taken. -/
def MapStage.pending (m : MapStage) : ℕ :=
  match m.state with
  | .idle => 0
  | .waitMap => if m.pi.opcode = opcodeWrite then 1 else 0
  | .stream => 1

/-- The units that `access` has still to emit for the request it is at. -/
def Access.demand (a : Access) : ℕ :=
  match a.state with
  | .idle => 0
  | .outApp => if a.pi.reads then a.pi.nrUnits.toNat else 0
  | .read => a.pi.nrUnits.toNat - a.offset.toNat

def Access.Ok (a : Access) : Prop :=
  match a.state with
  | .idle => True
  | .outApp => a.pi.Proper ∧ a.offset = 0
  | .read => a.pi.Proper ∧ a.pi.opcode = opcodeRead ∧ a.offset.toNat < a.pi.nrUnits.toNat

/-! ## The invariant -/

/-- What will still reach each stage. -/
structure View where
  units : List NetAxis
  toAlloc : List PipelineInfo
  dataAlloc : List NetAxis
  toMap : List PipelineInfo
  dataMap : List NetAxis
  mapped : List PipelineInfo
  toAccess : List PipelineInfo
  rdData : List (BitVec 512)

/-- **The invariant.** The state is bound to send `out`. -/
structure Inv (e : Env) (out : List NetAxis) (v : View) (s : Service) : Prop where
  units : v.units = s.bufferToParser ++ (s.fromNet ++ s.input)
  framed : (s.parserSt.after v.units).state = .ethHeader
  toAlloc : v.toAlloc = s.piParserToAlloc ++ (s.parserSt.feed v.units).1
  dataAlloc : v.dataAlloc = s.dParserToAlloc ++ (s.parserSt.feed v.units).2
  allocPending : lasts v.dataAlloc = writes v.toAlloc + s.allocSt.pending
  buddy : if s.allocSt.state = .waitAlloc then s.buddy.Waiting e.alloc buddyRequest
    else s.buddy.Idle
  toMap : v.toMap = s.piAllocToMap ++ allocFrom e s.allocSt s.buddy v.toAlloc
  dataMap : v.dataMap = s.dAllocToMap ++ v.dataAlloc
  endsLast : EndsLast v.dataMap
  mapPending : lasts v.dataMap = writes v.toMap + s.mapSt.pending
  mapping : if s.mapSt.state = .waitMap then s.mapping.Waiting e.map s.mapSt.pi.mapRequest
    else s.mapping.Idle
  mapped : v.mapped = mapFrom e s.mapSt s.mapping v.toMap
  toAccess : v.toAccess = s.piMapToAccess ++ v.mapped
  rdData : v.rdData = s.fifoRdData ++ (s.dramRdData ++ (s.dramBusy
    ++ dramUnits e s.dramRead (s.dramRdCmd ++ (s.fifoRdCmd.map MemCmd.cook ++ cmdsOf v.mapped))))
  proper : ∀ pi ∈ v.toAccess, pi.Proper
  access : s.accessSt.Ok
  demand : v.rdData.length = demandOf v.toAccess + s.accessSt.demand
  output : s.toNet ++ (s.dAccessToReply ++ accessFrom s.accessSt v.toAccess v.rdData) = out

/-- A step takes what will reach the write path, and what will be asked of the mapping, a bit
further. -/
structure Carries (v : View) (s : Service) (v' : View) (s' : Service) : Prop where
  wrCmds : s'.fifoWrCmd ++ wrCmdsOf v'.mapped = s.fifoWrCmd ++ wrCmdsOf v.mapped
  wrData : s'.fifoWrData ++ v'.dataMap.map NetAxis.data = s.fifoWrData ++ v.dataMap.map NetAxis.data
  asks : s'.mapping.reqs.drop s.mapping.reqs.length ++ asksOf v'.toMap = asksOf v.toMap

theorem Carries.of_eq {v v' : View} {s s' : Service} (hmapped : v'.mapped = v.mapped)
    (hdata : v'.dataMap = v.dataMap)
    (htoMap : v'.toMap = v.toMap) (hcmd : s'.fifoWrCmd = s.fifoWrCmd)
    (hwr : s'.fifoWrData = s.fifoWrData)
    (hreqs : s'.mapping.reqs = s.mapping.reqs) : Carries v s v' s' where
  wrCmds := by rw [hmapped, hcmd]
  wrData := by rw [hdata, hwr]
  asks := by rw [htoMap, hreqs, List.drop_length]; rfl

theorem Carries.refl (v : View) (s : Service) : Carries v s v s := .of_eq rfl rfl rfl rfl rfl rfl

/-- Which of the units that `access` emits have data of the data mover. -/
def shapeAll : List PipelineInfo → List Bool
  | [] => []
  | pi :: pis =>
    false :: false ::
      ((if pi.reads then List.replicate pi.nrUnits.toNat true else []) ++ shapeAll pis)

def shapeFrom (a : Access) (pis : List PipelineInfo) : List Bool :=
  match a.state with
  | .idle => shapeAll pis
  | .outApp =>
    false :: ((if a.pi.reads then List.replicate a.pi.nrUnits.toNat true else []) ++ shapeAll pis)
  | .read => List.replicate (a.pi.nrUnits.toNat - a.offset.toNat) true ++ shapeAll pis

/-- The number of units that `access` has emitted. -/
def Service.emitted (s : Service) : ℕ := s.toNet.length + s.dAccessToReply.length

/-- A step takes the read commands a bit further, and emits some of what is to be emitted. -/
structure Reads (v : View) (s : Service) (v' : View) (s' : Service) : Prop where
  rdCmds : s'.dramRdCmd ++ (s'.fifoRdCmd.map MemCmd.cook ++ cmdsOf v'.mapped)
    = s.dramRdCmd ++ (s.fifoRdCmd.map MemCmd.cook ++ cmdsOf v.mapped)
  shape : ∃ bs, shapeFrom s.accessSt v.toAccess = bs ++ shapeFrom s'.accessSt v'.toAccess
    ∧ s'.emitted = s.emitted + bs.length

theorem Reads.of_eq {v v' : View} {s s' : Service} (hmapped : v'.mapped = v.mapped)
    (htoAccess : v'.toAccess = v.toAccess) (hcmd : s'.dramRdCmd = s.dramRdCmd)
    (hfifo : s'.fifoRdCmd = s.fifoRdCmd)
    (haccess : s'.accessSt = s.accessSt) (hemitted : s'.emitted = s.emitted) : Reads v s v' s' where
  rdCmds := by rw [hmapped, hcmd, hfifo]
  shape := ⟨[], by rw [htoAccess, haccess]; rfl, hemitted⟩

theorem Reads.refl (v : View) (s : Service) : Reads v s v s := .of_eq rfl rfl rfl rfl rfl rfl

/-! ## The steps -/

section Steps

variable {e : Env} {out : List NetAxis} {v : View} {s : Service}

theorem Inv.arrive (h : Inv e out v s) : Inv e out v s.arrive := by
  rw [Service.arrive]
  split
  · next d rest hd =>
    refine { h with units := ?_ }
    rw [h.units, hd, List.append_assoc]
    rfl
  · exact h

theorem Inv.buffering (h : Inv e out v s) : Inv e out v s.buffering := by
  rw [Service.buffering]
  split
  · next d rest hd =>
    refine { h with units := ?_ }
    rw [h.units, hd, List.append_assoc]
    rfl
  · exact h

theorem Inv.parser (h : Inv e out v s) :
    ∃ v', Inv e out v' s.parser ∧ Carries v s v' s.parser ∧ Reads v s v' s.parser := by
  rw [Service.parser]
  split
  · next d rest hd =>
    have hunits := h.units
    rw [hd, List.cons_append] at hunits
    have hframed := h.framed
    have htoAlloc := h.toAlloc
    have hdataAlloc := h.dataAlloc
    rw [hunits] at hframed htoAlloc hdataAlloc
    refine ⟨{ v with units := rest ++ (s.fromNet ++ s.input) }, { h with
      units := rfl
      framed := hframed
      toAlloc := ?_
      dataAlloc := ?_ }, .of_eq rfl rfl rfl rfl rfl rfl, .of_eq rfl rfl rfl rfl rfl rfl⟩
    · rw [htoAlloc, List.append_assoc]
      rfl
    · rw [hdataAlloc, List.append_assoc]
      rfl
  · exact ⟨v, h, .refl v s, .refl v s⟩

/-! ### `alloc_address` -/

theorem lasts_cons (d : NetAxis) (ds : List NetAxis) :
    lasts (d :: ds) = lasts ds + if d.last = 1 then 1 else 0 := by
  rw [lasts, List.countP_cons]
  simp only [decide_eq_true_eq]
  rfl

theorem writes_cons (pi : PipelineInfo) (pis : List PipelineInfo) :
    writes (pi :: pis) = writes pis + if pi.opcode = opcodeWrite then 1 else 0 := by
  rw [writes, List.countP_cons]
  simp only [decide_eq_true_eq]
  rfl

theorem Inv.allocAddress_idle (h : Inv e out v s) (hst : s.allocSt.state = .idle) :
    ∃ v', Inv e out v' s.allocAddress ∧ Carries v s v' s.allocAddress
      ∧ Reads v s v' s.allocAddress := by
  have hbuddy := h.buddy
  have hpending := h.allocPending
  have htoMap := h.toMap
  rw [allocFrom] at htoMap
  rw [AllocAddress.pending] at hpending
  rw [Service.allocAddress, hst]
  dsimp only
  rw [hst, if_neg (by decide)] at hbuddy htoMap hpending
  split
  · next pi rest hpi =>
    have htoAlloc := h.toAlloc
    rw [hpi, List.cons_append] at htoAlloc
    -- the future is unfolded by one packet; the step then does the same
    rw [htoAlloc, allocAll] at htoMap
    rw [htoAlloc, writes_cons] at hpending
    split
    · next hop =>
      rw [if_pos hop] at htoMap
      rw [hop, if_neg (by decide)] at hpending
      refine ⟨{ v with toAlloc := rest ++ (s.parserSt.feed v.units).1 }, { h with
        toAlloc := rfl
        allocPending := hpending
        buddy := hbuddy.ask _
        toMap := ?_ }, .of_eq rfl rfl rfl rfl rfl rfl, .of_eq rfl rfl rfl rfl rfl rfl⟩
      rw [allocFrom, if_pos rfl]
      exact htoMap
    next hop =>
    rw [if_neg hop] at htoMap
    split
    · next hrd =>
      rw [if_pos (.inl hrd)] at htoMap
      rw [hrd, if_neg (by decide)] at hpending
      refine ⟨{ v with toAlloc := rest ++ (s.parserSt.feed v.units).1 }, { h with
        toAlloc := rfl
        allocPending := ?_
        buddy := ?_
        toMap := ?_ }, .of_eq rfl rfl rfl rfl rfl rfl, .of_eq rfl rfl rfl rfl rfl rfl⟩
      · rw [AllocAddress.pending, hst]
        exact hpending
      · rw [hst]
        exact hbuddy
      · rw [allocFrom, hst, if_neg (by decide), List.append_assoc]
        exact htoMap
    next hrd =>
    split
    · next hwr =>
      rw [if_pos (.inr hwr)] at htoMap
      rw [if_pos hwr] at hpending
      refine ⟨{ v with toAlloc := rest ++ (s.parserSt.feed v.units).1 }, { h with
        toAlloc := rfl
        allocPending := hpending
        buddy := hbuddy
        toMap := ?_ }, .of_eq rfl rfl rfl rfl rfl rfl, .of_eq rfl rfl rfl rfl rfl rfl⟩
      rw [allocFrom, if_neg (by simp), List.append_assoc]
      exact htoMap
    · next hwr =>
      rw [if_neg (not_or.mpr ⟨hrd, hwr⟩)] at htoMap
      rw [if_neg hwr] at hpending
      refine ⟨{ v with toAlloc := rest ++ (s.parserSt.feed v.units).1 }, { h with
        toAlloc := rfl
        allocPending := ?_
        buddy := ?_
        toMap := ?_ }, .of_eq rfl rfl rfl rfl rfl rfl, .of_eq rfl rfl rfl rfl rfl rfl⟩
      · rw [AllocAddress.pending, hst]
        exact hpending
      · rw [hst]
        exact hbuddy
      · rw [allocFrom, hst, if_neg (by decide)]
        exact htoMap
  · exact ⟨v, h, .refl v s, .refl v s⟩

theorem Inv.allocAddress_writeStream (h : Inv e out v s) (hst : s.allocSt.state = .writeStream) :
    ∃ v', Inv e out v' s.allocAddress ∧ Carries v s v' s.allocAddress
      ∧ Reads v s v' s.allocAddress := by
  have hbuddy := h.buddy
  have hpending := h.allocPending
  have htoMap := h.toMap
  rw [allocFrom] at htoMap
  rw [AllocAddress.pending] at hpending
  rw [Service.allocAddress, hst]
  dsimp only
  rw [hst, if_neg (by decide)] at hbuddy htoMap
  rw [hst, if_pos rfl] at hpending
  split
  · next d rest hd =>
    have hdata := h.dataAlloc
    have hdataMap := h.dataMap
    rw [hd, List.cons_append] at hdata
    rw [hdata] at hdataMap
    rw [hdata, lasts_cons] at hpending
    have hne : (if d.last = 1 then AllocState.idle else .writeStream) ≠ .waitAlloc := by
      split <;> decide
    refine ⟨{ v with dataAlloc := rest ++ (s.parserSt.feed v.units).2 }, { h with
      dataAlloc := rfl
      allocPending := ?_
      buddy := ?_
      toMap := ?_
      dataMap := ?_ }, .of_eq rfl rfl rfl rfl rfl rfl, .of_eq rfl rfl rfl rfl rfl rfl⟩
    · rw [AllocAddress.pending]
      -- one end mark is taken for each write that is under way
      by_cases hlast : d.last = 1
      · rw [if_pos hlast] at hpending
        simp only [if_pos hlast]
        exact Nat.succ.inj hpending
      · rw [if_neg hlast] at hpending
        simp only [if_neg hlast]
        exact hpending
    · rw [if_neg hne]
      exact hbuddy
    · rw [allocFrom, if_neg hne]
      exact htoMap
    · rw [hdataMap, List.append_assoc]
      rfl
  · exact ⟨v, h, .refl v s, .refl v s⟩

theorem Inv.allocAddress_waitAlloc (h : Inv e out v s) (hst : s.allocSt.state = .waitAlloc) :
    ∃ v', Inv e out v' s.allocAddress ∧ Carries v s v' s.allocAddress
      ∧ Reads v s v' s.allocAddress := by
  have hbuddy := h.buddy
  have hpending := h.allocPending
  have htoMap := h.toMap
  rw [allocFrom] at htoMap
  rw [AllocAddress.pending] at hpending
  rw [Service.allocAddress, hst]
  dsimp only
  rw [hst, if_pos rfl] at hbuddy htoMap
  rw [hst, if_neg (by decide)] at hpending
  split
  · next ret rest hret =>
    obtain ⟨rfl, hidle, htaken⟩ := hbuddy.read hret
    refine ⟨v, { h with
      allocPending := hpending
      buddy := hidle
      toMap := ?_ }, .of_eq rfl rfl rfl rfl rfl rfl, .of_eq rfl rfl rfl rfl rfl rfl⟩
    rw [allocFrom, if_neg (by simp), htaken, List.append_assoc]
    exact htoMap
  · exact ⟨v, h, .refl v s, .refl v s⟩

theorem Inv.allocAddress (h : Inv e out v s) :
    ∃ v', Inv e out v' s.allocAddress ∧ Carries v s v' s.allocAddress
      ∧ Reads v s v' s.allocAddress := by
  cases hst : s.allocSt.state with
  | idle => exact h.allocAddress_idle hst
  | writeStream => exact h.allocAddress_writeStream hst
  | waitAlloc => exact h.allocAddress_waitAlloc hst

/-! ### `map` -/

theorem cmdsOf_cons (pi : PipelineInfo) (pis : List PipelineInfo) :
    cmdsOf (pi :: pis) = (if pi.reads then [pi.memCmd.cook] else []) ++ cmdsOf pis := by
  rw [cmdsOf, List.filter_cons]
  split
  · rfl
  · rfl

theorem not_reads_of_skipsMap {pi : PipelineInfo} (h : pi.skipsMap = true) : pi.reads = false := by
  rw [PipelineInfo.skipsMap, Bool.and_eq_true, beq_iff_eq] at h
  rw [PipelineInfo.reads, h.1]
  rfl

theorem wrCmdsOf_cons (pi : PipelineInfo) (pis : List PipelineInfo) :
    wrCmdsOf (pi :: pis) = (if pi.writesMapped then [pi.memCmd] else []) ++ wrCmdsOf pis := by
  rw [wrCmdsOf, List.filter_cons]
  split
  · rfl
  · rfl

theorem asksOf_cons (pi : PipelineInfo) (pis : List PipelineInfo) :
    asksOf (pi :: pis) = (if pi.skipsMap then [] else [pi.mapRequest]) ++ asksOf pis := by
  rw [asksOf, List.filter_cons]
  cases pi.skipsMap with
  | true => rfl
  | false => rfl

theorem not_writesMapped_of_skipsMap {pi : PipelineInfo} (h : pi.skipsMap = true) :
    pi.writesMapped = false := by
  rw [PipelineInfo.skipsMap, Bool.and_eq_true, beq_iff_eq] at h
  rw [PipelineInfo.writesMapped, h.1]
  rfl

theorem opcode_ne_write_of_skipsMap {pi : PipelineInfo} (h : pi.skipsMap = true) :
    pi.opcode ≠ opcodeWrite := by
  rw [PipelineInfo.skipsMap, Bool.and_eq_true, beq_iff_eq] at h
  rw [h.1]
  decide

theorem reads_translate (pi : PipelineInfo) (ret : MappingReply) :
    (pi.translate ret).reads = true ↔ ret.status = 0 ∧ (pi.translate ret).opcode = opcodeRead := by
  rw [PipelineInfo.reads, Bool.and_eq_true, beq_iff_eq, beq_iff_eq, and_comm]
  apply and_congr_left'
  rw [PipelineInfo.translate]
  split
  · next h => exact iff_of_true rfl h
  · next h => exact iff_of_false (by decide : piMapFail ≠ piMapSucceed) h

theorem opcode_translate (pi : PipelineInfo) (ret : MappingReply) :
    (pi.translate ret).opcode = pi.opcode := by
  rw [PipelineInfo.translate]
  split <;> rfl

theorem writesMapped_translate (pi : PipelineInfo) (ret : MappingReply) :
    (pi.translate ret).writesMapped = true ↔ ret.status = 0 ∧ (pi.translate ret).opcode
      = opcodeWrite := by
  rw [PipelineInfo.writesMapped, Bool.and_eq_true, beq_iff_eq, beq_iff_eq, and_comm]
  apply and_congr_left'
  rw [PipelineInfo.translate]
  split
  · next h => exact iff_of_true rfl h
  · next h => exact iff_of_false (by decide : piMapFail ≠ piMapSucceed) h

theorem EndsLast.tail {d : NetAxis} {ds : List NetAxis} (h : EndsLast (d :: ds)) : EndsLast ds := by
  intro d' hd'
  apply h
  rw [List.getLast?_cons, hd']
  rfl

theorem Inv.map_idle (h : Inv e out v s) (hst : s.mapSt.state = .idle) :
    ∃ v', Inv e out v' s.map ∧ Carries v s v' s.map ∧ Reads v s v' s.map := by
  have hmapping := h.mapping
  have hpending := h.mapPending
  have hmapped := h.mapped
  rw [mapFrom] at hmapped
  rw [MapStage.pending] at hpending
  rw [Service.map, hst]
  dsimp only
  rw [hst, if_neg (by decide)] at hmapping hmapped
  rw [hst] at hpending
  split
  · next pi rest hpi =>
    have htoMap := h.toMap
    rw [hpi, List.cons_append] at htoMap
    -- as for the allocator: one packet of the future is unfolded
    rw [htoMap, mapAll] at hmapped
    rw [htoMap, writes_cons] at hpending
    split
    · next hskip =>
      rw [if_pos hskip] at hmapped
      rw [if_neg (opcode_ne_write_of_skipsMap hskip)] at hpending
      refine ⟨{ v with
        toMap := rest ++ allocFrom e s.allocSt s.buddy v.toAlloc
        mapped := mapAll e s.mapping.taken (rest ++ allocFrom e s.allocSt s.buddy v.toAlloc) },
          { h with
          toMap := rfl
          mapPending := ?_
          mapping := ?_
          mapped := ?_
          toAccess := ?_
          rdData := ?_ }, ⟨?_, rfl, ?_⟩, ⟨?_, [], rfl, rfl⟩⟩
      · rw [MapStage.pending, hst]
        exact hpending
      · rw [hst, if_neg (by decide)]
        exact hmapping
      · rw [mapFrom, hst, if_neg (by decide)]
      · rw [h.toAccess, hmapped, List.append_assoc]
        rfl
      · rw [h.rdData, hmapped, cmdsOf_cons, not_reads_of_skipsMap hskip]
        rfl
      · rw [hmapped, wrCmdsOf_cons, not_writesMapped_of_skipsMap hskip]
        rfl
      · rw [htoMap, asksOf_cons, if_pos hskip, List.drop_length]
      · rw [hmapped, cmdsOf_cons, not_reads_of_skipsMap hskip]
        rfl
    · next hskip =>
      rw [if_neg hskip] at hmapped
      refine ⟨{ v with toMap := rest ++ allocFrom e s.allocSt s.buddy v.toAlloc }, { h with
          toMap := rfl
          mapPending := hpending
          mapping := hmapping.ask _
          mapped := ?_ }, ⟨rfl, rfl, ?_⟩, .of_eq rfl rfl rfl rfl rfl rfl⟩
      · rw [mapFrom, if_pos rfl]
        exact hmapped
      · rw [htoMap, asksOf_cons, if_neg hskip, Query.ask]
        dsimp only
        rw [List.drop_left]
  · exact ⟨v, h, .refl v s, .refl v s⟩

theorem Inv.map_waitMap (h : Inv e out v s) (hst : s.mapSt.state = .waitMap) :
    ∃ v', Inv e out v' s.map ∧ Carries v s v' s.map ∧ Reads v s v' s.map := by
  have hmapping := h.mapping
  have hpending := h.mapPending
  have hmapped := h.mapped
  rw [mapFrom] at hmapped
  rw [MapStage.pending] at hpending
  rw [Service.map, hst]
  dsimp only
  rw [hst, if_pos rfl] at hmapping hmapped
  rw [hst] at hpending
  split
  · next ret rest hret =>
    obtain ⟨hans, hidle, htaken⟩ := hmapping.read hret
    rw [← hans] at hmapped
    have hne : (if (s.mapSt.pi.translate ret).opcode = opcodeWrite then
      MapState.stream else .idle)
        ≠ .waitMap := by split <;> decide
    -- the read command is sent now exactly if the future had it
    have hrd : (s.fifoRdCmd ++ if ret.status = 0 ∧ (s.mapSt.pi.translate ret).opcode
      = opcodeRead then
          [(s.mapSt.pi.translate ret).memCmd]
            else []).map MemCmd.cook ++ cmdsOf (mapAll e (s.mapping.taken + 1) v.toMap)
        = s.fifoRdCmd.map MemCmd.cook ++ cmdsOf v.mapped := by
      rw [hmapped, cmdsOf_cons, List.map_append, List.append_assoc]
      congr 2
      by_cases hreads : (s.mapSt.pi.translate ret).reads = true
      · rw [if_pos hreads, if_pos ((reads_translate _ _).mp hreads)]
        rfl
      · rw [if_neg hreads, if_neg (mt (reads_translate _ _).mpr hreads)]
        rfl
    refine ⟨{ v with mapped := mapAll e (s.mapping.taken + 1) v.toMap }, { h with
      mapPending := ?_
      mapping := ?_
      mapped := ?_
      toAccess := ?_
      rdData := ?_ }, ⟨?_, rfl, ?_⟩, ⟨?_, [], rfl, rfl⟩⟩
    · rw [MapStage.pending]
      simp only [opcode_translate]
      by_cases hwr : s.mapSt.pi.opcode = opcodeWrite
      · simp only [if_pos hwr] at hpending ⊢
        exact hpending
      · simp only [if_neg hwr] at hpending ⊢
        exact hpending
    · rw [if_neg hne]
      exact hidle
    · rw [mapFrom, if_neg hne, htaken]
    · rw [h.toAccess, hmapped, List.append_assoc]
      rfl
    · rw [h.rdData, ← hrd]
    · rw [hmapped, wrCmdsOf_cons, List.append_assoc]
      congr 2
      by_cases hwr : (s.mapSt.pi.translate ret).writesMapped = true
      · rw [if_pos hwr, if_pos ((writesMapped_translate _ _).mp hwr)]
      · rw [if_neg hwr, if_neg (mt (writesMapped_translate _ _).mpr hwr)]
    · rw [List.drop_length]
      rfl
    · exact congrArg (s.dramRdCmd ++ ·) hrd
  · exact ⟨v, h, .refl v s, .refl v s⟩

theorem Inv.map_stream (h : Inv e out v s) (hst : s.mapSt.state = .stream) :
    ∃ v', Inv e out v' s.map ∧ Carries v s v' s.map ∧ Reads v s v' s.map := by
  have hmapping := h.mapping
  have hpending := h.mapPending
  have hmapped := h.mapped
  rw [mapFrom] at hmapped
  rw [MapStage.pending] at hpending
  rw [Service.map, hst]
  dsimp only
  rw [hst, if_neg (by decide)] at hmapping hmapped
  rw [hst] at hpending
  split
  · next d rest hd =>
    have hdata := h.dataMap
    have hends := h.endsLast
    rw [hd, List.cons_append] at hdata
    rw [hdata] at hends
    rw [hdata, lasts_cons] at hpending
    have hne : (if d.last = 1 then MapState.idle else .stream) ≠ .waitMap := by split <;> decide
    refine ⟨{ v with dataMap := rest ++ v.dataAlloc }, { h with
      dataMap := rfl
      endsLast := hends.tail
      mapPending := ?_
      mapping := ?_
      mapped := ?_ }, ⟨rfl, ?_, ?_⟩, .of_eq rfl rfl rfl rfl rfl rfl⟩
    · rw [MapStage.pending]
      by_cases hlast : d.last = 1
      · rw [if_pos hlast] at hpending
        simp only [if_pos hlast]
        exact Nat.succ.inj hpending
      · rw [if_neg hlast] at hpending
        simp only [if_neg hlast]
        exact hpending
    · rw [if_neg hne]
      exact hmapping
    · rw [mapFrom, if_neg hne]
      exact hmapped
    · rw [hdata, List.append_assoc]
      rfl
    · rw [List.drop_length]
      rfl
  · exact ⟨v, h, .refl v s, .refl v s⟩

theorem Inv.map (h : Inv e out v s) :
    ∃ v', Inv e out v' s.map ∧ Carries v s v' s.map ∧ Reads v s v' s.map := by
  cases hst : s.mapSt.state with
  | idle => exact h.map_idle hst
  | waitMap => exact h.map_waitMap hst
  | stream => exact h.map_stream hst

/-! ### `access` and `reply` -/

theorem opcode_of_reads {pi : PipelineInfo} (h : pi.reads = true) : pi.opcode = opcodeRead := by
  rw [PipelineInfo.reads, Bool.and_eq_true, beq_iff_eq] at h
  exact h.1

theorem PipelineInfo.Proper.state_replyHeader {pi : PipelineInfo} (h : pi.Proper) :
    pi.replyHeader.2 = if pi.reads then .read else .idle := by
  rw [PipelineInfo.replyHeader, PipelineInfo.reads]
  obtain hop | hop | hop := h.opcode_mem
  · rw [hop]
    by_cases hmap : pi.mapStatus = piMapSucceed
    · rw [hmap]
      rfl
    · have hmap' : (pi.mapStatus == piMapSucceed) = false := beq_false_of_ne hmap
      rw [if_neg (by decide), if_pos rfl, if_neg hmap, hmap']
      rfl
  · rw [hop]
    rfl
  · rw [hop]
    by_cases hal : pi.allocStatus = piAllocSucceed
    · rw [if_pos rfl, if_pos hal]
      rfl
    · rw [if_pos rfl, if_neg hal]
      rfl

/-- `access` counts with an `int`. -/
theorem signExtend_succ_eq_iff {o : BitVec 32} {n : BitVec 64} (ho : o.toNat < n.toNat)
    (hn : n.toNat < 2 ^ 31) :
    (o + 1).signExtend 64 = n ↔ o.toNat + 1 = n.toNat := by
  have hone : (1 : BitVec 32).toNat = 1 := rfl
  have hsucc : (o + 1).toNat = o.toNat + 1 := by
    rw [BitVec.toNat_add, hone]
    omega
  have hmsb : (o + 1).msb = false := by
    rw [BitVec.msb_eq_false_iff_two_mul_lt, hsucc]
    omega
  rw [BitVec.signExtend_eq_setWidth_of_msb_false hmsb, ← BitVec.toNat_inj, BitVec.toNat_setWidth,
    hsucc, Nat.mod_eq_of_lt (by omega)]

theorem emitted_append (s : Service) (d : NetAxis) :
    s.toNet.length + (s.dAccessToReply ++ [d]).length = s.emitted + 1 := by
  rw [List.length_append, Service.emitted]
  rfl

theorem Inv.access_step_idle (h : Inv e out v s) (hst : s.accessSt.state = .idle) :
    ∃ v', Inv e out v' s.access ∧ Carries v s v' s.access ∧ Reads v s v' s.access := by
  have hok := h.access
  have hdemand := h.demand
  have hout := h.output
  rw [Access.Ok] at hok
  rw [Access.demand] at hdemand
  rw [accessFrom] at hout
  rw [Service.access, hst]
  dsimp only
  rw [hst] at hok hdemand hout
  split
  · next pi rest hpi =>
    have htoAccess := h.toAccess
    have hproper := h.proper
    rw [hpi, List.cons_append] at htoAccess
    rw [htoAccess] at hproper hdemand hout
    rw [demandOf] at hdemand
    refine ⟨{ v with toAccess := rest ++ v.mapped }, { h with
      toAccess := rfl
      proper := fun pi' hpi' ↦ hproper pi' (List.mem_cons_of_mem _ hpi')
      access := ⟨hproper pi List.mem_cons_self, rfl⟩
      demand := ?_
      output := ?_ }, .of_eq rfl rfl rfl rfl rfl rfl, ⟨rfl, [false], ?_, emitted_append s _⟩⟩
    · have hsum : v.rdData.length = (if pi.reads then pi.nrUnits.toNat else 0)
        + demandOf (rest ++ v.mapped) :=
        hdemand
      exact hsum.trans (Nat.add_comm _ _)
    · rw [← hout, accessFrom, List.append_assoc]
      rfl
    · rw [shapeFrom, hst, htoAccess]
      rfl
  · exact ⟨v, h, .refl v s, .refl v s⟩

theorem Inv.access_step_outApp (h : Inv e out v s) (hst : s.accessSt.state = .outApp) :
    ∃ v', Inv e out v' s.access ∧ Carries v s v' s.access ∧ Reads v s v' s.access := by
  have hok := h.access
  have hdemand := h.demand
  have hout := h.output
  rw [Access.Ok] at hok
  rw [Access.demand] at hdemand
  rw [accessFrom] at hout
  rw [Service.access, hst]
  dsimp only
  rw [hst] at hok hdemand hout
  obtain ⟨hproper, hoff⟩ := hok
  have hproper' :
    ({ s.accessSt.pi with appHeader := s.accessSt.pi.replyHeader.1 } : PipelineInfo).Proper :=
    ⟨hproper.opcode_mem, hproper.pos, hproper.lt, hproper.btt⟩
  have hzero : s.accessSt.offset.toNat = 0 := by rw [hoff]; rfl
  -- with a failed or an empty read there is nothing to wait for
  by_cases hreads : s.accessSt.pi.reads = true
  · have hop := opcode_of_reads hreads
    simp only [hproper.state_replyHeader, if_pos hreads] at hdemand hout ⊢
    refine ⟨v, { h with
      access := ⟨hproper', hop, hzero.symm ▸ hproper.pos hop⟩
      demand := ?_
      output := ?_ }, .of_eq rfl rfl rfl rfl rfl rfl, ⟨rfl, [false], ?_, emitted_append s _⟩⟩
    · rw [hdemand, Access.demand]
      simp only [hzero]
      rfl
    · rw [← hout, accessFrom, List.append_assoc]
      simp only [hzero]
      rfl
    · rw [shapeFrom, hst]
      dsimp only
      rw [if_pos hreads, shapeFrom]
      simp only [hzero]
      rfl
  · simp only [hproper.state_replyHeader, if_neg hreads] at hdemand hout ⊢
    refine ⟨v, { h with
      access := trivial
      demand := hdemand
      output := ?_ }, .of_eq rfl rfl rfl rfl rfl rfl, ⟨rfl, [false], ?_, emitted_append s _⟩⟩
    · rw [← hout, accessFrom, List.append_assoc]
      rfl
    · rw [shapeFrom, hst]
      dsimp only
      rw [if_neg hreads]
      rfl

theorem Inv.access_step_read (h : Inv e out v s) (hst : s.accessSt.state = .read) :
    ∃ v', Inv e out v' s.access ∧ Carries v s v' s.access ∧ Reads v s v' s.access := by
  have hok := h.access
  have hdemand := h.demand
  have hout := h.output
  rw [Access.Ok] at hok
  rw [Access.demand] at hdemand
  rw [accessFrom] at hout
  rw [Service.access, hst]
  dsimp only
  rw [hst] at hok hdemand hout
  split
  · next data rest hdata =>
    obtain ⟨hproper, hop, hlt⟩ := hok
    have hbound := hproper.lt hop
    -- `m` units are left after this one
    obtain ⟨m, hm⟩ := Nat.exists_eq_add_of_lt hlt
    have hrd := h.rdData
    rw [hdata, List.cons_append] at hrd
    have hleft : s.accessSt.pi.nrUnits.toNat - s.accessSt.offset.toNat = m + 1 := by omega
    have hone : (1 : BitVec 32).toNat = 1 := rfl
    have hsucc : (s.accessSt.offset + 1).toNat = s.accessSt.offset.toNat + 1 := by
      rw [BitVec.toNat_add, hone]
      omega
    have hleft' : s.accessSt.pi.nrUnits.toNat - (s.accessSt.offset + 1).toNat = m := by omega
    have hcons : v.rdData = data :: v.rdData.tail := by rw [hrd]; rfl
    have htail : v.rdData.tail = rest ++ (s.dramRdData ++ (s.dramBusy ++ dramUnits e s.dramRead
        (s.dramRdCmd ++ (s.fifoRdCmd.map MemCmd.cook ++ cmdsOf v.mapped)))) := by rw [hrd]; rfl
    simp only [hleft] at hdemand hout
    rw [hcons] at hdemand hout
    rw [readOut, List.drop_succ_cons] at hout
    rw [List.length_cons] at hdemand
    have hiff := signExtend_succ_eq_iff hlt hbound
    -- the comparison with the sign-extended count is right below the bound on the length
    by_cases hend : m = 0
    · subst hend
      rw [if_pos (hiff.mpr (by omega))]
      refine ⟨{ v with rdData := v.rdData.tail }, { h with
        rdData := htail
        access := trivial
        demand := Nat.succ.inj hdemand
        output := ?_ }, .of_eq rfl rfl rfl rfl rfl rfl, ⟨rfl, [true], ?_, emitted_append s _⟩⟩
      · rw [← hout, accessFrom, List.append_assoc]
        rfl
      · rw [shapeFrom, hst]
        dsimp only
        rw [hleft]
        rfl
    · rw [if_neg (mt hiff.mp (by omega))]
      refine ⟨{ v with rdData := v.rdData.tail }, { h with
        rdData := htail
        access := ?_
        demand := ?_
        output := ?_ }, .of_eq rfl rfl rfl rfl rfl rfl, ⟨rfl, [true], ?_, emitted_append s _⟩⟩
      · have hlt' : (s.accessSt.offset + 1).toNat < s.accessSt.pi.nrUnits.toNat := by omega
        rw [Access.Ok, hst]
        exact ⟨hproper, hop, hlt'⟩
      · rw [Access.demand, hst]
        simp only [hleft']
        omega
      · rw [← hout, accessFrom, hst, List.append_assoc, if_neg hend]
        simp only [hleft']
        rfl
      · rw [shapeFrom, shapeFrom, hst]
        simp only [hleft, hleft']
        rfl
  · exact ⟨v, h, .refl v s, .refl v s⟩

theorem Inv.access_step (h : Inv e out v s) :
    ∃ v', Inv e out v' s.access ∧ Carries v s v' s.access ∧ Reads v s v' s.access := by
  cases hst : s.accessSt.state with
  | idle => exact h.access_step_idle hst
  | outApp => exact h.access_step_outApp hst
  | read => exact h.access_step_read hst

theorem Inv.reply (h : Inv e out v s) : Inv e out v s.reply := by
  rw [Service.reply]
  split
  · next d rest hd =>
    have hout := h.output
    rw [hd] at hout
    refine { h with output := ?_ }
    rw [← hout, List.append_assoc]
    rfl
  · exact { h with }

/-! ### The read path of the data mover -/

theorem Inv.rdPipeCmd (h : Inv e out v s) : Inv e out v s.rdPipeCmd := by
  rw [Service.rdPipeCmd]
  split
  · next cmd rest hcmd =>
    refine { h with rdData := ?_ }
    rw [h.rdData, hcmd, List.append_assoc]
    rfl
  · exact h

theorem Inv.rdPipeData (h : Inv e out v s) : Inv e out v s.rdPipeData := by
  rw [Service.rdPipeData]
  split
  · next data rest hdata =>
    refine { h with rdData := ?_ }
    rw [h.rdData, hdata, List.append_assoc]
    rfl
  · exact h

theorem Inv.dramRdPipe (h : Inv e out v s) : Inv e out v s.dramRdPipe :=
  { h.rdPipeCmd.rdPipeData with }

theorem Inv.dramTake (h : Inv e out v s) : Inv e out v (s.dramTake e) := by
  rw [Service.dramTake]
  split
  · next cmd rest hcmd =>
    refine { h with rdData := ?_ }
    rw [h.rdData, hcmd, List.cons_append, dramUnits, List.append_assoc]
  · exact h

theorem Inv.dramDeliver (h : Inv e out v s) : Inv e out v s.dramDeliver := by
  rw [Service.dramDeliver]
  split
  · next data rest hdata =>
    refine { h with rdData := ?_ }
    rw [h.rdData, hdata, List.append_assoc]
    rfl
  · exact h

theorem Inv.dramWrPipe (h : Inv e out v s) : Inv e out v s.dramWrPipe := by
  rw [Service.dramWrPipe]
  split
  · split
    · exact { h with }
    · exact { h with }
  · split
    · exact { h with }
    · exact h

/-! ### The allocator and the mapping -/

theorem Inv.answerAlloc (h : Inv e out v s) :
    Inv e out v { s with buddy := s.buddy.answer e.alloc } := by
  have hbuddy := h.buddy
  have htoMap := h.toMap
  by_cases hst : s.allocSt.state = .waitAlloc
  · rw [if_pos hst] at hbuddy
    obtain ⟨hwait, htaken⟩ := hbuddy.answer
    refine { h with buddy := ?_, toMap := ?_ }
    · rw [if_pos hst]
      exact hwait
    · rw [allocFrom, htaken]
      exact htoMap
  · rw [if_neg hst] at hbuddy
    rw [hbuddy.answer]
    exact h

theorem Inv.answerMap (h : Inv e out v s) :
    Inv e out v { s with mapping := s.mapping.answer e.map } := by
  have hmapping := h.mapping
  have hmapped := h.mapped
  by_cases hst : s.mapSt.state = .waitMap
  · rw [if_pos hst] at hmapping
    obtain ⟨hwait, htaken⟩ := hmapping.answer
    refine { h with mapping := ?_, mapped := ?_ }
    · rw [if_pos hst]
      exact hwait
    · rw [mapFrom, htaken]
      exact hmapped
  · rw [if_neg hst] at hmapping
    rw [hmapping.answer]
    exact h

/-! ### All steps -/

/-- What the steps above `map` and below it have no part in. -/
def Service.writePath (s : Service) :
    List MemCmd × List (BitVec 512) × Query MappingRequest MappingReply :=
  (s.fifoWrCmd, s.fifoWrData, s.mapping)

/-- What only `map`, `access` and the read path have a part in. -/
def Service.readPath (s : Service) : List DmCmd × List MemCmd × Access × ℕ :=
  (s.dramRdCmd, s.fifoRdCmd, s.accessSt, s.emitted)

theorem Carries.of_writePath {v v' : View} {s s' : Service} (h : s'.writePath = s.writePath)
    (hmapped : v'.mapped = v.mapped) (hdata : v'.dataMap = v.dataMap)
    (htoMap : v'.toMap = v.toMap) :
    Carries v s v' s' := by
  obtain ⟨hcmd, hrest⟩ := Prod.mk.inj h
  obtain ⟨hwr, hmapping⟩ := Prod.mk.inj hrest
  exact .of_eq hmapped hdata htoMap hcmd hwr (congrArg Query.reqs hmapping)

theorem Reads.of_readPath {v : View} {s s' : Service} (h : s'.readPath = s.readPath) :
    Reads v s v s' := by
  obtain ⟨hcmd, hrest⟩ := Prod.mk.inj h
  obtain ⟨hfifo, hrest⟩ := Prod.mk.inj hrest
  obtain ⟨haccess, hemitted⟩ := Prod.mk.inj hrest
  exact .of_eq rfl rfl hcmd hfifo haccess hemitted

theorem carries_of_paths {v : View} {s s' : Service} (hwr : s'.writePath = s.writePath)
    (hrd : s'.readPath = s.readPath) : Carries v s v s' ∧ Reads v s v s' :=
  ⟨.of_writePath hwr rfl rfl rfl, .of_readPath hrd⟩

theorem paths_arrive (s : Service) :
    s.arrive.writePath = s.writePath ∧ s.arrive.readPath = s.readPath := by
  fun_cases Service.arrive s <;> exact ⟨rfl, rfl⟩

theorem paths_buffering (s : Service) :
    s.buffering.writePath = s.writePath ∧ s.buffering.readPath = s.readPath := by
  fun_cases Service.buffering s <;> exact ⟨rfl, rfl⟩

theorem paths_dramDeliver (s : Service) :
    s.dramDeliver.writePath = s.writePath ∧ s.dramDeliver.readPath = s.readPath := by
  fun_cases Service.dramDeliver s <;> exact ⟨rfl, rfl⟩

theorem paths_reply (s : Service) :
    s.reply.writePath = s.writePath ∧ s.reply.readPath = s.readPath := by
  rw [Service.reply]
  split
  · next d rest hd =>
    have hemitted : (s.toNet ++ [d]).length + rest.length = s.emitted := by
      rw [Service.emitted, hd, List.length_append, List.length_singleton, List.length_cons,
        Nat.add_assoc, Nat.add_comm 1]
    exact ⟨rfl, congrArg (fun n ↦ (s.dramRdCmd, s.fifoRdCmd, s.accessSt, n)) hemitted⟩
  · exact ⟨rfl, rfl⟩

theorem writePath_dramTake (s : Service) : (s.dramTake e).writePath = s.writePath := by
  fun_cases Service.dramTake s e <;> rfl

theorem writePath_dramRdPipe (s : Service) : s.dramRdPipe.writePath = s.writePath := by
  obtain ⟨_, _, _, _, _, hstep⟩ := s.exists_dramRdPipe
  rw [hstep]
  rfl

/-- `DRAM_rd_pipe` takes a command further. -/
theorem Reads.dramRdPipe (v : View) (s : Service) : Reads v s v s.dramRdPipe := by
  have hdata : s.rdPipeCmd.rdPipeData.readPath = s.rdPipeCmd.readPath := by
    fun_cases Service.rdPipeData s.rdPipeCmd <;> rfl
  have hcmd : Reads v s v s.rdPipeCmd := by
    rw [Service.rdPipeCmd]
    split
    · next cmd rest hcmd =>
      refine ⟨?_, [], rfl, rfl⟩
      rw [hcmd, List.append_assoc]
      rfl
    · exact .refl v s
  obtain ⟨hcmds, hrest⟩ := Prod.mk.inj hdata
  obtain ⟨hfifo, hrest⟩ := Prod.mk.inj hrest
  obtain ⟨haccess, hemitted⟩ := Prod.mk.inj hrest
  obtain ⟨bs, hshape, hemit⟩ := hcmd.shape
  refine ⟨?_, bs, ?_, ?_⟩
  · rw [← hcmd.rdCmds, ← hcmds, ← hfifo]
    rfl
  · rw [hshape, ← haccess]
    rfl
  · rw [← hemit, ← hemitted]
    rfl

theorem Carries.answerMap (v : View) (s : Service) (e : Env) :
    Carries v s v { s with mapping := s.mapping.answer e.map } where
  wrCmds := rfl
  wrData := rfl
  asks := by
    have hnone : (s.mapping.answer e.map).reqs.drop s.mapping.reqs.length = [] := by
      rw [Query.answer]
      split
      · next h => rw [h]; rfl
      · next r reqs h =>
        rw [h]
        exact List.drop_of_length_le (Nat.le_succ _)
    dsimp only
    rw [hnone]
    rfl

/-- **The step lemma**, apart from the two actions that take commands away. -/
theorem Inv.step_carries (h : Inv e out v s) {a : Action} (hwr : a ≠ .dramWrPipe)
    (hrd : a ≠ .dramTake) :
    ∃ v', Inv e out v' (s.step e a) ∧ Carries v s v' (s.step e a) ∧ Reads v s v' (s.step e a) := by
  cases a with
  | arrive => exact ⟨v, h.arrive, carries_of_paths (paths_arrive s).1 (paths_arrive s).2⟩
  | buffering =>
    exact ⟨v, h.buffering, carries_of_paths (paths_buffering s).1 (paths_buffering s).2⟩
  | parser => exact h.parser
  | allocAddress => exact h.allocAddress
  | map => exact h.map
  | access => exact h.access_step
  | reply => exact ⟨v, h.reply, carries_of_paths (paths_reply s).1 (paths_reply s).2⟩
  | dramRdPipe =>
    exact ⟨v, h.dramRdPipe, .of_writePath (writePath_dramRdPipe s) rfl rfl rfl, .dramRdPipe v s⟩
  | dramWrPipe => exact absurd rfl hwr
  | answerAlloc => exact ⟨v, h.answerAlloc, carries_of_paths rfl rfl⟩
  | answerMap => exact ⟨v, h.answerMap, .answerMap v s e, .of_readPath rfl⟩
  | dramTake => exact absurd rfl hrd
  | dramDeliver =>
    exact ⟨v, h.dramDeliver, carries_of_paths (paths_dramDeliver s).1 (paths_dramDeliver s).2⟩
  | rdStatus status => exact ⟨v, { h with }, carries_of_paths rfl rfl⟩
  | wrStatus status => exact ⟨v, { h with }, carries_of_paths rfl rfl⟩

theorem Carries.dramTake (v : View) (s : Service) : Carries v s v (s.dramTake e) :=
  .of_writePath (writePath_dramTake s) rfl rfl rfl

theorem Inv.step_writes (h : Inv e out v s) {a : Action} (ha : a ≠ .dramWrPipe) :
    ∃ v', Inv e out v' (s.step e a) ∧ Carries v s v' (s.step e a) := by
  by_cases hrd : a = .dramTake
  · rw [hrd]
    exact ⟨v, h.dramTake, .dramTake v s⟩
  · obtain ⟨v', hv', hcarries, -⟩ := h.step_carries ha hrd
    exact ⟨v', hv', hcarries⟩

theorem Inv.step (h : Inv e out v s) (a : Action) : ∃ v', Inv e out v' (s.step e a) := by
  by_cases ha : a = .dramWrPipe
  · rw [ha]
    exact ⟨v, h.dramWrPipe⟩
  · obtain ⟨v', h', -⟩ := h.step_writes ha
    exact ⟨v', h'⟩

/-- **The run lemma.** -/
theorem Inv.run (h : Inv e out v s) (as : List Action) :
    ∃ v', Inv e out v' (Machine.run (Service.step e) s as) := by
  induction as generalizing v s with
  | nil => exact ⟨v, h⟩
  | cons a as ih =>
    obtain ⟨v', h'⟩ := h.step a
    exact ih h'

end Steps

end FpgaOs.Rdm
