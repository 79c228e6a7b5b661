import FpgaOs.Lib.ByteMemory
import FpgaOs.Lib.Feed
import FpgaOs.Rdm.Writes

/-!
# The service and its memory

The data mover has a channel for reads and a channel for writes, each with its own commands, and
there is one memory behind both. It writes a unit at any time after it has got the command and the
unit, and it looks at the memory when it delivers a unit that is read; each channel goes through its
units in their order, and nothing is said about the order between the two.

`System` is the service with the memory, and with a record of what has been written, taken,
delivered and received. What it reads and writes is a list for each request, and the lists of all
requests are put one after another. So a unit of a request has a place in what is read or written,
which is the number of units of the requests before it. The invariant `Follows` says that the
channels go through these lists.
-/

namespace FpgaOs.Rdm

open BitField Mapping Service ByteMemory

/-! ## The system -/

/-- The addresses of the units of a command. -/
def DmCmd.unitAddrs (cmd : DmCmd) : List ℕ :=
  (List.range (cmd.btt.toNat / 64)).map fun j ↦ cmd.startAddress.toNat + 64 * j

structure System where
  service : Service
  memory : ℕ → BitVec 8
  /-- The units that have been written, with their addresses. -/
  commits : List (ℕ × BitVec 512)
  /-- The read commands that the data mover has taken, and the number of units that it has
  delivered. -/
  taken : List DmCmd
  delivered : ℕ
  /-- The number of units that had been sent when a unit arrived, for each unit that has arrived. -/
  arrivals : List ℕ

/-- What can happen next: a call of the service or a step of the data mover's, or that a unit is
written. -/
inductive System.Event
  | call (a : Action)
  | commit

namespace System

def init (us : List NetAxis) (m : ℕ → BitVec 8) : System where
  service := .init us
  memory := m
  commits := []
  taken := []
  delivered := 0
  arrivals := []

/-- The record of an action. -/
def record (S : System) : Action → System
  | .arrive =>
    match S.service.input with
    | _ :: _ => { S with arrivals := S.arrivals ++ [S.service.toNet.length] }
    | [] => S
  | .dramTake => { S with taken := S.taken ++ S.service.dramRdCmd.head?.toList }
  | .dramDeliver =>
    match S.service.dramBusy with
    | _ :: _ => { S with delivered := S.delivered + 1 }
    | [] => S
  | _ => S

/-- The next unit to be written, if the data mover has its command and its data. -/
def nextCommit (S : System) : Option (ℕ × BitVec 512) :=
  ((S.service.dramWrCmd.flatMap DmCmd.unitAddrs).zip
    (S.service.dramWrData.map AxisMem.data))[S.commits.length]?

def commit (S : System) : System :=
  match S.nextCommit with
  | some u => { S with memory := writeUnit S.memory u.1 u.2, commits := S.commits ++ [u] }
  | none => S

def step (e : Env) (S : System) : Event → System
  | .call a => { S.record a with service := S.service.step e a }
  | .commit => S.commit

/-- The state after a run, when the packets are fed to the service and the memory holds `m` at
first. -/
def after (e : Env) (ps : List Packet) (m : ℕ → BitVec 8) (evs : List Event) : System :=
  Machine.run (step e) (init (ps.flatMap Packet.units) m) evs

/-- All events of a run meet a condition, each in the state before it. -/
def Along (e : Env) (ps : List Packet) (m : ℕ → BitVec 8) (guard : System → Event → Prop)
    (evs : List Event) : Prop :=
  Machine.Guarded (step e) guard (init (ps.flatMap Packet.units) m) evs

/-- The next unit to be delivered, with its address. -/
def nextRead (S : System) : Option (BitVec 512 × ℕ) :=
  (S.service.dramBusy.zip ((S.taken.flatMap DmCmd.unitAddrs).drop S.delivered)).head?

/-- What the data mover delivers is what the memory holds. -/
def Faithful (S : System) : Event → Prop
  | .call .dramDeliver => ∀ u ∈ S.nextRead, u.1 = readUnit 512 S.memory u.2
  | _ => True

instance decidableFaithful (S : System) : ∀ ev, Decidable (S.Faithful ev)
  | .call .dramDeliver =>
    inferInstanceAs (Decidable (∀ u ∈ S.nextRead, u.1 = readUnit 512 S.memory u.2))
  | .call .arrive | .call .buffering | .call .parser | .call .allocAddress | .call
      .map | .call .access
  | .call .reply | .call .dramRdPipe | .call .dramWrPipe | .call .answerAlloc | .call
      .answerMap | .call .dramTake
  | .call (.rdStatus _) | .call (.wrStatus _) | .commit => isTrue trivial

instance decidableAlong (e : Env) (ps : List Packet) (m : ℕ → BitVec 8)
    (guard : System → Event → Prop)
    [∀ S ev, Decidable (guard S ev)] (evs : List Event) : Decidable (Along e ps m guard evs) :=
  inferInstanceAs (Decidable (Machine.Guarded _ _ _ _))

end System

/-! ## What requests read and write -/

section PerPacket

variable (e : Env) {β γ : Type*} (f : Turn → Packet → List β)

/-- The turn after packets. -/
def Turn.after (t : Turn) (ps : List Packet) : Turn := ps.foldl (fun t p ↦ (p.serve e t).2) t

/-- What belongs to packets, one after another. -/
def perPacket (t : Turn) (ps : List Packet) : List β :=
  Feed.emits (fun t p ↦ ((p.serve e t).2, f t p)) t ps

variable {e f}

theorem perPacket_cons (t : Turn) (p : Packet) (ps : List Packet) :
    perPacket e f t (p :: ps) = f t p ++ perPacket e f (p.serve e t).2 ps := rfl

theorem after_perPacket (t : Turn) (ps : List Packet) :
    Feed.after (fun t p ↦ ((p.serve e t).2, f t p)) t ps = t.after e ps := by
  induction ps generalizing t with
  | nil => rfl
  | cons p ps ih => exact ih _

theorem perPacket_split {ps : List Packet} {k : ℕ} {p : Packet} (hp : ps[k]? = some p) (t : Turn) :
    ∃ rest, perPacket e f t ps = perPacket e f t (ps.take k)
      ++ (f (t.after e (ps.take k)) p ++ rest) := by
  rw [← after_perPacket (f := f)]
  exact Feed.emits_split hp t

theorem getElem?_perPacket {ps : List Packet} {k : ℕ} {p : Packet} (hp : ps[k]? = some p) (t : Turn)
    {j : ℕ} (hj : j < (f (t.after e (ps.take k)) p).length) :
    (perPacket e f t ps)[(perPacket e f t (ps.take k)).length + j]?
      = (f (t.after e (ps.take k)) p)[j]? := by
  obtain ⟨rest, hsplit⟩ := perPacket_split (e := e) (f := f) hp t
  rw [hsplit, List.getElem?_append_right (Nat.le_add_right _ _), Nat.add_sub_cancel_left,
    List.getElem?_append_left hj]

theorem length_perPacket {g : Turn → Packet → List γ}
    (h : ∀ t p, (f t p).length = (g t p).length) (t : Turn)
    (ps : List Packet) : (perPacket e f t ps).length = (perPacket e g t ps).length := by
  induction ps generalizing t with
  | nil => rfl
  | cons p ps ih =>
    rw [perPacket_cons, perPacket_cons, List.length_append, List.length_append, h, ih]

theorem flatMap_perPacket (g : β → List γ) (t : Turn) (ps : List Packet) :
    (perPacket e f t ps).flatMap g = perPacket e (fun t p ↦ (f t p).flatMap g) t ps := by
  induction ps generalizing t with
  | nil => rfl
  | cons p ps ih => rw [perPacket_cons, perPacket_cons, List.flatMap_append, ih]

end PerPacket

namespace Packet

variable (e : Env) (t : Turn) (p : Packet)

/-- The address that the mapping gives to a `READ`. -/
def readAddress : Option (BitVec 32) :=
  if p.app.opcode = opcodeRead ∧ (e.map t.maps p.getRequest).status = 0 then
    some (e.map t.maps p.getRequest).address
  else none

/-- The read command of a packet, if it has one. -/
def readCmds : List DmCmd := (p.readAddress e t).toList.map p.readCmd

/-- The addresses of the units that are read for a packet. -/
def readAddrs : List ℕ := (p.readCmds e t).flatMap DmCmd.unitAddrs

/-- The addresses of the units that are written for a packet. -/
def writeAddrs : List ℕ := ((p.writeAddress e t).toList.map p.writeCmd).flatMap DmCmd.unitAddrs

/-- The units that are read for a packet. -/
def readUnits : List (BitVec 512) := (p.replyData e (p.serve e t).1).map NetAxis.data

/-- Which units of the reply are read from memory. -/
def mask : List Bool := false :: false :: List.replicate (p.readAddrs e t).length true

end Packet

/-- The units that are read for packets. -/
def readUnits (e : Env) (ps : List Packet) : List (BitVec 512) :=
  perPacket e (fun t p ↦ p.readUnits e t) .first ps

/-- The addresses of these units. -/
def readAddrs (e : Env) (ps : List Packet) : List ℕ :=
  perPacket e (fun t p ↦ p.readAddrs e t) .first ps

/-- The addresses of the units that are written for packets. -/
def writeAddrs (e : Env) (ps : List Packet) : List ℕ :=
  perPacket e (fun t p ↦ p.writeAddrs e t) .first ps

section PerPacket

variable {e : Env} {t : Turn} {p : Packet} {pa : BitVec 32}

theorem unitAddrs_readCmd (p : Packet) (pa : BitVec 32) :
    (p.readCmd pa).unitAddrs = (List.range p.nrUnits).map fun j ↦ pa.toNat + 64 * j := by
  have hlt := nrUnits_lt p
  have hbtt : (p.readCmd pa).btt.toNat / 64 = p.nrUnits := by
    rw [Packet.readCmd, BitVec.toNat_ofNat]
    omega
  rw [DmCmd.unitAddrs, hbtt]
  rfl

theorem readAddrs_of_some (h : p.readAddress e t = some pa) :
    p.readAddrs e t = (List.range p.nrUnits).map fun j ↦ pa.toNat + 64 * j := by
  rw [Packet.readAddrs, Packet.readCmds, h, ← unitAddrs_readCmd]
  exact List.append_nil _

theorem writeAddrs_of_some (h : p.writeAddress e t = some pa) :
    p.writeAddrs e t = (List.range p.nrUnits).map fun j ↦ pa.toNat + 64 * j := by
  rw [Packet.writeAddrs, h, ← unitAddrs_readCmd]
  exact List.append_nil _

theorem serve_of_some (h : p.readAddress e t = some pa) :
    (p.serve e t).1 = .read t.reads (p.readCmd pa) ∧ (p.serve e t).2.reads = t.reads + 1 := by
  rw [Packet.readAddress] at h
  split at h
  · next hread =>
    rw [Packet.serve, if_pos hread.1]
    dsimp only
    rw [if_pos hread.2, Option.some.inj h]
    exact ⟨rfl, rfl⟩
  · cases h

theorem serve_of_none (h : p.readAddress e t = none) :
    p.replyData e (p.serve e t).1 = [] ∧ (p.serve e t).2.reads = t.reads := by
  rw [Packet.readAddress] at h
  split at h
  · cases h
  next hread =>
  rw [Packet.serve]
  dsimp only
  split
  · next hop =>
    rw [if_neg fun hret ↦ hread ⟨hop, hret⟩]
    exact ⟨rfl, rfl⟩
  · split
    · exact ⟨rfl, rfl⟩
    · split
      · exact ⟨rfl, rfl⟩
      · exact ⟨rfl, rfl⟩

theorem readUnits_of_some (h : p.readAddress e t = some pa) :
    p.readUnits e t = dramBlock e t.reads (p.readCmd pa) := by
  have haddrs := congrArg List.length (unitAddrs_readCmd p pa)
  rw [DmCmd.unitAddrs, List.length_map, List.length_map, List.length_range,
    List.length_range] at haddrs
  rw [Packet.readUnits, (serve_of_some h).1, Packet.replyData, dramBlock, haddrs, List.map_map]
  rfl

theorem readUnits_of_none (h : p.readAddress e t = none) : p.readUnits e t = [] := by
  rw [Packet.readUnits, (serve_of_none h).1]
  rfl

theorem length_readUnits (t : Turn) (p : Packet) :
    (p.readUnits e t).length = (p.readAddrs e t).length := by
  cases h : p.readAddress e t with
  | none =>
    rw [readUnits_of_none h, Packet.readAddrs, Packet.readCmds, h]
    rfl
  | some pa =>
    rw [readUnits_of_some h, Packet.readAddrs, Packet.readCmds, h, dramBlock, Option.toList_some,
      List.map_singleton, List.flatMap_singleton, DmCmd.unitAddrs, List.length_map, List.length_map]

theorem length_mask (t : Turn) (p : Packet) (nr : BitVec 64) :
    (p.mask e t).length = (p.reply e nr (p.serve e t).1).length := by
  have hlen := @length_readUnits e t p
  rw [Packet.readUnits, List.length_map] at hlen
  rw [Packet.mask, Packet.reply, ← hlen]
  simp only [List.length_cons, List.length_replicate]

/-! ### What the first state is bound to read -/

theorem mapped_of_none (h : p.readAddress e t = none) (base : PipelineInfo) (nr : BitVec 64) :
    ¬((p.info base nr).mapped e t).reads = true := by
  intro hreads
  have hop : p.app.opcode = opcodeRead :=
    (opcode_mapped t (p.info base nr)).symm.trans (opcode_of_reads hreads)
  have hne : p.app.opcode ≠ opcodeAlloc := by rw [hop]; decide
  rw [PipelineInfo.mapped, if_neg (show (p.info base nr).opcode ≠ opcodeAlloc from hne),
    mapRequest_info p base nr hne] at hreads
  have hret := ((reads_translate _ _).mp hreads).1
  rw [Packet.readAddress, if_pos ⟨hop, hret⟩] at h
  cases h

theorem mapped_of_some (h : p.readAddress e t = some pa) (base : PipelineInfo) (nr : BitVec 64) :
    ((p.info base nr).mapped e t).reads = true ∧ ((p.info base nr).mapped e t).memCmd.cook
      = p.readCmd pa
      ∧ ((p.info base nr).mapped e t).nrUnits.toNat = p.nrUnits := by
  rw [Packet.readAddress] at h
  split at h
  · next hread =>
    obtain ⟨hop, hret⟩ := hread
    have hne : p.app.opcode ≠ opcodeAlloc := by rw [hop]; decide
    rw [PipelineInfo.mapped, if_neg (show (p.info base nr).opcode ≠ opcodeAlloc from hne),
      mapRequest_info p base nr hne, ← Option.some.inj h]
    refine ⟨(reads_translate _ _).mpr ⟨hret, (opcode_translate _ _).trans hop⟩,
      cook_memCmd p base nr _ hret, ?_⟩
    rw [nrUnits_translate, toNat_nrUnits_info]
  · cases h

theorem mappedFrom_infos_cons (t : Turn) (base : PipelineInfo) (nr : BitVec 64) (p : Packet)
    (ps : List Packet) :
    mappedFrom e t (infos base nr (p :: ps))
      = (p.info base nr).mapped e t :: mappedFrom e (p.serve e t).2
        (infos (p.info base nr) (nr + 1) ps) := by
  rw [infos, mappedFrom_cons p.opcode_mem, mappedFrom_next]

theorem cmdsOf_infos (t : Turn) (base : PipelineInfo) (nr : BitVec 64) (ps : List Packet) :
    cmdsOf (mappedFrom e t (infos base nr ps)) = perPacket e (fun t p ↦ p.readCmds e t) t ps := by
  induction ps generalizing t base nr with
  | nil => rfl
  | cons p ps ih =>
    rw [mappedFrom_infos_cons, cmdsOf_cons, ih, perPacket_cons, Packet.readCmds]
    congr 1
    cases h : p.readAddress e t with
    | none => rw [if_neg (mapped_of_none h base nr)]; rfl
    | some pa =>
      obtain ⟨hreads, hcook, -⟩ := mapped_of_some h base nr
      rw [if_pos hreads, hcook]
      rfl

theorem dramUnits_infos (t : Turn) (ps : List Packet) :
    dramUnits e t.reads (perPacket e (fun t p ↦ p.readCmds e t) t ps)
      = perPacket e (fun t p ↦ p.readUnits e t) t ps := by
  induction ps generalizing t with
  | nil => rfl
  | cons p ps ih =>
    rw [perPacket_cons, perPacket_cons, Packet.readCmds]
    cases h : p.readAddress e t with
    | none =>
      rw [readUnits_of_none h, ← ih, (serve_of_none h).2]
      rfl
    | some pa =>
      rw [readUnits_of_some h, ← ih, (serve_of_some h).2]
      rfl

theorem shapeAll_infos (t : Turn) (base : PipelineInfo) (nr : BitVec 64) (ps : List Packet) :
    shapeAll (mappedFrom e t (infos base nr ps)) = perPacket e (fun t p ↦ p.mask e t) t ps := by
  induction ps generalizing t base nr with
  | nil => rfl
  | cons p ps ih =>
    rw [mappedFrom_infos_cons, shapeAll, ih, perPacket_cons, Packet.mask, List.cons_append,
      List.cons_append]
    congr 3
    cases h : p.readAddress e t with
    | none =>
      rw [if_neg (mapped_of_none h base nr), Packet.readAddrs, Packet.readCmds, h]
      rfl
    | some pa =>
      obtain ⟨hreads, -, hunits⟩ := mapped_of_some h base nr
      rw [if_pos hreads, hunits, readAddrs_of_some h, List.length_map, List.length_range]

end PerPacket

/-! ## The invariant -/

/-- The units that are written, with their addresses, as `DRAM_wr_pipe` puts them together. -/
def writeLog (e : Env) (ps : List Packet) : List (ℕ × BitVec 512) :=
  (writeAddrs e ps).zip (allData ps)

/-- The read commands that are still to come. -/
def rdCmdsLeft (v : View) (s : Service) : List DmCmd :=
  s.dramRdCmd ++ (s.fifoRdCmd.map MemCmd.cook ++ cmdsOf v.mapped)

/-- **The invariant of the channels.** -/
structure Follows (e : Env) (ps : List Packet) (m : ℕ → BitVec 8) (v : View) (S : System) :
    Prop where
  rdCmds : S.taken ++ rdCmdsLeft v S.service = perPacket e (fun t p ↦ p.readCmds e t) .first ps
  dramRead : S.service.dramRead = S.taken.length
  busy : S.service.dramBusy ++ dramUnits e S.service.dramRead (rdCmdsLeft v S.service)
    = (readUnits e ps).drop S.delivered
  /-- What has been emitted. -/
  mask : ∃ bs, perPacket e (fun t p ↦ p.mask e t) .first ps
    = bs ++ shapeFrom S.service.accessSt v.toAccess
    ∧ bs.length = S.service.emitted
  memory : S.memory = writeAll m S.commits
  commits : S.commits <+: writeLog e ps

/-- The invariants of the service and of the channels. -/
def System.Good (e : Env) (ps : List Packet) (m : ℕ → BitVec 8) (S : System) : Prop :=
  ∃ v sent, Inv e (replies e 1 .first ps).flatten v S.service
    ∧ WrInv (firstCmds e ps) (allData ps) sent v S.service ∧ Follows e ps m v S

section Steps

variable {e : Env} {ps : List Packet} {m : ℕ → BitVec 8} {v v' : View} {S : System}

theorem follows_init (e : Env) (ps : List Packet) (m : ℕ → BitVec 8) :
    Follows e ps m (.first e ps) (.init (ps.flatMap Packet.units) m) where
  rdCmds := cmdsOf_infos .first {} 1 ps
  dramRead := rfl
  busy := by
    have hcmds := @cmdsOf_infos e .first {} 1 ps
    exact (congrArg (dramUnits e 0) hcmds).trans (dramUnits_infos .first ps)
  mask := ⟨[], (shapeAll_infos .first {} 1 ps).symm, rfl⟩
  memory := rfl
  commits := List.nil_prefix

theorem good_init (e : Env) (ps : List Packet) (m : ℕ → BitVec 8) :
    (System.init (ps.flatMap Packet.units) m).Good e ps m := by
  have hwr : WrInv (firstCmds e ps) (allData ps) [] (.first e ps)
    (Service.init (ps.flatMap Packet.units)) :=
    ⟨rfl, rfl, rfl, rfl, rfl⟩
  exact ⟨_, [], Inv.init e ps, hwr, follows_init e ps m⟩

/-- What only the data mover has a part in. -/
def Service.readIn (s : Service) : ℕ × List (BitVec 512) := (s.dramRead, s.dramBusy)

theorem readIn_dramRdPipe (s : Service) : s.dramRdPipe.readIn = s.readIn := by
  obtain ⟨_, _, _, _, _, hstep⟩ := s.exists_dramRdPipe
  rw [hstep]
  rfl

theorem readIn_dramWrPipe (s : Service) : s.dramWrPipe.readIn = s.readIn := by
  rw [Service.dramWrPipe]
  split
  · split <;> rfl
  · split <;> rfl

theorem readIn_step (s : Service) {a : Action} (htake : a ≠ .dramTake)
    (hdeliver : a ≠ .dramDeliver) :
    (s.step e a).readIn = s.readIn := by
  cases a with
  | arrive => rw [Service.step]; fun_cases Service.arrive s <;> rfl
  | buffering => rw [Service.step]; fun_cases Service.buffering s <;> rfl
  | parser => rw [Service.step]; fun_cases Service.parser s <;> rfl
  | allocAddress => rw [Service.step]; fun_cases Service.allocAddress s <;> rfl
  | map => rw [Service.step]; fun_cases Service.map s <;> rfl
  | access => rw [Service.step]; fun_cases Service.access s <;> rfl
  | reply => rw [Service.step, Service.reply]; split <;> rfl
  | dramRdPipe => exact readIn_dramRdPipe s
  | dramWrPipe => exact readIn_dramWrPipe s
  | answerAlloc => rfl
  | answerMap => rfl
  | dramTake => exact absurd rfl htake
  | dramDeliver => exact absurd rfl hdeliver
  | rdStatus status => rfl
  | wrStatus status => rfl

/-- The record, apart from the arrivals. -/
def System.channels (S : System) : (ℕ → BitVec 8) × List (ℕ × BitVec 512) × List DmCmd × ℕ :=
  (S.memory, S.commits, S.taken, S.delivered)

theorem channels_record (S : System) {a : Action} (htake : a ≠ .dramTake)
    (hdeliver : a ≠ .dramDeliver) :
    (S.record a).channels = S.channels := by
  cases a with
  | arrive => rw [System.record]; split <;> rfl
  | dramTake => exact absurd rfl htake
  | dramDeliver => exact absurd rfl hdeliver
  | _ => rfl

theorem Follows.carry {S' : System} (h : Follows e ps m v S) (hr : Reads v S.service v' S'.service)
    (hin : S'.service.readIn = S.service.readIn) (hch : S'.channels = S.channels) :
      Follows e ps m v' S' := by
  obtain ⟨hread, hbusy⟩ := Prod.mk.inj hin
  obtain ⟨hmemory, hrest⟩ := Prod.mk.inj hch
  obtain ⟨hcommits, hrest⟩ := Prod.mk.inj hrest
  obtain ⟨htaken, hdelivered⟩ := Prod.mk.inj hrest
  have hleft : rdCmdsLeft v' S'.service = rdCmdsLeft v S.service := hr.rdCmds
  obtain ⟨bs, hmask, hlen⟩ := h.mask
  obtain ⟨bs', hshape, hemitted⟩ := hr.shape
  refine ⟨?_, ?_, ?_, ⟨bs ++ bs', ?_, ?_⟩, ?_, ?_⟩
  · rw [htaken, hleft]
    exact h.rdCmds
  · rw [hread, htaken]
    exact h.dramRead
  · rw [hbusy, hread, hleft, hdelivered]
    exact h.busy
  · rw [hmask, hshape, List.append_assoc]
  · rw [List.length_append, hlen, hemitted]
  · rw [hmemory, hcommits]
    exact h.memory
  · rw [hcommits]
    exact h.commits

theorem step_dramTake (S : System) :
    (∃ cmd rest, S.service.dramRdCmd = cmd :: rest ∧ S.step e (.call .dramTake)
      = { S with service := S.service.dramTake e, taken := S.taken ++ [cmd] })
      ∨ S.step e (.call .dramTake) = S := by
  rw [System.step, System.record, Service.step]
  cases hcmd : S.service.dramRdCmd with
  | cons cmd rest => exact .inl ⟨cmd, rest, rfl, rfl⟩
  | nil =>
    have hnone : S.service.dramTake e = S.service := by rw [Service.dramTake, hcmd]
    right
    rw [hnone, List.head?_nil, Option.toList_none, List.append_nil]

theorem Follows.dramTake (h : Follows e ps m v S) :
    Follows e ps m v (S.step e (.call .dramTake)) := by
  obtain ⟨cmd, rest, hcmd, hstep⟩ | hstep := @step_dramTake e S
  · have htake : S.service.dramTake e = { S.service with
        dramRdCmd := rest
        dramRead := S.service.dramRead + 1
        dramBusy := S.service.dramBusy ++ dramBlock e S.service.dramRead cmd } := by
      rw [Service.dramTake, hcmd]
    have hleft : rdCmdsLeft v S.service
      = cmd :: rdCmdsLeft v { S.service with dramRdCmd := rest } := by
      rw [rdCmdsLeft, hcmd]
      rfl
    have hcmds := h.rdCmds
    have hbusy := h.busy
    rw [hleft] at hcmds hbusy
    rw [hstep, htake]
    refine { h with rdCmds := ?_, dramRead := ?_, busy := ?_ }
    · rw [← hcmds, List.append_assoc]
      rfl
    · rw [List.length_append, ← h.dramRead]
      rfl
    · rw [← hbusy, dramUnits, ← List.append_assoc]
      rfl
  · rw [hstep]
    exact h

theorem step_dramDeliver (S : System) :
    (∃ x rest, S.service.dramBusy = x :: rest ∧ S.step e (.call .dramDeliver)
      = { S with service := S.service.dramDeliver, delivered := S.delivered + 1 })
      ∨ S.step e (.call .dramDeliver) = S := by
  rw [System.step, System.record, Service.step]
  cases hbusy : S.service.dramBusy with
  | cons x rest => exact .inl ⟨x, rest, rfl, rfl⟩
  | nil =>
    have hnone : S.service.dramDeliver = S.service := by rw [Service.dramDeliver, hbusy]
    right
    rw [hnone]

theorem Follows.dramDeliver (h : Follows e ps m v S) :
    Follows e ps m v (S.step e (.call .dramDeliver)) := by
  obtain ⟨x, rest, hx, hstep⟩ | hstep := @step_dramDeliver e S
  · have hdeliver : S.service.dramDeliver
        = { S.service with dramBusy := rest, dramRdData := S.service.dramRdData ++ [x] } := by
      rw [Service.dramDeliver, hx]
    have hbusy := h.busy
    rw [hx] at hbusy
    rw [hstep, hdeliver]
    refine { h with busy := ?_ }
    rw [← List.tail_drop, ← hbusy]
    rfl
  · rw [hstep]
    exact h

theorem readPath_dramWrPipe (s : Service) : s.dramWrPipe.readPath = s.readPath := by
  rw [Service.dramWrPipe]
  split
  · split <;> rfl
  · split <;> rfl

theorem flatMap_writeCmds (e : Env) (ps : List Packet) :
    (writeCmds (mappedWrites e .first ps)).flatMap DmCmd.unitAddrs = writeAddrs e ps := by
  have hall (t : Turn) : (writeCmds (mappedWrites e t ps)).flatMap DmCmd.unitAddrs
      = perPacket e (fun t p ↦ p.writeAddrs e t) t ps := by
    induction ps generalizing t with
    | nil => rfl
    | cons p ps ih =>
      rw [mappedWrites, writeCmds, List.map_append, List.flatMap_append, perPacket_cons, ← ih]
      cases h : p.writeAddress e t with
      | none =>
        rw [Packet.writeAddrs, h]
        rfl
      | some pa =>
        rw [Packet.writeAddrs, h]
        rfl
  exact hall .first

/-- What is written next is the next of what is to be written. -/
theorem getElem?_writeLog {out : List NetAxis}
    (hw : Writing e out (firstCmds e ps) (allData ps) S.service)
    {u : ℕ × BitVec 512} (hu : S.nextCommit = some u) :
    (writeLog e ps)[S.commits.length]? = some u := by
  obtain ⟨hcmds, hdata, -⟩ := hw.sent
  rw [cook_firstCmds] at hcmds
  have haddrs := hcmds.flatMap DmCmd.unitAddrs
  rw [flatMap_writeCmds] at haddrs
  have hunits := hdata.map AxisMem.data
  rw [Burst.map_cutAll fun _ _ ↦ rfl] at hunits
  obtain ⟨rest, hrest⟩ := haddrs
  obtain ⟨rest', hrest'⟩ := hunits.trans (List.take_prefix _ _)
  obtain ⟨hfst, hsnd⟩ := List.getElem?_zip_eq_some.mp hu
  rw [writeLog, List.getElem?_zip_eq_some, ← hrest, ← hrest',
    List.getElem?_append_left (List.getElem?_eq_some_iff.mp hfst).1,
    List.getElem?_append_left (List.getElem?_eq_some_iff.mp hsnd).1]
  exact ⟨hfst, hsnd⟩

theorem Follows.commit {out : List NetAxis} (h : Follows e ps m v S)
    (hw : Writing e out (firstCmds e ps) (allData ps) S.service) : Follows e ps m v S.commit := by
  rw [System.commit]
  split
  · next u hu =>
    refine { h with memory := ?_, commits := ?_ }
    · dsimp only
      rw [h.memory, writeAll, writeAll, List.foldl_append]
      rfl
    · have hnext := getElem?_writeLog hw hu
      obtain ⟨hlt, hget⟩ := List.getElem?_eq_some_iff.mp hnext
      have hall : S.commits ++ [u] = (writeLog e ps).take (S.commits.length + 1) := by
        rw [← List.take_append_getElem hlt, hget, ← List.prefix_iff_eq_take.mp h.commits]
      rw [hall]
      exact List.take_prefix _ _
  · exact h

/-- **The step lemma.** -/
theorem System.Good.step (h : S.Good e ps m) (ev : System.Event) : (S.step e ev).Good e ps m := by
  obtain ⟨v, sent, hinv, hwr, hfollows⟩ := h
  cases ev with
  | commit =>
    have hservice : S.commit.service = S.service := by
      rw [System.commit]
      split <;> rfl
    refine ⟨v, sent, ?_, ?_, hfollows.commit ⟨v, sent, hinv, hwr⟩⟩
    · rw [System.step, hservice]
      exact hinv
    · rw [System.step, hservice]
      exact hwr
  | call a =>
    -- three calls move data of the memory; the others only carry the rest of the state along
    by_cases hpipe : a = .dramWrPipe
    · subst hpipe
      obtain ⟨sent', hwr'⟩ := hwr.dramWrPipe
      exact ⟨v, sent', hinv.dramWrPipe, hwr',
        hfollows.carry (.of_readPath (readPath_dramWrPipe S.service))
        (readIn_dramWrPipe S.service) rfl⟩
    by_cases htake : a = .dramTake
    · subst htake
      exact ⟨v, sent, hinv.dramTake,
        hwr.carry (.dramTake v S.service) (writeOut_step S.service hpipe), hfollows.dramTake⟩
    by_cases hdeliver : a = .dramDeliver
    · subst hdeliver
      obtain ⟨hcarries, -⟩ := carries_of_paths (v := v) (paths_dramDeliver S.service).1
        (paths_dramDeliver S.service).2
      exact ⟨v, sent, hinv.dramDeliver, hwr.carry hcarries (writeOut_step (e := e) S.service hpipe),
        hfollows.dramDeliver⟩
    obtain ⟨v', hinv', hcarries, hreads⟩ := hinv.step_carries hpipe htake
    exact ⟨v', sent, hinv', hwr.carry hcarries (writeOut_step S.service hpipe),
      hfollows.carry hreads (readIn_step S.service htake hdeliver)
        (channels_record S htake hdeliver)⟩

end Steps

end FpgaOs.Rdm
