import FpgaOs.Lib.Process
import FpgaOs.Rdm.Format

/-!
# Initialization by the coordinator

INIT takes a segment from the system, and then two blocks of it from the buddy allocator: for the
mapping table, and for the data of the heap allocator. Each of the three requests can fail, and then
the command is answered at once. Nothing is given back: if the segment has been obtained then it
stays allocated, and the next command takes another one.

The trace of the coordinator is what it reads from its streams and writes to them. An account of the
trace says what a command has obtained; when a failing command is answered, what it still has is
lost.
-/

namespace FpgaOs.Paging

open Machine Process
open Mapping (BuddyAllocRet)
open Rdm (BuddyAlloc)

/-! ## The code -/

/-- `SEG_ALLOC` and `SEG_FREE`. -/
abbrev SEG_ALLOC : BitVec 8 := 1#8

abbrev SEG_FREE : BitVec 8 := 2#8

/-- `SEG_FAILED`. -/
abbrev SEG_FAILED : BitVec 8 := 1#8

/-- `BUDDY_ALLOC` and `BUDDY_FREE`. -/
abbrev BUDDY_ALLOC : BitVec 1 := 0#1

abbrev BUDDY_FREE : BitVec 1 := 1#1

/-- `BUDDY_FAILED`. -/
abbrev BUDDY_FAILED : BitVec 1 := 1#1

/-- `BUDDY_MANAGED_SIZE`. -/
abbrev BUDDY_MANAGED_SIZE : BitVec 32 := 1 <<< 30

/-- `NR_HT_BUCKET_DRAM_SHIFT + MEM_BUS_SHIFT - 3 - BUDDY_MIN_SHIFT`. -/
abbrev tableOrder : BitVec 22 := 10 + 9 - 3 - 8

/-- `22 - BUDDY_MIN_SHIFT`. -/
abbrev metaOrder : BitVec 22 := 22 - 8

/-- `struct alloc_seg_in`. -/
structure AllocSegIn where
  opcode : BitVec 8
  addrLen : BitVec 32

/-- `struct alloc_seg_out`. -/
structure AllocSegOut where
  addrLen : BitVec 32
  ret : BitVec 8

/-- `enum mem_cmd_opcode`. -/
inductive MemCmdOpcode
  | init
  | alloc
  | free

/-- `enum mem_cmd_retcode`. -/
inductive MemCmdRetcode
  | success
  | failed
  deriving DecidableEq

/-- `struct mem_cmd_in`. -/
structure MemCmdIn where
  opcode : MemCmdOpcode := .init
  addrLen : BitVec 32 := 0

/-- `struct mem_cmd_out`. -/
structure MemCmdOut where
  addrLen : BitVec 32
  ret : MemCmdRetcode

/-- What is read from a stream, or written to it. -/
inductive Event
  | ctrlIn (c : MemCmdIn)
  | ctrlOut (r : MemCmdOut)
  | segAllocReq (r : AllocSegIn)
  | segAllocRet (r : AllocSegOut)
  | buddyAllocReq (r : BuddyAlloc)
  | buddyAllocRet (r : BuddyAllocRet)
  | initBuddyAddr (a : BitVec 64)
  | initTblAddr (a : BitVec 32)
  | initHeapAddr (a : BitVec 64)

/-- `enum FUNCTION_STATUS`. -/
inductive FunctionStatus
  | wip
  | down
  | failed

/-- `enum INIT_STATUS`. -/
inductive InitStatus
  | allocSeg
  | allocSegRet
  | allocTableRet
  | allocMetaRet
  deriving DecidableEq

/-- The static variables of `init`. -/
structure Init where
  state : InitStatus := .allocSeg
  buddyStart : BitVec 32 := 0
  tableBaseAddr : BitVec 32 := 0
  heapMetaStart : BitVec 32 := 0

namespace Init

variable (s : Init)

/-- A call in INIT_ALLOC_SEG. In the other states a call that finds nothing to read does nothing. -/
def work : Init × List Event × FunctionStatus :=
  match s.state with
  | .allocSeg =>
    ({ s with state := .allocSegRet }, [.segAllocReq ⟨SEG_ALLOC, BUDDY_MANAGED_SIZE⟩], .wip)
  | _ => (s, [], .wip)

/-- A call in INIT_ALLOC_SEG_RET that reads an answer. The address of the request is not set. -/
def segRet (r : AllocSegOut) (addr : BitVec 32) : Init × List Event × FunctionStatus :=
  if r.ret = SEG_FAILED then ({ s with state := .allocSeg }, [.segAllocRet r], .failed)
  else
    ({ s with buddyStart := r.addrLen, state := .allocTableRet },
      [.segAllocRet r, .initBuddyAddr (r.addrLen.setWidth 64),
        .buddyAllocReq ⟨BUDDY_ALLOC, addr, tableOrder⟩], .wip)

/-- A call that reads an answer of the buddy allocator. -/
def buddyRet (r : BuddyAllocRet) (addr : BitVec 32) : Init × List Event × FunctionStatus :=
  match s.state with
  | .allocTableRet =>
    if r.stat = BUDDY_FAILED then ({ s with state := .allocSeg }, [.buddyAllocRet r], .failed)
    else
      ({ s with tableBaseAddr := r.addr, state := .allocMetaRet },
        [.buddyAllocRet r, .initTblAddr r.addr, .buddyAllocReq ⟨BUDDY_ALLOC, addr, metaOrder⟩],
        .wip)
  | .allocMetaRet =>
    if r.stat = BUDDY_FAILED then ({ s with state := .allocSeg }, [.buddyAllocRet r], .failed)
    else
      ({ s with heapMetaStart := r.addr, state := .allocSeg },
        [.buddyAllocRet r, .initHeapAddr (r.addr.setWidth 64)], .down)
  | _ => (s, [.buddyAllocRet r], .wip)

end Init

/-- `enum COORD_STATUS`. -/
inductive CoordStatus
  | idle
  | init
  | alloc
  | free
  deriving DecidableEq

/-- The static variables of `coord_top`. -/
structure Coord where
  state : CoordStatus := .idle
  commandReq : MemCmdIn := {}
  init : Init := {}

/-- The streams that are read. -/
inductive Port
  | ctrlIn
  | segAllocRet
  | buddyAllocRet
  deriving DecidableEq

/-- What is read from them. -/
abbrev Port.Unit : Port → Type
  | .ctrlIn => MemCmdIn
  | .segAllocRet => AllocSegOut
  | .buddyAllocRet => BuddyAllocRet

namespace Coord

variable (s : Coord)

/-- COORD_INIT after `init` has returned. -/
def returned (r : Init × List Event × FunctionStatus) : Coord × List Event :=
  match r.2.2 with
  | .wip => ({ s with init := r.1 }, r.2.1)
  | .down => ({ s with init := r.1, state := .idle }, r.2.1 ++ [.ctrlOut ⟨0, .success⟩])
  | .failed => ({ s with init := r.1, state := .idle }, r.2.1 ++ [.ctrlOut ⟨0, .failed⟩])

/-- The stream that a call tests. -/
def wants : Option Port :=
  match s.state with
  | .idle => some .ctrlIn
  | .init =>
    match s.init.state with
    | .allocSeg => none
    | .allocSegRet => some .segAllocRet
    | .allocTableRet | .allocMetaRet => some .buddyAllocRet
  | .alloc | .free => none

/-- A call that tests no stream. -/
def work : Coord × List Event :=
  match s.state with
  | .init => s.returned s.init.work
  | _ => (s, [])

/-- A call that reads. -/
def read : (p : Port) → p.Unit → BitVec 32 → Coord × List Event
  | .ctrlIn, c, _ =>
    ({ s with
        commandReq := c
        state := match c.opcode with
          | .init => .init
          | .alloc => .alloc
          | .free => .free }, [.ctrlIn c])
  | .segAllocRet, r, addr => s.returned (s.init.segRet r addr)
  | .buddyAllocRet, r, addr => s.returned (s.init.buddyRet r addr)

end Coord

/-- `coord_top`. What a call leaves to chance is an address that is not set. -/
def coordTop : Process Port Port.Unit Coord Event (BitVec 32) where
  wants := Coord.wants
  work s _ := s.work
  read p s u addr := s.read p u addr

/-! ## What is expected -/

/-- What can be obtained. -/
inductive Resource
  | segment (addr : BitVec 32)
  | block (addr : BitVec 32) (order : BitVec 22)
  deriving DecidableEq

/-- An account of a trace: the request to either allocator that is to be answered, as far as it asks
for something; what the current command has obtained and not given back, and what failing commands
had when they were answered; the numbers of commands and of replies. -/
structure Account where
  segAsked : Bool := false
  blockAsked : Option (BitVec 22) := none
  obtained : List Resource := []
  lost : List Resource := []
  inits : ℕ := 0
  replies : ℕ := 0

namespace Account

/-- An entry. -/
def enter (a : Account) : Event → Account
  | .ctrlIn _ => { a with obtained := [], inits := a.inits + 1 }
  | .ctrlOut r =>
    { a with
      replies := a.replies + 1
      lost := if r.ret = .failed then a.lost ++ a.obtained else a.lost }
  | .segAllocReq r =>
    { a with
      segAsked := r.opcode = SEG_ALLOC
      obtained := if r.opcode = SEG_FREE then a.obtained.erase (.segment r.addrLen)
        else a.obtained }
  | .segAllocRet r =>
    { a with
      obtained := if a.segAsked ∧ r.ret ≠ SEG_FAILED then .segment r.addrLen :: a.obtained
        else a.obtained }
  | .buddyAllocReq r =>
    { a with
      blockAsked := if r.opcode = BUDDY_ALLOC then some r.order else none
      obtained := if r.opcode = BUDDY_FREE then a.obtained.erase (.block r.addr r.order)
        else a.obtained }
  | .buddyAllocRet r =>
    { a with
      obtained := match a.blockAsked with
        | some order => if r.stat ≠ BUDDY_FAILED then .block r.addr order :: a.obtained
          else a.obtained
        | none => a.obtained }
  | .initBuddyAddr _ | .initTblAddr _ | .initHeapAddr _ => a

/-- All entries of a trace. -/
def ofTrace (trace : List Event) : Account := trace.foldl enter {}

theorem ofTrace_append (trace es : List Event) :
    ofTrace (trace ++ es) = es.foldl enter (ofTrace trace) := List.foldl_append

theorem obtained_buddyAllocRet {a : Account} (h : a.obtained ≠ []) (r : BuddyAllocRet) :
    (a.enter (.buddyAllocRet r)).obtained ≠ [] := by
  rw [enter]
  split
  · split
    · exact List.cons_ne_nil _ _
    · exact h
  · exact h

theorem enter_segAllocReq (a : Account) (len : BitVec 32) :
    a.enter (.segAllocReq ⟨SEG_ALLOC, len⟩) = { a with segAsked := true } := rfl

theorem enter_buddyAllocReq (a : Account) (addr : BitVec 32) (order : BitVec 22) :
    a.enter (.buddyAllocReq ⟨BUDDY_ALLOC, addr, order⟩) = { a with blockAsked := some order } := rfl

end Account

/-- The coordinator on INIT commands, with what the allocators answer, under a schedule. -/
def coordRun (inits : List (BitVec 32)) (segs : List AllocSegOut) (buddies : List BuddyAllocRet)
    (ts : List (Turn Port (BitVec 32))) : Fed Port.Unit Coord Event :=
  run coordTop.step
    (start {} fun
      | .ctrlIn => inits.map fun len ↦ ⟨.init, len⟩
      | .segAllocRet => segs
      | .buddyAllocRet => buddies) ts

/-- No failing command has kept anything. There is one reply for each command, except for the one
that is being served; and if the allocators answer every request, then when everything has arrived
all commands are answered after some number of calls. -/
structure HoldsNothing (inits : List (BitVec 32)) (segs : List AllocSegOut)
    (buddies : List BuddyAllocRet) (ts : List (Turn Port (BitVec 32))) : Prop where
  lost : (Account.ofTrace (coordRun inits segs buddies ts).out).lost = []
  replies : (Account.ofTrace (coordRun inits segs buddies ts).out).inits =
    (Account.ofTrace (coordRun inits segs buddies ts).out).replies
      + if (coordRun inits segs buddies ts).st.state = .idle then 0 else 1
  ends : inits.length ≤ segs.length → 2 * inits.length ≤ buddies.length →
    (∀ p, (coordRun inits segs buddies ts).input p = []) → ∃ n, ∀ addrs : List (BitVec 32),
      n ≤ addrs.length →
        (Account.ofTrace (coordRun inits segs buddies (ts ++ addrs.map .call)).out).replies
          = inits.length

/-- The condition: no request to the buddy allocator has failed. -/
def BuddySucceeds (trace : List Event) : Prop :=
  ∀ r, Event.buddyAllocRet r ∈ trace → r.stat ≠ BUDDY_FAILED

/-! ## The stages of a command -/

/-- In each stage: what the account says of the command, and how many answers of either allocator,
and how many calls, are still to come. -/
inductive Stage (s : Coord) (a : Account) : (segDue buddyDue calls : ℕ) → Prop
  | idle (state : s.state = .idle) (init : s.init.state = .allocSeg)
      (replies : a.inits = a.replies) : Stage s a 0 0 0
  | allocSeg (state : s.state = .init) (init : s.init.state = .allocSeg)
      (replies : a.inits = a.replies + 1) (obtained : a.obtained = []) : Stage s a 1 2 4
  | allocSegRet (state : s.state = .init) (init : s.init.state = .allocSegRet)
      (replies : a.inits = a.replies + 1) (obtained : a.obtained = []) (asked : a.segAsked = true) :
      Stage s a 1 2 3
  | allocTableRet (state : s.state = .init) (init : s.init.state = .allocTableRet)
      (replies : a.inits = a.replies + 1) (obtained : a.obtained ≠ []) : Stage s a 0 2 2
  | allocMetaRet (state : s.state = .init) (init : s.init.state = .allocMetaRet)
      (replies : a.inits = a.replies + 1) (obtained : a.obtained ≠ []) : Stage s a 0 1 1

/-- The invariant: the stage, the answers that are left, and that nothing is lost unless the buddy
allocator fails. -/
structure Inv (inits segs buddies : ℕ) (v : View Port.Unit Coord Event)
    (segDue buddyDue calls : ℕ) : Prop where
  stage : Stage v.st (.ofTrace v.out) segDue buddyDue calls
  commands : ∀ c ∈ v.unread .ctrlIn, c.opcode = .init
  inits : (Account.ofTrace v.out).inits + (v.unread .ctrlIn).length = inits
  segs : segs + segDue = (v.unread .segAllocRet).length + (Account.ofTrace v.out).inits
  buddies : buddies + buddyDue
    ≤ (v.unread .buddyAllocRet).length + 2 * (Account.ofTrace v.out).inits
  lost : (Account.ofTrace v.out).lost = [] ↔ BuddySucceeds v.out

theorem buddySucceeds_append {trace es : List Event} :
    BuddySucceeds (trace ++ es) ↔ BuddySucceeds trace ∧ BuddySucceeds es := by
  simp only [BuddySucceeds, List.mem_append, or_imp, forall_and]

theorem buddySucceeds_append_of {trace es : List Event} (h : ∀ r, Event.buddyAllocRet r ∉ es) :
    BuddySucceeds (trace ++ es) ↔ BuddySucceeds trace := by
  rw [buddySucceeds_append]
  exact and_iff_left fun r hr ↦ absurd hr (h r)

theorem buddySucceeds_append_cons {trace es : List Event} {r : BuddyAllocRet}
    (hr : r.stat ≠ BUDDY_FAILED) (h : ∀ r, Event.buddyAllocRet r ∉ es) :
    BuddySucceeds (trace ++ .buddyAllocRet r :: es) ↔ BuddySucceeds trace := by
  rw [buddySucceeds_append]
  refine and_iff_left fun r' hr' ↦ ?_
  obtain heq | hmem := List.mem_cons.mp hr'
  · rw [Event.buddyAllocRet.inj heq]
    exact hr
  · exact absurd hmem (h r')

section

variable {inits segs buddies : ℕ} {v : View Port.Unit Coord Event}
  {segDue buddyDue calls : ℕ}

/-- The calls that the current command still takes. -/
def Coord.callsLeft (s : Coord) : ℕ :=
  match s.state, s.init.state with
  | .init, .allocSeg => 4
  | .init, .allocSegRet => 3
  | .init, .allocTableRet => 2
  | .init, .allocMetaRet => 1
  | _, _ => 0

/-- What a call has to do: one call less is left of the command, or the next command has begun. -/
def Advances (inits segs buddies : ℕ) (v v' : View Port.Unit Coord Event) (calls : ℕ) : Prop :=
  ∃ segDue buddyDue calls', Inv inits segs buddies v' segDue buddyDue calls'
    ∧ calls' + 5 * (v'.unread .ctrlIn).length < calls + 5 * (v.unread .ctrlIn).length

theorem Inv.advances {v' : View Port.Unit Coord Event} {segDue' buddyDue' calls' : ℕ}
    (h : Inv inits segs buddies v segDue buddyDue calls)
    (hstage : Stage v'.st (.ofTrace v'.out) segDue' buddyDue' calls')
    (hctrl : v'.unread .ctrlIn = v.unread .ctrlIn)
    (hinits : (Account.ofTrace v'.out).inits = (Account.ofTrace v.out).inits)
    (hsegs : (v.unread .segAllocRet).length + segDue'
      = (v'.unread .segAllocRet).length + segDue)
    (hbuddies : (v.unread .buddyAllocRet).length + buddyDue'
      ≤ (v'.unread .buddyAllocRet).length + buddyDue)
    (hlost : (Account.ofTrace v'.out).lost = [] ↔ BuddySucceeds v'.out) (hcalls : calls' < calls) :
    Advances inits segs buddies v v' calls := by
  obtain ⟨-, hcommands, hinits', hsegs', hbuddies', -⟩ := h
  refine ⟨segDue', buddyDue', calls', ⟨hstage, ?_, ?_, ?_, ?_, hlost⟩, ?_⟩
  · rwa [hctrl]
  · rwa [hctrl, hinits]
  · omega
  · omega
  · rw [hctrl]
    omega

theorem Inv.next_idle (h : Inv inits segs buddies v 0 0 0) (hstate : v.st.state = .idle)
    (hinit : v.st.init.state = .allocSeg)
    (hreplies : (Account.ofTrace v.out).inits = (Account.ofTrace v.out).replies)
    (hfin : ¬coordTop.Finished v) (addr : BitVec 32) :
    Advances inits segs buddies v (coordTop.next v addr) 0 := by
  have hwants : coordTop.wants v.st = some .ctrlIn := by simp [coordTop, Coord.wants, hstate]
  obtain ⟨c, cs, hunread⟩ := exists_unread hwants hfin
  obtain ⟨-, hcommands, hinits, hsegs, hbuddies, hlost⟩ := h
  rw [hunread, List.forall_mem_cons] at hcommands
  rw [hunread, List.length_cons] at hinits
  have haccount : Account.ofTrace (v.out ++ [.ctrlIn c]) = { Account.ofTrace v.out with
      obtained := [], inits := (Account.ofTrace v.out).inits + 1 } := Account.ofTrace_append ..
  rw [next_of_cons hwants hunread addr]
  refine ⟨1, 2, 4, ⟨.allocSeg ?_ hinit ?_ ?_, ?_, ?_, ?_, ?_, ?_⟩, ?_⟩
  · simp [coordTop, Coord.read, hcommands.1]
  · simp [coordTop, Coord.read, haccount, hreplies]
  · simp [coordTop, Coord.read, haccount]
  · simpa using hcommands.2
  · simp [coordTop, Coord.read, haccount]
    omega
  · simp [coordTop, Coord.read, haccount]
    omega
  · simp [coordTop, Coord.read, haccount]
    omega
  · simp [coordTop, Coord.read, haccount, hlost, BuddySucceeds]
  · simp [hunread]
    omega

theorem Inv.next_allocSeg (h : Inv inits segs buddies v 1 2 4) (hstate : v.st.state = .init)
    (hinit : v.st.init.state = .allocSeg)
    (hreplies : (Account.ofTrace v.out).inits = (Account.ofTrace v.out).replies + 1)
    (hobtained : (Account.ofTrace v.out).obtained = []) (addr : BitVec 32) :
    Advances inits segs buddies v (coordTop.next v addr) 4 := by
  have hwants : coordTop.wants v.st = none := by simp [coordTop, Coord.wants, hstate, hinit]
  have hwork : coordTop.work v.st addr = ({ v.st with init := { v.st.init with
      state := .allocSegRet } }, [.segAllocReq ⟨SEG_ALLOC, BUDDY_MANAGED_SIZE⟩]) := by
    simp [coordTop, Coord.work, hstate, Coord.returned, Init.work, hinit]
  have haccount : Account.ofTrace (v.out ++ [.segAllocReq ⟨SEG_ALLOC, BUDDY_MANAGED_SIZE⟩])
      = { Account.ofTrace v.out with segAsked := true } := by
    rw [Account.ofTrace_append]
    exact Account.enter_segAllocReq ..
  rw [next_of_none hwants addr, hwork]
  refine h.advances (.allocSegRet hstate rfl ?_ ?_ ?_) rfl ?_ rfl (Nat.le_refl _) ?_ (by decide)
  · rw [haccount]
    exact hreplies
  · rw [haccount]
    exact hobtained
  · rw [haccount]
  · rw [haccount]
  · rw [haccount, buddySucceeds_append_of (by simp)]
    exact h.lost

theorem Inv.next_allocSegRet (h : Inv inits segs buddies v 1 2 3) (hstate : v.st.state = .init)
    (hinit : v.st.init.state = .allocSegRet)
    (hreplies : (Account.ofTrace v.out).inits = (Account.ofTrace v.out).replies + 1)
    (hobtained : (Account.ofTrace v.out).obtained = [])
    (hasked : (Account.ofTrace v.out).segAsked = true)
    (hfin : ¬coordTop.Finished v) (addr : BitVec 32) :
    Advances inits segs buddies v (coordTop.next v addr) 3 := by
  have hwants : coordTop.wants v.st = some .segAllocRet := by
    simp [coordTop, Coord.wants, hstate, hinit]
  obtain ⟨r, rs, hunread⟩ := exists_unread hwants hfin
  rw [next_of_cons hwants hunread addr]
  by_cases hret : r.ret = SEG_FAILED
  · have hread : coordTop.read .segAllocRet v.st r addr = ({ v.st with
        init := { v.st.init with state := .allocSeg }, state := .idle },
        [.segAllocRet r, .ctrlOut ⟨0, .failed⟩]) := by
      simp [coordTop, Coord.read, Coord.returned, Init.segRet, hret]
    have haccount : Account.ofTrace (v.out ++ [.segAllocRet r, .ctrlOut ⟨0, .failed⟩])
        = { Account.ofTrace v.out with
          replies := (Account.ofTrace v.out).replies + 1 } := by
      simp [Account.ofTrace_append, Account.enter, hret, hobtained]
    rw [hread]
    -- nothing has been obtained; the two answers of the buddy allocator are not asked for
    refine h.advances (.idle rfl rfl ?_) rfl ?_ ?_ (Nat.le_add_right _ 2) ?_ (by decide)
    · rw [haccount]
      exact hreplies
    · rw [haccount]
    · simp [hunread]
    · rw [haccount, buddySucceeds_append_of (by simp)]
      exact h.lost
  · have hread : coordTop.read .segAllocRet v.st r addr = ({ v.st with
        init := { v.st.init with buddyStart := r.addrLen, state := .allocTableRet } },
        [.segAllocRet r, .initBuddyAddr (r.addrLen.setWidth 64),
          .buddyAllocReq ⟨BUDDY_ALLOC, addr, tableOrder⟩]) := by
      simp [coordTop, Coord.read, Coord.returned, Init.segRet, hret]
    have haccount : Account.ofTrace (v.out ++ [.segAllocRet r,
        .initBuddyAddr (r.addrLen.setWidth 64), .buddyAllocReq ⟨BUDDY_ALLOC, addr, tableOrder⟩])
        = { Account.ofTrace v.out with
          blockAsked := some tableOrder, obtained := [.segment r.addrLen] } := by
      simp [Account.ofTrace_append, Account.enter, hret, hobtained, hasked]
    rw [hread]
    refine h.advances (.allocTableRet hstate rfl ?_ ?_) rfl ?_ ?_ (Nat.le_refl _) ?_ (by decide)
    · rw [haccount]
      exact hreplies
    · rw [haccount]
      exact List.cons_ne_nil _ _
    · rw [haccount]
    · simp [hunread]
    · rw [haccount, buddySucceeds_append_of (by simp)]
      exact h.lost

theorem Coord.read_refused {s : Coord}
    (hinit : s.init.state = .allocTableRet ∨ s.init.state = .allocMetaRet) {r : BuddyAllocRet}
    (hstat : r.stat = BUDDY_FAILED) (addr : BitVec 32) :
    coordTop.read .buddyAllocRet s r addr
      = ({ s with init := { s.init with state := .allocSeg }, state := .idle },
        [.buddyAllocRet r, .ctrlOut ⟨0, .failed⟩]) := by
  obtain hinit | hinit := hinit
  · simp [coordTop, Coord.read, Coord.returned, Init.buddyRet, hinit, hstat]
  · simp [coordTop, Coord.read, Coord.returned, Init.buddyRet, hinit, hstat]

theorem Inv.buddy_refused (h : Inv inits segs buddies v 0 buddyDue calls)
    (hinit : v.st.init.state = .allocTableRet ∨ v.st.init.state = .allocMetaRet)
    (hreplies : (Account.ofTrace v.out).inits = (Account.ofTrace v.out).replies + 1)
    (hobtained : (Account.ofTrace v.out).obtained ≠ []) (hwants : v.st.wants = some .buddyAllocRet)
    {r : BuddyAllocRet} {rs : List BuddyAllocRet} (hunread : v.unread .buddyAllocRet = r :: rs)
    (hstat : r.stat = BUDDY_FAILED) (hbuddy : 0 < buddyDue) (hcalls : 0 < calls)
    (addr : BitVec 32) :
    Advances inits segs buddies v (coordTop.next v addr) calls := by
  have haccount : Account.ofTrace (v.out ++ [.buddyAllocRet r, .ctrlOut ⟨0, .failed⟩])
      = { Account.ofTrace v.out with
        replies := (Account.ofTrace v.out).replies + 1
        lost := (Account.ofTrace v.out).lost ++ (Account.ofTrace v.out).obtained } := by
    cases hasked : (Account.ofTrace v.out).blockAsked with
    | none => simp [Account.ofTrace_append, Account.enter, hasked]
    | some order => simp [Account.ofTrace_append, Account.enter, hasked, hstat]
  rw [next_of_cons hwants hunread addr, Coord.read_refused hinit hstat]
  refine h.advances (.idle rfl rfl ?_) rfl ?_ rfl ?_ ?_ hcalls
  · rw [haccount]
    exact hreplies
  · rw [haccount]
  · simp [hunread]
    omega
  · -- `init` has returned without a request to give anything back
    rw [haccount]
    refine iff_of_false (fun hnil ↦ hobtained (List.append_eq_nil_iff.mp hnil).2) fun hsucc ↦ ?_
    exact hsucc r (by simp) hstat

theorem Inv.next_allocTableRet (h : Inv inits segs buddies v 0 2 2) (hstate : v.st.state = .init)
    (hinit : v.st.init.state = .allocTableRet)
    (hreplies : (Account.ofTrace v.out).inits = (Account.ofTrace v.out).replies + 1)
    (hobtained : (Account.ofTrace v.out).obtained ≠ [])
    (hfin : ¬coordTop.Finished v) (addr : BitVec 32) :
    Advances inits segs buddies v (coordTop.next v addr) 2 := by
  have hwants : coordTop.wants v.st = some .buddyAllocRet := by
    simp [coordTop, Coord.wants, hstate, hinit]
  obtain ⟨r, rs, hunread⟩ := exists_unread hwants hfin
  by_cases hstat : r.stat = BUDDY_FAILED
  · exact h.buddy_refused (Or.inl hinit) hreplies hobtained hwants hunread hstat (by decide)
      (by decide) addr
  · have hread : coordTop.read .buddyAllocRet v.st r addr = ({ v.st with
        init := { v.st.init with tableBaseAddr := r.addr, state := .allocMetaRet } },
        [.buddyAllocRet r, .initTblAddr r.addr,
          .buddyAllocReq ⟨BUDDY_ALLOC, addr, metaOrder⟩]) := by
      simp [coordTop, Coord.read, Coord.returned, Init.buddyRet, hinit, hstat]
    have haccount : ∃ obtained blockAsked, obtained ≠ [] ∧ Account.ofTrace (v.out ++
        [.buddyAllocRet r, .initTblAddr r.addr, .buddyAllocReq ⟨BUDDY_ALLOC, addr, metaOrder⟩])
        = { Account.ofTrace v.out with obtained, blockAsked } := by
      rw [Account.ofTrace_append]
      exact ⟨_, _, Account.obtained_buddyAllocRet hobtained r, Account.enter_buddyAllocReq ..⟩
    obtain ⟨obtained, blockAsked, hne, haccount⟩ := haccount
    rw [next_of_cons hwants hunread addr, hread]
    refine h.advances (.allocMetaRet hstate rfl ?_ ?_) rfl ?_ rfl ?_ ?_ (by decide)
    · rw [haccount]
      exact hreplies
    · rw [haccount]
      exact hne
    · rw [haccount]
    · simp [hunread]
    · rw [haccount, buddySucceeds_append_cons hstat (by simp)]
      exact h.lost

theorem Inv.next_allocMetaRet (h : Inv inits segs buddies v 0 1 1) (hstate : v.st.state = .init)
    (hinit : v.st.init.state = .allocMetaRet)
    (hreplies : (Account.ofTrace v.out).inits = (Account.ofTrace v.out).replies + 1)
    (hobtained : (Account.ofTrace v.out).obtained ≠ [])
    (hfin : ¬coordTop.Finished v) (addr : BitVec 32) :
    Advances inits segs buddies v (coordTop.next v addr) 1 := by
  have hwants : coordTop.wants v.st = some .buddyAllocRet := by
    simp [coordTop, Coord.wants, hstate, hinit]
  obtain ⟨r, rs, hunread⟩ := exists_unread hwants hfin
  by_cases hstat : r.stat = BUDDY_FAILED
  · exact h.buddy_refused (Or.inr hinit) hreplies hobtained hwants hunread hstat (by decide)
      (by decide) addr
  · have hread : coordTop.read .buddyAllocRet v.st r addr = ({ v.st with
        init := { v.st.init with heapMetaStart := r.addr, state := .allocSeg }, state := .idle },
        [.buddyAllocRet r, .initHeapAddr (r.addr.setWidth 64), .ctrlOut ⟨0, .success⟩]) := by
      simp [coordTop, Coord.read, Coord.returned, Init.buddyRet, hinit, hstat]
    have haccount : ∃ obtained, Account.ofTrace (v.out ++
        [.buddyAllocRet r, .initHeapAddr (r.addr.setWidth 64), .ctrlOut ⟨0, .success⟩])
        = { Account.ofTrace v.out with
          obtained, replies := (Account.ofTrace v.out).replies + 1 } := by
      rw [Account.ofTrace_append]
      exact ⟨_, rfl⟩
    obtain ⟨obtained, haccount⟩ := haccount
    rw [next_of_cons hwants hunread addr, hread]
    refine h.advances (.idle rfl rfl ?_) rfl ?_ rfl ?_ ?_ (by decide)
    · rw [haccount]
      exact hreplies
    · rw [haccount]
    · simp [hunread]
    · rw [haccount, buddySucceeds_append_cons hstat (by simp)]
      exact h.lost

/-- **A call**, where the coordinator has something to do. -/
theorem Inv.next (h : Inv inits segs buddies v segDue buddyDue calls)
    (hfin : ¬coordTop.Finished v) (addr : BitVec 32) :
    Advances inits segs buddies v (coordTop.next v addr) calls := by
  cases h.stage with
  | idle hstate hinit hreplies => exact h.next_idle hstate hinit hreplies hfin addr
  | allocSeg hstate hinit hreplies hobtained =>
    exact h.next_allocSeg hstate hinit hreplies hobtained addr
  | allocSegRet hstate hinit hreplies hobtained hasked =>
    exact h.next_allocSegRet hstate hinit hreplies hobtained hasked hfin addr
  | allocTableRet hstate hinit hreplies hobtained =>
    exact h.next_allocTableRet hstate hinit hreplies hobtained hfin addr
  | allocMetaRet hstate hinit hreplies hobtained =>
    exact h.next_allocMetaRet hstate hinit hreplies hobtained hfin addr

end

/-! ## The run -/

/-- The invariant in some stage. -/
def Invariant (inits segs buddies : ℕ) (v : View Port.Unit Coord Event) : Prop :=
  ∃ segDue buddyDue calls, Inv inits segs buddies v segDue buddyDue calls

section

variable {inits : List (BitVec 32)} {segs : List AllocSegOut} {buddies : List BuddyAllocRet}

theorem Invariant.next {inits segs buddies : ℕ} {v : View Port.Unit Coord Event}
    (h : Invariant inits segs buddies v) (addr : BitVec 32) :
    Invariant inits segs buddies (coordTop.next v addr) := by
  obtain ⟨segDue, buddyDue, calls, hinv⟩ := h
  by_cases hfin : coordTop.Finished v
  · rw [next_of_finished hfin]
    exact ⟨_, _, _, hinv⟩
  · obtain ⟨_, _, _, hinv', -⟩ := hinv.next hfin addr
    exact ⟨_, _, _, hinv'⟩

theorem invariant_run (inits : List (BitVec 32)) (segs : List AllocSegOut)
    (buddies : List BuddyAllocRet) (ts : List (Turn Port (BitVec 32))) :
    Invariant inits.length segs.length buddies.length (coordRun inits segs buddies ts).view := by
  refine view_invariant (Invariant _ _ _) (fun _ addr h ↦ h.next addr) ⟨0, 0, 0, ?_⟩ ts
  refine ⟨.idle rfl rfl rfl, ?_, ?_, ?_, ?_, ?_⟩
  · intro c hc
    obtain ⟨len, -, rfl⟩ := List.mem_map.mp hc
    rfl
  · exact (Nat.zero_add _).trans (List.length_map _)
  · rfl
  · exact Nat.le_refl _
  · exact iff_of_true rfl fun r hr ↦ absurd hr List.not_mem_nil

/-- An upper bound of the calls that are still to come. -/
def remaining (v : View Port.Unit Coord Event) : ℕ :=
  v.st.callsLeft + 5 * (v.unread .ctrlIn).length

theorem Stage.calls_eq {s : Coord} {a : Account} {segDue buddyDue calls : ℕ}
    (h : Stage s a segDue buddyDue calls) : calls = s.callsLeft := by
  cases h with
  | idle hstate => rw [Coord.callsLeft, hstate]
  | allocSeg hstate hinit => rw [Coord.callsLeft, hstate, hinit]
  | allocSegRet hstate hinit => rw [Coord.callsLeft, hstate, hinit]
  | allocTableRet hstate hinit => rw [Coord.callsLeft, hstate, hinit]
  | allocMetaRet hstate hinit => rw [Coord.callsLeft, hstate, hinit]

theorem Invariant.remaining_next {inits segs buddies : ℕ} {v : View Port.Unit Coord Event}
    (h : Invariant inits segs buddies v) (hfin : ¬coordTop.Finished v) (addr : BitVec 32) :
    remaining (coordTop.next v addr) < remaining v := by
  obtain ⟨_, _, _, hinv⟩ := h
  obtain ⟨_, _, _, hinv', hlt⟩ := hinv.next hfin addr
  rw [remaining, remaining, ← hinv.stage.calls_eq, ← hinv'.stage.calls_eq]
  exact hlt

/-- If there are answers for all requests, then the coordinator is finished only when it has
answered all commands. -/
theorem Invariant.replies_of_finished {inits segs buddies : ℕ} {v : View Port.Unit Coord Event}
    (h : Invariant inits segs buddies v) (hsegs : inits ≤ segs) (hbuddies : 2 * inits ≤ buddies)
    (hfin : coordTop.Finished v) : (Account.ofTrace v.out).replies = inits := by
  obtain ⟨_, _, _, hstage, -, hinits, hsegs', hbuddies', -⟩ := h
  obtain ⟨p, hwants, hunread⟩ := hfin
  rw [coordTop] at hwants
  cases hstage with
  | idle hstate hinit hreplies =>
    obtain rfl : Port.ctrlIn = p := by simpa [Coord.wants, hstate] using hwants
    rw [hunread, List.length_nil] at hinits
    omega
  | allocSeg hstate hinit => simp [Coord.wants, hstate, hinit] at hwants
  | allocSegRet hstate hinit =>
    obtain rfl : Port.segAllocRet = p := by simpa [Coord.wants, hstate, hinit] using hwants
    rw [hunread, List.length_nil] at hsegs'
    omega
  | allocTableRet hstate hinit =>
    obtain rfl : Port.buddyAllocRet = p := by simpa [Coord.wants, hstate, hinit] using hwants
    rw [hunread, List.length_nil] at hbuddies'
    omega
  | allocMetaRet hstate hinit =>
    obtain rfl : Port.buddyAllocRet = p := by simpa [Coord.wants, hstate, hinit] using hwants
    rw [hunread, List.length_nil] at hbuddies'
    omega

theorem Stage.inits_eq {s : Coord} {a : Account} {segDue buddyDue calls : ℕ}
    (h : Stage s a segDue buddyDue calls) :
    a.inits = a.replies + if s.state = .idle then 0 else 1 := by
  cases h with
  | idle hstate _ hreplies => rw [if_pos hstate]; exact hreplies
  | allocSeg hstate _ hreplies => simp [hstate, hreplies]
  | allocSegRet hstate _ hreplies => simp [hstate, hreplies]
  | allocTableRet hstate _ hreplies => simp [hstate, hreplies]
  | allocMetaRet hstate _ hreplies => simp [hstate, hreplies]

/-- **Failing commands.** For every sequence of INIT commands, whatever the allocators answer, and
under every schedule: the failing commands keep nothing exactly if the buddy allocator has refused
nothing. -/
theorem holdsNothing_iff (inits : List (BitVec 32)) (segs : List AllocSegOut)
    (buddies : List BuddyAllocRet) (ts : List (Turn Port (BitVec 32))) :
    HoldsNothing inits segs buddies ts ↔ BuddySucceeds (coordRun inits segs buddies ts).out := by
  have hinv := invariant_run inits segs buddies ts
  obtain ⟨_, _, _, hstage, -, -, -, -, hlost⟩ := invariant_run inits segs buddies ts
  refine ⟨fun h ↦ hlost.mp h.lost, fun h ↦ ⟨hlost.mpr h, hstage.inits_eq, ?_⟩⟩
  intro hsegs hbuddies harrived
  refine ⟨remaining (coordRun inits segs buddies ts).view, fun addrs hlen ↦ ?_⟩
  have hinv' := invariant_run inits segs buddies (ts ++ addrs.map .call)
  refine hinv'.replies_of_finished hsegs hbuddies ?_
  rw [coordRun, run_append, ← coordRun, view_calls harrived]
  exact finished_of_measure (Invariant _ _ _) remaining (fun _ addr h ↦ h.next addr)
    (fun _ addr h hfin ↦ h.remaining_next hfin addr) hinv hlen

/-- The segment is obtained, and the block for the mapping table is not. -/
def tableRefused : List (Turn Port (BitVec 32)) :=
  [.arrive .ctrlIn, .arrive .segAllocRet, .arrive .buddyAllocRet, .call 0, .call 0, .call 0,
    .call 0]

/-- The segment is lost. -/
theorem not_holdsNothing_tableRefused :
    ¬HoldsNothing [0] [⟨0x40000000, 0⟩] [⟨BUDDY_FAILED, 0⟩] tableRefused := by
  intro h
  exact absurd h.lost (by decide)

end

end FpgaOs.Paging
