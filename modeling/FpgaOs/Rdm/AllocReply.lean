import FpgaOs.Lib.Machine
import FpgaOs.Rdm.Stages
import Mathlib.Data.List.Forall2

/-!
# The reply to an allocation

An `ALLOC` needs two services: the allocator gives it a block, and the mapping sets the address of
the block. `alloc_address` records the first outcome and `map` the second, each in its own field of
the request. `access` chooses the reply by the first one only, so it reports an allocation as
successful whose `SET` has been refused.

`WithAnswers` is the service beside what `map` has read from the mapping for each request. The units
that arrive are arbitrary here, and so are the answers of the services and the schedule.
-/

namespace FpgaOs.Rdm

open BitField Mapping Service

/-- A question to the mapping, and the answer that `map` has read. -/
abbrev MapAnswer := MappingRequest × MappingReply

/-- The service, with the answers for the requests that are on their way to `access`, and for the
one that `access` is at. -/
structure WithAnswers where
  svc : Service
  toAccess : List (Option MapAnswer)
  current : Option MapAnswer

namespace WithAnswers

def init (input : List NetAxis) : WithAnswers := ⟨Service.init input, [], none⟩

/-- What `map` has read for the request that it hands on. -/
def mapped (s : Service) : List (Option MapAnswer) :=
  match s.mapSt.state with
  | .idle =>
    match s.piAllocToMap with
    | pi :: _ => if pi.skipsMap then [none] else []
    | [] => []
  | .waitMap =>
    match s.mapping.rets with
    | ret :: _ => [some (s.mapSt.pi.mapRequest, ret)]
    | [] => []
  | .stream => []

def step (e : Env) (t : WithAnswers) (a : Action) : WithAnswers :=
  match a with
  | .map => ⟨t.svc.map, t.toAccess ++ mapped t.svc, t.current⟩
  | .access =>
    match t.svc.accessSt.state, t.svc.piMapToAccess with
    | .idle, _ :: _ => ⟨t.svc.access, t.toAccess.tail, t.toAccess.head?.join⟩
    | _, _ => { t with svc := t.svc.access }
  | a => { t with svc := t.svc.step e a }

/-- The answers have no influence on the service. -/
theorem svc_step (e : Env) (t : WithAnswers) (a : Action) : (t.step e a).svc = t.svc.step e a := by
  cases a with
  | access =>
    rw [step]
    split <;> rfl
  | _ => rfl

/-- The `SET` of the address has been answered with success. -/
def SetSucceeded (t : WithAnswers) (va : BitVec 64) : Prop :=
  ∃ req ret, t.current = some (req, ret) ∧ req.opcode = mappingSet ∧ req.address = va.setWidth 32
    ∧ ret.status = 0

/-- `access` is about to send the reply to an `ALLOC`. -/
def RepliesAlloc (t : WithAnswers) (a : Action) : Prop :=
  a = .access ∧ t.svc.accessSt.state = .outApp ∧ t.svc.accessSt.pi.opcode = opcodeAlloc

/-- A reply that reports success carries an address whose `SET` has succeeded; any other reply
reports an error, and then no `SET` has succeeded. -/
def Honest (t : WithAnswers) (a : Action) : Prop :=
  t.RepliesAlloc a → ∃ h, t.svc.access.dAccessToReply = t.svc.dAccessToReply ++ [h]
    ∧ (h.opcode = opcodeReplyAlloc ∧ t.SetSucceeded h.address
      ∨ h.opcode = opcodeReplyAllocError ∧ ¬∃ va, t.SetSucceeded va)

/-- The mapping has not refused the `SET` of the `ALLOC`. -/
def SetAnswered (t : WithAnswers) (a : Action) : Prop :=
  t.RepliesAlloc a → ∀ req ret, t.current = some (req, ret) → ret.status = 0

/-! ## The invariant -/

/-- An `ALLOC` that got a block has asked for its `SET`; one that did not has asked for nothing. -/
structure Matches (pi : PipelineInfo) (answer : Option MapAnswer) : Prop where
  granted : pi.opcode = opcodeAlloc → pi.allocStatus = piAllocSucceed →
    ∃ ret, answer = some (pi.mapRequest, ret)
  refused : pi.opcode = opcodeAlloc → pi.allocStatus ≠ piAllocSucceed → answer = none

structure Inv (t : WithAnswers) : Prop where
  waiting : t.svc.mapSt.state = .waitMap → t.svc.mapSt.pi.skipsMap = false
  toAccess : List.Forall₂ Matches t.svc.piMapToAccess t.toAccess
  current : t.svc.accessSt.state = .outApp → Matches t.svc.accessSt.pi t.current

section Steps

variable {e : Env} {t : WithAnswers} {pi : PipelineInfo}

theorem inv_init (input : List NetAxis) : (init input).Inv := ⟨nofun, .nil, nofun⟩

theorem skipsMap_iff :
    pi.skipsMap = true ↔ pi.opcode = opcodeAlloc ∧ pi.allocStatus ≠ piAllocSucceed := by
  rw [PipelineInfo.skipsMap, Bool.and_eq_true, beq_iff_eq, bne_iff_ne]

theorem matches_none (h : pi.skipsMap = true) : Matches pi none := by
  obtain ⟨-, hfail⟩ := skipsMap_iff.mp h
  exact ⟨fun _ hok ↦ absurd hok hfail, fun _ _ ↦ rfl⟩

theorem matches_translate (h : pi.skipsMap = false) (ret : MappingReply) :
    Matches (pi.translate ret) (some (pi.mapRequest, ret)) := by
  have hreq : (pi.translate ret).mapRequest = pi.mapRequest := by
    rw [PipelineInfo.translate]
    split_ifs <;> rfl
  have hop : (pi.translate ret).opcode = pi.opcode := by
    rw [PipelineInfo.translate]
    split_ifs <;> rfl
  have halloc : (pi.translate ret).allocStatus = pi.allocStatus := by
    rw [PipelineInfo.translate]
    split_ifs <;> rfl
  refine ⟨fun _ _ ↦ ⟨ret, by rw [hreq]⟩, fun halloc' hfail ↦ ?_⟩
  rw [hop] at halloc'
  rw [halloc] at hfail
  have hskips := skipsMap_iff.mpr ⟨halloc', hfail⟩
  rw [h] at hskips
  cases hskips

/-- What only `map` and `access` have a part in. -/
def replyPath (s : Service) : MapStage × List PipelineInfo × Access :=
  (s.mapSt, s.piMapToAccess, s.accessSt)

theorem replyPath_dramRdPipe (s : Service) : replyPath s.dramRdPipe = replyPath s := by
  obtain ⟨_, _, _, _, _, hstep⟩ := s.exists_dramRdPipe
  rw [hstep]
  rfl

theorem replyPath_step (s : Service) {a : Action} (hmap : a ≠ .map) (haccess : a ≠ .access) :
    replyPath (s.step e a) = replyPath s := by
  cases a with
  | arrive => rw [Service.step]; fun_cases Service.arrive s <;> rfl
  | buffering => rw [Service.step]; fun_cases Service.buffering s <;> rfl
  | parser => rw [Service.step]; fun_cases Service.parser s <;> rfl
  | allocAddress => rw [Service.step]; fun_cases Service.allocAddress s <;> rfl
  | map => exact absurd rfl hmap
  | access => exact absurd rfl haccess
  | reply => rw [Service.step, Service.reply]; split <;> rfl
  | dramRdPipe => exact replyPath_dramRdPipe s
  | dramWrPipe =>
    rw [Service.step, Service.dramWrPipe]
    cases s.wrPipeSt.state with
    | idle => cases s.fifoWrCmd <;> rfl
    | stream => cases s.fifoWrData <;> rfl
  | answerAlloc => rfl
  | answerMap => rfl
  | dramTake => rw [Service.step]; fun_cases Service.dramTake s e <;> rfl
  | dramDeliver => rw [Service.step]; fun_cases Service.dramDeliver s <;> rfl
  | rdStatus status => rfl
  | wrStatus status => rfl

theorem Inv.carry (h : t.Inv) {s : Service} (hpath : replyPath s = replyPath t.svc) :
    Inv { t with svc := s } := by
  obtain ⟨hmap, hrest⟩ := Prod.mk.inj hpath
  obtain ⟨hto, haccess⟩ := Prod.mk.inj hrest
  refine ⟨?_, ?_, ?_⟩
  · dsimp only
    rw [hmap]
    exact h.waiting
  · dsimp only
    rw [hto]
    exact h.toAccess
  · dsimp only
    rw [haccess]
    exact h.current

theorem Inv.map (h : t.Inv) : (t.step e .map).Inv := by
  have hto := h.toAccess
  rw [step]
  cases hst : t.svc.mapSt.state with
  | idle =>
    cases hpi : t.svc.piAllocToMap with
    | nil =>
      have hmapped : mapped t.svc = [] := by rw [mapped, hst, hpi]
      have hsvc : t.svc.map = t.svc := by rw [Service.map, hst, hpi]
      rw [hmapped, hsvc, List.append_nil]
      exact h
    | cons pi rest =>
      cases hskips : pi.skipsMap with
      | true =>
        have hmapped : mapped t.svc = [none] := by
          simp only [mapped, hst, hpi, hskips, if_true]
        rw [hmapped, Service.map, hst, hpi]
        dsimp only
        rw [hskips]
        refine ⟨fun hwait ↦ ?_, ?_, h.current⟩
        · rw [hst] at hwait
          cases hwait
        · exact List.rel_append hto (.cons (matches_none hskips) .nil)
      | false =>
        have hmapped : mapped t.svc = [] := by
          simp only [mapped, hst, hpi, hskips, Bool.false_eq_true, if_false]
        rw [hmapped, List.append_nil, Service.map, hst, hpi]
        dsimp only
        rw [hskips]
        exact ⟨fun _ ↦ hskips, hto, h.current⟩
  | waitMap =>
    have hskips := h.waiting hst
    cases hrets : t.svc.mapping.rets with
    | nil =>
      have hmapped : mapped t.svc = [] := by rw [mapped, hst, hrets]
      have hsvc : t.svc.map = t.svc := by rw [Service.map, hst, hrets]
      rw [hmapped, hsvc, List.append_nil]
      exact h
    | cons ret rest =>
      have hmapped : mapped t.svc = [some (t.svc.mapSt.pi.mapRequest, ret)] := by
        rw [mapped, hst, hrets]
      rw [hmapped, Service.map, hst, hrets]
      refine ⟨fun hwait ↦ ?_, ?_, h.current⟩
      · dsimp only at hwait
        split_ifs at hwait
      · exact List.rel_append hto (.cons (matches_translate hskips ret) .nil)
  | stream =>
    have hmapped : mapped t.svc = [] := by rw [mapped, hst]
    rw [hmapped, List.append_nil, Service.map, hst]
    cases hdata : t.svc.dAllocToMap with
    | nil => exact h
    | cons d rest =>
      refine ⟨fun hwait ↦ ?_, hto, h.current⟩
      dsimp only at hwait
      split_ifs at hwait

theorem Inv.access (h : t.Inv) : (t.step e .access).Inv := by
  have hto := h.toAccess
  cases hst : t.svc.accessSt.state with
  | idle =>
    cases hpi : t.svc.piMapToAccess with
    | nil =>
      have hstep : t.step e .access = t := by
        rw [step, hst, hpi]
        dsimp only
        rw [Service.access, hst, hpi]
      rwa [hstep]
    | cons pi rest =>
      rw [hpi] at hto
      obtain ⟨answer, answers, hmatch, hrest, hanswers⟩ := List.forall₂_cons_left_iff.mp hto
      have hstep : t.step e .access = ⟨{ t.svc with
          piMapToAccess := rest
          accessSt := ⟨.outApp, pi, 0⟩
          dAccessToReply := t.svc.dAccessToReply ++ [pi.ethHeader] }, answers, answer⟩ := by
        rw [step, hst, hpi, hanswers]
        dsimp only
        rw [Service.access, hst, hpi]
        rfl
      rw [hstep]
      exact ⟨h.waiting, hrest, fun _ ↦ hmatch⟩
  | outApp =>
    have hstep : t.step e .access = { t with svc := t.svc.access } := by
      rw [step, hst]
    rw [hstep, Service.access, hst]
    -- the header changes only the fields that nothing depends on
    have hmatch := h.current hst
    exact ⟨h.waiting, hto, fun _ ↦ ⟨hmatch.granted, hmatch.refused⟩⟩
  | read =>
    have hstep : t.step e .access = { t with svc := t.svc.access } := by
      rw [step, hst]
    rw [hstep, Service.access, hst]
    cases hdata : t.svc.fifoRdData with
    | nil => exact h
    | cons data rest =>
      dsimp only
      split_ifs
      · exact ⟨h.waiting, hto, nofun⟩
      · refine ⟨h.waiting, hto, fun hout ↦ ?_⟩
        rw [hst] at hout
        cases hout

theorem Inv.step (h : t.Inv) (a : Action) : (t.step e a).Inv := by
  by_cases hmap : a = .map
  · rw [hmap]
    exact h.map
  by_cases haccess : a = .access
  · rw [haccess]
    exact h.access
  have hstep : t.step e a = { t with svc := t.svc.step e a } := by
    cases a with
    | map => exact absurd rfl hmap
    | access => exact absurd rfl haccess
    | _ => rfl
  rw [hstep]
  exact h.carry (replyPath_step t.svc hmap haccess)

end Steps

/-! ## Which replies are honest -/

section Replies

variable {e : Env} {t : WithAnswers} {a : Action}

/-- The header that `access` sends. -/
theorem access_outApp {s : Service} (h : s.accessSt.state = .outApp) :
    s.access.dAccessToReply = s.dAccessToReply ++ [s.accessSt.pi.replyHeader.1] := by
  rw [Service.access, h]

theorem replyHeader_granted {pi : PipelineInfo} (hop : pi.opcode = opcodeAlloc)
    (hok : pi.allocStatus = piAllocSucceed) :
    pi.replyHeader.1.opcode = opcodeReplyAlloc ∧ pi.replyHeader.1.address = pi.allocVa := by
  rw [PipelineInfo.replyHeader, if_pos hop, if_pos hok]
  simp

theorem replyHeader_refused {pi : PipelineInfo} (hop : pi.opcode = opcodeAlloc)
    (hfail : pi.allocStatus ≠ piAllocSucceed) :
    pi.replyHeader.1.opcode = opcodeReplyAllocError := by
  rw [PipelineInfo.replyHeader, if_pos hop, if_neg hfail]
  simp

/-- **A reply is honest exactly when the mapping has not refused the `SET`.** -/
theorem Inv.honest_iff (h : t.Inv) (a : Action) : t.Honest a ↔ t.SetAnswered a := by
  refine imp_congr_right fun hreplies ↦ ?_
  obtain ⟨-, hst, hop⟩ := hreplies
  have hmatch := h.current hst
  have hsent := access_outApp hst
  constructor
  · rintro ⟨hdr, hhdr, hright⟩ req ret hcurrent
    have hsame : t.svc.accessSt.pi.replyHeader.1 = hdr :=
      List.singleton_inj.mp (List.append_cancel_left (hsent.symm.trans hhdr))
    rcases hright with ⟨-, req', ret', hcurrent', -, -, hstatus⟩ | ⟨herror, -⟩
    · rw [hcurrent'] at hcurrent
      obtain ⟨-, rfl⟩ := Prod.mk.inj (Option.some.inj hcurrent)
      exact hstatus
    · -- an error is reported only if the allocator has refused, and then there is no `SET`
      by_cases hok : t.svc.accessSt.pi.allocStatus = piAllocSucceed
      · have hreply := (replyHeader_granted hop hok).1
        rw [hsame, herror] at hreply
        exact absurd hreply (by decide)
      · rw [hmatch.refused hop hok] at hcurrent
        cases hcurrent
  · intro hanswered
    refine ⟨_, hsent, ?_⟩
    by_cases hok : t.svc.accessSt.pi.allocStatus = piAllocSucceed
    · obtain ⟨hreply, haddress⟩ := replyHeader_granted hop hok
      obtain ⟨ret, hcurrent⟩ := hmatch.granted hop hok
      refine .inl ⟨hreply, t.svc.accessSt.pi.mapRequest, ret, hcurrent, ?_, ?_,
        hanswered _ ret hcurrent⟩
      · rw [PipelineInfo.mapRequest, if_pos hop]
      · rw [PipelineInfo.mapRequest, if_pos hop, haddress]
    · refine .inr ⟨replyHeader_refused hop hok, ?_⟩
      rintro ⟨va, req, ret, hcurrent, -⟩
      rw [hmatch.refused hop hok] at hcurrent
      cases hcurrent

/-- **The reply to an allocation.** Whatever arrives, whatever the services answer and whatever the
schedule, all replies to `ALLOC`s are honest exactly if each of them is sent after a `SET` that was
not refused. -/
theorem alloc_reply_iff (e : Env) (input : List NetAxis) (as : List Action) :
    Machine.Guarded (step e) Honest (init input) as
      ↔ Machine.Guarded (step e) SetAnswered (init input) as :=
  Machine.guarded_iff_of_invariant (fun _ a h _ ↦ h.step a) (fun _ a h ↦ h.honest_iff a)
    (inv_init input)

/-- The allocator gives a block, and the mapping refuses everything. -/
def mappingRefuses : Env where
  alloc _ _ := ⟨0, 0x200⟩
  map _ _ := ⟨1, 0, 0⟩
  dram _ _ _ := 0

/-- The schedule by which one `ALLOC` is served. -/
def oneAlloc : List Action :=
  [.arrive, .buffering, .parser, .arrive, .buffering, .parser, .allocAddress, .answerAlloc,
    .allocAddress, .map, .answerMap, .map, .access]

/-- An `ALLOC` whose `SET` is refused is reported as successful. -/
theorem not_honest_refused :
    ¬Machine.Guarded (step mappingRefuses) Honest
      (init [{}, { header opcodeAlloc 0 64 with last := 1 }]) (oneAlloc ++ [.access]) := by
  intro h
  obtain ⟨-, hlast, -⟩ := Machine.guarded_append.mp h
  have hinv : (Machine.run (step mappingRefuses)
      (init [{}, { header opcodeAlloc 0 64 with last := 1 }]) oneAlloc).Inv :=
    Machine.run_invariant (fun _ a h ↦ h.step a) (inv_init _) oneAlloc
  have hstatus := (hinv.honest_iff .access).mp hlast
    ⟨rfl, by decide +kernel, by decide +kernel⟩ ⟨0x1000, 0x200, mappingSet⟩ ⟨1, 0, 0⟩
    (by decide +kernel)
  exact absurd hstatus (by decide)

end Replies

end WithAnswers

end FpgaOs.Rdm
