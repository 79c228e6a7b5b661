import FpgaOs.Mapping.Pipelined

/-!
# Pipelining is invisible

Whatever the schedule, the pipeline answers as if its requests were served one at a time, in the
order in which `remux` took them. In every state the replies on a channel are the first ones of this
sequence of replies; when nothing is left to be done they are all of it, and the memories hold the
tables that the sequence leaves.
-/

namespace FpgaOs.Mapping

open Linked PipelineInfo Pipe

/-! ## Requests and replies of a channel -/

/-- The replies when the requests are served one at a time. -/
def Tables.replies (e : Env) : Tables → List Call → List (Channel × Option MappingReply)
  | _, [] => []
  | t, q :: qs => (q.1, (t.serve e q.1 q.2).2) :: Tables.replies e (t.step e q) qs

/-- The requests that `remux` has not taken. -/
def Pipe.requests (s : Pipe) : Channel → List MappingRequest
  | .read => s.rdRequest
  | .write => s.wrRequest

def Pipe.replies (s : Pipe) : Channel → List MappingReply
  | .read => s.rdReply
  | .write => s.wrReply

/-- A request that arrives. -/
def Pipe.Action.arrival : Action → Option Call
  | .arriveRd req => some (.read, req)
  | .arriveWr req => some (.write, req)
  | _ => none

/-- The requests that arrive on a channel in the course of a schedule. -/
def arrivals (ch : Channel) (as : List Action) : List MappingRequest :=
  onChannel ch (as.filterMap Action.arrival)

section Intake

variable (e : Env) (s : Pipe)

/-- What `remux` and the arrivals change. -/
def Pipe.intake : List Call × List MappingRequest × List MappingRequest :=
  (s.accepted, s.rdRequest, s.wrRequest)

theorem intake_fillS1 : (s.fillS1 e).intake = s.intake := by fun_cases Pipe.fillS1 e s <;> rfl

theorem intake_fillS2 : (s.fillS2 e).intake = s.intake := by fun_cases Pipe.fillS2 e s <;> rfl

theorem intake_readBram : s.readBram.intake = s.intake := by fun_cases Pipe.readBram s <;> rfl

theorem intake_addressReservationTable : s.addressReservationTable.intake = s.intake := by
  have hpop : s.servePop.intake = s.intake := by fun_cases Pipe.servePop s <;> rfl
  rw [← hpop, addressReservationTable]
  fun_cases Pipe.serveResv s.servePop <;> rfl

theorem intake_demux : s.demux.intake = s.intake := by fun_cases Pipe.demux s <;> rfl

theorem intake_cases (a : Action) :
    (∃ req, a = .arriveRd req) ∨ (∃ req, a = .arriveWr req) ∨ a = .remux
      ∨ a.arrival = none ∧ (s.step e a).intake = s.intake := by
  cases a with
  | arriveRd req => exact .inl ⟨req, rfl⟩
  | arriveWr req => exact .inr (.inl ⟨req, rfl⟩)
  | remux => exact .inr (.inr (.inl rfl))
  | computeHash =>
    refine .inr (.inr (.inr ⟨rfl, ?_⟩))
    rw [Pipe.step, Pipe.computeHash]
    split <;> rfl
  | readBram => exact .inr (.inr (.inr ⟨rfl, intake_readBram s⟩))
  | compareBram =>
    refine .inr (.inr (.inr ⟨rfl, ?_⟩))
    rw [Pipe.step, Pipe.compareBram]
    split <;> rfl
  | fillS1 => exact .inr (.inr (.inr ⟨rfl, intake_fillS1 e s⟩))
  | fillS2 => exact .inr (.inr (.inr ⟨rfl, intake_fillS2 e s⟩))
  | demux => exact .inr (.inr (.inr ⟨rfl, intake_demux s⟩))
  | addressReservationTable => exact .inr (.inr (.inr ⟨rfl, intake_addressReservationTable s⟩))
  | execBram => exact .inr (.inr (.inr ⟨rfl, rfl⟩))
  | execDram => exact .inr (.inr (.inr ⟨rfl, rfl⟩))
  | answerAlloc =>
    refine .inr (.inr (.inr ⟨rfl, ?_⟩))
    rw [Pipe.step, Pipe.answerAlloc]
    split <;> rfl

theorem accepted_step (a : Action) : s.accepted <+: (s.step e a).accepted := by
  obtain ⟨req, rfl⟩ | ⟨req, rfl⟩ | rfl | ⟨-, hsame⟩ := intake_cases e s a
  · exact List.prefix_rfl
  · exact List.prefix_rfl
  · rw [Pipe.step]
    fun_cases Pipe.remux s
    · exact List.prefix_append _ _
    · exact List.prefix_append _ _
    · exact List.prefix_rfl
  · rw [(Prod.mk.inj hsame).1]

theorem arrivals_concat (ch : Channel) (as : List Action) (a : Action) :
    arrivals ch (as ++ [a]) = arrivals ch as ++ arrivals ch [a] := by
  rw [arrivals, List.filterMap_append, onChannel, List.filterMap_append]
  rfl

/-- Requests are taken in the order in which they arrive. -/
theorem requests_step (a : Action) (ch : Channel) :
    onChannel ch (s.step e a).accepted ++ (s.step e a).requests ch
      = onChannel ch s.accepted ++ s.requests ch ++ arrivals ch [a] := by
  obtain ⟨req, rfl⟩ | ⟨req, rfl⟩ | rfl | ⟨hnone, hsame⟩ := intake_cases e s a
  · cases ch with
    | read => exact (List.append_assoc _ _ _).symm
    | write => exact (List.append_nil _).symm
  · cases ch with
    | read => exact (List.append_nil _).symm
    | write => exact (List.append_assoc _ _ _).symm
  -- `remux` takes from the read channel first; the other channel is untouched
  · have hnone : arrivals ch [.remux] = [] := rfl
    rw [hnone, List.append_nil, Pipe.step]
    fun_cases Pipe.remux s
    · next req rest hreq =>
      rw [onChannel_concat]
      cases ch with
      | read =>
        rw [if_pos rfl, requests, requests, hreq, List.append_assoc]
        rfl
      | write =>
        rw [if_neg nofun, List.append_nil]
        rfl
    · next req rest hreq =>
      rw [onChannel_concat]
      cases ch with
      | read =>
        rw [if_neg nofun, List.append_nil]
        rfl
      | write =>
        rw [if_pos rfl, requests, requests, hreq, List.append_assoc]
        rfl
    · rfl
  · have harr : arrivals ch [a] = [] := by
      rw [arrivals, List.filterMap_cons_none hnone]
      rfl
    obtain ⟨haccepted, hrequests⟩ := Prod.mk.inj hsame
    obtain ⟨hrd, hwr⟩ := Prod.mk.inj hrequests
    rw [harr, List.append_nil, haccepted]
    cases ch with
    | read => exact congrArg _ hrd
    | write => exact congrArg _ hwr

end Intake

section Run

variable {e : Env} {t : Tables}

theorem requests_run (as : List Action) (ch : Channel) :
    onChannel ch (Machine.run (Pipe.step e) (Pipe.init t) as).accepted
      ++ (Machine.run (Pipe.step e) (Pipe.init t) as).requests ch = arrivals ch as := by
  induction as using List.reverseRecOn with
  | nil => cases ch <;> rfl
  | append_singleton as a ih => rw [Machine.run_concat, requests_step, ih, arrivals_concat]

theorem Follows.mono {Q : ℕ → Call} {l l' : List Call} (h : Follows Q l') (hle : l <+: l') :
    Follows Q l := by
  obtain ⟨rest, rfl⟩ := hle
  intro k q hq
  apply h
  rw [List.getElem?_append_left (List.getElem?_eq_some_iff.mp hq).1, hq]

variable (hinit : t.Initial e) (hfresh : ∀ n, e.Fresh n)

include hinit hfresh

theorem Inv.run_of_follows {Q : ℕ → Call} (as : List Action)
    (hQ : Follows Q (Machine.run (Pipe.step e) (Pipe.init t) as).accepted) :
    ∃ c, Inv e t Q c (Machine.run (Pipe.step e) (Pipe.init t) as) := by
  induction as using List.reverseRecOn with
  | nil => exact ⟨_, Inv.init hinit⟩
  | append_singleton as a ih =>
    rw [Machine.run_concat] at hQ ⊢
    obtain ⟨c, hc⟩ := ih (hQ.mono (accepted_step e _ a))
    exact hc.step hinit hfresh a hQ

/-- **The run lemma.** -/
theorem Inv.run (as : List Action) :
    ∃ Q c, Inv e t Q c (Machine.run (Pipe.step e) (Pipe.init t) as) := by
  refine ⟨fun k ↦ (Machine.run (Pipe.step e) (Pipe.init t) as).accepted.getD k (.read, ⟨0, 0, 0⟩),
    Inv.run_of_follows hinit hfresh as ?_⟩
  intro k q hq
  dsimp only
  rw [List.getD_eq_getElem?_getD, hq]
  rfl

end Run

/-! ## The sequence of replies -/

section Replies

variable {e : Env} {t : Tables} {Q : ℕ → Call}

theorem run_window (n : ℕ) : Machine.run (Tables.step e) t (window Q 0 n) = tables e t Q n := by
  induction n with
  | zero => rfl
  | succ n ih => rw [window_concat (Nat.zero_le n), Machine.run_concat, ih, tables]

theorem replies_concat (t : Tables) (qs : List Call) (q : Call) :
    t.replies e (qs ++ [q])
      = t.replies e qs ++ [(q.1, ((Machine.run (Tables.step e) t qs).serve e q.1 q.2).2)] := by
  induction qs generalizing t with
  | nil => rfl
  | cons q' qs ih =>
    rw [List.cons_append, Tables.replies, ih]
    rfl

theorem length_replies (t : Tables) (qs : List Call) (ch : Channel) :
    (onChannel ch (t.replies e qs)).length = (onChannel ch qs).length := by
  induction qs generalizing t with
  | nil => rfl
  | cons q qs ih =>
    rw [Tables.replies, onChannel_cons, onChannel_cons, List.length_append, List.length_append, ih]
    congr 1
    split <;> rfl

variable (hinit : t.Initial e) (hfresh : ∀ n, e.Fresh n)

include hinit hfresh

theorem replies_window (ch : Channel) (n : ℕ) :
    onChannel ch (t.replies e (window Q 0 n))
      = (onChannel ch (window (replyOf e t Q) 0 n)).map some := by
  induction n with
  | zero => rfl
  | succ n ih =>
    rw [window_concat (Nat.zero_le n), window_concat (Nat.zero_le n), replies_concat,
      onChannel_concat, onChannel_concat, ih, run_window, serve_tables hinit hfresh,
      List.map_append, replyOf]
    congr 1
    split <;> rfl

omit hinit hfresh in
theorem Inv.replies_eq {c : Marks} {s : Pipe} (h : Inv e t Q c s) (ch : Channel) :
    s.replies ch = onChannel ch (window (replyOf e t Q) 0 c.out) := by
  cases ch with
  | read => exact h.rdReply
  | write => exact h.wrReply

theorem Inv.replies_prefix {c : Marks} {s : Pipe} (h : Inv e t Q c s) (ch : Channel) :
    (s.replies ch).map some <+: onChannel ch (t.replies e s.accepted) := by
  have hle : c.out ≤ c.n := h.le_res_of_out.trans (h.le_rd.trans (h.le_hash.trans h.le_n))
  rw [h.accepted, replies_window hinit hfresh, h.replies_eq, ← window_append (Nat.zero_le _) hle]
  exact ((List.prefix_append _ _).filterMap _).map _

omit hinit hfresh in
theorem Inv.marks_eq {c : Marks} {s : Pipe} (h : Inv e t Q c s) (hd : s.Drained) :
    c.out = c.n ∧ c.fin = c.n ∧ s.bram.settled = (tables e t Q c.fin).bram
      ∧ s.dram.settled = (tables e t Q c.fin).dram := by
  have hreadBram := h.readBram
  have hfillS1 := h.fillS1
  have hfillS2 := h.fillS2
  rw [ReadBramInv, hd.readBramState] at hreadBram
  rw [FillS1Inv, hd.fillS1State] at hfillS1
  rw [hd.fillS2State] at hfillS2
  have hhash := (window_eq_nil h.le_n).mp (h.pipelineInfo.symm.trans hd.pipelineInfo)
  have hrd := (window_eq_nil h.le_hash).mp (h.hashToCompare.symm.trans hd.hashToCompare)
  have hcmp := (window_eq_nil (h.le_rb.trans (h.le_res.trans h.le_rd))).mp
    (h.readToCompare.symm.trans hd.readToCompare)
  have hs1 := (window_eq_nil h.le_cmp).mp (h.compareToFillS1.symm.trans hd.compareToFillS1)
  have hs2 := (window_eq_nil h.le_s1out).mp (h.fillS1ToFillS2.symm.trans hd.fillS1ToFillS2)
  have hout := (window_eq_nil h.le_fin).mp (h.fillS2ToOut.symm.trans hd.fillS2ToOut)
  obtain ⟨hs1out, -⟩ := hfillS1
  obtain ⟨hfin, hm⟩ := hfillS2
  refine ⟨by omega, by omega, congrArg Tables.bram hm, congrArg Tables.dram hm⟩

theorem Inv.replies_of_drained {c : Marks} {s : Pipe} (h : Inv e t Q c s) (hd : s.Drained)
    (ch : Channel) :
    (s.replies ch).map some = onChannel ch (t.replies e s.accepted) := by
  rw [h.accepted, replies_window hinit hfresh, h.replies_eq, (h.marks_eq hd).1]

omit hinit hfresh in
theorem Inv.cells_of_drained {c : Marks} {s : Pipe} (h : Inv e t Q c s) (hd : s.Drained) :
    s.bram.cells = (Machine.run (Tables.step e) t s.accepted).bram
      ∧ s.dram.cells = (Machine.run (Tables.step e) t s.accepted).dram := by
  obtain ⟨-, hfin, hbram, hdram⟩ := h.marks_eq hd
  rw [h.accepted, run_window, ← hfin, ← hbram, ← hdram, Port.settled_of_cmds_nil hd.bram,
    Port.settled_of_cmds_nil hd.dram]
  exact ⟨rfl, rfl⟩

end Replies

end FpgaOs.Mapping
