import FpgaOs.Mapping.Interleaving

/-!
# The pipeline does not get stuck

From every state that can be reached, some schedule without new requests finishes everything. `todo`
weighs each request by the place where it is, less the further down it is. The stage furthest down
that has something to do can always move a request on: `fill_S1` because the chain it walks along
ends, and `read_bram` because, when nothing is behind it, the reservation table is empty.
-/

namespace FpgaOs.Mapping

open Linked PipelineInfo Pipe

/-! ## What is left to be done -/

def ReadBramState.weight : ReadBramState → ℕ
  | .idle => 0
  | .addrCheck => 1
  | .addrResp => 1

def FillState.weight : FillState → ℕ
  | .idle => 0
  | .sendCmd => 6
  | .readData => 6

def PipelineInfo.AllocState.weight : AllocState → ℕ
  | .idle => 0
  | .recvRet => 4
  | .writeData => 3

/-- The requests that are not finished, each by the number of moves that it may still need. -/
def Pipe.todo (s : Pipe) : ℕ :=
  12 * (s.rdRequest.length + s.wrRequest.length) + 11 * s.pipelineInfo.length
    + 10 * s.hashToCompare.length
    + s.readBramState.weight + 8 * s.readToCompare.length + 7 * s.compareToFillS1.length
    + s.fillS1State.weight + 5 * s.fillS1ToFillS2.length + s.fillS2State.weight
      + 2 * s.fillS2ToOut.length
    + s.addrPopReq.length

/-- No request arrives. -/
def Pipe.Action.Internal (a : Action) : Prop := a.arrival = none

section Calls

variable {e : Env} {s : Pipe}

theorem todo_remux (h : ¬(s.rdRequest = [] ∧ s.wrRequest = [])) : s.remux.todo < s.todo := by
  rw [Pipe.remux]
  split
  · next req rest hreq =>
    simp only [todo, hreq, List.length_append, List.length_cons, List.length_nil]
    omega
  · next hrd =>
    split
    · next req rest hreq =>
      simp only [todo, hreq, List.length_append, List.length_cons, List.length_nil]
      omega
    · next hwr => exact absurd ⟨hrd, hwr⟩ h

theorem todo_computeHash (h : s.pipelineInfo ≠ []) : s.computeHash.todo < s.todo := by
  rw [Pipe.computeHash]
  split
  · next pi rest hpi =>
    simp only [todo, hpi, List.length_append, List.length_cons, List.length_nil]
    omega
  · next hpi => exact absurd hpi h

theorem todo_readBram (hst : s.readBramState = .idle) (h : s.hashToCompare ≠ []) :
    s.readBram.todo < s.todo := by
  rw [Pipe.readBram, hst]
  dsimp only
  split
  · next pi rest hpi =>
    simp only [todo, hpi, hst, ReadBramState.weight, List.length_append, List.length_cons,
      List.length_nil]
    omega
  · next hpi => exact absurd hpi h

theorem todo_readBram_success (hst : s.readBramState = .addrResp) {rest : List (BitVec 2)}
    (h : s.addrResvRes = resvSuccess :: rest) : s.readBram.todo < s.todo := by
  rw [Pipe.readBram, hst, h]
  simp only [ne_eq, not_true_eq_false, if_false, todo, hst, ReadBramState.weight]
  omega

theorem todo_compareBram (h : s.readToCompare ≠ []) (hdata : s.bram.data ≠ []) :
    s.compareBram.todo < s.todo := by
  rw [Pipe.compareBram]
  split
  · next pi rest hb data hpi hbs =>
    simp only [todo, hpi, List.length_append, List.length_cons, List.length_nil]
    omega
  · next hnone =>
    obtain ⟨pi, rest, hpi⟩ := List.exists_cons_of_ne_nil h
    obtain ⟨hb, data, hbs⟩ := List.exists_cons_of_ne_nil hdata
    exact absurd hbs (hnone pi rest hb data hpi)

theorem todo_fillS1 (hst : s.fillS1State = .idle) (h : s.compareToFillS1 ≠ []) :
    (s.fillS1 e).todo < s.todo := by
  rw [Pipe.fillS1, hst]
  dsimp only
  split
  · next pi rest hpi =>
    split
    · simp only [todo, hpi, hst, FillState.weight, List.length_append, List.length_cons,
        List.length_nil]
      omega
    · simp only [todo, hpi, hst, FillState.weight, List.length_cons]
      omega
  · next hpi => exact absurd hpi h

theorem todo_fillS2 (hst : s.fillS2State = .idle) (h : s.fillS1ToFillS2 ≠ []) :
    (s.fillS2 e).todo < s.todo := by
  rw [Pipe.fillS2, hst]
  dsimp only
  split
  · next pi rest hpi =>
    split
    · simp only [todo, hpi, hst, AllocState.weight, List.length_append, List.length_cons,
        List.length_nil]
      omega
    · simp only [todo, hpi, hst, AllocState.weight, List.length_cons]
      omega
    · simp only [todo, hpi, hst, AllocState.weight, List.length_cons]
      omega
  · next hpi => exact absurd hpi h

theorem todo_fillS2_recvRet (hst : s.fillS2State = .recvRet) (h : s.allocator.ret ≠ []) :
    (s.fillS2 e).todo < s.todo := by
  rw [Pipe.fillS2, hst]
  dsimp only
  split
  · next ret rest hret =>
    split
    · simp only [todo, hst, AllocState.weight]
      omega
    · simp only [todo, hst, AllocState.weight, List.length_append, List.length_cons,
        List.length_nil]
      omega
  · next hret => exact absurd hret h

theorem todo_fillS2_writeData (hst : s.fillS2State = .writeData) : (s.fillS2 e).todo < s.todo := by
  rw [Pipe.fillS2, hst]
  simp only [todo, hst, AllocState.weight, List.length_append, List.length_cons, List.length_nil]
  omega

theorem todo_demux (h : s.fillS2ToOut ≠ []) : s.demux.todo < s.todo := by
  rw [Pipe.demux]
  split
  · next pi rest hpi =>
    split
    · simp only [todo, hpi, List.length_append, List.length_cons, List.length_nil]
      omega
    · simp only [todo, hpi, List.length_append, List.length_cons, List.length_nil]
      omega
  · next hpi => exact absurd hpi h

theorem todo_serveResv (s : Pipe) : s.serveResv.todo = s.todo := by
  rw [Pipe.serveResv]
  split <;> rfl

theorem todo_addressReservationTable (h : s.addrPopReq ≠ []) :
    s.addressReservationTable.todo < s.todo := by
  rw [Pipe.addressReservationTable, todo_serveResv, Pipe.servePop]
  split
  · next x rest hreq =>
    simp only [todo, hreq, List.length_cons]
    omega
  · next hreq => exact absurd hreq h

end Calls

/-! ## The moves -/

/-- A schedule without new requests leads from the state to one with the property. -/
abbrev Pipe.Leads (e : Env) (s : Pipe) (p : Pipe → Prop) : Prop :=
  Machine.Leads (Pipe.step e) Action.Internal s p

/-- Some of the work can be done. -/
def Pipe.Moves (e : Env) (s : Pipe) : Prop := s.Leads e fun s' ↦ s'.todo < s.todo

section Moves

variable {e : Env} {s : Pipe}

theorem Pipe.Moves.once (a : Action) (ha : a.Internal) (h : (s.step e a).todo < s.todo) :
    s.Moves e := by
  rw [Pipe.Moves]
  exact Machine.Leads.once ha h

/-- A step that leaves the work as it is, before one that does some of it. -/
theorem Pipe.Moves.next (a : Action) (ha : a.Internal) (htodo : (s.step e a).todo = s.todo)
    (h : (s.step e a).Moves e) : s.Moves e := by
  rw [Pipe.Moves, ← htodo]
  exact Machine.Leads.next ha h

theorem Pipe.Moves.trans {s' : Pipe} (h : s.Leads e (· = s')) (htodo : s'.todo = s.todo)
    (hm : s'.Moves e) :
    s.Moves e := by
  rw [Pipe.Moves, ← htodo]
  exact Machine.Leads.trans h fun _ heq ↦ heq ▸ hm

theorem leads_flush_bram (e : Env) (s : Pipe) :
    s.Leads e (· = { s with bram := s.bram.flush }) := by
  refine ⟨List.replicate s.bram.cmds.length .execBram, fun a ha ↦ ?_, ?_⟩
  · rw [List.eq_of_mem_replicate ha]
    rfl
  · rw [Port.flush]
    generalize s.bram.cmds.length = n
    induction n generalizing s with
    | zero => rfl
    | succ n ih => exact ih _

theorem leads_flush_dram (e : Env) (s : Pipe) :
    s.Leads e (· = { s with dram := s.dram.flush }) := by
  refine ⟨List.replicate s.dram.cmds.length .execDram, fun a ha ↦ ?_, ?_⟩
  · rw [List.eq_of_mem_replicate ha]
    rfl
  · rw [Port.flush]
    generalize s.dram.cmds.length = n
    induction n generalizing s with
    | zero => rfl
    | succ n ih => exact ih _

/-! ### `read_bram` -/

theorem moves_resv (hst : s.readBramState = .addrResp) {req : TableRequest}
    (hreq : s.addrResvReq = [req])
    (hres : s.addrResvRes = []) (hpop : s.addrPopReq = []) (hring : s.resvTable.Ring []) :
      s.Moves e := by
  have hstep : s.addressReservationTable
      = { s with
          addrResvReq := []
          resvTable := (s.resvTable.resv req.index).1
          addrResvRes := [(s.resvTable.resv req.index).2] } := by
    have hsame : s.servePop = s := by rw [servePop, hpop]
    rw [addressReservationTable, hsame, serveResv, hreq]
    dsimp only
    rw [hres]
    rfl
  have hsucc : (s.resvTable.resv req.index).2 = resvSuccess := by
    obtain ⟨hsucc, -⟩ | ⟨-, -, hlen | hmem⟩ := hring.resv req.index
    · exact hsucc
    · cases hlen
    · cases hmem
  apply Pipe.Moves.next .addressReservationTable rfl
  · rw [Pipe.step, hstep]
    rfl
  · apply Pipe.Moves.once .readBram rfl
    rw [Pipe.step, Pipe.step, hstep]
    exact todo_readBram_success hst (by rw [hsucc])

theorem moves_addrCheck (hst : s.readBramState = .addrCheck) (hreq : s.addrResvReq = [])
    (hres : s.addrResvRes = []) (hpop : s.addrPopReq = []) (hring : s.resvTable.Ring []) :
      s.Moves e := by
  have hstep : s.readBram
      = { s with addrResvReq := [⟨.resv, s.readBramIndex⟩], readBramState := .addrResp } := by
    rw [Pipe.readBram, hst]
    dsimp only
    rw [hreq]
    rfl
  apply Pipe.Moves.next .readBram rfl
  · rw [Pipe.step, hstep]
    simp only [todo, hst, ReadBramState.weight]
  · rw [Pipe.step, hstep]
    exact moves_resv rfl rfl hres hpop hring

theorem moves_addrResp (hst : s.readBramState = .addrResp) {res : BitVec 2}
    (hreq : s.addrResvReq = []) (hres : s.addrResvRes = [res]) (hpop : s.addrPopReq = [])
    (hring : res ≠ resvSuccess → s.resvTable.Ring []) : s.Moves e := by
  by_cases hsucc : res = resvSuccess
  · apply Pipe.Moves.once .readBram rfl
    exact todo_readBram_success hst (by rw [hres, hsucc])
  · have hstep : s.readBram = { s with addrResvRes := [], readBramState := .addrCheck } := by
      rw [Pipe.readBram, hst]
      dsimp only
      rw [hres]
      dsimp only
      rw [if_pos hsucc]
    apply Pipe.Moves.next .readBram rfl
    · rw [Pipe.step, hstep]
      simp only [todo, hst, ReadBramState.weight]
    · rw [Pipe.step, hstep]
      exact moves_addrCheck rfl hreq rfl hpop (hring hsucc)

end Moves

section Inv

variable {e : Env} {t : Tables} {Q : ℕ → Call} {c : Marks} {s : Pipe}

/-! ### `fill_S2` -/

theorem Inv.moves_fillS2 (h : Inv e t Q c s) (hst : s.fillS2State ≠ .idle) : s.Moves e := by
  cases hs : s.fillS2State with
  | idle => exact absurd hs hst
  | writeData => exact .once .fillS2 rfl (todo_fillS2_writeData hs)
  | recvRet =>
    by_cases hret : s.allocator.ret = []
    · -- the answer is still to come
      have hasked := h.alloc.ret
      rw [hs, hret, List.nil_append, if_pos rfl] at hasked
      obtain ⟨hlt, -⟩ := window_eq_cons hasked
      obtain ⟨n, hn⟩ := Nat.exists_eq_succ_of_ne_zero (n := s.allocator.pending) (by omega)
      have hstep : s.answerAlloc e
          = { s with
              allocator := ⟨n, s.allocator.answered + 1, [e.answers s.allocator.answered]⟩ } := by
        rw [Pipe.answerAlloc, hn, hret]
        rfl
      apply Pipe.Moves.next .answerAlloc rfl
      · rw [Pipe.step, hstep]
        rfl
      · apply Pipe.Moves.once .fillS2 rfl
        rw [Pipe.step, Pipe.step, hstep]
        exact todo_fillS2_recvRet hs (List.cons_ne_nil _ _)
    · exact .once .fillS2 rfl (todo_fillS2_recvRet hs hret)

/-! ### `fill_S1` -/

variable (hinit : t.Initial e) (hfresh : ∀ n, e.Fresh n)

theorem Inv.moves_data (h : Inv e t Q c s) (hst : s.fillS1State = .readData) {n : ℕ}
    (hdata : s.dram.data = [(tables e t Q c.s1out).readDram e s.fillS1Cmd])
    (hwalk : s.fillS1Pi.walk ((tables e t Q c.s1out).readDram e)
      (n + 1) s.slotDramFound s.fillS1Cmd ≠ none)
    (hnext : ∀ s' : Pipe, Inv e t Q c s' → s'.fillS1State = .sendCmd →
      s'.fillS1Pi.walk ((tables e t Q c.s1out).readDram e) n s'.slotDramFound s'.fillS1Cmd ≠ none →
      s'.Moves e) : s.Moves e := by
  rw [walk] at hwalk
  rcases hread : s.fillS1Pi.readBucket s.slotDramFound s.fillS1Cmd
    ((tables e t Q c.s1out).readDram e s.fillS1Cmd) with ⟨pi, _ | ⟨found, addr⟩⟩
  · apply Pipe.Moves.once .fillS1 rfl
    rw [Pipe.step, Pipe.fillS1, hst, hdata]
    dsimp only
    rw [hread]
    simp only [todo, hst, FillState.weight, List.length_append, List.length_cons, List.length_nil]
    omega
  -- the walk is shorter by a bucket, which `hnext` uses
  · have hinv := h.fillS1_next hst hdata hread
    have hstep : s.fillS1 e
        = { s with
            dram := { s.dram with data := [] }
            fillS1Pi := pi
            slotDramFound := found
            fillS1Cmd := addr
            fillS1State := .sendCmd } := by
      rw [Pipe.fillS1, hst, hdata]
      dsimp only
      rw [hread]
    rw [hread] at hwalk
    apply Pipe.Moves.next .fillS1 rfl
    · rw [Pipe.step, hstep]
      simp only [todo, hst, FillState.weight]
    · rw [Pipe.step]
      rw [hstep] at hinv ⊢
      exact hnext _ hinv rfl hwalk

theorem Inv.moves_readData (h : Inv e t Q c s) (hst : s.fillS1State = .readData) {n : ℕ}
    (hwalk : s.fillS1Pi.walk ((tables e t Q c.s1out).readDram e)
      (n + 1) s.slotDramFound s.fillS1Cmd ≠ none)
    (hnext : ∀ s' : Pipe, Inv e t Q c s' → s'.fillS1State = .sendCmd →
      s'.fillS1Pi.walk ((tables e t Q c.s1out).readDram e) n s'.slotDramFound s'.fillS1Cmd ≠ none →
      s'.Moves e) : s.Moves e := by
  have hinv := h.fillS1
  rw [FillS1Inv, hst] at hinv
  have h' := h.with_dram (Port.settled_flush s.dram) (Port.stream_flush s.dram)
  exact Pipe.Moves.trans (leads_flush_dram e s) rfl
    (h'.moves_data hst ((Port.data_flush s.dram).trans hinv.2.1) hwalk hnext)

include hinit hfresh in
theorem Inv.moves_sendCmd (n : ℕ) (h : Inv e t Q c s) (hst : s.fillS1State = .sendCmd)
    (hwalk : s.fillS1Pi.walk ((tables e t Q c.s1out).readDram e) n s.slotDramFound s.fillS1Cmd
      ≠ none) :
    s.Moves e := by
  induction n generalizing s with
  | zero => exact absurd rfl hwalk
  | succ n ih =>
    apply Pipe.Moves.next .fillS1 rfl
    · rw [Pipe.step, Pipe.fillS1, hst]
      simp only [todo, hst, FillState.weight]
    · rw [Pipe.step]
      have hsend := h.fillS1_send hinit hfresh hst
      have hstep : s.fillS1 e
          = { s with
              dram := s.dram.issue (.read (e.startAddress s.fillS1Cmd))
              fillS1State := .readData } := by
        rw [Pipe.fillS1, hst]
      rw [hstep] at hsend ⊢
      exact hsend.moves_readData rfl hwalk fun s' h' hst' hwalk' ↦ ih h' hst' hwalk'

include hinit hfresh in
theorem Inv.moves_fillS1 (h : Inv e t Q c s) (hst : s.fillS1State ≠ .idle) : s.Moves e := by
  have hinv := h.fillS1
  rw [FillS1Inv] at hinv
  cases hs : s.fillS1State with
  | idle => exact absurd hs hst
  | sendCmd =>
    rw [hs] at hinv
    obtain ⟨-, -, -, n, hwalk⟩ := hinv
    exact h.moves_sendCmd hinit hfresh n hs (by rw [hwalk]; exact Option.some_ne_none _)
  | readData =>
    rw [hs] at hinv
    obtain ⟨-, -, -, n, hwalk⟩ := hinv
    cases n with
    | zero => cases hwalk
    | succ n =>
      exact h.moves_readData hs (by rw [hwalk]; exact Option.some_ne_none _)
        fun s' h' hst' hwalk' ↦ h'.moves_sendCmd hinit hfresh n hst' hwalk'

/-! ### The stages before -/

theorem Inv.moves_compareBram (h : Inv e t Q c s) (hlt : c.cmp < c.rb) : s.Moves e := by
  apply Pipe.Moves.trans (leads_flush_bram e s) rfl
  apply Pipe.Moves.once .compareBram rfl
  apply todo_compareBram
  · change s.readToCompare ≠ []
    rw [h.readToCompare, window_cons (hlt.trans_le (h.le_res.trans h.le_rd))]
    exact List.cons_ne_nil _ _
  · change s.bram.flush.data ≠ []
    rw [Port.data_flush, h.bramStream, window_cons hlt]
    exact List.cons_ne_nil _ _

theorem Inv.moves_readBram (h : Inv e t Q c s) (hst : s.readBramState ≠ .idle)
    (hpop : s.addrPopReq = []) (hrb : c.popped = c.rb) : s.Moves e := by
  have hinv := h.readBram
  rw [ReadBramInv] at hinv
  have hring (hres : c.res = c.rb) : s.resvTable.Ring [] := by
    have hring := h.ring
    rwa [hres, hrb, window_self] at hring
  cases hs : s.readBramState with
  | idle => exact absurd hs hst
  | addrCheck =>
    rw [hs] at hinv
    obtain ⟨-, -, hres, hreq, hresv⟩ := hinv
    exact moves_addrCheck hs hreq hresv hpop (hring hres)
  | addrResp =>
    rw [hs] at hinv
    obtain ⟨-, -, ⟨hreq, hresv, hres⟩ | ⟨hreq, res, hresv, hres⟩⟩ := hinv
    · exact moves_resv hs hreq hresv hpop (hring hres)
    · refine moves_addrResp hs hreq hresv hpop fun hne ↦ hring ?_
      rwa [if_neg hne] at hres

include hinit hfresh in
/-- **Progress.** The work is finished, or some of it can be done. -/
theorem Inv.progress (h : Inv e t Q c s) : s.Leads e Drained ∨ s.Moves e := by
  -- from the last stage to the first: a stage is looked at when those behind it are idle
  by_cases hpop : s.addrPopReq = []
  swap
  · exact .inr (.once .addressReservationTable rfl (todo_addressReservationTable hpop))
  by_cases hout : s.fillS2ToOut = []
  swap
  · exact .inr (.once .demux rfl (todo_demux hout))
  by_cases hs2 : s.fillS2State = .idle
  swap
  · exact .inr (h.moves_fillS2 hs2)
  by_cases hf2 : s.fillS1ToFillS2 = []
  swap
  · exact .inr (.once .fillS2 rfl (todo_fillS2 hs2 hf2))
  by_cases hs1 : s.fillS1State = .idle
  swap
  · exact .inr (h.moves_fillS1 hinit hfresh hs1)
  by_cases hf1 : s.compareToFillS1 = []
  swap
  · exact .inr (.once .fillS1 rfl (todo_fillS1 hs1 hf1))
  by_cases hcmp : c.cmp < c.rb
  · exact .inr (h.moves_compareBram hcmp)
  by_cases hrb : s.readBramState = .idle
  swap
  · -- all positions behind `read_bram` are the same
    have hfillS1 := h.fillS1
    have hfillS2 := h.fillS2
    rw [FillS1Inv, hs1] at hfillS1
    rw [hs2] at hfillS2
    have hpopped := h.addrPopReq
    rw [hpop] at hpopped
    have hlen1 := (window_eq_nil h.le_cmp).mp (h.compareToFillS1.symm.trans hf1)
    have hlen2 := (window_eq_nil h.le_s1out).mp (h.fillS1ToFillS2.symm.trans hf2)
    have hlen3 := (window_eq_nil h.le_fin).mp (h.fillS2ToOut.symm.trans hout)
    have hle := h.le_rb
    have hs1out := hfillS1.1
    have hs2fin := hfillS2.1
    refine .inr (h.moves_readBram hrb hpop ?_)
    rw [List.length_nil, Nat.add_zero] at hpopped
    omega
  by_cases hhash : s.hashToCompare = []
  swap
  · exact .inr (.once .readBram rfl (todo_readBram hrb hhash))
  by_cases hpi : s.pipelineInfo = []
  swap
  · exact .inr (.once .computeHash rfl (todo_computeHash hpi))
  by_cases hreq : s.rdRequest = [] ∧ s.wrRequest = []
  swap
  · exact .inr (.once .remux rfl (todo_remux hreq))
  have hreadBram := h.readBram
  rw [ReadBramInv, hrb] at hreadBram
  have hread : s.readToCompare = [] := by
    rw [h.readToCompare, window_eq_nil (h.le_rb.trans (h.le_res.trans h.le_rd))]
    have hle := h.le_rb
    omega
  left
  apply Machine.Leads.trans (leads_flush_bram e s)
  rintro _ rfl
  apply Machine.Leads.trans (leads_flush_dram e _)
  rintro _ rfl
  exact .now ⟨hreq.1, hreq.2, hpi, hhash, hread, hf1, hf2, hout, hrb, hs1, hs2, Port.cmds_flush _,
    Port.cmds_flush _⟩

end Inv

/-! ## Pipelining is invisible -/

/-- The state that a schedule leads to. -/
def after (e : Env) (t : Tables) (as : List Action) : Pipe :=
  Machine.run (Pipe.step e) (Pipe.init t) as

section Main

variable {e : Env} {t : Tables} (hinit : t.Initial e) (hfresh : ∀ n, e.Fresh n)

include hinit hfresh in
theorem leads_drained (as : List Action) : (after e t as).Leads e Drained := by
  have hmove (s : Pipe) (hs : ∃ as, after e t as = s) :
      s.Leads e Drained ∨ s.Leads e fun s' ↦ (∃ as, after e t as = s') ∧ s'.todo < s.todo := by
    obtain ⟨as, rfl⟩ := hs
    obtain ⟨Q, c, hinv⟩ := Inv.run hinit hfresh as
    refine (hinv.progress hinit hfresh).imp_right fun hmoves ↦ ?_
    obtain ⟨bs, hbs, hlt⟩ := hmoves
    exact ⟨bs, hbs, ⟨as ++ bs, Machine.run_append _ _ _ _⟩, hlt⟩
  exact Machine.Leads.of_measure todo hmove ⟨as, rfl⟩

/-- The state looks as if the requests had been served one at a time, in the order in which they
were accepted. -/
structure Serialized (e : Env) (t : Tables) (as : List Action) (s : Pipe) : Prop where
  /-- Each channel's requests are accepted in the order in which they arrive. -/
  requests : ∀ ch, onChannel ch s.accepted ++ s.requests ch = arrivals ch as
  /-- What has been replied on a channel is a beginning of what the sequence replies there. -/
  replies : ∀ ch, (s.replies ch).map some <+: onChannel ch (t.replies e s.accepted)
  /-- In the end everything has been replied, once, and the memories are those of the sequence. -/
  complete : s.Drained →
    (∀ ch, onChannel ch s.accepted = arrivals ch as)
      ∧ (∀ ch, (s.replies ch).map some = onChannel ch (t.replies e s.accepted))
      ∧ (∀ ch, (s.replies ch).length = (arrivals ch as).length)
      ∧ s.bram.cells = (Machine.run (Tables.step e) t s.accepted).bram
      ∧ s.dram.cells = (Machine.run (Tables.step e) t s.accepted).dram
  /-- The end can be reached. -/
  drains : s.Leads e Drained

/-- **Pipelining is invisible.** Every schedule of the stages, the memories, the allocator and the
arrivals leads to a state in which the requests look as if they had been served one at a time. -/
theorem pipelining_invisible (hinit : t.Initial e) (hfresh : ∀ n, e.Fresh n) (as : List Action) :
    Serialized e t as (after e t as) := by
  obtain ⟨Q, c, hinv⟩ := Inv.run hinit hfresh as
  have hreq := requests_run (e := e) (t := t) as
  refine ⟨hreq, hinv.replies_prefix hinit hfresh, fun hd ↦ ?_, leads_drained hinit hfresh as⟩
  have haccepted (ch : Channel) : onChannel ch (after e t as).accepted = arrivals ch as := by
    rw [← hreq ch, eq_comm]
    cases ch with
    | read => exact (congrArg _ hd.rdRequest).trans (List.append_nil _)
    | write => exact (congrArg _ hd.wrRequest).trans (List.append_nil _)
  have hreplies := hinv.replies_of_drained hinit hfresh hd
  refine ⟨haccepted, hreplies, fun ch ↦ ?_, hinv.cells_of_drained hd⟩
  calc ((after e t as).replies ch).length = (((after e t as).replies ch).map some).length := by
        rw [List.length_map]
    _ = (onChannel ch (t.replies e (after e t as).accepted)).length := congrArg _ (hreplies ch)
    _ = (arrivals ch as).length := by rw [length_replies, haccepted]

end Main

/-- An allocator that grants one bucket and refuses from then on. -/
def Env.single (base addr : BitVec 32) : Env := ⟨base, fun i ↦ if i = 0 then ⟨0, addr⟩ else ⟨1, 0⟩⟩

theorem Env.single_stat {base addr : BitVec 32} {i : ℕ}
    (h : ((Env.single base addr).answers i).stat = 0) :
    i = 0 := by
  by_contra hi
  rw [Env.single] at h
  dsimp only at h
  rw [if_neg hi] at h
  exact absurd h (by decide)

theorem Env.fresh_single {base addr : BitVec 32} (hdvd : 64 ∣ (addr - base).toNat)
    (hout : 1024 * 64 ≤ (addr - base).toNat) (n : ℕ) : (Env.single base addr).Fresh n where
  aligned i _ hstat := by rw [single_stat hstat]; exact hdvd
  outside i _ hstat := by rw [single_stat hstat]; exact hout
  distinct i _ j _ histat hjstat _ := (single_stat histat).trans (single_stat hjstat).symm

/-- A `SET` and a `GET` of one key, both in flight. -/
def twoInFlight : List Action :=
  [.arriveWr ⟨8, 100, mappingSet ||| mappingPermissionRW⟩, .arriveRd ⟨8, 0, mappingRequestRead⟩,
    .remux, .remux, .computeHash, .readBram, .computeHash, .readBram,
    .addressReservationTable, .readBram]

theorem pipelining_invisible_twoInFlight :
    (Tables.blank.Initial (Env.single 0x100000 0x200000))
      ∧ (∀ n, (Env.single 0x100000 0x200000).Fresh n)
      ∧ Serialized (Env.single 0x100000 0x200000) .blank twoInFlight
        (after (Env.single 0x100000 0x200000) .blank twoInFlight) := by
  have hinit := Tables.initial_blank (Env.single 0x100000 0x200000)
  have hfresh := @Env.fresh_single 0x100000 0x200000 (by decide) (by decide)
  exact ⟨hinit, hfresh, pipelining_invisible hinit hfresh twoInFlight⟩

end FpgaOs.Mapping
