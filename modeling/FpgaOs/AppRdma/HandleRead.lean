import FpgaOs.AppRdma.Parser
import FpgaOs.Lib.Process
import Mathlib.Algebra.Ring.Nat

/-!
# The read handler of `app_rdma`

`handle_read` takes a request and answers it unit by unit, one unit in a call: the two headers, and
then the words of DRAM that were asked for. It counts the length down until one unit is left, so the
reply ends exactly because only positive multiples of the unit size get there.

A reply has no other input than its request, so what is still owed is a function of the static
variables, and a call hands out its first unit.
-/

namespace FpgaOs.AppRdma

open Machine Process BitField Rdm

/-! ## The code -/

/-- `enum handle_read_state`. -/
inductive ReadState
  | idle
  | hdrEth
  | hdrApp
  | dataflow
  deriving DecidableEq

/-- The words of DRAM. -/
abbrev Dram := BitVec 32 → BitVec 512

/-- `RDM_FPGA_TEST_APP_ID`. -/
def rdmFpgaTestAppId : BitVec 8 := 1

/-- `set_app_id`. -/
def setAppId (d : NetAxis) (appId : BitVec 8) : NetAxis :=
  { d with data := setSlice d.data 336 appId }

/-- The static variables of `handle_read`. -/
structure HandleRead where
  readState : ReadState := .idle
  offset : BitVec 32 := 0
  startIndex : BitVec 32 := 0
  address : BitVec 64 := 0
  length : BitVec 64 := 0
  req : Request := {}

namespace HandleRead

/-- A call in READ_IDLE that finds a request. -/
def readReq (s : HandleRead) (req : Request) : HandleRead × List NetAxis :=
  ({ s with
      req
      length := req.length
      address := req.address
      startIndex := (req.address / 64).setWidth 32
      offset := 0
      readState := .hdrEth }, [])

/-- A call in another state. The field `user` of the unit `tmp` is not set. -/
def work (dram : Dram) (s : HandleRead) (user : BitVec 64) : HandleRead × List NetAxis :=
  match s.readState with
  | .idle => (s, [])
  | .hdrEth =>
    let ethHeader := setAppId s.req.ethHeader rdmFpgaTestAppId
    ({ s with req := { s.req with ethHeader }, readState := .hdrApp }, [ethHeader])
  | .hdrApp =>
    if s.length = 0 ∨ s.address % 64 ≠ 0 ∨ s.length % 64 ≠ 0 then
      let appHeader := { s.req.appHeader.setOpcode opcodeReplyReadError with last := 1 }
      ({ s with req := { s.req with appHeader }, readState := .idle }, [appHeader])
    else
      let appHeader := { s.req.appHeader.setOpcode opcodeReplyRead with last := 0 }
      ({ s with req := { s.req with appHeader }, readState := .dataflow }, [appHeader])
  | .dataflow =>
    let tmp : NetAxis :=
      { data := dram (s.startIndex + s.offset)
        last := if s.length = 64 then 1 else 0
        keep := BitVec.allOnes 64
        user }
    ({ s with
        offset := s.offset + 1
        length := if s.length = 64 then s.length else s.length - 64
        readState := if tmp.last = 1 then .idle else .dataflow }, [tmp])

end HandleRead

/-- `handle_read`. -/
def handleRead (dram : Dram) : Process Unit (fun _ ↦ Request) HandleRead NetAxis (BitVec 64) where
  wants s := if s.readState = .idle then some () else none
  work := HandleRead.work dram
  read _ s req _ := s.readReq req

/-! ## What is expected -/

/-- The unit `i` of the data of a reply. -/
def dataUnit (dram : Dram) (req : Request) (i : ℕ) : NetAxis where
  data := dram (BitVec.ofNat 32 (req.address.toNat / 64 + i))
  last := if i + 1 = req.length.toNat / 64 then 1 else 0
  keep := BitVec.allOnes 64

/-- The reply to a request. -/
def reply (dram : Dram) (req : Request) : List NetAxis :=
  setAppId req.ethHeader rdmFpgaTestAppId ::
    if req.length.toNat = 0 ∨ ¬64 ∣ req.address.toNat ∨ ¬64 ∣ req.length.toNat then
      [{ req.appHeader.setOpcode opcodeReplyReadError with last := 1 }]
    else { req.appHeader.setOpcode opcodeReplyRead with last := 0 } ::
      (List.range (req.length.toNat / 64)).map (dataUnit dram req)

/-- A unit without the field that the code does not set. -/
def noUser (d : NetAxis) : NetAxis := { d with user := 0 }

/-! ## What is owed -/

/-- `n` more units of data. -/
def owedUnits (dram : Dram) (start : BitVec 32) : BitVec 32 → ℕ → List NetAxis
  | _, 0 => []
  | offset, n + 1 =>
    { data := dram (start + offset)
      last := if n = 0 then 1 else 0
      keep := BitVec.allOnes 64 } :: owedUnits dram start (offset + 1) n

namespace HandleRead

/-- The reply from the second header on. -/
def owedApp (dram : Dram) (s : HandleRead) : List NetAxis :=
  if s.length = 0 ∨ s.address % 64 ≠ 0 ∨ s.length % 64 ≠ 0 then
    [{ s.req.appHeader.setOpcode opcodeReplyReadError with last := 1 }]
  else { s.req.appHeader.setOpcode opcodeReplyRead with last := 0 } ::
    owedUnits dram s.startIndex s.offset (s.length.toNat / 64)

/-- What is still owed of a reply. -/
def owed (dram : Dram) (s : HandleRead) : List NetAxis :=
  match s.readState with
  | .idle => []
  | .hdrEth => setAppId s.req.ethHeader rdmFpgaTestAppId :: s.owedApp dram
  | .hdrApp => s.owedApp dram
  | .dataflow => owedUnits dram s.startIndex s.offset (s.length.toNat / 64)

/-- The units of data are asked for by a positive multiple of the unit size. -/
def Counts (s : HandleRead) : Prop :=
  s.readState = .dataflow → 0 < s.length.toNat ∧ 64 ∣ s.length.toNat

/-- An upper bound of the calls that a reply still takes. -/
def calls (s : HandleRead) : ℕ :=
  match s.readState with
  | .idle => 0
  | .hdrEth => s.length.toNat / 64 + 2
  | .hdrApp => s.length.toNat / 64 + 1
  | .dataflow => s.length.toNat / 64

end HandleRead

section Owed

variable (dram : Dram)

theorem owedUnits_eq_map (start offset : BitVec 32) (n : ℕ) :
    owedUnits dram start offset n = (List.range n).map fun i ↦
      { data := dram (start + offset + BitVec.ofNat 32 i)
        last := if i + 1 = n then 1 else 0
        keep := BitVec.allOnes 64 } := by
  induction n generalizing offset with
  | zero => rfl
  | succ n ih =>
    rw [owedUnits, ih, List.range_succ_eq_map, List.map_cons, List.map_map]
    congr 1
    · simp
    · apply List.map_congr_left
      intro i _
      have hindex : start + (offset + 1#32) + BitVec.ofNat 32 i
          = start + offset + BitVec.ofNat 32 (i + 1) := by
        rw [BitVec.ofNat_add, BitVec.add_assoc, BitVec.add_assoc, BitVec.add_assoc,
          BitVec.add_comm (BitVec.ofNat 32 i)]
      simp [hindex]

theorem umod_eq_zero_iff (x : BitVec 64) : x % 64 = 0 ↔ 64 ∣ x.toNat := by
  rw [← BitVec.toNat_inj, BitVec.toNat_umod, Nat.dvd_iff_mod_eq_zero]
  rfl

theorem rejected_iff (address length : BitVec 64) :
    length = 0 ∨ address % 64 ≠ 0 ∨ length % 64 ≠ 0
      ↔ length.toNat = 0 ∨ ¬64 ∣ address.toNat ∨ ¬64 ∣ length.toNat := by
  rw [Ne, Ne, umod_eq_zero_iff, umod_eq_zero_iff, ← BitVec.toNat_inj]
  rfl

theorem ofNat_index (x : BitVec 64) (i : ℕ) :
    BitVec.ofNat 32 (x.toNat / 64 + i) = (x / 64).setWidth 32 + 0#32 + BitVec.ofNat 32 i := by
  rw [BitVec.ofNat_add, BitVec.add_zero]
  congr 1

theorem map_dataUnit (req : Request) :
    (List.range (req.length.toNat / 64)).map (dataUnit dram req)
      = owedUnits dram ((req.address / 64).setWidth 32) 0 (req.length.toNat / 64) := by
  rw [owedUnits_eq_map]
  exact List.map_congr_left fun i _ ↦ by rw [dataUnit, ofNat_index]; rfl

/-- **A request is owed its reply.** -/
theorem owed_readReq (s : HandleRead) (req : Request) :
    (s.readReq req).1.owed dram = reply dram req := by
  rw [HandleRead.readReq, HandleRead.owed, HandleRead.owedApp, reply, map_dataUnit]
  simp only [rejected_iff]

variable {dram} {s : HandleRead}

theorem length_sub {length : BitVec 64} {n : ℕ} (h : length.toNat = 64 * (n + 1)) :
    (length - 64).toNat = 64 * n := by
  have hle : (64 : BitVec 64) ≤ length := by
    rw [BitVec.le_def, h]
    exact Nat.le_mul_of_pos_right _ (Nat.succ_pos n)
  rw [BitVec.toNat_sub_of_le hle, h, Nat.mul_succ]
  exact Nat.add_sub_cancel _ _

theorem owed_idle (h : s.readState = .idle) : s.owed dram = [] := by rw [HandleRead.owed, h]

theorem owed_hdrApp (h : s.readState = .hdrApp) : s.owed dram = s.owedApp dram := by
  rw [HandleRead.owed, h]

theorem owed_dataflow (h : s.readState = .dataflow) :
    s.owed dram = owedUnits dram s.startIndex s.offset (s.length.toNat / 64) := by
  rw [HandleRead.owed, h]

/-- What a call does to the reply: it hands out the first unit that is owed, and there is one call
less to go. -/
structure Hands (dram : Dram) (s : HandleRead) (result : HandleRead × List NetAxis) : Prop where
  owed : (result.2 ++ result.1.owed dram).map noUser = (s.owed dram).map noUser
  counts : result.1.Counts
  calls : result.1.calls < s.calls

theorem hands_hdrApp (hst : s.readState = .hdrApp) (user : BitVec 64) :
    Hands dram s (s.work dram user) := by
  obtain ⟨readState, offset, startIndex, address, length, req⟩ := s
  obtain rfl : readState = .hdrApp := hst
  rw [HandleRead.work]
  dsimp only
  split
  · next hbad =>
    refine ⟨?_, by rintro ⟨⟩, Nat.succ_pos _⟩
    rw [owed_idle rfl, owed_hdrApp rfl, HandleRead.owedApp, if_pos hbad]
    rfl
  · next hgood =>
    have hbounds := (not_congr (rejected_iff address length)).mp hgood
    rw [not_or, not_or, not_not, not_not] at hbounds
    refine ⟨?_, fun _ ↦ ⟨Nat.pos_of_ne_zero hbounds.1, hbounds.2.2⟩, Nat.lt_succ_self _⟩
    rw [owed_dataflow rfl, owed_hdrApp rfl, HandleRead.owedApp, if_neg hgood]
    rfl

theorem hands_dataflow (hst : s.readState = .dataflow) (h : s.Counts) (user : BitVec 64) :
    Hands dram s (s.work dram user) := by
  obtain ⟨hpos, k, hk⟩ := h hst
  obtain ⟨readState, offset, startIndex, address, length, req⟩ := s
  obtain rfl : readState = .dataflow := hst
  dsimp only at hpos hk
  obtain ⟨n, rfl⟩ : ∃ n, k = n + 1 := Nat.exists_eq_add_of_le' (by omega)
  have hunits : length.toNat / 64 = n + 1 := by rw [hk, Nat.mul_div_cancel_left _ (by decide)]
  have hlast : length = 64 ↔ n = 0 := by
    rw [← BitVec.toNat_inj, hk]
    change 64 * (n + 1) = 64 ↔ n = 0
    omega
  rw [HandleRead.work]
  dsimp only
  by_cases hn : n = 0
  · rw [if_pos (hlast.mpr hn)]
    refine ⟨?_, by rintro ⟨⟩, ?_⟩
    · rw [owed_idle rfl, owed_dataflow rfl]
      dsimp only
      rw [hunits, hn]
      rfl
    · have hone : 0 < length.toNat / 64 := by omega
      exact hone
  · rw [if_neg (hlast.not.mpr hn), if_neg (hlast.not.mpr hn)]
    have hsub := length_sub hk
    have hrest : (length - 64).toNat / 64 = n := by
      rw [hsub, Nat.mul_div_cancel_left _ (by decide)]
    refine ⟨?_, fun _ ↦ ?_, ?_⟩
    · rw [owed_dataflow rfl, owed_dataflow rfl]
      dsimp only
      rw [hunits, hrest, owedUnits, if_neg hn]
      rfl
    · exact ⟨by dsimp only; omega, n, hsub⟩
    · have hless : (length - 64).toNat / 64 < length.toNat / 64 := by omega
      exact hless

/-- **A call hands out the first unit that is owed.** -/
theorem hands_work (hst : s.readState ≠ .idle) (h : s.Counts) (user : BitVec 64) :
    Hands dram s (s.work dram user) := by
  cases hread : s.readState with
  | idle => exact absurd hread hst
  | hdrEth =>
    rw [HandleRead.work, hread]
    refine ⟨?_, by rintro ⟨⟩, ?_⟩
    · rw [HandleRead.owed, HandleRead.owed, hread]
      rfl
    · rw [HandleRead.calls, HandleRead.calls, hread]
      exact Nat.lt_succ_self _
  | hdrApp => exact hands_hdrApp hread user
  | dataflow => exact hands_dataflow hread h user

end Owed

/-! ## The run -/

/-- The handler on requests, under a schedule of arrivals and calls. -/
def replied (dram : Dram) (reqs : List Request) (ts : List (Turn Unit (BitVec 64))) :
    Fed (fun _ : Unit ↦ Request) HandleRead NetAxis :=
  run (handleRead dram).step (start {} fun _ ↦ reqs) ts

/-- At any time the handler has put out a part of the replies. When it has nothing more to do it has
put out all of them, and when all requests have arrived it gets there with some number of calls. -/
structure Answers (dram : Dram) (reqs : List Request) (ts : List (Turn Unit (BitVec 64))) :
    Prop where
  out : (replied dram reqs ts).out.map noUser <+: (reqs.flatMap (reply dram)).map noUser
  done : (handleRead dram).Finished (replied dram reqs ts).view →
    (replied dram reqs ts).out.map noUser = (reqs.flatMap (reply dram)).map noUser
  ends : (replied dram reqs ts).input () = [] → ∃ n, ∀ users : List (BitVec 64),
    n ≤ users.length → (handleRead dram).Finished (replied dram reqs (ts ++ users.map .call)).view

section Run

variable {dram : Dram} {reqs : List Request}

/-- What has been put out, what is owed of the current reply, and the replies to the other requests
are the replies to all requests. -/
structure Owes (dram : Dram) (reqs : List Request)
    (v : View (fun _ : Unit ↦ Request) HandleRead NetAxis) : Prop where
  total : (v.out ++ (v.st.owed dram ++ (v.unread ()).flatMap (reply dram))).map noUser
    = (reqs.flatMap (reply dram)).map noUser
  counts : v.st.Counts

/-- An upper bound of the calls that are still to come. -/
def remaining (v : View (fun _ : Unit ↦ Request) HandleRead NetAxis) : ℕ :=
  v.st.calls + ((v.unread ()).map fun req ↦ req.length.toNat / 64 + 3).sum

theorem idle_of_wants {s : HandleRead} {i : Unit} (h : (handleRead dram).wants s = some i) :
    s.readState = .idle := by
  by_contra hst
  rw [handleRead] at h
  dsimp only at h
  rw [if_neg hst] at h
  contradiction

theorem ne_idle_of_wants {s : HandleRead} (h : (handleRead dram).wants s = none) :
    s.readState ≠ .idle := by
  intro hst
  rw [handleRead] at h
  dsimp only at h
  rw [if_pos hst] at h
  contradiction

variable {v : View (fun _ : Unit ↦ Request) HandleRead NetAxis}

theorem Owes.next (h : Owes dram reqs v) (hfin : ¬(handleRead dram).Finished v)
    (user : BitVec 64) :
    Owes dram reqs ((handleRead dram).next v user)
      ∧ remaining ((handleRead dram).next v user) < remaining v := by
  obtain ⟨hw, hnext⟩ | ⟨i, req, rest, hw, hunread, hnext⟩ := next_cases hfin user
  · -- the unit that is handed out is owed no longer
    have hhands : Hands dram v.st (v.st.work dram user) :=
      hands_work (ne_idle_of_wants hw) h.counts user
    obtain ⟨howed, hcounts, hcalls⟩ := hhands
    rw [hnext]
    refine ⟨⟨?_, hcounts⟩, Nat.add_lt_add_right hcalls _⟩
    have htotal := h.total
    rw [List.map_append, List.map_append, ← howed] at htotal
    rw [← htotal]
    simp [handleRead]
  · -- the request that is read is owed its reply
    have hidle := idle_of_wants hw
    have htotal := h.total
    have howed := owed_readReq dram v.st req
    have hrest : Function.update v.unread i rest () = rest := Function.update_self ..
    rw [owed_idle hidle, List.nil_append, hunread, List.flatMap_cons, ← howed] at htotal
    rw [hnext]
    refine ⟨⟨?_, by rintro ⟨⟩⟩, ?_⟩
    · rw [← htotal]
      dsimp only
      rw [hrest]
      simp [handleRead, HandleRead.readReq]
    · have hcalls : v.st.calls = 0 := by rw [HandleRead.calls, hidle]
      rw [remaining, remaining, hcalls, hunread, List.map_cons, List.sum_cons]
      dsimp only
      rw [hrest]
      dsimp only [handleRead, HandleRead.readReq, HandleRead.calls]
      omega

theorem owes_start (dram : Dram) (reqs : List Request) :
    Owes dram reqs (start {} fun _ ↦ reqs : Fed (fun _ : Unit ↦ Request) HandleRead NetAxis).view :=
  ⟨rfl, by rintro ⟨⟩⟩

theorem owes_next (v : View (fun _ : Unit ↦ Request) HandleRead NetAxis) (user : BitVec 64)
    (h : Owes dram reqs v) :
    Owes dram reqs ((handleRead dram).next v user) := by
  by_cases hfin : (handleRead dram).Finished v
  · rwa [next_of_finished hfin]
  · exact (h.next hfin user).1

/-- **Read replies.** Every request is answered by its reply, and the handler ends. -/
theorem handleRead_answers (dram : Dram) (reqs : List Request)
    (ts : List (Turn Unit (BitVec 64))) :
    Answers dram reqs ts := by
  have howes : Owes dram reqs (replied dram reqs ts).view :=
    view_invariant (Owes dram reqs) owes_next (owes_start dram reqs) ts
  refine ⟨?_, ?_, ?_⟩
  · have htotal := howes.total
    rw [List.map_append] at htotal
    exact ⟨_, htotal⟩
  · rintro ⟨i, hw, hunread⟩
    have htotal := howes.total
    rwa [owed_idle (idle_of_wants hw), hunread, List.flatMap_nil, List.append_nil,
      List.append_nil] at htotal
  · intro harrived
    refine ⟨remaining (replied dram reqs ts).view, fun users hlen ↦ ?_⟩
    rw [replied, run_append, ← replied, view_calls fun _ ↦ harrived]
    exact finished_of_measure (Owes dram reqs) remaining owes_next
      (fun _ user h hfin ↦ (h.next hfin user).2) howes hlen

end Run

/-- A request for two units. -/
example : (run (handleRead fun i ↦ i.setWidth 512).next
    ⟨fun _ ↦ [{ address := 64, length := 128 }], {}, []⟩ [0, 0, 0, 0, 0]).out.map (fun d ↦ d.last)
      = [0, 0, 0, 1] := by
  decide +kernel

end FpgaOs.AppRdma
