import FpgaOs.AppRdma.HandleRead

/-!
# The write handler of `app_rdma`

`handle_write` has two streams, the requests and the units of all payloads one after the other. It
takes a request and then units up to one with `last`, and stores those that the length of the
request allows. Which payload belongs to which request is nowhere written down, so the handler is
right only as long as it takes a payload for every request. For a request with an unaligned address
it takes none, and the payload is stored by the next request that is aligned.

Two more things go wrong in the arithmetic. The number of units that are allowed is computed from
`length + 63` in 64 bits, which wraps for the largest lengths; and the units are counted in 32 bits,
so after 2 ^ 32 units the count starts again and passes for one that is allowed.
-/

namespace FpgaOs.AppRdma

open Machine Process BitField Rdm

/-! ## The code -/

/-- `enum handle_write_state`. -/
inductive WriteState
  | idle
  | dataflow
  deriving DecidableEq

/-- The static variables of `handle_write`, and DRAM. -/
structure HandleWrite where
  startIndex : BitVec 32 := 0
  offset : BitVec 32 := 0
  address : BitVec 64 := 0
  length : BitVec 64 := 0
  nrMaxUnits : BitVec 64 := 0
  writeState : WriteState := .idle
  dram : Dram

namespace HandleWrite

/-- A call in WRITE_IDLE that finds a request. -/
def readReq (s : HandleWrite) (req : Request) : HandleWrite :=
  { s with
    length := req.length
    nrMaxUnits := (req.length + 64 - 1) / 64
    address := req.address
    startIndex := (req.address / 64).setWidth 32
    offset := 0
    writeState := if req.address % 64 = 0 then .dataflow else s.writeState }

/-- A call in WRITE_DATAFLOW that finds a unit. -/
def readData (s : HandleWrite) (data : NetAxis) : HandleWrite :=
  let index := s.startIndex + s.offset
  { s with
    dram := if s.offset.setWidth 64 < s.nrMaxUnits then Function.update s.dram index data.data
      else s.dram
    offset := s.offset + 1
    writeState := if data.last = 1 then .idle else s.writeState }

end HandleWrite

/-- The two streams that `handle_write` reads. -/
inductive WriteStream
  | req
  | data
  deriving DecidableEq

/-- What they carry. -/
abbrev WriteStream.Carries : WriteStream → Type
  | .req => Request
  | .data => NetAxis

/-- `handle_write`. -/
def handleWrite : Process WriteStream WriteStream.Carries HandleWrite Empty Unit where
  wants s :=
    match s.writeState with
    | .idle => some .req
    | .dataflow => some .data
  work s _ := (s, [])
  read
    | .req, s, req, _ => (s.readReq req, [])
    | .data, s, data, _ => (s.readData data, [])

/-! ## What is expected -/

/-- A write request and its payload. -/
structure Write where
  req : Request
  payload : List NetAxis
  marked : Marked (fun d : NetAxis ↦ d.last = 1) payload

/-- The units are stored at consecutive indices. -/
def storeUnits (index : BitVec 32) (dram : Dram) : List NetAxis → Dram
  | [] => dram
  | d :: ds => storeUnits (index + 1) (Function.update dram index d.data) ds

/-- `length / 64`, rounded up. -/
def unitsOf (length : BitVec 64) : ℕ := (length.toNat + 63) / 64

/-- What a write is to make of DRAM. -/
def Write.applied (dram : Dram) (w : Write) : Dram :=
  if 64 ∣ w.req.address.toNat then
    storeUnits (BitVec.ofNat 32 (w.req.address.toNat / 64)) dram
      (w.payload.take (unitsOf w.req.length))
  else dram

/-- The two streams of a sequence of writes. -/
def writeStreams (ws : List Write) : ∀ i : WriteStream, List i.Carries
  | .req => ws.map Write.req
  | .data => ws.flatMap Write.payload

/-- The handler on a sequence of writes, under a schedule of arrivals and calls. -/
def written (dram : Dram) (ws : List Write) (ts : List (Turn WriteStream Unit)) :
    Fed WriteStream.Carries HandleWrite Empty :=
  run handleWrite.step (start { dram } (writeStreams ws)) ts

/-- When the handler has nothing more to do, it has made of DRAM what the writes are to make of it,
and has taken all payloads; and when all units have arrived it gets there with some number of
calls. -/
structure Stores (dram : Dram) (ws : List Write) (ts : List (Turn WriteStream Unit)) : Prop where
  done : handleWrite.Finished (written dram ws ts).view →
    (written dram ws ts).st.dram = ws.foldl Write.applied dram
      ∧ ∀ i, (written dram ws ts).view.unread i = []
  ends : (∀ i, (written dram ws ts).input i = []) → ∃ n, ∀ calls : List Unit, n ≤ calls.length →
    handleWrite.Finished (written dram ws (ts ++ calls.map .call)).view

/-! ## What the code makes of a write -/

/-- The units whose number, counted in 32 bits, is below `cap` are stored. -/
def storeSome (cap : BitVec 64) (start : BitVec 32) : BitVec 32 → Dram → List NetAxis → Dram
  | _, dram, [] => dram
  | offset, dram, d :: ds =>
    storeSome cap start (offset + 1)
      (if offset.setWidth 64 < cap then Function.update dram (start + offset) d.data else dram) ds

/-- What the code makes of DRAM with a write whose address is aligned. -/
def Write.coded (dram : Dram) (w : Write) : Dram :=
  storeSome ((w.req.length + 64 - 1) / 64) ((w.req.address / 64).setWidth 32) 0 dram w.payload

/-- The handler is between two writes, or within one, and what is still to come makes `target` of
DRAM. The addresses of all writes are aligned. -/
inductive Writing (target : Dram) (v : View WriteStream.Carries HandleWrite Empty) : Prop
  | idle (ws : List Write) (state : v.st.writeState = .idle)
    (req : v.unread .req = ws.map Write.req) (data : v.unread .data = ws.flatMap Write.payload)
    (aligned : ∀ w ∈ ws, 64 ∣ w.req.address.toNat)
    (result : ws.foldl Write.coded v.st.dram = target)
  | dataflow (ws : List Write) (ds : List NetAxis) (state : v.st.writeState = .dataflow)
    (marked : Marked (fun d : NetAxis ↦ d.last = 1) ds) (req : v.unread .req = ws.map Write.req)
    (data : v.unread .data = ds ++ ws.flatMap Write.payload)
    (aligned : ∀ w ∈ ws, 64 ∣ w.req.address.toNat)
    (result : ws.foldl Write.coded
      (storeSome v.st.nrMaxUnits v.st.startIndex v.st.offset v.st.dram ds) = target)

section Run

variable {target : Dram} {v : View WriteStream.Carries HandleWrite Empty}

theorem wants_idle {s : HandleWrite} (h : s.writeState = .idle) :
    handleWrite.wants s = some .req := by
  rw [handleWrite]
  dsimp only
  rw [h]

theorem wants_dataflow {s : HandleWrite} (h : s.writeState = .dataflow) :
    handleWrite.wants s = some .data := by
  rw [handleWrite]
  dsimp only
  rw [h]

theorem next_req {req : Request} {reqs : List Request} (hst : v.st.writeState = .idle)
    (hreq : v.unread .req = req :: reqs) (g : Unit) :
    (handleWrite.next v g).st = v.st.readReq req ∧ (handleWrite.next v g).unread .req = reqs
      ∧ (handleWrite.next v g).unread .data = v.unread .data := by
  rw [next_of_cons (wants_idle hst) hreq]
  have hne : WriteStream.data ≠ .req := by decide
  exact ⟨rfl, Function.update_self WriteStream.req reqs v.unread,
    Function.update_of_ne hne reqs v.unread⟩

theorem next_data {d : NetAxis} {ds : List NetAxis} (hst : v.st.writeState = .dataflow)
    (hdata : v.unread .data = d :: ds) (g : Unit) :
    (handleWrite.next v g).st = v.st.readData d ∧ (handleWrite.next v g).unread .data = ds
      ∧ (handleWrite.next v g).unread .req = v.unread .req := by
  rw [next_of_cons (wants_dataflow hst) hdata]
  have hne : WriteStream.req ≠ .data := by decide
  exact ⟨rfl, Function.update_self WriteStream.data ds v.unread,
    Function.update_of_ne hne ds v.unread⟩

/-- The call takes a request or a unit of data. -/
theorem Writing.next (h : Writing target v) (g : Unit) : Writing target (handleWrite.next v g) := by
  cases h with
  | idle ws state req data aligned result =>
    cases ws with
    | nil =>
      rw [next_of_finished ⟨.req, wants_idle state, req⟩]
      exact .idle [] state req data aligned result
    | cons w ws =>
      obtain ⟨haligned, hrest⟩ := List.forall_mem_cons.mp aligned
      obtain ⟨hst, hreq, hdata⟩ := next_req state req g
      refine .dataflow ws w.payload ?_ w.marked hreq (hdata.trans data) hrest ?_
      · rw [hst]
        exact if_pos ((umod_eq_zero_iff _).mpr haligned)
      · rw [hst]
        exact result
  | dataflow ws ds state marked req data aligned result =>
    cases ds with
    | nil => exact marked.elim
    | cons d ds =>
      obtain ⟨hst, hdata, hreq⟩ := next_data state data g
      -- the payload of this request ends with its marked unit
      obtain ⟨rfl, hlast⟩ | ⟨hlast, hm⟩ := marked_cons.mp marked
      · refine .idle ws ?_ (hreq.trans req) hdata aligned ?_
        · rw [hst]
          exact if_pos hlast
        · rw [hst]
          exact result
      · refine .dataflow ws ds ?_ hm (hreq.trans req) hdata aligned ?_
        · rw [hst]
          exact (if_neg hlast).trans state
        · rw [hst]
          exact result

/-- A handler that has nothing more to do has made `target` of DRAM and has taken everything. -/
theorem Writing.done (h : Writing target v) (hfin : handleWrite.Finished v) :
    v.st.dram = target ∧ ∀ i, v.unread i = [] := by
  obtain ⟨i, hw, hunread⟩ := hfin
  cases h with
  | idle ws state req data aligned result =>
    rw [wants_idle state] at hw
    obtain rfl := Option.some.inj hw
    obtain rfl := List.map_eq_nil_iff.mp (req.symm.trans hunread)
    refine ⟨result, fun i ↦ ?_⟩
    cases i with
    | req => exact req
    | data => exact data
  | dataflow ws ds state marked req data aligned result =>
    rw [wants_dataflow state] at hw
    obtain rfl := Option.some.inj hw
    exact absurd (List.append_eq_nil_iff.mp (data.symm.trans hunread)).1 marked.ne_nil

/-- The units that have not been read. -/
def unreadUnits (v : View WriteStream.Carries HandleWrite Empty) : ℕ :=
  (v.unread .req).length + (v.unread .data).length

theorem unreadUnits_next (hfin : ¬handleWrite.Finished v) (g : Unit) :
    unreadUnits (handleWrite.next v g) < unreadUnits v := by
  rw [unreadUnits, unreadUnits]
  cases hst : v.st.writeState with
  | idle =>
    obtain ⟨req, reqs, hunread⟩ := exists_unread (wants_idle hst) hfin
    obtain ⟨-, hreq, hdata⟩ := next_req hst hunread g
    rw [hreq, hdata, hunread, List.length_cons]
    omega
  | dataflow =>
    obtain ⟨d, ds, hunread⟩ := exists_unread (wants_dataflow hst) hfin
    obtain ⟨-, hdata, hreq⟩ := next_data hst hunread g
    rw [hreq, hdata, hunread, List.length_cons]
    omega

theorem ends_of_arrived {f : Fed WriteStream.Carries HandleWrite Empty}
    (h : ∀ i, f.input i = []) :
    ∃ n, ∀ calls : List Unit, n ≤ calls.length →
      handleWrite.Finished (run handleWrite.step f (calls.map .call)).view := by
  refine ⟨unreadUnits f.view, fun calls hlen ↦ ?_⟩
  rw [view_calls h]
  exact finished_of_measure (fun _ ↦ True) unreadUnits (fun _ _ _ ↦ trivial)
    (fun _ g _ hfin ↦ unreadUnits_next hfin g) trivial hlen

theorem writing_start {ws : List Write} (haligned : ∀ w ∈ ws, 64 ∣ w.req.address.toNat)
    (dram : Dram) :
    Writing (ws.foldl Write.coded dram)
      (start { dram } (writeStreams ws) : Fed WriteStream.Carries HandleWrite Empty).view :=
  .idle ws rfl rfl rfl haligned rfl

/-- If all addresses are aligned, DRAM is what the code makes of it write by write. -/
theorem written_coded {ws : List Write} (haligned : ∀ w ∈ ws, 64 ∣ w.req.address.toNat)
    (dram : Dram) {ts : List (Turn WriteStream Unit)}
    (hfin : handleWrite.Finished (written dram ws ts).view) :
    (written dram ws ts).st.dram = ws.foldl Write.coded dram
      ∧ ∀ i, (written dram ws ts).view.unread i = [] := by
  have hwriting : Writing (ws.foldl Write.coded dram) (written dram ws ts).view :=
    view_invariant (Writing (ws.foldl Write.coded dram)) (fun _ g h ↦ h.next g)
      (writing_start haligned dram) ts
  exact hwriting.done hfin

end Run

/-! ## Which writes are stored right -/

/-- The address is aligned, the number of units that are allowed does not wrap, and the payload is
not so long that its units are counted twice, unless all of them are allowed or none. -/
def Storable (address length : BitVec 64) (n : ℕ) : Prop :=
  64 ∣ address.toNat ∧ length.toNat ≤ 2 ^ 64 - 64
    ∧ (n ≤ 2 ^ 32 ∨ unitsOf length = 0 ∨ n ≤ unitsOf length)

section Storable

variable {address length : BitVec 64} {cap : BitVec 64} {start offset : BitVec 32} {dram : Dram}
  {ds : List NetAxis}

theorem toNat_nrMaxUnits (h : length.toNat ≤ 2 ^ 64 - 64) :
    ((length + 64 - 1) / 64).toNat = unitsOf length := by
  have hsub : length + 64 - 1 = length + 63 := by bv_omega
  rw [hsub, BitVec.toNat_udiv, BitVec.toNat_add, unitsOf]
  change (length.toNat + 63) % 2 ^ 64 / 64 = _
  rw [Nat.mod_eq_of_lt (by omega)]

theorem nrMaxUnits_of_wraps (h : 2 ^ 64 - 64 < length.toNat) : (length + 64 - 1) / 64 = 0 := by
  have hlt := length.isLt
  have hsub : length + 64 - 1 = length + 63 := by bv_omega
  rw [hsub, ← BitVec.toNat_inj, BitVec.toNat_udiv, BitVec.toNat_add]
  change (length.toNat + 63) % 2 ^ 64 / 64 = 0
  omega

/-- The test of the code on the unit with number `k`. -/
theorem setWidth_lt_iff (cap : BitVec 64) (k : ℕ) :
    (BitVec.ofNat 32 k).setWidth 64 < cap ↔ k % 2 ^ 32 < cap.toNat := by
  rw [BitVec.lt_def, BitVec.toNat_setWidth, BitVec.toNat_ofNat]
  omega

/-- If the units that pass the test of the code are those that are allowed, the code stores what it
is to store. -/
theorem storeSome_eq_storeUnits {n : ℕ} (k : ℕ)
    (h : ∀ j, k ≤ j → j < k + ds.length → (j % 2 ^ 32 < cap.toNat ↔ j < n)) :
    storeSome cap start (BitVec.ofNat 32 k) dram ds
      = storeUnits (start + BitVec.ofNat 32 k) dram (ds.take (n - k)) := by
  induction ds generalizing k dram with
  | nil => rw [List.take_nil]; rfl
  | cons d ds ih =>
    have hrest := @ih (if (BitVec.ofNat 32 k).setWidth 64 < cap then
      Function.update dram (start + BitVec.ofNat 32 k) d.data else dram) (k + 1)
      fun j hj hlt ↦ h j (by omega) (by rw [List.length_cons]; omega)
    have htest := h k (Nat.le_refl k) (by rw [List.length_cons]; omega)
    rw [BitVec.ofNat_add, ← BitVec.add_assoc] at hrest
    rw [storeSome]
    refine hrest.trans ?_
    by_cases hk : k < n
    · rw [if_pos ((setWidth_lt_iff cap k).mpr (htest.mpr hk)),
        show n - k = n - (k + 1) + 1 by omega,
        List.take_succ_cons]
      rfl
    · rw [if_neg fun hlt ↦ hk (htest.mp ((setWidth_lt_iff cap k).mp hlt)),
        show n - k = 0 by omega, show n - (k + 1) = 0 by omega]
      rfl

/-- **A storable write is stored right.** -/
theorem coded_eq_applied {w : Write}
    (h : Storable w.req.address w.req.length w.payload.length) (dram : Dram) :
    w.coded dram = w.applied dram := by
  obtain ⟨haligned, hlen, hunits⟩ := h
  have htest : ∀ j, 0 ≤ j → j < 0 + w.payload.length →
      (j % 2 ^ 32 < ((w.req.length + 64 - 1) / 64).toNat ↔ j < unitsOf w.req.length) := by
    intro j _ hj
    rw [toNat_nrMaxUnits hlen]
    omega
  have hindex := ofNat_index w.req.address 0
  rw [Nat.add_zero, BitVec.add_zero] at hindex
  rw [Write.coded, Write.applied, if_pos haligned, hindex]
  exact storeSome_eq_storeUnits 0 htest

/-- A unit that is stored over units with the same data stays. -/
theorem storeUnits_apply_of_forall {x : BitVec 512} (hds : ∀ d ∈ ds, d.data = x)
    {index i : BitVec 32} (h : dram i = x) : storeUnits index dram ds i = x := by
  induction ds generalizing index dram with
  | nil => exact h
  | cons d ds ih =>
    obtain ⟨hd, hds⟩ := List.forall_mem_cons.mp hds
    apply ih hds
    by_cases hi : i = index
    · rw [hi, Function.update_self, hd]
    · rw [Function.update_of_ne hi, h]

theorem storeSome_apply_of_forall {x : BitVec 512} (hds : ∀ d ∈ ds, d.data = x) {i : BitVec 32}
    (h : dram i = x) : storeSome cap start offset dram ds i = x := by
  induction ds generalizing offset dram with
  | nil => exact h
  | cons d ds ih =>
    obtain ⟨hd, hds⟩ := List.forall_mem_cons.mp hds
    apply ih hds
    split
    · by_cases hi : i = start + offset
      · rw [hi, Function.update_self, hd]
      · rw [Function.update_of_ne hi, h]
    · exact h

theorem storeUnits_apply_first {x : BitVec 512} (hne : ds ≠ []) (hds : ∀ d ∈ ds, d.data = x)
    (index : BitVec 32) (dram : Dram) : storeUnits index dram ds index = x := by
  obtain ⟨d, ds, rfl⟩ := List.exists_cons_of_ne_nil hne
  obtain ⟨hd, hds⟩ := List.forall_mem_cons.mp hds
  exact storeUnits_apply_of_forall hds (by rw [Function.update_self, hd])

theorem storeSome_apply_first {x : BitVec 512} (hne : ds ≠ []) (hds : ∀ d ∈ ds, d.data = x)
    (htest : offset.setWidth 64 < cap) (dram : Dram) :
    storeSome cap start offset dram ds (start + offset) = x := by
  obtain ⟨d, ds, rfl⟩ := List.exists_cons_of_ne_nil hne
  obtain ⟨hd, hds⟩ := List.forall_mem_cons.mp hds
  rw [storeSome, if_pos htest]
  exact storeSome_apply_of_forall hds (by rw [Function.update_self, hd])

theorem storeSome_zero : storeSome 0 start offset dram ds = dram := by
  induction ds generalizing offset with
  | nil => rfl
  | cons d ds ih =>
    have hnot : ¬offset.setWidth 64 < (0 : BitVec 64) := BitVec.not_lt_zero
    rw [storeSome, if_neg hnot, ih]

theorem storeSome_append (cap : BitVec 64) (start : BitVec 32) (dram : Dram)
    (ds ds' : List NetAxis) (k : ℕ) :
    storeSome cap start (BitVec.ofNat 32 k) dram (ds ++ ds')
      = storeSome cap start (BitVec.ofNat 32 (k + ds.length))
        (storeSome cap start (BitVec.ofNat 32 k) dram ds) ds' := by
  induction ds generalizing k dram with
  | nil => rfl
  | cons d ds ih =>
    rw [List.cons_append, storeSome, storeSome, List.length_cons, Nat.add_comm ds.length,
      ← Nat.add_assoc]
    have hnext : BitVec.ofNat 32 k + 1 = BitVec.ofNat 32 (k + 1) := (BitVec.ofNat_add k 1).symm
    rw [hnext]
    exact ih _ (k + 1)

end Storable

/-! ## Writes that are not stored right -/

section Converse

/-- A write with some units of zeros and then units of ones, at least one. -/
def testWrite (address length : BitVec 64) (zeros ones : ℕ) : Write where
  req := { address, length }
  payload := List.replicate zeros {} ++ (List.replicate ones { data := 1 }
    ++ [{ data := 1, last := 1 }])
  marked := by
    rw [← List.append_assoc]
    apply marked_concat
    · intro d hd
      rcases List.mem_append.mp hd with hd | hd
      · rw [List.eq_of_mem_replicate hd]
        decide
      · rw [List.eq_of_mem_replicate hd]
        decide
    · rfl

variable {address length : BitVec 64} {zeros ones : ℕ} {dram : Dram} {w : Write}

theorem length_testWrite :
    (testWrite address length zeros ones).payload.length = zeros + (ones + 1) := by
  rw [testWrite, List.length_append, List.length_append, List.length_replicate,
    List.length_replicate, List.length_singleton]

theorem data_eq_one {d : NetAxis}
    (hd : d ∈ List.replicate ones { data := 1 } ++ [({ data := 1, last := 1 } : NetAxis)]) :
    d.data = 1 := by
  rcases List.mem_append.mp hd with hd | hd
  · rw [List.eq_of_mem_replicate hd]
  · rw [List.mem_singleton.mp hd]

theorem zero_ne_one : (0 : BitVec 512) ≠ 1 := by simp

theorem testWrite_ones_ne_nil (ones : ℕ) :
    List.replicate ones { data := 1 } ++ [({ data := 1, last := 1 } : NetAxis)] ≠ [] :=
  List.append_ne_nil_of_right_ne_nil _ (List.cons_ne_nil _ _)

/-- Nothing is stored when the number of units wraps. -/
theorem coded_ne_applied_of_wraps (haligned : 64 ∣ address.toNat)
    (h : 2 ^ 64 - 64 < length.toNat) (ones : ℕ) :
    (testWrite address length 0 ones).coded (fun _ ↦ 0)
      ≠ (testWrite address length 0 ones).applied (fun _ ↦ 0) := by
  intro heq
  have hpos : 0 < unitsOf length := by rw [unitsOf]; omega
  have hcoded : (testWrite address length 0 ones).coded (fun _ ↦ 0) = fun _ ↦ 0 := by
    rw [Write.coded, testWrite, nrMaxUnits_of_wraps h, storeSome_zero]
  have happlied : (testWrite address length 0 ones).applied (fun _ ↦ 0)
      (BitVec.ofNat 32 (address.toNat / 64)) = 1 := by
    have haligned' : 64 ∣ (testWrite address length 0 ones).req.address.toNat := haligned
    have hpayload : (testWrite address length 0 ones).payload
      = List.replicate ones { data := 1 } ++ [{ data := 1, last := 1 }] := rfl
    rw [Write.applied, if_pos haligned', hpayload]
    apply storeUnits_apply_first
    · rw [Ne, List.take_eq_nil_iff, not_or]
      exact ⟨hpos.ne', testWrite_ones_ne_nil ones⟩
    · exact fun d hd ↦ data_eq_one (List.mem_of_mem_take hd)
  rw [← heq, hcoded] at happlied
  exact zero_ne_one happlied

/-- A unit that is not allowed is stored when it passes for one that is. -/
theorem coded_ne_applied_of_recount (haligned : 64 ∣ address.toNat)
    (h : length.toNat ≤ 2 ^ 64 - 64) (hzeros : unitsOf length ≤ zeros)
    (htest : zeros % 2 ^ 32 < unitsOf length) (ones : ℕ) :
    (testWrite address length zeros ones).coded (fun _ ↦ 0)
      ≠ (testWrite address length zeros ones).applied (fun _ ↦ 0) := by
  intro heq
  have hcoded : (testWrite address length zeros ones).coded (fun _ ↦ 0)
      ((address / 64).setWidth 32 + BitVec.ofNat 32 zeros) = 1 := by
    rw [Write.coded, testWrite]
    have hsplit := storeSome_append ((length + 64 - 1) / 64) ((address / 64).setWidth 32)
      (fun _ ↦ 0) (List.replicate zeros {})
      (List.replicate ones { data := 1 } ++ [{ data := 1, last := 1 }]) 0
    rw [List.length_replicate, Nat.zero_add] at hsplit
    refine (congrFun hsplit _).trans ?_
    apply storeSome_apply_first (testWrite_ones_ne_nil ones) fun d hd ↦ data_eq_one hd
    rwa [setWidth_lt_iff, toNat_nrMaxUnits h]
  have happlied : (testWrite address length zeros ones).applied (fun _ ↦ 0)
      ((address / 64).setWidth 32 + BitVec.ofNat 32 zeros) = 0 := by
    rw [Write.applied, testWrite, if_pos haligned,
      List.take_append_of_le_length (by rw [List.length_replicate]; exact hzeros)]
    apply storeUnits_apply_of_forall
    · intro d hd
      rw [List.eq_of_mem_replicate (List.mem_of_mem_take hd)]
    · rfl
  rw [heq, happlied] at hcoded
  exact zero_ne_one hcoded

/-- If the code makes of every write of a shape what it is to make, the shape is storable. -/
theorem storable_of_forall {n : ℕ} (hn : 0 < n) (haligned : 64 ∣ address.toNat)
    (h : ∀ w : Write, w.req.address = address → w.req.length = length → w.payload.length = n →
      w.coded (fun _ ↦ 0) = w.applied (fun _ ↦ 0)) :
    Storable address length n := by
  have htest : ∀ zeros ones, zeros + (ones + 1) = n →
      (testWrite address length zeros ones).coded (fun _ ↦ 0)
        = (testWrite address length zeros ones).applied (fun _ ↦ 0) :=
    fun zeros ones hlen ↦ h _ rfl rfl (length_testWrite.trans hlen)
  have hlength : length.toNat ≤ 2 ^ 64 - 64 := by
    by_contra hwraps
    exact coded_ne_applied_of_wraps haligned (Nat.not_le.mp hwraps) (n - 1)
      (htest 0 (n - 1) (by omega))
  refine ⟨haligned, hlength, ?_⟩
  by_contra hlong
  rw [not_or, not_or] at hlong
  -- the first unit that is counted twice, or that is not allowed if more are allowed than that
  have hzeros : unitsOf length ≤ max (2 ^ 32) (unitsOf length) := Nat.le_max_right ..
  have hmod : max (2 ^ 32) (unitsOf length) % 2 ^ 32 < unitsOf length := by omega
  refine coded_ne_applied_of_recount haligned hlength hzeros hmod
    (n - max (2 ^ 32) (unitsOf length) - 1) (htest _ _ (by omega))

theorem exists_finished (dram : Dram) (ws : List Write) :
    ∃ ts, handleWrite.Finished (written dram ws ts).view := by
  obtain ⟨ts, hts⟩ := exists_arrived handleWrite (start { dram } (writeStreams ws)) [.req, .data]
  have harrived : ∀ i, (written dram ws ts).input i = [] := by
    intro i
    cases i with
    | req => exact hts .req (by decide)
    | data => exact hts .data (by decide)
  obtain ⟨n, hn⟩ := ends_of_arrived harrived
  refine ⟨ts ++ (List.replicate n ()).map .call, ?_⟩
  rw [written, run_append]
  exact hn _ (by rw [List.length_replicate])

/-- The payload of a single write whose address is not aligned is never taken. -/
theorem unread_of_not_aligned (hw : ¬64 ∣ w.req.address.toNat)
    (ts : List (Turn WriteStream Unit)) :
    (written dram [w] ts).view.unread .data = w.payload := by
  have hinv : ∀ (v : View WriteStream.Carries HandleWrite Empty) (g : Unit),
      v.st.writeState = .idle ∧ (∀ req ∈ v.unread .req, req = w.req) ∧ v.unread .data = w.payload →
      (handleWrite.next v g).st.writeState = .idle
        ∧ (∀ req ∈ (handleWrite.next v g).unread .req, req = w.req)
        ∧ (handleWrite.next v g).unread .data = w.payload := by
    rintro v g ⟨hst, hreq, hdata⟩
    match hunread : v.unread .req with
    | [] =>
      rw [next_of_finished ⟨.req, wants_idle hst, hunread⟩]
      exact ⟨hst, hreq, hdata⟩
    | req :: reqs =>
      rw [hunread] at hreq
      obtain ⟨rfl, hreqs⟩ := List.forall_mem_cons.mp hreq
      obtain ⟨hst', hreq', hdata'⟩ := next_req hst hunread g
      rw [hst', hreq', hdata']
      exact ⟨(if_neg fun hmod ↦ hw ((umod_eq_zero_iff _).mp hmod)).trans hst, hreqs, hdata⟩
  have hreq : ∀ req ∈ [w.req], req = w.req := fun req hreq ↦ List.mem_singleton.mp hreq
  have hdata : [w].flatMap Write.payload = w.payload := List.append_nil _
  exact (view_invariant (f := start { dram } (writeStreams [w])) _ hinv ⟨rfl, hreq, hdata⟩ ts).2.2

end Converse

/-- **Storable writes are stored**, under every schedule. -/
theorem stores_of_storable {ws : List Write}
    (h : ∀ w ∈ ws, Storable w.req.address w.req.length w.payload.length) (dram : Dram)
    (ts : List (Turn WriteStream Unit)) : Stores dram ws ts where
  done hfin := by
    obtain ⟨hdram, hunread⟩ := written_coded (fun w hw ↦ (h w hw).1) dram hfin
    refine ⟨hdram.trans ?_, hunread⟩
    exact List.foldl_ext _ _ _ fun dram w hw ↦ coded_eq_applied (h w hw) dram
  ends harrived := by
    obtain ⟨n, hn⟩ := ends_of_arrived harrived
    refine ⟨n, fun calls hlen ↦ ?_⟩
    rw [written, run_append]
    exact hn calls hlen

/-- A payload for an unaligned address is taken by no request. -/
theorem aligned_of_stores {n : ℕ} (hn : 0 < n)
    (h : ∀ w : Write, w.req.address = address → w.req.length = length → w.payload.length = n →
      ∀ dram ts, Stores dram [w] ts) : 64 ∣ address.toNat := by
  by_contra hnot
  obtain ⟨ts, hfin⟩ := exists_finished (fun _ ↦ 0) [testWrite address length 0 (n - 1)]
  have hdone := (h (testWrite address length 0 (n - 1)) rfl rfl
    (length_testWrite.trans (by omega)) _ ts).done hfin
  exact (testWrite address length 0 (n - 1)).marked.ne_nil
    ((unread_of_not_aligned hnot ts).symm.trans (hdone.2 .data))

/-- **What is stored.** All sequences of writes of given shapes are stored, under every schedule,
exactly when each of these shapes is storable. -/
theorem stores_iff_storable (shape : BitVec 64 → BitVec 64 → ℕ → Prop) :
    (∀ ws : List Write, (∀ w ∈ ws, shape w.req.address w.req.length w.payload.length) →
      ∀ dram ts, Stores dram ws ts)
      ↔ ∀ address length n, 0 < n → shape address length n → Storable address length n := by
  constructor
  · intro h address length n hn hshape
    have hsingle : ∀ w : Write, w.req.address = address → w.req.length = length →
        w.payload.length = n → ∀ dram ts, Stores dram [w] ts := by
      rintro w rfl rfl rfl
      exact h [w] fun w' hw' ↦ by rwa [List.mem_singleton.mp hw']
    have haligned := aligned_of_stores hn hsingle
    refine storable_of_forall hn haligned fun w haddress hlength hlen ↦ ?_
    obtain ⟨ts, hfin⟩ := exists_finished (fun _ ↦ 0) [w]
    obtain ⟨hdram, -⟩ := (hsingle w haddress hlength hlen _ ts).done hfin
    have hw : ∀ w' ∈ [w], 64 ∣ w'.req.address.toNat := by
      intro w' hw'
      rw [List.mem_singleton.mp hw', haddress]
      exact haligned
    exact (written_coded hw _ hfin).1.symm.trans hdram
  · intro h ws hws dram ts
    refine stores_of_storable (fun w hw ↦ h _ _ _ ?_ (hws w hw)) dram ts
    exact List.length_pos_iff.mpr w.marked.ne_nil

/-- A write to an unaligned address. -/
def unalignedWrite : Write :=
  ⟨{ address := 1, length := 64 }, [{ data := 1, last := 1 }], by decide⟩

/-- A write to an aligned address. -/
def alignedWrite : Write := ⟨{ address := 64, length := 64 }, [{ data := 2, last := 1 }], by decide⟩

/-- Everything arrives, and the handler is called three times. -/
def threeCalls : List (Turn WriteStream Unit) :=
  [.arrive .req, .arrive .req, .arrive .data, .arrive .data, .call (), .call (), .call ()]

/-- The payload of the write that is rejected is stored by the next one. -/
theorem not_stores_unaligned : ¬Stores (fun _ ↦ 0) [unalignedWrite, alignedWrite] threeCalls := by
  intro h
  have hfin : handleWrite.Finished
      (written (fun _ ↦ 0) [unalignedWrite, alignedWrite] threeCalls).view :=
    ⟨.req, by decide +kernel, by decide +kernel⟩
  have hstored : (written (fun _ ↦ 0) [unalignedWrite, alignedWrite] threeCalls).st.dram 1 = 1 := by
    decide +kernel
  have hexpected : [unalignedWrite, alignedWrite].foldl Write.applied (fun _ ↦ 0) 1 = 2 := by
    decide +kernel
  rw [(h.done hfin).1, hexpected] at hstored
  simp at hstored

end FpgaOs.AppRdma
