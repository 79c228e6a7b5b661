import FpgaOs.Rdm.Served

/-!
# Requests of any length

`Packet` has only such lengths as the data mover can read at once. What is allocated and written can
be longer, and what happens then is a question in itself, so here are the requests of any length: an
`ALLOC`, and a `WRITE` with its data. The service is bound to serve them from the first state on, as
it is for packets.
-/

namespace FpgaOs.Rdm

open BitField Mapping Service

/-- An `ALLOC`, or a `WRITE` with its data. -/
structure Request where
  eth : NetAxis
  app : NetAxis
  payload : List NetAxis
  opcode_mem : app.opcode = opcodeWrite ∨ app.opcode = opcodeAlloc
  /-- The length of a `WRITE` can be rounded up. -/
  length_mem : app.opcode = opcodeWrite → 1 ≤ app.length.toNat ∧ app.length.toNat ≤ 2 ^ 64 - 64
  payload_length : payload.length = if app.opcode = opcodeWrite then unitsOf app.length.toNat else 0
  last_iff : ∀ i d, payload[i]? = some d → (d.last = 1 ↔ i + 1 = payload.length)

namespace Request

def units (r : Request) : List NetAxis := r.eth :: r.app :: r.payload

/-- The request that `parser` hands on. -/
def info (r : Request) (base : PipelineInfo) (nr : BitVec 64) : PipelineInfo :=
  ({ base with nrPacket := nr, ethHeader := r.eth } : PipelineInfo).parse r.app

end Request

/-- The requests that `parser` hands on. -/
def requestInfos : PipelineInfo → BitVec 64 → List Request → List PipelineInfo
  | _, _, [] => []
  | base, nr, r :: rs => r.info base nr :: requestInfos (r.info base nr) (nr + 1) rs

section Parse

/-- All stages take the length of a `WRITE` for the same number of units. -/
theorem toNat_nrUnits_request {r : Request} (hop : r.app.opcode = opcodeWrite) (base : PipelineInfo)
    (nr : BitVec 64) :
    (r.info base nr).nrUnits.toNat = r.payload.length := by
  have hlen := r.payload_length
  obtain ⟨hpos, hle⟩ := r.length_mem hop
  have hunits (l : BitVec 64) :=
    toNat_roundUp (x := l) (by decide : (64 - 1 : BitVec 64).toNat = 2 ^ 6 - 1)
  have hdiv : (r.info base nr).nrUnits.toNat = (roundUp (roundUp r.app.length 64) 64).toNat / 64 :=
    BitVec.toNat_udiv
  rw [if_pos hop, unitsOf] at hlen
  rw [hdiv, hunits, toNat_sub_one, hunits, toNat_sub_one, hlen]
  omega

theorem hasData_request (r : Request) (base : PipelineInfo) (nr : BitVec 64) :
    HasData r.app r.payload (headerInfo r.eth r.app base nr).nrUnits.toNat := by
  have hpay := r.payload_length
  rw [HasData]
  split
  · next hop =>
    obtain ⟨hpos, -⟩ := r.length_mem hop
    rw [if_pos hop, unitsOf] at hpay
    refine ⟨List.ne_nil_of_length_pos (by omega), r.last_iff, ?_⟩
    exact (toNat_nrUnits_request hop base nr).symm
  · next hop =>
    rw [if_neg hop] at hpay
    exact List.eq_nil_of_length_eq_zero hpay

theorem feed_requests (rs : List Request) {st : Parser} (hst : st.state = .ethHeader) :
    st.feed (rs.flatMap Request.units)
      = (requestInfos st.pi st.nrRdmPacket rs, rs.flatMap Request.payload)
      ∧ (st.after (rs.flatMap Request.units)).state = .ethHeader := by
  induction rs generalizing st with
  | nil => exact ⟨rfl, hst⟩
  | cons r rs ih =>
    obtain ⟨st', hst', hpi, hnr, hfeed, hafter⟩ :=
      feed_packet hst (hasData_request r _ _) (rs.flatMap Request.units)
    obtain ⟨hrest, hend⟩ := ih hst'
    rw [List.flatMap_cons, Request.units, hfeed, hafter, hrest, hpi, hnr]
    exact ⟨rfl, hend⟩

theorem lasts_requests (rs : List Request) (base : PipelineInfo) (nr : BitVec 64) :
    lasts (rs.flatMap Request.payload) = writes (requestInfos base nr rs)
      ∧ EndsLast (rs.flatMap Request.payload) := by
  induction rs generalizing base nr with
  | nil => exact ⟨rfl, endsLast_nil⟩
  | cons r rs ih =>
    obtain ⟨hcount, hends⟩ := ih (r.info base nr) (nr + 1)
    obtain ⟨hcount', hends'⟩ := (hasData_request r base nr).lasts
    rw [List.flatMap_cons, lasts_append, hcount, hcount', requestInfos, writes_cons, Nat.add_comm]
    exact ⟨rfl, hends'.append hends⟩

theorem proper_requestInfos (base : PipelineInfo) (nr : BitVec 64) (rs : List Request) :
    ∀ pi ∈ requestInfos base nr rs, pi.Proper := by
  induction rs generalizing base nr with
  | nil => exact List.forall_mem_nil _
  | cons r rs ih =>
    refine List.forall_mem_cons.mpr ⟨?_, ih _ _⟩
    have hne : (r.info base nr).opcode ≠ opcodeRead := by
      have hop : (r.info base nr).opcode = r.app.opcode := rfl
      rw [hop]
      rcases r.opcode_mem with hwr | halloc
      · rw [hwr]; decide
      · rw [halloc]; decide
    exact ⟨.inr r.opcode_mem, fun h ↦ absurd h hne, fun h ↦ absurd h hne, fun h ↦ absurd h hne⟩

end Parse

/-- What will reach the stages from the first state on. -/
def View.ofRequests (e : Env) (rs : List Request) : View :=
  .start e (rs.flatMap Request.units) (requestInfos {} 1 rs) (rs.flatMap Request.payload)

theorem Inv.ofRequests (e : Env) (rs : List Request) :
    Inv e (served e .first (requestInfos {} 1 rs)) (.ofRequests e rs)
      (Service.init (rs.flatMap Request.units)) := by
  obtain ⟨hfeed, hend⟩ := @feed_requests rs ⟨.ethHeader, {}, 0, 1⟩ rfl
  obtain ⟨hcount, hends⟩ := lasts_requests rs {} 1
  exact Inv.start hfeed hend hcount hends (proper_requestInfos _ _ _)

end FpgaOs.Rdm
