import FpgaOs.Rdm.Future
import FpgaOs.Rdm.Replies

/-!
# What the first state is bound to send

The service starts with all units of the packets still to arrive. This file computes what it is then
bound to send, stage by stage: `parser` recovers the packets, and what the stages below make of a
request is the reply of `Replies`. So the invariant of `Future` holds at the start, with the replies
as the output.
-/

namespace FpgaOs.Rdm

open BitField Mapping Service

/-! ## `parser` -/

/-- The request that `parser` hands on for a packet. -/
def Packet.info (p : Packet) (base : PipelineInfo) (nr : BitVec 64) : PipelineInfo :=
  ({ base with nrPacket := nr, ethHeader := p.eth } : PipelineInfo).parse p.app

/-- The requests that `parser` hands on for packets. Its static variable keeps what the packet
before left. -/
def infos : PipelineInfo → BitVec 64 → List Packet → List PipelineInfo
  | _, _, [] => []
  | base, nr, p :: ps => p.info base nr :: infos (p.info base nr) (nr + 1) ps

section Info

variable (p : Packet) (base : PipelineInfo) (nr : BitVec 64)

theorem toNat_length_info : (p.info base nr).length.toNat = 64 * p.nrUnits := by
  have hlt := p.length_lt
  exact toNat_roundUp_units p.length_pos (by omega)

theorem nrUnits_lt : p.nrUnits < 2 ^ 17 := by
  have hlt := p.length_lt
  rw [Packet.nrUnits, unitsOf]
  omega

theorem toNat_nrUnits_info : (p.info base nr).nrUnits.toNat = p.nrUnits := by
  have hpos := nrUnits_pos p
  have hlt := nrUnits_lt p
  have hlen := toNat_length_info p base nr
  have hround := toNat_roundUp_units (x := (p.info base nr).length) (by omega) (by omega)
  have hdiv : (p.info base nr).nrUnits.toNat = (roundUp (p.info base nr).length 64).toNat / 64 :=
    BitVec.toNat_udiv
  rw [hdiv, hround, hlen, unitsOf]
  omega

theorem toNat_btt_info : (slice (p.info base nr).length 0 23).toNat = 64 * p.nrUnits := by
  have hlt := nrUnits_lt p
  rw [slice, BitVec.extractLsb'_toNat, toNat_length_info, Nat.shiftRight_zero, Nat.mod_eq_of_lt]
  omega

theorem proper_info : (p.info base nr).Proper where
  opcode_mem := p.opcode_mem
  pos _ := by
    rw [toNat_nrUnits_info]
    exact nrUnits_pos p
  lt _ := by
    have hlt := nrUnits_lt p
    rw [toNat_nrUnits_info]
    omega
  btt _ := by
    rw [toNat_nrUnits_info, toNat_btt_info]
    omega

end Info

section Feed

/-- A counter of 32 bits, taken for an `int`, does not meet a number of units before its time. -/
theorem signExtend_ofNat_ne {i : ℕ} {n : BitVec 64} (hi : i + 1 < n.toNat) (hn : n.toNat ≤ 2 ^ 58) :
    (BitVec.ofNat 32 i).signExtend 64 ≠ n - 1 := by
  intro heq
  have hnat := congrArg BitVec.toNat heq
  rw [toNat_sub_one, BitVec.toNat_signExtend, BitVec.toNat_setWidth, BitVec.toNat_ofNat] at hnat
  split at hnat
  · omega
  · omega

theorem Parser.read_stream {st : Parser} (hst : st.state = .stream) {d : NetAxis} (hd : d.last ≠ 1)
    {i : ℕ} (hoff : st.offset = BitVec.ofNat 32 i) (hi : i + 1 < st.pi.nrUnits.toNat)
    (hn : st.pi.nrUnits.toNat ≤ 2 ^ 58) :
    st.read d = ({ st with offset := st.offset + 1 }, none, some d)
      ∧ st.offset + 1 = BitVec.ofNat 32 (i + 1) := by
  constructor
  · rw [Parser.read, hst]
    dsimp only
    rw [if_neg hd, hoff, if_neg (signExtend_ofNat_ne hi hn)]
  · rw [hoff, BitVec.ofNat_add]
    rfl

theorem feed_stream {st : Parser} (hst : st.state = .stream) {ds : List NetAxis} (hne : ds ≠ [])
    (hlast : ∀ i d, ds[i]? = some d → (d.last = 1 ↔ i + 1 = ds.length)) {n : ℕ}
    (hoff : st.offset = BitVec.ofNat 32 n) (hlen : n + ds.length = st.pi.nrUnits.toNat)
    (hn : st.pi.nrUnits.toNat ≤ 2 ^ 58) (rest : List NetAxis) :
    ∃ st' : Parser, st'.state = .ethHeader ∧ st'.pi = st.pi ∧ st'.nrRdmPacket = st.nrRdmPacket
      ∧ st.feed (ds ++ rest) = ((st'.feed rest).1, ds ++ (st'.feed rest).2)
      ∧ st.after (ds ++ rest) = st'.after rest := by
  induction ds generalizing st n with
  | nil => exact absurd rfl hne
  | cons d ds ih =>
    have hd := hlast 0 d rfl
    rw [List.length_cons] at hd hlen
    rw [List.cons_append, Parser.feed, Parser.after, List.foldl_cons]
    -- the last unit has the mark; before it the count is below the length
    cases ds with
    | nil =>
      have hread : st.read d = ({ st with state := .ethHeader }, none, some d) := by
        rw [Parser.read, hst]
        dsimp only
        rw [if_pos (hd.mpr rfl)]
      rw [hread]
      exact ⟨{ st with state := .ethHeader }, rfl, rfl, rfl, rfl, rfl⟩
    | cons d' ds =>
      have hd' : d.last ≠ 1 := by
        rw [ne_eq, hd, List.length_cons]
        omega
      rw [List.length_cons] at hlen
      obtain ⟨hread, hsucc⟩ := Parser.read_stream hst hd' hoff (by omega) hn
      rw [hread]
      obtain ⟨st', hst', hpi, hnr, hfeed, hafter⟩ := @ih { st with offset := st.offset + 1 } hst
        (List.cons_ne_nil _ _)
        (fun i x hx ↦ by
          rw [hlast (i + 1) x hx, List.length_cons]
          omega)
        (n + 1) hsucc (by rw [List.length_cons]; dsimp only; omega) hn
      refine ⟨st', hst', hpi, hnr, ?_, hafter⟩
      dsimp only
      rw [hfeed]
      rfl

/-- The request that `parser` makes of two headers. -/
def headerInfo (eth app : NetAxis) (base : PipelineInfo) (nr : BitVec 64) : PipelineInfo :=
  ({ base with nrPacket := nr, ethHeader := eth } : PipelineInfo).parse app

/-- `parser` after the two headers of a packet. -/
def Parser.headers (st : Parser) (eth app : NetAxis) : Parser where
  state := if app.opcode = opcodeWrite then .stream else .ethHeader
  pi := headerInfo eth app st.pi st.nrRdmPacket
  offset := 0
  nrRdmPacket := st.nrRdmPacket + 1

theorem feed_headers (eth app : NetAxis) {st : Parser} (hst : st.state = .ethHeader)
    (rest : List NetAxis) :
    st.feed (eth :: app :: rest)
        = (headerInfo eth app st.pi st.nrRdmPacket :: ((st.headers eth app).feed rest).1,
          ((st.headers eth app).feed rest).2)
      ∧ st.after (eth :: app :: rest) = (st.headers eth app).after rest := by
  have heth : st.read eth
      = (⟨.appHeader, { st.pi with nrPacket := st.nrRdmPacket, ethHeader := eth }, 0,
        st.nrRdmPacket + 1⟩, none, none) := by
    rw [Parser.read, hst]
  constructor
  · rw [Parser.feed, heth, Parser.feed]
    rfl
  · rw [Parser.after, List.foldl_cons, heth, List.foldl_cons]
    rfl

/-- The data are those of a `WRITE` with `n` units, the final one marked; other requests have
none. -/
def HasData (app : NetAxis) (ds : List NetAxis) (n : ℕ) : Prop :=
  if app.opcode = opcodeWrite then
    ds ≠ [] ∧ (∀ i d, ds[i]? = some d → (d.last = 1 ↔ i + 1 = ds.length)) ∧ ds.length = n
  else ds = []

theorem feed_packet {eth app : NetAxis} {ds : List NetAxis} {st : Parser}
    (hst : st.state = .ethHeader)
    (hds : HasData app ds (headerInfo eth app st.pi st.nrRdmPacket).nrUnits.toNat)
    (rest : List NetAxis) :
    ∃ st' : Parser, st'.state = .ethHeader ∧ st'.pi = headerInfo eth app st.pi st.nrRdmPacket
      ∧ st'.nrRdmPacket = st.nrRdmPacket + 1
      ∧ st.feed (eth :: app :: ds ++ rest)
        = (headerInfo eth app st.pi st.nrRdmPacket :: (st'.feed rest).1, ds ++ (st'.feed rest).2)
      ∧ st.after (eth :: app :: ds ++ rest) = st'.after rest := by
  obtain ⟨hfeed, hafter⟩ := feed_headers eth app hst (ds ++ rest)
  rw [List.cons_append, List.cons_append, hfeed, hafter]
  rw [HasData] at hds
  by_cases hop : app.opcode = opcodeWrite
  · rw [if_pos hop] at hds
    obtain ⟨hne, hlast, hlen⟩ := hds
    have hbound : (headerInfo eth app st.pi st.nrRdmPacket).nrUnits.toNat ≤ 2 ^ 58 := by
      have hdiv : (headerInfo eth app st.pi st.nrRdmPacket).nrUnits.toNat
          = (roundUp (roundUp app.length 64) 64).toNat / 64 := BitVec.toNat_udiv
      have hlt := (roundUp (roundUp app.length 64) 64).isLt
      rw [hdiv]
      omega
    obtain ⟨st', hst', hpi, hnr, hfeed', hafter'⟩ :=
      @feed_stream (st.headers eth app) (if_pos hop) ds hne hlast 0 rfl
      ((Nat.zero_add _).trans hlen) hbound rest
    exact ⟨st', hst', hpi, hnr, by rw [hfeed'], hafter'⟩
  · rw [if_neg hop] at hds
    rw [hds]
    exact ⟨st.headers eth app, if_neg hop, rfl, rfl, rfl, rfl⟩

theorem hasData_packet (p : Packet) (base : PipelineInfo) (nr : BitVec 64) :
    HasData p.app p.payload (headerInfo p.eth p.app base nr).nrUnits.toNat := by
  have hpay := p.payload_length
  rw [HasData]
  split
  · next hop =>
    rw [if_pos hop] at hpay
    refine ⟨List.ne_nil_of_length_pos (hpay.symm ▸ nrUnits_pos p), fun i d hd ↦ ?_, ?_⟩
    · rw [p.last_iff (i + 2) d hd]
      omega
    · exact hpay.trans (toNat_nrUnits_info p base nr).symm
  · next hop =>
    rw [if_neg hop] at hpay
    exact List.eq_nil_of_length_eq_zero hpay

theorem feed_packets (ps : List Packet) {st : Parser} (hst : st.state = .ethHeader) :
    st.feed (ps.flatMap Packet.units) = (infos st.pi st.nrRdmPacket ps, ps.flatMap Packet.payload)
      ∧ (st.after (ps.flatMap Packet.units)).state = .ethHeader := by
  induction ps generalizing st with
  | nil => exact ⟨rfl, hst⟩
  | cons p ps ih =>
    obtain ⟨st', hst', hpi, hnr, hfeed, hafter⟩ :=
      feed_packet hst (hasData_packet p _ _) (ps.flatMap Packet.units)
    obtain ⟨hrest, hend⟩ := ih hst'
    rw [List.flatMap_cons, Packet.units, hfeed, hafter, hrest, hpi, hnr]
    exact ⟨rfl, hend⟩

end Feed

/-! ## The stages below -/

section Below

variable {e : Env}

theorem readOut_append {n : ℕ} {xs : List (BitVec 512)} (h : xs.length = n)
    (ys : List (BitVec 512)) :
    readOut n (xs ++ ys) = readOut n xs := by
  induction xs generalizing n with
  | nil =>
    subst h
    rfl
  | cons x xs ih =>
    subst h
    rw [List.cons_append, List.length_cons, readOut, readOut, ih rfl]

theorem readOut_range (n : ℕ) (f : ℕ → BitVec 512) :
    readOut n ((List.range n).map f)
      = (List.range n).map fun j ↦ dataUnit (f j) (if j + 1 = n then 1 else 0) := by
  induction n generalizing f with
  | zero => rfl
  | succ n ih =>
    rw [List.range_succ_eq_map, List.map_cons, List.map_map, List.map_cons, List.map_map,
      readOut, ih]
    congr 1
    · congr 1
      simp only [Nat.zero_add, Nat.right_eq_add]
    · apply List.map_congr_left
      intro j _
      simp only [Function.comp, Nat.succ_eq_add_one, Nat.add_right_cancel_iff]

theorem readOut_dramBlock {p : Packet} {n : ℕ} {cmd : DmCmd} (hbtt : cmd.btt.toNat / 64 = p.nrUnits)
    (rest : List (BitVec 512)) :
    readOut p.nrUnits (dramBlock e n cmd ++ rest) = p.replyData e (.read n cmd)
      ∧ (dramBlock e n cmd ++ rest).drop p.nrUnits = rest := by
  have hlen : (dramBlock e n cmd).length = p.nrUnits := by
    rw [dramBlock, List.length_map, List.length_range, hbtt]
  constructor
  · rw [readOut_append hlen, dramBlock, hbtt, readOut_range]
    rfl
  · rw [← hlen, List.drop_left]

theorem slice_setWidth (a : BitVec 32) : slice (a.setWidth 64) 0 32 = a := by
  apply BitVec.eq_of_toNat_eq
  have hlt := a.isLt
  rw [slice, BitVec.extractLsb'_toNat, BitVec.toNat_setWidth, Nat.shiftRight_zero]
  omega

theorem cook_memCmd (p : Packet) (base : PipelineInfo) (nr : BitVec 64) (ret : MappingReply)
    (hret : ret.status = 0) :
    ((p.info base nr).translate ret).memCmd.cook = p.readCmd ret.address := by
  rw [PipelineInfo.translate, if_pos hret]
  have hbtt : slice (p.info base nr).length 0 23 = BitVec.ofNat 23 (64 * p.nrUnits) := by
    apply BitVec.eq_of_toNat_eq
    have hlt := nrUnits_lt p
    rw [toNat_btt_info, BitVec.toNat_ofNat, Nat.mod_eq_of_lt]
    omega
  exact congrArg₂ DmCmd.mk hbtt (slice_setWidth ret.address)

/-- What the stages below `parser` make of requests. -/
def served (e : Env) (t : Turn) (pis : List PipelineInfo) : List NetAxis :=
  accessAll (mapAll e t.maps (allocAll e t.allocs t.va pis))
    (dramUnits e t.reads (cmdsOf (mapAll e t.maps (allocAll e t.allocs t.va pis))))

theorem nrUnits_translate (pi : PipelineInfo) (ret : MappingReply) :
    (pi.translate ret).nrUnits = pi.nrUnits := by
  rw [PipelineInfo.translate]
  split <;> rfl

theorem ethHeader_translate (pi : PipelineInfo) (ret : MappingReply) :
    (pi.translate ret).ethHeader = pi.ethHeader := by
  rw [PipelineInfo.translate]
  split <;> rfl

theorem skipsMap_eq_false {pi : PipelineInfo} (h : pi.opcode ≠ opcodeAlloc) :
    ¬pi.skipsMap = true := by
  rw [PipelineInfo.skipsMap, Bool.and_eq_true, beq_iff_eq]
  exact fun hskip ↦ h hskip.1

theorem mapRequest_info (p : Packet) (base : PipelineInfo) (nr : BitVec 64)
    (hop : p.app.opcode ≠ opcodeAlloc) :
    (p.info base nr).mapRequest = p.getRequest := if_neg hop

/-- `alloc_address` has nothing to do for a `READ` or `WRITE`. -/
theorem allocAll_cons (e : Env) (n : ℕ) (va : BitVec 64) {pi : PipelineInfo}
    (pis : List PipelineInfo) (h : pi.opcode = opcodeRead ∨ pi.opcode = opcodeWrite) :
    allocAll e n va (pi :: pis) = pi :: allocAll e n va pis := by
  have hne : pi.opcode ≠ opcodeAlloc := by
    rcases h with h | h
    · rw [h]; decide
    · rw [h]; decide
  rw [allocAll, if_neg hne, if_pos h]

theorem served_read {p : Packet} (hop : p.app.opcode = opcodeRead) (base : PipelineInfo)
    (nr : BitVec 64) (t : Turn) (pis : List PipelineInfo) :
    served e t (p.info base nr :: pis) = p.reply e nr (p.serve e t).1
      ++ served e (p.serve e t).2 pis := by
  have hne : p.app.opcode ≠ opcodeAlloc := by rw [hop]; decide
  have hop' : (p.info base nr).opcode = opcodeRead := hop
  have halloc := allocAll_cons e t.allocs t.va pis (.inl hop')
  rw [served, halloc, mapAll, if_neg (skipsMap_eq_false hne), mapRequest_info p base nr hne,
    accessAll, cmdsOf_cons, nrUnits_translate, toNat_nrUnits_info, ethHeader_translate,
    Packet.serve, if_pos hop]
  dsimp only
  -- with a mapping the next units of DRAM are the reply
  by_cases hret : (e.map t.maps p.getRequest).status = 0
  · have hreads : ((p.info base nr).translate (e.map t.maps p.getRequest)).reads = true :=
      (reads_translate _ _).mpr ⟨hret, (opcode_translate _ _).trans hop⟩
    have hbtt : (p.readCmd (e.map t.maps p.getRequest).address).btt.toNat / 64 = p.nrUnits := by
      have hlt := nrUnits_lt p
      rw [Packet.readCmd, BitVec.toNat_ofNat, Nat.mod_eq_of_lt (by omega)]
      omega
    obtain ⟨hout, hdrop⟩ :=
      readOut_dramBlock (e := e) (n := t.reads) hbtt (dramUnits e (t.reads + 1)
      (cmdsOf (mapAll e (t.maps + 1) (allocAll e t.allocs t.va pis))))
    rw [if_pos hreads, if_pos hreads, cook_memCmd p base nr _ hret, List.singleton_append,
      dramUnits, hout, hdrop, if_pos hret, PipelineInfo.translate, if_pos hret,
      PipelineInfo.replyHeader]
    dsimp only
    rw [if_neg (by rw [hop']; decide), if_pos hop', if_pos rfl]
    rfl
  · have hreads : ¬((p.info base nr).translate (e.map t.maps p.getRequest)).reads = true :=
      mt (reads_translate _ _).mp fun h ↦ hret h.1
    rw [if_neg hreads, if_neg hreads, if_neg hret, PipelineInfo.translate, if_neg hret,
      PipelineInfo.replyHeader]
    dsimp only
    rw [if_neg (by rw [hop']; decide), if_pos hop', if_neg (by decide)]
    rfl

theorem served_write {p : Packet} (hop : p.app.opcode = opcodeWrite) (base : PipelineInfo)
    (nr : BitVec 64) (t : Turn) (pis : List PipelineInfo) :
    served e t (p.info base nr :: pis) = p.reply e nr (p.serve e t).1
      ++ served e (p.serve e t).2 pis := by
  have hne : p.app.opcode ≠ opcodeAlloc := by rw [hop]; decide
  have hop' : (p.info base nr).opcode = opcodeWrite := hop
  have halloc := allocAll_cons e t.allocs t.va pis (.inr hop')
  have hreads (ret : MappingReply) : ¬((p.info base nr).translate ret).reads = true := by
    rw [reads_translate, opcode_translate, hop']
    exact fun h ↦ absurd h.2 (by decide)
  have hheader (ret : MappingReply) :
      ((p.info base nr).translate ret).replyHeader.1 = p.replyHeader nr .write := by
    have hopt : ((p.info base nr).translate ret).opcode = opcodeWrite :=
      (opcode_translate _ _).trans hop
    rw [PipelineInfo.replyHeader]
    dsimp only
    rw [if_neg (by rw [hopt]; decide), if_neg (by rw [hopt]; decide), if_pos hopt,
      PipelineInfo.translate]
    split <;> rfl
  rw [served, halloc, mapAll, if_neg (skipsMap_eq_false hne), accessAll, cmdsOf_cons,
    if_neg (hreads _), if_neg (hreads _), hheader, ethHeader_translate, Packet.serve,
    if_neg (by rw [hop]; decide), if_pos hop]
  rfl

theorem opcode_allocate (pi : PipelineInfo) (va : BitVec 64) (ret : BuddyAllocRet) :
    (pi.allocate va ret).1.opcode = pi.opcode := by
  rw [PipelineInfo.allocate]
  split <;> rfl

theorem ethHeader_allocate (pi : PipelineInfo) (va : BitVec 64) (ret : BuddyAllocRet) :
    (pi.allocate va ret).1.ethHeader = pi.ethHeader := by
  rw [PipelineInfo.allocate]
  split <;> rfl

theorem skipsMap_allocate {pi : PipelineInfo} (hop : pi.opcode = opcodeAlloc) (va : BitVec 64)
    (ret : BuddyAllocRet) :
    (pi.allocate va ret).1.skipsMap = true ↔ ret.stat ≠ 0 := by
  rw [PipelineInfo.skipsMap, opcode_allocate, hop, PipelineInfo.allocate]
  split
  · next h =>
    have hfalse : ¬(opcodeAlloc == opcodeAlloc && piAllocSucceed != piAllocSucceed) = true := by
      decide
    exact iff_of_false hfalse (not_not_intro h)
  · next h => exact iff_of_true rfl h

/-- What the mapping answers has no part in the reply to an `ALLOC`. -/
theorem replyHeader_translate {pi : PipelineInfo} (hop : pi.opcode = opcodeAlloc)
    (ret : MappingReply) :
    (pi.translate ret).replyHeader.1 = pi.replyHeader.1 := by
  have hop' : (pi.translate ret).opcode = opcodeAlloc := (opcode_translate _ _).trans hop
  rw [PipelineInfo.replyHeader, PipelineInfo.replyHeader]
  dsimp only
  rw [if_pos hop', if_pos hop, PipelineInfo.translate]
  split <;> rfl

/-- The turn after an `ALLOC` that the allocator has answered. -/
def Turn.alloc (t : Turn) (length : BitVec 64) (ret : BuddyAllocRet) : Turn :=
  if ret.stat = 0 then
    { t with va := t.va + roundUp length rdmVaPageSize, allocs := t.allocs + 1, maps := t.maps + 1 }
  else { t with allocs := t.allocs + 1 }

theorem served_alloc_cons {pi : PipelineInfo} (hop : pi.opcode = opcodeAlloc) (t : Turn)
    (pis : List PipelineInfo) :
    served e t (pi :: pis)
      = pi.ethHeader :: (pi.allocate t.va (e.alloc t.allocs buddyRequest)).1.replyHeader.1
        :: served e (t.alloc pi.length (e.alloc t.allocs buddyRequest)) pis := by
  generalize hret : e.alloc t.allocs buddyRequest = ret
  have hopi : (pi.allocate t.va ret).1.opcode = opcodeAlloc := (opcode_allocate _ _ _).trans hop
  have hiff := skipsMap_allocate hop t.va ret
  rw [served, allocAll, if_pos hop, hret, mapAll]
  by_cases hstat : ret.stat = 0
  · have hreads (ret' : MappingReply) : ¬((pi.allocate t.va ret).1.translate ret').reads
      = true := by
      rw [reads_translate, opcode_translate, hopi]
      exact fun h ↦ absurd h.2 (by decide)
    have hva : (pi.allocate t.va ret).2 = t.va + roundUp pi.length rdmVaPageSize := by
      rw [PipelineInfo.allocate, if_pos hstat]
    rw [if_neg (mt hiff.mp (not_not_intro hstat)), accessAll, cmdsOf_cons, if_neg (hreads _),
      if_neg (hreads _), replyHeader_translate hopi, ethHeader_translate, ethHeader_allocate,
      Turn.alloc, if_pos hstat, hva]
    rfl
  · have hskip := hiff.mpr hstat
    have hva : (pi.allocate t.va ret).2 = t.va := by
      rw [PipelineInfo.allocate, if_neg hstat]
    rw [if_pos hskip, accessAll, cmdsOf_cons, not_reads_of_skipsMap hskip, ethHeader_allocate,
      Turn.alloc, if_neg hstat, hva]
    rfl

theorem served_alloc {p : Packet} (hop : p.app.opcode = opcodeAlloc) (base : PipelineInfo)
    (nr : BitVec 64) (t : Turn) (pis : List PipelineInfo) :
    served e t (p.info base nr :: pis) = p.reply e nr (p.serve e t).1
      ++ served e (p.serve e t).2 pis := by
  have hop' : (p.info base nr).opcode = opcodeAlloc := hop
  rw [served_alloc_cons hop', Packet.serve, if_neg (by rw [hop]; decide),
    if_neg (by rw [hop]; decide)]
  dsimp only
  rw [PipelineInfo.replyHeader, opcode_allocate]
  dsimp only
  rw [if_pos hop', PipelineInfo.allocate, Turn.alloc]
  by_cases hret : (e.alloc t.allocs buddyRequest).stat = 0
  · rw [if_pos hret, if_pos hret, if_pos hret, if_pos rfl]
    rfl
  · have hne : piAllocFail ≠ piAllocSucceed := by decide
    rw [if_neg hret, if_neg hret, if_neg hret]
    dsimp only
    rw [if_neg hne]
    rfl

/-! ### What `map` hands on -/

/-- What `map` hands on of requests that `parser` hands on. -/
def mappedFrom (e : Env) (t : Turn) (pis : List PipelineInfo) : List PipelineInfo :=
  mapAll e t.maps (allocAll e t.allocs t.va pis)

/-- What `map` makes of a request. -/
def PipelineInfo.mapped (e : Env) (t : Turn) (pi : PipelineInfo) : PipelineInfo :=
  if pi.opcode = opcodeAlloc then
    let pi' := (pi.allocate t.va (e.alloc t.allocs buddyRequest)).1
    if pi'.skipsMap then pi' else pi'.translate (e.map t.maps pi'.mapRequest)
  else pi.translate (e.map t.maps pi.mapRequest)

/-- The turn after a request, the number of read commands apart. -/
def Turn.next (e : Env) (t : Turn) (pi : PipelineInfo) : Turn :=
  if pi.opcode = opcodeAlloc then t.alloc pi.length (e.alloc t.allocs buddyRequest)
  else { t with maps := t.maps + 1 }

theorem mappedFrom_cons {pi : PipelineInfo}
    (hop : pi.opcode = opcodeRead ∨ pi.opcode = opcodeWrite ∨ pi.opcode = opcodeAlloc) (t : Turn)
    (pis : List PipelineInfo) :
    mappedFrom e t (pi :: pis) = pi.mapped e t :: mappedFrom e (t.next e pi) pis := by
  rw [mappedFrom, PipelineInfo.mapped, Turn.next, mappedFrom]
  by_cases halloc : pi.opcode = opcodeAlloc
  · have hiff := skipsMap_allocate halloc t.va (e.alloc t.allocs buddyRequest)
    rw [allocAll, if_pos halloc, if_pos halloc, if_pos halloc, mapAll, Turn.alloc]
    dsimp only
    by_cases hret : (e.alloc t.allocs buddyRequest).stat = 0
    · rw [if_neg (mt hiff.mp (not_not_intro hret)), if_neg (mt hiff.mp (not_not_intro hret)),
        if_pos hret, PipelineInfo.allocate, if_pos hret]
    · rw [if_pos (hiff.mpr hret), if_pos (hiff.mpr hret), if_neg hret, PipelineInfo.allocate,
        if_neg hret]
  · have hrw : pi.opcode = opcodeRead ∨ pi.opcode = opcodeWrite :=
      hop.imp_right fun h ↦ h.resolve_right halloc
    rw [allocAll_cons e _ _ _ hrw, mapAll, if_neg (skipsMap_eq_false halloc), if_neg halloc,
      if_neg halloc]

theorem opcode_mapped (t : Turn) (pi : PipelineInfo) : (pi.mapped e t).opcode = pi.opcode := by
  rw [PipelineInfo.mapped]
  split
  · dsimp only
    split
    · exact opcode_allocate _ _ _
    · exact (opcode_translate _ _).trans (opcode_allocate _ _ _)
  · exact opcode_translate _ _

theorem wrCmdsOf_mappedFrom_cons {pi : PipelineInfo}
    (hop : pi.opcode = opcodeRead ∨ pi.opcode = opcodeWrite ∨ pi.opcode = opcodeAlloc) (t : Turn)
    (pis : List PipelineInfo) :
    wrCmdsOf (mappedFrom e t (pi :: pis))
      = (if pi.opcode = opcodeWrite ∧ (e.map t.maps pi.mapRequest).status = 0 then
          [(pi.translate (e.map t.maps pi.mapRequest)).memCmd] else [])
        ++ wrCmdsOf (mappedFrom e (t.next e pi) pis) := by
  have hopi := @opcode_mapped e t pi
  rw [mappedFrom_cons hop, wrCmdsOf_cons]
  congr 1
  by_cases hwr : pi.opcode = opcodeWrite
  · have hne : pi.opcode ≠ opcodeAlloc := by rw [hwr]; decide
    have hiff := writesMapped_translate pi (e.map t.maps pi.mapRequest)
    rw [PipelineInfo.mapped, if_neg hne] at hopi ⊢
    by_cases hret : (e.map t.maps pi.mapRequest).status = 0
    · rw [if_pos (hiff.mpr ⟨hret, hopi.trans hwr⟩), if_pos ⟨hwr, hret⟩]
    · rw [if_neg (mt hiff.mp fun h ↦ hret h.1), if_neg fun h ↦ hret h.2]
  · have hnot : ¬(pi.mapped e t).writesMapped = true := by
      rw [PipelineInfo.writesMapped, Bool.and_eq_true, beq_iff_eq, hopi]
      exact fun h ↦ hwr h.1
    rw [if_neg hnot, if_neg fun h ↦ hwr h.1]

/-- **What the service makes of packets is their replies.** -/
theorem served_infos (base : PipelineInfo) (nr : BitVec 64) (t : Turn) (ps : List Packet) :
    served e t (infos base nr ps) = (replies e nr t ps).flatten := by
  induction ps generalizing base nr t with
  | nil => rfl
  | cons p ps ih =>
    rw [infos, replies, List.flatten_cons, ← ih (p.info base nr)]
    obtain hop | hop | hop := p.opcode_mem
    · exact served_read hop base nr t _
    · exact served_write hop base nr t _
    · exact served_alloc hop base nr t _

end Below

/-! ## The first state -/

section First

variable {e : Env}

theorem lasts_append (ds ds' : List NetAxis) : lasts (ds ++ ds') = lasts ds + lasts ds' :=
  List.countP_append

theorem endsLast_nil : EndsLast [] := fun _ hd ↦ (Option.some_ne_none _ hd.symm).elim

theorem EndsLast.append {ds ds' : List NetAxis} (h : EndsLast ds) (h' : EndsLast ds') :
    EndsLast (ds ++ ds') := by
  intro d hd
  rw [List.getLast?_append] at hd
  cases hlast : ds'.getLast? with
  | none =>
    rw [hlast] at hd
    exact h d hd
  | some d' =>
    rw [hlast] at hd
    exact h' d (hlast.trans hd)

theorem lasts_eq_one {ds : List NetAxis} (hne : ds ≠ [])
    (hlast : ∀ i d, ds[i]? = some d → (d.last = 1 ↔ i + 1 = ds.length)) :
      lasts ds = 1 ∧ EndsLast ds := by
  induction ds with
  | nil => exact absurd rfl hne
  | cons d ds ih =>
    have hd := hlast 0 d rfl
    rw [List.length_cons] at hd
    rw [lasts_cons]
    cases ds with
    | nil =>
      have hone : d.last = 1 := hd.mpr rfl
      rw [if_pos hone]
      refine ⟨rfl, fun d' hd' ↦ ?_⟩
      rwa [← Option.some.inj hd']
    | cons d' ds =>
      have hnot : d.last ≠ 1 := by
        rw [ne_eq, hd, List.length_cons]
        omega
      obtain ⟨hcount, hends⟩ := ih (List.cons_ne_nil _ _) fun i x hx ↦ by
        rw [hlast (i + 1) x hx, List.length_cons]
        omega
      rw [if_neg hnot, hcount]
      refine ⟨rfl, fun x hx ↦ hends x ?_⟩
      rwa [List.getLast?_cons_cons] at hx

theorem HasData.lasts {app : NetAxis} {ds : List NetAxis} {n : ℕ} (h : HasData app ds n) :
    Rdm.lasts ds = (if app.opcode = opcodeWrite then 1 else 0) ∧ EndsLast ds := by
  rw [HasData] at h
  split at h
  · next hop =>
    rw [if_pos hop]
    exact lasts_eq_one h.1 h.2.1
  · next hop =>
    rw [if_neg hop, h]
    exact ⟨rfl, endsLast_nil⟩

theorem lasts_payloads (ps : List Packet) (base : PipelineInfo) (nr : BitVec 64) :
    lasts (ps.flatMap Packet.payload) = writes (infos base nr ps)
      ∧ EndsLast (ps.flatMap Packet.payload) := by
  induction ps generalizing base nr with
  | nil => exact ⟨rfl, endsLast_nil⟩
  | cons p ps ih =>
    obtain ⟨hcount, hends⟩ := ih (p.info base nr) (nr + 1)
    obtain ⟨hcount', hends'⟩ := (hasData_packet p base nr).lasts
    rw [List.flatMap_cons, lasts_append, hcount, hcount', infos, writes_cons, Nat.add_comm]
    exact ⟨rfl, hends'.append hends⟩

theorem writes_allocAll (n : ℕ) (va : BitVec 64) (pis : List PipelineInfo) :
    writes (allocAll e n va pis) = writes pis := by
  induction pis generalizing n va with
  | nil => rfl
  | cons pi pis ih =>
    rw [allocAll]
    split
    · rw [writes_cons, writes_cons, ih, opcode_allocate]
    · split
      · rw [writes_cons, writes_cons, ih]
      · next hop => rw [writes_cons, ih, if_neg fun h ↦ hop (.inr h)]; rfl

theorem PipelineInfo.Proper.allocate {pi : PipelineInfo} (h : pi.Proper) (va : BitVec 64)
    (ret : BuddyAllocRet) :
    (pi.allocate va ret).1.Proper := by
  rw [PipelineInfo.allocate]
  split
  · exact ⟨h.opcode_mem, h.pos, h.lt, h.btt⟩
  · exact ⟨h.opcode_mem, h.pos, h.lt, h.btt⟩

theorem PipelineInfo.Proper.translate {pi : PipelineInfo} (h : pi.Proper) (ret : MappingReply) :
    (pi.translate ret).Proper := by
  rw [PipelineInfo.translate]
  split
  · exact ⟨h.opcode_mem, h.pos, h.lt, h.btt⟩
  · exact ⟨h.opcode_mem, h.pos, h.lt, h.btt⟩

theorem proper_infos (base : PipelineInfo) (nr : BitVec 64) (ps : List Packet) :
    ∀ pi ∈ infos base nr ps, pi.Proper := by
  induction ps generalizing base nr with
  | nil => exact List.forall_mem_nil _
  | cons p ps ih => exact List.forall_mem_cons.mpr ⟨proper_info p base nr, ih _ _⟩

theorem proper_allocAll {pis : List PipelineInfo} (h : ∀ pi ∈ pis, pi.Proper) (n : ℕ)
    (va : BitVec 64) :
    ∀ pi ∈ allocAll e n va pis, pi.Proper := by
  induction pis generalizing n va with
  | nil => exact List.forall_mem_nil _
  | cons pi pis ih =>
    obtain ⟨hpi, hpis⟩ := List.forall_mem_cons.mp h
    rw [allocAll]
    split
    · exact List.forall_mem_cons.mpr ⟨hpi.allocate _ _, ih hpis _ _⟩
    · split
      · exact List.forall_mem_cons.mpr ⟨hpi, ih hpis _ _⟩
      · exact ih hpis _ _

theorem proper_mapAll {pis : List PipelineInfo} (h : ∀ pi ∈ pis, pi.Proper) (n : ℕ) :
    ∀ pi ∈ mapAll e n pis, pi.Proper := by
  induction pis generalizing n with
  | nil => exact List.forall_mem_nil _
  | cons pi pis ih =>
    obtain ⟨hpi, hpis⟩ := List.forall_mem_cons.mp h
    rw [mapAll]
    split
    · exact List.forall_mem_cons.mpr ⟨hpi, ih hpis _⟩
    · exact List.forall_mem_cons.mpr ⟨hpi.translate _, ih hpis _⟩

theorem length_dramUnits {pis : List PipelineInfo} (h : ∀ pi ∈ pis, pi.Proper) (n : ℕ) :
    (dramUnits e n (cmdsOf pis)).length = demandOf pis := by
  induction pis generalizing n with
  | nil => rfl
  | cons pi pis ih =>
    obtain ⟨hpi, hpis⟩ := List.forall_mem_cons.mp h
    rw [cmdsOf_cons, demandOf]
    split
    · next hreads =>
      rw [List.singleton_append, dramUnits, List.length_append, ih hpis, dramBlock, List.length_map,
        List.length_range]
      exact congrArg (· + demandOf pis) (hpi.btt (opcode_of_reads hreads))
    · rw [List.nil_append, ih hpis, Nat.zero_add]

/-- What will reach the stages from the first state on, if `parser` makes requests and data of the
units. -/
def View.start (e : Env) (us : List NetAxis) (pis : List PipelineInfo) (ds : List NetAxis) :
    View where
  units := us
  toAlloc := pis
  dataAlloc := ds
  toMap := allocAll e 0 0x1000 pis
  dataMap := ds
  mapped := mapAll e 0 (allocAll e 0 0x1000 pis)
  toAccess := mapAll e 0 (allocAll e 0 0x1000 pis)
  rdData := dramUnits e 0 (cmdsOf (mapAll e 0 (allocAll e 0 0x1000 pis)))

theorem Inv.start {us : List NetAxis} {pis : List PipelineInfo} {ds : List NetAxis}
    (hfeed : (⟨.ethHeader, {}, 0, 1⟩ : Parser).feed us = (pis, ds))
    (hend : ((⟨.ethHeader, {}, 0, 1⟩ : Parser).after us).state = .ethHeader)
    (hcount : lasts ds = writes pis) (hends : EndsLast ds) (hproper : ∀ pi ∈ pis, pi.Proper) :
    Inv e (served e .first pis) (.start e us pis ds) (Service.init us) := by
  have hproper' : ∀ pi ∈ (View.start e us pis ds).toAccess, pi.Proper :=
    proper_mapAll (proper_allocAll hproper _ _) _
  exact
    { units := rfl
      framed := hend
      toAlloc := (congrArg Prod.fst hfeed).symm
      dataAlloc := (congrArg Prod.snd hfeed).symm
      allocPending := hcount
      buddy := Query.idle_empty
      toMap := rfl
      dataMap := rfl
      endsLast := hends
      mapPending := hcount.trans (writes_allocAll _ _ _).symm
      mapping := Query.idle_empty
      mapped := rfl
      toAccess := rfl
      rdData := rfl
      proper := hproper'
      access := trivial
      demand := length_dramUnits hproper' 0
      output := rfl }

/-- What will reach the stages from the first state on. -/
def View.first (e : Env) (ps : List Packet) : View where
  units := ps.flatMap Packet.units
  toAlloc := infos {} 1 ps
  dataAlloc := ps.flatMap Packet.payload
  toMap := allocAll e 0 0x1000 (infos {} 1 ps)
  dataMap := ps.flatMap Packet.payload
  mapped := mapAll e 0 (allocAll e 0 0x1000 (infos {} 1 ps))
  toAccess := mapAll e 0 (allocAll e 0 0x1000 (infos {} 1 ps))
  rdData := dramUnits e 0 (cmdsOf (mapAll e 0 (allocAll e 0 0x1000 (infos {} 1 ps))))

theorem Inv.init (e : Env) (ps : List Packet) :
    Inv e (replies e 1 .first ps).flatten (.first e ps)
      (Service.init (ps.flatMap Packet.units)) := by
  obtain ⟨hfeed, hend⟩ := @feed_packets ps ⟨.ethHeader, {}, 0, 1⟩ rfl
  obtain ⟨hcount, hends⟩ := lasts_payloads ps {} 1
  rw [← served_infos {}]
  exact Inv.start hfeed hend hcount hends (proper_infos _ _ _)

end First

end FpgaOs.Rdm
