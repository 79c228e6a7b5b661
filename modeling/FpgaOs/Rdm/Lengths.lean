import FpgaOs.Lib.Countdown
import FpgaOs.Rdm.Stages

/-!
# How many units a length stands for

The length of a request is rounded up to whole units of 64 bytes, and from there goes two ways: its
low 23 bits tell the data mover how much to transfer, and its 64th part tells `parser`, `access` and
`DRAM_wr_pipe` how many units to count. A counter has 32 bits. Those of `access` and `DRAM_wr_pipe`
are compared after they have been advanced, so no units are as many as `2 ^ 32`.

The two ways agree if the rounded length is not 0 and fits 23 bits. `DRAM_wr_pipe` counts with 32
bits of the number of units and `parser` with all of them, so for lengths from `2 ^ 38` on
`DRAM_wr_pipe` leaves units of a `WRITE` to the next one.
-/

namespace FpgaOs.Rdm

open BitField Mapping Machine

namespace Service

/-- A unit of data arrives for `access`, which is called. -/
def accessUnit (s : Service) (x : BitVec 512) : Service :=
  Service.access { s with fifoRdData := s.fifoRdData ++ [x] }

/-- A unit of data arrives for `DRAM_wr_pipe`, which is called. -/
def wrPipeUnit (s : Service) (x : BitVec 512) : Service :=
  Service.dramWrPipe { s with fifoWrData := s.fifoWrData ++ [x] }

/-- A unit of data arrives for `parser`, and the stages before `DRAM_wr_pipe` are called. -/
def forwardUnit (s : Service) (d : NetAxis) : Service :=
  (Service.parser { s with bufferToParser := s.bufferToParser ++ [d] }).allocAddress.map

end Service

/-- A unit that is not marked as the last one of a packet. -/
abbrev Unmarked : Type := {d : NetAxis // d.last = 0}

instance : Nonempty Unmarked := ⟨{}, rfl⟩

open Service

/-! ## What the stages count -/

/-- `access` has put out `k` of `n` units. -/
structure AccessAt (n : BitVec 64) (k : ℕ) (s : Service) : Prop where
  state : s.accessSt.state = .read
  nrUnits : s.accessSt.pi.nrUnits = n
  offset : s.accessSt.offset = BitVec.ofNat 32 k
  fifoRdData : s.fifoRdData = []

/-- `DRAM_wr_pipe` has put out `k` of `n` units. -/
structure WrPipeAt (n : BitVec 32) (k : ℕ) (s : Service) : Prop where
  state : s.wrPipeSt.state = .stream
  nrUnits : s.wrPipeSt.nrUnits = n
  nrWritten : s.wrPipeSt.nrWritten = BitVec.ofNat 32 k
  fifoWrData : s.fifoWrData = []

/-- `parser` has let pass `k` of `n` units, which have gone through to `fifo_DRAM_wr_data`. -/
structure ForwardAt (n : BitVec 64) (k : ℕ) (s : Service) : Prop where
  parserState : s.parserSt.state = .stream
  nrUnits : s.parserSt.pi.nrUnits = n
  offset : s.parserSt.offset = BitVec.ofNat 32 k
  allocState : s.allocSt.state = .writeStream
  mapState : s.mapSt.state = .stream
  bufferToParser : s.bufferToParser = []
  dParserToAlloc : s.dParserToAlloc = []
  dAllocToMap : s.dAllocToMap = []

/-- The stages before `DRAM_wr_pipe` are done with the units of a packet. -/
structure Forwarded (s : Service) : Prop where
  parserState : s.parserSt.state = .ethHeader
  allocState : s.allocSt.state = .idle
  mapState : s.mapSt.state = .idle

theorem ofNat_succ (k : ℕ) : BitVec.ofNat 32 k + 1 = BitVec.ofNat 32 (k + 1) :=
  (BitVec.ofNat_add k 1).symm

theorem counts_access (n : BitVec 64) :
    Counts accessUnit (fun s ↦ s.accessSt.state = .idle) (fun s ↦ s.dAccessToReply.length)
      (AccessAt n) fun k ↦ (BitVec.ofNat 32 k).signExtend 64 = n := by
  have hcall {k : ℕ} {s : Service} (x : BitVec 512) (h : AccessAt n k s) :
      s.accessUnit x =
        if (BitVec.ofNat 32 (k + 1)).signExtend 64 = n then
          { s with
            fifoRdData := []
            accessSt := { s.accessSt with offset := BitVec.ofNat 32 (k + 1), state := .idle }
            dAccessToReply := s.dAccessToReply ++ [dataUnit x 1] }
        else
          { s with
            fifoRdData := []
            accessSt := { s.accessSt with offset := BitVec.ofNat 32 (k + 1) }
            dAccessToReply := s.dAccessToReply ++ [dataUnit x 0] } := by
    rw [accessUnit, Service.access, h.state, h.fifoRdData, h.offset, ofNat_succ, h.nrUnits]
    rfl
  constructor
  · intro k s h hidle
    rw [h.state] at hidle
    cases hidle
  · intro k s x h htest
    rw [hcall x h, if_pos htest]
  · intro k s x h htest
    rw [hcall x h, if_neg htest]
    exact ⟨h.state, h.nrUnits, rfl, rfl⟩
  · intro k s x h
    rw [hcall x h]
    split_ifs <;> exact List.length_append

theorem counts_wrPipe (n : BitVec 32) :
    Counts wrPipeUnit (fun s ↦ s.wrPipeSt.state = .idle) (fun s ↦ s.dramWrData.length)
      (WrPipeAt n) fun k ↦ BitVec.ofNat 32 k = n := by
  have hcall {k : ℕ} {s : Service} (x : BitVec 512) (h : WrPipeAt n k s) :
      s.wrPipeUnit x =
        { s with
          fifoWrData := []
          dramWrData := s.dramWrData
            ++ [⟨x, BitVec.allOnes 64, if BitVec.ofNat 32 (k + 1) = n then 1 else 0⟩]
          wrPipeSt :=
            ⟨if BitVec.ofNat 32 (k + 1) = n then .idle else .stream, BitVec.ofNat 32 (k + 1),
              n⟩ } := by
    rw [wrPipeUnit, Service.dramWrPipe, h.state, h.fifoWrData, h.nrWritten, ofNat_succ, h.nrUnits]
    rfl
  constructor
  · intro k s h hidle
    rw [h.state] at hidle
    cases hidle
  · intro k s x h htest
    rw [hcall x h]
    exact if_pos htest
  · intro k s x h htest
    rw [hcall x h]
    exact ⟨if_neg htest, rfl, rfl, rfl⟩
  · intro k s x h
    rw [hcall x h]
    exact List.length_append

theorem Parser.read_of_stream {p : Parser} (hstate : p.state = .stream) (d : NetAxis) :
    p.read d =
      if d.last = 1 ∨ p.offset.signExtend 64 = p.pi.nrUnits - 1 then
        ({ p with state := .ethHeader }, none, some { d with last := 1 })
      else ({ p with offset := p.offset + 1 }, none, some d) := by
  rw [Parser.read, hstate]
  dsimp only
  by_cases hlast : d.last = 1
  · rw [if_pos hlast, if_pos (Or.inl hlast), ← hlast]
  · rw [if_neg hlast, if_congr (or_iff_right hlast) rfl rfl]

theorem ForwardAt.last {n : BitVec 64} {k : ℕ} {s : Service} (h : ForwardAt n k s) {d : NetAxis}
    (hend : d.last = 1 ∨ (BitVec.ofNat 32 k).signExtend 64 = n - 1) :
    Forwarded (s.forwardUnit d)
      ∧ (s.forwardUnit d).fifoWrData.length = s.fifoWrData.length + 1 := by
  rw [← h.offset, ← h.nrUnits] at hend
  rw [forwardUnit, Service.parser, h.bufferToParser]
  simp only [List.nil_append, Parser.read_of_stream h.parserState, if_pos hend,
    Service.allocAddress, h.allocState, h.dParserToAlloc, Option.toList_some, Service.map,
    h.mapState, h.dAllocToMap, if_true]
  exact ⟨⟨rfl, rfl, rfl⟩, List.length_append⟩

theorem ForwardAt.more {n : BitVec 64} {k : ℕ} {s : Service} (h : ForwardAt n k s) (d : Unmarked)
    (hend : (BitVec.ofNat 32 k).signExtend 64 ≠ n - 1) :
    ForwardAt n (k + 1) (s.forwardUnit d)
      ∧ (s.forwardUnit d).fifoWrData.length = s.fifoWrData.length + 1 := by
  have hlast : ¬(d.1.last = 1 ∨ s.parserSt.offset.signExtend 64 = s.parserSt.pi.nrUnits - 1) := by
    rw [h.offset, h.nrUnits, d.2]
    exact not_or_intro (by decide) hend
  have hunmarked : ¬d.1.last = 1 := fun hone ↦ hlast (.inl hone)
  rw [forwardUnit, Service.parser, h.bufferToParser]
  simp only [List.nil_append, Parser.read_of_stream h.parserState, if_neg hlast,
    Service.allocAddress, h.allocState, h.dParserToAlloc, Option.toList_some, Service.map,
    h.mapState, h.dAllocToMap, if_neg hunmarked]
  refine ⟨⟨h.parserState, h.nrUnits, ?_, rfl, rfl, rfl, rfl, rfl⟩, List.length_append⟩
  rw [h.offset, ofNat_succ]

theorem counts_forward (n : BitVec 64) :
    Counts (fun s (d : Unmarked) ↦ forwardUnit s d) Forwarded (fun s ↦ s.fifoWrData.length)
      (ForwardAt n) fun k ↦ (BitVec.ofNat 32 (k - 1)).signExtend 64 = n - 1 := by
  constructor
  · intro k s h hdone
    have hstate := hdone.parserState
    rw [h.parserState] at hstate
    cases hstate
  · intro k s d h htest
    exact (h.last (.inr htest)).1
  · intro k s d h htest
    exact (h.more d htest).1
  · intro k s d h
    by_cases htest : (BitVec.ofNat 32 k).signExtend 64 = n - 1
    · exact (h.last (.inr htest)).2
    · exact (h.more d htest).2

/-! ## What the data mover is asked for -/

namespace PipelineInfo

/-- The number of units that the data mover is asked for. -/
def askedUnits (pi : PipelineInfo) : ℕ := pi.memCmd.cook.btt.toNat / 64

/-- After the header of the reply to a `READ`, `access` puts out as many units as the data mover is
asked for, and comes back then. -/
def ReadAgrees (pi : PipelineInfo) : Prop :=
  ∀ s : Service, s.accessSt.state = .idle → s.piMapToAccess.head? = some pi → s.fifoRdData = [] →
    Returns accessUnit (fun s ↦ s.accessSt.state = .idle) (fun s ↦ s.dAccessToReply.length)
      s.access.access pi.askedUnits

/-- After the command of a `WRITE`, `DRAM_wr_pipe` puts out as many units as the data mover is asked
for, and comes back then. -/
def SendAgrees (pi : PipelineInfo) : Prop :=
  ∀ s : Service, s.wrPipeSt.state = .idle → s.fifoWrCmd.head? = some pi.memCmd → s.fifoWrData = [] →
    Returns wrPipeUnit (fun s ↦ s.wrPipeSt.state = .idle) (fun s ↦ s.dramWrData.length)
      s.dramWrPipe pi.askedUnits

/-- After the headers of a `WRITE`, the stages before `DRAM_wr_pipe` let as many units pass as the
data mover is asked for, and come back then, whether the last one is marked or not. -/
def ForwardAgrees (pi : PipelineInfo) : Prop :=
  ∀ s : Service, ForwardAt pi.nrUnits 0 s →
    Returns (fun s (d : Unmarked) ↦ forwardUnit s d) Forwarded (fun s ↦ s.fifoWrData.length) s
        pi.askedUnits
      ∧ ∀ (ds : List Unmarked) (d : NetAxis), d.last = 1 → ds.length + 1 = pi.askedUnits →
        let s' := (run (fun s (d : Unmarked) ↦ forwardUnit s d) s ds).forwardUnit d
        Forwarded s' ∧ s'.fifoWrData.length = s.fifoWrData.length + pi.askedUnits

/-- The units of a `WRITE` that `DRAM_wr_pipe` is given, those that it puts out and those that the
data mover is asked for are equally many, so none is left behind for the next request. -/
def WriteAgrees (pi : PipelineInfo) : Prop := pi.SendAgrees ∧ pi.ForwardAgrees

/-- The stages agree about the length of the request. -/
def LengthAgrees (pi : PipelineInfo) : Prop :=
  (pi.opcode = opcodeRead → pi.ReadAgrees) ∧ (pi.opcode = opcodeWrite → pi.WriteAgrees)

variable {pi : PipelineInfo}

theorem readAgrees_iff (hop : pi.opcode = opcodeRead) (hmap : pi.mapStatus = piMapSucceed) :
    pi.ReadAgrees ↔ 0 < pi.askedUnits
      ∧ (BitVec.ofNat 32 pi.askedUnits).signExtend 64 = pi.nrUnits
      ∧ ∀ k, 0 < k → k < pi.askedUnits → (BitVec.ofNat 32 k).signExtend 64 ≠ pi.nrUnits := by
  have hstart {s : Service} (hst : s.accessSt.state = .idle) (hpi : s.piMapToAccess.head? = some pi)
      (hdata : s.fifoRdData = []) : AccessAt pi.nrUnits 0 s.access.access := by
    obtain ⟨rest, hrest⟩ : ∃ rest, s.piMapToAccess = pi :: rest :=
      List.head?_eq_some_iff.mp hpi
    have hhdr : pi.replyHeader.2 = .read := by
      rw [replyHeader, hop, hmap]
      rfl
    have hcall : s.access = { s with
        piMapToAccess := rest
        accessSt := ⟨.outApp, pi, 0⟩
        dAccessToReply := s.dAccessToReply ++ [pi.ethHeader] } := by
      rw [Service.access, hst, hrest]
    rw [hcall]
    exact ⟨hhdr, rfl, rfl, hdata⟩
  constructor
  · intro hagrees
    have hs := hstart (s := { Service.init [] with piMapToAccess := [pi] }) rfl rfl rfl
    exact ((counts_access pi.nrUnits).returns_iff hs _).mp (hagrees _ rfl rfl rfl)
  · intro hcount s hst hpi hdata
    exact ((counts_access pi.nrUnits).returns_iff (hstart hst hpi hdata) _).mpr hcount

theorem sendAgrees_iff :
    pi.SendAgrees ↔ 0 < pi.askedUnits
      ∧ BitVec.ofNat 32 pi.askedUnits = pi.nrUnits.setWidth 32
      ∧ ∀ k, 0 < k → k < pi.askedUnits → BitVec.ofNat 32 k ≠ pi.nrUnits.setWidth 32 := by
  have hstart {s : Service} (hst : s.wrPipeSt.state = .idle)
      (hcmd : s.fifoWrCmd.head? = some pi.memCmd) (hdata : s.fifoWrData = []) :
      WrPipeAt (pi.nrUnits.setWidth 32) 0 s.dramWrPipe := by
    obtain ⟨rest, hrest⟩ : ∃ rest, s.fifoWrCmd = pi.memCmd :: rest :=
      List.head?_eq_some_iff.mp hcmd
    rw [Service.dramWrPipe, hst, hrest]
    exact ⟨rfl, rfl, rfl, hdata⟩
  constructor
  · intro hagrees
    have hs := hstart (s := { Service.init [] with fifoWrCmd := [pi.memCmd] }) rfl rfl rfl
    exact ((counts_wrPipe _).returns_iff hs _).mp (hagrees _ rfl rfl rfl)
  · intro hcount s hst hcmd hdata
    exact ((counts_wrPipe _).returns_iff (hstart hst hcmd hdata) _).mpr hcount

theorem forwardAgrees_iff :
    pi.ForwardAgrees ↔ 0 < pi.askedUnits
      ∧ (BitVec.ofNat 32 (pi.askedUnits - 1)).signExtend 64 = pi.nrUnits - 1
      ∧ ∀ k, 0 < k → k < pi.askedUnits →
        (BitVec.ofNat 32 (k - 1)).signExtend 64 ≠ pi.nrUnits - 1 := by
  have hcounts := counts_forward pi.nrUnits
  constructor
  · intro hagrees
    let s : Service := { Service.init [] with
      parserSt := ⟨.stream, pi, 0, 1⟩
      allocSt := ⟨.writeStream, pi, 0⟩
      mapSt := ⟨.stream, pi⟩ }
    have hs : ForwardAt pi.nrUnits 0 s := ⟨rfl, rfl, rfl, rfl, rfl, rfl, rfl, rfl⟩
    exact (hcounts.returns_iff hs _).mp (hagrees s hs).1
  · intro hcount s hs
    refine ⟨(hcounts.returns_iff hs _).mpr hcount, fun ds d hlast hlen ↦ ?_⟩
    obtain ⟨hat, hout⟩ := hcounts.run_zero hs ds fun j hpos hle ↦ hcount.2.2 j hpos (by omega)
    obtain ⟨hdone, hlength⟩ := hat.last (.inl hlast)
    exact ⟨hdone, by rw [hlength, hout, Nat.add_assoc, hlen]⟩

end PipelineInfo

/-! ## Lengths -/

theorem toNat_roundUp_sixtyFour (x : BitVec 64) :
    (roundUp x 64).toNat = ((x.toNat + (2 ^ 64 - 1)) % 2 ^ 64 / 64 * 64 + 64) % 2 ^ 64 := by
  rw [toNat_roundUp (by decide : (64 - 1 : BitVec 64).toNat = 2 ^ 6 - 1), toNat_sub_one]
  rfl

theorem roundUp_roundUp (x : BitVec 64) : roundUp (roundUp x 64) 64 = roundUp x 64 := by
  apply BitVec.eq_of_toNat_eq
  have hx := x.isLt
  rw [toNat_roundUp_sixtyFour (roundUp x 64), toNat_roundUp_sixtyFour x]
  omega

theorem toNat_signExtend_ofNat {k : ℕ} (hk : k < 2 ^ 31) :
    ((BitVec.ofNat 32 k).signExtend 64).toNat = k := by
  have hmod : (BitVec.ofNat 32 k).toNat = k := by
    rw [BitVec.toNat_ofNat]
    omega
  have hmsb : (BitVec.ofNat 32 k).msb = false := by
    rw [BitVec.msb_eq_false_iff_two_mul_lt, hmod]
    omega
  rw [BitVec.signExtend_eq_setWidth_of_msb_false hmsb, BitVec.toNat_setWidth, hmod]
  omega

/-- A header for which the stages agree: the rounded length is not 0 and fits 23 bits. -/
def Fits (d : NetAxis) : Prop :=
  d.opcode = opcodeRead ∨ d.opcode = opcodeWrite →
    0 < (roundUp d.length 64).toNat ∧ (roundUp d.length 64).toNat < 2 ^ 23

section Parsed

variable (pi : PipelineInfo) (d : NetAxis)

theorem askedUnits_parse : (pi.parse d).askedUnits = (roundUp d.length 64).toNat % 2 ^ 23 / 64 := by
  rw [PipelineInfo.askedUnits, PipelineInfo.memCmd, MemCmd.cook, slice, BitVec.extractLsb'_toNat,
    Nat.shiftRight_zero]
  rfl

theorem toNat_nrUnits_parse : (pi.parse d).nrUnits.toNat = (roundUp d.length 64).toNat / 64 := by
  have hdiv : (pi.parse d).nrUnits.toNat = (roundUp (roundUp d.length 64) 64).toNat / 64 :=
    BitVec.toNat_udiv
  rw [hdiv, roundUp_roundUp]

theorem dvd_roundUp (x : BitVec 64) : 64 ∣ (roundUp x 64).toNat := by
  rw [toNat_roundUp_sixtyFour]
  omega

theorem translate_parse {ret : MappingReply} (hret : ret.status = 0) :
    ((pi.parse d).translate ret).opcode = d.opcode
      ∧ ((pi.parse d).translate ret).mapStatus = piMapSucceed
      ∧ ((pi.parse d).translate ret).askedUnits = (roundUp d.length 64).toNat % 2 ^ 23 / 64
      ∧ ((pi.parse d).translate ret).nrUnits.toNat = (roundUp d.length 64).toNat / 64 := by
  rw [PipelineInfo.translate, if_pos hret]
  exact ⟨rfl, rfl, askedUnits_parse pi d, toNat_nrUnits_parse pi d⟩

end Parsed

variable {pi : PipelineInfo} {u : ℕ}

/-- `access` counts with 31 bits and a sign, which are more than the data mover is told. -/
theorem readAgrees_iff_of_units (hop : pi.opcode = opcodeRead) (hmap : pi.mapStatus = piMapSucceed)
    (hasked : pi.askedUnits = u % 2 ^ 23 / 64) (hunits : pi.nrUnits.toNat = u / 64)
    (hdvd : 64 ∣ u) : pi.ReadAgrees ↔ 0 < u ∧ u < 2 ^ 23 := by
  have htest {k : ℕ} (hk : k < 2 ^ 31) :
      (BitVec.ofNat 32 k).signExtend 64 = pi.nrUnits ↔ k = u / 64 := by
    rw [← BitVec.toNat_inj, toNat_signExtend_ofNat hk, hunits]
  have hlt : pi.askedUnits < 2 ^ 17 := by omega
  rw [PipelineInfo.readAgrees_iff hop hmap, htest (by omega), hasked]
  constructor
  · rintro ⟨hpos, heq, -⟩
    omega
  · rintro ⟨hpos, hlt⟩
    refine ⟨by omega, by omega, fun k _ hk ↦ ?_⟩
    rw [ne_eq, htest (by omega)]
    omega

/-- `DRAM_wr_pipe` counts with 32 bits. -/
theorem sendAgrees_iff_of_units (hasked : pi.askedUnits = u % 2 ^ 23 / 64)
    (hunits : pi.nrUnits.toNat = u / 64) (hdvd : 64 ∣ u) :
    pi.SendAgrees ↔ 0 < u % 2 ^ 38 ∧ u % 2 ^ 38 < 2 ^ 23 := by
  have htest {k : ℕ} (hk : k < 2 ^ 32) :
      BitVec.ofNat 32 k = pi.nrUnits.setWidth 32 ↔ k = u % 2 ^ 38 / 64 := by
    rw [← BitVec.toNat_inj, BitVec.toNat_ofNat, BitVec.toNat_setWidth, hunits]
    omega
  have hlt : pi.askedUnits < 2 ^ 17 := by omega
  rw [PipelineInfo.sendAgrees_iff, htest (by omega), hasked]
  constructor
  · rintro ⟨hpos, heq, -⟩
    omega
  · rintro ⟨hpos, hlt⟩
    refine ⟨by omega, by omega, fun k _ hk ↦ ?_⟩
    rw [ne_eq, htest (by omega)]
    omega

/-- `parser` counts with 31 bits and a sign, from 0. -/
theorem forwardAgrees_iff_of_units (hasked : pi.askedUnits = u % 2 ^ 23 / 64)
    (hunits : pi.nrUnits.toNat = u / 64) (hdvd : 64 ∣ u) :
    pi.ForwardAgrees ↔ 0 < u ∧ u < 2 ^ 23 := by
  have htest {k : ℕ} (hk : k < 2 ^ 31) :
      (BitVec.ofNat 32 k).signExtend 64 = pi.nrUnits - 1
        ↔ k = (u / 64 + (2 ^ 64 - 1)) % 2 ^ 64 := by
    rw [← BitVec.toNat_inj, toNat_signExtend_ofNat hk, toNat_sub_one, hunits]
  have hu : u / 64 < 2 ^ 64 := hunits ▸ pi.nrUnits.isLt
  have hlt : pi.askedUnits < 2 ^ 17 := by omega
  rw [PipelineInfo.forwardAgrees_iff, htest (by omega), hasked]
  constructor
  · rintro ⟨hpos, heq, -⟩
    omega
  · rintro ⟨hpos, hlt⟩
    refine ⟨by omega, by omega, fun k _ hk ↦ ?_⟩
    rw [ne_eq, htest (by omega)]
    omega

/-- So `parser` is the one that `DRAM_wr_pipe` and the data mover have to agree with. -/
theorem writeAgrees_iff_of_units (hasked : pi.askedUnits = u % 2 ^ 23 / 64)
    (hunits : pi.nrUnits.toNat = u / 64) (hdvd : 64 ∣ u) :
    pi.WriteAgrees ↔ 0 < u ∧ u < 2 ^ 23 := by
  rw [PipelineInfo.WriteAgrees, sendAgrees_iff_of_units hasked hunits hdvd,
    forwardAgrees_iff_of_units hasked hunits hdvd]
  refine and_iff_right_of_imp ?_
  rintro ⟨hpos, hlt⟩
  rw [Nat.mod_eq_of_lt (hlt.trans (by decide))]
  exact ⟨hpos, hlt⟩

/-- **Length bookkeeping.** For a `READ` or `WRITE` that is mapped, the stages that count units and
the data mover agree exactly if the rounded length is not 0 and fits the 23 bits of the command. -/
theorem length_bookkeeping_iff (pi : PipelineInfo) (d : NetAxis) (ret : MappingReply)
    (hret : ret.status = 0) : ((pi.parse d).translate ret).LengthAgrees ↔ Fits d := by
  obtain ⟨hop, hmap, hasked, hunits⟩ := translate_parse pi d hret
  have hdvd := dvd_roundUp d.length
  rw [PipelineInfo.LengthAgrees, hop, Fits, or_imp]
  refine and_congr (imp_congr_right fun hread ↦ ?_) (imp_congr_right fun _ ↦ ?_)
  · exact readAgrees_iff_of_units (hop.trans hread) hmap hasked hunits hdvd
  · exact writeAgrees_iff_of_units hasked hunits hdvd

theorem length_bookkeeping_iff_one :
    (((({} : PipelineInfo).parse (header opcodeRead 0x1000 64)).translate
      ⟨0, 0x200, 0⟩).LengthAgrees ↔ Fits (header opcodeRead 0x1000 64)) :=
  length_bookkeeping_iff {} (header opcodeRead 0x1000 64) ⟨0, 0x200, 0⟩ rfl

/-- A `READ` of `2 ^ 23` bytes asks the data mover for nothing. -/
theorem not_lengthAgrees_long :
    ¬((({} : PipelineInfo).parse (header opcodeRead 0x1000 0x800000)).translate
      ⟨0, 0x200, 0⟩).LengthAgrees := by
  have hret : (⟨0, 0x200, 0⟩ : MappingReply).status = 0 := rfl
  obtain ⟨hop, hmap, hasked, hunits⟩ := translate_parse {} (header opcodeRead 0x1000 0x800000) hret
  rw [opcode_header] at hop
  intro h
  have hlt := ((readAgrees_iff_of_units hop hmap hasked hunits (dvd_roundUp _)).mp (h.1 hop)).2
  rw [length_header] at hlt
  exact absurd hlt (by decide)

end FpgaOs.Rdm
