import FpgaOs.Lib.Machine
import FpgaOs.Rdm.Stages
import Mathlib.Data.List.OfFn

/-!
# The segment table of `rdm_segment`

`rdm_segment` has the stages of `rdm_mapping`, but its `map` translates by itself: it looks for the
first of 64 segments that has the virtual address. The index of the segment is a local variable
which only the search sets. After a search without success it is compared with the number of
entries as if it had run through the loop, but it has whatever value was there before.

`Unset` is what a call finds in that variable, and behind the table if the variable leads there. A
run of `map` translates as it should exactly if each request has a segment or finds the number 64.
-/

namespace FpgaOs.Rdm

/-! ## The table -/

/-- `struct segment_entry`. -/
structure SegmentEntry where
  vaBase : BitVec 64
  vaLimit : BitVec 64
  paBase : BitVec 64
  deriving DecidableEq

/-- `seg_table`. -/
abbrev SegTable := Fin 64 → SegmentEntry

/-- The address lies in the segment. -/
def SegmentEntry.covers (seg : SegmentEntry) (va : BitVec 64) : Bool :=
  decide (seg.vaBase ≤ va) && decide (va < seg.vaLimit)

theorem SegmentEntry.covers_iff {seg : SegmentEntry} {va : BitVec 64} :
    seg.covers va = true ↔ seg.vaBase ≤ va ∧ va < seg.vaLimit := by
  rw [covers, Bool.and_eq_true, decide_eq_true_iff, decide_eq_true_iff]

/-- `NR_SEGMENT_ENTRIES`. -/
def nrSegmentEntries : BitVec 32 := 64

/-- What a call finds where nothing has been written: the value of `seg_index`, and the words that
are read in place of an entry when the index leads out of the table. -/
structure Unset where
  segIndex : BitVec 32
  outside : SegmentEntry

namespace SegTable

variable (tbl : SegTable)

/-- The loop over the table, up to its `break`. -/
def search (va : BitVec 64) : Option (Fin 64) :=
  (List.finRange 64).find? fun i ↦ (tbl i).covers va

/-- `seg_index` after the loop. -/
def segIndex (va : BitVec 64) (u : Unset) : BitVec 32 :=
  match tbl.search va with
  | some i => BitVec.ofNat 32 i
  | none => u.segIndex

/-- `seg_table[seg_index]`. -/
def entryAt (i : BitVec 32) (u : Unset) : SegmentEntry :=
  if h : i.toNat < 64 then tbl ⟨i.toNat, h⟩ else u.outside

/-- The segment is the first one that has the address. -/
def First (va : BitVec 64) (i : Fin 64) : Prop :=
  (tbl i).covers va = true ∧ ∀ j < i, (tbl j).covers va = false

variable {tbl} {va : BitVec 64} {u : Unset} {i : Fin 64}

theorem search_eq_none : tbl.search va = none ↔ ∀ i, (tbl i).covers va = false := by
  simp [search]

theorem search_eq_some : tbl.search va = some i ↔ tbl.First va i := by
  rw [search, List.finRange, List.find?_ofFn_eq_some]
  constructor
  · rintro ⟨hcov, j, rfl, hnone⟩
    exact ⟨hcov, fun k hk ↦ Bool.not_eq_true _ ▸ hnone k hk⟩
  · rintro ⟨hcov, hnone⟩
    exact ⟨hcov, i, rfl, fun k hk ↦ (Bool.not_eq_true _).mpr (hnone k hk)⟩

theorem exists_first (h : (tbl i).covers va = true) : ∃ j, tbl.First va j := by
  cases hsearch : tbl.search va with
  | none => exact absurd h (by rw [search_eq_none.mp hsearch i]; exact Bool.false_ne_true)
  | some j => exact ⟨j, search_eq_some.mp hsearch⟩

theorem First.segIndex (h : tbl.First va i) : tbl.segIndex va u = BitVec.ofNat 32 i := by
  rw [SegTable.segIndex, search_eq_some.mpr h]

theorem segIndex_of_none (h : ∀ i, (tbl i).covers va = false) : tbl.segIndex va u = u.segIndex := by
  rw [segIndex, search_eq_none.mpr h]

theorem entryAt_ofNat (tbl : SegTable) (i : Fin 64) (u : Unset) :
    tbl.entryAt (BitVec.ofNat 32 i) u = tbl i := by
  have hi : (BitVec.ofNat 32 i).toNat = i := by
    rw [BitVec.toNat_ofNat]
    omega
  rw [entryAt, dif_pos (by omega)]
  congr 1
  exact Fin.ext hi

theorem ofNat_ne_nrSegmentEntries (i : Fin 64) : BitVec.ofNat 32 i ≠ nrSegmentEntries := by
  revert i
  decide

end SegTable

/-! ## The stage -/

/-- A request for which `seg_index` has been compared with the number of entries. -/
def PipelineInfo.mapSegment (pi : PipelineInfo) (tbl : SegTable) (u : Unset) : PipelineInfo :=
  let segIndex := tbl.segIndex pi.va u
  if segIndex ≠ nrSegmentEntries then
    let seg := tbl.entryAt segIndex u
    { pi with
      mapStatus := piMapSucceed
      pa := pi.va - seg.vaBase + seg.paBase
      paIndex := (pi.va - seg.vaBase + seg.paBase) / 64 }
  else { pi with mapStatus := piMapFail }

/-- What `map` finds in a call. -/
structure SegmentCall where
  piIn : Option PipelineInfo
  dIn : Option NetAxis
  unset : Unset

/-- What `map` writes in a call. -/
structure SegmentOut where
  piOut : Option PipelineInfo := none
  dramRdCmd : Option MemCmd := none
  dramWrCmd : Option MemCmd := none
  dramWrData : Option (BitVec 512) := none

/-- `map` of `rdm_segment`. -/
def MapStage.mapCall (tbl : SegTable) (s : MapStage) (c : SegmentCall) : MapStage × SegmentOut :=
  match s.state with
  | .idle =>
    match c.piIn with
    | none => (s, {})
    | some pi => (⟨.waitMap, pi⟩, {})
  | .waitMap =>
    let found := tbl.segIndex s.pi.va c.unset ≠ nrSegmentEntries
    let pi := s.pi.mapSegment tbl c.unset
    (⟨if pi.opcode = opcodeWrite then .stream else .idle, pi⟩,
      { piOut := some pi
        dramRdCmd := if found ∧ pi.opcode = opcodeRead then some pi.memCmd else none
        dramWrCmd := if found ∧ pi.opcode = opcodeWrite then some pi.memCmd else none })
  | .stream =>
    match c.dIn with
    | none => (s, {})
    | some d => ({ s with state := if d.last = 1 then .idle else .stream },
        { dramWrData := some d.data })

def MapStage.mapStep (tbl : SegTable) (s : MapStage) (c : SegmentCall) : MapStage :=
  (s.mapCall tbl c).1

/-! ## Translations -/

/-- What `map` should write about a request: the first segment that has the address translates it,
and the commands to DRAM carry the translation; without a segment the request fails and there are no
commands. -/
structure Translated (tbl : SegTable) (pi : PipelineInfo) (out : SegmentOut) (pi' : PipelineInfo) :
    Prop where
  piOut_eq : out.piOut = some pi'
  succeed_iff : pi'.mapStatus = piMapSucceed
    ↔ ∃ i, (tbl i).vaBase ≤ pi.va ∧ pi.va < (tbl i).vaLimit
  fail_iff : pi'.mapStatus = piMapFail
    ↔ ¬∃ i, (tbl i).vaBase ≤ pi.va ∧ pi.va < (tbl i).vaLimit
  translated : ∀ i, tbl.First pi.va i → pi'.pa = pi.va - (tbl i).vaBase + (tbl i).paBase
  dramRdCmd_eq : out.dramRdCmd
    = if pi'.mapStatus = piMapSucceed ∧ pi.opcode = opcodeRead then some pi'.memCmd else none
  dramWrCmd_eq : out.dramWrCmd
    = if pi'.mapStatus = piMapSucceed ∧ pi.opcode = opcodeWrite then some pi'.memCmd else none

namespace MapStage

variable {tbl : SegTable} {s : MapStage} {c : SegmentCall}

/-- A request that the call answers is answered as it should be. -/
def Translates (tbl : SegTable) (s : MapStage) (c : SegmentCall) : Prop :=
  s.state = .waitMap → ∃ pi', Translated tbl s.pi (s.mapCall tbl c).2 pi'

/-- A request that the call answers has a segment, or finds the number of entries in the
variable. -/
def Indexed (tbl : SegTable) (s : MapStage) (c : SegmentCall) : Prop :=
  s.state = .waitMap → (∃ i, (tbl i).vaBase ≤ s.pi.va ∧ s.pi.va < (tbl i).vaLimit)
    ∨ c.unset.segIndex = nrSegmentEntries

theorem mapCall_waitMap (h : s.state = .waitMap) :
    (s.mapCall tbl c).2 =
      { piOut := some (s.pi.mapSegment tbl c.unset)
        dramRdCmd :=
          if tbl.segIndex s.pi.va c.unset ≠ nrSegmentEntries ∧ s.pi.opcode = opcodeRead then
            some (s.pi.mapSegment tbl c.unset).memCmd else none
        dramWrCmd :=
          if tbl.segIndex s.pi.va c.unset ≠ nrSegmentEntries ∧ s.pi.opcode = opcodeWrite then
            some (s.pi.mapSegment tbl c.unset).memCmd else none } := by
  have hopcode : (s.pi.mapSegment tbl c.unset).opcode = s.pi.opcode := by
    rw [PipelineInfo.mapSegment]
    split_ifs <;> rfl
  rw [mapCall, h]
  simp only [hopcode]

theorem not_covers {va : BitVec 64} (h : ¬∃ i, (tbl i).vaBase ≤ va ∧ va < (tbl i).vaLimit)
    (i : Fin 64) : (tbl i).covers va = false := by
  rw [← Bool.not_eq_true, SegmentEntry.covers_iff]
  exact fun hi ↦ h ⟨i, hi⟩

theorem translated_of_segment (hs : s.state = .waitMap)
    (h : ∃ i, (tbl i).vaBase ≤ s.pi.va ∧ s.pi.va < (tbl i).vaLimit) :
    Translated tbl s.pi (s.mapCall tbl c).2 (s.pi.mapSegment tbl c.unset) := by
  obtain ⟨i, hi⟩ := h
  obtain ⟨j, hj⟩ := SegTable.exists_first (SegmentEntry.covers_iff.mpr hi)
  have hindex : tbl.segIndex s.pi.va c.unset = BitVec.ofNat 32 j := hj.segIndex
  have hne := SegTable.ofNat_ne_nrSegmentEntries j
  have hmap : s.pi.mapSegment tbl c.unset =
      { s.pi with
        mapStatus := piMapSucceed
        pa := s.pi.va - (tbl j).vaBase + (tbl j).paBase
        paIndex := (s.pi.va - (tbl j).vaBase + (tbl j).paBase) / 64 } := by
    rw [PipelineInfo.mapSegment, hindex, SegTable.entryAt_ofNat]
    exact if_pos hne
  rw [mapCall_waitMap hs, hmap, hindex]
  refine ⟨rfl, iff_of_true rfl ⟨i, hi⟩,
    iff_of_false (by decide : piMapSucceed ≠ piMapFail) (not_not_intro ⟨i, hi⟩), ?_, ?_, ?_⟩
  · intro k hk
    have hsame : j = k := Option.some.inj
      ((SegTable.search_eq_some.mpr hj).symm.trans (SegTable.search_eq_some.mpr hk))
    rw [hsame]
  · simp only [hne, ne_eq, not_false_iff, true_and]
  · simp only [hne, ne_eq, not_false_iff, true_and]

theorem translated_of_unset (hs : s.state = .waitMap)
    (h : ¬∃ i, (tbl i).vaBase ≤ s.pi.va ∧ s.pi.va < (tbl i).vaLimit)
    (hunset : c.unset.segIndex = nrSegmentEntries) :
    Translated tbl s.pi (s.mapCall tbl c).2 (s.pi.mapSegment tbl c.unset) := by
  have hindex : tbl.segIndex s.pi.va c.unset = nrSegmentEntries :=
    (SegTable.segIndex_of_none (not_covers h)).trans hunset
  have hmap : s.pi.mapSegment tbl c.unset = { s.pi with mapStatus := piMapFail } := by
    rw [PipelineInfo.mapSegment]
    exact if_neg (not_not_intro hindex)
  have hfail : piMapFail ≠ piMapSucceed := by decide
  rw [mapCall_waitMap hs, hmap]
  refine ⟨rfl, iff_of_false hfail h, iff_of_true rfl h, ?_, ?_, ?_⟩
  · intro i hi
    exact absurd ⟨i, SegmentEntry.covers_iff.mp hi.1⟩ h
  · simp only [hindex, hfail, ne_eq, not_true, false_and]
  · simp only [hindex, hfail, ne_eq, not_true, false_and]

theorem mapSegment_unset (h : ¬∃ i, (tbl i).vaBase ≤ s.pi.va ∧ s.pi.va < (tbl i).vaLimit)
    (hunset : c.unset.segIndex ≠ nrSegmentEntries) :
    (s.pi.mapSegment tbl c.unset).mapStatus = piMapSucceed := by
  have hindex : tbl.segIndex s.pi.va c.unset = c.unset.segIndex :=
    SegTable.segIndex_of_none (not_covers h)
  rw [PipelineInfo.mapSegment, hindex, if_pos hunset]

theorem translates_iff (tbl : SegTable) (s : MapStage) (c : SegmentCall) :
    Translates tbl s c ↔ Indexed tbl s c := by
  constructor
  · intro htrans hs
    obtain ⟨pi', hpi'⟩ := htrans hs
    by_contra hno
    rw [not_or] at hno
    have hout := hpi'.piOut_eq
    rw [mapCall_waitMap hs] at hout
    have hstatus := mapSegment_unset hno.1 hno.2
    rw [Option.some.inj hout] at hstatus
    exact hno.1 (hpi'.succeed_iff.mp hstatus)
  · intro hindexed hs
    by_cases h : ∃ i, (tbl i).vaBase ≤ s.pi.va ∧ s.pi.va < (tbl i).vaLimit
    · exact ⟨_, translated_of_segment hs h⟩
    · exact ⟨_, translated_of_unset hs h ((hindexed hs).resolve_left h)⟩

/-- **Segment translation.** In a run of `map` every request is answered as the table says, exactly
if each one has a segment or finds the number of entries in the variable that has not been set. -/
theorem segment_translation_iff (tbl : SegTable) (s : MapStage) (cs : List SegmentCall) :
    Machine.Guarded (mapStep tbl) (Translates tbl) s cs
      ↔ Machine.Guarded (mapStep tbl) (Indexed tbl) s cs :=
  ⟨.mono fun s c ↦ (translates_iff tbl s c).mp, .mono fun s c ↦ (translates_iff tbl s c).mpr⟩

/-- With a table that has no segments, a `READ` succeeds when the variable happens to be 0. -/
theorem segment_translation_unset :
    ¬Machine.Guarded (mapStep fun _ ↦ ⟨0, 0, 0⟩) (Translates fun _ ↦ ⟨0, 0, 0⟩) ⟨.idle, {}⟩
      [⟨some { opcode := opcodeRead, va := 0x1000, length := 64, nrUnits := 1 }, none,
          ⟨0, ⟨0, 0, 0⟩⟩⟩,
        ⟨none, none, ⟨0, ⟨0, 0, 0⟩⟩⟩] := by
  rintro ⟨-, htrans, -⟩
  obtain ⟨pi', hpi'⟩ := htrans rfl
  have hstatus : pi'.mapStatus = piMapSucceed := by
    rw [← Option.some.inj hpi'.piOut_eq]
    decide
  obtain ⟨i, -, hlt⟩ := hpi'.succeed_iff.mp hstatus
  exact absurd hlt (BitVec.not_lt_zero)

end MapStage

end FpgaOs.Rdm
