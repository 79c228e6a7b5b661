import FpgaOs.Lib.BitField
import FpgaOs.Lib.Machine
import Mathlib.Order.Nat

/-!
# The chunk allocator and the protection table

`chunk_alloc` keeps a bitmap of the chunks that are in use, and for each request that it accepts
asks the segment unit to enter the chunk in its table, with the process it belongs to, or to take it
out. The two agree in every reachable state. But when a chunk is to be freed, the allocator looks
only at the bitmap and `del` only at the valid bit: the process that asks is passed on and compared
with nothing. So a process frees the chunks of another one.
-/

namespace FpgaOs.Chunk

open Machine BitField

/-! ## The code -/

/-- `CHUNK_ALLOC` and `CHUNK_FREE`. -/
abbrev CHUNK_ALLOC : BitVec 1 := 0

abbrev CHUNK_FREE : BitVec 1 := 1

/-- `CHUNK_SHIFT`. -/
abbrev CHUNK_SHIFT : ℕ := 29

/-- `TABLE_SIZE`. -/
abbrev TABLE_SIZE : ℕ := 8

/-- `CHUNK_IDX`, of the type `ap_uint<TABLE_TYPE>`. -/
def chunkIdx (addr : BitVec 32) : BitVec 4 := (addr >>> CHUNK_SHIFT).setWidth 4

/-- `ADDR(i, CHUNK_SHIFT)`. -/
def chunkAddr (i : BitVec 32) : BitVec 32 := i <<< CHUNK_SHIFT

/-- `struct sysmmu_entry`. -/
structure SysmmuEntry where
  valid : BitVec 1 := 0
  rw : BitVec 1 := 0
  pid : BitVec 8 := 0
  deriving DecidableEq

/-- `struct sysmmu_alloc_if`. -/
structure AllocIf where
  opcode : BitVec 1
  pid : BitVec 8
  rw : BitVec 1
  addr : BitVec 32

/-- `struct sysmmu_alloc_ret_if`. -/
structure AllocRetIf where
  addr : BitVec 32
  stat : BitVec 1
  deriving DecidableEq

/-- `struct sysmmu_ctrl_if`. -/
structure CtrlIf where
  opcode : BitVec 1
  rw : BitVec 1
  pid : BitVec 8
  idx : BitVec 4

/-- `sysmmu_table`. -/
abbrev SysmmuTable := ℕ → SysmmuEntry

/-- `insert`. -/
def insert (table : SysmmuTable) (ctrl : CtrlIf) : SysmmuTable × BitVec 1 :=
  if (table ctrl.idx.toNat).valid = 1 then (table, 1)
  else (Function.update table ctrl.idx.toNat ⟨1, ctrl.rw, ctrl.pid⟩, 0)

/-- `del`. -/
def del (table : SysmmuTable) (ctrl : CtrlIf) : SysmmuTable × BitVec 1 :=
  if (table ctrl.idx.toNat).valid = 1 then
    (Function.update table ctrl.idx.toNat { table ctrl.idx.toNat with valid := 0 }, 0)
  else (table, 1)

/-- `sysmmu_ctrl_hanlder`. -/
def sysmmuCtrlHanlder (table : SysmmuTable) (ctrl : CtrlIf) : SysmmuTable × BitVec 1 :=
  if ctrl.opcode = CHUNK_ALLOC then insert table ctrl else del table ctrl

/-- The static variables of the two units. -/
structure Chunks where
  chunkBitmap : BitVec TABLE_SIZE
  sysmmuTable : SysmmuTable

namespace Chunks

variable (s : Chunks) (alloc : AllocIf)

/-- `malloc`, with the segment unit answering the control request. -/
def malloc : Chunks × AllocRetIf :=
  match (List.range TABLE_SIZE).find? fun i ↦ !s.chunkBitmap.getLsbD i with
  | none => (s, ⟨0, 1⟩)
  | some i =>
    let answer := sysmmuCtrlHanlder s.sysmmuTable
      ⟨CHUNK_ALLOC, alloc.rw, alloc.pid, BitVec.ofNat 4 i⟩
    (⟨setBit s.chunkBitmap i true, answer.1⟩,
      if answer.2 = 0 then ⟨chunkAddr (BitVec.ofNat 32 i), 0⟩ else ⟨0, 1⟩)

/-- `mfree`, with the segment unit answering the control request. -/
def mfree : Chunks × AllocRetIf :=
  if s.chunkBitmap.getLsbD (chunkIdx alloc.addr).toNat then
    let answer := sysmmuCtrlHanlder s.sysmmuTable
      ⟨CHUNK_FREE, alloc.rw, alloc.pid, chunkIdx alloc.addr⟩
    (⟨if answer.2 = 0 then
      setBit s.chunkBitmap (chunkIdx alloc.addr).toNat false else s.chunkBitmap, answer.1⟩,
      if answer.2 = 0 then ⟨0, 0⟩ else ⟨0, 1⟩)
  else (s, ⟨0, 1⟩)

/-- `handler`. -/
def handler : Chunks × AllocRetIf :=
  if alloc.opcode = CHUNK_ALLOC then s.malloc alloc else s.mfree alloc

/-- From the reset state. -/
def init : Chunks := ⟨0, fun _ ↦ {}⟩

end Chunks

/-! ## Who has been given what -/

/-- Process and permission of a chunk. -/
abbrev Owner := BitVec 8 × BitVec 1

/-- The two units, with what the requests and the responses say about each chunk: the process that
it has been given to, and the permission. -/
structure ChunkLog where
  chunks : Chunks
  owner : ℕ → Option Owner

namespace ChunkLog

variable (l : ChunkLog) (req : AllocIf)

/-- What a request that succeeds says about a chunk. -/
def granted (ret : AllocRetIf) : ℕ → Option Owner :=
  if ret.stat = 0 then
    if req.opcode = CHUNK_ALLOC then
      Function.update l.owner (chunkIdx ret.addr).toNat (some (req.pid, req.rw))
    else Function.update l.owner (chunkIdx req.addr).toNat none
  else l.owner

def step : ChunkLog := ⟨(l.chunks.handler req).1, l.granted req (l.chunks.handler req).2⟩

def init : ChunkLog := ⟨.init, fun _ ↦ none⟩

/-- A chunk is marked in the bitmap exactly when its entry is valid, and the entry then holds the
process and the permission of the request that allocated the chunk. -/
structure Agrees : Prop where
  valid_iff : ∀ i < TABLE_SIZE, l.chunks.chunkBitmap.getLsbD i = true
    ↔ (l.chunks.sysmmuTable i).valid = 1
  owner_eq : ∀ i < TABLE_SIZE, l.chunks.chunkBitmap.getLsbD i = true →
    l.owner i = some ((l.chunks.sysmmuTable i).pid, (l.chunks.sysmmuTable i).rw)

/-- An allocation succeeds exactly when a chunk is free, a release exactly when the chunk has been
given to the process that asks, and a request that fails changes nothing. -/
structure Serves : Prop where
  alloc_iff : req.opcode = CHUNK_ALLOC →
    ((l.chunks.handler req).2.stat = 0 ↔ ∃ i < TABLE_SIZE, l.chunks.chunkBitmap.getLsbD i = false)
  free_iff : req.opcode = CHUNK_FREE →
    ((l.chunks.handler req).2.stat = 0 ↔ ∃ rw, l.owner (chunkIdx req.addr).toNat = some
      (req.pid, rw))
  unchanged : (l.chunks.handler req).2.stat ≠ 0 → (l.chunks.handler req).1 = l.chunks

/-- The condition: a chunk that is to be freed has been given to no one, or to the process that
asks. -/
def Entitled : Prop :=
  req.opcode = CHUNK_FREE → ∀ pid rw, l.owner (chunkIdx req.addr).toNat = some (pid, rw) →
    pid = req.pid

/-! ## One request -/

variable {l req}

/-- The chunks that have not been given to anyone are those that are not marked. -/
structure Inv (l : ChunkLog) : Prop where
  agrees : l.Agrees
  owner_none : ∀ i < TABLE_SIZE, l.chunks.chunkBitmap.getLsbD i = false → l.owner i = none

theorem inv_init : Inv init := by
  have hbit : ∀ i, ¬init.chunks.chunkBitmap.getLsbD i = true := fun i ↦ by simp [init, Chunks.init]
  have hvalid : ∀ i, ¬(init.chunks.sysmmuTable i).valid = 1 :=
    fun _ h ↦ absurd (congrArg BitVec.toNat h) Nat.zero_ne_one
  exact ⟨⟨fun i _ ↦ iff_of_false (hbit i) (hvalid i), fun i _ h ↦ absurd h (hbit i)⟩,
    fun _ _ _ ↦ rfl⟩

theorem chunkIdx_lt (addr : BitVec 32) : (chunkIdx addr).toNat < TABLE_SIZE := by
  have hlt := addr.isLt
  rw [chunkIdx, BitVec.toNat_setWidth, BitVec.toNat_ushiftRight, Nat.shiftRight_eq_div_pow]
  exact (Nat.mod_le _ _).trans_lt ((Nat.div_lt_iff_lt_mul (by decide)).mpr hlt)

theorem chunkIdx_chunkAddr {i : ℕ} (hi : i < TABLE_SIZE) :
    (chunkIdx (chunkAddr (BitVec.ofNat 32 i))).toNat = i := by
  have hi32 : i % 2 ^ 32 = i := Nat.mod_eq_of_lt (hi.trans (by decide))
  have hshift : i * 2 ^ 29 < 2 ^ 32 := (Nat.mul_lt_mul_right (by decide)).mpr hi
  rw [chunkIdx, chunkAddr, BitVec.toNat_setWidth, BitVec.toNat_ushiftRight, BitVec.toNat_shiftLeft,
    BitVec.toNat_ofNat, hi32, Nat.shiftLeft_eq, Nat.mod_eq_of_lt hshift, Nat.shiftRight_eq_div_pow,
    Nat.mul_div_cancel _ (by decide)]
  exact Nat.mod_eq_of_lt (hi.trans (by decide))

theorem Agrees.handler_cases (h : l.Agrees) (req : AllocIf) :
    (req.opcode = CHUNK_ALLOC ∧ (∀ i < TABLE_SIZE, l.chunks.chunkBitmap.getLsbD i = true)
        ∧ l.chunks.handler req = (l.chunks, ⟨0, 1⟩))
      ∨ (req.opcode = CHUNK_ALLOC ∧ ∃ i < TABLE_SIZE, l.chunks.chunkBitmap.getLsbD i = false
        ∧ l.chunks.handler req = (⟨setBit l.chunks.chunkBitmap i true,
          Function.update l.chunks.sysmmuTable i ⟨1, req.rw, req.pid⟩⟩,
            ⟨chunkAddr (BitVec.ofNat 32 i), 0⟩))
      ∨ (req.opcode ≠ CHUNK_ALLOC ∧ l.chunks.chunkBitmap.getLsbD (chunkIdx req.addr).toNat = true
        ∧ l.chunks.handler req = (⟨setBit l.chunks.chunkBitmap (chunkIdx req.addr).toNat false,
          Function.update l.chunks.sysmmuTable (chunkIdx req.addr).toNat
            { l.chunks.sysmmuTable (chunkIdx req.addr).toNat with valid := 0 }⟩, ⟨0, 0⟩))
      ∨ (req.opcode ≠ CHUNK_ALLOC ∧ l.chunks.chunkBitmap.getLsbD (chunkIdx req.addr).toNat = false
        ∧ l.chunks.handler req = (l.chunks, ⟨0, 1⟩)) := by
  by_cases hop : req.opcode = CHUNK_ALLOC
  · rw [Chunks.handler, if_pos hop, Chunks.malloc]
    cases hfind : (List.range TABLE_SIZE).find? fun i ↦ !l.chunks.chunkBitmap.getLsbD i with
    | none =>
      refine .inl ⟨hop, fun i hi ↦ ?_, rfl⟩
      have hnone := List.find?_eq_none.mp hfind i (List.mem_range.mpr hi)
      simpa using hnone
    | some i =>
      have hi : i < TABLE_SIZE := List.mem_range.mp (List.mem_of_find?_eq_some hfind)
      have hfree : l.chunks.chunkBitmap.getLsbD i = false := by simpa using List.find?_some hfind
      -- the segment unit refuses no chunk that the bitmap calls free
      have hvalid : ¬(l.chunks.sysmmuTable i).valid = 1 := by
        rw [← h.valid_iff i hi, hfree]
        exact Bool.false_ne_true
      have hidx : (BitVec.ofNat 4 i).toNat = i := by
        rw [BitVec.toNat_ofNat]
        exact Nat.mod_eq_of_lt (hi.trans (by decide))
      refine .inr (.inl ⟨hop, i, hi, hfree, ?_⟩)
      simp only [sysmmuCtrlHanlder, insert, hidx, if_true, if_neg hvalid]
  · rw [Chunks.handler, if_neg hop, Chunks.mfree]
    cases hbit : l.chunks.chunkBitmap.getLsbD (chunkIdx req.addr).toNat with
    | false => exact .inr (.inr (.inr ⟨hop, rfl, rfl⟩))
    | true =>
      -- and it has an entry for every chunk that is to be freed
      have hvalid := (h.valid_iff _ (chunkIdx_lt req.addr)).mp hbit
      refine .inr (.inr (.inl ⟨hop, rfl, ?_⟩))
      have hne : ¬CHUNK_FREE = CHUNK_ALLOC := by decide
      simp only [sysmmuCtrlHanlder, del, hvalid, if_true, if_neg hne]

theorem step_of_refused (h : l.chunks.handler req = (l.chunks, ⟨0, 1⟩)) : l.step req = l := by
  have hstat : ¬(1 : BitVec 1) = 0 := by decide
  rw [step, h, granted, if_neg hstat]

theorem Inv.update (h : Inv l) {i : ℕ} (hi : i < TABLE_SIZE) {b : Bool} {e : SysmmuEntry}
    {o : Option Owner} (hvalid : b = true ↔ e.valid = 1)
    (howner : b = true → o = some (e.pid, e.rw)) (hnone : b = false → o = none) :
    Inv ⟨⟨setBit l.chunks.chunkBitmap i b, Function.update l.chunks.sysmmuTable i e⟩,
      Function.update l.owner i o⟩ := by
  refine ⟨⟨fun j hj ↦ ?_, fun j hj ↦ ?_⟩, fun j hj ↦ ?_⟩
  all_goals
    dsimp only
    rw [getLsbD_setBit hi]
    by_cases hji : j = i
  · rwa [if_pos hji, hji, Function.update_self]
  · rw [if_neg hji, Function.update_of_ne hji]
    exact h.agrees.valid_iff j hj
  · rwa [if_pos hji, hji, Function.update_self, Function.update_self]
  · rw [if_neg hji, Function.update_of_ne hji, Function.update_of_ne hji]
    exact h.agrees.owner_eq j hj
  · rwa [if_pos hji, hji, Function.update_self]
  · rw [if_neg hji, Function.update_of_ne hji]
    exact h.owner_none j hj

/-- The two units agree after each request, whoever it comes from. -/
theorem inv_step (l : ChunkLog) (req : AllocIf) (h : Inv l) : Inv (l.step req) := by
  obtain ⟨-, -, hret⟩ | ⟨hop, i, hi, -, hret⟩ | ⟨hop, -, hret⟩ | ⟨-, -, hret⟩ :=
    h.agrees.handler_cases req
  · rwa [step_of_refused hret]
  · rw [step, hret, granted, if_pos rfl, if_pos hop, chunkIdx_chunkAddr hi]
    exact h.update hi (iff_of_true rfl rfl) (fun _ ↦ rfl) fun hb ↦ Bool.noConfusion hb
  · have hne : ¬(0 : BitVec 1) = 1 := by decide
    rw [step, hret, granted, if_pos rfl, if_neg hop]
    exact h.update (chunkIdx_lt req.addr) (iff_of_false Bool.false_ne_true hne)
      (fun hb ↦ Bool.noConfusion hb) fun _ ↦ rfl
  · rwa [step_of_refused hret]

theorem opcode_eq_free (hop : req.opcode ≠ CHUNK_ALLOC) : req.opcode = CHUNK_FREE :=
  (BitVec.eq_zero_or_eq_one req.opcode).resolve_left hop

/-- A request is served as it should be exactly when it does not free the chunk of another
process. -/
theorem serves_iff (l : ChunkLog) (req : AllocIf) (h : Inv l) : l.Serves req ↔ l.Entitled req := by
  have hne : ¬(1 : BitVec 1) = 0 := by decide
  obtain ⟨hop, hall, hret⟩ | ⟨hop, i, hi, hfree, hret⟩ | ⟨hop, hbit, hret⟩ | ⟨hop, hbit, hret⟩ :=
    h.agrees.handler_cases req
  · refine iff_of_true
      ⟨fun _ ↦ ?_, fun hop' ↦ absurd (hop'.symm.trans hop) hne, fun _ ↦ by rw [hret]⟩
      fun hop' ↦ absurd (hop'.symm.trans hop) hne
    rw [hret]
    exact iff_of_false hne fun ⟨i, hi, hfree⟩ ↦ Bool.noConfusion ((hall i hi).symm.trans hfree)
  · refine iff_of_true ⟨fun _ ↦ ?_, fun hop' ↦ absurd (hop'.symm.trans hop) hne, fun hstat ↦ ?_⟩
      fun hop' ↦ absurd (hop'.symm.trans hop) hne
    · rw [hret]
      exact iff_of_true rfl ⟨i, hi, hfree⟩
    · rw [hret] at hstat
      exact absurd rfl hstat
  · have howner := h.agrees.owner_eq _ (chunkIdx_lt req.addr) hbit
    -- the only case that can go wrong: a chunk is freed, by whomever
    constructor
    · intro hserves _ pid rw' hpid
      obtain ⟨rw'', hreq⟩ := (hserves.free_iff (opcode_eq_free hop)).mp (by rw [hret])
      exact congrArg Prod.fst (Option.some.inj (hpid.symm.trans hreq))
    · intro hentitled
      have hpid := hentitled (opcode_eq_free hop) _ _ howner
      refine ⟨fun hop' ↦ absurd hop' hop, fun _ ↦ ?_, fun hstat ↦ ?_⟩
      · rw [hret, howner, hpid]
        exact iff_of_true rfl ⟨_, rfl⟩
      · rw [hret] at hstat
        exact absurd rfl hstat
  · have hnone := h.owner_none _ (chunkIdx_lt req.addr) hbit
    refine iff_of_true ⟨fun hop' ↦ absurd hop' hop, fun _ ↦ ?_, fun _ ↦ by rw [hret]⟩
      fun _ pid rw' hpid ↦ ?_
    · rw [hret, hnone]
      exact iff_of_false hne fun ⟨_, hsome⟩ ↦ Option.some_ne_none _ hsome.symm
    · exact absurd (hnone.symm.trans hpid) (Option.some_ne_none _).symm

end ChunkLog

/-- **The allocator and the protection table agree** in every reachable state, and the requests of a
run are all served as they should be if and only if no process frees a chunk that has been given to
another one. -/
theorem chunk_serves_iff (reqs : List AllocIf) :
    (run ChunkLog.step .init reqs).Agrees
      ∧ (Guarded ChunkLog.step ChunkLog.Serves .init reqs
        ↔ Guarded ChunkLog.step ChunkLog.Entitled .init reqs) :=
  ⟨(run_invariant ChunkLog.inv_step ChunkLog.inv_init reqs).agrees,
    guarded_iff_of_invariant (fun l req h _ ↦ ChunkLog.inv_step l req h) ChunkLog.serves_iff
      ChunkLog.inv_init⟩

/-- A process allocates a chunk, and another one frees it. -/
def foreignFree : List AllocIf := [⟨CHUNK_ALLOC, 123, 1, 0⟩, ⟨CHUNK_FREE, 200, 1, 0⟩]

/-- The other process succeeds. -/
theorem not_serves_foreignFree : ¬Guarded ChunkLog.step ChunkLog.Serves .init foreignFree := by
  rintro ⟨-, hserves, -⟩
  obtain ⟨_, howner⟩ := (hserves.free_iff rfl).mp (by decide +kernel)
  have howner' : (ChunkLog.init.step ⟨CHUNK_ALLOC, 123, 1, 0⟩).owner 0 = some (123, 1) := by
    decide +kernel
  have hne : ¬(123 : BitVec 8) = 200 := by decide
  exact hne (congrArg Prod.fst (Option.some.inj (howner'.symm.trans howner)))

end FpgaOs.Chunk
