import FpgaOs.Alloc.Chunk
import Mathlib.Algebra.Group.Nat.Defs

/-!
# The permission check of a burst

`check_read` and `check_write` let a burst pass if the chunks from that of its first byte to that of
its last byte are allowed. But the last byte is computed from `in_len << in_size`, which is one beat
less than the burst has. So a chunk that only the last beat touches is not looked at, and if there
is only one beat then the "last byte" is the one before the first. And the loop ends with the table,
so nothing is said about bytes that lie behind the address space.

The check is right exactly if none of this matters for the entries of the table.
-/

namespace FpgaOs.Chunk

/-! ## The code -/

/-- `struct sysmmu_indata`. -/
structure SysmmuIndata where
  inAddr : BitVec 32
  pid : BitVec 8
  inLen : BitVec 8
  inSize : BitVec 3

/-- `struct sysmmu_outdata`. -/
structure SysmmuOutdata where
  outAddr : BitVec 32
  drop : BitVec 1
  deriving DecidableEq

namespace SysmmuIndata

variable (req : SysmmuIndata)

/-- `size`, in 16 bits. -/
def size : BitVec 16 := req.inLen.setWidth 16 <<< req.inSize.setWidth 16

/-- `start_idx`. -/
def startIdx : BitVec 4 := chunkIdx req.inAddr

/-- `end_idx`. `in.in_addr + size - 1` has a sign and is wide enough. -/
def endIdx : BitVec 4 :=
  BitVec.ofInt 4 (((req.inAddr.toNat : ℤ) + req.size.toNat - 1) >>> CHUNK_SHIFT)

end SysmmuIndata

/-- `TABLE_LOOP` over the indices, with the value of `out.drop` at its end. -/
def tableLoop (bad : ℕ → Bool) (startIdx endIdx : BitVec 4) : List ℕ → BitVec 1
  | [] => 0
  | i :: is =>
    if i < startIdx.toNat || i > endIdx.toNat then tableLoop bad startIdx endIdx is
    else if bad i then 1
    else tableLoop bad startIdx endIdx is

/-- The common part of the two checks. -/
def check (bad : SysmmuEntry → Bool) (table : SysmmuTable) (req : SysmmuIndata) : SysmmuOutdata :=
  ⟨req.inAddr,
    tableLoop (fun i ↦ bad (table i)) req.startIdx req.endIdx (List.range TABLE_SIZE)⟩

/-- The condition under which `check_read` drops. -/
def badRead (pid : BitVec 8) (entry : SysmmuEntry) : Bool := entry.valid != 1 || entry.pid != pid

/-- The condition under which `check_write` drops. -/
def badWrite (pid : BitVec 8) (entry : SysmmuEntry) : Bool :=
  entry.valid != 1 || entry.pid != pid || entry.rw != 1

/-- `check_read`, without `IGNORE_PERM_CHECK`. -/
def checkRead (table : SysmmuTable) (rdIn : Option SysmmuIndata) : Option SysmmuOutdata :=
  rdIn.map fun req ↦ check (badRead req.pid) table req

/-- `check_write`, without `IGNORE_PERM_CHECK`. -/
def checkWrite (table : SysmmuTable) (wrIn : Option SysmmuIndata) : Option SysmmuOutdata :=
  wrIn.map fun req ↦ check (badWrite req.pid) table req

/-! ## What is expected -/

/-- The number of bytes in a chunk. -/
abbrev CHUNK_SIZE : ℕ := 2 ^ CHUNK_SHIFT

/-- A process may read the chunk of an entry. -/
structure MayRead (pid : BitVec 8) (entry : SysmmuEntry) : Prop where
  valid : entry.valid = 1
  pid : entry.pid = pid

/-- A process may write the chunk of an entry. -/
structure MayWrite (pid : BitVec 8) (entry : SysmmuEntry) : Prop extends MayRead pid entry where
  rw : entry.rw = 1

section

variable (may : SysmmuEntry → Prop) (table : SysmmuTable) (req : SysmmuIndata)

/-- A chunk lies inside the address space and is allowed. -/
def Allowed (c : ℕ) : Prop := c < TABLE_SIZE ∧ may (table c)

/-- The first address behind a burst of `in_len + 1` beats. -/
def SysmmuIndata.behind : ℕ := req.inAddr.toNat + (req.inLen.toNat + 1) * 2 ^ req.inSize.toNat

/-- The chunk of every byte of the burst is allowed. -/
def Permitted : Prop :=
  ∀ b, req.inAddr.toNat ≤ b → b < req.behind → Allowed may table (b / CHUNK_SIZE)

/-- The chunk in which the burst starts. -/
def SysmmuIndata.first : ℕ := req.inAddr.toNat / CHUNK_SIZE

/-- The burst without its last beat ends in this chunk. -/
def SysmmuIndata.seen : ℕ :=
  (req.inAddr.toNat + req.inLen.toNat * 2 ^ req.inSize.toNat - 1) / CHUNK_SIZE

/-- The condition. A single beat at the start of a chunk is looked at in no chunk, or in all of them
if it starts at zero. And if the burst goes on into the next chunk, then the first chunk is not
allowed, or the next one is, or it is looked at: it is in the table, and more than the last beat
goes there. -/
structure Covered : Prop where
  zero : req.inLen = 0 → req.inAddr = 0 → Allowed may table 0 →
    ∀ c < TABLE_SIZE, Allowed may table c
  start : req.inLen = 0 → req.inAddr ≠ 0 → CHUNK_SIZE ∣ req.inAddr.toNat →
    Allowed may table req.first
  next : (req.behind - 1) / CHUNK_SIZE = req.first + 1 →
    req.seen = req.first ∨ req.first + 1 = TABLE_SIZE →
    Allowed may table req.first → Allowed may table (req.first + 1)

end

/-! ## The code -/

variable {may : SysmmuEntry → Prop} {table : SysmmuTable} {req : SysmmuIndata}

theorem tableLoop_eq_zero_iff {bad : ℕ → Bool} {startIdx endIdx : BitVec 4} {is : List ℕ} :
    tableLoop bad startIdx endIdx is = 0
      ↔ ∀ i ∈ is, startIdx.toNat ≤ i → i ≤ endIdx.toNat → bad i = false := by
  induction is with
  | nil => simp [tableLoop]
  | cons i is ih =>
    rw [tableLoop, List.forall_mem_cons]
    by_cases hout : (i < startIdx.toNat || i > endIdx.toNat) = true
    · rw [if_pos hout, ih]
      simp only [Bool.or_eq_true, decide_eq_true_eq] at hout
      exact ⟨fun h ↦ ⟨fun _ _ ↦ by omega, h⟩, And.right⟩
    · rw [if_neg hout]
      simp only [Bool.or_eq_true, decide_eq_true_eq, not_or, not_lt] at hout
      cases hbad : bad i with
      | false =>
        rw [if_neg Bool.false_ne_true, ih]
        exact ⟨fun h ↦ ⟨fun _ _ ↦ rfl, h⟩, And.right⟩
      | true =>
        rw [if_pos rfl]
        refine iff_of_false (by decide) fun h ↦ ?_
        exact Bool.noConfusion (h.1 hout.1 hout.2)

theorem CHUNK_SIZE_eq : CHUNK_SIZE = 536870912 := rfl

theorem beat_bounds (req : SysmmuIndata) :
    0 < 2 ^ req.inSize.toNat ∧ 2 ^ req.inSize.toNat ≤ 128
      ∧ req.inLen.toNat * 2 ^ req.inSize.toNat ≤ 255 * 128 := by
  have hlen := req.inLen.isLt
  have hsize := req.inSize.isLt
  have hpow : 2 ^ req.inSize.toNat ≤ 2 ^ 7 := Nat.pow_le_pow_right (by decide) (by omega)
  exact ⟨Nat.two_pow_pos _, hpow, Nat.mul_le_mul (by omega) hpow⟩

theorem toNat_size (req : SysmmuIndata) :
    req.size.toNat = req.inLen.toNat * 2 ^ req.inSize.toNat := by
  have hlen : req.inLen.toNat % 2 ^ 16 = req.inLen.toNat :=
    Nat.mod_eq_of_lt (req.inLen.isLt.trans (by decide))
  have hsize : req.inSize.toNat % 2 ^ 16 = req.inSize.toNat :=
    Nat.mod_eq_of_lt (req.inSize.isLt.trans (by decide))
  have hle := (beat_bounds req).2.2
  rw [SysmmuIndata.size, BitVec.shiftLeft_eq', BitVec.toNat_shiftLeft, BitVec.toNat_setWidth,
    BitVec.toNat_setWidth, hlen, hsize, Nat.shiftLeft_eq]
  exact Nat.mod_eq_of_lt (by omega)

theorem first_lt (req : SysmmuIndata) : req.first < TABLE_SIZE :=
  (Nat.div_lt_iff_lt_mul (by decide)).mpr req.inAddr.isLt

theorem toNat_startIdx (req : SysmmuIndata) : req.startIdx.toNat = req.first := by
  rw [SysmmuIndata.startIdx, chunkIdx, BitVec.toNat_setWidth, BitVec.toNat_ushiftRight,
    Nat.shiftRight_eq_div_pow]
  exact Nat.mod_eq_of_lt ((first_lt req).trans (by decide))

/-- Unless the burst is a single beat at zero, the last index is that of the chunk in which the
burst ends without its last beat. -/
theorem toNat_endIdx (h : ¬(req.inLen = 0 ∧ req.inAddr = 0)) : req.endIdx.toNat = req.seen := by
  have hlt := req.inAddr.isLt
  obtain ⟨hpos, -, hle⟩ := beat_bounds req
  have hone : 1 ≤ req.inAddr.toNat + req.inLen.toNat * 2 ^ req.inSize.toNat := by
    by_contra hzero
    have haddr : req.inAddr.toNat = 0 := by omega
    have hmul : req.inLen.toNat * 2 ^ req.inSize.toNat = 0 := by omega
    have hlen := (Nat.mul_eq_zero.mp hmul).resolve_right hpos.ne'
    exact h ⟨BitVec.eq_of_toNat_eq hlen, BitVec.eq_of_toNat_eq haddr⟩
  have hcast : ((req.inAddr.toNat : ℤ) + req.size.toNat - 1)
      = (req.inAddr.toNat + req.inLen.toNat * 2 ^ req.inSize.toNat - 1 : ℕ) := by
    rw [toNat_size]
    omega
  have hseen : req.seen < 2 ^ 4 := by
    rw [SysmmuIndata.seen, CHUNK_SIZE_eq]
    omega
  have hdiv : ((req.inAddr.toNat + req.inLen.toNat * 2 ^ req.inSize.toNat - 1 : ℕ) : ℤ)
      >>> CHUNK_SHIFT = (req.seen : ℤ) := by
    rw [Int.shiftRight_eq_div_pow]
    rfl
  rw [SysmmuIndata.endIdx, hcast, hdiv, BitVec.ofInt_natCast, BitVec.toNat_ofNat,
    Nat.mod_eq_of_lt hseen]

/-- A check looks at the chunks up to the last index. -/
theorem drop_eq_zero_iff {bad : SysmmuEntry → Bool} (hbad : ∀ e, bad e = false ↔ may e) :
    (check bad table req).drop = 0
      ↔ ∀ c < TABLE_SIZE, req.first ≤ c → c ≤ req.endIdx.toNat → Allowed may table c := by
  rw [check, tableLoop_eq_zero_iff, toNat_startIdx]
  refine forall_congr' fun c ↦ ?_
  rw [List.mem_range]
  refine forall_congr' fun hc ↦ forall_congr' fun _ ↦ forall_congr' fun _ ↦ ?_
  rw [hbad, Allowed, and_iff_right hc]

/-! ## The chunks of a burst -/

theorem last_cases (req : SysmmuIndata) : (req.behind - 1) / CHUNK_SIZE = req.first
    ∨ (req.behind - 1) / CHUNK_SIZE = req.first + 1 := by
  obtain ⟨hpos, hbeat, hle⟩ := beat_bounds req
  rw [SysmmuIndata.behind, SysmmuIndata.first, CHUNK_SIZE_eq, Nat.add_one_mul]
  omega

theorem permitted_iff : Permitted may table req ↔ Allowed may table req.first
    ∧ ((req.behind - 1) / CHUNK_SIZE = req.first + 1 → Allowed may table (req.first + 1)) := by
  obtain ⟨hpos, -, -⟩ := beat_bounds req
  have hlt : req.inAddr.toNat < req.behind := by
    rw [SysmmuIndata.behind, Nat.add_one_mul]
    omega
  constructor
  · intro h
    refine ⟨h _ le_rfl hlt, fun hnext ↦ ?_⟩
    rw [← hnext]
    exact h _ (by omega) (by omega)
  · rintro ⟨hfirst, hnext⟩ b hle hb
    have hlow : req.first ≤ b / CHUNK_SIZE := Nat.div_le_div_right hle
    have hhigh : b / CHUNK_SIZE ≤ (req.behind - 1) / CHUNK_SIZE :=
      Nat.div_le_div_right (by omega)
    obtain hlast | hlast := last_cases req
    · rwa [show b / CHUNK_SIZE = req.first by omega]
    · obtain hb | hb : b / CHUNK_SIZE = req.first ∨ b / CHUNK_SIZE = req.first + 1 := by omega
      · rwa [hb]
      · rw [hb]
        exact hnext hlast

theorem last_of_start (hlen : req.inLen = 0) (hstart : CHUNK_SIZE ∣ req.inAddr.toNat) :
    (req.behind - 1) / CHUNK_SIZE = req.first := by
  obtain ⟨hpos, hbeat, -⟩ := beat_bounds req
  have hzero : req.inLen.toNat = 0 := by rw [hlen]; rfl
  rw [SysmmuIndata.behind, SysmmuIndata.first, hzero, Nat.zero_add, Nat.one_mul]
  rw [CHUNK_SIZE_eq] at hstart ⊢
  omega

/-- Otherwise the burst without its last beat ends between the first chunk and the last. -/
theorem seen_bounds (h : req.inLen = 0 → ¬CHUNK_SIZE ∣ req.inAddr.toNat) :
    req.first ≤ req.seen ∧ req.seen ≤ (req.behind - 1) / CHUNK_SIZE := by
  obtain ⟨hpos, -, -⟩ := beat_bounds req
  refine ⟨?_, Nat.div_le_div_right ?_⟩
  · by_cases hlen : req.inLen = 0
    · have hzero : req.inLen.toNat = 0 := by rw [hlen]; rfl
      have hmod := h hlen
      rw [SysmmuIndata.seen, SysmmuIndata.first, hzero, Nat.zero_mul, Nat.add_zero]
      rw [CHUNK_SIZE_eq] at hmod ⊢
      omega
    · refine Nat.div_le_div_right ?_
      have hone : 1 ≤ req.inLen.toNat := by
        have : req.inLen.toNat ≠ 0 := fun h ↦ hlen (BitVec.eq_of_toNat_eq h)
        omega
      have := Nat.mul_le_mul hone hpos
      omega
  · rw [SysmmuIndata.behind, Nat.add_one_mul]
    omega

/-! ## When a check is right -/

section

variable {bad : SysmmuEntry → Bool} (hbad : ∀ e, bad e = false ↔ may e)

include hbad

/-- A single beat at zero: all chunks are looked at. -/
theorem right_iff_zero (hlen : req.inLen = 0) (haddr : req.inAddr = 0) :
    ((check bad table req).drop = 0 ↔ Permitted may table req) ↔ Covered may table req := by
  have hfirst : req.first = 0 := by rw [SysmmuIndata.first, haddr]; rfl
  have hsize : req.size.toNat = 0 := by rw [toNat_size, hlen]; exact Nat.zero_mul _
  have hend : req.endIdx.toNat = 15 := by rw [SysmmuIndata.endIdx, hsize, haddr]; decide
  have hlast := last_of_start hlen (by rw [haddr]; exact ⟨0, rfl⟩)
  rw [hfirst] at hlast
  have hdrop : (check bad table req).drop = 0 ↔ ∀ c < TABLE_SIZE, Allowed may table c := by
    rw [drop_eq_zero_iff hbad, hfirst, hend]
    exact ⟨fun h c hc ↦ h c hc (Nat.zero_le _) (hc.trans (by decide)).le, fun h c hc _ _ ↦ h c hc⟩
  have hpermitted : Permitted may table req ↔ Allowed may table 0 := by
    rw [permitted_iff, hlast, hfirst]
    exact and_iff_left fun h ↦ absurd h (by decide)
  rw [hdrop, hpermitted]
  constructor
  · intro h
    refine ⟨fun _ _ ↦ h.mpr, fun _ hne ↦ absurd haddr hne, fun hnext ↦ ?_⟩
    rw [hlast, hfirst] at hnext
    contradiction
  · exact fun h ↦ ⟨fun hall ↦ hall 0 (by decide), h.zero hlen haddr⟩

/-- A single beat at the start of another chunk: no chunk is looked at. -/
theorem right_iff_start (hlen : req.inLen = 0) (haddr : req.inAddr ≠ 0)
    (hstart : CHUNK_SIZE ∣ req.inAddr.toNat) :
    ((check bad table req).drop = 0 ↔ Permitted may table req) ↔ Covered may table req := by
  have hlast := last_of_start hlen hstart
  have hseen : req.seen < req.first := by
    have hpos : req.inAddr.toNat ≠ 0 := fun h ↦ haddr (BitVec.eq_of_toNat_eq h)
    have hzero : req.inLen.toNat = 0 := by rw [hlen]; rfl
    rw [SysmmuIndata.seen, SysmmuIndata.first, hzero, Nat.zero_mul, Nat.add_zero]
    rw [CHUNK_SIZE_eq] at hstart ⊢
    omega
  have hdrop : (check bad table req).drop = 0 := by
    rw [drop_eq_zero_iff hbad, toNat_endIdx fun h ↦ haddr h.2]
    intro c _ hle hge
    omega
  have hpermitted : Permitted may table req ↔ Allowed may table req.first := by
    rw [permitted_iff, hlast]
    exact and_iff_left fun h ↦ absurd h (Nat.ne_of_lt (Nat.lt_succ_self _))
  rw [iff_true_left hdrop, hpermitted]
  constructor
  · intro h
    refine ⟨fun _ hzero ↦ absurd hzero haddr, fun _ _ _ ↦ h, fun hnext ↦ ?_⟩
    rw [hlast] at hnext
    omega
  · exact fun h ↦ h.start hlen haddr hstart

/-- Otherwise the first chunk is looked at, and the next one if more than the last beat goes there
and it is in the table. -/
theorem right_iff_seen (h : req.inLen = 0 → ¬CHUNK_SIZE ∣ req.inAddr.toNat) :
    ((check bad table req).drop = 0 ↔ Permitted may table req) ↔ Covered may table req := by
  obtain ⟨hlow, hhigh⟩ := seen_bounds h
  have hne : ¬(req.inLen = 0 ∧ req.inAddr = 0) := by
    rintro ⟨hlen, haddr⟩
    exact h hlen (by rw [haddr]; exact ⟨0, rfl⟩)
  have hfirst := first_lt req
  have hdrop : (check bad table req).drop = 0 ↔ Allowed may table req.first
      ∧ (req.seen = req.first + 1 → req.first + 1 < TABLE_SIZE →
        Allowed may table (req.first + 1)) := by
    rw [drop_eq_zero_iff hbad, toNat_endIdx hne]
    constructor
    · exact fun hall ↦ ⟨hall _ hfirst le_rfl hlow,
        fun hseen hlt ↦ hall _ hlt (Nat.le_succ _) hseen.ge⟩
    · rintro ⟨hallowed, hnext⟩ c hc hle hge
      have hlast := last_cases req
      obtain rfl | rfl : c = req.first ∨ c = req.first + 1 := by omega
      · exact hallowed
      · exact hnext (by omega) hc
  rw [hdrop, permitted_iff]
  constructor
  · intro hright
    refine ⟨fun hlen haddr ↦ absurd ⟨hlen, haddr⟩ hne,
      fun hlen _ hstart ↦ absurd hstart (h hlen), fun hlast hunseen hallowed ↦ ?_⟩
    refine (hright.mp ⟨hallowed, fun hseen hlt ↦ ?_⟩).2 hlast
    omega
  · intro hcovered
    refine and_congr_right fun hallowed ↦ ⟨fun hnext hlast ↦ ?_, fun hnext hseen _ ↦ ?_⟩
    · -- the next chunk is looked at unless only the last beat goes there or it has no entry
      by_cases hunseen : req.seen = req.first ∨ req.first + 1 = TABLE_SIZE
      · exact hcovered.next hlast hunseen hallowed
      · rw [not_or] at hunseen
        exact hnext (by omega) (by omega)
    · exact hnext (by have := last_cases req; omega)

theorem right_iff_covered :
    ((check bad table req).drop = 0 ↔ Permitted may table req) ↔ Covered may table req := by
  by_cases hsingle : req.inLen = 0 ∧ CHUNK_SIZE ∣ req.inAddr.toNat
  · by_cases haddr : req.inAddr = 0
    · exact right_iff_zero hbad hsingle.1 haddr
    · exact right_iff_start hbad hsingle.1 haddr hsingle.2
  · exact right_iff_seen hbad fun hlen hstart ↦ hsingle ⟨hlen, hstart⟩

end

theorem badRead_eq_false_iff {pid : BitVec 8} (e : SysmmuEntry) :
    badRead pid e = false ↔ MayRead pid e := by
  rw [badRead, Bool.or_eq_false_iff, bne_eq_false_iff_eq, bne_eq_false_iff_eq]
  exact ⟨fun h ↦ ⟨h.1, h.2⟩, fun h ↦ ⟨h.valid, h.pid⟩⟩

theorem badWrite_eq_false_iff {pid : BitVec 8} (e : SysmmuEntry) :
    badWrite pid e = false ↔ MayWrite pid e := by
  rw [badWrite, Bool.or_eq_false_iff, bne_eq_false_iff_eq]
  exact ⟨fun h ↦ ⟨(badRead_eq_false_iff e).mp h.1, h.2⟩,
    fun h ↦ ⟨(badRead_eq_false_iff e).mpr h.toMayRead, h.rw⟩⟩

/-- For every table and every request: each check lets the burst pass exactly if the process may
access all of its bytes, if and only if the condition holds for the entries that it may access. -/
theorem checks_right_iff (table : SysmmuTable) (req : SysmmuIndata) :
    ((checkRead table (some req) = some ⟨req.inAddr, 0⟩ ↔ Permitted (MayRead req.pid) table req)
      ↔ Covered (MayRead req.pid) table req)
    ∧ ((checkWrite table (some req) = some ⟨req.inAddr, 0⟩ ↔ Permitted (MayWrite req.pid) table req)
      ↔ Covered (MayWrite req.pid) table req) := by
  have hanswer (bad : SysmmuEntry → Bool) :
      some (check bad table req) = some ⟨req.inAddr, 0⟩ ↔ (check bad table req).drop = 0 := by
    rw [Option.some.injEq, SysmmuOutdata.mk.injEq]
    exact and_iff_right rfl
  rw [checkRead, checkWrite, Option.map_some, Option.map_some, hanswer, hanswer]
  exact ⟨right_iff_covered badRead_eq_false_iff, right_iff_covered badWrite_eq_false_iff⟩

/-- A single byte at the start of the second chunk. -/
def secondChunk : SysmmuIndata := ⟨0x20000000, 12, 0, 0⟩

/-- It may be read although no chunk has been given to anyone. -/
theorem not_right_secondChunk :
    ¬(checkRead (fun _ ↦ {}) (some secondChunk) = some ⟨secondChunk.inAddr, 0⟩
      ↔ Permitted (MayRead secondChunk.pid) (fun _ ↦ {}) secondChunk) := by
  intro h
  have hpermitted := h.mp (by decide) 0x20000000 (by decide) (by decide)
  exact absurd hpermitted.2.valid (by decide)

end FpgaOs.Chunk
