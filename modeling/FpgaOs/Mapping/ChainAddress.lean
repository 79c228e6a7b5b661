import FpgaOs.Mapping.Chains

/-!
# The addresses of chained buckets

An allocated bucket has a byte address. The commands to DRAM carry its index relative to the table,
the link in the bucket before it keeps 26 bits of that index, and the pipes to the data mover make a
byte address of an index again. The index is the shifted difference of two addresses, which has a
sign when the bucket lies below the table.

All byte addresses are taken modulo `2 ^ 32`, and 26 bits of the index decide about one of them, so
the sign and the bits that are cut off make no difference.
-/

namespace FpgaOs.Mapping

/-- `struct mem_cmd`. -/
structure MemCmd where
  address : BitVec 32
  length : BitVec 8

/-- `struct dm_cmd`, as far as the pipes fill it in. -/
structure DmCmd where
  btt : BitVec 23
  type : BitVec 1
  dsa : BitVec 6
  eof : BitVec 1
  drr : BitVec 1
  startAddress : BitVec 32
  rsvd : BitVec 4

namespace Env

/-- The command for the data mover that one for a bucket is turned into. -/
def cook (e : Env) (cmd : MemCmd) : DmCmd :=
  { btt := 64
    type := 1
    dsa := 0
    eof := 1
    drr := 0
    startAddress := e.startAddress cmd.address
    rsvd := 0 }

/-- The command part of `DRAM_rd_pipe`. -/
def dramRdPipe (e : Env) (cmd : MemCmd) : DmCmd := e.cook cmd

/-- The command part of `DRAM_wr_pipe`. -/
def dramWrPipe (e : Env) (cmd : MemCmd) : DmCmd := e.cook cmd

end Env

variable {e : Env}

/-- The low 26 bits of an index decide about its byte address. -/
theorem startAddress_setWidth (a : BitVec 32) :
    e.startAddress ((a.setWidth 26).setWidth 32) = e.startAddress a := by
  rw [Env.startAddress_inj]
  simp

/-- The index of a bucket leads back to its byte address, also when it lies below the table. -/
theorem startAddress_allocAddrTrans {a : BitVec 32}
    (h : (64 : ℤ) ∣ (a.toNat : ℤ) - e.base.toNat) :
    e.startAddress (PipelineInfo.allocAddrTrans e.base a) = a := by
  have hdvd : 64 ∣ (a - e.base).toNat := by
    have ha := a.isLt
    have hbase := e.base.isLt
    rw [BitVec.toNat_sub]
    omega
  have hindex := toNat_allocAddrTrans e.base a
  rw [← startAddress_setWidth, Env.startAddress, ← BitVec.eq_sub_iff_add_eq]
  apply BitVec.eq_of_toNat_eq
  rw [BitVec.toNat_mul, BitVec.toNat_setWidth, hindex, show (64 : BitVec 32).toNat = 64 from rfl]
  have hlt := (a - e.base).isLt
  omega

namespace PipelineInfo

variable {pi : PipelineInfo} {found : Bool} {addr : BitVec 32} {hb : Bucket}

/-- What has been recorded of a bucket for writing it back. -/
structure Recorded (e : Env) (pi : PipelineInfo) (addr : BitVec 32) (hb : Bucket) : Prop where
  hbDram_eq : pi.hbDram = hb
  address_eq : (e.dramWrPipe ⟨pi.hbDramAddr.setWidth 32, 1⟩).startAddress
    = (e.dramRdPipe ⟨addr, 1⟩).startAddress

/-- Nothing new has been recorded. -/
structure Kept (pi pi' : PipelineInfo) : Prop where
  hbDram_eq : pi'.hbDram = pi.hbDram
  hbDramAddr_eq : pi'.hbDramAddr = pi.hbDramAddr

theorem noteSlot_recorded (e : Env) (pi : PipelineInfo) (found : Bool) (addr : BitVec 32)
    (hb : Bucket) :
    Recorded e (pi.noteSlot found addr hb).1 addr hb ∨ Kept pi (pi.noteSlot found addr hb).1 := by
  rw [noteSlot]
  split_ifs
  · split
    · exact .inl ⟨rfl, startAddress_setWidth addr⟩
    · exact .inr ⟨rfl, rfl⟩
  · exact .inr ⟨rfl, rfl⟩

/-- A bucket that has been read is recorded with an address that leads back to it, or not at
all. -/
theorem readBucket_recorded (e : Env) (pi : PipelineInfo) (found : Bool) (addr : BitVec 32)
    (hb : Bucket) :
    Recorded e (pi.readBucket found addr hb).1 addr hb
      ∨ Kept pi (pi.readBucket found addr hb).1 := by
  have hnote := noteSlot_recorded e pi found addr hb
  rw [readBucket]
  cases hb.compare pi.input with
  | some i =>
    simp only [hitDram]
    split_ifs
    · exact .inr ⟨rfl, rfl⟩
    · exact .inl ⟨rfl, startAddress_setWidth addr⟩
  | none =>
    by_cases hch : hb.chained = true
    · simp only [hch, if_true]
      exact hnote
    · simp only [hch, missDram]
      by_cases hfound : (pi.noteSlot found addr hb).2 = true
      · simp only [hfound, if_true]
        rcases hnote with h | h
        · exact .inl ⟨h.hbDram_eq, h.address_eq⟩
        · exact .inr ⟨h.hbDram_eq, h.hbDramAddr_eq⟩
      · simp only [hfound]
        exact .inl ⟨rfl, startAddress_setWidth addr⟩

section Walk

variable {t : Tables} {pi' : PipelineInfo} {n : ℕ}

/-- What `hb_dram` has is what lies at the address to which it is written back. -/
def InPlace (e : Env) (t : Tables) (pi : PipelineInfo) : Prop :=
  t.readDram e (pi.hbDramAddr.setWidth 32) = pi.hbDram

theorem readDram_setWidth (t : Tables) (addr : BitVec 32) :
    t.readDram e ((addr.setWidth 26).setWidth 32) = t.readDram e addr := by
  rw [Tables.readDram, startAddress_setWidth, Tables.readDram]

theorem isSet_noteSlot (pi : PipelineInfo) (found : Bool) (addr : BitVec 32) (hb : Bucket) :
    (pi.noteSlot found addr hb).1.isSet = pi.isSet := by
  rw [noteSlot]
  split_ifs
  · split <;> rfl
  · rfl

/-- A bucket that has been noted is in place. -/
theorem inPlace_noteSlot (hpi : found = true → InPlace e t pi)
    (hfound : (pi.noteSlot found addr (t.readDram e addr)).2 = true) :
    InPlace e t (pi.noteSlot found addr (t.readDram e addr)).1 := by
  rw [noteSlot] at hfound ⊢
  split_ifs at hfound ⊢ with hset
  · cases hslot : (t.readDram e addr).findEmptySlotDram with
    | none =>
      rw [hslot] at hfound
      exact absurd hfound Bool.false_ne_true
    | some i => exact readDram_setWidth t addr
  · exact hpi hfound

/-- **A `SET` writes a bucket back to where it was read.** -/
theorem walk_inPlace (hset : pi.isSet = true) (hpi : found = true → InPlace e t pi)
    (h : pi.walk (t.readDram e) n found addr = some pi') : InPlace e t pi' := by
  induction n generalizing pi found addr with
  | zero => exact absurd h nofun
  | succ n ih =>
    have hget := isGet_eq_false hset
    rw [walk, readBucket] at h
    cases hcmp : (t.readDram e addr).compare pi.input with
    | some i =>
      simp only [hcmp, hitDram, denied, hget, Bool.false_and, Bool.false_eq_true, if_false,
        Option.some.injEq] at h
      rw [← h]
      exact readDram_setWidth t addr
    | none =>
      simp only [hcmp] at h
      have hnote (h : (pi.noteSlot found addr (t.readDram e addr)).2 = true) :
          InPlace e t (pi.noteSlot found addr (t.readDram e addr)).1 := inPlace_noteSlot hpi h
      by_cases hch : (t.readDram e addr).chained = true
      · simp only [hch, if_true] at h
        exact ih ((isSet_noteSlot pi found addr _).trans hset) hnote h
      · simp only [hch, missDram, Bool.false_eq_true, if_false, Option.some.injEq] at h
        rw [← h]
        by_cases hfound : (pi.noteSlot found addr (t.readDram e addr)).2 = true
        · simp only [InPlace, hfound, if_true]
          exact hnote hfound
        · simp only [InPlace, hfound]
          exact readDram_setWidth t addr

end Walk

/-- **The addresses of chained buckets.** An allocated bucket whose byte address is a multiple of 64
away from the table is written at that address, and a request that follows the link of the bucket
before it reads from there. A bucket that a walk has recorded for writing it back is written to the
address from which it was read. -/
theorem chain_address (e : Env) (pi : PipelineInfo) (ret : BuddyAllocRet) (hstat : ret.stat = 0)
    (hdvd : (64 : ℤ) ∣ (ret.addr.toNat : ℤ) - e.base.toNat) :
    (∃ address, (pi.fillRecvRet e.base ret).2 = some address
        ∧ (e.dramWrPipe ⟨address, 1⟩).startAddress = ret.addr)
      ∧ (∀ (later : PipelineInfo) (found : Bool) (addr : BitVec 32),
        let hb := (pi.fillRecvRet e.base ret).1.hbDram
        hb.compare later.input = none →
          ∃ found' address, (later.readBucket found addr hb).2 = some (found', address)
            ∧ address = hb.chainAddr.setWidth 32
            ∧ (e.dramRdPipe ⟨address, 1⟩).startAddress = ret.addr)
      ∧ (∀ (q : PipelineInfo) (found : Bool) (addr : BitVec 32) (hb : Bucket),
        Recorded e (q.readBucket found addr hb).1 addr hb
          ∨ Kept q (q.readBucket found addr hb).1)
      ∧ ∀ (t : Tables) (q q' : PipelineInfo) (n : ℕ) (addr : BitVec 32), q.isSet = true →
        q.walk (t.readDram e) n false addr = some q' → InPlace e t q' := by
  have hrecv : pi.fillRecvRet e.base ret
      = ({ pi with hbDram := pi.hbDram.link ((allocAddrTrans e.base ret.addr).setWidth 26) },
        some (allocAddrTrans e.base ret.addr)) := by
    rw [fillRecvRet, if_pos hstat]
  refine ⟨⟨_, congrArg Prod.snd hrecv, startAddress_allocAddrTrans hdvd⟩, ?_,
    readBucket_recorded e, fun t q q' n addr hset hwalk ↦
      walk_inPlace hset (fun h ↦ absurd h Bool.false_ne_true) hwalk⟩
  intro later found addr
  rw [hrecv]
  intro hb hcmp
  refine ⟨(later.noteSlot found addr hb).2, hb.chainAddr.setWidth 32, ?_, rfl, ?_⟩
  · rw [readBucket, hcmp]
    simp only [hb, Bucket.chained_link, if_true]
  · change e.startAddress (hb.chainAddr.setWidth 32) = ret.addr
    simp only [hb, Bucket.chainAddr_link]
    rw [startAddress_setWidth, startAddress_allocAddrTrans hdvd]

/-- A bucket 64 bytes below the table. -/
theorem chain_address_below :
    (∃ address, (fillRecvRet 0x100000 {} ⟨0, 0xfffc0⟩).2 = some address
        ∧ ((⟨0x100000, fun _ ↦ ⟨0, 0⟩⟩ : Env).dramWrPipe ⟨address, 1⟩).startAddress = 0xfffc0) :=
  (chain_address ⟨0x100000, fun _ ↦ ⟨0, 0⟩⟩ {} ⟨0, 0xfffc0⟩ rfl (by decide)).1

end PipelineInfo

end FpgaOs.Mapping
