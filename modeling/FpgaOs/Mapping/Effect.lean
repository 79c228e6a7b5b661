import FpgaOs.Mapping.Walk
import Mathlib.Data.Fintype.Card
import Mathlib.Data.Fintype.EquivFin

/-!
# What one request does

`Tables.serve` puts a request through six stages. Seen from outside it does one of few things, which
are collected here for a request whose chain is known: a `SET` writes its mapping to a slot of the
BRAM bucket and to the place that the search through the chain finds, with a new bucket if there is
none; a `GET` is answered from the BRAM bucket or from the chain, and may be copied to BRAM.

Nothing is assumed about keys: what follows for key 0, which an unused slot also shows, is left to
those who use the results.
-/

namespace FpgaOs.Mapping

open Linked PipelineInfo

/-! ## Requests -/

namespace MappingRequest

/-- A read-`GET` or a write-`GET`. -/
def isGet (r : MappingRequest) : Bool :=
  r.opcode == mappingRequestRead || r.opcode == mappingRequestWrite

def isSet (r : MappingRequest) : Bool :=
  r.opcode == mappingSet ||| mappingPermissionR || r.opcode == mappingSet ||| mappingPermissionRW

/-- A `GET` for writing, or a `SET` that permits it. -/
def rw (r : MappingRequest) : Bool :=
  r.opcode == mappingRequestWrite || r.opcode == mappingSet ||| mappingPermissionRW

/-- The bucket of the BRAM table. -/
def index (r : MappingRequest) : BitVec 6 := r.address.setWidth 6

end MappingRequest

/-- The first bucket of the chain of a key. -/
def root (k : BitVec 32) : BitVec 26 := (k.setWidth 10).setWidth 26

/-- The request as `compare_bram` receives it. -/
def entry (c : Channel) (r : MappingRequest) : PipelineInfo := (remux c r).computeHash

section Entry

variable (c : Channel) (r : MappingRequest)

/-- The internal opcodes, checked one by one. -/
theorem forgeOpcode_spec : ∀ o : BitVec 8,
    ((forgeOpcode o).setWidth 2 == piOpcodeGet.setWidth 2)
        = (o == mappingRequestRead || o == mappingRequestWrite)
      ∧ ((forgeOpcode o).setWidth 2 == piOpcodeSet.setWidth 2)
        = (o == mappingSet ||| mappingPermissionR || o == mappingSet ||| mappingPermissionRW)
      ∧ (forgeOpcode o).getLsbD 7
        = (o == mappingRequestWrite || o == mappingSet ||| mappingPermissionRW) := by
  decide +kernel

@[simp] theorem entry_isGet : (entry c r).isGet = r.isGet := (forgeOpcode_spec r.opcode).1

@[simp] theorem entry_isSet : (entry c r).isSet = r.isSet := (forgeOpcode_spec r.opcode).2.1

@[simp] theorem entry_rw : (entry c r).rw = r.rw := (forgeOpcode_spec r.opcode).2.2

@[simp] theorem entry_input : (entry c r).input = r.address := rfl

@[simp] theorem entry_length : (entry c r).length = r.length := rfl

@[simp] theorem entry_hash : (entry c r).hash = r.address := rfl

@[simp] theorem entry_slotDram : (entry c r).slotDram = some 0 := rfl

@[simp] theorem entry_hbDram : (entry c r).hbDram = 0 := rfl

end Entry

/-- A mapping is stored in a slot of a bucket of the DRAM table. -/
def Bucket.put (hb : Bucket) (i : Slot) (k v : BitVec 32) (p : Bool) : Bucket :=
  (hb.take i).replace i k v p

section Put

variable (hb : Bucket) (i j : Slot) (k v : BitVec 32) (p : Bool)

theorem Bucket.key_put : (hb.put i k v p).key j = if j = i then k else hb.key j := by
  rw [put, key_replace, key_take]

theorem Bucket.val_put : (hb.put i k v p).val j = if j = i then v else hb.val j := by
  rw [put, val_replace, val_take]

theorem Bucket.perm_put : (hb.put i k v p).perm j = if j = i then p else hb.perm j := by
  rw [put, perm_replace, perm_take]

theorem Bucket.used_put : (hb.put i k v p).used j = if j = i then true else hb.used j := by
  rw [put, used_replace, used_take]

@[simp] theorem Bucket.chained_put : (hb.put i k v p).chained = hb.chained := by
  rw [put, chained_replace, chained_take]

@[simp] theorem Bucket.chainAddr_put : (hb.put i k v p).chainAddr = hb.chainAddr := by
  rw [put, chainAddr_replace, chainAddr_take]

end Put

/-! ## Fields that the stages keep -/

namespace PipelineInfo

variable (pi : PipelineInfo) (m : Store) (l : List (BitVec 26))

/-- What a request is, as opposed to what the stages have found out about it. -/
structure Same (pi pi' : PipelineInfo) : Prop where
  input : pi'.input = pi.input
  length : pi'.length = pi.length
  opcode : pi'.opcode = pi.opcode
  channel : pi'.channel = pi.channel
  hash : pi'.hash = pi.hash

variable {pi m l} {pi' pi'' : PipelineInfo}

theorem Same.trans (h : pi.Same pi') (h' : pi'.Same pi'') : pi.Same pi'' :=
  ⟨h'.input.trans h.input, h'.length.trans h.length, h'.opcode.trans h.opcode,
    h'.channel.trans h.channel, h'.hash.trans h.hash⟩

theorem Same.isGet (h : pi.Same pi') : pi'.isGet = pi.isGet := by
    rw [PipelineInfo.isGet, h.opcode]; rfl

theorem Same.isSet (h : pi.Same pi') : pi'.isSet = pi.isSet := by
    rw [PipelineInfo.isSet, h.opcode]; rfl

theorem Same.rw (h : pi.Same pi') : pi'.rw = pi.rw := by
  simp only [PipelineInfo.rw, h.opcode]

theorem same_compareBram (pi : PipelineInfo) (hb : Bucket) : pi.Same (pi.compareBram hb) := by
  rw [compareBram]
  split
  · split
    · exact ⟨rfl, rfl, rfl, rfl, rfl⟩
    · exact ⟨rfl, rfl, rfl, rfl, rfl⟩
  · exact ⟨rfl, rfl, rfl, rfl, rfl⟩

theorem same_hitDram (pi : PipelineInfo) (addr : BitVec 32) (hb : Bucket) (i : Slot) :
    pi.Same (pi.hitDram addr hb i) := by
  rw [hitDram]
  split
  · exact ⟨rfl, rfl, rfl, rfl, rfl⟩
  · exact ⟨rfl, rfl, rfl, rfl, rfl⟩

theorem same_walked (pi : PipelineInfo) (m : Store) (l : List (BitVec 26)) :
    pi.Same (pi.walked m l) := by
  rw [walked]
  split
  · exact same_hitDram _ _ _ _
  · exact ⟨rfl, rfl, rfl, rfl, rfl⟩

/-! ## What the stages find out -/

/-- `compare_bram` for a `SET`: the permission bit is not looked at. -/
theorem compareBram_of_isSet (hset : pi.isSet = true) (hb : Bucket) :
    ∃ out st, pi.compareBram hb =
      { pi with
        hbBram := hb
        piState := if (hb.compare pi.input).isSome then piStateHitBram else piStateMissBram
        slot := (hb.compare pi.input).getD 0
        outputStatus := st
        output := out } := by
  have hget := isGet_eq_false hset
  rw [compareBram]
  cases hcmp : hb.compare pi.input with
  | none => exact ⟨_, _, rfl⟩
  | some i =>
    have hden : pi.denied hb i = false := by rw [denied, hget, Bool.false_and]
    simp only [hden, Bool.false_eq_true, if_false]
    exact ⟨_, _, rfl⟩

/-- The walk for a `SET`. -/
theorem walked_of_isSet (hset : pi.isSet = true) :
    ∃ out st bits, (bits = piStateHitDram ∨ bits = piStateMissDram) ∧ pi.walked m l =
      { pi with
        slotDram := (place m l pi.input).2
        hbDram := m (place m l pi.input).1
        hbDramAddr := (place m l pi.input).1
        piState := pi.piState ||| bits
        outputStatus := st
        output := out } := by
  have hget := isGet_eq_false hset
  rw [walked]
  cases hkey : findKey m l pi.input with
  | none =>
    refine ⟨0, piOutputFailure, piStateMissDram, .inr rfl, ?_⟩
    simp only [hset, if_true]
  | some x =>
    have hplace : place m l pi.input = (x.1, some x.2) := by rw [place, hkey]
    have hden : pi.denied (m x.1) x.2 = false := by rw [denied, hget, Bool.false_and]
    refine ⟨(m x.1).val x.2, piOutputSucceed, piStateHitDram, .inl rfl, ?_⟩
    rw [hplace]
    simp [hitDram, hden]

/-! ## What `fill_S2` does with a request -/

section FillIdle

variable {i : Slot}

theorem fillIdle_slot (hset : pi.isSet = true) (hslot : pi.slotDram = some i) :
    pi.fillIdle =
      ({ pi with
          hbBram := pi.setBram
          hbDram := pi.hbDram.put i pi.input pi.length pi.rw },
        some pi.setBram, .writeData) := by
  simp only [fillIdle, hset, if_true, hslot]
  rfl

theorem fillIdle_append (hset : pi.isSet = true) (hslot : pi.slotDram = none) :
    pi.fillIdle = ({ pi with hbBram := pi.setBram }, some pi.setBram, .recvRet) := by
  simp only [fillIdle, hset, if_true, hslot]

theorem fillIdle_promote (hget : pi.isGet = true) (hset : pi.isSet = false)
    (hmiss : pi.inState piStateMissBram = true) (hhit : pi.inState piStateHitDram = true) :
    pi.fillIdle = ({ pi with hbBram := pi.promoteBram }, some pi.promoteBram, .idle) := by
  simp [fillIdle, hset, hget, hmiss, hhit]

theorem fillIdle_pass (hset : pi.isSet = false)
    (h : (pi.isGet && (pi.inState piStateMissBram && pi.inState piStateHitDram)) = false) :
    pi.fillIdle = (pi, none, .idle) := by
  simp only [fillIdle, hset, Bool.false_eq_true, if_false]
  by_cases hget : pi.isGet = true
  · rw [hget, Bool.true_and] at h
    simp [h]
  · simp [hget]

end FillIdle

end PipelineInfo

/-! ## `SET` -/

/-- A mapping is stored in a bucket of the BRAM table. -/
def Bucket.cache (hb : Bucket) (k v : BitVec 32) (p : Bool) : Bucket :=
  match hb.compare k with
  | some i => hb.replace i k v p
  | none => (hb.take hb.findEmptySlot).replace hb.findEmptySlot k v p

/-- The request after `compare_bram` and `fill_S1`, when its chain is `l`. -/
def searched (t : Tables) (e : Env) (l : List (BitVec 26)) (c : Channel) (r : MappingRequest) :
    PipelineInfo :=
  let pi := (entry c r).compareBram (t.bram r.index)
  if pi.skipsDram then pi else pi.walked (t.bucket e) l

namespace Tables

variable {e : Env} {t : Tables} {l : List (BitVec 26)} {c : Channel} {r : MappingRequest}

theorem root_setWidth (k : BitVec 32) : (root k).setWidth 32 = (k.setWidth 10).setWidth 32 := by
  apply BitVec.eq_of_toNat_eq
  simp only [root, BitVec.toNat_setWidth]
  omega

/-- A chain has no more buckets than there are addresses. -/
theorem length_le_nrBuckets (hnodup : l.Nodup) : l.length ≤ nrBuckets := by
  have hmap : (l.map BitVec.toFin).Nodup := hnodup.map fun _ _ ↦ BitVec.eq_of_toFin_eq
  have hcard := hmap.length_le_card
  rwa [List.length_map, Fintype.card_fin] at hcard

theorem same_searched (t : Tables) (e : Env) (l : List (BitVec 26)) (c : Channel)
    (r : MappingRequest) :
    (entry c r).Same (searched t e l c r) := by
  rw [searched]
  split
  · exact same_compareBram _ _
  · exact (same_compareBram _ _).trans (same_walked _ _ _)

/-- `fill_S1` lets go of the request after at most as many buckets as the chain has. -/
theorem fillS1_eq (hl : Chain (next (t.bucket e)) (root r.address) l) {n : ℕ} (hn : l.length ≤ n) :
    ((entry c r).compareBram (t.bram r.index)).fillS1 (t.readDram e) n = some
    (searched t e l c r) := by
  have hindex : ((entry c r).compareBram (t.bram r.index)).dramIndex
    = (root r.address).setWidth 32 := by
    rw [dramIndex, (same_compareBram _ _).hash, entry_hash, root_setWidth]
  simp only [fillS1, searched]
  split
  · rfl
  · rw [hindex]
    exact walk_eq (readDram_eq e t) hl hn

theorem serve_eq (hl : Chain (next (t.bucket e)) (root r.address) l) (hnodup : l.Nodup) :
    t.serve e c r =
      ((t.fillS2 e (searched t e l c r)).1, some (t.fillS2 e (searched t e l c r)).2.demux) := by
  have hfill := fillS1_eq (c := c) hl (length_le_nrBuckets hnodup)
  simp only [serve]
  rw [show (remux c r).computeHash = entry c r from rfl,
    show (entry c r).bramIndex = r.index from rfl, hfill]

variable (hset : r.isSet = true)

include hset in
theorem searched_of_isSet :
    ∃ out st bits, (bits = piStateHitDram ∨ bits = piStateMissDram) ∧ searched t e l c r =
      { entry c r with
        hbBram := t.bram r.index
        slot := ((t.bram r.index).compare r.address).getD 0
        slotDram := (place (t.bucket e) l r.address).2
        hbDram := t.bucket e (place (t.bucket e) l r.address).1
        hbDramAddr := (place (t.bucket e) l r.address).1
        piState := (if ((t.bram r.index).compare r.address).isSome then piStateHitBram
          else piStateMissBram) ||| bits
        outputStatus := st
        output := out } := by
  have hset' : (entry c r).isSet = true := by rw [entry_isSet, hset]
  have hset'' : ((entry c r).compareBram (t.bram r.index)).isSet = true := by
    rw [(same_compareBram _ _).isSet, hset']
  have hskip : ((entry c r).compareBram (t.bram r.index)).skipsDram = false := by
    rw [skipsDram, isGet_eq_false hset'', Bool.false_and]
  obtain ⟨out, st, bits, hbits, hwalked⟩ := walked_of_isSet (m := t.bucket e) (l := l) hset''
  obtain ⟨out', st', hcmp⟩ := compareBram_of_isSet hset' (t.bram r.index)
  refine ⟨out, st, bits, hbits, ?_⟩
  simp only [searched, hskip, Bool.false_eq_true, if_false]
  rw [hwalked, hcmp]
  rfl

include hset in
theorem setBram_searched :
    (searched t e l c r).setBram = (t.bram r.index).cache r.address r.length r.rw := by
  obtain ⟨out, st, bits, hbits, heq⟩ := searched_of_isSet (t := t) (e := e) (l := l) (c := c) hset
  have hrw := (same_searched t e l c r).rw
  rw [setBram, hrw, Bucket.cache, inState, heq]
  cases hcmp : (t.bram r.index).compare r.address with
  | none =>
    have hstate : (piStateMissBram ||| bits) &&& piStateHitBram ≠ piStateHitBram := by
      rcases hbits with rfl | rfl <;> decide
    simp [hstate]
  | some i =>
    have hstate : (piStateHitBram ||| bits) &&& piStateHitBram = piStateHitBram := by
      rcases hbits with rfl | rfl <;> decide
    simp [hstate]

include hset in
theorem target_searched :
    (searched t e l c r).slotDram = (place (t.bucket e) l r.address).2
      ∧ (searched t e l c r).hbDramAddr = (place (t.bucket e) l r.address).1
      ∧ (searched t e l c r).hbDram = t.bucket e (place (t.bucket e) l r.address).1 := by
  obtain ⟨out, st, bits, hbits, heq⟩ := searched_of_isSet (t := t) (e := e) (l := l) (c := c) hset
  rw [heq]
  exact ⟨rfl, rfl, rfl⟩

/-- The tables after a `SET` has written to BRAM. -/
def cached (t : Tables) (r : MappingRequest) : Tables :=
  t.writeBram r.index ((t.bram r.index).cache r.address r.length r.rw)

theorem bramIndex_searched : (searched t e l c r).bramIndex = r.index := by
  rw [bramIndex, (same_searched t e l c r).hash, entry_hash, MappingRequest.index]

variable {a z : BitVec 26} {i : Slot}

section FillS2

variable {pi : PipelineInfo}

theorem fillS2_slot (h : pi.isSet = true) (hslot : pi.slotDram = some i) :
    t.fillS2 e pi =
      ((t.writeBram pi.bramIndex pi.setBram).writeDram e (pi.hbDramAddr.setWidth 32)
          (pi.hbDram.put i pi.input pi.length pi.rw),
        { pi with
          hbBram := pi.setBram
          hbDram := pi.hbDram.put i pi.input pi.length pi.rw
          outputStatus := piOutputSucceed }) := by
  simp only [fillS2, fillIdle_slot h hslot]
  rfl

theorem fillS2_refused (h : pi.isSet = true) (hslot : pi.slotDram = none)
    (hstat : (e.answers t.allocs).stat ≠ 0) :
    t.fillS2 e pi =
      ({ t.writeBram pi.bramIndex pi.setBram with allocs := t.allocs + 1 },
        { pi with hbBram := pi.setBram, outputStatus := piOutputFailure }) := by
  simp only [fillS2, fillIdle_append h hslot, fillRecvRet, hstat, if_false]

theorem fillS2_append (h : pi.isSet = true) (hslot : pi.slotDram = none)
    (hstat : (e.answers t.allocs).stat = 0) :
    t.fillS2 e pi =
      ((({ t.writeBram pi.bramIndex pi.setBram with allocs := t.allocs + 1 } : Tables).writeDram e
          (allocAddrTrans e.base (e.answers t.allocs).addr)
          (Bucket.put 0 0 pi.input pi.length pi.rw)).writeDram e (pi.hbDramAddr.setWidth 32)
          (pi.hbDram.link ((allocAddrTrans e.base (e.answers t.allocs).addr).setWidth 26)),
        { pi with
          hbBram := pi.setBram
          hbDram := pi.hbDram.link ((allocAddrTrans e.base (e.answers t.allocs).addr).setWidth 26)
          outputStatus := piOutputSucceed }) := by
  simp only [fillS2, fillIdle_append h hslot, fillRecvRet, hstat, if_true]
  rfl

theorem fillS2_promote (hget : pi.isGet = true) (h : pi.isSet = false)
    (hmiss : pi.inState piStateMissBram = true) (hhit : pi.inState piStateHitDram = true) :
    t.fillS2 e pi =
      (t.writeBram pi.bramIndex pi.promoteBram, { pi with hbBram := pi.promoteBram }) := by
  simp only [fillS2, fillIdle_promote hget h hmiss hhit]

theorem fillS2_pass (hset : pi.isSet = false)
    (h : (pi.isGet && (pi.inState piStateMissBram && pi.inState piStateHitDram)) = false) :
    t.fillS2 e pi = (t, pi) := by
  simp only [fillS2, fillIdle_pass hset h]

end FillS2

section Set

variable (hl : Chain (next (t.bucket e)) (root r.address) l) (hnodup : l.Nodup)

include hset hl hnodup

/-- **A `SET` whose place is a slot.** -/
theorem serve_set_slot (hplace : place (t.bucket e) l r.address = (a, some i)) :
    ∃ reply, reply.status = piOutputSucceed ∧ t.serve e c r =
      ((t.cached r).writeDram e (a.setWidth 32) ((t.bucket e a).put i r.address r.length r.rw),
        some reply) := by
  have hsame := same_searched t e l c r
  have hset' : (searched t e l c r).isSet = true := by rw [hsame.isSet, entry_isSet, hset]
  obtain ⟨hslot, haddr, hbucket⟩ := target_searched (t := t) (e := e) (l := l) (c := c) hset
  rw [hplace] at hslot haddr hbucket
  refine ⟨(t.fillS2 e (searched t e l c r)).2.demux, ?_, ?_⟩
  · rw [fillS2_slot hset' hslot]
    rfl
  · rw [serve_eq hl hnodup, fillS2_slot hset' hslot, bramIndex_searched, setBram_searched hset,
      haddr, hbucket, hsame.rw, hsame.input, hsame.length, entry_rw]
    rfl

/-- **A `SET` that needs a new bucket** and is not given one has written to BRAM only. -/
theorem serve_set_refused (hplace : place (t.bucket e) l r.address = (z, none))
    (hstat : (e.answers t.allocs).stat ≠ 0) :
    ∃ reply, reply.status = piOutputFailure ∧ t.serve e c r =
      ({ t.cached r with allocs := t.allocs + 1 }, some reply) := by
  have hsame := same_searched t e l c r
  have hset' : (searched t e l c r).isSet = true := by rw [hsame.isSet, entry_isSet, hset]
  obtain ⟨hslot, haddr, hbucket⟩ := target_searched (t := t) (e := e) (l := l) (c := c) hset
  rw [hplace] at hslot haddr hbucket
  refine ⟨(t.fillS2 e (searched t e l c r)).2.demux, ?_, ?_⟩
  · rw [fillS2_refused hset' hslot hstat]
    rfl
  · rw [serve_eq hl hnodup, fillS2_refused hset' hslot hstat, bramIndex_searched,
      setBram_searched hset]
    rfl

/-- **A `SET` that needs a new bucket** and is given one. -/
theorem serve_set_append (hplace : place (t.bucket e) l r.address = (z, none))
    (hstat : (e.answers t.allocs).stat = 0) :
    ∃ reply, reply.status = piOutputSucceed ∧ t.serve e c r =
      ((({ t.cached r with allocs := t.allocs + 1 } : Tables).writeDram e
          (allocAddrTrans e.base (e.answers t.allocs).addr)
          (Bucket.put 0 0 r.address r.length r.rw)).writeDram e (z.setWidth 32)
          ((t.bucket e z).link ((allocAddrTrans e.base (e.answers t.allocs).addr).setWidth 26)),
        some reply) := by
  have hsame := same_searched t e l c r
  have hset' : (searched t e l c r).isSet = true := by rw [hsame.isSet, entry_isSet, hset]
  obtain ⟨hslot, haddr, hbucket⟩ := target_searched (t := t) (e := e) (l := l) (c := c) hset
  rw [hplace] at hslot haddr hbucket
  refine ⟨(t.fillS2 e (searched t e l c r)).2.demux, ?_, ?_⟩
  · rw [fillS2_append hset' hslot hstat]
    rfl
  · rw [serve_eq hl hnodup, fillS2_append hset' hslot hstat, bramIndex_searched,
      setBram_searched hset, haddr, hbucket, hsame.rw, hsame.input, hsame.length, entry_rw]
    rfl

end Set

/-! ## `GET` -/

section Get

variable (hget : r.isGet = true)

include hget

theorem entry_denied (hb : Bucket) (i : Slot) : (entry c r).denied hb i = (r.rw && !hb.perm i) := by
  rw [denied, entry_isGet, hget, Bool.true_and, entry_rw]

theorem isSet_eq_false_of_isGet : r.isSet = false := by
  by_contra hset
  have hset : (entry .read r).isSet = true := by rw [entry_isSet]; simpa using hset
  have hfalse := isGet_eq_false hset
  rw [entry_isGet, hget] at hfalse
  cases hfalse

/-- The request goes on to DRAM: the key is not in the BRAM bucket, or the permission check has
failed there. -/
def ToDram (t : Tables) (r : MappingRequest) : Prop :=
  ∀ i, (t.bram r.index).compare r.address = some i → (r.rw && !(t.bram r.index).perm i) = true

theorem compareBram_toDram (hto : t.ToDram r) :
    ((entry c r).compareBram (t.bram r.index)).hbBram = t.bram r.index
      ∧ ((entry c r).compareBram (t.bram r.index)).hbDram = 0
      ∧ ((entry c r).compareBram (t.bram r.index)).slotDram = some 0
      ∧ ((entry c r).compareBram (t.bram r.index)).piState
        = if ((t.bram r.index).compare r.address).isSome then piStateHitBram ||| piStateNoPerm
          else piStateMissBram := by
  rw [compareBram, entry_input]
  cases h : (t.bram r.index).compare r.address with
  | none => exact ⟨rfl, rfl, rfl, rfl⟩
  | some i =>
    have hperm := hto i h
    have hden : (entry c r).denied (t.bram r.index) i = true := by rw [entry_denied hget, hperm]
    simp [hden]

theorem searched_toDram (hto : t.ToDram r) :
    searched t e l c r = ((entry c r).compareBram (t.bram r.index)).walked (t.bucket e) l := by
  obtain ⟨-, -, -, hst⟩ := compareBram_toDram (c := c) hget hto
  have hskip : ((entry c r).compareBram (t.bram r.index)).skipsDram = false := by
    have hstate : ((entry c r).compareBram (t.bram r.index)).piState ≠ piStateHitBram := by
      rw [hst]
      split <;> decide
    rw [skipsDram, beq_false_of_ne hstate, Bool.and_false]
  simp only [searched, hskip, Bool.false_eq_true, if_false]

/-- What a `GET` that has found its key in DRAM does to the tables: if it was not in BRAM, it is
written there. -/
def promoted (t : Tables) (r : MappingRequest) (k v : BitVec 32) : Tables :=
  if ((t.bram r.index).compare r.address).isSome then t
  else t.writeBram r.index ((t.bram r.index).promote (t.bram r.index).findEmptySlot k v)

theorem fillS2_get_hit {pi : PipelineInfo} (hsame : (entry c r).Same pi)
    (hb : pi.hbBram = t.bram r.index)
    {bits : BitVec 32} (hbits : bits = piStateHitDram ∨ bits = piStateHitDram ||| piStateNoPerm)
    (hst : pi.piState = (if ((t.bram r.index).compare r.address).isSome
      then piStateHitBram ||| piStateNoPerm else piStateMissBram) ||| bits) :
    ∃ hb', t.fillS2 e pi = (t.promoted r (pi.hbDram.key (pi.slotDram.getD 0))
      (pi.hbDram.val (pi.slotDram.getD 0)), { pi with hbBram := hb' }) := by
  have hset : pi.isSet = false := by rw [hsame.isSet, entry_isSet, isSet_eq_false_of_isGet hget]
  have hget' : pi.isGet = true := by rw [hsame.isGet, entry_isGet, hget]
  have hindex : pi.bramIndex = r.index := by
    rw [bramIndex, hsame.hash, entry_hash, MappingRequest.index]
  -- with the key in BRAM the bucket stays; without it the mapping is cached
  cases hcmp : ((t.bram r.index).compare r.address).isSome with
  | true =>
    have hmiss : pi.inState piStateMissBram = false := by
      rw [inState, hst, hcmp]
      rcases hbits with rfl | rfl <;> decide
    refine ⟨pi.hbBram, ?_⟩
    rw [fillS2_pass hset (by rw [hmiss, Bool.false_and, Bool.and_false]), promoted,
      hcmp, if_pos rfl]
  | false =>
    have hmiss : pi.inState piStateMissBram = true := by
      rw [inState, hst, hcmp]
      rcases hbits with rfl | rfl <;> decide
    have hhit : pi.inState piStateHitDram = true := by
      rw [inState, hst, hcmp]
      rcases hbits with rfl | rfl <;> decide
    refine ⟨pi.promoteBram, ?_⟩
    rw [fillS2_promote hget' hset hmiss hhit, promoted, hcmp, promoteBram, hb, hindex]
    rfl

variable (hl : Chain (next (t.bucket e)) (root r.address) l) (hnodup : l.Nodup)

include hl hnodup

/-- **A `GET` that is answered from BRAM.** -/
theorem serve_get_bram (hcmp : (t.bram r.index).compare r.address = some i)
    (hperm : (r.rw && !(t.bram r.index).perm i) = false) :
    ∃ reply, reply.status = piOutputSucceed ∧ reply.address = (t.bram r.index).val i
      ∧ t.serve e c r = (t, some reply) := by
  have hcb : (entry c r).compareBram (t.bram r.index) =
      { entry c r with
        hbBram := t.bram r.index
        piState := piStateHitBram
        slot := i
        outputStatus := piOutputSucceed
        output := (t.bram r.index).val i } := by
    rw [compareBram, entry_input, hcmp]
    simp [entry_denied hget, hperm]
  -- a hit skips the walk through DRAM
  have hsearched : searched t e l c r = (entry c r).compareBram (t.bram r.index) := by
    have hskip : ((entry c r).compareBram (t.bram r.index)).skipsDram = true := by
      rw [skipsDram, (same_compareBram _ _).isGet, entry_isGet, hget, hcb]
      rfl
    simp only [searched, hskip, if_true]
  have hset : (searched t e l c r).isSet = false := by
    rw [(same_searched t e l c r).isSet, entry_isSet, isSet_eq_false_of_isGet hget]
  have hstate : (searched t e l c r).inState piStateMissBram = false := by
    rw [hsearched, hcb, inState]
    change (piStateHitBram &&& piStateMissBram == piStateMissBram) = false
    decide
  have hpass := fillS2_pass (t := t) (e := e) hset (by rw [hstate, Bool.false_and, Bool.and_false])
  refine ⟨(searched t e l c r).demux, ?_, ?_, ?_⟩
  · rw [hsearched, hcb]
    rfl
  · rw [hsearched, hcb]
    rfl
  · rw [serve_eq hl hnodup, hpass]

/-- **A `GET` of a key that is not on its chain.** -/
theorem serve_get_miss (hto : t.ToDram r) (hkey : findKey (t.bucket e) l r.address = none) :
    ∃ reply, reply.status = piOutputFailure ∧ t.serve e c r = (t, some reply) := by
  obtain ⟨-, -, -, hst⟩ := compareBram_toDram (c := c) hget hto
  have hsearched := searched_toDram (e := e) (l := l) (c := c) hget hto
  have hset : (searched t e l c r).isSet = false := by
    rw [(same_searched t e l c r).isSet, entry_isSet, isSet_eq_false_of_isGet hget]
  rw [walked, (same_compareBram _ _).input, entry_input, hkey] at hsearched
  have hstate : (searched t e l c r).inState piStateHitDram = false := by
    rw [hsearched, inState]
    simp only [hst]
    split <;> decide
  have hpass := fillS2_pass (t := t) (e := e) hset (by rw [hstate, Bool.and_false, Bool.and_false])
  refine ⟨(searched t e l c r).demux, ?_, ?_⟩
  · rw [hsearched]
    rfl
  · rw [serve_eq hl hnodup, hpass]

/-- **A `GET` that is answered from DRAM.** -/
theorem serve_get_dram (hto : t.ToDram r) (hkey : findKey (t.bucket e) l r.address = some (a, i))
    (hperm : (r.rw && !(t.bucket e a).perm i) = false) :
    ∃ reply, reply.status = piOutputSucceed ∧ reply.address = (t.bucket e a).val i
      ∧ t.serve e c r = (t.promoted r r.address ((t.bucket e a).val i), some reply) := by
  obtain ⟨hbram, -, -, hst⟩ := compareBram_toDram (c := c) hget hto
  have hsame := same_searched t e l c r
  have hsearched := searched_toDram (e := e) (l := l) (c := c) hget hto
  have hden : ((entry c r).compareBram (t.bram r.index)).denied (t.bucket e a) i = false := by
    rw [denied, (same_compareBram _ _).isGet, (same_compareBram _ _).rw, ← denied,
      entry_denied hget, hperm]
  rw [walked, (same_compareBram _ _).input, entry_input, hkey] at hsearched
  simp only [hitDram, hden, Bool.false_eq_true, if_false, hst] at hsearched
  have hkeyeq := (mem_of_findKey hkey).2
  obtain ⟨hb', hfill⟩ := fillS2_get_hit (t := t) (e := e) hget hsame
    (by rw [hsearched]; exact hbram) (.inl rfl) (by rw [hsearched])
  refine ⟨(t.fillS2 e (searched t e l c r)).2.demux, ?_, ?_, ?_⟩
  · rw [hfill, hsearched]
    rfl
  · rw [hfill, hsearched]
    rfl
  · rw [serve_eq hl hnodup, hfill, hsearched]
    simp only [Option.getD_some, hkeyeq]

/-- **A `GET` that is refused for lack of permission.** When the key was not in BRAM, an empty
mapping is written there. -/
theorem serve_get_denied (hto : t.ToDram r) (hkey : findKey (t.bucket e) l r.address = some (a, i))
    (hperm : (r.rw && !(t.bucket e a).perm i) = true) :
    ∃ reply, reply.status = piOutputFailure ∧ t.serve e c r = (t.promoted r 0 0, some reply) := by
  obtain ⟨hbram, hdram, hslot, hst⟩ := compareBram_toDram (c := c) hget hto
  have hsame := same_searched t e l c r
  have hsearched := searched_toDram (e := e) (l := l) (c := c) hget hto
  have hden : ((entry c r).compareBram (t.bram r.index)).denied (t.bucket e a) i = true := by
    rw [denied, (same_compareBram _ _).isGet, (same_compareBram _ _).rw, ← denied,
      entry_denied hget, hperm]
  rw [walked, (same_compareBram _ _).input, entry_input, hkey] at hsearched
  simp only [hitDram, hden, if_true, hst] at hsearched
  obtain ⟨hb', hfill⟩ := fillS2_get_hit (t := t) (e := e) hget hsame
    (by rw [hsearched]; exact hbram) (.inr rfl) (by rw [hsearched, BitVec.or_assoc])
  refine ⟨(t.fillS2 e (searched t e l c r)).2.demux, ?_, ?_⟩
  · rw [hfill, hsearched]
    rfl
  · rw [serve_eq hl hnodup, hfill, hsearched]
    simp only [Option.getD_some, hdram, Bucket.key_zero, Bucket.val_zero]

end Get

/-- **A request that is neither** leaves the tables as they are. -/
theorem serve_unknown (hset : r.isSet = false) (hget : r.isGet = false)
    (hl : Chain (next (t.bucket e)) (root r.address) l) (hnodup : l.Nodup) :
    ∃ reply, t.serve e c r = (t, some reply) := by
  have hsame := same_searched t e l c r
  have hpass := fillS2_pass (t := t) (e := e) (hsame.isSet.trans ((entry_isSet c r).trans hset))
    (by rw [hsame.isGet, entry_isGet, hget, Bool.false_and])
  exact ⟨(searched t e l c r).demux, by rw [serve_eq hl hnodup, hpass]⟩

end Tables

end FpgaOs.Mapping
