import FpgaOs.Rdm.Stages

/-!
# What the service is to reply

This file says, without the stages, what the replies to a sequence of requests are. Each request has
an outcome: a `READ` is mapped or not, an `ALLOC` gets a block or not. The outcome is the answer to
the request's own question to the mapping or the allocator, and `Turn` counts the questions that the
requests before it have asked. The reply to a request is made from its first header, its number and
its outcome.

An `ALLOC` is answered by what the allocator says; what the mapping answers to the `SET` that
follows has no part in the reply. A `WRITE` has only one reply.
-/

namespace FpgaOs.Rdm

open BitField Mapping

/-- What becomes of a request. -/
inductive Outcome
  /-- A `READ` whose data are those of the `n`-th read command. -/
  | read (n : ℕ) (cmd : DmCmd)
  | readError
  | write
  | alloc (va pa : BitVec 64)
  | allocError

def Outcome.opcode : Outcome → BitVec 8
  | .read _ _ => opcodeReplyRead
  | .readError => opcodeReplyReadError
  | .write => opcodeReplyWrite
  | .alloc _ _ => opcodeReplyAlloc
  | .allocError => opcodeReplyAllocError

/-- The next virtual address, and the numbers of questions to the allocator, questions to the
mapping and read commands so far. -/
structure Turn where
  va : BitVec 64
  allocs : ℕ
  maps : ℕ
  reads : ℕ

namespace Packet

variable (e : Env) (p : Packet)

/-- The question of a `READ` or `WRITE` to the mapping. -/
def getRequest : MappingRequest := ⟨p.app.address.setWidth 32, 0, mappingRequestRead⟩

/-- The read command for a `READ` that is mapped to `pa`. -/
def readCmd (pa : BitVec 32) : DmCmd := ⟨BitVec.ofNat 23 (64 * p.nrUnits), pa⟩

/-- The outcome of a request, and the turn of the next one. -/
def serve (t : Turn) : Outcome × Turn :=
  if p.app.opcode = opcodeRead then
    let ret := e.map t.maps p.getRequest
    if ret.status = 0 then
      (.read t.reads (p.readCmd ret.address), { t with maps := t.maps + 1, reads := t.reads + 1 })
    else (.readError, { t with maps := t.maps + 1 })
  else if p.app.opcode = opcodeWrite then (.write, { t with maps := t.maps + 1 })
  else
    let ret := e.alloc t.allocs buddyRequest
    if ret.stat = 0 then
      (.alloc t.va (ret.addr.setWidth 64),
        { t with
          va := t.va + roundUp (roundUp p.app.length 64) rdmVaPageSize
          allocs := t.allocs + 1
          maps := t.maps + 1 })
    else (.allocError, { t with allocs := t.allocs + 1 })

/-- The second header of the reply. -/
def replyHeader (nr : BitVec 64) (o : Outcome) : NetAxis :=
  let hdr := (p.app.setNrPacket nr).setOpcode o.opcode
  match o with
  | .read _ _ => { hdr with last := 0 }
  | .readError => { hdr with last := 1 }
  | .write => { hdr with last := 1 }
  | .alloc va pa => { (hdr.setAddress va).setLength pa with last := 1 }
  | .allocError => { (hdr.setAddress 0).setLength 0 with last := 1 }

/-- The data units of the reply. -/
def replyData : Outcome → List NetAxis
  | .read n cmd => (List.range p.nrUnits).map fun j ↦
      dataUnit (e.dram n cmd j) (if j + 1 = p.nrUnits then 1 else 0)
  | _ => []

def reply (nr : BitVec 64) (o : Outcome) : List NetAxis :=
  p.eth :: p.replyHeader nr o :: p.replyData e o

end Packet

/-- The outcomes of a sequence of requests. -/
def outcomes (e : Env) : Turn → List Packet → List Outcome
  | _, [] => []
  | t, p :: ps => (p.serve e t).1 :: outcomes e (p.serve e t).2 ps

/-- The replies to a sequence of requests, the first of which has the number `nr`. -/
def replies (e : Env) : BitVec 64 → Turn → List Packet → List (List NetAxis)
  | _, _, [] => []
  | nr, t, p :: ps => p.reply e nr (p.serve e t).1 :: replies e (nr + 1) (p.serve e t).2 ps

def Turn.first : Turn := ⟨0x1000, 0, 0, 0⟩

/-! ## The shape of a reply -/

/-- The number of data units of a reply. -/
def Outcome.nrUnits (p : Packet) : Outcome → ℕ
  | .read _ _ => p.nrUnits
  | _ => 0

/-- A reply to request number `k`. -/
structure IsReply (e : Env) (p : Packet) (k : ℕ) (o : Outcome) (r : List NetAxis) : Prop where
  /-- It repeats the first header. -/
  eth : r[0]? = some p.eth
  /-- The second header has the request's number and the opcode that fits the outcome. -/
  app : ∃ h, r[1]? = some h ∧ h.nrPacket = BitVec.ofNat 64 k ∧ h.opcode = o.opcode
  length : r.length = 2 + o.nrUnits p
  /-- A mapped `READ` has the data of its read command. -/
  data : ∀ n cmd, o = .read n cmd → ∀ j < p.nrUnits, ∃ u, r[j + 2]? = some u
    ∧ u.data = e.dram n cmd j
  /-- `last` is set on the final unit only. -/
  last : ∀ i u, r[i]? = some u → (u.last = 1 ↔ i + 1 = r.length)

section Shape

variable {e : Env} {p : Packet}

theorem nrUnits_pos (p : Packet) : 0 < p.nrUnits := by
  have hpos := p.length_pos
  rw [Packet.nrUnits, unitsOf]
  omega

theorem nrPacket_replyHeader (nr : BitVec 64) (o : Outcome) :
    (p.replyHeader nr o).nrPacket = nr := by
  cases o <;> simp [Packet.replyHeader]

theorem opcode_replyHeader (nr : BitVec 64) (o : Outcome) :
    (p.replyHeader nr o).opcode = o.opcode := by
  cases o <;> simp [Packet.replyHeader]

theorem last_replyHeader (nr : BitVec 64) (o : Outcome) :
    (p.replyHeader nr o).last = 1 ↔ o.nrUnits p = 0 := by
  cases o with
  | read n cmd =>
    exact ⟨fun h ↦ absurd h (by decide : (0 : BitVec 1) ≠ 1), fun h ↦ absurd h (nrUnits_pos p).ne'⟩
  | readError => exact iff_of_true rfl rfl
  | write => exact iff_of_true rfl rfl
  | alloc va pa => exact iff_of_true rfl rfl
  | allocError => exact iff_of_true rfl rfl

theorem length_replyData (o : Outcome) : (p.replyData e o).length = o.nrUnits p := by
  cases o with
  | read n cmd => rw [Packet.replyData, List.length_map, List.length_range]; rfl
  | readError => rfl
  | write => rfl
  | alloc va pa => rfl
  | allocError => rfl

theorem getElem?_replyData {n j : ℕ} {cmd : DmCmd} (hj : j < p.nrUnits) :
    (p.replyData e (.read n cmd))[j]?
      = some (dataUnit (e.dram n cmd j) (if j + 1 = p.nrUnits then 1 else 0)) := by
  rw [Packet.replyData, List.getElem?_map, List.getElem?_range hj]
  rfl

theorem last_replyData {o : Outcome} {j : ℕ} {u : NetAxis} (h : (p.replyData e o)[j]? = some u) :
    u.last = 1 ↔ j + 1 = o.nrUnits p := by
  cases o with
  | read n cmd =>
    have hj : j < p.nrUnits := by
      have hlt := (List.getElem?_eq_some_iff.mp h).1
      rwa [length_replyData] at hlt
    rw [getElem?_replyData hj] at h
    rw [← Option.some.inj h, Outcome.nrUnits, dataUnit]
    dsimp only
    split
    · next heq => exact iff_of_true rfl heq
    · next hne => exact iff_of_false (by decide) hne
  | readError => cases h
  | write => cases h
  | alloc va pa => cases h
  | allocError => cases h

/-- **The shape of a reply.** -/
theorem isReply (e : Env) (p : Packet) (k : ℕ) (o : Outcome) :
    IsReply e p k o (p.reply e (BitVec.ofNat 64 k) o) where
  eth := rfl
  app := ⟨_, rfl, nrPacket_replyHeader _ _, opcode_replyHeader _ _⟩
  length := by
    rw [Packet.reply, List.length_cons, List.length_cons, length_replyData]
    omega
  data n cmd ho j hj := by
    rw [ho]
    exact ⟨_, getElem?_replyData hj, rfl⟩
  last i u hu := by
    rw [Packet.reply, List.length_cons, List.length_cons, length_replyData]
    match i with
    | 0 =>
      have heth := p.last_iff 0 p.eth rfl
      rw [← Option.some.inj hu, heth]
      omega
    | 1 =>
      rw [← Option.some.inj hu, last_replyHeader]
      omega
    | j + 2 =>
      rw [last_replyData hu]
      omega

theorem length_replies (e : Env) (nr : BitVec 64) (t : Turn) (ps : List Packet) :
    (replies e nr t ps).length = ps.length := by
  induction ps generalizing nr t with
  | nil => rfl
  | cons p ps ih => rw [replies, List.length_cons, List.length_cons, ih]

/-- The `k`-th reply is made from the `k`-th request and its outcome. -/
theorem getElem?_replies {ps : List Packet} {k : ℕ} {p : Packet} (hp : ps[k]? = some p)
    (nr : BitVec 64) (t : Turn) : ∃ o, (outcomes e t ps)[k]? = some o
      ∧ (replies e nr t ps)[k]? = some (p.reply e (nr + BitVec.ofNat 64 k) o) := by
  induction ps generalizing nr t k with
  | nil => cases hp
  | cons p' ps ih =>
    cases k with
    | zero =>
      obtain rfl := Option.some.inj hp
      refine ⟨_, rfl, ?_⟩
      rw [BitVec.add_zero]
      rfl
    | succ k =>
      obtain ⟨o, ho, hr⟩ := ih hp (nr + 1) (p'.serve e t).2
      refine ⟨o, ho, ?_⟩
      rw [BitVec.ofNat_add, BitVec.add_comm (BitVec.ofNat 64 k), ← BitVec.add_assoc]
      exact hr

end Shape

end FpgaOs.Rdm
