import FpgaOs.Rdm.Addresses
import FpgaOs.Rdm.Writes

/-!
# Isolation of allocations

An `ALLOC` gets a block of the allocator's for its virtual address. `alloc_address` asks for a block
of order 1 whatever the length is, `map` sends a write command for as many bytes as a `WRITE` has,
and nothing compares the two. This file says which bytes the write commands change, given that the
blocks are disjoint and that the mapping answers with the block of the latest `ALLOC` for a key. A
`WRITE` through the address of an `ALLOC` stays within the block of that `ALLOC` exactly if it has
at most 512 bytes and the key has not been set again.
-/

namespace FpgaOs.Rdm

open BitField Mapping Service

/-! ## Blocks -/

/-- The number of bytes of a block. -/
def blockSize (order : BitVec 22) : ℕ := 2 ^ (order.toNat + 8)

/-- A block with the virtual address and the length of its `ALLOC`. -/
structure Block where
  va : BitVec 64
  length : BitVec 64
  addr : BitVec 32
  deriving DecidableEq

/-- The bytes of a block that starts at `addr`. -/
def blockAt (addr : BitVec 32) : Set ℕ :=
  Set.Ico addr.toNat (addr.toNat + blockSize buddyRequest.order)

def Block.key (b : Block) : BitVec 32 := b.va.setWidth 32

def Block.bytes (b : Block) : Set ℕ := blockAt b.addr

/-- The latest block that has been allocated for a key; the latest is the first of the list. -/
def latest (key : BitVec 32) (bs : List Block) : Option Block := bs.find? (·.key == key)

/-- The bytes that a command is about. -/
def DmCmd.bytes (cmd : DmCmd) : Set ℕ :=
  Set.Ico cmd.startAddress.toNat (cmd.startAddress.toNat + cmd.btt.toNat)

/-- The blocks that the allocator gives out are disjoint. -/
def BlocksDisjoint (e : Env) : Prop :=
  ∀ m n, m ≠ n → (e.alloc m buddyRequest).stat = 0 → (e.alloc n buddyRequest).stat = 0 →
    Disjoint (blockAt (e.alloc m buddyRequest).addr) (blockAt (e.alloc n buddyRequest).addr)

/-! ## What a request finds -/

/-- The turn of a request, and the blocks that have been allocated before it. -/
structure Moment where
  turn : Turn
  blocks : List Block

def Moment.first : Moment := ⟨.first, []⟩

namespace Request

variable (e : Env) (m : Moment) (r : Request)

/-- The moment after a request. -/
def next : Moment :=
  if r.app.opcode = opcodeWrite then { m with turn := { m.turn with maps := m.turn.maps + 1 } }
  else
    let ret := e.alloc m.turn.allocs buddyRequest
    { turn := m.turn.alloc (roundUp r.app.length 64) ret
      blocks := if ret.stat = 0 then ⟨m.turn.va, r.app.length, ret.addr⟩ :: m.blocks else m.blocks }

/-- What the mapping answers to a `WRITE`. -/
def getAnswer : MappingReply := e.map m.turn.maps ⟨r.app.address.setWidth 32, 0, mappingRequestRead⟩

end Request

/-- The answer of a table that holds the block for the key of the request, if there is one. -/
def AnswersLatest (ret : MappingReply) : Option Block → Prop
  | some b => ret.status = 0 ∧ ret.address = b.addr
  | none => ret.status ≠ 0

/-- The mapping answers with what has been set last. -/
def TableCorrect (e : Env) : Moment → List Request → Prop
  | _, [] => True
  | m, r :: rs =>
    (r.app.opcode = opcodeWrite → AnswersLatest (r.getAnswer e m)
      (latest (r.app.address.setWidth 32) m.blocks))
      ∧ TableCorrect e (r.next e m) rs

instance decidableAnswersLatest (ret : MappingReply) : ∀ b, Decidable (AnswersLatest ret b)
  | some b => inferInstanceAs (Decidable (ret.status = 0 ∧ ret.address = b.addr))
  | none => inferInstanceAs (Decidable (ret.status ≠ 0))

instance decidableTableCorrect (e : Env) :
    ∀ (m : Moment) (rs : List Request), Decidable (TableCorrect e m rs)
  | _, [] => isTrue trivial
  | m, r :: rs =>
    have := decidableTableCorrect e (r.next e m) rs
    inferInstanceAs (Decidable ((r.app.opcode = opcodeWrite →
      AnswersLatest (r.getAnswer e m) (latest (r.app.address.setWidth 32) m.blocks))
        ∧ TableCorrect e (r.next e m) rs))

/-- A `WRITE` that is mapped, with the blocks that it finds. -/
structure WriteAt where
  request : Request
  blocks : List Block
  pa : BitVec 32

/-- The write command of a `WRITE`. -/
def WriteAt.cmd (w : WriteAt) : DmCmd := ⟨slice (roundUp w.request.app.length 64) 0 23, w.pa⟩

/-- The `WRITE` is through the address of the block's `ALLOC`, and not longer than that. -/
def WriteAt.Through (w : WriteAt) (b : Block) : Prop :=
  b.va = w.request.app.address ∧ w.request.app.length.toNat ≤ b.length.toNat

/-- The `WRITE`s that are mapped. -/
def writesAt (e : Env) : Moment → List Request → List WriteAt
  | _, [] => []
  | m, r :: rs =>
    (if r.app.opcode = opcodeWrite ∧ (r.getAnswer e m).status = 0 then
        [⟨r, m.blocks, (r.getAnswer e m).address⟩] else [])
      ++ writesAt e (r.next e m) rs

/-! ## What is to hold -/

/-- The state that a schedule leads to, when the requests are fed to the service. -/
def afterRequests (e : Env) (rs : List Request) (as : List Action) : Service :=
  Machine.run (Service.step e) (Service.init (rs.flatMap Request.units)) as

/-- **What is to hold of the write commands.** The `k`-th command is that of the `k`-th `WRITE` that
is mapped. -/
structure Isolated (e : Env) (rs : List Request) (s : Service) : Prop where
  cmds : s.dramWrCmd <+: (writesAt e .first rs).map WriteAt.cmd
  /-- A `WRITE` changes only bytes of the block that was allocated for its address. -/
  inside : ∀ (k : ℕ) (cmd : DmCmd) (w : WriteAt), s.dramWrCmd[k]? = some cmd →
    (writesAt e .first rs)[k]? = some w →
    ∀ b ∈ w.blocks, w.Through b → cmd.bytes ⊆ b.bytes
  /-- `WRITE`s through different addresses change different bytes. -/
  apart : ∀ (k k' : ℕ) (cmd cmd' : DmCmd) (w w' : WriteAt),
    s.dramWrCmd[k]? = some cmd → s.dramWrCmd[k']? = some cmd' →
      (writesAt e .first rs)[k]? = some w →
    (writesAt e .first rs)[k']? = some w' → ∀ b ∈ w.blocks, ∀ b' ∈ w'.blocks, w.Through b →
      w'.Through b' →
    w.request.app.address ≠ w'.request.app.address → Disjoint cmd.bytes cmd'.bytes

/-- The condition: a `WRITE` through the address of an `ALLOC` has no more bytes than a block, and
the key has not been set again. -/
def Contained (e : Env) (rs : List Request) : Prop :=
  ∀ w ∈ writesAt e .first rs, ∀ b ∈ w.blocks, w.Through b →
    w.cmd.btt = 0 ∨ (w.cmd.btt.toNat ≤ blockSize buddyRequest.order
      ∧ latest b.key w.blocks = some b)

/-! ## The commands of the service -/

section Commands

variable {e : Env}

theorem turn_next (m : Moment) (r : Request) (base : PipelineInfo) (nr : BitVec 64) :
    m.turn.next e (r.info base nr) = (r.next e m).turn := by
  have hopi : (r.info base nr).opcode = r.app.opcode := rfl
  rw [Turn.next, Request.next, hopi]
  rcases r.opcode_mem with hop | hop
  · rw [if_neg (by rw [hop]; decide), if_pos hop]
  · rw [if_pos hop, if_neg (by rw [hop]; decide)]
    rfl

theorem wrCmdsOf_requestInfos_cons (m : Moment) (base : PipelineInfo) (nr : BitVec 64) (r : Request)
    (rs : List Request) :
    wrCmdsOf (mappedFrom e m.turn (requestInfos base nr (r :: rs)))
      = (if r.app.opcode = opcodeWrite ∧ (r.getAnswer e m).status = 0 then
          [((r.info base nr).translate (r.getAnswer e m)).memCmd] else [])
        ++ wrCmdsOf (mappedFrom e (r.next e m).turn
          (requestInfos (r.info base nr) (nr + 1) rs)) := by
  have hopi : (r.info base nr).opcode = r.app.opcode := rfl
  rw [requestInfos, wrCmdsOf_mappedFrom_cons (.inr r.opcode_mem), turn_next, hopi]
  congr 1
  by_cases hop : r.app.opcode = opcodeWrite
  · have hreq : (r.info base nr).mapRequest = ⟨r.app.address.setWidth 32, 0, mappingRequestRead⟩ :=
      if_neg (by rw [hopi, hop]; decide)
    rw [hreq]
    rfl
  · rw [if_neg fun h ↦ hop h.1, if_neg fun h ↦ hop h.1]

theorem cook_requestInfos (m : Moment) (base : PipelineInfo) (nr : BitVec 64) (rs : List Request) :
    (wrCmdsOf (mappedFrom e m.turn (requestInfos base nr rs))).map MemCmd.cook
      = (writesAt e m rs).map WriteAt.cmd := by
  induction rs generalizing m base nr with
  | nil => rfl
  | cons r rs ih =>
    rw [wrCmdsOf_requestInfos_cons, List.map_append, ih, writesAt, List.map_append]
    congr 1
    by_cases h : r.app.opcode = opcodeWrite ∧ (r.getAnswer e m).status = 0
    · rw [if_pos h, if_pos h, PipelineInfo.translate, if_pos h.2]
      exact congrArg (fun pa ↦ [(⟨slice (roundUp r.app.length 64) 0 23, pa⟩ : DmCmd)])
        (slice_setWidth _)
    · rw [if_neg h, if_neg h]
      rfl

theorem units_le_length {r : Request} (hop : r.app.opcode = opcodeWrite) (base : PipelineInfo)
    (nr : BitVec 64)
    (ret : MappingReply) : ((r.info base nr).translate ret).memCmd.units ≤ r.payload.length := by
  have hlen := toNat_nrUnits_request hop base nr
  have hpos : 0 < r.payload.length := by
    obtain ⟨hpos, -⟩ := r.length_mem hop
    rw [r.payload_length, if_pos hop, unitsOf]
    omega
  have hnat : ((r.info base nr).nrUnits.setWidth 32).toNat = r.payload.length % 2 ^ 32 := by
    rw [BitVec.toNat_setWidth, hlen]
  rw [MemCmd.units, PipelineInfo.memCmd, nrUnits_translate, laps]
  split
  · next hzero =>
    have hmod : r.payload.length % 2 ^ 32 = 0 := hnat.symm.trans (congrArg BitVec.toNat hzero)
    exact Nat.le_of_dvd hpos (Nat.dvd_of_mod_eq_zero hmod)
  · rw [hnat]
    exact Nat.mod_le _ _

theorem total_units_le (m : Moment) (base : PipelineInfo) (nr : BitVec 64) (rs : List Request) :
    Burst.total ((wrCmdsOf (mappedFrom e m.turn (requestInfos base nr rs))).map MemCmd.units)
      ≤ (rs.flatMap Request.payload).length := by
  induction rs generalizing m base nr with
  | nil => exact Nat.le_refl _
  | cons r rs ih =>
    rw [wrCmdsOf_requestInfos_cons, List.map_append, Burst.total_append, List.flatMap_cons,
      List.length_append]
    refine Nat.add_le_add ?_ (ih _ _ _)
    split
    · next h => exact units_le_length h.1 base nr _
    · exact Nat.zero_le _

/-- The write commands that the requests lead to. -/
def requestCmds (e : Env) (rs : List Request) : List MemCmd :=
  wrCmdsOf (mappedFrom e .first (requestInfos {} 1 rs))

def requestData (rs : List Request) : List (BitVec 512) :=
  (rs.flatMap Request.payload).map NetAxis.data

theorem supplied_requests (e : Env) (rs : List Request) :
    Supplied (requestCmds e rs) (requestData rs) := by
  rw [Supplied, requestData, List.length_map]
  exact total_units_le .first _ _ _

theorem writing_afterRequests (e : Env) (rs : List Request) (as : List Action) :
    Writing e (served e .first (requestInfos {} 1 rs)) (requestCmds e rs) (requestData rs)
      (afterRequests e rs as) := by
  have hwr : WrInv (requestCmds e rs) (requestData rs) [] (.ofRequests e rs)
      (Service.init (rs.flatMap Request.units)) := ⟨rfl, rfl, rfl, rfl, rfl⟩
  exact Writing.run ⟨_, [], Inv.ofRequests e rs, hwr⟩ as

end Commands

/-! ## The blocks that a `WRITE` finds -/

section Blocks

variable {e : Env} {m : Moment} {rs : List Request}

/-- The blocks are disjoint, and the allocator has given them out. -/
structure Moment.Ok (e : Env) (m : Moment) : Prop where
  disjoint : m.blocks.Pairwise fun b b' ↦ Disjoint b.bytes b'.bytes
  given : ∀ b ∈ m.blocks, ∃ n < m.turn.allocs,
    (e.alloc n buddyRequest).stat = 0 ∧ (e.alloc n buddyRequest).addr = b.addr

theorem Moment.Ok.disjoint_of_ne (h : m.Ok e) {b b' : Block} (hb : b ∈ m.blocks)
    (hb' : b' ∈ m.blocks) (hne : b ≠ b') : Disjoint b.bytes b'.bytes := by
  have hsymm : Std.Symm fun b b' : Block ↦ Disjoint b.bytes b'.bytes := ⟨fun _ _ h ↦ h.symm⟩
  exact h.disjoint.forall hb hb' hne

theorem Moment.Ok.next (h : m.Ok e) (hblocks : BlocksDisjoint e) (r : Request) :
    (r.next e m).Ok e := by
  rw [Request.next]
  split
  · exact ⟨h.disjoint, h.given⟩
  dsimp only
  by_cases hstat : (e.alloc m.turn.allocs buddyRequest).stat = 0
  · rw [if_pos hstat, Turn.alloc, if_pos hstat]
    constructor
    · refine List.pairwise_cons.mpr ⟨fun b hb ↦ ?_, h.disjoint⟩
      obtain ⟨n, hn, hstat', haddr⟩ := h.given b hb
      have hdisj := hblocks m.turn.allocs n hn.ne' hstat hstat'
      rw [haddr] at hdisj
      exact hdisj
    · refine List.forall_mem_cons.mpr ⟨⟨_, Nat.lt_succ_self _, hstat, rfl⟩, fun b hb ↦ ?_⟩
      obtain ⟨n, hn, hgiven⟩ := h.given b hb
      exact ⟨n, Nat.lt_succ_of_lt hn, hgiven⟩
  · rw [if_neg hstat, Turn.alloc, if_neg hstat]
    refine ⟨h.disjoint, fun b hb ↦ ?_⟩
    obtain ⟨n, hn, hgiven⟩ := h.given b hb
    exact ⟨n, Nat.lt_succ_of_lt hn, hgiven⟩

theorem blocks_subset_next (m : Moment) (r : Request) : m.blocks ⊆ (r.next e m).blocks := by
  rw [Request.next]
  split
  · exact List.Subset.refl _
  dsimp only
  split
  · exact List.subset_cons_self _ _
  · exact List.Subset.refl _

/-- The moment after all requests. -/
def Moment.after (e : Env) (m : Moment) (rs : List Request) : Moment :=
  rs.foldl (fun m r ↦ r.next e m) m

theorem Moment.Ok.after (h : m.Ok e) (hblocks : BlocksDisjoint e) : (m.after e rs).Ok e := by
  induction rs generalizing m with
  | nil => exact h
  | cons r rs ih => exact ih (h.next hblocks r)

theorem blocks_subset_after (m : Moment) (rs : List Request) :
    m.blocks ⊆ (m.after e rs).blocks := by
  induction rs generalizing m with
  | nil => exact List.Subset.refl _
  | cons r rs ih => exact List.Subset.trans (blocks_subset_next m r) (ih (r.next e m))

theorem latest_of_mem_writesAt (htable : TableCorrect e m rs) {w : WriteAt}
    (hw : w ∈ writesAt e m rs) :
    (∃ b, latest (w.request.app.address.setWidth 32) w.blocks = some b ∧ w.pa = b.addr)
      ∧ w.blocks ⊆ (m.after e rs).blocks := by
  induction rs generalizing m with
  | nil => exact absurd hw List.not_mem_nil
  | cons r rs ih =>
    obtain ⟨hanswer, htable'⟩ := htable
    rw [writesAt, List.mem_append] at hw
    rcases hw with hw | hw
    · split at hw
      · next h =>
        obtain rfl := List.mem_singleton.mp hw
        have hans := hanswer h.1
        refine ⟨?_, blocks_subset_after m (r :: rs)⟩
        cases hlatest : latest (r.app.address.setWidth 32) m.blocks with
        | some b =>
          rw [hlatest] at hans
          exact ⟨b, rfl, hans.2⟩
        | none =>
          rw [hlatest] at hans
          exact absurd h.2 hans
      · exact absurd hw List.not_mem_nil
    · exact ih htable' hw

theorem mem_of_latest {key : BitVec 32} {bs : List Block} {b : Block} (h : latest key bs = some b) :
    b ∈ bs :=
  List.mem_of_find?_eq_some h

end Blocks

/-! ## When allocations are isolated -/

section Isolation

variable {e : Env} {rs : List Request}

theorem ok_after (hblocks : BlocksDisjoint e) (rs : List Request) :
    (Moment.first.after e rs).Ok e :=
  Moment.Ok.after ⟨.nil, List.forall_mem_nil _⟩ hblocks

theorem WriteAt.Through.key {w : WriteAt} {b : Block} (h : w.Through b) :
    w.request.app.address.setWidth 32 = b.key := by rw [Block.key, h.1]

theorem bytes_subset_of_contained (htable : TableCorrect e .first rs) (h : Contained e rs)
    {w : WriteAt} (hw : w ∈ writesAt e .first rs) {b : Block} (hb : b ∈ w.blocks)
    (hthrough : w.Through b) :
    w.cmd.bytes ⊆ b.bytes := by
  obtain ⟨⟨b', hlatest', hpa⟩, -⟩ := latest_of_mem_writesAt htable hw
  rcases h w hw b hb hthrough with hzero | ⟨hle, hlatest⟩
  · rw [DmCmd.bytes, hzero]
    intro x hx
    exact absurd hx.1 (Nat.not_le_of_lt hx.2)
  · rw [hthrough.key, hlatest] at hlatest'
    obtain rfl := Option.some.inj hlatest'
    have hstart : w.cmd.startAddress = b.addr := hpa
    rw [DmCmd.bytes, Block.bytes, blockAt, hstart]
    exact Set.Ico_subset_Ico_right (Nat.add_le_add_left hle _)

theorem contained_of_bytes_subset (hblocks : BlocksDisjoint e) (htable : TableCorrect e .first rs)
    {w : WriteAt} (hw : w ∈ writesAt e .first rs) {b : Block} (hb : b ∈ w.blocks)
    (hthrough : w.Through b) (h : w.cmd.bytes ⊆ b.bytes) :
    w.cmd.btt = 0 ∨ (w.cmd.btt.toNat ≤ blockSize buddyRequest.order ∧ latest b.key w.blocks
      = some b) := by
  by_cases hzero : w.cmd.btt = 0
  · exact .inl hzero
  right
  obtain ⟨⟨b', hlatest, hpa⟩, hsub⟩ := latest_of_mem_writesAt htable hw
  have hok := ok_after hblocks rs
  have hpos : 0 < w.cmd.btt.toNat := Nat.pos_of_ne_zero fun h ↦ hzero (BitVec.eq_of_toNat_eq h)
  have hstart : w.cmd.startAddress = b'.addr := hpa
  rw [DmCmd.bytes, hstart] at h
  -- the first byte is in the block that the mapping has for the key, so this is the block of the
  -- address
  have heq : b' = b := by
    by_contra hne
    have hdisj := hok.disjoint_of_ne (hsub (mem_of_latest hlatest)) (hsub hb) hne
    have hmem : b'.addr.toNat ∈ b'.bytes :=
      ⟨Nat.le_refl _, Nat.lt_add_of_pos_right (Nat.two_pow_pos _)⟩
    exact Set.disjoint_left.mp hdisj hmem (h ⟨Nat.le_refl _, Nat.lt_add_of_pos_right hpos⟩)
  rw [hthrough.key, heq] at hlatest
  refine ⟨?_, hlatest⟩
  -- and so is the last one
  have hlast := h ⟨Nat.le_sub_one_of_lt (Nat.lt_add_of_pos_right hpos), Nat.sub_one_lt (by omega)⟩
  rw [heq, Block.bytes, blockAt, Set.mem_Ico] at hlast
  omega

/-- **Isolation of allocations.** Under every schedule, a `WRITE` through the address of an `ALLOC`
changes only bytes of its block, exactly if it has no more bytes than a block, and the key of the
address has not been set again. -/
theorem isolated_iff (e : Env) (rs : List Request) (hblocks : BlocksDisjoint e)
    (htable : TableCorrect e .first rs) :
    (∀ as, Isolated e rs (afterRequests e rs as)) ↔ Contained e rs := by
  have hcook : (requestCmds e rs).map MemCmd.cook = (writesAt e .first rs).map WriteAt.cmd :=
    cook_requestInfos .first {} 1 rs
  constructor
  · intro h w hw b hb hthrough
    -- a schedule after which all commands have been sent
    obtain ⟨as, -, hwritten⟩ :=
      leads_written (writing_afterRequests e rs []) (supplied_requests e rs)
    obtain ⟨-, -, hsent⟩ := (writing_afterRequests e rs as).sent
    have hall := (hsent hwritten).1
    obtain ⟨k, hk⟩ := List.mem_iff_getElem?.mp hw
    have hcmd : (afterRequests e rs as).dramWrCmd[k]? = some w.cmd := by
      rw [hall, hcook, List.getElem?_map, hk]
      rfl
    exact contained_of_bytes_subset hblocks htable hw hb hthrough
      ((h as).inside k w.cmd w hcmd hk b hb hthrough)
  · intro h as
    obtain ⟨hbegins, -, -⟩ := (writing_afterRequests e rs as).sent
    rw [hcook] at hbegins
    have hcmd {k : ℕ} {cmd : DmCmd} {w : WriteAt}
      (hk : (afterRequests e rs as).dramWrCmd[k]? = some cmd)
        (hw : (writesAt e .first rs)[k]? = some w) : cmd = w.cmd := by
      obtain ⟨rest, hrest⟩ := hbegins
      have hlt := (List.getElem?_eq_some_iff.mp hk).1
      have hmap : ((writesAt e .first rs).map WriteAt.cmd)[k]? = some w.cmd := by
        rw [List.getElem?_map, hw]
        rfl
      rw [← hrest, List.getElem?_append_left hlt, hk] at hmap
      exact Option.some.inj hmap
    refine ⟨hbegins, ?_, ?_⟩
    · intro k cmd w hk hw b hb hthrough
      rw [hcmd hk hw]
      exact bytes_subset_of_contained htable h (List.mem_of_getElem? hw) hb hthrough
    · intro k k' cmd cmd' w w' hk hk' hw hw' b hb b' hb' hthrough hthrough' hne
      have hmem := List.mem_of_getElem? hw
      have hmem' := List.mem_of_getElem? hw'
      have hne' : b ≠ b' :=
        fun heq ↦ hne (hthrough.1.symm.trans ((congrArg Block.va heq).trans hthrough'.1))
      have hdisj := (ok_after hblocks rs).disjoint_of_ne ((latest_of_mem_writesAt htable hmem).2 hb)
        ((latest_of_mem_writesAt htable hmem').2 hb') hne'
      rw [hcmd hk hw, hcmd hk' hw']
      exact hdisj.mono (bytes_subset_of_contained htable h hmem hb hthrough)
        (bytes_subset_of_contained htable h hmem' hb' hthrough')

/-! ### A `WRITE` that is longer than a block -/

/-- `n` units of zeros, the last one marked. -/
def zeros (n : ℕ) : List NetAxis :=
  (List.range n).map fun j ↦ { last := if j + 1 = n then 1 else 0 }

theorem length_zeros (n : ℕ) : (zeros n).length = n := by
    rw [zeros, List.length_map, List.length_range]

theorem last_zeros (n i : ℕ) (d : NetAxis) (hd : (zeros n)[i]? = some d) :
    d.last = 1 ↔ i + 1 = (zeros n).length := by
  have hi : i < n := length_zeros n ▸ (List.getElem?_eq_some_iff.mp hd).1
  rw [zeros, List.getElem?_map, List.getElem?_range hi] at hd
  rw [← Option.some.inj hd, length_zeros]
  dsimp only
  split
  · next h => exact iff_of_true rfl h
  · next h => exact iff_of_false (by decide) h

theorem toNat_length_zeros (va : BitVec 64) {n : ℕ} (hlt : n < 2 ^ 16) :
    (header opcodeWrite va (BitVec.ofNat 64 (64 * n))).length.toNat = 64 * n := by
  rw [length_header, BitVec.toNat_ofNat]
  omega

theorem length_mem_zeros (va : BitVec 64) {n : ℕ} (hpos : 0 < n) (hlt : n < 2 ^ 16) :
    1 ≤ (header opcodeWrite va (BitVec.ofNat 64 (64 * n))).length.toNat
      ∧ (header opcodeWrite va (BitVec.ofNat 64 (64 * n))).length.toNat ≤ 2 ^ 64 - 64 := by
  rw [toNat_length_zeros va hlt]
  omega

theorem length_zeros_eq (va : BitVec 64) {n : ℕ} (hlt : n < 2 ^ 16) :
    (zeros n).length = if (header opcodeWrite va (BitVec.ofNat 64 (64 * n))).opcode
      = opcodeWrite then
      unitsOf (header opcodeWrite va (BitVec.ofNat 64 (64 * n))).length.toNat else 0 := by
  rw [opcode_header, if_pos rfl, toNat_length_zeros va hlt, length_zeros, unitsOf]
  omega

/-- A `WRITE` of `n` units of zeros. -/
def writeZeros (va : BitVec 64) (n : ℕ) (hpos : 0 < n) (hlt : n < 2 ^ 16) : Request where
  eth := {}
  app := header opcodeWrite va (BitVec.ofNat 64 (64 * n))
  payload := zeros n
  opcode_mem := .inl (opcode_header _ _ _)
  length_mem _ := length_mem_zeros va hpos hlt
  payload_length := length_zeros_eq va hlt
  last_iff := last_zeros n

/-- The two blocks are next to each other, and the mapping has them at the addresses of the first
two `ALLOC`s. -/
def adjacentBlocks : Env :=
  { twoBlocks with
    map := fun _ r ↦ if r.address = 0x1000 then ⟨0, 0, 0⟩ else if r.address = 0x2000 then
      ⟨0, 512, 0⟩ else ⟨1, 0, 0⟩ }

/-- Two `ALLOC`s, and a `WRITE` of `n` units through the address of the first one, which is of 1024
bytes. -/
def writeToFirst (n : ℕ) (hpos : 0 < n) (hlt : n < 2 ^ 16) : List Request :=
  [(allocOf 1024).toRequest, (allocOf 64).toRequest, writeZeros 0x1000 n hpos hlt]

theorem blocksDisjoint_adjacentBlocks : BlocksDisjoint adjacentBlocks := by
  have halloc (n : ℕ) (h : (adjacentBlocks.alloc n buddyRequest).stat = 0) : n = 0 ∨ n = 1 := by
    match n, h with
    | 0, _ => exact .inl rfl
    | 1, _ => exact .inr rfl
    | n + 2, h => exact absurd h (by decide : (1 : BitVec 1) ≠ 0)
  intro m n hne hm hn
  have hblocks : Disjoint (blockAt 0) (blockAt 512) := by
    rw [blockAt, blockAt, Set.Ico_disjoint_Ico]
    decide
  rcases halloc m hm with rfl | rfl
  · rcases halloc n hn with rfl | rfl
    · exact absurd rfl hne
    · exact hblocks
  · rcases halloc n hn with rfl | rfl
    · exact hblocks.symm
    · exact absurd rfl hne

/-- A `WRITE` of a whole block. -/
theorem isolated_iff_writeToFirst :
    BlocksDisjoint adjacentBlocks
      ∧ TableCorrect adjacentBlocks .first (writeToFirst 8 (by decide) (by decide))
      ∧ ((∀ as, Isolated adjacentBlocks (writeToFirst 8 (by decide) (by decide))
          (afterRequests adjacentBlocks (writeToFirst 8 (by decide) (by decide)) as))
        ↔ Contained adjacentBlocks (writeToFirst 8 (by decide) (by decide))) := by
  have htable : TableCorrect adjacentBlocks .first (writeToFirst 8 (by decide) (by decide)) := by
    decide +kernel
  exact ⟨blocksDisjoint_adjacentBlocks, htable,
    isolated_iff _ _ blocksDisjoint_adjacentBlocks htable⟩

/-- A `WRITE` of nine units changes the first bytes of the other block. -/
theorem not_isolated_writeToFirst :
    BlocksDisjoint adjacentBlocks
      ∧ TableCorrect adjacentBlocks .first (writeToFirst 9 (by decide) (by decide))
      ∧ ¬∀ as, Isolated adjacentBlocks (writeToFirst 9 (by decide) (by decide))
        (afterRequests adjacentBlocks (writeToFirst 9 (by decide) (by decide)) as) := by
  refine ⟨blocksDisjoint_adjacentBlocks, by decide +kernel, fun h ↦ ?_⟩
  have hcmd : (afterRequests adjacentBlocks (writeToFirst 9 (by decide) (by decide))
      (roundRobin 16)).dramWrCmd[0]? = some ⟨576, 0⟩ := by decide +kernel
  have hwrite : ((writesAt adjacentBlocks .first (writeToFirst 9 (by decide) (by decide)))[0]?.map
      fun w ↦ (w.blocks, w.request.app.address, w.request.app.length))
      = some ([⟨0x2000, 64, 512⟩, ⟨0x1000, 1024, 0⟩], 0x1000, 576) := by decide +kernel
  obtain ⟨w, hw, hfields⟩ := Option.map_eq_some_iff.mp hwrite
  obtain ⟨hblocks, hrest⟩ := Prod.mk.inj hfields
  obtain ⟨haddr, hlen⟩ := Prod.mk.inj hrest
  have hmem : (⟨0x1000, 1024, 0⟩ : Block) ∈ w.blocks := by
    rw [hblocks]
    decide
  have hthrough : w.Through ⟨0x1000, 1024, 0⟩ := by
    rw [WriteAt.Through, haddr, hlen]
    decide
  have hin : 512 ∈ (⟨576, 0⟩ : DmCmd).bytes := ⟨by decide, by decide⟩
  have hout := (h (roundRobin 16)).inside 0 _ w hcmd hw _ hmem hthrough hin
  exact absurd hout.2 (by decide)

end Isolation

end FpgaOs.Rdm
