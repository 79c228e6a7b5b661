import FpgaOs.Memcached.Concurrency
import FpgaOs.Memcached.Lookup

/-!
# The stages of the hash table

Behind `concurrencyControl` a request goes through three stages. `memRead` asks the memory for the
bucket, `ht_compare` compares the key with what comes back, and `memWriteWithBuddy` decides, writes
and tells `concurrencyControl` that the request is done. The memory is `bramModelHash`: an
aggregator that puts the commands for reading and writing into one queue, writes first, and an array
that is accessed one word in a call.

Each stage is a function that is called again and again and does one step of its own state machine.
`Pipeline` is all the state there is, and a schedule is a list of calls in any order, mixed with the
words that arrive. The streams are unbounded, so a write never blocks.

Left out are the states of `memWriteWithBuddy` that are never entered (`MW_BUDDY_WAIT` and those of
a flush) and what the allocator returns, which is read but not used.
-/

namespace FpgaOs.Memcached

open Alloc

/-! ## Streams -/

/-- `struct memCtrlWord`. -/
structure MemCtrlWord where
  address : BitVec 32
  count : BitVec 8
  deriving DecidableEq

/-- `struct extMemCtrlWord`. -/
structure ExtMemCtrlWord where
  address : BitVec 32
  count : BitVec 6
  rdOrWr : BitVec 1
  deriving DecidableEq

/-- The streams of `hashTableWithBuddy`, from `concurrencyControl` on. Nothing is taken out of
`memWr2out` and `alloc` here: they are all that has been answered, and all that the allocator has
been asked for. -/
structure Streams extends CcStreams where
  memRdCtrl : List MemCtrlWord
  memRd2comp : List KeyWord
  memRd2compMd : List InternalMd
  memRdData : List Word
  comp2memWrKey : List KeyWord
  comp2memWrMd : List InternalMd
  comp2memWrStatus : List (Bin → BinStatus)
  comp2memWrMemData : List Word
  memWrCtrl : List MemCtrlWord
  memWrData : List Word
  memWr2out : List DecideResult
  alloc : List BuddyRequest

/-- The address of a bucket: `address.range(9, 3) = tempAddress.range(6, 0)`. -/
def tableAddress (metadata : BitVec 32) : BitVec 32 := (metadata.setWidth 7).setWidth 32 <<< 3

/-! ## `memRead` -/

/-- `enum mrState`. -/
inductive MemRdState
  | idle
  | stream
  deriving DecidableEq

/-- The bits of a key of at most 16 bytes that do not belong to it are reset. -/
def resetHigh (keyLength : BitVec 8) (data : BitVec 128) : BitVec 128 :=
  if keyLength ≤ 16 then (data.setWidth (8 * keyLength.toNat)).setWidth 128 else data

def memRead (s : MemRdState) (q : Streams) : MemRdState × Streams :=
  match s with
  | .idle =>
    match q.cc2memReadMd, q.cc2memRead with
    | inDataMd :: cc2memReadMd, inData :: cc2memRead =>
      (if inData.eop then .idle else .stream,
        { q with
          cc2memReadMd
          cc2memRead
          memRdCtrl :=
            if inDataMd.operation ≠ 8 then
              q.memRdCtrl ++ [⟨tableAddress inDataMd.metadata, memCount inDataMd.keyLength⟩]
            else q.memRdCtrl
          memRd2comp :=
            q.memRd2comp ++ [{ inData with data := resetHigh inDataMd.keyLength inData.data }]
          memRd2compMd := q.memRd2compMd ++ [inDataMd] })
    | _, _ => (.idle, q)
  | .stream =>
    match q.cc2memRead with
    | [] => (.stream, q)
    | inData :: cc2memRead =>
      (if inData.eop then .idle else .stream,
        { q with cc2memRead, memRd2comp := q.memRd2comp ++ [inData] })

/-! ## `ht_compare` -/

/-- `enum cmpState`. -/
inductive CmpState
  | idle
  | head
  | compare
  | stream
  deriving DecidableEq

/-- The static variables of `ht_compare`. -/
structure Compare where
  state : CmpState := .idle
  inDataMd : InternalMd := {}
  keyLength : BitVec 8 := 0
  statusOutput : Bin → BinStatus := fun _ ↦ ⟨false, false⟩

/-- The bins of the head: a bin is free, or its length is that of the key. -/
def markHead (status : Bin → BinStatus) (head : Word) (keyLength : BitVec 8) (i : Bin) :
    BinStatus :=
  if head.get (.keyLength i) = 0 then { status i with free := true }
  else if head.get (.keyLength i) = keyLength then { status i with isMatch := true }
  else status i

/-- The length of a key without the word that has been compared. -/
def restLength (keyLength : BitVec 8) : BitVec 8 := if 16 < keyLength then keyLength - 16 else 0

def htCompareStage (s : Compare) (q : Streams) : Compare × Streams :=
  match s.state with
  | .idle =>
    match q.memRd2compMd with
    | [] => (s, q)
    | inDataMd :: memRd2compMd =>
      (⟨if inDataMd.operation = 8 then .stream else .head, inDataMd, inDataMd.keyLength,
          fun _ ↦ ⟨false, false⟩⟩,
        { q with memRd2compMd })
  | .head =>
    match q.memRdData with
    | [] => (s, q)
    | memInput :: memRdData =>
      ({ s with state := .compare, statusOutput := markHead s.statusOutput memInput s.keyLength },
        { q with memRdData, comp2memWrMemData := q.comp2memWrMemData ++ [memInput] })
  | .compare =>
    match q.memRdData, q.memRd2comp with
    | memInput :: memRdData, inData :: memRd2comp =>
      let statusOutput := compareWord s.statusOutput memInput inData.data
      let done := restLength s.keyLength = 0
      ({ s with state := if done then .idle else .compare
                keyLength := restLength s.keyLength
                statusOutput },
        { q with
          memRdData
          memRd2comp
          comp2memWrMemData := q.comp2memWrMemData ++ [memInput]
          comp2memWrKey := q.comp2memWrKey ++ [inData]
          comp2memWrMd := if done then q.comp2memWrMd ++ [s.inDataMd] else q.comp2memWrMd
          comp2memWrStatus :=
            if done then q.comp2memWrStatus ++ [statusOutput] else q.comp2memWrStatus })
    | _, _ => (s, q)
  | .stream =>
    match q.memRd2comp with
    | [] => (s, q)
    | inData :: memRd2comp =>
      let done := restLength s.keyLength = 0
      ({ s with state := if done then .idle else .stream, keyLength := restLength s.keyLength },
        { q with
          memRd2comp
          comp2memWrKey := q.comp2memWrKey ++ [inData]
          comp2memWrMd := if done then q.comp2memWrMd ++ [s.inDataMd] else q.comp2memWrMd
          comp2memWrStatus :=
            if done then q.comp2memWrStatus ++ [s.statusOutput] else q.comp2memWrStatus })

/-! ## `memWriteWithBuddy` -/

/-- `enum mwState`. -/
inductive MemWrState
  | idle
  | eval
  | setRest
  | consume
  | initMem
  deriving DecidableEq

/-- The static variables of `memWriteWithBuddy` and `dummy_allocator`. -/
structure MemWrite where
  state : MemWrState := .idle
  inputStatusWord : Bin → BinStatus := fun _ ↦ ⟨false, false⟩
  inputWordMd : InternalMd := {}
  location : Bin := 0
  memInitialized : Bool := false
  nr : ℕ := 0

namespace MemWrite

variable (s : MemWrite) (q : Streams)

/-- A `GET` in state `MW_EVAL`. -/
def evalGet (inputWordMem : Word) : MemWrite × Streams :=
  let result : DecideResult :=
    match replaceLocation s.inputStatusWord with
    | none => { operation := s.inputWordMd.operation, status := 1 }
    | some i =>
      { address := inputWordMem.get (.address i)
        valueLength := inputWordMem.get (.valueLength i)
        operation := s.inputWordMd.operation
        status := 0 }
  ({ s with state := .consume
            location := (replaceLocation s.inputStatusWord).getD s.location },
    { q with memWr2out := q.memWr2out ++ [result], dec2cc := q.dec2cc ++ [1] })

/-- The head that a `SET` writes back. -/
def setHead (inputWordMem : Word) (location : Bin) (addressPointer : BitVec 32) : Word :=
  (((inputWordMem.set (.keyLength location) s.inputWordMd.keyLength).set (.reserved location)
    0x18).set (.valueLength location) s.inputWordMd.valueLength).set (.address location)
      addressPointer

/-- A `SET` in state `MW_EVAL`. -/
def evalSet (inputWordMem : Word) : MemWrite × Streams :=
  let memCtrl : MemCtrlWord :=
    ⟨tableAddress s.inputWordMd.metadata, memCount s.inputWordMd.keyLength⟩
  match Memcached.location s.inputStatusWord, replaceLocation s.inputStatusWord with
  | none, _ =>
    ({ s with state := .consume },
      { q with
        memWr2out := q.memWr2out ++ [{ operation := s.inputWordMd.operation, status := 1 }]
        dec2cc := q.dec2cc ++ [1] })
  | some _, some location =>
    let addressPointer := inputWordMem.get (.address location)
    ({ s with state := .setRest, location },
      { q with
        memWrCtrl := q.memWrCtrl ++ [memCtrl]
        memWrData := q.memWrData ++ [s.setHead inputWordMem location addressPointer]
        memWr2out := q.memWr2out ++
          [{ address := addressPointer, operation := s.inputWordMd.operation, status := 0 }] })
  | some location, none =>
    let addressPointer := dummyAllocator s.nr
    ({ s with state := .setRest, location, nr := s.nr + 1 },
      { q with
        alloc := q.alloc ++ [.alloc (orderOf s.inputWordMd.valueLength)]
        memWrCtrl := q.memWrCtrl ++ [memCtrl]
        memWrData := q.memWrData ++ [s.setHead inputWordMem location addressPointer]
        memWr2out := q.memWr2out ++
          [{ address := addressPointer, operation := s.inputWordMd.operation, status := 0 }] })

/-- A `DELETE` in state `MW_EVAL`. -/
def evalDelete (inputWordMem : Word) : MemWrite × Streams :=
  match deleteLocation s.inputStatusWord with
  | none =>
    ({ s with state := .consume },
      { q with
        memWr2out := q.memWr2out ++ [{ operation := s.inputWordMd.operation, status := 1 }]
        dec2cc := q.dec2cc ++ [1] })
  | some location =>
    ({ s with state := .consume, location },
      { q with
        memWrCtrl := q.memWrCtrl ++ [⟨tableAddress s.inputWordMd.metadata, 1⟩]
        alloc := q.alloc ++
          [.free (((inputWordMem.get (.address location)).setWidth 31).setWidth 32)
            (orderOf (inputWordMem.get (.valueLength location)))]
        memWr2out := q.memWr2out ++ [{ operation := s.inputWordMd.operation, status := 0 }]
        memWrData := q.memWrData ++
          [(inputWordMem.set (.keyLength location) 0).set (.valueLength location) 0]
        dec2cc := q.dec2cc ++ [1] })

end MemWrite

def memWriteWithBuddy (s : MemWrite) (q : Streams) : MemWrite × Streams :=
  match s.state with
  | .idle =>
    if s.memInitialized then
      match q.comp2memWrMd, q.comp2memWrStatus with
      | inputWordMd :: comp2memWrMd, inputStatusWord :: comp2memWrStatus =>
        ({ s with state := .eval, inputWordMd, inputStatusWord },
          { q with comp2memWrMd, comp2memWrStatus })
      | _, _ => (s, q)
    else ({ s with memInitialized := true, state := .initMem }, q)
  | .eval =>
    match q.comp2memWrMemData with
    | [] => (s, q)
    | inputWordMem :: comp2memWrMemData =>
      let q := { q with comp2memWrMemData }
      if s.inputWordMd.operation = 0 then s.evalGet q inputWordMem
      else if s.inputWordMd.operation = 1 then s.evalSet q inputWordMem
      else if s.inputWordMd.operation = 4 then s.evalDelete q inputWordMem
      else (s, q)
  | .setRest =>
    match q.comp2memWrKey, q.comp2memWrMemData with
    | inputWord :: comp2memWrKey, inputWordMem :: comp2memWrMemData =>
      ({ s with state := if inputWord.eop then .idle else .setRest },
        { q with
          comp2memWrKey
          comp2memWrMemData
          memWrData := q.memWrData ++ [inputWordMem.setKey s.location inputWord.data]
          dec2cc := if inputWord.eop then q.dec2cc ++ [1] else q.dec2cc })
    | _, _ => (s, q)
  | .consume =>
    match q.comp2memWrKey, q.comp2memWrMemData with
    | inputWord :: comp2memWrKey, _ :: comp2memWrMemData =>
      ({ s with state := if inputWord.eop then .idle else .consume },
        { q with comp2memWrKey, comp2memWrMemData })
    | _, _ => (s, q)
  | .initMem => ({ s with state := .idle }, q)

/-! ## The memory -/

/-- `enum mState`. -/
inductive MemState
  | idle
  | access
  deriving DecidableEq

/-- The array of `bramModelHash`, its queue of commands and its static variables. -/
structure Bram where
  memArrayHashTable : ℕ → Word := fun _ ↦ 0
  aggregateMemCmd : List ExtMemCtrlWord := []
  state : MemState := .idle
  inputWord : ExtMemCtrlWord := ⟨0, 0, 0⟩

/-- `cmdAggregatorHash`. -/
def cmdAggregator (s : Bram) (q : Streams) : Bram × Streams :=
  match q.memWrCtrl with
  | ctrl :: memWrCtrl =>
    ({ s with aggregateMemCmd :=
                s.aggregateMemCmd ++ [⟨ctrl.address, ctrl.count.setWidth 6, 1⟩] },
      { q with memWrCtrl })
  | [] =>
    match q.memRdCtrl with
    | ctrl :: memRdCtrl =>
      ({ s with aggregateMemCmd :=
                  s.aggregateMemCmd ++ [⟨ctrl.address, ctrl.count.setWidth 6, 0⟩] },
        { q with memRdCtrl })
    | [] => (s, q)

/-- The command after its first cell. -/
def ExtMemCtrlWord.next (c : ExtMemCtrlWord) : ExtMemCtrlWord :=
  { c with count := c.count - 1, address := c.address + 1 }

/-- The state after a cell has been accessed. -/
def Bram.next (s : Bram) : Bram :=
  if s.inputWord.count = 1 then { s with state := .idle }
  else { s with inputWord := s.inputWord.next }

/-- `memAccessHash`. -/
def memAccess (s : Bram) (q : Streams) : Bram × Streams :=
  match s.state with
  | .idle =>
    match s.aggregateMemCmd with
    | [] => (s, q)
    | inputWord :: aggregateMemCmd =>
      ({ s with aggregateMemCmd, inputWord, state := .access }, q)
  | .access =>
    let address := s.inputWord.address.toNat
    if s.inputWord.rdOrWr = 0 then
      (s.next, { q with memRdData := q.memRdData ++ [s.memArrayHashTable address] })
    else
      match q.memWrData with
      | [] => (s, q)
      | data :: memWrData =>
        ({ s.next with
            memArrayHashTable := Function.update s.memArrayHashTable address data },
          { q with memWrData })

/-! ## The pipeline -/

/-- The state of the stages, and what is still to arrive. -/
structure Pipeline where
  words : List KeyWord
  mds : List InternalMd
  hashes : List (BitVec 32)
  cc : Concurrency := {}
  memRd : MemRdState := .idle
  cmp : Compare := {}
  memWr : MemWrite := {}
  bram : Bram := {}
  q : Streams := ⟨⟨[], [], [], [], [], []⟩, [], [], [], [], [], [], [], [], [], [], [], []⟩

/-- A word arrives on a stream, or a function is called. -/
inductive Pipeline.Event
  | word
  | md
  | hash
  | concurrencyControl
  | memRead
  | htCompare
  | memWrite
  | cmdAggregator
  | memAccess
  deriving DecidableEq

namespace Pipeline

variable (s : Pipeline)

def step : Event → Pipeline
  | .word =>
    match s.words with
    | [] => s
    | w :: words => { s with words, q := { s.q with in2cc := s.q.in2cc ++ [w] } }
  | .md =>
    match s.mds with
    | [] => s
    | m :: mds => { s with mds, q := { s.q with in2ccMd := s.q.in2ccMd ++ [m] } }
  | .hash =>
    match s.hashes with
    | [] => s
    | h :: hashes => { s with hashes, q := { s.q with hash2cc := s.q.hash2cc ++ [h] } }
  | .concurrencyControl =>
    let result := Memcached.concurrencyControl s.cc s.q.toCcStreams
    { s with cc := result.1, q := { s.q with toCcStreams := result.2 } }
  | .memRead =>
    let result := Memcached.memRead s.memRd s.q
    { s with memRd := result.1, q := result.2 }
  | .htCompare =>
    let result := htCompareStage s.cmp s.q
    { s with cmp := result.1, q := result.2 }
  | .memWrite =>
    let result := memWriteWithBuddy s.memWr s.q
    { s with memWr := result.1, q := result.2 }
  | .cmdAggregator =>
    let result := Memcached.cmdAggregator s.bram s.q
    { s with bram := result.1, q := result.2 }
  | .memAccess =>
    let result := Memcached.memAccess s.bram s.q
    { s with bram := result.1, q := result.2 }

end Pipeline

/-! ## Requests -/

/-- A key as it is sent: the last word is marked. -/
def keyWords : List (BitVec 128) → List KeyWord
  | [] => []
  | [w] => [⟨w, true⟩]
  | w :: v :: ws => ⟨w, false⟩ :: keyWords (v :: ws)

theorem marked_keyWords {ws : List (BitVec 128)} (h : ws ≠ []) :
    Marked (fun w : KeyWord ↦ w.eop = true) (keyWords ws) := by
  induction ws with
  | nil => exact absurd rfl h
  | cons w ws ih =>
    cases ws with
    | nil => rfl
    | cons v ws => exact marked_cons.mpr (.inr ⟨nofun, ih (List.cons_ne_nil _ _)⟩)

theorem map_data_keyWords (ws : List (BitVec 128)) : (keyWords ws).map KeyWord.data = ws := by
  induction ws with
  | nil => rfl
  | cons w ws ih =>
    cases ws with
    | nil => rfl
    | cons v ws => exact congrArg (w :: ·) ih

theorem keyWords_map_data {ws : List KeyWord} (h : Marked (fun w : KeyWord ↦ w.eop = true) ws) :
    keyWords (ws.map KeyWord.data) = ws := by
  induction ws with
  | nil => rfl
  | cons w ws ih =>
    obtain ⟨data, eop⟩ := w
    cases ws with
    | nil =>
      obtain rfl : eop = true := h
      rfl
    | cons v ws =>
      obtain ⟨hw, hws⟩ := h
      obtain rfl : eop = false := Bool.not_eq_true _ ▸ hw
      exact congrArg (⟨data, false⟩ :: ·) (ih hws)

theorem two_le_memCount {k : BitVec 8} (hk : k ≠ 0) : 2 ≤ (memCount k).toNat := by
  have hall : ∀ k : BitVec 8, k ≠ 0 → 2 ≤ (memCount k).toNat := by decide +kernel
  exact hall k hk

theorem SetRequest.key_ne_nil (r : SetRequest) : r.key ≠ [] := by
  have hle := two_le_memCount r.keyLength_ne
  rw [← r.length_key] at hle
  exact List.ne_nil_of_length_pos (Nat.le_of_succ_le_succ hle)

namespace TableRequest

variable (r : TableRequest)

/-- The request as it reaches `concurrencyControl`. -/
def toCc : CcRequest where
  md := ⟨r.op.code, 0, r.keyLength, r.valueLength⟩
  hash := r.metadata
  words := keyWords r.key
  marked := marked_keyWords r.key_ne_nil

end TableRequest

/-- The pipeline before anything has arrived, with one of the two versions of the filter. -/
def Pipeline.start (rs : List TableRequest) (enabled : Bool) : Pipeline where
  words := rs.flatMap fun r ↦ r.toCc.words
  mds := rs.map fun r ↦ r.toCc.md
  hashes := rs.map fun r ↦ r.toCc.hash
  cc := { hashFilter := { enabled } }

/-! ## Requests that wait for others -/

/-- A request does not change the bucket of another one. -/
def TableRequest.Spares (r r' : TableRequest) : Prop := r.op = .get ∨ r.bucket ≠ r'.bucket

instance (r r' : TableRequest) : Decidable (r.Spares r') := inferInstanceAs (Decidable (_ ∨ _))

namespace Pipeline

variable (rs : List TableRequest) (s : Pipeline)

/-- The number of requests that have been sent to the table. -/
def sent : ℕ := rs.length - s.mds.length

/-- The requests that have been sent and are not answered. -/
def pending : List TableRequest := (rs.take (s.sent rs)).drop s.q.memWr2out.length

/-- No request that is under way changes the bucket of a later one, or the filter sees to it. -/
def Apart : Prop :=
  s.cc.hashFilter.enabled = true ∨ (s.pending rs).Pairwise TableRequest.Spares

/-- A request is sent only when those that change its bucket have been answered, or the filter sees
to it. -/
def Waits (e : Event) : Prop :=
  s.cc.hashFilter.enabled = true ∨
    (e = .md → ∀ r' ∈ rs[s.sent rs]?, ∀ r ∈ s.pending rs, r.Spares r')

instance (e : Event) : Decidable (Waits rs s e) := inferInstanceAs (Decidable (_ ∨ _))

end Pipeline

end FpgaOs.Memcached
