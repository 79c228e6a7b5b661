import FpgaOs.Memcached.Buckets

/-!
# Deciding requests

`memWriteWithBuddy` decides a request when it has the head of the bucket. From then on what is
settled in memory is the table after this request, although most of the words of a `SET` are written
only as the key comes in. A request counts as completed when its last word has been sent to memory,
so `concurrencyControl` keeps a request to the same bucket back for long enough.
-/

namespace FpgaOs.Memcached

open Access Machine

section Inv

variable {h : HashTable} {rs : List TableRequest} {js : List Job} {p : Places} {s : Pipeline}

theorem Inv.complete (h' : Inv h rs js p s) (hlt : p.completed < p.read) :
    CcHolds (rs.map TableRequest.toCc) (p.completed + 1) s.words p.preWords s.mds
      ((js.take p.read).map Job.md) s.hashes
      (s.cc, { s.q.toCcStreams with dec2cc := s.q.dec2cc ++ [1] }) := by
  refine CcInv.complete h'.cc ?_
  rw [List.length_append, List.length_map, List.length_take_of_le h'.read_le]
  exact hlt.trans_le (Nat.le_add_right _ _)

theorem Inv.memWrite_begin (h' : Inv h rs js p s) (hstate : s.memWr.state = .idle)
    (hinit : s.memWr.memInitialized = true) (hbegun : p.wrMd = p.wr) (hkeys : p.wrKeys = [])
    (hdata : p.wrData = []) (howed : p.owed = []) (hcompleted : p.completed = p.wr)
    {inputWordMd : InternalMd} {mds : List InternalMd} {status : Bin → BinStatus}
    {statuses : List (Bin → BinStatus)} (hmds : s.q.comp2memWrMd = inputWordMd :: mds)
    (hstatus : s.q.comp2memWrStatus = status :: statuses) :
    ∃ p', Inv h rs js p' (s.step .memWrite) := by
  have hcmpMds := h'.cmpMds
  have hcmpStatus := h'.cmpStatus
  rw [hmds] at hcmpMds
  rw [hstatus] at hcmpStatus
  obtain ⟨j, hj⟩ := hcmpMds.exists_job
  have hlt : p.wrMd < p.cmpDone :=
    hcmpMds.lt (fun _ _ ↦ List.cons_ne_nil _ _) (List.getElem?_eq_some_iff.mp hj).1
  obtain ⟨rfl, hcmpMds'⟩ := (hcmpMds.begin_down hj).take
  obtain ⟨rfl, hcmpStatus'⟩ := (hcmpStatus.begin_down hj).take
  refine ⟨{ p with wrMd := p.wrMd + 1 }, ?_⟩
  rw [Pipeline.step, memWriteWithBuddy, hstate]
  dsimp only
  rw [if_pos hinit, hmds, hstatus]
  exact { h' with
    cmpMds := hcmpMds'
    cmpStatus := hcmpStatus'
    memWr := .eval j (hbegun ▸ hj) rfl rfl rfl (congrArg (· + 1) hbegun) hkeys hdata howed
      hcompleted
    wrMd_le := hlt }

/-- Commands for writing are given, with some of the words. -/
def Pipeline.issue (s : Pipeline) (ctrl : List MemCtrlWord) (data : List Word) : Pipeline :=
  { s with q := { s.q with
      memWrCtrl := s.q.memWrCtrl ++ ctrl
      memWrData := s.q.memWrData ++ data } }

section Issue

variable {ctrl : List MemCtrlWord} {cells : List ℕ} {data owed : List Word}

theorem Pipeline.commands_issue (s : Pipeline) :
    (s.issue ctrl data).commands = s.commands ++ ctrl.map (·.ext 1) := by
  rw [commands, issue]
  dsimp only
  rw [List.map_append, ← List.append_assoc]
  rfl

theorem Pipeline.accesses_issue (s : Pipeline)
    (hctrl : (ctrl.map (·.ext 1)).flatMap ExtMemCtrlWord.accesses = cells.map .write) :
    (s.issue ctrl data).accesses = s.accesses ++ cells.map .write := by
  rw [accesses, commands_issue, List.flatMap_append, hctrl]
  rfl

theorem Inv.length_data_issue (h' : Inv h rs js p s) (howed : p.owed = [])
    (hctrl : (ctrl.map (·.ext 1)).flatMap ExtMemCtrlWord.accesses = cells.map .write)
    (hlength : (data ++ owed).length = cells.length) :
    ((s.issue ctrl data).q.memWrData ++ owed).length = writes (s.issue ctrl data).accesses := by
  have hlengthData := h'.length_data
  rw [howed, List.append_nil] at hlengthData
  rw [s.accesses_issue hctrl, Pipeline.issue]
  dsimp only
  rw [List.append_assoc, List.length_append, hlengthData, hlength, writes_append, writes_map_write]

theorem Inv.settled_issue (h' : Inv h rs js p s) (howed : p.owed = [])
    (hctrl : (ctrl.map (·.ext 1)).flatMap ExtMemCtrlWord.accesses = cells.map .write) :
    ((s.issue ctrl data).port owed).settled = store (after h rs p.wr).mem cells (data ++ owed) := by
  have hlengthData := h'.length_data
  have hsettled := h'.settled
  rw [howed, List.append_nil] at hlengthData
  rw [howed, Pipeline.port, List.append_nil] at hsettled
  rw [Pipeline.port, s.accesses_issue hctrl, Pipeline.issue]
  dsimp only
  rw [List.append_assoc, settled_port_write hlengthData, hsettled]

theorem Inv.stream_issue (h' : Inv h rs js p s) (howed : p.owed = [])
    (hctrl : (ctrl.map (·.ext 1)).flatMap ExtMemCtrlWord.accesses = cells.map .write) :
    ((s.issue ctrl data).port owed).stream = (s.port p.owed).stream := by
  have hlengthData := h'.length_data
  rw [howed, List.append_nil] at hlengthData
  rw [Pipeline.port, s.accesses_issue hctrl, Pipeline.issue]
  dsimp only
  rw [List.append_assoc, stream_port_write hlengthData, howed, Pipeline.port, List.append_nil]

end Issue

/-- `memWriteWithBuddy` has the head of the bucket and is about to decide this request. -/
structure Deciding (h : HashTable) (rs : List TableRequest) (js : List Job) (p : Places)
    (s : Pipeline) (j : Job) (inputWordMem : Word) (rest : List Word) : Prop where
  inv : Inv h rs js p s
  job : js[p.wr]? = some j
  state : s.memWr.state = .eval
  md : s.memWr.inputWordMd = j.md
  status : s.memWr.inputStatusWord = j.status
  begun : p.wrMd = p.wr + 1
  keys : p.wrKeys = []
  data : p.wrData = []
  owed : p.owed = []
  completed : p.completed = p.wr
  mem : s.q.comp2memWrMemData = inputWordMem :: rest

section Deciding

variable {j : Job} {inputWordMem : Word} {rest : List Word}

theorem Deciding.table_eq (d : Deciding h rs js p s j inputWordMem rest) :
    j.table = after h rs p.wr ∧ after h rs (p.wr + 1) = (j.table.apply j.req).1 :=
  table_eq_after (d.inv.js_eq ▸ d.job)

theorem Deciding.nr_eq (d : Deciding h rs js p s j inputWordMem rest) :
    s.memWr.nr = j.table.nr := by rw [d.inv.nr, d.table_eq.1]

theorem Deciding.head_eq (d : Deciding h rs js p s j inputWordMem rest) :
    inputWordMem = j.table.mem (headAddress j.req.bucket)
      ∧ Link Job.data js rest p.cmpData p.cmp (j.table.saved j.req.toSetRequest) (p.wr + 1) := by
  have hcmpData := d.inv.cmpData
  rw [d.data] at hcmpData
  have hcmpData' := hcmpData.begin_down d.job
  rw [j.data_eq, d.mem] at hcmpData'
  exact hcmpData'.take

theorem Deciding.exists_completed (d : Deciding h rs js p s j inputWordMem rest) {m : MemWrite}
    {owed : List Word} {pops : List (BitVec 1)}
    (hwriting : (pops = [] ∧ Writing js m p.wrMd (p.wr + 1) j.words
        (j.table.saved j.req.toSetRequest) owed p.wr)
      ∨ (pops = [1] ∧ Writing js m p.wrMd (p.wr + 1) j.words
        (j.table.saved j.req.toSetRequest) owed (p.wr + 1))) :
    ∃ completed, CcHolds (rs.map TableRequest.toCc) completed s.words p.preWords s.mds
        ((js.take p.read).map Job.md) s.hashes
        (s.cc, { s.q.toCcStreams with dec2cc := s.q.dec2cc ++ pops })
      ∧ Writing js m p.wrMd (p.wr + 1) j.words (j.table.saved j.req.toSetRequest) owed
        completed := by
  rcases hwriting with ⟨rfl, hwriting⟩ | ⟨rfl, hwriting⟩
  · refine ⟨p.wr, ?_, hwriting⟩
    rw [List.append_nil, ← d.completed]
    exact d.inv.cc
  · have hlt : p.completed < p.read := by
      have hbegun := d.begun
      have hcompleted := d.completed
      have hwrMd := d.inv.wrMd_le
      have hcmpDone := d.inv.cmpDone_le
      have hasked := d.inv.asked_le
      omega
    have hcc := d.inv.complete hlt
    rw [d.completed] at hcc
    exact ⟨p.wr + 1, hcc, hwriting⟩

/-- **A request is decided.** Whatever is to be written for it is asked for now, and some of the
words may come later. -/
theorem Deciding.decide (d : Deciding h rs js p s j inputWordMem rest) (m : MemWrite)
    (ctrl : List MemCtrlWord) (cells : List ℕ) (data owed : List Word) (pops : List (BitVec 1))
    (hctrl : (ctrl.map (·.ext 1)).flatMap ExtMemCtrlWord.accesses = cells.map .write)
    (hfits : ∀ c ∈ ctrl, (c.ext 1).Fits) (hlength : (data ++ owed).length = cells.length)
    (hstore : (j.table.apply j.req).1.mem = store j.table.mem cells (data ++ owed))
    (hnr : m.nr = (j.table.apply j.req).1.nr)
    (hwriting : (pops = [] ∧ Writing js m p.wrMd (p.wr + 1) j.words
        (j.table.saved j.req.toSetRequest) owed p.wr)
      ∨ (pops = [1] ∧ Writing js m p.wrMd (p.wr + 1) j.words
        (j.table.saved j.req.toSetRequest) owed (p.wr + 1))) :
    ∃ p', Inv h rs js p' { s with
      memWr := m
      q := { s.q with
        dec2cc := s.q.dec2cc ++ pops
        comp2memWrMemData := rest
        memWrCtrl := s.q.memWrCtrl ++ ctrl
        memWrData := s.q.memWrData ++ data
        memWr2out := s.q.memWr2out ++ [j.answer.1]
        alloc := s.q.alloc ++ j.answer.2.toList } } := by
  have h' := d.inv
  obtain ⟨htable, hnext⟩ := d.table_eq
  have hcmpKeys := h'.cmpKeys
  rw [d.keys] at hcmpKeys
  obtain ⟨completed, hcc, hwriting⟩ := d.exists_completed hwriting
  refine ⟨{ p with
    wr := p.wr + 1
    wrKeys := j.words
    wrData := j.table.saved j.req.toSetRequest
    owed
    completed }, { h' with
    cc := hcc
    length_data := h'.length_data_issue d.owed hctrl hlength
    fits := fun c hc ↦ ?_
    settled := ?_
    stream := ?_
    cmpKeys := hcmpKeys.begin_down d.job
    cmpData := d.head_eq.2
    memWr := hwriting
    nr := hnr.trans (congrArg HashTable.nr hnext).symm
    out := ?_
    alloc := ?_ }⟩
  · have hissue : c ∈ (s.issue ctrl data).commands := hc
    rw [s.commands_issue] at hissue
    rcases List.mem_append.mp hissue with hc | hc
    · exact h'.fits c hc
    · obtain ⟨c', hc', rfl⟩ := List.mem_map.mp hc
      exact hfits c' hc'
  · refine (h'.settled_issue d.owed hctrl).trans ?_
    rw [← htable, ← hstore, hnext]
  · exact (h'.stream_issue d.owed hctrl).symm ▸ h'.stream
  · rw [List.take_add_one, d.job, Option.toList_some, List.map_append, h'.out]
    rfl
  · rw [List.take_add_one, d.job, Option.toList_some, List.filterMap_append, h'.alloc,
      List.filterMap_cons, List.filterMap_nil]
    cases j.answer.2 <;> rfl

theorem Deciding.memWrite_get (d : Deciding h rs js p s j inputWordMem rest)
    (hop : j.req.op = .get) : ∃ p', Inv h rs js p' (s.step .memWrite) := by
  have hcode : s.memWr.inputWordMd.operation = 0 := by rw [d.md]; exact congrArg Operation.code hop
  have happly : j.table.apply j.req = (j.table, j.table.get j.req.toSetRequest, none) := by
    rw [HashTable.apply, hop]
  have hdecide := d.decide
    { s.memWr with
      state := .consume
      location := (replaceLocation s.memWr.inputStatusWord).getD s.memWr.location }
    [] [] [] [] [1] rfl (List.forall_mem_nil _) rfl (by rw [happly]; rfl)
    (by rw [happly]; exact d.nr_eq)
    (.inr ⟨rfl, .consume rfl j.marked_words j.length_saved rfl d.begun rfl⟩)
  have hanswer : j.answer = (j.table.get j.req.toSetRequest, none) := by rw [Job.answer, happly]
  rw [hanswer, List.append_nil, List.append_nil] at hdecide
  rw [Pipeline.step, memWriteWithBuddy, d.state, d.mem]
  dsimp only
  rw [if_pos hcode, MemWrite.evalGet, hcode, d.head_eq.1]
  rw [HashTable.get, ← Job.status, ← d.status] at hdecide
  exact List.append_nil s.q.alloc ▸ hdecide

theorem Deciding.memWrite_refused (d : Deciding h rs js p s j inputWordMem rest)
    (hop : j.req.op = .set) (hloc : location j.status = none) :
    ∃ p', Inv h rs js p' (s.step .memWrite) := by
  have hcode : s.memWr.inputWordMd.operation = 1 := by rw [d.md]; exact congrArg Operation.code hop
  have happly : j.table.apply j.req
      = (j.table, { operation := Operation.set.code, status := 1 }, none) := by
    rw [HashTable.apply, hop]
    dsimp only
    rw [HashTable.set, ← Job.status, hloc]
    rfl
  have hdecide := d.decide
    { s.memWr with state := .consume } [] [] [] [] [1] rfl (List.forall_mem_nil _) rfl
    (by rw [happly]; rfl) (by rw [happly]; exact d.nr_eq)
    (.inr ⟨rfl, .consume rfl j.marked_words j.length_saved rfl d.begun rfl⟩)
  rw [Job.answer, happly, List.append_nil, List.append_nil] at hdecide
  rw [Pipeline.step, memWriteWithBuddy, d.state, d.mem]
  dsimp only
  rw [if_neg (by rw [hcode]; decide), if_pos hcode, MemWrite.evalSet,
    show location s.memWr.inputStatusWord = none by rw [d.status, hloc], hcode]
  exact List.append_nil s.q.alloc ▸ hdecide

/-- The cells of a bucket, as a command for writing has them. -/
theorem accesses_ext_one (j : Job) (hshort : j.req.Short) :
    ([j.memCtrl].map (·.ext 1)).flatMap ExtMemCtrlWord.accesses
      = (List.range' (headAddress j.req.bucket) (memCount j.req.keyLength).toNat).map .write := by
  have haddress : (j.memCtrl.ext 1).address.toNat = headAddress j.req.bucket :=
    toNat_tableAddress_eq _
  rw [List.map_singleton, List.flatMap_singleton, ExtMemCtrlWord.accesses, haddress,
    (toNat_count_ext j hshort 1).1]
  rfl

theorem Deciding.memWrite_setBin (d : Deciding h rs js p s j inputWordMem rest) (m : MemWrite)
    (hstate : m.state = .setRest) (a : BitVec 32)
    (hstore : (j.table.apply j.req).1.mem = (j.table.writeBin j.req.toSetRequest m.location a).mem)
    (hnr : m.nr = (j.table.apply j.req).1.nr) :
    ∃ p', Inv h rs js p' { s with
      memWr := m
      q := { s.q with
        dec2cc := s.q.dec2cc ++ []
        comp2memWrMemData := rest
        memWrCtrl := s.q.memWrCtrl ++ [j.memCtrl]
        memWrData := s.q.memWrData ++ [newHead inputWordMem m.location j.req.toSetRequest a]
        memWr2out := s.q.memWr2out ++ [j.answer.1]
        alloc := s.q.alloc ++ j.answer.2.toList } } := by
  have hshort := d.inv.short _ (mem_of_jobs (d.inv.js_eq ▸ d.job))
  have hlength : (newHead inputWordMem m.location j.req.toSetRequest a
      :: (j.table.saved j.req.toSetRequest).zipWith (·.setKey m.location ·) j.req.words).length
      = (memCount j.req.keyLength).toNat := by
    rw [List.length_cons, List.length_zipWith, Memcached.length_saved, j.req.length_words,
      Nat.min_self, j.req.length_key]
  refine d.decide m [j.memCtrl]
    (List.range' (headAddress j.req.bucket) (memCount j.req.keyLength).toNat) _
    ((j.table.saved j.req.toSetRequest).zipWith (·.setKey m.location ·) j.req.words) []
    (accesses_ext_one j hshort) ?_ ?_ ?_ hnr
    (.inl ⟨rfl, .setRest hstate j.marked_words j.length_saved ?_ d.begun rfl⟩)
  · intro c hc
    rw [List.mem_singleton.mp hc]
    exact fits_ext j hshort 1
  · rw [List.singleton_append, hlength, List.length_range']
  · rw [hstore, HashTable.writeBin, mem_writeWords_eq_store, ← d.head_eq.1, hlength]
    rfl
  · rw [j.map_data_words]

theorem Deciding.memWrite_set (d : Deciding h rs js p s j inputWordMem rest)
    (hop : j.req.op = .set) : ∃ p', Inv h rs js p' (s.step .memWrite) := by
  have hcode : s.memWr.inputWordMd.operation = 1 := by rw [d.md]; exact congrArg Operation.code hop
  cases hloc : location j.status with
  | none => exact d.memWrite_refused hop hloc
  | some i =>
    have hloc' : location s.memWr.inputStatusWord = some i := by rw [d.status, hloc]
    have hctrl : (⟨tableAddress s.memWr.inputWordMd.metadata,
        memCount s.memWr.inputWordMd.keyLength⟩ : MemCtrlWord) = j.memCtrl := by rw [d.md]; rfl
    have hnew : ∀ k a, s.memWr.setHead inputWordMem k a
        = newHead inputWordMem k j.req.toSetRequest a := fun k a ↦ by
      rw [MemWrite.setHead, d.md]
      rfl
    have hlength : s.memWr.inputWordMd.valueLength = j.req.valueLength := by rw [d.md]; rfl
    cases hrep : replaceLocation j.status with
    | some k =>
      have hrep' : replaceLocation s.memWr.inputStatusWord = some k := by rw [d.status, hrep]
      have happly : j.table.apply j.req
          = (j.table.writeBin j.req.toSetRequest k (inputWordMem.get (.address k)),
            { address := inputWordMem.get (.address k), operation := Operation.set.code,
              status := 0 }, none) := by
        rw [HashTable.apply, hop]
        dsimp only
        rw [HashTable.set, ← Job.status, hloc, hrep, d.head_eq.1]
        rfl
      have hset := d.memWrite_setBin
        { s.memWr with state := .setRest, location := k } rfl (inputWordMem.get (.address k))
        (by rw [happly]) (by rw [happly]; exact d.nr_eq)
      rw [Job.answer, happly] at hset
      rw [Pipeline.step, memWriteWithBuddy, d.state, d.mem]
      dsimp only
      rw [if_neg (by rw [hcode]; decide), if_pos hcode, MemWrite.evalSet, hloc', hrep', hcode]
      dsimp only at hset ⊢
      rw [hctrl, hnew]
      rw [List.append_nil] at hset
      exact List.append_nil s.q.alloc ▸ hset
    | none =>
      have hrep' : replaceLocation s.memWr.inputStatusWord = none := by rw [d.status, hrep]
      have happly : j.table.apply j.req
          = ({ j.table.writeBin j.req.toSetRequest i (dummyAllocator s.memWr.nr) with
                nr := j.table.nr + 1 },
            { address := dummyAllocator s.memWr.nr, operation := Operation.set.code,
              status := 0 }, some (.alloc (orderOf j.req.valueLength))) := by
        rw [HashTable.apply, hop]
        dsimp only
        rw [HashTable.set, ← Job.status, hloc, hrep, d.nr_eq]
        rfl
      have hset := d.memWrite_setBin
        { s.memWr with state := .setRest, location := i, nr := s.memWr.nr + 1 } rfl
        (dummyAllocator s.memWr.nr) (by rw [happly]) (by rw [happly, d.nr_eq])
      rw [Job.answer, happly] at hset
      rw [Pipeline.step, memWriteWithBuddy, d.state, d.mem]
      dsimp only
      rw [if_neg (by rw [hcode]; decide), if_pos hcode, MemWrite.evalSet, hloc', hrep', hcode]
      dsimp only at hset ⊢
      rw [hctrl, hnew, hlength]
      rw [List.append_nil] at hset
      exact hset

theorem Deciding.memWrite_delete (d : Deciding h rs js p s j inputWordMem rest)
    (hop : j.req.op = .delete) : ∃ p', Inv h rs js p' (s.step .memWrite) := by
  have hcode : s.memWr.inputWordMd.operation = 4 := by rw [d.md]; exact congrArg Operation.code hop
  have happly : j.table.apply j.req = j.table.delete j.req.toSetRequest := by
    rw [HashTable.apply, hop]
  rw [Pipeline.step, memWriteWithBuddy, d.state, d.mem]
  dsimp only
  rw [if_neg (by rw [hcode]; decide), if_neg (by rw [hcode]; decide), if_pos hcode,
    MemWrite.evalDelete, hcode]
  cases hdel : deleteLocation j.status with
  | none =>
    rw [HashTable.delete, ← Job.status, hdel] at happly
    have hdecide := d.decide
      { s.memWr with state := .consume } [] [] [] [] [1] rfl (List.forall_mem_nil _) rfl
      (by rw [happly]; rfl) (by rw [happly, d.nr_eq])
      (.inr ⟨rfl, .consume rfl j.marked_words j.length_saved rfl d.begun rfl⟩)
    rw [Job.answer, happly, List.append_nil, List.append_nil] at hdecide
    rw [show deleteLocation s.memWr.inputStatusWord = none by rw [d.status, hdel]]
    exact List.append_nil s.q.alloc ▸ hdecide
  | some i =>
    rw [HashTable.delete, ← Job.status, hdel] at happly
    have haddress : (tableAddress s.memWr.inputWordMd.metadata).toNat
        = headAddress j.req.bucket := by
      rw [d.md]
      exact toNat_tableAddress_eq _
    have hbucket := j.req.bucket.isLt
    have hdecide := d.decide
      { s.memWr with state := .consume, location := i }
      [⟨tableAddress s.memWr.inputWordMd.metadata, 1⟩] [headAddress j.req.bucket]
      [(inputWordMem.set (.keyLength i) 0).set (.valueLength i) 0] [] [1]
      (by rw [← haddress]; rfl)
      (by
        intro c hc
        rw [List.mem_singleton.mp hc]
        refine ⟨(by decide : 0 < ((1 : BitVec 8).setWidth 6).toNat), ?_⟩
        have hle : headAddress j.req.bucket + 1 ≤ 2 ^ 32 := by rw [headAddress]; omega
        rwa [← haddress] at hle)
      rfl (by rw [happly, d.head_eq.1]; exact mem_writeWords_eq_store _ _ _)
      (by rw [happly]; exact d.nr_eq)
      (.inr ⟨rfl, .consume rfl j.marked_words j.length_saved rfl d.begun rfl⟩)
    rw [Job.answer, happly] at hdecide
    rw [show deleteLocation s.memWr.inputStatusWord = some i by rw [d.status, hdel]]
    rw [← d.head_eq.1] at hdecide
    exact hdecide

/-- The head of the bucket decides about a request. -/
theorem Deciding.memWrite (d : Deciding h rs js p s j inputWordMem rest) :
    ∃ p', Inv h rs js p' (s.step .memWrite) := by
  cases hop : j.req.op with
  | get => exact d.memWrite_get hop
  | set => exact d.memWrite_set hop
  | delete => exact d.memWrite_delete hop

end Deciding

theorem Inv.memWrite_setRest (h' : Inv h rs js p s) (hstate : s.memWr.state = .setRest)
    (hmarked : Marked (fun w : KeyWord ↦ w.eop = true) p.wrKeys)
    (hlength : p.wrData.length = p.wrKeys.length)
    (howed : p.owed = p.wrData.zipWith (·.setKey s.memWr.location ·) (p.wrKeys.map KeyWord.data))
    (hbegun : p.wrMd = p.wr) (hcompleted : p.completed + 1 = p.wr) {inputWord : KeyWord}
    {words : List KeyWord} {inputWordMem : Word} {rest : List Word}
    (hword : s.q.comp2memWrKey = inputWord :: words)
    (hmem : s.q.comp2memWrMemData = inputWordMem :: rest) :
    ∃ p', Inv h rs js p' (s.step .memWrite) := by
  obtain ⟨k, ks, hkeys⟩ := List.exists_cons_of_ne_nil hmarked.ne_nil
  rw [hkeys] at hmarked hlength howed
  obtain ⟨d, ds, hdata⟩ : ∃ d ds, p.wrData = d :: ds :=
    List.exists_cons_of_length_eq_add_one hlength
  rw [hdata] at hlength howed
  have hcmpKeys := h'.cmpKeys
  have hcmpData := h'.cmpData
  rw [hkeys, hword] at hcmpKeys
  rw [hdata, hmem] at hcmpData
  obtain ⟨rfl, hcmpKeys'⟩ := hcmpKeys.take
  obtain ⟨rfl, hcmpData'⟩ := hcmpData.take
  rw [List.map_cons, List.zipWith_cons_cons] at howed
  have hlengthData := h'.length_data
  have hsettled := h'.settled
  have hstream := h'.stream
  rw [howed, ← List.singleton_append, ← List.append_assoc] at hlengthData
  rw [howed, Pipeline.port, ← List.singleton_append, ← List.append_assoc] at hsettled hstream
  rw [Pipeline.step, memWriteWithBuddy, hstate, hword, hmem]
  dsimp only
  obtain ⟨rfl, hlast⟩ | ⟨hlast, hm⟩ := marked_cons.mp hmarked
  · have hnil : ds = [] := List.length_eq_zero_iff.mp (Nat.succ.inj hlength)
    have hread : p.completed < p.read := by
      have hwrMd := h'.wrMd_le
      have hcmpDone := h'.cmpDone_le
      have hasked := h'.asked_le
      omega
    refine ⟨{ p with
      wrKeys := []
      wrData := ds
      owed := ds.zipWith (·.setKey s.memWr.location ·) []
      completed := p.completed + 1 }, ?_⟩
    rw [if_pos hlast, if_pos hlast]
    exact { h' with
      cc := h'.complete hread
      length_data := hlengthData
      settled := hsettled
      stream := hstream
      cmpKeys := hcmpKeys'
      cmpData := hcmpData'
      memWr := .idle (.inl rfl) hbegun rfl hnil (by rw [hnil]; rfl) hcompleted }
  · refine ⟨{ p with
      wrKeys := ks
      wrData := ds
      owed := ds.zipWith (·.setKey s.memWr.location ·) (ks.map KeyWord.data) }, ?_⟩
    rw [if_neg hlast, if_neg hlast]
    exact { h' with
      length_data := hlengthData
      settled := hsettled
      stream := hstream
      cmpKeys := hcmpKeys'
      cmpData := hcmpData'
      memWr := .setRest rfl hm (Nat.succ.inj hlength) rfl hbegun hcompleted }

theorem Inv.memWrite_consume (h' : Inv h rs js p s) (hstate : s.memWr.state = .consume)
    (hmarked : Marked (fun w : KeyWord ↦ w.eop = true) p.wrKeys)
    (hlength : p.wrData.length = p.wrKeys.length) (howed : p.owed = []) (hbegun : p.wrMd = p.wr)
    (hcompleted : p.completed = p.wr) {inputWord : KeyWord} {words : List KeyWord}
    {inputWordMem : Word} {rest : List Word} (hword : s.q.comp2memWrKey = inputWord :: words)
    (hmem : s.q.comp2memWrMemData = inputWordMem :: rest) :
    ∃ p', Inv h rs js p' (s.step .memWrite) := by
  obtain ⟨k, ks, hkeys⟩ := List.exists_cons_of_ne_nil hmarked.ne_nil
  rw [hkeys] at hmarked hlength
  obtain ⟨d, ds, hdata⟩ : ∃ d ds, p.wrData = d :: ds :=
    List.exists_cons_of_length_eq_add_one hlength
  rw [hdata] at hlength
  have hcmpKeys := h'.cmpKeys
  have hcmpData := h'.cmpData
  rw [hkeys, hword] at hcmpKeys
  rw [hdata, hmem] at hcmpData
  obtain ⟨rfl, hcmpKeys'⟩ := hcmpKeys.take
  refine ⟨{ p with wrKeys := ks, wrData := ds }, ?_⟩
  rw [Pipeline.step, memWriteWithBuddy, hstate, hword, hmem]
  dsimp only
  obtain ⟨rfl, hlast⟩ | ⟨hlast, hm⟩ := marked_cons.mp hmarked
  · rw [if_pos hlast]
    exact { h' with
      cmpKeys := hcmpKeys'
      cmpData := hcmpData.take.2
      memWr := .idle (.inl rfl) hbegun rfl (List.length_eq_zero_iff.mp (Nat.succ.inj hlength)) howed
        hcompleted }
  · rw [if_neg hlast]
    exact { h' with
      cmpKeys := hcmpKeys'
      cmpData := hcmpData.take.2
      memWr := .consume rfl hm (Nat.succ.inj hlength) howed hbegun hcompleted }

theorem Inv.memWrite_idle (h' : Inv h rs js p s) (hstate : s.memWr.state = .idle)
    (hbegun : p.wrMd = p.wr) (hkeys : p.wrKeys = []) (hdata : p.wrData = []) (howed : p.owed = [])
    (hcompleted : p.completed = p.wr) : ∃ p', Inv h rs js p' (s.step .memWrite) := by
  by_cases hinit : s.memWr.memInitialized = true
  · cases hmds : s.q.comp2memWrMd with
    | nil =>
      refine ⟨p, ?_⟩
      rw [Pipeline.step, memWriteWithBuddy, hstate]
      dsimp only
      rw [if_pos hinit, hmds]
      exact h'
    | cons md mds =>
      cases hstatus : s.q.comp2memWrStatus with
      | nil =>
        refine ⟨p, ?_⟩
        rw [Pipeline.step, memWriteWithBuddy, hstate]
        dsimp only
        rw [if_pos hinit, hmds, hstatus]
        exact h'
      | cons status statuses =>
        exact h'.memWrite_begin hstate hinit hbegun hkeys hdata howed hcompleted hmds hstatus
  · refine ⟨p, ?_⟩
    rw [Pipeline.step, memWriteWithBuddy, hstate]
    dsimp only
    rw [if_neg hinit]
    exact { h' with memWr := .idle (.inr rfl) hbegun hkeys hdata howed hcompleted }

theorem Inv.memWrite (h' : Inv h rs js p s) : ∃ p', Inv h rs js p' (s.step .memWrite) := by
  cases h'.memWr with
  | idle hstate hbegun hkeys hdata howed hcompleted =>
    rcases hstate with hstate | hstate
    · exact h'.memWrite_idle hstate hbegun hkeys hdata howed hcompleted
    · refine ⟨p, ?_⟩
      rw [Pipeline.step, memWriteWithBuddy, hstate]
      exact { h' with memWr := .idle (.inl rfl) hbegun hkeys hdata howed hcompleted }
  | eval j hj hstate hmd hstatus hbegun hkeys hdata howed hcompleted =>
    cases hmem : s.q.comp2memWrMemData with
    | nil =>
      refine ⟨p, ?_⟩
      rw [Pipeline.step, memWriteWithBuddy, hstate, hmem]
      exact h'
    | cons inputWordMem rest =>
      exact Deciding.memWrite
        ⟨h', hj, hstate, hmd, hstatus, hbegun, hkeys, hdata, howed, hcompleted, hmem⟩
  | setRest hstate hmarked hlength howed hbegun hcompleted =>
    cases hword : s.q.comp2memWrKey with
    | nil =>
      refine ⟨p, ?_⟩
      rw [Pipeline.step, memWriteWithBuddy, hstate, hword]
      exact h'
    | cons inputWord words =>
      cases hmem : s.q.comp2memWrMemData with
      | nil =>
        refine ⟨p, ?_⟩
        rw [Pipeline.step, memWriteWithBuddy, hstate, hword, hmem]
        exact h'
      | cons inputWordMem rest =>
        exact h'.memWrite_setRest hstate hmarked hlength howed hbegun hcompleted hword hmem
  | consume hstate hmarked hlength howed hbegun hcompleted =>
    cases hword : s.q.comp2memWrKey with
    | nil =>
      refine ⟨p, ?_⟩
      rw [Pipeline.step, memWriteWithBuddy, hstate, hword]
      exact h'
    | cons inputWord words =>
      cases hmem : s.q.comp2memWrMemData with
      | nil =>
        refine ⟨p, ?_⟩
        rw [Pipeline.step, memWriteWithBuddy, hstate, hword, hmem]
        exact h'
      | cons inputWordMem rest =>
        exact h'.memWrite_consume hstate hmarked hlength howed hbegun hcompleted hword hmem

/-! ## Requests stay apart -/

theorem enabled_step (s : Pipeline) (e : Pipeline.Event) :
    (s.step e).cc.hashFilter.enabled = s.cc.hashFilter.enabled := by
  cases e with
  | concurrencyControl => exact enabled_concurrencyControl s.cc s.q.toCcStreams
  | word => rw [Pipeline.step]; split <;> rfl
  | md => rw [Pipeline.step]; split <;> rfl
  | hash => rw [Pipeline.step]; split <;> rfl
  | _ => rfl

theorem memWr2out_prefix_memWrite (s : MemWrite) (q : Streams) :
    q.memWr2out <+: (memWriteWithBuddy s q).2.memWr2out := by
  rw [memWriteWithBuddy]
  split
  · split
    · split <;> exact List.prefix_rfl
    · exact List.prefix_rfl
  · split
    · exact List.prefix_rfl
    · split
      · exact List.prefix_append _ _
      split
      · rw [MemWrite.evalSet]
        split <;> exact List.prefix_append _ _
      split
      · rw [MemWrite.evalDelete]
        split <;> exact List.prefix_append _ _
      · exact List.prefix_rfl
  · split <;> exact List.prefix_rfl
  · split <;> exact List.prefix_rfl
  · exact List.prefix_rfl

theorem memWr2out_prefix_step (s : Pipeline) (e : Pipeline.Event) :
    s.q.memWr2out <+: (s.step e).q.memWr2out := by
  cases e with
  | memWrite => exact memWr2out_prefix_memWrite s.memWr s.q
  | memRead =>
    rw [Pipeline.step]
    cases s.memRd <;> rw [Memcached.memRead] <;> split <;> exact List.prefix_rfl
  | htCompare =>
    rw [Pipeline.step, htCompareStage]
    (repeat' split) <;> exact List.prefix_rfl
  | cmdAggregator =>
    rw [Pipeline.step, Memcached.cmdAggregator]
    (repeat' split) <;> exact List.prefix_rfl
  | memAccess =>
    rw [Pipeline.step, Memcached.memAccess]
    (repeat' split) <;> exact List.prefix_rfl
  | concurrencyControl => exact List.prefix_rfl
  | word => rw [Pipeline.step]; split <;> exact List.prefix_rfl
  | md => rw [Pipeline.step]; split <;> exact List.prefix_rfl
  | hash => rw [Pipeline.step]; split <;> exact List.prefix_rfl

theorem mds_step (s : Pipeline) {e : Pipeline.Event} (he : e ≠ .md) : (s.step e).mds = s.mds := by
  cases e with
  | md => exact absurd rfl he
  | word => rw [Pipeline.step]; split <;> rfl
  | hash => rw [Pipeline.step]; split <;> rfl
  | _ => rfl

/-- Without a new request, there are only fewer under way. -/
theorem pending_step (s : Pipeline) {e : Pipeline.Event} (he : e ≠ .md) :
    ((s.step e).pending rs).Sublist (s.pending rs) := by
  rw [Pipeline.pending, Pipeline.pending, Pipeline.sent, mds_step s he]
  exact (List.drop_suffix_drop_left _ (memWr2out_prefix_step s e).length_le).sublist

theorem pending_step_md (s : Pipeline) (hle : s.mds.length ≤ rs.length) :
    (s.step .md).pending rs = s.pending rs
      ∨ ((s.step .md).pending rs).Sublist (s.pending rs ++ rs[s.sent rs]?.toList) := by
  cases hmds : s.mds with
  | nil =>
    refine .inl ?_
    rw [Pipeline.step, hmds]
  | cons m mds =>
    right
    have hsent : rs.length - mds.length = s.sent rs + 1 := by
      rw [hmds, List.length_cons] at hle
      rw [Pipeline.sent, hmds, List.length_cons]
      omega
    rw [Pipeline.step, hmds, Pipeline.pending, Pipeline.sent]
    dsimp only
    rw [hsent, List.take_add_one, List.drop_append]
    exact (List.Sublist.refl _).append (List.drop_sublist _ _)

theorem Inv.apart_step (h' : Inv h rs js p s) (hapart : s.Apart rs) {e : Pipeline.Event}
    (hwaits : s.Waits rs e) : (s.step e).Apart rs := by
  rw [Pipeline.Apart, enabled_step]
  rcases hapart with hen | hpending
  · exact .inl hen
  refine hwaits.imp_right fun hwaits ↦ ?_
  by_cases he : e = .md
  · subst he
    have hle : s.mds.length ≤ rs.length := by
      have hle := (Nat.le_add_left _ _).trans (CcInv.length_le h'.cc)
      rw [List.length_append, List.length_map] at hle
      exact (Nat.le_add_left _ _).trans hle
    rcases pending_step_md s hle with heq | hsub
    · rwa [heq]
    · refine List.Pairwise.sublist hsub (List.pairwise_append.mpr ⟨hpending, ?_, ?_⟩)
      · cases rs[s.sent rs]? with
        | none => exact .nil
        | some _ => exact List.pairwise_singleton _ _
      · exact fun r hr r' hr' ↦ hwaits rfl r' (Option.mem_toList.mp hr') r hr
  · exact hpending.sublist (pending_step s he)

/-- **A step.** -/
theorem Inv.step (h' : Inv h rs js p s) (hapart : s.Apart rs) (e : Pipeline.Event) :
    ∃ p', Inv h rs js p' (s.step e) := by
  cases e with
  | word => exact ⟨p, h'.word⟩
  | md => exact ⟨p, h'.md⟩
  | hash => exact ⟨p, h'.hash⟩
  | concurrencyControl => exact ⟨p, h'.concurrencyControl⟩
  | memRead => exact h'.memRead
  | htCompare => exact h'.htCompare
  | memWrite => exact h'.memWrite
  | cmdAggregator => exact h'.cmdAggregator hapart
  | memAccess => exact ⟨p, h'.memAccess⟩

/-- The stages are somewhere, and the requests that are under way are apart. -/
structure Kept (h : HashTable) (rs : List TableRequest) (s : Pipeline) : Prop where
  inv : ∃ p, Inv h rs (jobs h rs) p s
  apart : s.Apart rs

theorem Kept.start (enabled : Bool) (hshort : ∀ r ∈ rs, r.Short) (hmem : h.mem = fun _ ↦ 0)
    (hnr : h.nr = 0) : Kept h rs (.start rs enabled) where
  inv := ⟨{}, .start h rs enabled hshort hmem hnr⟩
  apart := by
    have hsent : (Pipeline.start rs enabled).sent rs = 0 := by
      rw [Pipeline.sent, Pipeline.start, List.length_map, Nat.sub_self]
    rw [Pipeline.Apart, Pipeline.pending, hsent]
    exact .inr .nil

theorem Kept.step (h' : Kept h rs s) {e : Pipeline.Event} (hwaits : s.Waits rs e) :
    Kept h rs (s.step e) := by
  obtain ⟨p, hinv⟩ := h'.inv
  exact ⟨hinv.step h'.apart e, hinv.apart_step h'.apart hwaits⟩

/-- With the filter enabled no request has to wait. -/
theorem waits_of_enabled (rs : List TableRequest) (es : List Pipeline.Event) :
    Guarded Pipeline.step (Pipeline.Waits rs) (.start rs true) es := by
  have hany : Guarded Pipeline.step (fun _ _ ↦ True) (.start rs true) es :=
    guarded_of_forall fun _ _ ↦ trivial
  let inv : Pipeline → Prop := fun s ↦ s.cc.hashFilter.enabled = true
  exact Guarded.imp (fun s e (hen : inv s) _ ↦ (enabled_step s e).trans hen)
    (fun _ _ hen _ ↦ .inl hen) rfl hany

end Inv

end FpgaOs.Memcached
