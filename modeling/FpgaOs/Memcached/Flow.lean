import FpgaOs.Lib.Links
import FpgaOs.Memcached.Jobs

/-!
# What flows through the pipeline

`Inv` says where each stage is in the list of jobs and what is between any two of them. Between the
stages there are only queues, and each of them is a `Link`. The memory is a `Port`: what is settled
there is the table after all requests that have been decided, and what it will still return is what
the commands that have been read ask for.

The one place where the stages are not just one behind the other is where the aggregator takes a
command for reading. All writes that have been asked for go first, so the bucket is read as the
decided requests leave it. The requests that are not decided and come before the one that reads
have to spare it. If they do is no matter of the stages: either the filter sees to it, or those who
send requests do (`Pipeline.Apart`).
-/

namespace FpgaOs.Memcached

open Access Machine

/-! ## Where the stages are -/

/-- How far the stages are. The words that a stage has left of the job it is at are listed. -/
structure Places where
  /-- All words that `memRead` has taken. -/
  preWords : List KeyWord := []
  /-- The requests that `memRead` has begun with. -/
  read : ℕ := 0
  readRest : List KeyWord := []
  /-- The commands for reading that the aggregator has taken. -/
  asked : ℕ := 0
  /-- The requests that `ht_compare` has begun with. -/
  cmp : ℕ := 0
  cmpKeys : List KeyWord := []
  cmpData : List Word := []
  /-- Those that it has compared. -/
  cmpDone : ℕ := 0
  /-- The requests that `memWriteWithBuddy` has begun with. -/
  wrMd : ℕ := 0
  /-- Those that it has decided. -/
  wr : ℕ := 0
  wrKeys : List KeyWord := []
  wrData : List Word := []
  /-- The words that it has still to write. -/
  owed : List Word := []
  completed : ℕ := 0

/-- `ht_compare` waits for a request, for the words of its bucket, or compares them. -/
inductive Comparing (js : List Job) (s : Compare) (done begun : ℕ) (keys : List KeyWord)
    (data : List Word) : Prop
  | idle (state : s.state = .idle) (begun_eq : begun = done) (keys_eq : keys = [])
    (data_eq : data = [])
  | head (j : Job) (hj : js[done]? = some j) (state : s.state = .head) (md : s.inDataMd = j.md)
    (keyLength : s.keyLength = j.req.keyLength)
    (status : s.statusOutput = fun _ ↦ ⟨false, false⟩) (begun_eq : begun = done + 1)
    (keys_eq : keys = j.words) (data_eq : data = j.data)
  | compare (j : Job) (hj : js[done]? = some j) (state : s.state = .compare)
    (md : s.inDataMd = j.md) (keyLength_ne : s.keyLength ≠ 0)
    (length_le : keys.length ≤ j.words.length)
    (length_keys : keys.length + 1 = (memCount s.keyLength).toNat)
    (length_data : data.length = keys.length)
    (status : (data.zip (keys.map KeyWord.data)).foldl
      (fun status x ↦ compareWord status x.1 x.2) s.statusOutput = j.status)
    (begun_eq : begun = done + 1)

/-- `memWriteWithBuddy` waits for a request, decides it, writes the keys back or drops them. -/
inductive Writing (js : List Job) (s : MemWrite) (begun decided : ℕ) (keys : List KeyWord)
    (data owed : List Word) (completed : ℕ) : Prop
  | idle (state : s.state = .idle ∨ s.state = .initMem) (begun_eq : begun = decided)
    (keys_eq : keys = []) (data_eq : data = []) (owed_eq : owed = [])
    (completed_eq : completed = decided)
  | eval (j : Job) (hj : js[decided]? = some j) (state : s.state = .eval)
    (md : s.inputWordMd = j.md) (status : s.inputStatusWord = j.status)
    (begun_eq : begun = decided + 1) (keys_eq : keys = []) (data_eq : data = [])
    (owed_eq : owed = []) (completed_eq : completed = decided)
  | setRest (state : s.state = .setRest) (marked : Marked (fun w : KeyWord ↦ w.eop = true) keys)
    (length_data : data.length = keys.length)
    (owed_eq : owed = data.zipWith (·.setKey s.location ·) (keys.map KeyWord.data))
    (begun_eq : begun = decided) (completed_eq : completed + 1 = decided)
  | consume (state : s.state = .consume) (marked : Marked (fun w : KeyWord ↦ w.eop = true) keys)
    (length_data : data.length = keys.length) (owed_eq : owed = []) (begun_eq : begun = decided)
    (completed_eq : completed = decided)

/-! ## The memory -/

def MemCtrlWord.ext (c : MemCtrlWord) (rdOrWr : BitVec 1) : ExtMemCtrlWord :=
  ⟨c.address, c.count.setWidth 6, rdOrWr⟩

namespace ExtMemCtrlWord

/-- The cells that a command accesses. -/
def accesses (c : ExtMemCtrlWord) : List (Access ℕ) :=
  (List.range' c.address.toNat c.count.toNat).map fun a ↦
    if c.rdOrWr = 0 then .read a else .write a

/-- The addresses of a command do not wrap. -/
structure Fits (c : ExtMemCtrlWord) : Prop where
  pos : 0 < c.count.toNat
  le : c.address.toNat + c.count.toNat ≤ 2 ^ 32

end ExtMemCtrlWord

/-- The commands that the memory has not finished. -/
def Bram.commands (b : Bram) : List ExtMemCtrlWord :=
  (if b.state = .access then [b.inputWord] else []) ++ b.aggregateMemCmd

namespace Pipeline

variable (s : Pipeline)

/-- The commands that are in the memory or will be there before the next one for reading. -/
def commands : List ExtMemCtrlWord := s.bram.commands ++ s.q.memWrCtrl.map (·.ext 1)

def accesses : List (Access ℕ) := s.commands.flatMap ExtMemCtrlWord.accesses

/-- The memory, with words that are still to be written. -/
def port (owed : List Word) : Port ℕ Word :=
  Access.port s.bram.memArrayHashTable s.accesses (s.q.memWrData ++ owed) s.q.memRdData

end Pipeline

/-! ## The invariant -/

/-- The stages are at these places, and between them is what should be there. -/
structure Inv (h : HashTable) (rs : List TableRequest) (js : List Job) (p : Places) (s : Pipeline) :
    Prop where
  js_eq : js = jobs h rs
  short : ∀ r ∈ rs, r.Short
  cc : CcHolds (rs.map TableRequest.toCc) p.completed s.words p.preWords s.mds
    ((js.take p.read).map Job.md) s.hashes (s.cc, s.q.toCcStreams)
  preWords_eq : p.preWords ++ (p.readRest ++ (js.drop p.read).flatMap fun j ↦ j.req.toCc.words)
    = js.flatMap fun j ↦ j.req.toCc.words
  memRd : s.memRd = .idle ∧ p.readRest = []
    ∨ s.memRd = .stream ∧ Marked (fun w : KeyWord ↦ w.eop = true) p.readRest
  readKeys : Link Job.words js s.q.memRd2comp p.readRest p.read p.cmpKeys p.cmp
  readMds : Link (fun j ↦ [j.md]) js s.q.memRd2compMd [] p.read [] p.cmp
  readCtrl : Link (fun j ↦ [j.memCtrl]) js s.q.memRdCtrl [] p.read [] p.asked
  length_data : (s.q.memWrData ++ p.owed).length = writes s.accesses
  fits : ∀ c ∈ s.commands, c.Fits
  settled : (s.port p.owed).settled = (after h rs p.wr).mem
  stream : Link Job.data js (s.port p.owed).stream [] p.asked p.cmpData p.cmp
  cmp : Comparing js s.cmp p.cmpDone p.cmp p.cmpKeys p.cmpData
  cmpKeys : Link Job.words js s.q.comp2memWrKey p.cmpKeys p.cmp p.wrKeys p.wr
  cmpData : Link Job.data js s.q.comp2memWrMemData p.cmpData p.cmp p.wrData p.wr
  cmpMds : Link (fun j ↦ [j.md]) js s.q.comp2memWrMd [] p.cmpDone [] p.wrMd
  cmpStatus : Link (fun j ↦ [j.status]) js s.q.comp2memWrStatus [] p.cmpDone [] p.wrMd
  memWr : Writing js s.memWr p.wrMd p.wr p.wrKeys p.wrData p.owed p.completed
  nr : s.memWr.nr = (after h rs p.wr).nr
  out : s.q.memWr2out = (js.take p.wr).map fun j ↦ j.answer.1
  alloc : s.q.alloc = (js.take p.wr).filterMap fun j ↦ j.answer.2
  wrMd_le : p.wrMd ≤ p.cmpDone
  cmpDone_le : p.cmpDone ≤ p.asked
  asked_le : p.asked ≤ p.read
  read_le : p.read ≤ js.length

section Inv

variable {h : HashTable} {rs : List TableRequest} {js : List Job} {p : Places} {s : Pipeline}

theorem Inv.start (h : HashTable) (rs : List TableRequest) (enabled : Bool)
    (hshort : ∀ r ∈ rs, r.Short) (hmem : h.mem = fun _ ↦ 0) (hnr : h.nr = 0) :
    Inv h rs (jobs h rs) {} (.start rs enabled) where
  js_eq := rfl
  short := hshort
  cc := by
    have hstart := CcInv.start (rs.map TableRequest.toCc) enabled
    rw [List.flatMap_map, List.map_map, List.map_map] at hstart
    exact hstart
  preWords_eq := rfl
  memRd := .inl ⟨rfl, rfl⟩
  readKeys := .start _ _
  readMds := .start _ _
  readCtrl := .start _ _
  length_data := rfl
  fits := nofun
  settled := hmem.symm
  stream := .start _ _
  cmp := .idle rfl rfl rfl rfl
  cmpKeys := .start _ _
  cmpData := .start _ _
  cmpMds := .start _ _
  cmpStatus := .start _ _
  memWr := .idle (.inl rfl) rfl rfl rfl rfl rfl
  nr := hnr.symm
  out := rfl
  alloc := rfl
  wrMd_le := le_rfl
  cmpDone_le := le_rfl
  asked_le := le_rfl
  read_le := Nat.zero_le _

theorem Inv.map_req (h' : Inv h rs js p s) : js.map Job.req = rs := by
  rw [h'.js_eq]
  exact map_req_jobs h rs

/-! ## Arrivals and `concurrencyControl` -/

theorem Inv.word (h' : Inv h rs js p s) : Inv h rs js p (s.step .word) := by
  rw [Pipeline.step]
  split
  · exact h'
  · next w words hw =>
    refine { h' with cc := ?_ }
    have hcc := h'.cc
    rw [CcHolds, hw] at hcc
    rw [CcHolds]
    dsimp only
    rwa [List.append_assoc]

theorem Inv.md (h' : Inv h rs js p s) : Inv h rs js p (s.step .md) := by
  rw [Pipeline.step]
  split
  · exact h'
  · next m mds hm =>
    refine { h' with cc := ?_ }
    have hcc := h'.cc
    rw [CcHolds, hm] at hcc
    rw [CcHolds]
    dsimp only
    rwa [List.append_assoc]

theorem Inv.hash (h' : Inv h rs js p s) : Inv h rs js p (s.step .hash) := by
  rw [Pipeline.step]
  split
  · exact h'
  · next k hashes hk =>
    refine { h' with cc := ?_ }
    have hcc := h'.cc
    rw [CcHolds, hk] at hcc
    rw [CcHolds]
    dsimp only
    rwa [List.append_assoc]

theorem Inv.concurrencyControl (h' : Inv h rs js p s) :
    Inv h rs js p (s.step .concurrencyControl) :=
  { h' with cc := ccHolds_call h'.cc }

/-! ## `memRead` -/

theorem Inv.cc2memReadMd_prefix (h' : Inv h rs js p s) :
    s.q.cc2memReadMd <+: (js.drop p.read).map Job.md := by
  obtain ⟨forwarded, _, hpre, hsent, -⟩ := CcInv.exists_letThrough h'.cc
  have hmds := hpre.map CcRequest.sentMd
  rw [← hsent.sentMds_eq, ← h'.map_req, List.map_map, List.map_map] at hmds
  have hsplit : js.map Job.md = (js.take p.read).map Job.md ++ (js.drop p.read).map Job.md := by
    rw [← List.map_append, List.take_append_drop]
  exact (List.prefix_append_right_inj _).mp (hsplit ▸ hmds)

theorem Inv.cc2memRead_prefix (h' : Inv h rs js p s) :
    s.q.cc2memRead <+: p.readRest ++ (js.drop p.read).flatMap fun j ↦ j.req.toCc.words := by
  obtain ⟨forwarded, _, hpre, -, hwords⟩ := CcInv.exists_letThrough h'.cc
  obtain ⟨rest, hrest⟩ := hpre
  have hall : forwarded.flatMap CcRequest.words <+: js.flatMap fun j ↦ j.req.toCc.words := by
    refine ⟨rest.flatMap CcRequest.words, ?_⟩
    rw [← List.flatMap_append, hrest, ← h'.map_req, List.map_map, List.flatMap_map]
    rfl
  have htrans := hwords.trans hall
  rw [← h'.preWords_eq] at htrans
  exact (List.prefix_append_right_inj _).mp htrans

theorem Inv.memRead_begin (h' : Inv h rs js p s) (hstate : s.memRd = .idle)
    (hrest : p.readRest = []) {inDataMd : InternalMd} {mds : List InternalMd} {inData : KeyWord}
    {words : List KeyWord} (hmds : s.q.cc2memReadMd = inDataMd :: mds)
    (hwords : s.q.cc2memRead = inData :: words) : ∃ p', Inv h rs js p' (s.step .memRead) := by
  have hmd := h'.cc2memReadMd_prefix
  rw [hmds] at hmd
  obtain ⟨j, hj⟩ : ∃ j, js[p.read]? = some j := by
    cases hj : js[p.read]? with
    | some j => exact ⟨j, rfl⟩
    | none =>
      rw [List.drop_eq_nil_of_le (List.getElem?_eq_none_iff.mp hj)] at hmd
      exact absurd (List.prefix_nil.mp hmd) (List.cons_ne_nil _ _)
  rw [drop_of_getElem? hj, List.map_cons, List.cons_prefix_cons] at hmd
  obtain ⟨rfl, -⟩ := hmd
  obtain ⟨w, ws, hkey⟩ := List.exists_cons_of_ne_nil j.req.toCc.marked.ne_nil
  have hword := h'.cc2memRead_prefix
  rw [hwords, hrest, flatMap_drop hj, hkey, List.nil_append, List.cons_append,
    List.cons_prefix_cons] at hword
  obtain ⟨rfl, -⟩ := hword
  have hop : j.md.operation ≠ 8 := by
    change j.req.op.code ≠ 8
    cases j.req.op <;> decide
  have hkeys := h'.readKeys
  rw [hrest] at hkeys
  have hkeys' := hkeys.begin_up hj
  rw [j.words_of_key hkey] at hkeys'
  have hcc := h'.cc
  rw [CcHolds] at hcc
  dsimp only at hcc
  rw [hmds, hwords] at hcc
  have hpre := h'.preWords_eq
  rw [hrest, List.nil_append, flatMap_drop hj, hkey, List.cons_append] at hpre
  have hmarked := j.req.toCc.marked
  rw [hkey] at hmarked
  refine ⟨{ p with preWords := p.preWords ++ [inData], read := p.read + 1, readRest := ws }, ?_⟩
  rw [Pipeline.step, hstate, Memcached.memRead, hmds, hwords]
  dsimp only
  rw [if_pos hop]
  refine { h' with
    cc := ?_
    preWords_eq := ?_
    memRd := ?_
    readKeys := hkeys'.push
    readMds := (h'.readMds.begin_up hj).push
    readCtrl := (h'.readCtrl.begin_up hj).push
    asked_le := h'.asked_le.trans (Nat.le_succ _)
    read_le := (List.getElem?_eq_some_iff.mp hj).1 }
  · rw [CcHolds]
    dsimp only
    rwa [List.append_assoc, List.take_add_one, hj, Option.toList_some, List.map_append,
      List.append_assoc]
  · rw [List.append_assoc]
    exact hpre
  · obtain ⟨rfl, hlast⟩ | ⟨hlast, hm⟩ := marked_cons.mp hmarked
    · exact .inl ⟨if_pos hlast, rfl⟩
    · exact .inr ⟨if_neg hlast, hm⟩

theorem Inv.memRead_stream (h' : Inv h rs js p s) (hstate : s.memRd = .stream)
    (hmarked : Marked (fun w : KeyWord ↦ w.eop = true) p.readRest) {inData : KeyWord}
    {words : List KeyWord} (hwords : s.q.cc2memRead = inData :: words) :
    ∃ p', Inv h rs js p' (s.step .memRead) := by
  obtain ⟨w, ws, hrest⟩ := List.exists_cons_of_ne_nil hmarked.ne_nil
  have hword := h'.cc2memRead_prefix
  rw [hwords, hrest, List.cons_append, List.cons_prefix_cons] at hword
  obtain ⟨rfl, -⟩ := hword
  have hkeys := h'.readKeys
  have hcc := h'.cc
  have hpre := h'.preWords_eq
  rw [hrest] at hkeys hpre hmarked
  rw [CcHolds] at hcc
  dsimp only at hcc
  rw [hwords] at hcc
  refine ⟨{ p with preWords := p.preWords ++ [inData], readRest := ws }, ?_⟩
  rw [Pipeline.step, hstate, Memcached.memRead, hwords]
  dsimp only
  refine { h' with
    cc := ?_
    preWords_eq := ?_
    memRd := ?_
    readKeys := hkeys.push }
  · rw [CcHolds]
    dsimp only
    rwa [List.append_assoc]
  · rw [List.append_assoc]
    exact hpre
  · obtain ⟨rfl, hlast⟩ | ⟨hlast, hm⟩ := marked_cons.mp hmarked
    · exact .inl ⟨if_pos hlast, rfl⟩
    · exact .inr ⟨if_neg hlast, hm⟩

theorem Inv.memRead (h' : Inv h rs js p s) : ∃ p', Inv h rs js p' (s.step .memRead) := by
  obtain ⟨hstate, hrest⟩ | ⟨hstate, hmarked⟩ := h'.memRd
  · cases hmds : s.q.cc2memReadMd with
    | nil =>
      refine ⟨p, ?_⟩
      rw [Pipeline.step, hstate, Memcached.memRead, hmds]
      exact { h' with memRd := .inl ⟨rfl, hrest⟩ }
    | cons inDataMd mds =>
      cases hwords : s.q.cc2memRead with
      | nil =>
        refine ⟨p, ?_⟩
        rw [Pipeline.step, hstate, Memcached.memRead, hmds, hwords]
        exact { h' with memRd := .inl ⟨rfl, hrest⟩ }
      | cons inData words => exact h'.memRead_begin hstate hrest hmds hwords
  · cases hwords : s.q.cc2memRead with
    | nil =>
      refine ⟨p, ?_⟩
      rw [Pipeline.step, hstate, Memcached.memRead, hwords]
      exact { h' with memRd := .inr ⟨rfl, hmarked⟩ }
    | cons inData words => exact h'.memRead_stream hstate hmarked hwords

/-! ## `ht_compare` -/

theorem markHead_eq (head : Word) (keyLength : BitVec 8) :
    markHead (fun _ ↦ ⟨false, false⟩) head keyLength = compareHead head keyLength := rfl

theorem memCount_restLength {k : BitVec 8} (hk : k ≠ 0) :
    restLength k = 0 ∧ (memCount k).toNat = 2
      ∨ restLength k ≠ 0 ∧ (memCount (restLength k)).toNat + 1 = (memCount k).toNat := by
  have hall : ∀ k : BitVec 8, k ≠ 0 → restLength k = 0 ∧ (memCount k).toNat = 2
      ∨ restLength k ≠ 0 ∧ (memCount (restLength k)).toNat + 1 = (memCount k).toNat := by
    decide +kernel
  exact hall k hk

theorem Job.length_words (j : Job) : j.words.length + 1 = (memCount j.req.keyLength).toNat := by
  have hlen := congrArg List.length j.map_data_words
  rw [List.length_map] at hlen
  rw [hlen, j.req.length_words, j.req.length_key]

theorem Job.length_saved (j : Job) :
    (j.table.saved j.req.toSetRequest).length = j.words.length := by
  have hlen := j.length_words
  rw [← j.req.length_key] at hlen
  rw [Memcached.length_saved]
  exact (Nat.succ.inj hlen).symm

theorem Inv.htCompare_idle (h' : Inv h rs js p s) (hstate : s.cmp.state = .idle)
    (hbegun : p.cmp = p.cmpDone) (hkeys : p.cmpKeys = []) (hdata : p.cmpData = [])
    {inDataMd : InternalMd} {mds : List InternalMd} (hmds : s.q.memRd2compMd = inDataMd :: mds) :
    ∃ p', Inv h rs js p' (s.step .htCompare) := by
  have hlink := h'.readMds
  rw [hmds] at hlink
  obtain ⟨j, hj⟩ := hlink.exists_job
  obtain ⟨rfl, hlink'⟩ := (hlink.begin_down hj).take
  have hreadKeys := h'.readKeys
  have hcmpKeys := h'.cmpKeys
  have hstream := h'.stream
  have hcmpData := h'.cmpData
  rw [hkeys] at hreadKeys hcmpKeys
  rw [hdata] at hstream hcmpData
  have hop : j.md.operation ≠ 8 := by
    change j.req.op.code ≠ 8
    cases j.req.op <;> decide
  refine ⟨{ p with cmp := p.cmp + 1, cmpKeys := j.words, cmpData := j.data }, ?_⟩
  rw [Pipeline.step, htCompareStage, hstate, hmds]
  dsimp only
  rw [if_neg hop]
  exact { h' with
    readKeys := hreadKeys.begin_down hj
    readMds := hlink'
    stream := hstream.begin_down hj
    cmp := .head j (hbegun ▸ hj) rfl rfl rfl rfl (by rw [hbegun]) rfl rfl
    cmpKeys := hcmpKeys.begin_up hj
    cmpData := hcmpData.begin_up hj }

theorem Inv.htCompare_head (h' : Inv h rs js p s) {j : Job} (hj : js[p.cmpDone]? = some j)
    (hstate : s.cmp.state = .head) (hmd : s.cmp.inDataMd = j.md)
    (hlen : s.cmp.keyLength = j.req.keyLength)
    (hstatus : s.cmp.statusOutput = fun _ ↦ ⟨false, false⟩) (hbegun : p.cmp = p.cmpDone + 1)
    (hkeys : p.cmpKeys = j.words) (hdata : p.cmpData = j.data) {memInput : Word} {rest : List Word}
    (hmem : s.q.memRdData = memInput :: rest) : ∃ p', Inv h rs js p' (s.step .htCompare) := by
  have hstream := h'.stream
  have hcmpData := h'.cmpData
  rw [hdata, j.data_eq] at hstream hcmpData
  rw [Pipeline.port, hmem, stream_port_cons] at hstream
  obtain ⟨rfl, hstream'⟩ := hstream.take
  refine ⟨{ p with cmpData := j.table.saved j.req.toSetRequest }, ?_⟩
  rw [Pipeline.step, htCompareStage, hstate, hmem]
  dsimp only
  rw [hstatus, hlen, markHead_eq]
  refine { h' with
    stream := hstream'
    cmp := .compare j hj rfl hmd ?_ (by rw [hkeys]) ?_ ?_ ?_ hbegun
    cmpData := hcmpData.push }
  · exact j.req.keyLength_ne
  · rw [hkeys]
    exact j.length_words
  · rw [hkeys]
    exact j.length_saved
  · rw [hkeys, j.map_data_words]
    rfl

theorem Inv.htCompare_compare (h' : Inv h rs js p s) {j : Job} (hj : js[p.cmpDone]? = some j)
    (hstate : s.cmp.state = .compare) (hmd : s.cmp.inDataMd = j.md) (hne : s.cmp.keyLength ≠ 0)
    (hle : p.cmpKeys.length ≤ j.words.length)
    (hlength : p.cmpKeys.length + 1 = (memCount s.cmp.keyLength).toNat)
    (hlengthData : p.cmpData.length = p.cmpKeys.length)
    (hstatus : (p.cmpData.zip (p.cmpKeys.map KeyWord.data)).foldl
      (fun status x ↦ compareWord status x.1 x.2) s.cmp.statusOutput = j.status)
    (hbegun : p.cmp = p.cmpDone + 1) {memInput : Word} {rest : List Word} {inData : KeyWord}
    {words : List KeyWord} (hmem : s.q.memRdData = memInput :: rest)
    (hword : s.q.memRd2comp = inData :: words) : ∃ p', Inv h rs js p' (s.step .htCompare) := by
  have hcount := memCount_restLength hne
  obtain ⟨k, ks, hkeys⟩ : ∃ k ks, p.cmpKeys = k :: ks := by
    refine List.exists_cons_of_ne_nil fun hnil ↦ ?_
    rw [hnil] at hlength
    exact absurd hlength (Nat.ne_of_lt (two_le_memCount hne))
  rw [hkeys] at hle hlength hlengthData hstatus
  obtain ⟨d, ds, hdata⟩ : ∃ d ds, p.cmpData = d :: ds :=
    List.exists_cons_of_length_eq_add_one hlengthData
  rw [hdata] at hlengthData hstatus
  rw [List.length_cons] at hlength
  have hreadKeys := h'.readKeys
  have hcmpKeys := h'.cmpKeys
  have hstream := h'.stream
  have hcmpData := h'.cmpData
  rw [hkeys] at hreadKeys hcmpKeys
  rw [hdata] at hstream hcmpData
  rw [hword] at hreadKeys
  rw [Pipeline.port, hmem, stream_port_cons] at hstream
  obtain ⟨rfl, hreadKeys'⟩ := hreadKeys.take
  obtain ⟨rfl, hstream'⟩ := hstream.take
  rw [Pipeline.step, htCompareStage, hstate, hmem, hword]
  dsimp only
  obtain ⟨hzero, htwo⟩ | ⟨hzero, hless⟩ := hcount
  · -- that was the last one
    have hks : ks = [] := List.length_eq_zero_iff.mp (by omega)
    have hds : ds = [] := List.length_eq_zero_iff.mp (by
      rw [List.length_cons, List.length_cons, hks] at hlengthData
      exact Nat.succ.inj hlengthData)
    rw [hds] at hstream' hstatus hcmpData
    rw [hks] at hreadKeys' hstatus hcmpKeys
    have hlt := (List.getElem?_eq_some_iff.mp hj).1
    have hasked : p.cmp ≤ p.asked := hstream'.le (fun j _ ↦ j.data_ne_nil) (by omega)
    have hcmpStatus := h'.cmpStatus.begin_up hj
    rw [← hstatus] at hcmpStatus
    refine ⟨{ p with cmpKeys := [], cmpData := [], cmpDone := p.cmpDone + 1 }, ?_⟩
    rw [if_pos hzero, if_pos hzero, if_pos hzero, hmd]
    exact { h' with
      readKeys := hreadKeys'
      stream := hstream'
      cmp := .idle rfl hbegun rfl rfl
      cmpKeys := hcmpKeys.push
      cmpData := hcmpData.push
      cmpMds := (h'.cmpMds.begin_up hj).push
      cmpStatus := hcmpStatus.push
      wrMd_le := h'.wrMd_le.trans (Nat.le_succ _)
      cmpDone_le := hbegun ▸ hasked }
  · have hlength' : ks.length + 1 = (memCount (restLength s.cmp.keyLength)).toNat := by omega
    refine ⟨{ p with cmpKeys := ks, cmpData := ds }, ?_⟩
    rw [if_neg hzero, if_neg hzero, if_neg hzero]
    exact { h' with
      readKeys := hreadKeys'
      stream := hstream'
      cmp := .compare j hj rfl hmd hzero ((Nat.le_succ _).trans hle) hlength'
        (Nat.succ.inj hlengthData) hstatus hbegun
      cmpKeys := hcmpKeys.push
      cmpData := hcmpData.push }

theorem Inv.htCompare (h' : Inv h rs js p s) : ∃ p', Inv h rs js p' (s.step .htCompare) := by
  cases h'.cmp with
  | idle hstate hbegun hkeys hdata =>
    cases hmds : s.q.memRd2compMd with
    | nil =>
      refine ⟨p, ?_⟩
      rw [Pipeline.step, htCompareStage, hstate, hmds]
      exact h'
    | cons inDataMd mds => exact h'.htCompare_idle hstate hbegun hkeys hdata hmds
  | head j hj hstate hmd hlen hstatus hbegun hkeys hdata =>
    cases hmem : s.q.memRdData with
    | nil =>
      refine ⟨p, ?_⟩
      rw [Pipeline.step, htCompareStage, hstate, hmem]
      exact h'
    | cons memInput rest =>
      exact h'.htCompare_head hj hstate hmd hlen hstatus hbegun hkeys hdata hmem
  | compare j hj hstate hmd hne hle hlength hlengthData hstatus hbegun =>
    cases hmem : s.q.memRdData with
    | nil =>
      refine ⟨p, ?_⟩
      rw [Pipeline.step, htCompareStage, hstate, hmem]
      exact h'
    | cons memInput rest =>
      cases hword : s.q.memRd2comp with
      | nil =>
        refine ⟨p, ?_⟩
        rw [Pipeline.step, htCompareStage, hstate, hmem, hword]
        exact h'
      | cons inData words =>
        exact h'.htCompare_compare hj hstate hmd hne hle hlength hlengthData hstatus hbegun hmem
          hword

end Inv

end FpgaOs.Memcached
