import FpgaOs.Mapping.Serial
import FpgaOs.Mapping.Stages

/-!
# The pipeline against the sequence of requests

`Inv` describes every state of the pipeline by positions in the sequence of accepted requests. Each
stream is a window of what the requests are, one after the other, at that place (`Serial`), and each
stage that holds a request holds it as the sequential execution would have it there.

Two facts carry the proof. First, between the position up to which requests have been popped from
the reservation table and the one up to which they have been reserved, no two requests share a BRAM
bucket; so the requests in between do not disturb each other. Second, the memories, once all
commands issued so far are executed, are the tables that the request in `fill_S2` finds, changed at
most by what this request has already written: its own BRAM bucket, and a new bucket that is on no
chain yet.
-/

namespace FpgaOs.Mapping

open Linked PipelineInfo

/-- The positions in the sequence of requests. Those below `popped` have left the reservation table,
those below `out` have been answered, those below `fin` have left `fill_S2`; `s2`, `s1` and `rd`
count the requests that have entered `fill_S2`, `fill_S1` and `read_bram`, `s1out` and `cmp` those
that have left `fill_S1` and `compare_bram`; for those below `rb` the BRAM bucket has been asked
for, those below `res` have their index reserved; `hash` and `n` have left `compute_hash` and
`remux`. The allocator's answers below `allocs` have been used. -/
structure Marks where
  popped : ℕ
  out : ℕ
  fin : ℕ
  s2 : ℕ
  s1out : ℕ
  s1 : ℕ
  cmp : ℕ
  rb : ℕ
  res : ℕ
  rd : ℕ
  hash : ℕ
  n : ℕ
  allocs : ℕ

/-- What is for one channel. -/
def onChannel {α : Type*} (ch : Channel) (l : List (Channel × α)) : List α :=
  l.filterMap fun x ↦ if x.1 = ch then some x.2 else none

theorem onChannel_cons {α : Type*} (ch : Channel) (x : Channel × α) (l : List (Channel × α)) :
    onChannel ch (x :: l) = (if x.1 = ch then [x.2] else []) ++ onChannel ch l := by
  by_cases hx : x.1 = ch
  · simp [onChannel, hx]
  · simp [onChannel, hx]

theorem onChannel_concat {α : Type*} (ch : Channel) (l : List (Channel × α)) (x : Channel × α) :
    onChannel ch (l ++ [x]) = onChannel ch l ++ if x.1 = ch then [x.2] else [] := by
  induction l with
  | nil => rw [List.nil_append, onChannel_cons]; exact List.append_nil _
  | cons y l ih => rw [List.cons_append, onChannel_cons, onChannel_cons, ih, List.append_assoc]

section Inv

variable (e : Env) (t : Tables) (Q : ℕ → Call)

/-- The reply to request `k`, with its channel. -/
def replyOf (k : ℕ) : Channel × MappingReply := ((Q k).1, (finished e t Q k).demux)

/-- `read_bram` and the streams that connect it to the reservation table. -/
def ReadBramInv (c : Marks) (s : Pipe) : Prop :=
  match s.readBramState with
  | .idle => c.rd = c.rb ∧ s.addrResvReq = [] ∧ s.addrResvRes = []
  | .addrCheck =>
    c.rd = c.rb + 1 ∧ s.readBramIndex = bramIndexOf Q c.rb ∧ c.res = c.rb
      ∧ s.addrResvReq = [] ∧ s.addrResvRes = []
  | .addrResp =>
    c.rd = c.rb + 1 ∧ s.readBramIndex = bramIndexOf Q c.rb ∧
      ((s.addrResvReq = [⟨.resv, bramIndexOf Q c.rb⟩] ∧ s.addrResvRes = [] ∧ c.res = c.rb)
        ∨ (s.addrResvReq = [] ∧ ∃ res, s.addrResvRes = [res]
          ∧ c.res = c.rb + if res = resvSuccess then 1 else 0))

/-- `fill_S1` is about to read the bucket `addr` for request `k`, and will end as it should. -/
def Walking (k : ℕ) (pi : PipelineInfo) (found : Bool) (addr : BitVec 32) : Prop :=
  (∃ f, Chains e (tables e t Q k).allocs ((tables e t Q k).bucket e) f
    ∧ addr.setWidth 26 ∈ f ((Q k).2.address.setWidth 10))
  ∧ ∃ n, pi.walk ((tables e t Q k).readDram e) n found addr = some (filled e t Q k)

/-- `fill_S1` and the data it reads. -/
def FillS1Inv (c : Marks) (s : Pipe) : Prop :=
  match s.fillS1State with
  | .idle => c.s1 = c.s1out ∧ s.dram.stream = []
  | .sendCmd =>
    c.s1 = c.s1out + 1 ∧ s.dram.stream = []
      ∧ Walking e t Q c.s1out s.fillS1Pi s.slotDramFound s.fillS1Cmd
  | .readData =>
    c.s1 = c.s1out + 1 ∧ s.dram.stream = [(tables e t Q c.s1out).readDram e s.fillS1Cmd]
      ∧ Walking e t Q c.s1out s.fillS1Pi s.slotDramFound s.fillS1Cmd

/-- Request `k` is in `fill_S2`; `m` are the tables when all commands issued so far have been
executed. -/
structure FillS2Busy (k : ℕ) (m : Tables) (pi : PipelineInfo) (new : Bucket) (st : AllocState) :
    Prop where
  finish_eq : m.finish e pi new st = (tables e t Q (k + 1), finished e t Q k)
  bram : ∀ i ≠ bramIndexOf Q k, m.bram i = (tables e t Q k).bram i
  dram : ∀ f, Chains e (tables e t Q k).allocs ((tables e t Q k).bucket e) f →
    ∀ r, ∀ a ∈ f r, m.bucket e a = (tables e t Q k).bucket e a
  waits : st = .recvRet → m.dram = (tables e t Q k).dram ∧ m.allocs = (tables e t Q k).allocs

/-- `fill_S2` and the memories. -/
def FillS2Inv (fin s2 : ℕ) (m : Tables) (pi : PipelineInfo) (new : Bucket) : AllocState → Prop
  | .idle => s2 = fin ∧ m = tables e t Q fin
  | .recvRet => s2 = fin + 1 ∧ FillS2Busy e t Q fin m pi new .recvRet
  | .writeData => s2 = fin + 1 ∧ FillS2Busy e t Q fin m pi new .writeData

/-- The allocator: it has been asked for one answer that has not been used when `fill_S2` waits for
it. -/
structure AllocInv (allocs : ℕ) (al : Allocator) (st : AllocState) : Prop where
  ret : al.ret ++ window e.answers al.answered (al.answered + al.pending)
    = if st = .recvRet then [e.answers allocs] else []
  asked : al.answered + al.pending = allocs + if st = .recvRet then 1 else 0

/-- **The invariant of the pipeline.** -/
structure Inv (c : Marks) (s : Pipe) : Prop where
  le_out : c.popped ≤ c.out
  le_fin : c.out ≤ c.fin
  le_s2 : c.fin ≤ c.s2
  le_s1out : c.s2 ≤ c.s1out
  le_s1 : c.s1out ≤ c.s1
  le_cmp : c.s1 ≤ c.cmp
  le_rb : c.cmp ≤ c.rb
  le_res : c.rb ≤ c.res
  le_rd : c.res ≤ c.rd
  le_hash : c.rd ≤ c.hash
  le_n : c.hash ≤ c.n
  accepted : s.accepted = window Q 0 c.n
  pipelineInfo : s.pipelineInfo = window (entered Q) c.hash c.n
  hashToCompare : s.hashToCompare = window (hashed Q) c.rd c.hash
  readToCompare : s.readToCompare = window (hashed Q) c.cmp c.rd
  compareToFillS1 : s.compareToFillS1 = window (compared e t Q) c.s1 c.cmp
  fillS1ToFillS2 : s.fillS1ToFillS2 = window (filled e t Q) c.s2 c.s1out
  fillS2ToOut : s.fillS2ToOut = window (finished e t Q) c.out c.fin
  addrPopReq : c.popped + s.addrPopReq.length = c.out
  rdReply : s.rdReply = onChannel .read (window (replyOf e t Q) 0 c.out)
  wrReply : s.wrReply = onChannel .write (window (replyOf e t Q) 0 c.out)
  bramStream : s.bram.stream = window (readBucketOf e t Q) c.cmp c.rb
  ring : s.resvTable.Ring (window (bramIndexOf Q) c.popped c.res)
  nodup : (window (bramIndexOf Q) c.popped c.res).Nodup
  readBram : ReadBramInv Q c s
  fillS1 : FillS1Inv e t Q c s
  fillS2 : FillS2Inv e t Q c.fin c.s2 ⟨s.bram.settled, s.dram.settled, c.allocs⟩
    s.fillS2Pi s.newHbDram s.fillS2State
  alloc : AllocInv e c.allocs s.allocator s.fillS2State

end Inv

section Start

variable {e : Env} {t : Tables} {Q : ℕ → Call}

def Marks.zero : Marks := ⟨0, 0, 0, 0, 0, 0, 0, 0, 0, 0, 0, 0, 0⟩

theorem Inv.init (hinit : t.Initial e) : Inv e t Q .zero (Pipe.init t) where
  le_out := le_rfl
  le_fin := le_rfl
  le_s2 := le_rfl
  le_s1out := le_rfl
  le_s1 := le_rfl
  le_cmp := le_rfl
  le_rb := le_rfl
  le_res := le_rfl
  le_rd := le_rfl
  le_hash := le_rfl
  le_n := le_rfl
  accepted := rfl
  pipelineInfo := rfl
  hashToCompare := rfl
  readToCompare := rfl
  compareToFillS1 := rfl
  fillS1ToFillS2 := rfl
  fillS2ToOut := rfl
  addrPopReq := rfl
  rdReply := rfl
  wrReply := rfl
  bramStream := rfl
  ring := ResvTable.Ring.empty
  nodup := List.nodup_nil
  readBram := ⟨rfl, rfl, rfl⟩
  fillS1 := ⟨rfl, rfl⟩
  fillS2 := by
    refine ⟨rfl, ?_⟩
    change (⟨t.bram, t.dram, 0⟩ : Tables) = t
    rw [← hinit.allocs]
  alloc := ⟨rfl, rfl⟩

end Start

/-! ## What the memories hold for a request in flight -/

section Settled

variable {e : Env} {t : Tables} {Q : ℕ → Call} {c : Marks} {s : Pipe}

theorem FillS2Inv.bram_settled {fin s2 : ℕ} {m : Tables} {pi : PipelineInfo} {new : Bucket}
    {st : AllocState} (h : FillS2Inv e t Q fin s2 m pi new st) {i : BitVec 6}
    (hi : fin < s2 → bramIndexOf Q fin ≠ i) : m.bram i = (tables e t Q fin).bram i := by
  cases st with
  | idle => rw [h.2]
  | recvRet => exact h.2.bram i (hi (by rw [h.1]; exact Nat.lt_succ_self _)).symm
  | writeData => exact h.2.bram i (hi (by rw [h.1]; exact Nat.lt_succ_self _)).symm

theorem FillS2Inv.dram_settled {fin s2 : ℕ} {m : Tables} {pi : PipelineInfo} {new : Bucket}
    {st : AllocState} (h : FillS2Inv e t Q fin s2 m pi new st) {f : BitVec 10 → List (BitVec 26)}
    (hf : Chains e (tables e t Q fin).allocs ((tables e t Q fin).bucket e) f) {r : BitVec 10}
    {a : BitVec 26} (ha : a ∈ f r) : m.bucket e a = (tables e t Q fin).bucket e a := by
  cases st with
  | idle => rw [h.2]
  | recvRet => exact h.2.dram f hf r a ha
  | writeData => exact h.2.dram f hf r a ha

theorem Inv.index_ne (h : Inv e t Q c s) {j k : ℕ} (hj : c.fin ≤ j) (hjk : j < k) (hk : k < c.res) :
    bramIndexOf Q j ≠ bramIndexOf Q k :=
  window_ne h.nodup ((h.le_out.trans h.le_fin).trans hj) hjk hk

variable (hinit : t.Initial e) (hfresh : ∀ n, e.Fresh n)

include hinit hfresh

/-- **The BRAM bucket of a reserved request** is the one that its predecessors leave. -/
theorem Inv.bram_settled (h : Inv e t Q c s) {k : ℕ} (hk : c.s2 ≤ k) (hres : k < c.res) :
    s.bram.settled (bramIndexOf Q k) = readBucketOf e t Q k := by
  have hfin := h.fillS2.bram_settled fun hlt ↦ h.index_ne le_rfl (hlt.trans_le hk) hres
  refine hfin.trans (bram_tables hinit hfresh (h.le_s2.trans hk) fun n hn hnk ↦ ?_).symm
  exact h.index_ne hn hnk hres

/-- **The buckets on the chain of a reserved request** are those that its predecessors leave. -/
theorem Inv.dram_settled (h : Inv e t Q c s) {k : ℕ} (hk : c.s2 ≤ k) (hres : k < c.res)
    {f : BitVec 10 → List (BitVec 26)}
    (hf : Chains e (tables e t Q k).allocs ((tables e t Q k).bucket e) f) {a : BitVec 26}
    (ha : a ∈ f ((Q k).2.address.setWidth 10)) :
    s.dram.settled (e.startAddress (a.setWidth 32)) = (tables e t Q k).bucket e a := by
  obtain ⟨g, hg⟩ := chains_tables (Q := Q) hinit hfresh c.fin
  obtain ⟨f', hf', hchain, hsame⟩ := chain_tables hfresh (h.le_s2.trans hk) hg
    (r := (Q k).2.address.setWidth 10)
    fun n hn hnk ↦ root_ne_of_index_ne (h.index_ne hn hnk hres)
  have heq : f ((Q k).2.address.setWidth 10) = g ((Q k).2.address.setWidth 10) :=
    ((hf.chain _).unique (hf'.chain _)).trans hchain
  rw [heq] at ha
  rw [hsame a ha]
  exact h.fillS2.dram_settled hg ha

end Settled

/-! ## The steps -/

section Steps

variable {e : Env} {t : Tables} {Q : ℕ → Call} {c : Marks} {s : Pipe}

/-- The list is the beginning of the sequence. -/
def Follows (Q : ℕ → Call) (l : List Call) : Prop := ∀ k q, l[k]? = some q → Q k = q

theorem Inv.accept (h : Inv e t Q c s) {q : Call} (hQ : Follows Q (s.accepted ++ [q])) :
    Q c.n = q := by
  apply hQ
  rw [h.accepted, List.getElem?_append_right (by simp), length_window, Nat.sub_zero, Nat.sub_self]
  rfl

theorem Inv.remux_take (h : Inv e t Q c s) {q : Call} (hQ : Follows Q (s.accepted ++ [q]))
    {rd wr : List MappingRequest} :
    Inv e t Q { c with n := c.n + 1 }
      { s with
        rdRequest := rd
        wrRequest := wr
        pipelineInfo := s.pipelineInfo ++ [PipelineInfo.remux q.1 q.2]
        accepted := s.accepted ++ [q] } :=
  { h with
    le_n := h.le_n.trans (Nat.le_succ _)
    accepted := by
      change s.accepted ++ [q] = window Q 0 (c.n + 1)
      rw [window_concat (Nat.zero_le _), h.accept hQ, h.accepted]
    pipelineInfo := by
      change s.pipelineInfo ++ [_] = window (entered Q) c.hash (c.n + 1)
      rw [window_concat h.le_n, h.pipelineInfo, entered, h.accept hQ] }

theorem Inv.remux (h : Inv e t Q c s) (hQ : Follows Q s.remux.accepted) :
    ∃ c', Inv e t Q c' s.remux := by
  rw [Pipe.remux] at hQ ⊢
  split at hQ
  · exact ⟨_, h.remux_take hQ⟩
  · split at hQ
    · exact ⟨_, h.remux_take hQ⟩
    · exact ⟨c, h⟩

theorem Inv.computeHash (h : Inv e t Q c s) : ∃ c', Inv e t Q c' s.computeHash := by
  rw [Pipe.computeHash]
  split
  · next pi rest hpi =>
    obtain ⟨hlt, rfl, rfl⟩ := window_eq_cons (h.pipelineInfo.symm.trans hpi)
    refine ⟨{ c with hash := c.hash + 1 }, { h with
      le_hash := h.le_hash.trans (Nat.le_succ _)
      le_n := hlt
      pipelineInfo := rfl
      hashToCompare := ?_ }⟩
    change s.hashToCompare ++ [_] = window (hashed Q) c.rd (c.hash + 1)
    rw [window_concat h.le_hash, h.hashToCompare]
    rfl
  · exact ⟨c, h⟩

variable (hinit : t.Initial e) (hfresh : ∀ n, e.Fresh n)

include hinit hfresh in
theorem Inv.readBram_step (h : Inv e t Q c s) : ∃ c', Inv e t Q c' s.readBram := by
  have hinv := h.readBram
  rw [ReadBramInv] at hinv
  rw [Pipe.readBram]
  -- a request is taken, its index is reserved, and then the bucket is read
  cases hst : s.readBramState with
  | idle =>
    rw [hst] at hinv
    obtain ⟨hrd, hreq, hres⟩ := hinv
    dsimp only
    split
    · next pi rest hpi =>
      obtain ⟨hlt, rfl, rfl⟩ := window_eq_cons (h.hashToCompare.symm.trans hpi)
      have hresrb : c.res = c.rb := le_antisymm (h.le_rd.trans hrd.le) h.le_res
      refine ⟨{ c with rd := c.rd + 1 }, { h with
        le_rd := h.le_rd.trans (Nat.le_succ _)
        le_hash := hlt
        hashToCompare := rfl
        readToCompare := ?_
        readBram := ⟨congrArg (· + 1) hrd, ?_, hresrb, hreq, hres⟩ }⟩
      · change s.readToCompare ++ [_] = window (hashed Q) c.cmp (c.rd + 1)
        rw [window_concat (h.le_rb.trans (h.le_res.trans h.le_rd)), h.readToCompare]
      · change (hashed Q c.rd).bramIndex = bramIndexOf Q c.rb
        rw [hrd]
        rfl
    · exact ⟨c, h⟩
  | addrCheck =>
    rw [hst] at hinv
    obtain ⟨hrd, hindex, hresrb, hreq, hres⟩ := hinv
    refine ⟨c, { h with readBram := ⟨hrd, hindex, .inl ⟨?_, hres, hresrb⟩⟩ }⟩
    change s.addrResvReq ++ [_] = _
    rw [hreq, hindex]
    rfl
  | addrResp =>
    rw [hst] at hinv
    obtain ⟨hrd, hindex, ⟨hreq, hres, hresrb⟩ | ⟨hreq, res, hres, hresrb⟩⟩ := hinv
    · simp only [hres]
      exact ⟨c, h⟩
    · simp only [hres]
      split
      · next hne =>
        rw [if_neg hne] at hresrb
        exact ⟨c, { h with readBram := ⟨hrd, hindex, hresrb, hreq, rfl⟩ }⟩
      · next hsucc =>
        rw [if_pos (not_not.mp hsucc)] at hresrb
        -- no request ahead has this index, so the bucket will not change before it is used
        have hbucket := h.bram_settled hinit hfresh
          (h.le_s1out.trans (h.le_s1.trans (h.le_cmp.trans h.le_rb)))
          (by rw [hresrb]; exact Nat.lt_succ_self _)
        refine ⟨{ c with rb := c.rb + 1 }, { h with
          le_rb := h.le_rb.trans (Nat.le_succ _)
          le_res := hresrb.ge
          bramStream := ?_
          readBram := ⟨hrd, hreq, rfl⟩
          fillS2 := ?_ }⟩
        · change (s.bram.issue (.read s.readBramIndex)).stream
            = window (readBucketOf e t Q) c.cmp (c.rb + 1)
          rw [Port.stream_issue_read, window_concat h.le_rb, h.bramStream, hindex, hbucket]
        · change FillS2Inv e t Q c.fin c.s2
            ⟨(s.bram.issue (.read s.readBramIndex)).settled, s.dram.settled, c.allocs⟩ _ _ _
          rw [Port.settled_issue_read]
          exact h.fillS2

theorem Inv.compareBram (h : Inv e t Q c s) : ∃ c', Inv e t Q c' s.compareBram := by
  rw [Pipe.compareBram]
  split
  · next pi rest hb data hpi hdata =>
    obtain ⟨hltrd, rfl, rfl⟩ := window_eq_cons (h.readToCompare.symm.trans hpi)
    obtain ⟨hlt, rfl, hrest⟩ := window_eq_cons (h.bramStream.symm.trans (Port.stream_of_data hdata))
    refine ⟨{ c with cmp := c.cmp + 1 }, { h with
      le_cmp := h.le_cmp.trans (Nat.le_succ _)
      le_rb := hlt
      readToCompare := rfl
      compareToFillS1 := ?_
      bramStream := hrest }⟩
    change s.compareToFillS1 ++ [_] = window (compared e t Q) c.s1 (c.cmp + 1)
    rw [window_concat h.le_cmp, h.compareToFillS1]
    rfl
  · exact ⟨c, h⟩

/-! ### `fill_S1` -/

theorem PipelineInfo.readBucket_next {pi pi' : PipelineInfo} {found found' : Bool}
    {addr addr' : BitVec 32} {hb : Bucket}
    (h : pi.readBucket found addr hb = (pi', some (found', addr'))) :
    hb.chained = true ∧ addr' = hb.chainAddr.setWidth 32 := by
  rw [readBucket] at h
  split at h
  · cases (Prod.mk.inj h).2
  · dsimp only at h
    split at h
    · next hch => exact ⟨hch, (Prod.mk.inj (Option.some.inj (Prod.mk.inj h).2)).2.symm⟩
    · cases (Prod.mk.inj h).2

theorem Walking.read {k : ℕ} {pi : PipelineInfo} {found : Bool} {addr : BitVec 32}
    (h : Walking e t Q k pi found addr) :
    match pi.readBucket found addr ((tables e t Q k).readDram e addr) with
    | (pi', none) => pi' = filled e t Q k
    | (pi', some (found', addr')) => Walking e t Q k pi' found' addr' := by
  obtain ⟨⟨f, hf, hmem⟩, n, hn⟩ := h
  cases n with
  | zero => cases hn
  | succ n =>
    rw [walk] at hn
    rcases hread : pi.readBucket found addr
      ((tables e t Q k).readDram e addr) with ⟨pi', _ | ⟨found', addr'⟩⟩
    · rw [hread] at hn
      exact Option.some.inj hn
    · rw [hread] at hn
      obtain ⟨hch, rfl⟩ := PipelineInfo.readBucket_next hread
      refine ⟨⟨f, hf, ?_⟩, n, hn⟩
      rw [Tables.readDram_eq] at hch ⊢
      have hnext : next ((tables e t Q k).bucket e) (addr.setWidth 26)
          = some ((tables e t Q k).bucket e (addr.setWidth 26)).chainAddr := by
            rw [next, if_pos hch]
      rw [BitVec.setWidth_setWidth_of_le _ (by decide), BitVec.setWidth_eq]
      exact (hf.chain _).next_mem hmem hnext

include hinit hfresh in
theorem walking_start {k : ℕ} (hskip : (compared e t Q k).skipsDram = false) :
    Walking e t Q k (compared e t Q k) false (compared e t Q k).dramIndex := by
  obtain ⟨f, hf⟩ := chains_tables (Q := Q) hinit hfresh k
  have hfill := fillS1_compared (Q := Q) hinit hfresh k
  rw [fillS1, hskip] at hfill
  refine ⟨⟨f, hf, ?_⟩, _, hfill⟩
  have hhash : (compared e t Q k).hash = (Q k).2.address := (same_compareBram _ _).hash
  have hroot : (compared e t Q k).dramIndex.setWidth 26
    = ((Q k).2.address.setWidth 10).setWidth 26 := by
    rw [dramIndex, hhash, BitVec.setWidth_setWidth_of_le _ (by decide)]
  rw [hroot]
  exact (hf.chain _).head_mem

include hinit hfresh in
theorem filled_of_skipsDram {k : ℕ} (hskip : (compared e t Q k).skipsDram = true) :
    compared e t Q k = filled e t Q k := by
  have hfill := fillS1_compared (Q := Q) hinit hfresh k
  rw [PipelineInfo.fillS1, hskip] at hfill
  exact Option.some.inj hfill

include hinit hfresh in
/-- `fill_S1` sends a command: it will read the bucket that the request is to see. -/
theorem Inv.fillS1_send (h : Inv e t Q c s) (hst : s.fillS1State = .sendCmd) :
    Inv e t Q c (s.fillS1 e) := by
  have hinv := h.fillS1
  rw [FillS1Inv, hst] at hinv
  obtain ⟨hs1, hstream, hwalk⟩ := hinv
  rw [Pipe.fillS1, hst]
  have hres : c.s1out < c.res :=
    lt_of_lt_of_le (hs1 ▸ Nat.lt_succ_self _) (h.le_cmp.trans (h.le_rb.trans h.le_res))
  obtain ⟨f, hf, hmem⟩ := hwalk.1
  have haddr : e.startAddress s.fillS1Cmd
    = e.startAddress ((s.fillS1Cmd.setWidth 26).setWidth 32) := by
    rw [Env.startAddress_inj]
    simp
  have hbucket := h.dram_settled hinit hfresh h.le_s1out hres hf hmem
  refine { h with
    fillS1 := ⟨hs1, ?_, hwalk⟩
    fillS2 := ?_ }
  · change (s.dram.issue (.read (e.startAddress s.fillS1Cmd))).stream = _
    rw [Port.stream_issue_read, hstream, haddr, hbucket, Tables.readDram_eq]
    rfl
  · change FillS2Inv e t Q c.fin c.s2
      ⟨s.bram.settled, (s.dram.issue (.read (e.startAddress s.fillS1Cmd))).settled, c.allocs⟩ _ _ _
    rw [Port.settled_issue_read]
    exact h.fillS2

theorem Inv.fillS1_next (h : Inv e t Q c s) (hst : s.fillS1State = .readData) {hb : Bucket}
    {data : List Bucket} (hdata : s.dram.data = hb :: data) {pi : PipelineInfo} {found : Bool}
    {addr : BitVec 32}
    (hpi : s.fillS1Pi.readBucket s.slotDramFound s.fillS1Cmd hb = (pi, some (found, addr))) :
    Inv e t Q c (s.fillS1 e) := by
  have hinv := h.fillS1
  rw [FillS1Inv, hst] at hinv
  obtain ⟨hs1, hstream, hwalk⟩ := hinv
  obtain ⟨rfl, hrest⟩ := List.cons.inj ((Port.stream_of_data hdata).symm.trans hstream)
  have hread := hwalk.read
  rw [hpi] at hread
  rw [Pipe.fillS1, hst, hdata]
  dsimp only
  rw [hpi]
  exact { h with fillS1 := ⟨hs1, hrest, hread⟩ }

include hinit hfresh in
theorem Inv.fillS1_step (h : Inv e t Q c s) : ∃ c', Inv e t Q c' (s.fillS1 e) := by
  have hinv := h.fillS1
  rw [FillS1Inv] at hinv
  rw [Pipe.fillS1]
  cases hst : s.fillS1State with
  | idle =>
    rw [hst] at hinv
    obtain ⟨hs1, hstream⟩ := hinv
    dsimp only
    split
    · next pi rest hpi =>
      obtain ⟨hlt, rfl, rfl⟩ := window_eq_cons (h.compareToFillS1.symm.trans hpi)
      -- a request that the cached bucket answers goes straight on
      split
      · next hskip =>
        refine ⟨{ c with s1 := c.s1 + 1, s1out := c.s1out + 1 }, { h with
          le_s1out := h.le_s1out.trans (Nat.le_succ _)
          le_s1 := Nat.succ_le_succ h.le_s1
          le_cmp := hlt
          compareToFillS1 := rfl
          fillS1ToFillS2 := ?_
          fillS1 := ?_ }⟩
        · change s.fillS1ToFillS2 ++ [_] = window (filled e t Q) c.s2 (c.s1out + 1)
          rw [window_concat h.le_s1out, h.fillS1ToFillS2,
            filled_of_skipsDram hinit hfresh hskip, hs1]
        · rw [FillS1Inv]
          simp only
          exact ⟨congrArg (· + 1) hs1, hstream⟩
      · next hskip =>
        have hskip : (compared e t Q c.s1).skipsDram = false := by simpa using hskip
        have hwalk := walking_start hinit hfresh hskip
        refine ⟨{ c with s1 := c.s1 + 1 }, { h with
          le_s1 := h.le_s1.trans (Nat.le_succ _)
          le_cmp := hlt
          compareToFillS1 := rfl
          fillS1 := ⟨congrArg (· + 1) hs1, hstream, ?_⟩ }⟩
        rw [hs1] at hwalk
        rw [hs1]
        exact hwalk
    · exact ⟨c, h⟩
  | sendCmd =>
    have hsend := h.fillS1_send hinit hfresh hst
    rw [Pipe.fillS1] at hsend
    rw [hst] at hsend
    exact ⟨c, hsend⟩
  | readData =>
    rw [hst] at hinv
    obtain ⟨hs1, hstream, hwalk⟩ := hinv
    dsimp only
    split
    · next hb data hdata =>
      -- what is read is what is still to come from the port
      obtain ⟨rfl, hrest⟩ := List.cons.inj ((Port.stream_of_data hdata).symm.trans hstream)
      have hread := hwalk.read
      split
      · next pi hpi =>
        rw [hpi] at hread
        refine ⟨{ c with s1out := c.s1out + 1 }, { h with
          le_s1out := h.le_s1out.trans (Nat.le_succ _)
          le_s1 := hs1.ge
          fillS1ToFillS2 := ?_
          fillS1 := ⟨hs1, hrest⟩ }⟩
        change s.fillS1ToFillS2 ++ [pi] = window (filled e t Q) c.s2 (c.s1out + 1)
        rw [window_concat h.le_s1out, h.fillS1ToFillS2, hread]
      · next pi found addr hpi =>
        have hnext := h.fillS1_next hst hdata hpi
        rw [Pipe.fillS1, hst, hdata] at hnext
        dsimp only at hnext
        rw [hpi] at hnext
        exact ⟨c, hnext⟩
    · exact ⟨c, h⟩

/-! ### `fill_S2` -/

theorem settled_writeBack (bram : Port (BitVec 6) Bucket) (i : BitVec 6) (hb : Option Bucket)
    {dram : BitVec 32 → Bucket} {n : ℕ} {m : Tables} (h : ⟨bram.settled, dram, n⟩ = m) :
    ⟨(Pipe.writeBack bram i hb).settled, dram, n⟩ = m.writeBack i hb := by
  subst h
  cases hb with
  | none => rfl
  | some hb => rw [Pipe.writeBack, Port.settled_issue_write]; rfl

theorem stream_writeBack (bram : Port (BitVec 6) Bucket) (i : BitVec 6) (hb : Option Bucket) :
    (Pipe.writeBack bram i hb).stream = bram.stream := by
  cases hb with
  | none => rfl
  | some hb => exact Port.stream_issue_write _ _ _

theorem AllocInv.ask {n : ℕ} {al : Allocator} (h : AllocInv e n al .idle) :
    AllocInv e n { al with pending := al.pending + 1 } .recvRet where
  ret := by
    change al.ret ++ window e.answers al.answered (al.answered + al.pending + 1) = [e.answers n]
    rw [window_concat (Nat.le_add_right _ _), ← List.append_assoc, h.ret, h.asked]
    rfl
  asked := congrArg (· + 1) h.asked

theorem AllocInv.recv {n : ℕ} {al : Allocator} (h : AllocInv e n al .recvRet) {ret : BuddyAllocRet}
    {rest : List BuddyAllocRet} (hret : al.ret = ret :: rest) (st : AllocState)
    (hst : st ≠ .recvRet) :
    ret = e.answers n ∧ AllocInv e (n + 1) { al with ret := rest } st := by
  have hall := h.ret
  rw [hret] at hall
  obtain ⟨hhead, htail⟩ := List.cons.inj hall
  refine ⟨hhead, ?_, ?_⟩
  · rw [if_neg hst]
    exact htail
  · rw [if_neg hst]
    exact h.asked

theorem AllocInv.of_ne {n : ℕ} {al : Allocator} {st st' : AllocState} (h : AllocInv e n al st)
    (hst : st ≠ .recvRet) (hst' : st' ≠ .recvRet) : AllocInv e n al st' where
  ret := by rw [if_neg hst', h.ret, if_neg hst]
  asked := by rw [if_neg hst', h.asked, if_neg hst]

include hinit hfresh in
theorem finish_filled (k : ℕ) :
    ((tables e t Q k).writeBack (bramIndexOf Q k) (filled e t Q k).fillIdle.2.1).finish e
      (filled e t Q k).fillIdle.1 (filled e t Q k).fillIdle.1.newHbDram
      (filled e t Q k).fillIdle.2.2
      = (tables e t Q (k + 1), finished e t Q k) := by
  rw [← bramIndex_filled hinit hfresh, ← Tables.fillS2_eq_finish, tables_succ hinit hfresh]
  rfl

theorem Tables.bram_writeBack (m : Tables) {i j : BitVec 6} (hb : Option Bucket) (hj : j ≠ i) :
    (m.writeBack i hb).bram j = m.bram j := by
  cases hb with
  | none => rfl
  | some hb => exact Function.update_of_ne hj _ _

theorem Tables.dram_writeBack (m : Tables) (i : BitVec 6) (hb : Option Bucket) :
    (m.writeBack i hb).dram = m.dram := by
  cases hb <;> rfl

theorem Tables.allocs_writeBack (m : Tables) (i : BitVec 6) (hb : Option Bucket) :
    (m.writeBack i hb).allocs = m.allocs := by
  cases hb <;> rfl

include hinit hfresh in
theorem FillS2Busy.enter {k : ℕ} {st : AllocState} (hst : (filled e t Q k).fillIdle.2.2 = st) :
    FillS2Busy e t Q k ((tables e t Q k).writeBack (bramIndexOf Q k) (filled e t Q k).fillIdle.2.1)
      (filled e t Q k).fillIdle.1 (filled e t Q k).fillIdle.1.newHbDram st where
  finish_eq := hst ▸ finish_filled hinit hfresh k
  bram _ hi := Tables.bram_writeBack _ _ hi
  dram _ _ _ _ _ := by
    rw [Tables.bucket, Tables.bucket, Tables.readDram, Tables.readDram, Tables.dram_writeBack]
  waits _ := ⟨Tables.dram_writeBack _ _ _, Tables.allocs_writeBack _ _ _⟩

include hfresh in
theorem FillS2Busy.grant {k : ℕ} {m : Tables} {pi pi' : PipelineInfo} {new : Bucket}
    {addr : BitVec 32} (h : FillS2Busy e t Q k m pi new .recvRet)
    (hret : pi.fillRecvRet e.base (e.answers m.allocs) = (pi', some addr)) :
    FillS2Busy e t Q k (({ m with allocs := m.allocs + 1 } : Tables).writeDram e addr new) pi' new
      .writeData where
  finish_eq := by
    have hfin := h.finish_eq
    rw [Tables.finish, hret] at hfin
    exact hfin
  bram := h.bram
  dram f hf r a ha := by
    obtain ⟨hdram, hallocs⟩ := h.waits rfl
    have hgrant : (e.answers m.allocs).stat = 0 ∧ addr.setWidth 26 = e.granted m.allocs := by
      rw [fillRecvRet] at hret
      split at hret
      · next hstat => exact ⟨hstat, by rw [← Option.some.inj (Prod.mk.inj hret).2]; rfl⟩
      · cases (Prod.mk.inj hret).2
    rw [hallocs] at hgrant
    -- a granted bucket is on no chain, so writing it changes none
    have hne : a ≠ addr.setWidth 26 := by
      rw [hgrant.2]
      rintro rfl
      exact hf.granted_not_mem (hfresh _) hgrant.1 r ha
    rw [Tables.bucket_writeDram, Function.update_of_ne hne]
    exact h.dram f hf r a ha
  waits hst := by cases hst

theorem Inv.fillS2ToOut_concat (h : Inv e t Q c s) :
    s.fillS2ToOut ++ [finished e t Q c.fin] = window (finished e t Q) c.out (c.fin + 1) := by
  rw [window_concat h.le_fin, h.fillS2ToOut]

include hinit hfresh in
theorem Inv.fillS2_idle (h : Inv e t Q c s) (hst : s.fillS2State = .idle) :
    ∃ c', Inv e t Q c' (s.fillS2 e) := by
  have hinv := h.fillS2
  have hal := h.alloc
  rw [Pipe.fillS2, hst]
  rw [hst] at hinv hal
  obtain ⟨hs2, hm⟩ := hinv
  dsimp only
  split
  · next pi rest hpi =>
    obtain ⟨hlt, rfl, rfl⟩ := window_eq_cons (h.fillS1ToFillS2.symm.trans hpi)
    rw [hs2] at hlt ⊢
    have hm' := settled_writeBack s.bram (bramIndexOf Q c.fin)
      (filled e t Q c.fin).fillIdle.2.1 hm
    rw [bramIndex_filled hinit hfresh]
    -- `fill_S2` is done, or asks for a bucket, or writes the one it has
    split
    · next hnext =>
      have hfin := finish_filled (Q := Q) hinit hfresh c.fin
      rw [hnext, Tables.finish] at hfin
      obtain ⟨htab, hpi⟩ := Prod.mk.inj hfin
      rw [hpi]
      exact ⟨{ c with fin := c.fin + 1, s2 := c.fin + 1 }, { h with
        le_fin := h.le_fin.trans (Nat.le_succ _)
        le_s2 := le_rfl
        le_s1out := hlt
        fillS1ToFillS2 := rfl
        fillS2ToOut := h.fillS2ToOut_concat
        bramStream := (stream_writeBack _ _ _).trans h.bramStream
        fillS2 := ⟨rfl, hm'.trans htab⟩
        alloc := hal }⟩
    · next hnext =>
      exact ⟨{ c with s2 := c.fin + 1 }, { h with
        le_s2 := Nat.le_succ _
        le_s1out := hlt
        fillS1ToFillS2 := rfl
        bramStream := (stream_writeBack _ _ _).trans h.bramStream
        fillS2 := ⟨rfl, hm' ▸ FillS2Busy.enter hinit hfresh hnext⟩
        alloc := hal.ask }⟩
    · next hnext =>
      have hbusy := FillS2Busy.enter (Q := Q) hinit hfresh hnext
      exact ⟨{ c with s2 := c.fin + 1 }, { h with
        le_s2 := Nat.le_succ _
        le_s1out := hlt
        fillS1ToFillS2 := rfl
        bramStream := (stream_writeBack _ _ _).trans h.bramStream
        fillS2 := ⟨rfl, hm' ▸ { hbusy with waits := fun hst ↦ by cases hst }⟩
        alloc := hal.of_ne (by decide : AllocState.idle ≠ .recvRet)
          (by decide : AllocState.writeData ≠ .recvRet) }⟩
  · exact ⟨c, h⟩

include hfresh in
theorem Inv.fillS2_recvRet (h : Inv e t Q c s) (hst : s.fillS2State = .recvRet) :
    ∃ c', Inv e t Q c' (s.fillS2 e) := by
  have hinv := h.fillS2
  have hal := h.alloc
  rw [Pipe.fillS2, hst]
  rw [hst] at hinv hal
  obtain ⟨hs2, hbusy⟩ := hinv
  dsimp only
  split
  · next ret rest hret =>
    split
    · next pi addr hrecv =>
      obtain ⟨rfl, hal'⟩ := hal.recv hret .writeData (by decide)
      refine ⟨{ c with allocs := c.allocs + 1 }, { h with
        fillS1 := ?_
        fillS2 := ⟨hs2, ?_⟩
        alloc := hal' }⟩
      · simp only [FillS1Inv, Port.stream_issue_write]
        exact h.fillS1
      · change FillS2Busy e t Q c.fin
          ⟨s.bram.settled, (s.dram.issue (.write (e.startAddress addr) s.newHbDram)).settled,
            c.allocs + 1⟩ _ _ _
        rw [Port.settled_issue_write]
        exact hbusy.grant hfresh hrecv
    · next pi hrecv =>
      obtain ⟨rfl, hal'⟩ := hal.recv hret .idle (by decide)
      have hfin := hbusy.finish_eq
      rw [Tables.finish, hrecv] at hfin
      obtain ⟨htab, rfl⟩ := Prod.mk.inj hfin
      exact ⟨{ c with fin := c.fin + 1, allocs := c.allocs + 1 }, { h with
        le_fin := h.le_fin.trans (Nat.le_succ _)
        le_s2 := hs2.ge
        fillS2ToOut := h.fillS2ToOut_concat
        fillS2 := ⟨hs2, htab⟩
        alloc := hal' }⟩
  · exact ⟨c, h⟩

theorem Inv.fillS2_writeData (h : Inv e t Q c s) (hst : s.fillS2State = .writeData) :
    ∃ c', Inv e t Q c' (s.fillS2 e) := by
  have hinv := h.fillS2
  have hal := h.alloc
  rw [Pipe.fillS2, hst]
  rw [hst] at hinv hal
  obtain ⟨hs2, hbusy⟩ := hinv
  have hfin := hbusy.finish_eq
  rw [Tables.finish] at hfin
  obtain ⟨htab, hpi⟩ := Prod.mk.inj hfin
  dsimp only
  rw [hpi]
  refine ⟨{ c with fin := c.fin + 1 }, { h with
    le_fin := h.le_fin.trans (Nat.le_succ _)
    le_s2 := hs2.ge
    fillS2ToOut := h.fillS2ToOut_concat
    fillS1 := ?_
    fillS2 := ⟨hs2, ?_⟩
    alloc := hal.of_ne (by decide : AllocState.writeData ≠ .recvRet)
      (by decide : AllocState.idle ≠ .recvRet) }⟩
  · simp only [FillS1Inv, Port.stream_issue_write]
    exact h.fillS1
  · change (⟨s.bram.settled, (s.dram.issue (.write _ _)).settled, c.allocs⟩ : Tables) = _
    rw [Port.settled_issue_write]
    exact htab

include hinit hfresh in
theorem Inv.fillS2_step (h : Inv e t Q c s) : ∃ c', Inv e t Q c' (s.fillS2 e) := by
  cases hst : s.fillS2State with
  | idle => exact h.fillS2_idle hinit hfresh hst
  | recvRet => exact h.fillS2_recvRet hfresh hst
  | writeData => exact h.fillS2_writeData hst

/-! ### `demux` and the reservation table -/

theorem onChannel_succ (ch : Channel) (k : ℕ) :
    onChannel ch (window (replyOf e t Q) 0 (k + 1)) = onChannel ch (window (replyOf e t Q) 0 k)
      ++ if (Q k).1 = ch then [(finished e t Q k).demux] else [] := by
  rw [window_concat (Nat.zero_le _), onChannel_concat]
  rfl

include hinit hfresh in
theorem Inv.demux (h : Inv e t Q c s) : ∃ c', Inv e t Q c' s.demux := by
  rw [Pipe.demux]
  split
  · next pi rest hpi =>
    obtain ⟨hlt, rfl, rfl⟩ := window_eq_cons (h.fillS2ToOut.symm.trans hpi)
    have hpop (x : TableRequest) : c.popped + (s.addrPopReq ++ [x]).length = c.out + 1 := by
      rw [List.length_append, ← Nat.add_assoc, h.addrPopReq]
      rfl
    rw [channel_finished hinit hfresh]
    -- the reply goes to the channel of the request; the other one stays
    cases hch : (Q c.out).1 with
    | read =>
      refine ⟨{ c with out := c.out + 1 }, { h with
        le_out := h.le_out.trans (Nat.le_succ _)
        le_fin := hlt
        fillS2ToOut := rfl
        addrPopReq := hpop _
        rdReply := ?_
        wrReply := ?_ }⟩
      · rw [onChannel_succ, if_pos hch, ← h.rdReply]
      · rw [onChannel_succ, if_neg (by rw [hch]; nofun), ← h.wrReply, List.append_nil]
    | write =>
      refine ⟨{ c with out := c.out + 1 }, { h with
        le_out := h.le_out.trans (Nat.le_succ _)
        le_fin := hlt
        fillS2ToOut := rfl
        addrPopReq := hpop _
        rdReply := ?_
        wrReply := ?_ }⟩
      · rw [onChannel_succ, if_neg (by rw [hch]; nofun), ← h.rdReply, List.append_nil]
      · rw [onChannel_succ, if_pos hch, ← h.wrReply]
  · exact ⟨c, h⟩

theorem Inv.le_res_of_out (h : Inv e t Q c s) : c.out ≤ c.res :=
  h.le_fin.trans (h.le_s2.trans
    (h.le_s1out.trans (h.le_s1.trans (h.le_cmp.trans (h.le_rb.trans h.le_res)))))

theorem Inv.servePop (h : Inv e t Q c s) : ∃ c', Inv e t Q c' s.servePop := by
  rw [Pipe.servePop]
  split
  · next x rest hreq =>
    have hpop := h.addrPopReq
    rw [hreq, List.length_cons] at hpop
    have hlt : c.popped < c.out := by omega
    have hcons := window_cons (g := bramIndexOf Q) (hlt.trans_le h.le_res_of_out)
    have hring := h.ring
    have hnodup := h.nodup
    rw [hcons] at hring hnodup
    exact ⟨{ c with popped := c.popped + 1 }, { h with
      le_out := hlt
      addrPopReq := by change c.popped + 1 + rest.length = c.out; omega
      ring := hring.pop
      nodup := hnodup.of_cons
      readBram := h.readBram }⟩
  · exact ⟨c, h⟩

theorem Inv.serveResv (h : Inv e t Q c s) : ∃ c', Inv e t Q c' s.serveResv := by
  have hinv := h.readBram
  rw [Pipe.serveResv]
  split
  · next req rest hreq =>
    rw [ReadBramInv] at hinv
    split at hinv
    · rw [hreq] at hinv
      cases hinv.2.1
    · rw [hreq] at hinv
      cases hinv.2.2.2.1
    · next hst =>
      rw [hreq] at hinv
      obtain ⟨hrd, hindex, ⟨hreqs, hres, hresrb⟩ | ⟨hreqs, -⟩⟩ := hinv
      · obtain ⟨rfl, rfl⟩ := List.cons.inj hreqs
        have hle : c.popped ≤ c.res := h.le_out.trans h.le_res_of_out
        -- the index is free and becomes reserved, or it is in use and the table stays
        rcases h.ring.resv (bramIndexOf Q c.rb) with ⟨hsucc, hnot, hring⟩ | ⟨hfail, hsame, -⟩
        · rw [← hresrb, ← window_concat hle] at hring
          have hnodup : (window (bramIndexOf Q) c.popped (c.res + 1)).Nodup := by
            rw [window_concat hle, List.nodup_append]
            refine ⟨h.nodup, List.nodup_singleton _, fun a ha b hb heq ↦ hnot ?_⟩
            rw [List.mem_singleton] at hb
            rw [← hresrb, ← hb, ← heq]
            exact ha
          refine ⟨{ c with res := c.res + 1 }, { h with
            le_res := h.le_res.trans (Nat.le_succ _)
            le_rd := by rw [hrd, hresrb]
            ring := hresrb ▸ hring
            nodup := hnodup
            readBram := ?_ }⟩
          rw [ReadBramInv]
          simp only [hst]
          exact ⟨hrd, hindex, .inr ⟨trivial, _, by rw [hres]; rfl, by rw [if_pos hsucc, hresrb]⟩⟩
        · refine ⟨c, { h with ring := hsame.symm ▸ h.ring, readBram := ?_ }⟩
          rw [ReadBramInv]
          simp only [hst]
          exact ⟨hrd, hindex,
            .inr ⟨trivial, _, by rw [hres]; rfl, by rw [if_neg hfail, hresrb]; rfl⟩⟩
      · cases hreqs
  · exact ⟨c, h⟩

/-- Executing commands of the BRAM changes neither what it will hold nor what will be read. -/
theorem Inv.with_bram (h : Inv e t Q c s) {p : Port (BitVec 6) Bucket}
    (hsettled : p.settled = s.bram.settled)
    (hstream : p.stream = s.bram.stream) : Inv e t Q c { s with bram := p } :=
  { h with
    bramStream := hstream.trans h.bramStream
    fillS2 := by
      simp only [hsettled]
      exact h.fillS2 }

theorem Inv.with_dram (h : Inv e t Q c s) {p : Port (BitVec 32) Bucket}
    (hsettled : p.settled = s.dram.settled)
    (hstream : p.stream = s.dram.stream) : Inv e t Q c { s with dram := p } :=
  { h with
    fillS1 := by
      simp only [FillS1Inv, hstream]
      exact h.fillS1
    fillS2 := by
      simp only [hsettled]
      exact h.fillS2 }

theorem Inv.answerAlloc (h : Inv e t Q c s) : Inv e t Q c (s.answerAlloc e) := by
  rw [Pipe.answerAlloc]
  split
  · next n hn =>
    have hret := h.alloc.ret
    have hasked := h.alloc.asked
    rw [hn] at hret hasked
    refine { h with alloc := ⟨?_, ?_⟩ }
    · rw [window_cons (by omega)] at hret
      rw [List.append_assoc, ← hret, Nat.add_assoc, Nat.add_comm 1]
      rfl
    · rw [← hasked]
      exact Nat.succ_add_eq_add_succ _ _
  · exact h

end Steps

/-! ## Runs -/

section Run

variable {e : Env} {t : Tables} {Q : ℕ → Call} {c : Marks} {s : Pipe} (hinit : t.Initial e)
  (hfresh : ∀ n, e.Fresh n)

include hinit hfresh in
/-- **The step lemma.** -/
theorem Inv.step (h : Inv e t Q c s) (a : Pipe.Action) (hQ : Follows Q (s.step e a).accepted) :
    ∃ c', Inv e t Q c' (s.step e a) := by
  cases a with
  | arriveRd req => exact ⟨c, { h with }⟩
  | arriveWr req => exact ⟨c, { h with }⟩
  | remux => exact h.remux hQ
  | computeHash => exact h.computeHash
  | readBram => exact h.readBram_step hinit hfresh
  | compareBram => exact h.compareBram
  | fillS1 => exact h.fillS1_step hinit hfresh
  | fillS2 => exact h.fillS2_step hinit hfresh
  | demux => exact h.demux hinit hfresh
  | addressReservationTable =>
    obtain ⟨c', h'⟩ := h.servePop
    exact h'.serveResv
  | execBram => exact ⟨c, h.with_bram (Port.settled_exec _) (Port.stream_exec _)⟩
  | execDram => exact ⟨c, h.with_dram (Port.settled_exec _) (Port.stream_exec _)⟩
  | answerAlloc => exact ⟨c, h.answerAlloc⟩

end Run

end FpgaOs.Mapping
