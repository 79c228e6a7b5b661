import FpgaOs.Memcached.Decisions

/-!
# The pipeline does not get stuck

Every request that is sent is answered: whatever a call does makes `Pipeline.work` smaller, and when
no call does anything any more all requests that have been sent have been answered, and all writes
are in memory (`Inv.finished`).

With the filter enabled there is a feedback: `concurrencyControl` holds requests back, and what lets
them go comes from the other end of the pipeline. If nothing moves, nothing is on its way between
`memRead` and `memWriteWithBuddy`, so all requests that have been let through are completed. Then
the filter is empty, and a request that is held back would be let through.
-/

namespace FpgaOs.Memcached

open Access Machine

/-! ## What is left to be done -/

namespace InternalMd

variable (md : InternalMd)

/-- The number of words that are read for a request. -/
def count : ℕ := (memCount md.keyLength).toNat

/-- What a request still costs, when `ht_compare` is done with it. -/
def costWrite : ℕ := 3 * md.count + 12

/-- When `memRead` is done with it. -/
def costCompare : ℕ := 3 * md.count + 14

/-- When `concurrencyControl` is done with it. -/
def costRead : ℕ := 6 * md.count + 17

end InternalMd

def Concurrency.work (s : Concurrency) : ℕ :=
  match s.state with
  | .idle => 1
  | .wait => s.inputWordMd.costRead + 6
  | .push => s.inputWordMd.costRead + 5
  | .stream => 1
  | .popIdle => 0
  | .popWait => s.inputWordMd.costRead + 5

def Compare.work (s : Compare) : ℕ :=
  match s.state with
  | .idle => 0
  | _ => s.inDataMd.costWrite + 1

def MemWrite.work (s : MemWrite) : ℕ :=
  (match s.state with
    | .idle => 0
    | .eval => 3 * s.inputWordMd.count + 10
    | .setRest => 3
    | .consume => 0
    | .initMem => 1) + bif s.memInitialized then 0 else 2

def Bram.work (s : Bram) : ℕ :=
  (s.aggregateMemCmd.map fun c ↦ 3 * c.count.toNat + 1).sum
    + match s.state with
      | .idle => 0
      | .access => 3 * s.inputWord.count.toNat

def MemCtrlWord.work (c : MemCtrlWord) : ℕ := 3 * c.count.toNat + 2

/-- What is in the streams, each unit by what it may still cause. -/
def Streams.work (q : Streams) : ℕ :=
  4 * q.in2cc.length + 3 * q.cc2memRead.length + 2 * q.memRd2comp.length + q.comp2memWrKey.length
    + (q.in2ccMd.map (·.costRead + 3)).sum + (q.cc2memReadMd.map InternalMd.costRead).sum
    + (q.memRd2compMd.map InternalMd.costCompare).sum
    + (q.comp2memWrMd.map InternalMd.costWrite).sum
    + (q.memRdCtrl.map MemCtrlWord.work).sum + (q.memWrCtrl.map MemCtrlWord.work).sum
    + 2 * q.memRdData.length + q.comp2memWrMemData.length + 2 * q.dec2cc.length

def Pipeline.work (s : Pipeline) : ℕ :=
  5 * s.words.length + (s.mds.map (·.costRead + 4)).sum + s.hashes.length + s.q.work
    + s.cc.work + s.cmp.work + s.memWr.work + s.bram.work

/-! ## Calls make it less -/

section Work

variable {α : Type*} {q : Streams}

theorem sum_map_concat (f : α → ℕ) (l : List α) (a : α) :
    ((l ++ [a]).map f).sum = (l.map f).sum + f a := by
  rw [List.map_append, List.sum_append, List.map_singleton, List.sum_singleton]

theorem sum_map_cons (f : α → ℕ) (l : List α) (a : α) :
    ((a :: l).map f).sum = f a + (l.map f).sum := rfl

theorem length_concat (l : List α) (a : α) : (l ++ [a]).length = l.length + 1 := by
  rw [List.length_append, List.length_singleton]

theorem work_concurrencyControl (s : Concurrency) (q : Streams) :
    concurrencyControl s q.toCcStreams = (s, q.toCcStreams)
      ∨ { q with toCcStreams := (concurrencyControl s q.toCcStreams).2 }.work
        + (concurrencyControl s q.toCcStreams).1.work < q.work + s.work := by
  rw [concurrencyControl]
  split
  · next hstate =>
    split
    · right
      simp only [Streams.work, Concurrency.work, hstate]
      omega
    · split
      · next md mds word words hash hashes hmd hword hhash =>
        right
        simp only [Streams.work, Concurrency.work, hstate, hmd, hword, sum_map_cons,
          List.length_cons]
        split <;> simp only [InternalMd.costRead, InternalMd.count] <;> omega
      · exact .inl rfl
  · next hstate =>
    split
    · right
      simp only [Streams.work, Concurrency.work, hstate]
      omega
    · split
      · right
        simp only [Streams.work, Concurrency.work, hstate]
        omega
      · exact .inl rfl
  · next hstate =>
    right
    simp only [Streams.work, Concurrency.work, hstate, sum_map_concat, length_concat]
    cases s.inputWord.eop <;> simp only [if_true, Bool.false_eq_true, if_false] <;> omega
  · next hstate =>
    split
    · exact .inl rfl
    · next word words hword =>
      right
      simp only [Streams.work, Concurrency.work, hstate, hword, length_concat, List.length_cons]
      cases word.eop <;> simp only [if_true, Bool.false_eq_true, if_false] <;> omega
  · next hstate =>
    split
    · exact .inl rfl
    · next pop pops hpop =>
      right
      simp only [Streams.work, Concurrency.work, hstate, hpop, List.length_cons]
      omega
  · next hstate =>
    split
    · exact .inl rfl
    · next pop pops hpop =>
      right
      simp only [Streams.work, Concurrency.work, hstate, hpop, List.length_cons]
      omega

theorem work_memRead (s : MemRdState) (q : Streams) :
    memRead s q = (s, q) ∨ (memRead s q).2.work < q.work := by
  cases s with
  | idle =>
    rw [memRead]
    split
    · next md mds word words hmd hword =>
      right
      simp only [Streams.work, hmd, hword, sum_map_cons, sum_map_concat, length_concat,
        List.length_cons, InternalMd.costRead, InternalMd.costCompare]
      split
      · simp only [sum_map_concat, MemCtrlWord.work, InternalMd.count]
        omega
      · omega
    · exact .inl rfl
  | stream =>
    rw [memRead]
    split
    · exact .inl rfl
    · next word words hword =>
      right
      simp only [Streams.work, hword, length_concat, List.length_cons]
      omega

theorem work_htCompareStage (s : Compare) (q : Streams) :
    htCompareStage s q = (s, q)
      ∨ (htCompareStage s q).2.work + (htCompareStage s q).1.work < q.work + s.work := by
  rw [htCompareStage]
  split
  · next hstate =>
    split
    · exact .inl rfl
    · next md mds hmd =>
      right
      simp only [Streams.work, Compare.work, hstate, hmd, sum_map_cons, InternalMd.costWrite,
        InternalMd.costCompare]
      split <;> omega
  · next hstate =>
    split
    · exact .inl rfl
    · next d ds hd =>
      right
      simp only [Streams.work, Compare.work, hstate, hd, length_concat, List.length_cons]
      omega
  · next hstate =>
    split
    · next d ds word words hd hword =>
      right
      by_cases hzero : restLength s.keyLength = 0
      · simp only [Streams.work, Compare.work, hstate, hd, hword, if_pos hzero, sum_map_concat,
          length_concat, List.length_cons]
        omega
      · simp only [Streams.work, Compare.work, hstate, hd, hword, if_neg hzero, length_concat,
          List.length_cons]
        omega
    · exact .inl rfl
  · next hstate =>
    split
    · exact .inl rfl
    · next word words hword =>
      right
      by_cases hzero : restLength s.keyLength = 0
      · simp only [Streams.work, Compare.work, hstate, hword, if_pos hzero, sum_map_concat,
          length_concat, List.length_cons]
        omega
      · simp only [Streams.work, Compare.work, hstate, hword, if_neg hzero, length_concat,
          List.length_cons]
        omega

theorem work_memWriteWithBuddy (s : MemWrite) (q : Streams) :
    memWriteWithBuddy s q = (s, q)
      ∨ (memWriteWithBuddy s q).2.work + (memWriteWithBuddy s q).1.work < q.work + s.work := by
  rw [memWriteWithBuddy]
  split
  · next hstate =>
    by_cases hinit : s.memInitialized = true
    · rw [if_pos hinit]
      split
      · next md mds status statuses hmd hstatus =>
        right
        simp only [Streams.work, MemWrite.work, hstate, hmd, sum_map_cons, InternalMd.costWrite]
        omega
      · exact .inl rfl
    · rw [if_neg hinit]
      right
      simp only [MemWrite.work, hstate, Bool.eq_false_of_not_eq_true hinit, cond_true, cond_false]
      omega
  · next hstate =>
    split
    · exact .inl rfl
    · next d ds hd =>
      right
      dsimp only
      split
      · simp only [MemWrite.evalGet, Streams.work, MemWrite.work, hstate, hd, length_concat,
          List.length_cons]
        omega
      split
      · rw [MemWrite.evalSet]
        split <;>
          simp only [Streams.work, MemWrite.work, hstate, hd, length_concat, List.length_cons,
            sum_map_concat, MemCtrlWord.work, InternalMd.count] <;>
          omega
      split
      · have hone : (1 : BitVec 8).toNat = 1 := rfl
        rw [MemWrite.evalDelete]
        split <;>
          simp only [Streams.work, MemWrite.work, hstate, hd, length_concat, List.length_cons,
            sum_map_concat, MemCtrlWord.work, InternalMd.count, hone] <;>
          omega
      · simp only [Streams.work, hd, List.length_cons]
        omega
  · next hstate =>
    split
    · next word words d ds hword hd =>
      right
      simp only [Streams.work, MemWrite.work, hstate, hword, hd, List.length_cons]
      cases word.eop <;>
        simp only [if_true, Bool.false_eq_true, if_false, length_concat] <;>
        omega
    · exact .inl rfl
  · next hstate =>
    split
    · next word words d ds hword hd =>
      right
      simp only [Streams.work, MemWrite.work, hstate, hword, hd, List.length_cons]
      cases word.eop <;> simp only [if_true, Bool.false_eq_true, if_false] <;> omega
    · exact .inl rfl
  · next hstate =>
    right
    simp only [MemWrite.work, hstate]
    omega

theorem work_cmdAggregator (s : Bram) (q : Streams) :
    cmdAggregator s q = (s, q)
      ∨ (cmdAggregator s q).2.work + (cmdAggregator s q).1.work < q.work + s.work := by
  have hcount : ∀ c : MemCtrlWord, (c.count.setWidth 6).toNat ≤ c.count.toNat := by
    intro c
    rw [BitVec.toNat_setWidth]
    exact Nat.mod_le _ _
  rw [cmdAggregator]
  split
  · next c cs hc =>
    right
    have hle := hcount c
    simp only [Streams.work, Bram.work, hc, sum_map_cons, sum_map_concat, MemCtrlWord.work]
    omega
  · next hnone =>
    split
    · next c cs hc =>
      right
      have hle := hcount c
      simp only [Streams.work, Bram.work, hc, sum_map_cons, sum_map_concat, MemCtrlWord.work]
      omega
    · exact .inl rfl

theorem work_next {s : Bram} (hstate : s.state = .access) (hfits : s.inputWord.Fits) :
    s.next.work + 3 = s.work := by
  rw [Bram.next]
  split
  · next hone =>
    simp only [Bram.work, hstate, hone]
    rfl
  · next hone =>
    have hnext := (hfits.next hone).1
    simp only [Bram.work, hstate]
    omega

theorem work_memAccess (s : Bram) (q : Streams) (hfits : s.state = .access → s.inputWord.Fits) :
    memAccess s q = (s, q)
      ∨ (memAccess s q).2.work + (memAccess s q).1.work < q.work + s.work := by
  rw [memAccess]
  split
  · next hstate =>
    split
    · exact .inl rfl
    · next c cs hc =>
      right
      simp only [Bram.work, hstate, hc, sum_map_cons]
      omega
  · next hstate =>
    have hnext := work_next hstate (hfits hstate)
    dsimp only
    split
    · right
      simp only [Streams.work, length_concat]
      omega
    · split
      · exact .inl rfl
      · next d ds hd =>
        right
        have hwrite : ∀ mem : ℕ → Word,
            ({ s.next with memArrayHashTable := mem } : Bram).work = s.next.work := fun _ ↦ rfl
        rw [hwrite]
        simp only [Streams.work]
        omega

namespace Pipeline

variable (s : Pipeline)

theorem work_word : s.step .word = s ∨ (s.step .word).work < s.work := by
  rw [step]
  split
  · exact .inl rfl
  · next w words hw =>
    right
    simp only [work, Streams.work, hw, length_concat, List.length_cons]
    omega

theorem work_md : s.step .md = s ∨ (s.step .md).work < s.work := by
  rw [step]
  split
  · exact .inl rfl
  · next m mds hm =>
    right
    simp only [work, Streams.work, hm, sum_map_concat, sum_map_cons]
    omega

theorem work_hash : s.step .hash = s ∨ (s.step .hash).work < s.work := by
  rw [step]
  split
  · exact .inl rfl
  · next k hashes hk =>
    right
    simp only [work, Streams.work, hk, List.length_cons]
    omega

/-- What a stage has done is also done for the pipeline that has its state and the streams. -/
theorem work_call {σ : Type*} {a : σ} {result : σ × Streams} {μ : σ → ℕ}
    (put : σ → Streams → Pipeline) (hput : put a s.q = s)
    (hwork : ∀ a' q', q'.work + μ a' < s.q.work + μ a → (put a' q').work < s.work)
    (h : result = (a, s.q) ∨ result.2.work + μ result.1 < s.q.work + μ a) :
    put result.1 result.2 = s ∨ (put result.1 result.2).work < s.work := by
  rcases h with rfl | hlt
  · exact .inl hput
  · exact .inr (hwork _ _ hlt)

end Pipeline

theorem Inv.work_step {h : HashTable} {rs : List TableRequest} {js : List Job} {p : Places}
    {s : Pipeline} (h' : Inv h rs js p s) (e : Pipeline.Event) :
    s.step e = s ∨ (s.step e).work < s.work := by
  cases e with
  | word => exact s.work_word
  | md => exact s.work_md
  | hash => exact s.work_hash
  | concurrencyControl =>
    rcases work_concurrencyControl s.cc s.q with heq | hlt
    · left
      rw [Pipeline.step, heq]
    · right
      simp only [Pipeline.step, Pipeline.work]
      dsimp only at hlt
      omega
  | memRead =>
    rcases work_memRead s.memRd s.q with heq | hlt
    · left
      rw [Pipeline.step, heq]
    · right
      simp only [Pipeline.step, Pipeline.work]
      omega
  | htCompare =>
    refine s.work_call (fun a q ↦ { s with cmp := a, q }) rfl (fun a q hlt ↦ ?_)
      (work_htCompareStage s.cmp s.q)
    simp only [Pipeline.work]
    omega
  | memWrite =>
    refine s.work_call (fun a q ↦ { s with memWr := a, q }) rfl (fun a q hlt ↦ ?_)
      (work_memWriteWithBuddy s.memWr s.q)
    simp only [Pipeline.work]
    omega
  | cmdAggregator =>
    refine s.work_call (fun a q ↦ { s with bram := a, q }) rfl (fun a q hlt ↦ ?_)
      (work_cmdAggregator s.bram s.q)
    simp only [Pipeline.work]
    omega
  | memAccess =>
    have hfits : s.bram.state = .access → s.bram.inputWord.Fits := fun hstate ↦ by
      refine h'.fits _ (List.mem_append_left _ ?_)
      rw [Bram.commands, if_pos hstate]
      exact List.mem_cons_self
    refine s.work_call (fun a q ↦ { s with bram := a, q }) rfl (fun a q hlt ↦ ?_)
      (work_memAccess s.bram s.q hfits)
    simp only [Pipeline.work]
    omega

end Work

/-! ## When nothing moves -/

section Stuck

variable {h : HashTable} {rs : List TableRequest} {js : List Job} {p : Places} {s : Pipeline}

/-- Nothing happens, unless a request is sent. -/
abbrev Pipeline.Quiet (s : Pipeline) : Prop := Stuck Pipeline.step (· ≠ .md) s

theorem Pipeline.Quiet.words_eq (hstuck : s.Quiet) : s.words = [] ∧ s.hashes = [] := by
  have hword : s.step .word = s := hstuck .word (by decide)
  have hhash : s.step .hash = s := hstuck .hash (by decide)
  rw [Pipeline.step] at hword
  rw [Pipeline.step] at hhash
  refine ⟨?_, ?_⟩
  · cases hw : s.words with
    | nil => rfl
    | cons w words =>
      rw [hw] at hword
      exact absurd ((congrArg Pipeline.words hword).trans hw).symm (List.cons_ne_self _ _)
  · cases hk : s.hashes with
    | nil => rfl
    | cons k hashes =>
      rw [hk] at hhash
      exact absurd ((congrArg Pipeline.hashes hhash).trans hk).symm (List.cons_ne_self _ _)

/-- What `memWriteWithBuddy` waits for when a call of it does nothing. -/
theorem MemWrite.waits_of_eq {s : MemWrite} {q : Streams} (h : memWriteWithBuddy s q = (s, q)) :
    s.state = .idle ∧ (q.comp2memWrMd = [] ∨ q.comp2memWrStatus = [])
      ∨ s.state = .eval ∧ q.comp2memWrMemData = []
      ∨ (s.state = .setRest ∨ s.state = .consume)
        ∧ (q.comp2memWrKey = [] ∨ q.comp2memWrMemData = []) := by
  have hs : (memWriteWithBuddy s q).1 = s := congrArg Prod.fst h
  have hq : (memWriteWithBuddy s q).2 = q := congrArg Prod.snd h
  rw [memWriteWithBuddy] at hs hq
  cases hstate : s.state with
  | idle =>
    refine .inl ⟨rfl, ?_⟩
    rw [hstate] at hs
    dsimp only at hs
    by_cases hinit : s.memInitialized = true
    · rw [if_pos hinit] at hs
      cases hmd : q.comp2memWrMd with
      | nil => exact .inl rfl
      | cons md mds =>
        cases hstatus : q.comp2memWrStatus with
        | nil => exact .inr rfl
        | cons status statuses =>
          rw [hmd, hstatus] at hs
          exact MemWrState.noConfusion ((congrArg MemWrite.state hs).trans hstate)
    · rw [if_neg hinit] at hs
      exact MemWrState.noConfusion ((congrArg MemWrite.state hs).trans hstate)
  | initMem =>
    rw [hstate] at hs
    exact MemWrState.noConfusion ((congrArg MemWrite.state hs).trans hstate)
  | eval =>
    refine .inr (.inl ⟨rfl, ?_⟩)
    cases hd : q.comp2memWrMemData with
    | nil => rfl
    | cons d ds =>
      -- whatever the operation is, the word has been read
      have htail : ∀ q' : Streams, q'.comp2memWrMemData = ds → q' ≠ q := by
        rintro q' hds rfl
        exact List.cons_ne_self _ _ (hd.symm.trans hds)
      rw [hstate, hd] at hq
      dsimp only at hq
      split at hq
      · exact absurd hq (htail _ rfl)
      split at hq
      · refine absurd hq (htail _ ?_)
        rw [MemWrite.evalSet]
        split <;> rfl
      split at hq
      · refine absurd hq (htail _ ?_)
        rw [MemWrite.evalDelete]
        split <;> rfl
      · exact absurd hq (htail _ rfl)
  | setRest | consume =>
    refine .inr (.inr ⟨by decide, ?_⟩)
    rw [hstate] at hq
    cases hkey : q.comp2memWrKey with
    | nil => exact .inl rfl
    | cons w ws =>
      cases hd : q.comp2memWrMemData with
      | nil => exact .inr rfl
      | cons d ds =>
        rw [hkey, hd] at hq
        exact absurd ((congrArg Streams.comp2memWrKey hq).trans hkey).symm (List.cons_ne_self _ _)

/-- What `ht_compare` still has to send is for requests that it has not compared. -/
theorem Comparing.remaining_le {c : Compare} {done begun : ℕ} {keys : List KeyWord}
    {data : List Word} (h : Comparing js c done begun keys data) :
    keys.length + Link.remaining Job.words js begun ≤ Link.remaining Job.words js done
      ∧ data.length + Link.remaining Job.data js begun ≤ Link.remaining Job.data js done := by
  cases h with
  | idle _ hbegun hkeys hdata =>
    rw [hbegun, hkeys, hdata, List.length_nil, Nat.zero_add, List.length_nil, Nat.zero_add]
    exact ⟨le_rfl, le_rfl⟩
  | head j hj _ _ _ _ hbegun hkeys hdata =>
    rw [hbegun, hkeys, hdata, Link.remaining_of_getElem? hj, Link.remaining_of_getElem? hj]
    exact ⟨le_rfl, le_rfl⟩
  | compare j hj _ _ _ hle _ hlen _ hbegun =>
    have hlength : j.data.length = j.words.length + 1 := by
      rw [j.data_eq, List.length_cons, j.length_saved]
    rw [hbegun, Link.remaining_of_getElem? hj, Link.remaining_of_getElem? hj, hlen]
    exact ⟨Nat.add_le_add_right hle _, by omega⟩

/-- What is in the queues is at least what `memWriteWithBuddy` has begun with and not yet got. -/
theorem Inv.wr_length_le (h' : Inv h rs js p s) :
    p.wrKeys.length + Link.remaining Job.words js p.wr
        ≤ s.q.comp2memWrKey.length + Link.remaining Job.words js p.cmpDone
      ∧ p.wrData.length + Link.remaining Job.data js p.wr
        ≤ s.q.comp2memWrMemData.length + Link.remaining Job.data js p.cmpDone := by
  obtain ⟨hkeys, hdata⟩ := h'.cmp.remaining_le
  rw [← h'.cmpKeys.length_eq, ← h'.cmpData.length_eq]
  exact ⟨Nat.add_le_add_left hkeys _, Nat.add_le_add_left hdata _⟩

/-- In the middle of a key it does not wait. -/
theorem Inv.not_waits (h' : Inv h rs js p s) (hkeys : p.wrKeys ≠ [])
    (hlen : p.wrData.length = p.wrKeys.length) :
    ¬(s.q.comp2memWrKey = [] ∨ s.q.comp2memWrMemData = []) := by
  obtain ⟨hleKeys, hleData⟩ := h'.wr_length_le
  have hpos := List.length_pos_iff.mpr hkeys
  have hwr : p.wr ≤ p.cmpDone := h'.wr_le.trans h'.wrMd_le
  have hremKeys := @Link.remaining_le _ _ Job.words js _ _ hwr
  have hremData := @Link.remaining_le _ _ Job.data js _ _ hwr
  rintro (hnil | hnil)
  · rw [hnil, List.length_nil] at hleKeys
    omega
  · rw [hnil, List.length_nil] at hleData
    omega

/-- When `memWriteWithBuddy` cannot move, it has done with all that has been compared. -/
theorem Inv.memWr_of_stuck (h' : Inv h rs js p s) (hstuck : s.Quiet) :
    p.wr = p.cmpDone ∧ p.owed = [] ∧ p.completed = p.wr := by
  have hstep := hstuck .memWrite (by decide)
  rw [Pipeline.step] at hstep
  have hwaits := MemWrite.waits_of_eq
    (Prod.ext (congrArg Pipeline.memWr hstep) (congrArg Pipeline.q hstep))
  have hcmpDone : p.cmpDone ≤ js.length := (h'.cmpDone_le.trans h'.asked_le).trans h'.read_le
  cases h'.memWr with
  | idle hstate hbegun _ _ howed hcompleted =>
    refine ⟨?_, howed, hcompleted⟩
    have hwrMd : p.wrMd ≤ js.length := h'.wrMd_le.trans hcmpDone
    have hsingle : ∀ {α : Type} (f : Job → α), ∀ j ∈ js, [f j] ≠ [] :=
      fun f j _ ↦ List.cons_ne_nil _ _
    have hcmpMds := h'.cmpMds
    have hcmpStatus := h'.cmpStatus
    rw [← hbegun]
    obtain ⟨-, hnil | hnil⟩ | ⟨heval, -⟩ | ⟨hrest, -⟩ := hwaits
    · rw [hnil] at hcmpMds
      exact hcmpMds.eq_of_nil (hsingle Job.md) hcmpDone hwrMd
    · rw [hnil] at hcmpStatus
      exact hcmpStatus.eq_of_nil (hsingle Job.status) hcmpDone hwrMd
    · rw [heval] at hstate
      exact absurd hstate (by decide)
    · rcases hstate with hstate | hstate <;> rw [hstate] at hrest <;> exact absurd hrest (by decide)
  | eval j hj hstate _ _ hbegun _ hdata =>
    have hlt : p.wr < p.cmpDone := (Nat.lt_of_succ_le hbegun.ge).trans_le h'.wrMd_le
    have hless := Link.remaining_lt (fun j (_ : j ∈ js) ↦ j.data_ne_nil) hlt (hlt.trans_le hcmpDone)
    rw [hstate] at hwaits
    obtain ⟨hidle, -⟩ | ⟨-, hnil⟩ | ⟨hrest, -⟩ := hwaits
    · exact MemWrState.noConfusion hidle
    · have hle := h'.wr_length_le.2
      rw [hnil, hdata, List.length_nil, Nat.zero_add] at hle
      omega
    · exact absurd hrest (by decide)
  | setRest hstate hmarked hlen | consume hstate hmarked hlen =>
    rw [hstate] at hwaits
    obtain ⟨hidle, -⟩ | ⟨heval, -⟩ | ⟨-, hnil⟩ := hwaits
    · exact MemWrState.noConfusion hidle
    · exact MemWrState.noConfusion heval
    · exact absurd hnil (h'.not_waits hmarked.ne_nil hlen)

/-- When the memory cannot move either, it has executed all commands. -/
theorem Inv.bram_of_stuck (h' : Inv h rs js p s) (hstuck : s.Quiet) :
    s.accesses = [] ∧ p.asked = p.read := by
  obtain ⟨-, howed, -⟩ := h'.memWr_of_stuck hstuck
  have hagg : s.step .cmdAggregator = s := hstuck .cmdAggregator (by decide)
  have hacc : s.step .memAccess = s := hstuck .memAccess (by decide)
  rw [Pipeline.step] at hagg
  rw [Pipeline.step] at hacc
  have hq : (Memcached.cmdAggregator s.bram s.q).2 = s.q := congrArg Pipeline.q hagg
  have hbram : (Memcached.memAccess s.bram s.q).1 = s.bram := congrArg Pipeline.bram hacc
  have hqacc : (Memcached.memAccess s.bram s.q).2 = s.q := congrArg Pipeline.q hacc
  have hwr : s.q.memWrCtrl = [] := by
    cases hc : s.q.memWrCtrl with
    | nil => rfl
    | cons c cs =>
      rw [Memcached.cmdAggregator, hc] at hq
      exact absurd ((congrArg Streams.memWrCtrl hq).trans hc).symm (List.cons_ne_self _ _)
  have hrd : s.q.memRdCtrl = [] := by
    cases hc : s.q.memRdCtrl with
    | nil => rfl
    | cons c cs =>
      rw [Memcached.cmdAggregator, hwr, hc] at hq
      exact absurd ((congrArg Streams.memRdCtrl hq).trans hc).symm (List.cons_ne_self _ _)
  have hlink := h'.readCtrl
  rw [hrd] at hlink
  refine ⟨?_, hlink.eq_of_nil (fun _ _ ↦ List.cons_ne_nil _ _) h'.read_le
    (h'.asked_le.trans h'.read_le)⟩
  rw [Memcached.memAccess] at hbram hqacc
  cases hstate : s.bram.state with
  | idle =>
    rw [hstate] at hbram
    dsimp only at hbram
    have hcmds : s.bram.aggregateMemCmd = [] := by
      cases hc : s.bram.aggregateMemCmd with
      | nil => rfl
      | cons c cs =>
        rw [hc] at hbram
        exact MemState.noConfusion ((congrArg Bram.state hbram).trans hstate)
    rw [Pipeline.accesses, Pipeline.commands, Bram.commands, if_neg (by rw [hstate]; decide), hcmds,
      hwr]
    rfl
  | access =>
    rw [hstate] at hqacc
    dsimp only at hqacc
    have hcommands : s.commands = s.bram.inputWord :: s.bram.aggregateMemCmd := by
      rw [Pipeline.commands, Bram.commands, if_pos hstate, hwr]
      exact List.append_nil _
    have hfits := h'.fits s.bram.inputWord (hcommands ▸ List.mem_cons_self)
    by_cases hzero : s.bram.inputWord.rdOrWr = 0
    · rw [if_pos hzero] at hqacc
      exact absurd (congrArg Streams.memRdData hqacc)
        fun heq ↦ List.cons_ne_nil _ _ (List.append_right_eq_self.mp heq)
    · -- a word that it waits for has been accounted for, and nothing is owed
      have hlength := h'.length_data
      rw [howed, List.append_nil, Pipeline.accesses, hcommands, List.flatMap_cons,
        hfits.accesses_eq, if_neg hzero] at hlength
      rw [if_neg hzero] at hqacc
      cases hd : s.q.memWrData with
      | nil =>
        rw [hd] at hlength
        exact absurd hlength (Nat.succ_ne_zero _).symm
      | cons d ds =>
        rw [hd] at hqacc
        exact absurd ((congrArg Streams.memWrData hqacc).trans hd).symm (List.cons_ne_self _ _)

/-- When `concurrencyControl` cannot move, it waits for a request to be completed, or for one to
arrive. -/
theorem concurrencyControl_of_stuck {c : Concurrency} {q : CcStreams}
    (hstuck : concurrencyControl c q = (c, q)) :
    (c.state = .idle ∧ q.dec2cc = [] ∧ (q.in2ccMd = [] ∨ q.in2cc = [] ∨ q.hash2cc = []))
      ∨ (c.state = .wait ∧ q.dec2cc = []
        ∧ (c.hashFilter.full = true ∨ c.hashFilter.compare c.compareElement = true))
      ∨ (c.state = .stream ∧ q.in2cc = [])
      ∨ ((c.state = .popIdle ∨ c.state = .popWait) ∧ q.dec2cc = []) := by
  have hc := congrArg Prod.fst hstuck
  have hq := congrArg Prod.snd hstuck
  rw [concurrencyControl] at hc hq
  cases hstate : c.state with
  | idle =>
    rw [hstate] at hc hq
    dsimp only at hc hq
    by_cases hpops : q.dec2cc = []
    · refine .inl ⟨rfl, hpops, ?_⟩
      rw [if_neg (not_not.mpr hpops)] at hq
      cases hmds : q.in2ccMd with
      | nil => exact .inl rfl
      | cons md mds =>
        cases hwords : q.in2cc with
        | nil => exact .inr (.inl rfl)
        | cons w words =>
          cases hhash : q.hash2cc with
          | nil => exact .inr (.inr rfl)
          | cons k hashes =>
            rw [hmds, hwords, hhash] at hq
            exact absurd ((congrArg CcStreams.in2cc hq).trans hwords).symm (List.cons_ne_self _ _)
    · rw [if_pos hpops] at hc
      exact ConcState.noConfusion ((congrArg Concurrency.state hc).trans hstate)
  | wait =>
    rw [hstate] at hc
    dsimp only at hc
    by_cases hpops : q.dec2cc = []
    · refine .inr (.inl ⟨rfl, hpops, ?_⟩)
      rw [if_neg (not_not.mpr hpops)] at hc
      by_contra hfree
      rw [not_or] at hfree
      rw [if_pos hfree] at hc
      exact ConcState.noConfusion ((congrArg Concurrency.state hc).trans hstate)
    · rw [if_pos hpops] at hc
      exact ConcState.noConfusion ((congrArg Concurrency.state hc).trans hstate)
  | push =>
    rw [hstate] at hq
    exact absurd (congrArg CcStreams.cc2memRead hq)
      fun heq ↦ List.cons_ne_nil _ _ (List.append_right_eq_self.mp heq)
  | stream =>
    rw [hstate] at hq
    cases hwords : q.in2cc with
    | nil => exact .inr (.inr (.inl ⟨rfl, rfl⟩))
    | cons w words =>
      rw [hwords] at hq
      exact absurd ((congrArg CcStreams.in2cc hq).trans hwords).symm (List.cons_ne_self _ _)
  | popIdle =>
    rw [hstate] at hc
    cases hpops : q.dec2cc with
    | nil => exact .inr (.inr (.inr ⟨.inl rfl, rfl⟩))
    | cons pop pops =>
      rw [hpops] at hc
      exact ConcState.noConfusion ((congrArg Concurrency.state hc).trans hstate)
  | popWait =>
    rw [hstate] at hc
    cases hpops : q.dec2cc with
    | nil => exact .inr (.inr (.inr ⟨.inr rfl, rfl⟩))
    | cons pop pops =>
      rw [hpops] at hc
      exact ConcState.noConfusion ((congrArg Concurrency.state hc).trans hstate)

/-- Then it is between two words of different requests, and holds one back only if another one is
not completed. -/
theorem CcInv.of_stuck {rs : List CcRequest} {completed : ℕ} {c : Concurrency} {q : CcStreams}
    {mds : List InternalMd} {sentWords : List KeyWord} {sentMds : List InternalMd}
    (h : CcInv rs completed c q.in2cc (q.in2ccMd ++ mds) q.hash2cc q.dec2cc sentWords sentMds)
    (hstuck : concurrencyControl c q = (c, q)) :
    ∃ forwarded, forwarded <+: rs ∧ sentWords = forwarded.flatMap CcRequest.words
      ∧ sentMds = forwarded.map CcRequest.sentMd
      ∧ (completed = forwarded.length → forwarded.length + mds.length = rs.length) := by
  have hcases := concurrencyControl_of_stuck hstuck
  cases h with
  | idle forwarded rest p state sent split words_eq mds_eq hashes_eq sentWords_eq =>
    refine ⟨forwarded, ⟨rest, split⟩, sentWords_eq, sent.sentMds_eq, fun _ ↦ ?_⟩
    obtain ⟨-, -, hnone⟩ : c.state = .idle ∧ q.dec2cc = []
        ∧ (q.in2ccMd = [] ∨ q.in2cc = [] ∨ q.hash2cc = []) := by
      rcases state with state | ⟨state, hpops⟩
      · simpa [state] using hcases
      · simp [state, hpops] at hcases
    have hlength := congrArg List.length mds_eq
    rw [List.length_append, List.length_map] at hlength
    have hmds : q.in2ccMd = [] := by
      rcases hnone with hnone | hnone | hnone
      · exact hnone
      · -- the words of all requests have arrived, so there is no other request
        rw [words_eq] at hnone
        have hrest : rest = [] := List.eq_nil_iff_forall_not_mem.mpr fun r hr ↦
          r.marked.ne_nil (List.flatMap_eq_nil_iff.mp hnone r hr)
        rw [hrest] at mds_eq
        exact (List.append_eq_nil_iff.mp mds_eq).1
      · rw [hashes_eq, List.map_eq_nil_iff] at hnone
        rw [hnone] at mds_eq
        exact (List.append_eq_nil_iff.mp mds_eq).1
    rw [hmds, List.length_nil, Nat.zero_add] at hlength
    rw [← split, List.length_append, hlength]
  | held forwarded rest r ws p state sent split _ _ helement words_eq mds_eq hashes_eq
      sentWords_eq =>
    refine ⟨forwarded, ⟨r :: rest, split⟩, sentWords_eq, sent.sentMds_eq, fun hcompleted ↦ ?_⟩
    obtain ⟨-, hpops, hblocked⟩ : c.state = .wait ∧ q.dec2cc = []
        ∧ (c.hashFilter.full = true ∨ c.hashFilter.compare c.compareElement = true) := by
      rcases state with state | ⟨state, hpops⟩ | ⟨state, -⟩
      · simpa [state] using hcases
      · simp [state, hpops] at hcases
      · simp [state] at hcases
    cases hen : c.hashFilter.enabled with
    | false =>
      obtain ⟨hcompare, hfull⟩ := ConcurrencyFilter.free_of_not_enabled hen c.compareElement
      rw [hcompare, hfull] at hblocked
      exact absurd hblocked (by decide)
    | true =>
      -- all that have been let through are completed, so the filter is empty
      have hp : completed - p = 0 := by
        have hlen := congrArg List.length sent.pops_eq
        rw [hpops, List.length_replicate] at hlen
        exact hlen.symm
      have hholds := sent.holds hen
      rw [List.drop_eq_nil_of_le (by omega), List.map_nil] at hholds
      rw [hholds.full_iff, hholds.compare_iff] at hblocked
      rcases hblocked with hfull | ⟨y, hy, -⟩
      · exact absurd hfull (by decide)
      · exact absurd hy List.not_mem_nil
  | stream forwarded rest ws p state sent split marked words_eq =>
    obtain ⟨-, hwords⟩ : c.state = .stream ∧ q.in2cc = [] := by simpa [state] using hcases
    rw [hwords] at words_eq
    exact absurd (List.append_eq_nil_iff.mp words_eq.symm).1 marked.ne_nil

/-- When `concurrencyControl` and `memRead` cannot move, all that has been let through has been
handed on. -/
theorem Inv.memRead_of_stuck (h' : Inv h rs js p s) (hstuck : s.Quiet) :
    p.readRest = [] ∧ (p.completed = p.read → p.read = s.sent rs) := by
  obtain ⟨hwords, hhashes⟩ := hstuck.words_eq
  have hcc : s.step .concurrencyControl = s := hstuck .concurrencyControl (by decide)
  rw [Pipeline.step] at hcc
  have hccStuck :
      Memcached.concurrencyControl s.cc s.q.toCcStreams = (s.cc, s.q.toCcStreams) :=
    Prod.ext (congrArg Pipeline.cc hcc) (congrArg (fun s ↦ s.q.toCcStreams) hcc)
  have hinv := h'.cc
  rw [CcHolds, hwords, hhashes] at hinv
  dsimp only at hinv
  rw [List.append_nil, List.append_nil] at hinv
  obtain ⟨forwarded, hpre, hsentWords, hsentMds, hall⟩ := hinv.of_stuck hccStuck
  have hlengthMds := congrArg List.length hsentMds
  rw [List.length_append, List.length_map, List.length_map,
    List.length_take_of_le h'.read_le] at hlengthMds
  -- the words that have been let through are those of the first `forwarded.length` jobs
  have hsplit : forwarded.flatMap CcRequest.words
      ++ (js.drop forwarded.length).flatMap (fun j ↦ j.req.toCc.words)
      = js.flatMap fun j ↦ j.req.toCc.words := by
    have htake : forwarded = (js.take forwarded.length).map fun j ↦ j.req.toCc := by
      have heq := List.prefix_iff_eq_take.mp hpre
      rw [← h'.map_req, List.map_map, ← List.map_take] at heq
      exact heq
    have hflat : forwarded.flatMap CcRequest.words
        = (js.take forwarded.length).flatMap fun j ↦ j.req.toCc.words := by
      conv_lhs => rw [htake]
      rw [List.flatMap_map]
    rw [hflat, ← List.flatMap_append, List.take_append_drop]
  have hforwarded : forwarded.length ≤ js.length := by
    have hle := hpre.length_le
    rwa [List.length_map, ← h'.map_req, List.length_map] at hle
  have hread : s.step .memRead = s := hstuck .memRead (by decide)
  rw [Pipeline.step] at hread
  have hmemRd : (Memcached.memRead s.memRd s.q).2 = s.q := congrArg Pipeline.q hread
  -- without words in the queue, what has been taken is what has been let through
  have hcaught : s.q.cc2memRead = [] → p.readRest = [] ∧ forwarded.length ≤ p.read := by
    intro hnil
    rw [hnil, List.append_nil] at hsentWords
    have hpre := h'.preWords_eq
    rw [← hsplit, hsentWords] at hpre
    have hlengthWords := congrArg List.length (List.append_cancel_left hpre)
    rw [List.length_append] at hlengthWords
    have hread : p.read ≤ forwarded.length := by omega
    have hle := @Link.remaining_le _ _ (fun j : Job ↦ j.req.toCc.words) js _ _ hread
    rw [Link.remaining, Link.remaining] at hle
    refine ⟨List.length_eq_zero_iff.mp (by omega), ?_⟩
    by_contra hlt
    have hless := @Link.remaining_lt _ _ (fun j : Job ↦ j.req.toCc.words) js _ _
      (fun j _ ↦ j.req.toCc.marked.ne_nil) (Nat.lt_of_not_le hlt) (by omega)
    rw [Link.remaining, Link.remaining] at hless
    omega
  obtain ⟨hrest, hle⟩ : p.readRest = [] ∧ forwarded.length ≤ p.read := by
    rcases h'.memRd with ⟨hstate, hrest⟩ | ⟨hstate, -⟩
    · rw [hstate] at hmemRd
      cases hmd : s.q.cc2memReadMd with
      | nil =>
        rw [hmd, List.length_nil] at hlengthMds
        exact ⟨hrest, by omega⟩
      | cons md mds =>
        cases hw : s.q.cc2memRead with
        | nil => exact hcaught hw
        | cons w words =>
          rw [Memcached.memRead, hmd, hw] at hmemRd
          exact absurd ((congrArg (fun q ↦ q.cc2memRead) hmemRd).trans hw).symm
            (List.cons_ne_self _ _)
    · rw [hstate] at hmemRd
      cases hw : s.q.cc2memRead with
      | nil => exact hcaught hw
      | cons w words =>
        rw [Memcached.memRead, hw] at hmemRd
        exact absurd ((congrArg (fun q ↦ q.cc2memRead) hmemRd).trans hw).symm
          (List.cons_ne_self _ _)
  refine ⟨hrest, fun hcompleted ↦ ?_⟩
  have hlength := hall (by omega)
  rw [List.length_map] at hlength
  rw [Pipeline.sent]
  omega

/-- When all stages in front of it and the memory have nothing for it, `ht_compare` is done. -/
theorem Inv.htCompare_of_stuck (h' : Inv h rs js p s) (hstuck : s.Quiet) :
    p.cmpDone = p.read := by
  obtain ⟨haccesses, hasked⟩ := h'.bram_of_stuck hstuck
  obtain ⟨hrest, -⟩ := h'.memRead_of_stuck hstuck
  have hstep : s.step .htCompare = s := hstuck .htCompare (by decide)
  rw [Pipeline.step] at hstep
  have hq : (htCompareStage s.cmp s.q).2 = s.q := congrArg Pipeline.q hstep
  have hsingle : ∀ {α : Type} (f : Job → α), ∀ j ∈ js, [f j] ≠ [] :=
    fun f j _ ↦ List.cons_ne_nil _ _
  have hstream := h'.stream.length_eq
  have hreadKeys := h'.readKeys.length_eq
  rw [Pipeline.port, haccesses, Access.port, Access.fill, Port.stream_of_cmds_nil rfl,
    List.length_nil, Nat.zero_add, hasked] at hstream
  rw [hrest, List.length_nil, Nat.zero_add] at hreadKeys
  rw [htCompareStage] at hq
  cases h'.cmp with
  | idle hstate hbegun =>
    rw [hstate] at hq
    cases hmds : s.q.memRd2compMd with
    | nil =>
      have hlink := h'.readMds
      rw [hmds] at hlink
      rw [← hbegun]
      refine hlink.eq_of_nil (hsingle Job.md) h'.read_le ?_
      have hcmpDone := h'.cmpDone_le
      have hread := h'.asked_le
      have hle := h'.read_le
      omega
    | cons md mds =>
      rw [hmds] at hq
      exact absurd ((congrArg Streams.memRd2compMd hq).trans hmds).symm (List.cons_ne_self _ _)
  | head j hj hstate _ _ _ hbegun _ hdata =>
    have hlt := (List.getElem?_eq_some_iff.mp hj).1
    have hcmp : p.cmp ≤ p.read := h'.readMds.le (hsingle Job.md) (by omega)
    have hle := @Link.remaining_le _ _ Job.data js _ _ hcmp
    obtain ⟨d, ds, hd⟩ : ∃ d ds, s.q.memRdData = d :: ds := by
      refine List.exists_cons_of_ne_nil fun hnil ↦ ?_
      rw [hnil, hdata, j.data_eq, List.length_nil, List.length_cons] at hstream
      omega
    rw [hstate, hd] at hq
    exact absurd ((congrArg Streams.memRdData hq).trans hd).symm (List.cons_ne_self _ _)
  | compare j hj hstate _ hne _ hlen hlenData _ hbegun =>
    have hlt := (List.getElem?_eq_some_iff.mp hj).1
    have hcmp : p.cmp ≤ p.read := h'.readMds.le (hsingle Job.md) (by omega)
    have hle := @Link.remaining_le _ _ Job.data js _ _ hcmp
    have hleKeys := @Link.remaining_le _ _ Job.words js _ _ hcmp
    have htwo := two_le_memCount hne
    obtain ⟨d, ds, hd⟩ : ∃ d ds, s.q.memRdData = d :: ds := by
      refine List.exists_cons_of_ne_nil fun hnil ↦ ?_
      rw [hnil, List.length_nil] at hstream
      omega
    obtain ⟨w, ws, hw⟩ : ∃ w ws, s.q.memRd2comp = w :: ws := by
      refine List.exists_cons_of_ne_nil fun hnil ↦ ?_
      rw [hnil, List.length_nil] at hreadKeys
      omega
    rw [hstate, hd, hw] at hq
    exact absurd ((congrArg Streams.memRdData hq).trans hd).symm (List.cons_ne_self _ _)

/-- **When nothing moves, everything is done.** -/
theorem Inv.finished (h' : Inv h rs js p s) (hstuck : s.Quiet) :
    p.wr = s.sent rs ∧ s.bram.memArrayHashTable = (after h rs p.wr).mem := by
  obtain ⟨hwr, howed, hcompleted⟩ := h'.memWr_of_stuck hstuck
  obtain ⟨haccesses, -⟩ := h'.bram_of_stuck hstuck
  obtain ⟨-, hread⟩ := h'.memRead_of_stuck hstuck
  have hcmpDone := h'.htCompare_of_stuck hstuck
  refine ⟨by rw [hwr, hcmpDone, hread (by rw [hcompleted, hwr, hcmpDone])], ?_⟩
  rw [← h'.settled, Pipeline.port, haccesses]
  rfl

end Stuck

end FpgaOs.Memcached
