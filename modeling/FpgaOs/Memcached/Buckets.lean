import FpgaOs.Memcached.Flow

/-!
# Reading and writing buckets

The memory executes the commands that it has taken, one word in a call: that changes neither what is
settled nor what will still be returned. When the aggregator takes a command for writing, the words
were accounted for when the request was decided. When it takes one for reading, the bucket is as the
request should find it (`Inv.cmdAggregator_read`).
-/

namespace FpgaOs.Memcached

open Access Machine

section Inv

variable {h : HashTable} {rs : List TableRequest} {js : List Job} {p : Places} {s : Pipeline}

/-! ## Executing commands -/

theorem ExtMemCtrlWord.Fits.next {c : ExtMemCtrlWord} (h : c.Fits) (hcount : c.count ≠ 1) :
    c.next.count.toNat + 1 = c.count.toNat ∧ c.next.address.toNat = c.address.toNat + 1
      ∧ c.next.Fits := by
  have hpos := h.pos
  have hle := h.le
  have hone : c.count.toNat ≠ 1 := fun heq ↦ hcount (BitVec.eq_of_toNat_eq heq)
  have hlt := c.count.isLt
  have hnext : c.next.count.toNat + 1 = c.count.toNat := by
    rw [ExtMemCtrlWord.next, BitVec.toNat_sub]
    change (2 ^ 6 - 1 + c.count.toNat) % 2 ^ 6 + 1 = _
    omega
  have haddress : c.next.address.toNat = c.address.toNat + 1 := by
    rw [ExtMemCtrlWord.next, BitVec.toNat_add]
    change (c.address.toNat + 1) % 2 ^ 32 = _
    omega
  exact ⟨hnext, haddress, by omega, by omega⟩

theorem ExtMemCtrlWord.Fits.accesses_eq {c : ExtMemCtrlWord} (h : c.Fits) :
    c.accesses = (if c.rdOrWr = 0 then .read c.address.toNat else .write c.address.toNat)
      :: if c.count = 1 then [] else c.next.accesses := by
  by_cases hcount : c.count = 1
  · rw [if_pos hcount, ExtMemCtrlWord.accesses, hcount]
    rfl
  · obtain ⟨hnext, haddress, -⟩ := h.next hcount
    rw [if_neg hcount, ExtMemCtrlWord.accesses, ← hnext, List.range'_succ, List.map_cons,
      ExtMemCtrlWord.accesses, haddress]
    rfl

theorem Inv.memAccess_idle (h' : Inv h rs js p s) (hstate : s.bram.state = .idle) :
    Inv h rs js p (s.step .memAccess) := by
  rw [Pipeline.step, Memcached.memAccess, hstate]
  dsimp only
  split
  · exact h'
  · next c cmds hcmds =>
    have hcommands : s.commands = c :: cmds ++ s.q.memWrCtrl.map (·.ext 1) := by
      rw [Pipeline.commands, Bram.commands, if_neg (by rw [hstate]; decide), hcmds]
      rfl
    have hlength := h'.length_data
    have hfits := h'.fits
    have hsettled := h'.settled
    have hstream := h'.stream
    rw [Pipeline.port, Pipeline.accesses, hcommands] at hsettled hstream
    rw [Pipeline.accesses, hcommands] at hlength
    rw [hcommands] at hfits
    exact { h' with
      length_data := hlength
      fits := hfits
      settled := hsettled
      stream := hstream }

theorem Inv.memAccess_access (h' : Inv h rs js p s) (hstate : s.bram.state = .access) :
    Inv h rs js p (s.step .memAccess) := by
  have hcommands : s.commands
      = s.bram.inputWord :: (s.bram.aggregateMemCmd ++ s.q.memWrCtrl.map (·.ext 1)) := by
    rw [Pipeline.commands, Bram.commands, if_pos hstate]
    rfl
  have hfits := h'.fits
  rw [hcommands] at hfits
  obtain ⟨hfit, hrest⟩ := List.forall_mem_cons.mp hfits
  -- what is left of the command, and the commands behind it
  obtain ⟨hmem, hleft, hfits'⟩ : s.bram.next.memArrayHashTable = s.bram.memArrayHashTable
      ∧ (s.bram.next.commands ++ s.q.memWrCtrl.map (·.ext 1)).flatMap ExtMemCtrlWord.accesses
        = (if s.bram.inputWord.count = 1 then [] else s.bram.inputWord.next.accesses)
          ++ (s.bram.aggregateMemCmd ++ s.q.memWrCtrl.map (·.ext 1)).flatMap
            ExtMemCtrlWord.accesses
      ∧ ∀ c ∈ s.bram.next.commands ++ s.q.memWrCtrl.map (·.ext 1), c.Fits := by
    rw [Bram.next]
    by_cases hcount : s.bram.inputWord.count = 1
    · rw [if_pos hcount, if_pos hcount, Bram.commands]
      exact ⟨rfl, rfl, hrest⟩
    · rw [if_neg hcount, if_neg hcount, Bram.commands]
      dsimp only
      rw [if_pos hstate]
      exact ⟨rfl, rfl, List.forall_mem_cons.mpr ⟨(hfit.next hcount).2.2, hrest⟩⟩
  have haccesses : s.accesses
      = (if s.bram.inputWord.rdOrWr = 0 then .read s.bram.inputWord.address.toNat
          else .write s.bram.inputWord.address.toNat)
        :: (s.bram.next.commands ++ s.q.memWrCtrl.map (·.ext 1)).flatMap
          ExtMemCtrlWord.accesses := by
    rw [Pipeline.accesses, hcommands, List.flatMap_cons, hfit.accesses_eq, hleft]
    rfl
  have hlength := h'.length_data
  have hsettled := h'.settled
  have hstream := h'.stream
  rw [Pipeline.port, haccesses] at hsettled hstream
  rw [haccesses] at hlength
  rw [← Port.settled_exec] at hsettled
  rw [← Port.stream_exec] at hstream
  rw [Pipeline.step, Memcached.memAccess, hstate]
  dsimp only
  by_cases hrd : s.bram.inputWord.rdOrWr = 0
  · rw [if_pos hrd] at hsettled hstream hlength
    rw [exec_port_read, ← hmem] at hsettled hstream
    rw [if_pos hrd, ← hmem]
    exact { h' with
      length_data := hlength
      fits := hfits'
      settled := hsettled
      stream := hstream }
  · rw [if_neg hrd] at hsettled hstream hlength
    rw [if_neg hrd]
    cases hdata : s.q.memWrData with
    | nil => exact h'
    | cons d ds =>
      rw [hdata, List.cons_append] at hsettled hstream hlength
      rw [exec_port_write, ← hmem] at hsettled hstream
      dsimp only
      rw [← hmem]
      exact { h' with
        length_data := Nat.succ.inj hlength
        fits := hfits'
        settled := hsettled
        stream := hstream }

theorem Inv.memAccess (h' : Inv h rs js p s) : Inv h rs js p (s.step .memAccess) := by
  cases hstate : s.bram.state with
  | idle => exact h'.memAccess_idle hstate
  | access => exact h'.memAccess_access hstate

/-! ## The aggregator -/

theorem Inv.completed_le (h' : Inv h rs js p s) : p.completed ≤ p.wr := by
  cases h'.memWr with
  | idle _ _ _ _ _ heq => exact heq.le
  | eval _ _ _ _ _ _ _ _ _ heq => exact heq.le
  | setRest _ _ _ _ _ heq => exact heq ▸ Nat.le_succ _
  | consume _ _ _ _ _ heq => exact heq.le

theorem Inv.wr_le (h' : Inv h rs js p s) : p.wr ≤ p.wrMd := by
  cases h'.memWr with
  | idle _ heq => exact heq.ge
  | eval _ _ _ _ _ heq => exact heq ▸ Nat.le_succ _
  | setRest _ _ _ _ heq => exact heq.ge
  | consume _ _ _ _ heq => exact heq.ge

theorem Inv.length_memWr2out (h' : Inv h rs js p s) : s.q.memWr2out.length = p.wr := by
  have hwr := ((h'.wr_le.trans h'.wrMd_le).trans h'.cmpDone_le).trans
    (h'.asked_le.trans h'.read_le)
  rw [h'.out, List.length_map, List.length_take_of_le hwr]

theorem Inv.read_le_sent (h' : Inv h rs js p s) : p.read ≤ s.sent rs := by
  have hle := CcInv.length_le h'.cc
  rw [List.length_append, List.length_append, List.length_map, List.length_map,
    List.length_take_of_le h'.read_le] at hle
  rw [Pipeline.sent]
  omega

theorem rel_of_pairwise_drop {α : Type*} {R : α → α → Prop} {l : List α} {w k n : ℕ} {a b : α}
    (h : (l.drop w).Pairwise R) (hk : w ≤ k) (hkn : k < n) (ha : l[k]? = some a)
    (hb : l[n]? = some b) : R a b := by
  obtain ⟨i, rfl⟩ := Nat.exists_eq_add_of_le hk
  obtain ⟨j, rfl⟩ := Nat.exists_eq_add_of_le (hk.trans hkn.le)
  rw [← List.getElem?_drop] at ha hb
  obtain ⟨hi, rfl⟩ := List.getElem?_eq_some_iff.mp ha
  obtain ⟨hj, rfl⟩ := List.getElem?_eq_some_iff.mp hb
  exact List.pairwise_iff_getElem.mp h i j hi hj (Nat.lt_of_add_lt_add_left hkn)

/-- Requests that are not decided spare a later one that has been read. -/
theorem Inv.spares (h' : Inv h rs js p s) (hapart : s.Apart rs) {k n : ℕ} {r r' : TableRequest}
    (hk : p.wr ≤ k) (hkn : k < n) (hn : n < p.read) (hr : rs[k]? = some r)
    (hr' : rs[n]? = some r') : r.Spares r' := by
  rcases hapart with hen | hpending
  · obtain ⟨forwarded, _, ⟨rest, hsplit⟩, hsent, -⟩ := CcInv.exists_letThrough h'.cc
    have hlength := congrArg List.length hsent.sentMds_eq
    rw [List.length_append, List.length_map, List.length_map,
      List.length_take_of_le h'.read_le] at hlength
    have hget : ∀ {i : ℕ} {r : TableRequest}, i < forwarded.length → rs[i]? = some r →
        forwarded[i]? = some r.toCc := by
      intro i r hi hr
      rw [← List.getElem?_append_left hi, hsplit, List.getElem?_map, hr, Option.map_some]
    exact TableRequest.spares_of_not_blocks (rel_of_pairwise_drop (hsent.apart hen)
      (h'.completed_le.trans hk) hkn (hget (by omega) hr) (hget (by omega) hr'))
  · have hsent := h'.read_le_sent
    rw [Pipeline.pending, h'.length_memWr2out] at hpending
    exact rel_of_pairwise_drop hpending hk hkn
      ((List.getElem?_take_of_lt (by omega)).trans hr)
      ((List.getElem?_take_of_lt (by omega)).trans hr')

theorem toNat_count_ext (j : Job) (hshort : j.req.Short) (rdOrWr : BitVec 1) :
    (j.memCtrl.ext rdOrWr).count.toNat = (memCount j.req.keyLength).toNat
      ∧ (memCount j.req.keyLength).toNat ≤ 8 := by
  have hle : (memCount j.req.keyLength).toNat ≤ 8 := by
    rw [← j.req.length_key]
    exact Nat.succ_le_succ hshort.length_key
  refine ⟨?_, hle⟩
  rw [MemCtrlWord.ext, BitVec.toNat_setWidth]
  exact Nat.mod_eq_of_lt (hle.trans_lt (by decide))

theorem fits_ext (j : Job) (hshort : j.req.Short) (rdOrWr : BitVec 1) :
    (j.memCtrl.ext rdOrWr).Fits := by
  obtain ⟨hcount, hle⟩ := toNat_count_ext j hshort rdOrWr
  have htwo := two_le_memCount j.req.keyLength_ne
  have haddress : (j.memCtrl.ext rdOrWr).address.toNat = headAddress j.req.bucket :=
    toNat_tableAddress_eq _
  have hbucket := j.req.bucket.isLt
  refine ⟨by omega, ?_⟩
  rw [haddress, headAddress]
  omega

theorem Inv.cmdAggregator_write (h' : Inv h rs js p s) {c : MemCtrlWord} {cs : List MemCtrlWord}
    (hctrl : s.q.memWrCtrl = c :: cs) : Inv h rs js p (s.step .cmdAggregator) := by
  have hcommands : s.commands = (s.bram.commands ++ [c.ext 1]) ++ cs.map (·.ext 1) := by
    rw [Pipeline.commands, hctrl, List.append_assoc]
    rfl
  have hlength := h'.length_data
  have hfits := h'.fits
  have hsettled := h'.settled
  have hstream := h'.stream
  rw [Pipeline.port, Pipeline.accesses, hcommands, Bram.commands, List.append_assoc _ _ [c.ext 1]]
    at hsettled hstream
  rw [Pipeline.accesses, hcommands, Bram.commands, List.append_assoc _ _ [c.ext 1]] at hlength
  rw [hcommands, Bram.commands, List.append_assoc _ _ [c.ext 1]] at hfits
  rw [Pipeline.step, Memcached.cmdAggregator, hctrl]
  exact { h' with
    length_data := hlength
    fits := hfits
    settled := hsettled
    stream := hstream }

/-- **A bucket is read.** What comes back is what the request should find. -/
theorem Inv.cmdAggregator_read (h' : Inv h rs js p s) (hapart : s.Apart rs)
    (hnone : s.q.memWrCtrl = []) {c : MemCtrlWord} {cs : List MemCtrlWord}
    (hctrl : s.q.memRdCtrl = c :: cs) : ∃ p', Inv h rs js p' (s.step .cmdAggregator) := by
  have hlink := h'.readCtrl
  rw [hctrl] at hlink
  obtain ⟨j, hj⟩ := hlink.exists_job
  have hlt : p.asked < p.read :=
    hlink.lt (fun _ _ ↦ List.cons_ne_nil _ _) (List.getElem?_eq_some_iff.mp hj).1
  obtain ⟨rfl, hlink'⟩ := (hlink.begin_down hj).take
  have hj' : (jobs h rs)[p.asked]? = some j := h'.js_eq ▸ hj
  have hshort := h'.short _ (mem_of_jobs hj')
  obtain ⟨hcount, hle⟩ := toNat_count_ext j hshort 0
  have haddress : (j.memCtrl.ext 0).address.toNat = headAddress j.req.bucket :=
    toNat_tableAddress_eq _
  -- the decided requests are in front of the one that reads
  have hwr : p.wr ≤ p.asked := (h'.wr_le.trans h'.wrMd_le).trans h'.cmpDone_le
  obtain ⟨d, hd⟩ := Nat.exists_eq_add_of_le hwr
  have hdata : (after h rs p.wr).readWords (headAddress j.req.bucket)
      (memCount j.req.keyLength).toNat = j.data :=
    readWords_after h'.short (hd ▸ hj')
      (fun k r hk hkd hr ↦ h'.spares hapart hk (hd.symm ▸ hkd) hlt hr (req_of_jobs hj')) hle
  have hcommands : s.commands = s.bram.commands := by
    rw [Pipeline.commands, hnone]
    exact List.append_nil _
  have hnew : (j.memCtrl.ext 0).accesses
      = (List.range' (headAddress j.req.bucket) (memCount j.req.keyLength).toNat).map .read := by
    rw [ExtMemCtrlWord.accesses, haddress, hcount]
    rfl
  have hstep : s.step .cmdAggregator = { s with
      bram := { s.bram with aggregateMemCmd := s.bram.aggregateMemCmd ++ [j.memCtrl.ext 0] }
      q := { s.q with memWrCtrl := [], memRdCtrl := cs } } := by
    rw [Pipeline.step, Memcached.cmdAggregator, hnone, hctrl]
    rfl
  have hnext : (s.step .cmdAggregator).commands = s.commands ++ [j.memCtrl.ext 0] := by
    rw [hcommands, hstep, Pipeline.commands, Bram.commands, Bram.commands,
      ← List.append_assoc]
    exact List.append_nil _
  have hafter : (s.step .cmdAggregator).accesses
      = s.accesses ++ (List.range' (headAddress j.req.bucket)
        (memCount j.req.keyLength).toNat).map .read := by
    rw [Pipeline.accesses, hnext, List.flatMap_append, List.flatMap_singleton, hnew]
    rfl
  have hfits : ∀ c ∈ (s.step .cmdAggregator).commands, c.Fits := by
    rw [hnext]
    intro c hc
    rcases List.mem_append.mp hc with hc | hc
    · exact h'.fits c hc
    · rw [List.mem_singleton.mp hc]
      exact fits_ext j hshort 0
  have hport : (s.step .cmdAggregator).port p.owed
      = Access.port s.bram.memArrayHashTable (s.accesses ++ (List.range' (headAddress j.req.bucket)
        (memCount j.req.keyLength).toNat).map .read) (s.q.memWrData ++ p.owed) s.q.memRdData := by
    rw [Pipeline.port, hafter, hstep]
  have hsettled : ((s.step .cmdAggregator).port p.owed).settled = (after h rs p.wr).mem := by
    rw [hport, settled_port_read h'.length_data]
    exact h'.settled
  have hstream : ((s.step .cmdAggregator).port p.owed).stream
      = (s.port p.owed).stream ++ j.data := by
    rw [hport, stream_port_read h'.length_data, ← hdata, readWords_eq_map, ← h'.settled]
    rfl
  have hlength : (s.q.memWrData ++ p.owed).length = writes (s.step .cmdAggregator).accesses := by
    rw [hafter, writes_append, writes_map_read]
    exact h'.length_data
  have hlinkData : Link Job.data js ((s.step .cmdAggregator).port p.owed).stream [] (p.asked + 1)
      p.cmpData p.cmp := by
    have hup := h'.stream.begin_up hj
    rw [← List.append_nil j.data] at hup
    rw [hstream]
    exact hup.push_list
  rw [hstep] at hfits hsettled hlength hlinkData ⊢
  exact ⟨{ p with asked := p.asked + 1 }, { h' with
    readCtrl := hlink'
    length_data := hlength
    fits := hfits
    settled := hsettled
    stream := hlinkData
    cmpDone_le := h'.cmpDone_le.trans (Nat.le_succ _)
    asked_le := hlt }⟩

theorem Inv.cmdAggregator (h' : Inv h rs js p s) (hapart : s.Apart rs) :
    ∃ p', Inv h rs js p' (s.step .cmdAggregator) := by
  cases hwr : s.q.memWrCtrl with
  | cons c cs => exact ⟨p, h'.cmdAggregator_write hwr⟩
  | nil =>
    cases hrd : s.q.memRdCtrl with
    | cons c cs => exact h'.cmdAggregator_read hapart hwr hrd
    | nil =>
      refine ⟨p, ?_⟩
      rw [Pipeline.step, Memcached.cmdAggregator, hwr, hrd]
      exact h'

end Inv

end FpgaOs.Memcached
