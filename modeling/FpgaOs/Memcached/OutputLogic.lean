import FpgaOs.Memcached.InputLogic
import FpgaOs.Memcached.Lookup

/-!
# The output logic

`ht_outputLogic` puts an answer together: the result of the table, and the metadata, the key and the
value that `ht_inputLogic` has set aside. The first two words of an answer have metadata; there are
as many words as the key or the value needs.

In state `OL_IDLE` it takes the result and the metadata and only then looks whether there is a word
of the key, and of the value if a `SET` is answered. If one is missing, the answer is lost. But when
there is a result, the key has been set aside long ago (`Answering.call` assumes so), and so has the
value, if there is one.
-/

namespace FpgaOs.Memcached

open BitField

/-! ## The code -/

/-- `enum oState` but for `OL_W1`, which is never entered. -/
inductive OlState
  | idle
  | md
  | rest
  deriving DecidableEq

/-- The static variables of `ht_outputLogic` that are read before they are written again. -/
structure OutputLogic where
  olState : OlState := .idle
  keyLength : BitVec 8 := 0
  valueLength : BitVec 16 := 0
  deriving DecidableEq

/-- The streams of `ht_outputLogic`. -/
structure OutStreams where
  memWr2out : List DecideResult := []
  key2out : List (BitVec 64) := []
  value2out : List (BitVec 64) := []
  md2out : List (BitVec 128) := []
  outData : List PipelineWord := []
  deriving DecidableEq

/-- A length without a word of eight bytes. -/
def lessWord {w : ℕ} (length : BitVec w) : BitVec w := if 8 < length then length - 8 else 0

/-- The metadata in the first word of an answer. -/
def answerMetadata (addressWord : DecideResult) (metadataWord : BitVec 128) : BitVec 124 :=
  let low :=
    if addressWord.operation ≠ 1 then setSlice metadataWord 8 addressWord.valueLength
    else metadataWord
  let metadata : BitVec 124 := setSlice 0 72 addressWord.address
  let metadata := setSlice metadata 104 (slice metadataWord 104 20)
  let metadata := setSlice metadata 112 addressWord.status
  setSlice metadata 0 (slice low 0 72)

namespace OutputLogic

variable (s : OutputLogic) (q : OutStreams)

/-- The first word of an answer. -/
def first (addressWord : DecideResult) (metadataWord : BitVec 128) : OutputLogic × OutStreams :=
  let keyLength : BitVec 8 := slice metadataWord 0 8
  let isSet := addressWord.operation = 1
  ({ olState := .md
     keyLength := lessWord keyLength
     valueLength := if isSet then lessWord (slice metadataWord 8 16) else s.valueLength },
    { q with
      key2out := if 0 < keyLength then q.key2out.tail else q.key2out
      value2out := if isSet then q.value2out.tail else q.value2out
      outData := q.outData ++ [{
        metadata := answerMetadata addressWord metadataWord
        sop := metadataWord.getLsbD 124
        keyValid := metadataWord.getLsbD 125
        valueValid := metadataWord.getLsbD 126
        eop := metadataWord.getLsbD 127
        value := if isSet then q.value2out.headD 0 else 0
        key := if 0 < keyLength then q.key2out.headD 0 else 0 }] })

/-- There is a word of the key and a word of the value, if they are not at an end. -/
def Supplied : Prop :=
  (s.keyLength = 0 ∨ q.key2out ≠ []) ∧ (s.valueLength = 0 ∨ q.value2out ≠ [])

instance : Decidable (s.Supplied q) := inferInstanceAs (Decidable (_ ∧ _))

/-- A further word. -/
def further (metadata : BitVec 124) : OutputLogic × OutStreams :=
  let keyLength := lessWord s.keyLength
  let valueLength := lessWord s.valueLength
  let done := valueLength = 0 ∧ keyLength = 0
  ({ olState := if done then .idle else .rest, keyLength, valueLength },
    { q with
      key2out := if 0 < s.keyLength then q.key2out.tail else q.key2out
      value2out := if 0 < s.valueLength then q.value2out.tail else q.value2out
      outData := q.outData ++ [{
        metadata
        sop := false
        keyValid := 0 < s.keyLength
        valueValid := 0 < s.valueLength
        eop := done
        value := if 0 < s.valueLength then q.value2out.headD 0 else 0
        key := if 0 < s.keyLength then q.key2out.headD 0 else 0 }] })

end OutputLogic

def htOutputLogic (s : OutputLogic) (q : OutStreams) : OutputLogic × OutStreams :=
  match s.olState with
  | .idle =>
    match q.memWr2out, q.md2out with
    | addressWord :: memWr2out, metadataWord :: md2out =>
      let keyLength : BitVec 8 := slice metadataWord 0 8
      let q := { q with memWr2out, md2out }
      if (keyLength = 0 ∨ q.key2out ≠ []) ∧ (addressWord.operation ≠ 1 ∨ q.value2out ≠ []) then
        s.first q addressWord metadataWord
      else ({ s with keyLength }, q)
    | _, _ => (s, q)
  | .md =>
    match q.md2out with
    | [] => (s, q)
    | metadataWord :: md2out =>
      if s.Supplied q then s.further { q with md2out } (slice metadataWord 0 124) else (s, q)
  | .rest => if s.Supplied q then s.further q 0 else (s, q)

/-! ## Answers -/

/-- The words of an answer from the second one on. -/
def restWords (metadata : BitVec 124) (keys values : List (BitVec 64)) : List PipelineWord :=
  { metadata
    sop := false
    keyValid := keys ≠ []
    valueValid := values ≠ []
    eop := values.tail = [] ∧ keys.tail = []
    value := values.headD 0
    key := keys.headD 0 } ::
    if _h : values.tail = [] ∧ keys.tail = [] then [] else restWords 0 keys.tail values.tail
termination_by keys.length + values.length
decreasing_by
  simp only [List.length_tail]
  rw [not_and_or, ← ne_eq, ← ne_eq, ← List.length_pos_iff, ← List.length_pos_iff,
    List.length_tail, List.length_tail] at _h
  omega

/-- These words hold so many bytes. -/
def HoldsBytes {w : ℕ} (words : List (BitVec 64)) (length : BitVec w) : Prop :=
  words.length = (length.toNat + 7) / 8

/-- The result of a request, and what has been set aside for it. -/
structure Answer where
  addressWord : DecideResult
  first : BitVec 128
  second : BitVec 128
  keys : List (BitVec 64)
  values : List (BitVec 64)
  keys_ne : keys ≠ []
  holds_keys : HoldsBytes keys (slice first 0 8 : BitVec 8)
  values_ne : addressWord.operation = 1 → values ≠ []
  holds_values : addressWord.operation = 1 → HoldsBytes values (slice first 8 16 : BitVec 16)
  values_eq : addressWord.operation ≠ 1 → values = []

/-- The words of an answer. -/
def answerWords (addressWord : DecideResult) (first second : BitVec 128)
    (keys values : List (BitVec 64)) : List PipelineWord :=
  { metadata := answerMetadata addressWord first
    sop := first.getLsbD 124
    keyValid := first.getLsbD 125
    valueValid := first.getLsbD 126
    eop := first.getLsbD 127
    value := values.headD 0
    key := keys.headD 0 } :: restWords (slice second 0 124) keys.tail values.tail

def Answer.words (a : Answer) : List PipelineWord :=
  answerWords a.addressWord a.first a.second a.keys a.values

/-! ## A word after the other -/

section Words

variable {w : ℕ} {n : BitVec w} {words queue more rest : List (BitVec 64)}

theorem HoldsBytes.eq_zero_iff (h : HoldsBytes words n) : n = 0 ↔ words = [] := by
  rw [← List.length_eq_zero_iff, h, ← BitVec.toNat_inj]
  change n.toNat = 0 % 2 ^ w ↔ _
  rw [Nat.zero_mod]
  omega

theorem HoldsBytes.pos_iff (h : HoldsBytes words n) : 0 < n ↔ words ≠ [] := by
  rw [BitVec.lt_def, ← List.length_pos_iff, h]
  change 0 % 2 ^ w < n.toNat ↔ _
  rw [Nat.zero_mod]
  omega

theorem HoldsBytes.tail (h : HoldsBytes words n) (hw : 4 ≤ w) :
    HoldsBytes words.tail (lessWord n) := by
  have height : (8 : BitVec w).toNat = 8 := by
    have hpow : 2 ^ 4 ≤ 2 ^ w := Nat.pow_le_pow_right (by decide) hw
    exact Nat.mod_eq_of_lt (Nat.lt_of_lt_of_le (by decide) hpow)
  rw [HoldsBytes, List.length_tail, h, lessWord]
  by_cases hlt : 8 < n
  · have hlt' := BitVec.lt_def.mp hlt
    rw [height] at hlt'
    rw [if_pos hlt, BitVec.toNat_sub_of_le (BitVec.le_of_lt hlt), height]
    omega
  · have hle := Nat.not_lt.mp (mt BitVec.lt_def.mpr hlt)
    rw [height] at hle
    rw [if_neg hlt]
    change _ = (0 % 2 ^ w + 7) / 8
    rw [Nat.zero_mod]
    omega

/-- A word is taken when there is one to come. -/
theorem HoldsBytes.take (h : HoldsBytes words n) (hsupplied : n = 0 ∨ queue ≠ [])
    (hqueue : queue ++ more = words ++ rest) :
    (if 0 < n then queue.tail else queue) ++ more = words.tail ++ rest
      ∧ (if 0 < n then queue.headD 0 else 0) = words.headD 0 := by
  cases words with
  | nil =>
    have hzero : ¬0 < n := mt h.pos_iff.mp (not_not_intro rfl)
    rw [if_neg hzero, if_neg hzero]
    exact ⟨hqueue, rfl⟩
  | cons x words =>
    have hpos : 0 < n := h.pos_iff.mpr (List.cons_ne_nil _ _)
    obtain ⟨y, queue, rfl⟩ := List.exists_cons_of_ne_nil
      (hsupplied.resolve_left (mt h.eq_zero_iff.mp (List.cons_ne_nil _ _)))
    obtain ⟨rfl, hrest⟩ := List.cons.inj hqueue
    rw [if_pos hpos, if_pos hpos]
    exact ⟨hrest, rfl⟩

end Words

/-- What is left of the answer that has been begun. -/
inductive Busy (s : OutputLogic) : (keys values : List (BitVec 64)) → (mds : List (BitVec 128)) →
    (words : List PipelineWord) → Prop
  | idle (state : s.olState = .idle) (valueLength : s.valueLength = 0) : Busy s [] [] [] []
  | md {keys values : List (BitVec 64)} (m : BitVec 128) (state : s.olState = .md)
    (keys_eq : HoldsBytes keys s.keyLength) (values_eq : HoldsBytes values s.valueLength) :
    Busy s keys values [m] (restWords (slice m 0 124) keys values)
  | rest {keys values : List (BitVec 64)} (state : s.olState = .rest)
    (keys_eq : HoldsBytes keys s.keyLength) (values_eq : HoldsBytes values s.valueLength) :
    Busy s keys values [] (restWords 0 keys values)

/-- The metadata of an answer. -/
def Answer.mds (a : Answer) : List (BitVec 128) := [a.first, a.second]

/-- What is in the streams and what is still to come is what is left of an answer, and then these
answers; and they are what is missing in the output. -/
structure Answering (left : List Answer) (more : OutStreams) (total : List PipelineWord)
    (s : OutputLogic) (q : OutStreams) : Prop where
  busy : ∃ keys values mds words, Busy s keys values mds words
    ∧ q.key2out ++ more.key2out = keys ++ left.flatMap Answer.keys
    ∧ q.value2out ++ more.value2out = values ++ left.flatMap Answer.values
    ∧ q.md2out ++ more.md2out = mds ++ left.flatMap Answer.mds
    ∧ q.outData ++ (words ++ left.flatMap Answer.words) = total
  results : q.memWr2out ++ more.memWr2out = left.map Answer.addressWord

section Answering

variable {s : OutputLogic} {q more : OutStreams} {left : List Answer} {total : List PipelineWord}
  {keys values : List (BitVec 64)} {m : BitVec 124}

theorem further_eq (hkeys : HoldsBytes keys s.keyLength) (hvalues : HoldsBytes values s.valueLength)
    (hsupplied : s.Supplied q)
    (hqkeys : q.key2out ++ more.key2out = keys ++ left.flatMap Answer.keys)
    (hqvalues : q.value2out ++ more.value2out = values ++ left.flatMap Answer.values)
    (hqmds : q.md2out ++ more.md2out = left.flatMap Answer.mds)
    (hresults : q.memWr2out ++ more.memWr2out = left.map Answer.addressWord)
    (hout : q.outData ++ (restWords m keys values ++ left.flatMap Answer.words) = total) :
    Answering left more total (s.further q m).1 (s.further q m).2 := by
  obtain ⟨hqkeys', hkey⟩ := hkeys.take hsupplied.1 hqkeys
  obtain ⟨hqvalues', hvalue⟩ := hvalues.take hsupplied.2 hqvalues
  have hkeys' := hkeys.tail (by decide)
  have hvalues' := hvalues.tail (by decide)
  have hdone : lessWord s.valueLength = 0 ∧ lessWord s.keyLength = 0
      ↔ values.tail = [] ∧ keys.tail = [] := and_congr hvalues'.eq_zero_iff hkeys'.eq_zero_iff
  rw [restWords] at hout
  refine ⟨?_, hresults⟩
  rw [OutputLogic.further]
  dsimp only
  rw [hkey, hvalue, decide_eq_decide.mpr hkeys.pos_iff, decide_eq_decide.mpr hvalues.pos_iff,
    decide_eq_decide.mpr hdone]
  by_cases hlast : values.tail = [] ∧ keys.tail = []
  · rw [if_pos (hdone.mpr hlast)]
    rw [dif_pos hlast] at hout
    rw [hlast.2] at hqkeys'
    rw [hlast.1] at hqvalues'
    refine ⟨[], [], [], [], .idle rfl (hdone.mpr hlast).1, hqkeys', hqvalues', hqmds, ?_⟩
    rw [← hout, List.append_assoc]
    rfl
  · rw [if_neg (mt hdone.mp hlast)]
    rw [dif_neg hlast] at hout
    refine ⟨_, _, _, _, .rest rfl hkeys' hvalues', hqkeys', hqvalues', hqmds, ?_⟩
    rw [← hout, List.append_assoc]
    rfl

/-- The first word of the value of a `SET`. -/
theorem Answer.take_value (a : Answer) {n : BitVec 16} {queue more rest : List (BitVec 64)}
    (hsupplied : a.addressWord.operation = 1 → queue ≠ []) (hzero : n = 0)
    (hqueue : queue ++ more = a.values ++ rest) :
    (if a.addressWord.operation = 1 then queue.tail else queue) ++ more = a.values.tail ++ rest
      ∧ (if a.addressWord.operation = 1 then queue.headD 0 else 0) = a.values.headD 0
      ∧ HoldsBytes a.values.tail
        (if a.addressWord.operation = 1 then lessWord (slice a.first 8 16) else n) := by
  by_cases hop : a.addressWord.operation = 1
  · have hvalues := a.holds_values hop
    have hpos := hvalues.pos_iff.mpr (a.values_ne hop)
    obtain ⟨htail, hhead⟩ := hvalues.take (.inr (hsupplied hop)) hqueue
    rw [if_pos hpos] at htail hhead
    rw [if_pos hop, if_pos hop, if_pos hop]
    exact ⟨htail, hhead, hvalues.tail (by decide)⟩
  · have hnil := a.values_eq hop
    rw [if_neg hop, if_neg hop, if_neg hop, hnil, hzero]
    rw [hnil] at hqueue
    exact ⟨hqueue, rfl, rfl⟩

/-- In state `OL_IDLE` an answer is begun when there is a result, if its key and its value have been
set aside. -/
theorem Answering.begin (h : Answering left more total s q) (hstate : s.olState = .idle)
    {addressWord : DecideResult} {memWr2out : List DecideResult} {metadataWord : BitVec 128}
    {md2out : List (BitVec 128)} (hresult : q.memWr2out = addressWord :: memWr2out)
    (hmd : q.md2out = metadataWord :: md2out)
    (hready : ∀ a ∈ left.head?,
      q.key2out ≠ [] ∧ (a.addressWord.operation = 1 → q.value2out ≠ [])) :
    ∃ a left', left = a :: left' ∧ htOutputLogic s q
        = s.first { q with memWr2out, md2out } addressWord metadataWord
      ∧ Answering left' more total (htOutputLogic s q).1 (htOutputLogic s q).2 := by
  obtain ⟨⟨keys, values, mds, words, hbusy, hqkeys, hqvalues, hqmds, hout⟩, hresults⟩ := h
  rw [hresult] at hresults
  rw [hmd] at hqmds
  cases hbusy with
  | md m state => exact OlState.noConfusion (hstate.symm.trans state)
  | rest state => exact OlState.noConfusion (hstate.symm.trans state)
  | idle _ hzero =>
    cases left with
    | nil => exact absurd hresults (List.cons_ne_nil _ _)
    | cons a left =>
      obtain ⟨hkey, hvalue⟩ := hready a rfl
      obtain ⟨rfl, hmoreresults⟩ := List.cons.inj hresults
      obtain ⟨rfl, hmoremds⟩ := List.cons.inj hqmds
      rw [List.nil_append, List.flatMap_cons] at hqkeys hqvalues hout
      have hcond : ((slice a.first 0 8 : BitVec 8) = 0 ∨ q.key2out ≠ [])
          ∧ (a.addressWord.operation ≠ 1 ∨ q.value2out ≠ []) :=
        ⟨.inr hkey, or_iff_not_imp_left.mpr fun hop ↦ hvalue (not_not.mp hop)⟩
      have hcall : htOutputLogic s q
          = s.first { q with memWr2out, md2out } a.addressWord a.first := by
        rw [htOutputLogic, hstate, hresult, hmd]
        exact if_pos hcond
      obtain ⟨hqkeys', hkeyword⟩ := a.holds_keys.take (.inr hkey) hqkeys
      obtain ⟨hqvalues', hvalueword, hvalues'⟩ := a.take_value hvalue hzero hqvalues
      refine ⟨a, left, rfl, hcall, ?_⟩
      rw [hcall, OutputLogic.first]
      dsimp only
      rw [hkeyword, hvalueword]
      refine ⟨⟨_, _, _, _, .md a.second rfl (a.holds_keys.tail (by decide)) hvalues', hqkeys',
        hqvalues', hmoremds, ?_⟩, hmoreresults⟩
      rw [← hout, List.append_assoc]
      rfl

/-- **A call** goes on with an answer by one word, or it does nothing. -/
theorem Answering.call (h : Answering left more total s q)
    (hready : s.olState = .idle → q.memWr2out ≠ [] → ∀ a ∈ left.head?,
      q.key2out ≠ [] ∧ (a.addressWord.operation = 1 → q.value2out ≠ [])) :
    ∃ left', left' <:+ left
      ∧ Answering left' more total (htOutputLogic s q).1 (htOutputLogic s q).2
      ∧ (htOutputLogic s q = (s, q)
        ∨ (htOutputLogic s q).2.outData.length = q.outData.length + 1) := by
  obtain ⟨keys, values, mds, words, hbusy, hqkeys, hqvalues, hqmds, hout⟩ := h.busy
  have hidle : htOutputLogic s q = (s, q) → ∃ left', left' <:+ left
      ∧ Answering left' more total (htOutputLogic s q).1 (htOutputLogic s q).2
      ∧ (htOutputLogic s q = (s, q)
        ∨ (htOutputLogic s q).2.outData.length = q.outData.length + 1) :=
    fun heq ↦ ⟨left, List.suffix_rfl, by rwa [heq], .inl heq⟩
  cases hbusy with
  | idle hstate hzero =>
    cases hresult : q.memWr2out with
    | nil => exact hidle (by rw [htOutputLogic, hstate, hresult])
    | cons addressWord memWr2out =>
      cases hmd : q.md2out with
      | nil => exact hidle (by rw [htOutputLogic, hstate, hresult, hmd])
      | cons metadataWord md2out =>
        obtain ⟨a, left', rfl, hcall, h'⟩ := h.begin hstate hresult hmd
          (hready hstate (hresult ▸ List.cons_ne_nil _ _))
        refine ⟨left', List.suffix_cons _ _, h', .inr ?_⟩
        rw [hcall]
        exact List.length_append
  | md m hstate hkeys hvalues =>
    cases hmd : q.md2out with
    | nil => exact hidle (by rw [htOutputLogic, hstate, hmd])
    | cons metadataWord md2out =>
      by_cases hsupplied : s.Supplied q
      · rw [hmd] at hqmds
        obtain ⟨rfl, hmoremds⟩ := List.cons.inj hqmds
        have hcall : htOutputLogic s q
            = s.further { q with md2out } (slice metadataWord 0 124) := by
          rw [htOutputLogic, hstate, hmd]
          exact if_pos hsupplied
        refine ⟨left, List.suffix_rfl, ?_, .inr ?_⟩
        · rw [hcall]
          exact further_eq (q := { q with md2out }) hkeys hvalues hsupplied hqkeys hqvalues
            hmoremds h.results hout
        · rw [hcall]
          exact List.length_append
      · refine hidle ?_
        rw [htOutputLogic, hstate, hmd]
        exact if_neg hsupplied
  | rest hstate hkeys hvalues =>
    by_cases hsupplied : s.Supplied q
    · have hcall : htOutputLogic s q = s.further q 0 := by
        rw [htOutputLogic, hstate]
        exact if_pos hsupplied
      refine ⟨left, List.suffix_rfl, ?_, .inr ?_⟩
      · rw [hcall]
        exact further_eq hkeys hvalues hsupplied hqkeys hqvalues hqmds h.results hout
      · rw [hcall]
        exact List.length_append
    · refine hidle ?_
      rw [htOutputLogic, hstate]
      exact if_neg hsupplied

/-- What is to come has come. -/
theorem Answering.arrive (h : Answering left more total s q) {more' q' : OutStreams}
    (hkeys : q.key2out ++ more.key2out = q'.key2out ++ more'.key2out)
    (hvalues : q.value2out ++ more.value2out = q'.value2out ++ more'.value2out)
    (hmds : q.md2out ++ more.md2out = q'.md2out ++ more'.md2out)
    (hresults : q.memWr2out ++ more.memWr2out = q'.memWr2out ++ more'.memWr2out)
    (hout : q.outData = q'.outData) : Answering left more' total s q' := by
  obtain ⟨⟨keys, values, mds, words, hbusy, hqkeys, hqvalues, hqmds, htotal⟩, h'⟩ := h
  rw [hkeys] at hqkeys
  rw [hvalues] at hqvalues
  rw [hmds] at hqmds
  rw [hout] at htotal
  exact ⟨⟨keys, values, mds, words, hbusy, hqkeys, hqvalues, hqmds, htotal⟩, hresults ▸ h'⟩

theorem Answering.outData_isPrefix (h : Answering left more total s q) : q.outData <+: total := by
  obtain ⟨keys, values, mds, words, -, -, -, -, hout⟩ := h.busy
  exact ⟨_, hout⟩

/-- No answer is put out before it has been begun. -/
theorem Answering.outData_prefix_begun {before : List Answer}
    (h : Answering left more ((before ++ left).flatMap Answer.words) s q) :
    q.outData <+: before.flatMap Answer.words := by
  obtain ⟨keys, values, mds, words, -, -, -, -, hout⟩ := h.busy
  rw [List.flatMap_append, ← List.append_assoc] at hout
  exact ⟨words, List.append_cancel_right hout⟩

/-- **When all has come and a call does nothing**, everything has been put out. -/
theorem Answering.finished (h : Answering left {} total s q) (hstuck : htOutputLogic s q = (s, q)) :
    q.outData = total := by
  obtain ⟨keys, values, mds, words, hbusy, hqkeys, hqvalues, hqmds, hout⟩ := h.busy
  have hresults := h.results
  rw [List.append_nil] at hqkeys hqvalues hqmds hresults
  have hfurther : ∀ (q' : OutStreams) (m : BitVec 124), q'.outData = q.outData →
      s.further q' m ≠ (s, q) := by
    intro q' m hq' heq
    have hlen := congrArg (fun x ↦ x.2.outData.length) heq
    dsimp only [OutputLogic.further] at hlen
    rw [List.length_append, hq'] at hlen
    exact Nat.succ_ne_self _ hlen
  have hsupplied (hkeys : HoldsBytes keys s.keyLength) (hvalues : HoldsBytes values s.valueLength) :
      s.Supplied q := by
    refine ⟨or_iff_not_imp_left.mpr fun hne ↦ ?_, or_iff_not_imp_left.mpr fun hne ↦ ?_⟩
    · rw [hqkeys]
      exact List.append_ne_nil_of_left_ne_nil (mt hkeys.eq_zero_iff.mpr hne) _
    · rw [hqvalues]
      exact List.append_ne_nil_of_left_ne_nil (mt hvalues.eq_zero_iff.mpr hne) _
  cases hbusy with
  | idle hstate hzero =>
    cases left with
    | nil => rwa [List.nil_append, List.flatMap_nil, List.append_nil] at hout
    | cons a left =>
      have hready : ∀ b ∈ (a :: left).head?,
          q.key2out ≠ [] ∧ (b.addressWord.operation = 1 → q.value2out ≠ []) := by
        rintro b ⟨⟩
        rw [hqkeys, hqvalues]
        exact ⟨List.append_ne_nil_of_left_ne_nil a.keys_ne _,
          fun hop ↦ List.append_ne_nil_of_left_ne_nil (a.values_ne hop) _⟩
      obtain ⟨-, -, -, hcall, -⟩ := h.begin hstate hresults hqmds hready
      have hlen := congrArg (fun x ↦ x.2.outData.length) (hcall.symm.trans hstuck)
      dsimp only [OutputLogic.first] at hlen
      rw [List.length_append] at hlen
      exact absurd hlen (Nat.succ_ne_self _)
  | md m hstate hkeys hvalues =>
    rw [htOutputLogic, hstate, hqmds] at hstuck
    exact absurd ((if_pos (hsupplied hkeys hvalues)).symm.trans hstuck) (hfurther _ _ rfl)
  | rest hstate hkeys hvalues =>
    rw [htOutputLogic, hstate] at hstuck
    exact absurd ((if_pos (hsupplied hkeys hvalues)).symm.trans hstuck) (hfurther _ _ rfl)

end Answering

end FpgaOs.Memcached
