import FpgaOs.Memcached.OutputLogic
import FpgaOs.Memcached.SetAside
import FpgaOs.Memcached.WholeTable

/-!
# From packets to packets

The table and `ht_outputLogic` are `hashTableWithBuddy`: words of packets go in, and words of
packets come out. Each answer is the packet of its request once more, with the address, the status
and, unless a value has been sent, the length in the metadata (`answerPackets`).

`ht_outputLogic` throws a result away if it comes before the key, or before the value of a `SET`.
But the metadata of a request go to the table when its key is at an end, and the first word of a
`SET` has a word of the value, so this does not happen (`Answering.ready`). Answers come out in the
order of the packets (`outData_prefix`), and there is one for each packet (`outData_of_rounds`).
-/

namespace FpgaOs.Memcached

open BitField Machine

/-! ## Answers to packets -/

theorem slice_metadataBuffer (w : PipelineWord) {off n : ℕ} (h : off + n ≤ 124) :
    slice w.metadataBuffer off n = slice w.metadata off n := by
  refine BitVec.eq_of_getLsbD_eq fun i hi ↦ ?_
  rw [slice, slice, BitVec.getLsbD_extractLsb', BitVec.getLsbD_extractLsb',
    PipelineWord.metadataBuffer, BitVec.getLsbD_append, if_pos (by omega)]

namespace RequestPacket

variable (p : RequestPacket)

theorem length_keys2out (hop : p.first.operation ≠ 8) :
    p.keys2out.length = (p.first.keyLength.toNat + 7) / 8 := by
  have hpos : 0 < p.first.keyLength.toNat :=
    Nat.pos_of_ne_zero fun h ↦ p.keyLength_ne (BitVec.eq_of_toNat_eq h)
  have hle := p.complete
  have hkeys : p.keys2out = [p.first.key]
      ++ (p.rest.map PipelineWord.key).take (((p.key.drop 8).length + 7) / 8) := by
    rw [keys2out, written, if_pos hop]
  rw [hkeys, List.length_append, List.length_take, List.length_map, List.length_drop,
    p.length_key, List.length_singleton]
  omega

theorem keyLength_of_ne (hop : p.first.operation ≠ 8) :
    p.first.keyLength = slice p.first.metadata 0 8 := if_neg hop

/-- The metadata of the second word. -/
def second : BitVec 128 := (p.rest.map PipelineWord.metadataBuffer).headD 0

theorem mds2out_eq : p.mds2out = [p.first.metadataBuffer, p.second] := by
  obtain ⟨w, rest, hrest⟩ := List.exists_cons_of_ne_nil p.marked.ne_nil
  rw [mds2out, written, second, hrest]
  rfl

end RequestPacket

theorem Operation.code_eq_one_iff (op : Operation) : op.code = 1 ↔ op = .set := by
  cases op <;> decide

namespace ClientPacket

variable (p : ClientPacket)

/-- The words carry as much of a value as the first one says, and only a `SET` has one. -/
structure Valued : Prop where
  set : p.op = .set → p.first.valueValid = true ∧ HoldsBytes p.values2out p.md.valueLength
  others : p.op ≠ .set → p.values2out = []

theorem operation_ne : p.first.operation ≠ 8 := by
  rw [← p.code]
  cases p.op <;> decide

theorem valueLength_eq : p.md.valueLength = slice p.first.metadata 8 16 := by
  refine BitVec.eq_of_getLsbD_eq fun i hi ↦ ?_
  rw [RequestPacket.md, slice, slice, BitVec.getLsbD_setWidth, BitVec.getLsbD_extractLsb',
    BitVec.getLsbD_extractLsb', decide_eq_true hi, decide_eq_true (by omega : i < 32)]
  rfl

theorem Valued.values_ne {p : ClientPacket} (h : p.Valued) {r : DecideResult}
    (hr : r.operation = p.op.code) (hop : r.operation = 1) : p.first.values ≠ [] := by
  have hset := p.op.code_eq_one_iff.mp (hr.symm.trans hop)
  rw [PipelineWord.values, if_pos (h.set hset).1]
  exact List.cons_ne_nil _ _

/-- What `ht_outputLogic` makes of the packet and the result. -/
def answer (hvalued : p.Valued) (r : DecideResult) (hr : r.operation = p.op.code) : Answer where
  addressWord := r
  first := p.first.metadataBuffer
  second := p.second
  keys := p.keys2out
  values := p.values2out
  keys_ne := by
    have hlen := p.length_keys2out p.operation_ne
    have hpos : 0 < p.first.keyLength.toNat :=
      Nat.pos_of_ne_zero fun h ↦ p.keyLength_ne (BitVec.eq_of_toNat_eq h)
    exact List.ne_nil_of_length_pos (by omega)
  holds_keys := by
    rw [slice_metadataBuffer _ (by decide), ← p.keyLength_of_ne p.operation_ne]
    exact p.length_keys2out p.operation_ne
  values_ne hop := by
    rw [RequestPacket.values2out, RequestPacket.words, List.flatMap_cons]
    exact List.append_ne_nil_of_left_ne_nil (hvalued.values_ne hr hop) _
  holds_values hop := by
    rw [slice_metadataBuffer _ (by decide), ← p.valueLength_eq]
    exact (hvalued.set (p.op.code_eq_one_iff.mp (hr.symm.trans hop))).2
  values_eq hop := hvalued.others fun hset ↦ hop (hr.trans (p.op.code_eq_one_iff.mpr hset))

/-- The words of the answer to a packet. -/
def answerWords (r : DecideResult) : List PipelineWord :=
  Memcached.answerWords r p.first.metadataBuffer p.second p.keys2out p.values2out

end ClientPacket

theorem Dictionary.operation_apply (d : Dictionary) (q : ClientRequest) :
    (d.apply q).2.1.operation = q.op.code := by
  rw [apply]
  cases hop : q.op with
  | get => cases d.map q.key <;> rfl
  | set =>
    cases d.map q.key with
    | none =>
      dsimp only
      split <;> rfl
    | some v => rfl
  | delete => cases d.map q.key <;> rfl

/-- These are the answers to the packets. -/
structure AnswersTo (ps : List ClientPacket) (ds : List DecideResult) (all : List Answer) :
    Prop where
  results : all.map Answer.addressWord = ds
  keys : all.map Answer.keys = ps.map fun p ↦ p.keys2out
  values : all.map Answer.values = ps.map fun p ↦ p.values2out
  mds : all.map Answer.mds = ps.map fun p ↦ p.mds2out
  value : List.Forall₂ (fun p a ↦ a.addressWord.operation = 1 → p.first.values ≠ []) ps all
  words : all.map Answer.words = List.zipWith ClientPacket.answerWords ps ds

theorem exists_answersTo {ps : List ClientPacket} (hvalued : ∀ p ∈ ps, p.Valued) (d : Dictionary) :
    ∃ all, AnswersTo ps ((d.answers (ps.map ClientPacket.request)).map Prod.fst) all := by
  induction ps generalizing d with
  | nil => exact ⟨[], rfl, rfl, rfl, rfl, .nil, rfl⟩
  | cons p ps ih =>
    obtain ⟨hp, hps⟩ := List.forall_mem_cons.mp hvalued
    obtain ⟨all, hresults, hkeys, hvalues, hmds, hvalue, hwords⟩ := ih hps (d.apply p.request).1
    have hop := d.operation_apply p.request
    refine ⟨p.answer hp _ hop :: all, ?_, ?_, ?_, ?_, .cons (hp.values_ne hop) hvalue, ?_⟩
    · rw [List.map_cons, hresults]
      rfl
    · rw [List.map_cons, hkeys]
      rfl
    · rw [List.map_cons, hvalues]
      rfl
    · rw [List.map_cons, hmds, List.map_cons, p.mds2out_eq]
      rfl
    · rw [List.map_cons, hwords]
      rfl

namespace OutStreams

/-- What is behind `o`. -/
def behind (o o' : OutStreams) : OutStreams where
  memWr2out := o'.memWr2out.drop o.memWr2out.length
  key2out := o'.key2out.drop o.key2out.length
  value2out := o'.value2out.drop o.value2out.length
  md2out := o'.md2out.drop o.md2out.length

/-- The streams after this has arrived. -/
def receive (q o : OutStreams) : OutStreams where
  memWr2out := q.memWr2out ++ o.memWr2out
  key2out := q.key2out ++ o.key2out
  value2out := q.value2out ++ o.value2out
  md2out := q.md2out ++ o.md2out
  outData := q.outData

theorem behind_self (o : OutStreams) : o.behind o = {} := by
  rw [behind, List.drop_length, List.drop_length, List.drop_length, List.drop_length]

theorem receive_empty (q : OutStreams) : q.receive {} = q := by
  rw [receive, List.append_nil, List.append_nil, List.append_nil, List.append_nil]

/-- What has been written is a part of this. -/
structure Before (o o' : OutStreams) : Prop where
  memWr2out : o.memWr2out <+: o'.memWr2out
  key2out : o.key2out <+: o'.key2out
  value2out : o.value2out <+: o'.value2out
  md2out : o.md2out <+: o'.md2out

end OutStreams

/-! ## What has been written -/

/-- All that has been written for `ht_outputLogic`. -/
def WholeTable.written (t : WholeTable) : OutStreams where
  memWr2out := t.stages.q.memWr2out
  key2out := t.front.q.in2key
  value2out := t.front.q.in2value
  md2out := t.front.q.in2md

section Written

variable {t : WholeTable} {ps : List ClientPacket} {rs : List TableRequest} {all : List Answer}

open WholeTable

/-- All that is to be written for these answers. -/
def inputsOf (all : List Answer) : OutStreams where
  memWr2out := all.map Answer.addressWord
  key2out := all.flatMap Answer.keys
  value2out := all.flatMap Answer.values
  md2out := all.flatMap Answer.mds

theorem WholeTable.Sound.setAside (h : Sound ps rs t) :
    FrontEnd.SetAside ((t.sent ps).map ClientPacket.toRequestPacket) t.front := by
  obtain ⟨es, -, hrun⟩ := h.front
  rw [← hrun]
  exact FrontEnd.setAside_run _ es

theorem WholeTable.Sound.answered_le (h : Sound ps rs t) (hserves : Serves ps rs) :
    t.stages.q.memWr2out.length ≤ t.front.q.in2ccMd.length
      ∧ t.front.q.in2ccMd.length ≤ (t.sent ps).length := by
  obtain ⟨p, h'⟩ := h.inv
  have hput := (h.before hserves (.refl _)).in2ccMd.length_le
  have hout : t.stages.q.memWr2out.length ≤ p.wr := by
    have heq : t.stages.q.memWr2out = _ := h'.out
    rw [heq, List.length_map]
    exact List.length_take_le _ _
  have hsent := h'.wr_le_sent
  rw [wanted, List.length_map] at hput
  rw [Pipeline.sent, seen, Pipeline.receive, wanted, List.length_append, List.length_drop,
    List.length_map] at hsent
  refine ⟨by omega, ?_⟩
  obtain ⟨es, -, hrun⟩ := h.front
  obtain ⟨wss, -, hpre, -⟩ := FrontEnd.exists_puts ((t.sent ps).map ClientPacket.toRequestPacket)
  have hle := (hpre es).2.1.length_le
  rwa [hrun, List.map_map, List.length_map] at hle

/-- For every result there is the key, and the first word of the value. -/
structure InTime (all : List Answer) (o : OutStreams) : Prop where
  keys : ∀ i < o.memWr2out.length,
    ((all.take (i + 1)).flatMap Answer.keys).length ≤ o.key2out.length
  values : ∀ i < o.memWr2out.length, ∀ a ∈ all[i]?, a.addressWord.operation = 1 →
    ((all.take i).flatMap Answer.values).length < o.value2out.length

theorem flatMap_take_eq {α β γ : Type*} {f : α → List γ} {g : β → List γ} {as : List α}
    {bs : List β} (h : as.map f = bs.map g) (i : ℕ) :
    (as.take i).flatMap f = (bs.take i).flatMap g := by
  rw [List.flatMap_def, List.flatMap_def, List.map_take, List.map_take, h]

theorem flatMap_sent_take (f : RequestPacket → List (BitVec 64)) {i : ℕ}
    (hi : i ≤ (t.sent ps).length) :
    (((t.sent ps).map ClientPacket.toRequestPacket).take i).flatMap f
      = (ps.take i).flatMap fun p ↦ f p.toRequestPacket := by
  rw [sent, List.length_take] at hi
  rw [← List.map_take, List.flatMap_map, sent, List.take_take,
    Nat.min_eq_left (hi.trans (Nat.min_le_left ..))]

theorem WholeTable.Sound.inTime (h : Sound ps rs t) (hserves : Serves ps rs)
    {ds : List DecideResult} (hto : AnswersTo ps ds all) : InTime all t.written := by
  obtain ⟨hanswered, hsent⟩ := h.answered_le hserves
  have hlen : ps.length = all.length := hto.value.length_eq
  refine ⟨fun i hi ↦ ?_, fun i hi a ha hop ↦ ?_⟩
  · have hi' := hi.trans_le hanswered
    obtain ⟨hkeys, -⟩ := h.setAside.inTime i hi'
    rw [flatMap_sent_take _ (hi'.trans_le hsent)] at hkeys
    rwa [flatMap_take_eq hto.keys]
  · have hi' := hi.trans_le hanswered
    obtain ⟨-, hvalues⟩ := h.setAside.inTime i hi'
    obtain ⟨hall, rfl⟩ := List.getElem?_eq_some_iff.mp ha
    have hps : i < ps.length := hlen ▸ hall
    have hget : ((t.sent ps).map ClientPacket.toRequestPacket)[i]?
        = some ps[i].toRequestPacket := by
      have hlt := hi'.trans_le hsent
      rw [sent, List.length_take] at hlt
      rw [List.getElem?_map, sent, List.getElem?_take_of_lt (hlt.trans_le (Nat.min_le_left ..)),
        List.getElem?_eq_getElem hps]
      rfl
    have hle := hvalues _ hget
    rw [flatMap_sent_take _ (hi'.trans_le hsent).le] at hle
    rw [flatMap_take_eq hto.values]
    have hpos := List.length_pos_iff.mpr (hto.value.get hps hall hop)
    exact Nat.lt_of_lt_of_le (Nat.lt_add_of_pos_right hpos) hle

theorem WholeTable.Sound.written_before (h : Sound ps rs t) (hserves : Serves ps rs)
    (hshort : ∀ p ∈ ps, p.key.length ≤ 112)
    (hto : AnswersTo ps ((Dictionary.empty.answers (ps.map ClientPacket.request)).map Prod.fst)
      all) : t.written.Before (inputsOf all) := by
  obtain ⟨p, h'⟩ := h.inv
  have hresults := (h'.answered (hserves.short hshort)).1
  rw [(Store.shows_empty.answers_eq hserves.carries).1] at hresults
  have hall {γ : Type} {f : RequestPacket → List γ} {g : Answer → List γ}
      (hto : all.map g = ps.map fun p ↦ f p.toRequestPacket) {l : List γ}
      (hl : l <+: ((t.sent ps).map ClientPacket.toRequestPacket).flatMap f) :
      l <+: all.flatMap g := by
    rw [List.flatMap_def, hto, ← List.flatMap_def]
    rw [List.flatMap_map] at hl
    exact hl.trans ((List.take_prefix _ _).flatMap _)
  refine ⟨?_, hall hto.keys h.setAside.keys, hall hto.values h.setAside.values,
    hall hto.mds h.setAside.mds⟩
  have hmem : t.written.memWr2out = t.stages.q.memWr2out := rfl
  rw [inputsOf, hto.results, hmem]
  exact hresults ▸ (List.take_prefix _ _).map _

end Written

/-! ## In time -/

theorem length_of_behind {α : Type*} {l l' q before left : List α} (h : l <+: l')
    (hl' : before ++ left = l') (hq : q ++ l'.drop l.length = left) :
    l.length = before.length + q.length := by
  have hle := h.length_le
  have hlen := congrArg List.length hl'
  have hlen' := congrArg List.length hq
  rw [List.length_append] at hlen
  rw [List.length_append, List.length_drop] at hlen'
  omega

/-- **Nothing is lost.** When there is a result, the key has been set aside, and so has the
value. -/
theorem Answering.ready {left all : List Answer} {o q : OutStreams} {total : List PipelineWord}
    {s : OutputLogic} (h : Answering left (o.behind (inputsOf all)) total s q)
    (hleft : left <:+ all) (hbefore : o.Before (inputsOf all)) (hintime : InTime all o)
    (hstate : s.olState = .idle) (hne : q.memWr2out ≠ []) : ∀ a ∈ left.head?,
      q.key2out ≠ [] ∧ (a.addressWord.operation = 1 → q.value2out ≠ []) := by
  rintro a ha
  obtain ⟨left, rfl⟩ : ∃ left', left = a :: left' := List.head?_eq_some_iff.mp ha
  obtain ⟨before, rfl⟩ := hleft
  obtain ⟨⟨keys, values, mds, words, hbusy, hqkeys, hqvalues, -, -⟩, hresults⟩ := h
  obtain ⟨rfl, rfl⟩ : keys = [] ∧ values = [] := by
    cases hbusy with
    | idle => exact ⟨rfl, rfl⟩
    | md m state => exact OlState.noConfusion (hstate.symm.trans state)
    | rest state => exact OlState.noConfusion (hstate.symm.trans state)
  have hcount := length_of_behind hbefore.memWr2out List.map_append.symm hresults
  have hkeys := length_of_behind hbefore.key2out List.flatMap_append.symm hqkeys
  have hvalues := length_of_behind hbefore.value2out List.flatMap_append.symm hqvalues
  rw [List.length_map] at hcount
  have hlt : before.length < o.memWr2out.length := by
    rw [hcount]
    exact Nat.lt_add_of_pos_right (List.length_pos_iff.mpr hne)
  refine ⟨fun hnil ↦ ?_, fun hop hnil ↦ ?_⟩
  · have hle := hintime.keys _ hlt
    rw [List.take_length_add_append, List.flatMap_append, List.length_append, List.take_succ_cons,
      List.take_zero, List.flatMap_singleton, hkeys, hnil, Nat.add_le_add_iff_left] at hle
    exact a.keys_ne (List.length_eq_zero_iff.mp (Nat.le_zero.mp hle))
  · have hget : (before ++ a :: left)[before.length]? = some a := by
      rw [List.getElem?_append_right le_rfl, Nat.sub_self]
      rfl
    have hlt' := hintime.values _ hlt a hget hop
    rw [List.take_left, hvalues, hnil] at hlt'
    exact Nat.lt_irrefl _ hlt'

/-! ## The whole -/

/-- `hashTableWithBuddy`: the table and `ht_outputLogic`. -/
structure HashTableWithBuddy where
  table : WholeTable
  out : OutputLogic := {}
  q : OutStreams := {}

namespace HashTableWithBuddy

/-- Something happens in the table, or `ht_outputLogic` is called. -/
inductive Event
  | table (e : WholeTable.Event)
  | htOutputLogic
  deriving DecidableEq

variable (s : HashTableWithBuddy)

def step : Event → HashTableWithBuddy
  | .table e =>
    let table := s.table.step e
    { s with table, q := s.q.receive (s.table.written.behind table.written) }
  | .htOutputLogic =>
    let result := Memcached.htOutputLogic s.out s.q
    { s with out := result.1, q := result.2 }

def start (ps : List ClientPacket) (enabled : Bool) : HashTableWithBuddy :=
  { table := .start ps enabled }

/-- A packet is sent only when the table allows it. -/
def Waits (ps : List ClientPacket) : Event → Prop
  | .table e => s.table.Waits ps e
  | .htOutputLogic => True

instance (ps : List ClientPacket) : ∀ e, Decidable (s.Waits ps e)
  | .table e => inferInstanceAs (Decidable (s.table.Waits ps e))
  | .htOutputLogic => isTrue trivial

variable {s : HashTableWithBuddy} {ps : List ClientPacket} {rs : List TableRequest}
  {all : List Answer}

theorem written_step (t : WholeTable) (e : WholeTable.Event) :
    t.written.Before (t.step e).written := by
  have hsame (o : OutStreams) : o.Before o :=
    ⟨List.prefix_rfl, List.prefix_rfl, List.prefix_rfl, List.prefix_rfl⟩
  cases e with
  | send =>
    rw [WholeTable.step]
    split <;> exact hsame _
  | front e =>
    obtain ⟨hkey, hvalue, hmd⟩ := t.front.set_aside_step e
    exact ⟨List.prefix_rfl, hkey, hvalue, hmd⟩
  | stages e =>
    have hanswered := memWr2out_prefix_step t.stages e
    exact ⟨hanswered, List.prefix_rfl, List.prefix_rfl, List.prefix_rfl⟩

/-- These are the packets, the requests to the table and the answers. -/
structure Meant (ps : List ClientPacket) (rs : List TableRequest) (all : List Answer) : Prop where
  serves : WholeTable.Serves ps rs
  short : ∀ p ∈ ps, p.key.length ≤ 112
  answers : AnswersTo ps
    ((Dictionary.empty.answers (ps.map ClientPacket.request)).map Prod.fst) all

/-- The table is somewhere on its way, and what is left of the answers is still to be put out. -/
structure Sound (ps : List ClientPacket) (rs : List TableRequest) (all : List Answer)
    (s : HashTableWithBuddy) : Prop where
  table : WholeTable.Sound ps rs s.table
  answering : ∃ left, left <:+ all ∧ Answering left (s.table.written.behind (inputsOf all))
    (all.flatMap Answer.words) s.out s.q

/-- **A call of `ht_outputLogic`** puts out one word more, or it does nothing. -/
theorem Sound.call (h : Sound ps rs all s) (hmeant : Meant ps rs all) :
    Sound ps rs all (s.step .htOutputLogic) ∧ (s.step .htOutputLogic = s
      ∨ (s.step .htOutputLogic).q.outData.length = s.q.outData.length + 1) := by
  obtain ⟨left, hleft, hanswering⟩ := h.answering
  have hready := hanswering.ready hleft
    (h.table.written_before hmeant.serves hmeant.short hmeant.answers)
    (h.table.inTime hmeant.serves hmeant.answers)
  obtain ⟨left', hleft', hanswering', hcall⟩ := hanswering.call hready
  refine ⟨⟨h.table, left', hleft'.trans hleft, hanswering'⟩, hcall.imp_left fun hsame ↦ ?_⟩
  rw [step, hsame]

theorem Sound.step (h : Sound ps rs all s) (hmeant : Meant ps rs all) {e : Event}
    (hwaits : s.Waits ps e) : Sound ps rs all (s.step e) := by
  cases e with
  | htOutputLogic => exact (h.call hmeant).1
  | table e =>
    obtain ⟨left, hleft, hanswering⟩ := h.answering
    have htable := h.table.step hmeant.serves hwaits
    have hnow := written_step s.table e
    have hall := htable.written_before hmeant.serves hmeant.short hmeant.answers
    exact ⟨htable, left, hleft, hanswering.arrive
      (append_drop_append_drop hnow.key2out hall.key2out _).symm
      (append_drop_append_drop hnow.value2out hall.value2out _).symm
      (append_drop_append_drop hnow.md2out hall.md2out _).symm
      (append_drop_append_drop hnow.memWr2out hall.memWr2out _).symm rfl⟩

theorem Sound.start (hmeant : Meant ps rs all) (enabled : Bool) :
    Sound ps rs all (.start ps enabled) where
  table := .start hmeant.serves hmeant.short enabled
  answering := ⟨all, List.suffix_rfl, ⟨[], [], [], [], .idle rfl rfl, rfl, rfl, rfl, rfl⟩, rfl⟩

theorem Sound.run (hmeant : Meant ps rs all) {enabled : Bool} {es : List Event}
    (hwaits : Guarded HashTableWithBuddy.step (Waits · ps) (.start ps enabled) es) :
    Sound ps rs all (Machine.run HashTableWithBuddy.step (.start ps enabled) es) :=
  @Guarded.invariant _ _ _ _ (Sound ps rs all) (fun _ _ h hwaits ↦ h.step hmeant hwaits) _ _
    (.start hmeant enabled) hwaits

/-- What comes out for each of these packets. -/
noncomputable def answerPackets (ps : List ClientPacket) : List (List PipelineWord) :=
  List.zipWith ClientPacket.answerWords ps
    ((Dictionary.empty.answers (ps.map ClientPacket.request)).map Prod.fst)

theorem Meant.flatMap_words (h : Meant ps rs all) :
    all.flatMap Answer.words = (answerPackets ps).flatten := by
  rw [List.flatMap_def, h.answers.words, answerPackets]

theorem exists_meant (hshort : ∀ p ∈ ps, p.key.length ≤ 112) (hvalued : ∀ p ∈ ps, p.Valued) :
    ∃ rs all, Meant ps rs all
      ∧ ((∀ p ∈ ps.dropLast, ¬Stalls p.key.length) → ∃ n, WholeTable.EndsWithin ps rs n) := by
  obtain ⟨rs, hserves, hends⟩ := WholeTable.exists_serves ps
  obtain ⟨all, hanswers⟩ := exists_answersTo hvalued .empty
  exact ⟨rs, all, ⟨hserves, hshort, hanswers⟩, hends⟩

theorem Sound.outData_isPrefix (h : Sound ps rs all s) (hmeant : Meant ps rs all) :
    s.q.outData <+: (all.take (s.table.sent ps).length).flatMap Answer.words := by
  obtain ⟨left, ⟨before, hall⟩, hanswering⟩ := h.answering
  have hbefore := h.table.written_before hmeant.serves hmeant.short hmeant.answers
  obtain ⟨hanswered, hsent⟩ := h.table.answered_le hmeant.serves
  have hresults : before.map Answer.addressWord ++ left.map Answer.addressWord
      = (inputsOf all).memWr2out := List.map_append.symm.trans (congrArg (List.map _) hall)
  have hcount := length_of_behind hbefore.memWr2out hresults hanswering.results
  rw [List.length_map] at hcount
  have hle : before.length ≤ (s.table.sent ps).length :=
    (hcount ▸ Nat.le_add_right ..).trans (hanswered.trans hsent)
  rw [← hall] at hanswering ⊢
  have hpart := List.prefix_take_iff.mpr ⟨List.prefix_append before left, hle⟩
  exact hanswering.outData_prefix_begun.trans (hpart.flatMap _)

/-- **What comes out.** Whatever the order of the calls, it is answers to the packets that have been
sent, in their order, and each of them tells what the dictionary answers to its packet. -/
theorem outData_prefix (hshort : ∀ p ∈ ps, p.key.length ≤ 112) (hvalued : ∀ p ∈ ps, p.Valued)
    {enabled : Bool} {es : List Event}
    (hwaits : Guarded step (Waits · ps) (start ps enabled) es) :
    let s := Machine.run step (start ps enabled) es
    s.q.outData <+: ((answerPackets ps).take (s.table.sent ps).length).flatten := by
  intro s
  obtain ⟨rs, all, hmeant, -⟩ := exists_meant hshort hvalued
  have hpart := (Sound.run hmeant hwaits).outData_isPrefix hmeant
  rwa [List.flatMap_def, List.map_take, hmeant.answers.words] at hpart

/-! ### All packets -/

/-- The event is one of the table. -/
def Event.table? : Event → Option WholeTable.Event
  | .table e => some e
  | .htOutputLogic => none

/-- The table is on its own. -/
theorem table_run (s : HashTableWithBuddy) (es : List Event) :
    (Machine.run step s es).table
      = Machine.run WholeTable.step s.table (es.filterMap Event.table?) := by
  induction es generalizing s with
  | nil => rfl
  | cons e es ih =>
    rw [Machine.run_cons, ih, List.filterMap_cons]
    cases e <;> rfl

/-- The table is done. -/
structure Done (ps : List ClientPacket) (rs : List TableRequest) (all : List Answer)
    (s : HashTableWithBuddy) : Prop extends Sound ps rs all s where
  delivered : WholeTable.Delivered ps rs s.table
  stuck : Stuck WholeTable.step (fun _ ↦ True) s.table

/-- How many words are still to be put out. -/
noncomputable def missing (ps : List ClientPacket) (s : HashTableWithBuddy) : ℕ :=
  (answerPackets ps).flatten.length - s.q.outData.length

theorem Done.step_table (h : Done ps rs all s) (e : WholeTable.Event) : s.step (.table e) = s := by
  rw [HashTableWithBuddy.step, h.stuck e trivial, OutStreams.behind_self, OutStreams.receive_empty]

theorem Done.step (h : Done ps rs all s) (hmeant : Meant ps rs all) (e : Event) :
    Done ps rs all (s.step e) ∧ (s.step e = s ∨ missing ps (s.step e) < missing ps s) := by
  cases e with
  | table e =>
    rw [h.step_table]
    exact ⟨h, .inl rfl⟩
  | htOutputLogic =>
    obtain ⟨hsound, hcall⟩ := h.call hmeant
    refine ⟨⟨hsound, h.delivered, h.stuck⟩, hcall.imp_right fun hlen ↦ ?_⟩
    obtain ⟨left, -, hanswering⟩ := hsound.answering
    have hle := hanswering.outData_isPrefix.length_le
    rw [hmeant.flatMap_words] at hle
    rw [missing, missing]
    omega

/-- When no packet is sent, any event is allowed, and no word that has been put out is lost. -/
theorem Sound.step_of_sent (h : Sound ps rs all s) (hmeant : Meant ps rs all)
    (hsent : s.table.toSend = []) (e : Event) :
    Sound ps rs all (s.step e) ∧ (s.step e).table.toSend = []
      ∧ missing ps (s.step e) ≤ missing ps s := by
  cases e with
  | table e =>
    exact ⟨h.step hmeant (WholeTable.waits_of_sent hsent ps e), WholeTable.toSend_step hsent e,
      le_rfl⟩
  | htOutputLogic =>
    obtain ⟨hsound, hcall⟩ := h.call hmeant
    refine ⟨hsound, hsent, ?_⟩
    rcases hcall with hsame | hlen
    · rw [hsame]
    · rw [missing, missing, hlen]
      exact Nat.sub_le_sub_left (Nat.le_succ _) _

/-- Everything has been written. -/
theorem Done.written_eq (h : Done ps rs all s) (hmeant : Meant ps rs all) :
    s.table.written = inputsOf all := by
  obtain ⟨hresults, -⟩ := h.delivered.finished hmeant.serves hmeant.short h.stuck
  obtain ⟨es, -, hrun⟩ := h.delivered.front_of_sent h.delivered.toSend
  have hended := h.delivered.ended
  rw [← hrun] at hended
  obtain ⟨hkeys, hvalues, hmds⟩ := FrontEnd.setAside_of_ended hended
  rw [hrun, List.flatMap_map, List.flatMap_def] at hkeys hvalues hmds
  have hto := hmeant.answers
  rw [WholeTable.written, inputsOf, hkeys, hvalues, hmds, hresults, hto.results, List.flatMap_def,
    List.flatMap_def, List.flatMap_def, hto.keys, hto.values, hto.mds]

theorem Done.finished (h : Done ps rs all s) (hmeant : Meant ps rs all)
    (hstuck : s.step .htOutputLogic = s) : s.q.outData = (answerPackets ps).flatten := by
  obtain ⟨left, -, hanswering⟩ := h.answering
  rw [h.written_eq hmeant, OutStreams.behind_self] at hanswering
  rw [← hmeant.flatMap_words]
  refine hanswering.finished (Prod.ext ?_ ?_)
  · exact congrArg out hstuck
  · exact congrArg q hstuck

/-- After enough rounds the table is done, and no word that has been put out is lost. -/
theorem Sound.done_of_rounds (h : Sound ps rs all s) (hmeant : Meant ps rs all)
    (hsent : s.table.toSend = []) {n : ℕ} (hends : WholeTable.EndsWithin ps rs n)
    {rounds : List (List Event)} (hrounds : ∀ r ∈ rounds, ∀ e, e ∈ r)
    (hlen : n + (s.table.seen rs).work ≤ rounds.length) :
    let s' := Machine.run HashTableWithBuddy.step s rounds.flatten
    Done ps rs all s' ∧ missing ps s' ≤ missing ps s := by
  intro s'
  have htables : ∀ r ∈ rounds.map (List.filterMap Event.table?), ∀ e, e ∈ r := by
    intro r hr e
    obtain ⟨r', hr', rfl⟩ := List.mem_map.mp hr
    exact List.mem_filterMap.mpr ⟨.table e, hrounds r' hr' _, rfl⟩
  obtain ⟨hdelivered, hstuck⟩ := h.table.delivered_of_rounds hmeant.serves hsent hends htables
    (by rwa [List.length_map])
  rw [← List.filterMap_flatten, ← table_run] at hdelivered hstuck
  let inv : HashTableWithBuddy → Prop :=
    fun t ↦ Sound ps rs all t ∧ t.table.toSend = [] ∧ missing ps t ≤ missing ps s
  have hstep : ∀ t e, inv t → inv (t.step e) := by
    intro t e ⟨hsound, hnil, hle⟩
    obtain ⟨hsound', hnil', hle'⟩ := hsound.step_of_sent hmeant hnil e
    exact ⟨hsound', hnil', hle'.trans hle⟩
  obtain ⟨hsound, -, hle⟩ : inv s' := run_invariant hstep ⟨h, hsent, le_rfl⟩ _
  exact ⟨⟨hsound, hdelivered, hstuck⟩, hle⟩

/-- **Every packet is answered with a packet.** -/
theorem outData_of_rounds (hshort : ∀ p ∈ ps, p.key.length ≤ 112) (hvalued : ∀ p ∈ ps, p.Valued)
    (hstall : ∀ p ∈ ps.dropLast, ¬Stalls p.key.length) {enabled : Bool} {es : List Event}
    (hwaits : Guarded step (Waits · ps) (start ps enabled) es)
    (hsent : (Machine.run step (start ps enabled) es).table.toSend = []) :
    ∃ n, ∀ rounds : List (List Event), (∀ r ∈ rounds, ∀ e, e ∈ r) → n ≤ rounds.length →
      (Machine.run step (start ps enabled) (es ++ rounds.flatten)).q.outData
        = (answerPackets ps).flatten := by
  obtain ⟨rs, all, hmeant, hends⟩ := exists_meant hshort hvalued
  obtain ⟨n, hends⟩ := hends hstall
  let s := Machine.run step (start ps enabled) es
  have hsound : Sound ps rs all s := .run hmeant hwaits
  refine ⟨n + (s.table.seen rs).work + missing ps s, fun rounds hrounds hlen ↦ ?_⟩
  -- in the first rounds the table comes to its end, in the others `ht_outputLogic` does
  obtain ⟨first, others, rfl, hfirst⟩ : ∃ first others, rounds = first ++ others
      ∧ first.length = n + (s.table.seen rs).work :=
    ⟨rounds.take _, rounds.drop _, (List.take_append_drop ..).symm,
      List.length_take_of_le ((Nat.le_add_right ..).trans hlen)⟩
  rw [List.length_append, hfirst, Nat.add_le_add_iff_left] at hlen
  obtain ⟨hrounds, hothers⟩ := List.forall_mem_append.mp hrounds
  obtain ⟨hdone, hle⟩ := hsound.done_of_rounds hmeant hsent hends hrounds hfirst.ge
  have hall : ∀ r ∈ others, ∀ e, e ∈ r ↔ True := fun r hr e ↦ iff_true_intro (hothers r hr e)
  obtain ⟨hdone', hquiet⟩ := stuck_of_rounds (fun _ e h _ ↦ (Done.step h hmeant e).1)
    (fun _ e h _ ↦ (Done.step h hmeant e).2) hdone hall (hle.trans hlen)
  rw [List.flatten_append, run_append, run_append]
  exact hdone'.finished hmeant (hquiet .htOutputLogic trivial)

/-! ### An example -/

/-- All that can happen but for sending. -/
def round : List Event := .htOutputLogic :: WholeTable.round.map .table

theorem guarded_iff_table {es : List Event} : Guarded step (Waits · ps) s es
    ↔ Guarded WholeTable.step (WholeTable.Waits · ps) s.table (es.filterMap Event.table?) := by
  induction es generalizing s with
  | nil => exact Iff.rfl
  | cons e es ih =>
    rw [guarded_cons, ih, List.filterMap_cons]
    cases e with
    | table e => exact Iff.rfl
    | htOutputLogic => exact and_iff_right trivial

/-- `ht_outputLogic` is called after everything that happens. -/
def sampleEvents (n : ℕ) : List Event :=
  (WholeTable.sampleEvents n).flatMap fun e ↦ [.table e, .htOutputLogic]

theorem waits_sampleEvents :
    Guarded step (Waits · WholeTable.samplePackets) (start WholeTable.samplePackets false)
      (sampleEvents 16) := by
  have htable (es : List WholeTable.Event) :
      (es.flatMap fun e ↦ [Event.table e, .htOutputLogic]).filterMap Event.table? = es := by
    induction es with
    | nil => rfl
    | cons e es ih => exact congrArg (e :: ·) ih
  rw [guarded_iff_table, sampleEvents, htable]
  exact WholeTable.waits_sampleEvents

theorem valued_samplePackets : ∀ p ∈ WholeTable.samplePackets, p.Valued := by
  refine List.forall_mem_cons.mpr ⟨⟨?_, ?_⟩, List.forall_mem_singleton.mpr ⟨?_, ?_⟩⟩
  · exact fun _ ↦ ⟨rfl, rfl⟩
  · exact fun hne ↦ absurd rfl hne
  · exact fun heq ↦ Operation.noConfusion heq
  · exact fun _ ↦ rfl

theorem outData_prefix_sample :
    let s := Machine.run step (start WholeTable.samplePackets false) (sampleEvents 16)
    s.q.outData <+: ((answerPackets WholeTable.samplePackets).take
      (s.table.sent WholeTable.samplePackets).length).flatten :=
  outData_prefix (by decide) valued_samplePackets waits_sampleEvents

theorem outData_of_rounds_sample :
    ∃ n, ∀ rounds : List (List Event), (∀ r ∈ rounds, ∀ e, e ∈ r) → n ≤ rounds.length →
      (Machine.run step (start WholeTable.samplePackets false)
        (sampleEvents 16 ++ rounds.flatten)).q.outData
        = (answerPackets WholeTable.samplePackets).flatten :=
  outData_of_rounds (by decide) valued_samplePackets (by decide) waits_sampleEvents
    (List.isEmpty_iff.mp (by decide +kernel))

/-- The lengths of the values and the words of the keys that come out in some rounds. -/
def sampleOut (n : ℕ) : List (BitVec 16 × BitVec 64) :=
  (Machine.run step (start WholeTable.samplePackets false)
    (sampleEvents 16 ++ (List.replicate n round).flatten)).q.outData.map
      fun w ↦ (slice w.metadata 8 16, w.key)

-- the second answer tells the length of the value, which the `GET` did not have
example : sampleOut 0 = [(5, 0x6162636465666768), (0, 0x696a)] := by decide +kernel
example : sampleOut 30 = [(5, 0x6162636465666768), (0, 0x696a), (5, 0x6162636465666768),
    (0, 0x696a)] := by decide +kernel

end HashTableWithBuddy

end FpgaOs.Memcached
