import FpgaOs.Lib.Feed
import FpgaOs.Lib.Frame
import FpgaOs.Rdm.Stages

/-!
# Which packets `parser` keeps apart

`parser` takes two units for the headers of every packet, whether or not `last` is set on the
second, and ends the data of a `WRITE` at `last` or when it has counted as many units as the length
says. So it finds the start of the next packet only if the packet has as many units as it takes.
`app_rdma` has a state that skips the units a request should not have; `parser` has none.

To say which packet something was made from, the units carry where they come from. `Traced` is
`parser` with the origin of the header it holds, and an `Event` is what it emits with the origins of
the units it was made from; the parser itself does not see them.
-/

namespace FpgaOs.Rdm

open Feed

/-- A packet of at least two units: anything, with `last` on the final unit only. -/
structure RawPacket where
  eth : NetAxis
  app : NetAxis
  rest : List NetAxis
  marked : Marked (fun d : NetAxis ↦ d.last = 1) (eth :: app :: rest)

namespace RawPacket

variable (p : RawPacket)

def units : List NetAxis := p.eth :: p.app :: p.rest

/-- The number of data units that `parser` reads off the length. -/
def nrUnits : BitVec 64 := roundUp (roundUp p.app.length 64) 64 / 64

/-- The length says that data unit `j` is the final one; `offset` is an `int`. -/
def StopsAt (j : ℕ) : Prop := (BitVec.ofNat 32 j).signExtend 64 = p.nrUnits - 1

instance (j : ℕ) : Decidable (p.StopsAt j) := inferInstanceAs (Decidable (_ = _))

/-- `parser` leaves at most `n` units of the packet: a request other than a `WRITE` has no more than
`n` units after the headers, and the length of a `WRITE` does not stop it more than `n` units before
the end. -/
def Leaves (n : ℕ) : Prop :=
  if p.app.opcode = opcodeWrite then ∀ j, j + 1 + n < p.rest.length → ¬p.StopsAt j
  else p.rest.length ≤ n

/-- The packet has exactly the units that `parser` takes. -/
def Fits : Prop := p.Leaves 0 ∧ (p.app.opcode = opcodeWrite → p.rest ≠ [])

/-- The request is what the two headers say. -/
structure Makes (pi : PipelineInfo) : Prop where
  ethHeader : pi.ethHeader = p.eth
  appHeader : pi.appHeader = p.app
  opcode : pi.opcode = p.app.opcode
  va : pi.va = p.app.address
  length : pi.length = roundUp p.app.length 64
  nrUnits : pi.nrUnits = p.nrUnits

end RawPacket

/-- Every packet fits; after the last one a single unit may be left. -/
def AllFit : List RawPacket → Prop
  | [] => True
  | [p] => p.Leaves 1
  | p :: q :: ps => p.Fits ∧ AllFit (q :: ps)

/-! ## The parser with the origins of its units -/

/-- What `parser` emits, and which units it was made from. -/
inductive Event
  | info (pi : PipelineInfo) (eth app : Origin)
  | data (d : NetAxis) (unit : Origin)

/-- `parser`, and the origin of the unit in `pi.eth_header`. -/
structure Traced where
  parser : Parser
  eth : Origin

def Traced.read (t : Traced) (u : NetAxis × Origin) : Traced × List Event :=
  (⟨(t.parser.read u.1).1, if t.parser.state = .ethHeader then u.2 else t.eth⟩,
    ((t.parser.read u.1).2.1.map fun pi ↦ Event.info pi t.eth u.2).toList
      ++ ((t.parser.read u.1).2.2.map fun d ↦ Event.data d u.2).toList)

def Traced.init : Traced := ⟨⟨.ethHeader, {}, 0, 1⟩, ⟨0, 0⟩⟩

/-- `parser` on a stream of packets, under a schedule of arrivals and calls. -/
def parsed (ps : List RawPacket) (ts : List Turn) : Feed (NetAxis × Origin) Traced Event :=
  under Traced.read .init (tagAll 0 (ps.map RawPacket.units)) ts

/-- The events are those of the packets, where `n` requests have been emitted before: the next
request is made from the two headers of packet `n`, and a data unit is one of the packet of the
request before it, which is a `WRITE`. -/
def Framed (ps : List RawPacket) : ℕ → List Event → Prop
  | _, [] => True
  | n, .info pi eth app :: es =>
    (∃ p, ps[n]? = some p ∧ eth = ⟨n, 0⟩ ∧ app = ⟨n, 1⟩ ∧ p.Makes pi) ∧ Framed ps (n + 1) es
  | n, .data d unit :: es =>
    (∃ p j u, n = unit.packet + 1 ∧ unit.place = j + 2 ∧ ps[unit.packet]? = some p
      ∧ p.app.opcode = opcodeWrite ∧ p.rest[j]? = some u ∧ d = { u with last := d.last })
        ∧ Framed ps n es

/-! ## Events -/

section Events

variable {ps : List RawPacket}

/-- The number of requests among events. -/
def infoCount : List Event → ℕ
  | [] => 0
  | .info _ _ _ :: es => infoCount es + 1
  | .data _ _ :: es => infoCount es

theorem framed_append (n : ℕ) (es es' : List Event) :
    Framed ps n (es ++ es') ↔ Framed ps n es ∧ Framed ps (n + infoCount es) es' := by
  induction es generalizing n with
  | nil => exact ⟨fun h ↦ ⟨trivial, h⟩, fun h ↦ h.2⟩
  | cons ev es ih =>
    cases ev with
    | info pi eth app =>
      rw [List.cons_append, Framed, Framed, infoCount, ih, and_assoc, Nat.add_right_comm,
        Nat.add_assoc]
    | data d unit => rw [List.cons_append, Framed, Framed, infoCount, ih, and_assoc]

theorem not_framed_of_place {t : Traced} (hst : t.parser.state = .ethHeader)
    {u v : NetAxis × Origin} (hu : u.2.place ≠ 0) (us : List (NetAxis × Origin)) (n : ℕ) :
    ¬Framed ps n (emits Traced.read t (u :: v :: us)) := by
  have heth : t.read u
      = (⟨⟨.appHeader, { t.parser.pi with nrPacket := t.parser.nrRdmPacket, ethHeader := u.1 }, 0,
          t.parser.nrRdmPacket + 1⟩, u.2⟩, []) := by
    rw [Traced.read, Parser.read, hst]
    rfl
  rw [emits, heth, emits]
  rintro ⟨⟨p, -, horigin, -⟩, -⟩
  exact hu (congrArg Origin.place horigin)

theorem not_framed_of_packet {t : Traced} (hst : t.parser.state = .stream) {u : NetAxis × Origin}
    {n : ℕ} (hu : u.2.packet ≠ n) (us : List (NetAxis × Origin)) :
    ¬Framed ps (n + 1) (emits Traced.read t (u :: us)) := by
  have hdata : ∃ d, (t.read u).2 = [Event.data d u.2] := by
    rw [Traced.read, Parser.read, hst]
    dsimp only
    split
    · exact ⟨_, rfl⟩
    · split
      · exact ⟨_, rfl⟩
      · exact ⟨_, rfl⟩
  obtain ⟨d, hd⟩ := hdata
  rw [emits, hd]
  rintro ⟨⟨p, j, x, hn, -⟩, -⟩
  exact hu (Nat.succ.inj hn).symm

end Events

/-! ## One packet -/

section Packet

variable {ps : List RawPacket} {p : RawPacket} {k : ℕ} {t : Traced}

theorem read_stream (hst : t.parser.state = .stream) (hn : t.parser.pi.nrUnits = p.nrUnits) {j : ℕ}
    (hoff : t.parser.offset = BitVec.ofNat 32 j) (d : NetAxis) (o : Origin) :
    ∃ d', d' = { d with last := d'.last } ∧ (t.read (d, o)).2 = [Event.data d' o]
      ∧ if d.last = 1 ∨ p.StopsAt j then (t.read (d, o)).1.parser.state = .ethHeader
        else (t.read (d, o)).1.parser = { t.parser with offset := BitVec.ofNat 32 (j + 1) } := by
  rw [Traced.read, Parser.read, hst]
  dsimp only
  rw [hn, hoff]
  by_cases hlast : d.last = 1
  · rw [if_pos hlast, if_pos (.inl hlast)]
    exact ⟨d, rfl, rfl, rfl⟩
  rw [if_neg hlast]
  by_cases hstop : (BitVec.ofNat 32 j).signExtend 64 = p.nrUnits - 1
  · rw [if_pos hstop, if_pos (.inr hstop)]
    exact ⟨{ d with last := 1 }, rfl, rfl, rfl⟩
  · have hgo : ¬(d.last = 1 ∨ p.StopsAt j) := not_or.mpr ⟨hlast, hstop⟩
    rw [if_neg hstop, if_neg hgo, BitVec.ofNat_add]
    refine ⟨d, rfl, rfl, ?_⟩
    rw [hst]
    rfl

/-- `parser` takes some data units, all of the same packet, and goes back to its first state. What
it leaves can be seen from the length. -/
theorem stream_splits (hk : ps[k]? = some p) (hop : p.app.opcode = opcodeWrite)
    (hst : t.parser.state = .stream) (hn : t.parser.pi.nrUnits = p.nrUnits) {j : ℕ}
    (hoff : t.parser.offset = BitVec.ofNat 32 j) {ds : List NetAxis} (hds : p.rest.drop j = ds)
    (hm : Marked (fun d : NetAxis ↦ d.last = 1) ds) :
    ∃ a b, ds = a ++ b ∧ (after Traced.read t (tagFrom k (j + 2) a)).parser.state = .ethHeader
      ∧ Framed ps (k + 1) (emits Traced.read t (tagFrom k (j + 2) a))
      ∧ infoCount (emits Traced.read t (tagFrom k (j + 2) a)) = 0
      ∧ ∀ n, b.length ≤ n ↔ ∀ i, i + 1 + n < ds.length → ¬p.StopsAt (j + i) := by
  induction ds generalizing t j with
  | nil => exact hm.elim
  | cons d ds ih =>
    obtain ⟨d', hd', hout, hnext⟩ := read_stream hst hn hoff d ⟨k, j + 2⟩
    have hget : p.rest[j]? = some d := by
      rw [← Nat.add_zero j, ← List.getElem?_drop, hds]
      rfl
    have hframed (es : List Event) (hes : Framed ps (k + 1) es) :
        Framed ps (k + 1) ((t.read (d, ⟨k, j + 2⟩)).2 ++ es) := by
      rw [hout]
      exact ⟨⟨p, j, d, rfl, rfl, hk, hop, hget, hd'⟩, hes⟩
    have hcount (es : List Event) : infoCount ((t.read (d, ⟨k, j + 2⟩)).2 ++ es)
      = infoCount es := by
      rw [hout]
      rfl
    -- the packet ends by its mark, or `parser` stops at the length
    by_cases hend : d.last = 1 ∨ p.StopsAt j
    · rw [if_pos hend] at hnext
      refine ⟨[d], ds, rfl, hnext, hframed [] trivial, hcount [], fun n ↦ ?_⟩
      rw [List.length_cons]
      constructor
      · intro hle i hi
        omega
      · intro hno
        by_contra hlt
        obtain hlast | hstop := hend
        · rw [hm.eq_nil_of_last hlast] at hlt
          exact hlt (Nat.zero_le n)
        · exact hno 0 (by omega) hstop
    · rw [if_neg hend] at hnext
      obtain ⟨hlast, hstop⟩ := not_or.mp hend
      have hm' : Marked (fun d : NetAxis ↦ d.last = 1) ds := hm.of_not_last hlast
      have hds' : p.rest.drop (j + 1) = ds := by
        rw [← List.drop_drop, hds]
        rfl
      obtain ⟨a, b, hab, hafter, hfr, hct, hlen⟩ :=
        @ih (t.read (d, ⟨k, j + 2⟩)).1 (by rw [hnext]; exact hst)
        (by rw [hnext]; exact hn) (j + 1) (by rw [hnext]) hds' hm'
      refine ⟨d :: a, b, by rw [hab]; rfl, hafter, hframed _ hfr, (hcount _).trans hct, fun n ↦ ?_⟩
      rw [hlen, List.length_cons]
      constructor
      · intro hno i hi
        cases i with
        | zero => exact hstop
        | succ i =>
          rw [Nat.add_comm i, ← Nat.add_assoc]
          exact hno i (by omega)
      · intro hno i hi
        rw [Nat.add_assoc, Nat.add_comm 1]
        exact hno (i + 1) (by omega)

/-- What `parser` takes of a packet, and what it leaves. -/
structure Splits (ps : List RawPacket) (p : RawPacket) (k : ℕ) (t : Traced) (a b : List NetAxis) :
    Prop where
  rest_eq : p.rest = a ++ b
  state : (after Traced.read t (tagFrom k 0 (p.eth :: p.app :: a))).parser.state
    = if p.app.opcode = opcodeWrite ∧ p.rest = [] then .stream else .ethHeader
  framed : Framed ps k (emits Traced.read t (tagFrom k 0 (p.eth :: p.app :: a)))
  count : infoCount (emits Traced.read t (tagFrom k 0 (p.eth :: p.app :: a))) = 1
  leaves : ∀ n, b.length ≤ n ↔ p.Leaves n

theorem packet_splits (hk : ps[k]? = some p) (hst : t.parser.state = .ethHeader) :
    ∃ a b, Splits ps p k t a b := by
  obtain ⟨t', hread, hst', hn, hoff⟩ : ∃ t' : Traced, (∃ pi, p.Makes pi
      ∧ (∀ us, emits Traced.read t (tagFrom k 0 (p.eth :: p.app :: us))
        = Event.info pi ⟨k, 0⟩ ⟨k, 1⟩ :: emits Traced.read t' (tagFrom k 2 us))
      ∧ ∀ us, after Traced.read t (tagFrom k 0 (p.eth :: p.app :: us))
        = after Traced.read t' (tagFrom k 2 us))
      ∧ t'.parser.state = (if p.app.opcode = opcodeWrite then .stream else .ethHeader)
      ∧ t'.parser.pi.nrUnits = p.nrUnits ∧ t'.parser.offset = BitVec.ofNat 32 0 := by
    have heth : t.read (p.eth, ⟨k, 0⟩)
        = (⟨⟨.appHeader, { t.parser.pi with nrPacket := t.parser.nrRdmPacket, ethHeader := p.eth },
          0,
            t.parser.nrRdmPacket + 1⟩, ⟨k, 0⟩⟩, []) := by
      rw [Traced.read, Parser.read, hst]
      rfl
    refine ⟨((t.read (p.eth, ⟨k, 0⟩)).1.read (p.app, ⟨k, 1⟩)).1, ?_⟩
    rw [heth]
    refine ⟨⟨({ t.parser.pi with nrPacket := t.parser.nrRdmPacket, ethHeader := p.eth } :
      PipelineInfo).parse p.app,
      ⟨rfl, rfl, rfl, rfl, rfl, rfl⟩, fun us ↦ ?_, fun us ↦ ?_⟩, rfl, rfl, rfl⟩
    · rw [tagFrom, tagFrom, emits, heth, emits]
      rfl
    · rw [tagFrom, tagFrom, after, heth, after]
  obtain ⟨pi, hmakes, hemits, hafter⟩ := hread
  have hframed (us : List NetAxis) (h : Framed ps (k + 1) (emits Traced.read t' (tagFrom k 2 us))) :
      Framed ps k (emits Traced.read t (tagFrom k 0 (p.eth :: p.app :: us))) := by
    rw [hemits]
    exact ⟨⟨p, hk, rfl, rfl, hmakes⟩, h⟩
  by_cases hop : p.app.opcode = opcodeWrite
  · rw [if_pos hop] at hst'
    by_cases hrest : p.rest = []
    · refine ⟨[], [], hrest, ?_, hframed [] trivial, ?_, fun n ↦ ?_⟩
      · rw [hafter, if_pos ⟨hop, hrest⟩]
        exact hst'
      · rw [hemits]
        rfl
      · rw [RawPacket.Leaves, if_pos hop, hrest]
        exact iff_of_true (Nat.zero_le n) fun j hj ↦ absurd hj (Nat.not_lt_zero _)
    · have hm : Marked (fun d : NetAxis ↦ d.last = 1) p.rest := by
        obtain ⟨u, us, hus⟩ := List.exists_cons_of_ne_nil hrest
        have hmarked := p.marked
        rw [hus] at hmarked ⊢
        exact hmarked.2.2
      obtain ⟨a, b, hab, hstate, hfr, hct, hlen⟩ :=
        stream_splits hk hop hst' hn hoff (List.drop_zero) hm
      refine ⟨a, b, hab, ?_, hframed a hfr, ?_, fun n ↦ ?_⟩
      · rw [hafter, if_neg fun h ↦ hrest h.2]
        exact hstate
      · rw [hemits]
        exact congrArg (· + 1) hct
      · rw [hlen, RawPacket.Leaves, if_pos hop]
        exact forall_congr' fun i ↦ by rw [Nat.zero_add]
  · rw [if_neg hop] at hst'
    refine ⟨[], p.rest, rfl, ?_, hframed [] trivial, ?_, fun n ↦ ?_⟩
    · rw [hafter, if_neg fun h ↦ hop h.1]
      exact hst'
    · rw [hemits]
      rfl
    · rw [RawPacket.Leaves, if_neg hop]

end Packet

/-! ## Streams of packets -/

section Stream

variable {ps : List RawPacket}

theorem framed_nil (n : ℕ) : Framed ps n [] := trivial

/-- The units of a packet that `parser` takes are framed, so the rest of the stream decides. -/
theorem Splits.framed_iff {p : RawPacket} {k : ℕ} {t : Traced} {a b : List NetAxis}
    (h : Splits ps p k t a b) (us : List (NetAxis × Origin)) :
    Framed ps k (emits Traced.read t (tagFrom k 0 p.units ++ us))
      ↔ Framed ps (k + 1)
        (emits Traced.read (after Traced.read t (tagFrom k 0 (p.eth :: p.app :: a)))
        (tagFrom k (a.length + 2) b ++ us)) := by
  have hunits : p.units = (p.eth :: p.app :: a) ++ b := by
    rw [RawPacket.units, h.rest_eq]
    rfl
  rw [hunits, tagFrom_append, List.append_assoc, emits_append, framed_append, h.count, Nat.zero_add]
  exact and_iff_right h.framed

/-- Units are left, and more units follow. -/
theorem not_framed_of_left {t : Traced} (hst : t.parser.state = .ethHeader) {k j n : ℕ}
    {b : List NetAxis} (hb : b ≠ []) {us : List (NetAxis × Origin)}
    (hlen : 2 ≤ b.length + us.length) :
    ¬Framed ps n (emits Traced.read t (tagFrom k (j + 2) b ++ us)) := by
  obtain ⟨x, b, rfl⟩ := List.exists_cons_of_ne_nil hb
  rw [tagFrom, List.cons_append]
  cases hmore : tagFrom k (j + 2 + 1) b ++ us with
  | nil =>
    obtain ⟨htag, rfl⟩ := List.append_eq_nil_iff.mp hmore
    have hnil := map_fst_tagFrom k (j + 2 + 1) b
    rw [htag] at hnil
    rw [← hnil, List.map_nil, List.length_singleton, List.length_nil] at hlen
    exact absurd hlen (by decide)
  | cons v us' => exact not_framed_of_place hst (Nat.succ_ne_zero _) us' n

/-- **From a packet on, the output is framed exactly when the packets fit.** -/
theorem framed_iff_allFit {t : Traced} (hst : t.parser.state = .ethHeader) {k : ℕ}
    {qs : List RawPacket} (hqs : ps.drop k = qs) :
    Framed ps k (emits Traced.read t (tagAll k (qs.map RawPacket.units))) ↔ AllFit qs := by
  induction qs generalizing t k with
  | nil => exact Iff.rfl
  | cons p qs ih =>
    have hk : ps[k]? = some p := by
      rw [← Nat.add_zero k, ← List.getElem?_drop, hqs]
      rfl
    have hqs' : ps.drop (k + 1) = qs := by
      rw [← List.drop_drop, hqs]
      rfl
    obtain ⟨a, b, hsplit⟩ := packet_splits hk hst
    have hstate := hsplit.state
    rw [List.map_cons, tagAll, hsplit.framed_iff]
    -- a unit is left only if the packet has units after its headers, and then `parser` expects a
    -- header
    have hleft (hb : b ≠ []) :
      (after Traced.read t (tagFrom k 0 (p.eth :: p.app :: a))).parser.state = .ethHeader := by
      rw [hstate, if_neg]
      rintro ⟨-, hrest⟩
      exact hb (List.append_eq_nil_iff.mp (hsplit.rest_eq.symm.trans hrest)).2
    cases qs with
    | nil =>
      rw [List.map_nil, tagAll, AllFit, ← hsplit.leaves 1]
      constructor
      · intro hframed
        by_contra hlt
        have hb : b ≠ [] := by
          rintro rfl
          exact hlt (Nat.zero_le 1)
        exact not_framed_of_left (hleft hb) hb (by rw [List.length_nil]; omega) hframed
      · intro hle
        rcases b with - | ⟨x, b⟩
        · exact framed_nil _
        · obtain rfl : b = [] :=
            List.eq_nil_of_length_eq_zero (Nat.le_zero.mp (Nat.le_of_succ_le_succ hle))
          have hst' := hleft (List.cons_ne_nil x [])
          generalize after Traced.read t (tagFrom k 0 (p.eth :: p.app :: a)) = t' at hst' ⊢
          rw [tagFrom, tagFrom, List.cons_append, List.nil_append, emits, emits_nil, Traced.read,
            Parser.read, hst']
          exact framed_nil _
    | cons q qs =>
      rw [AllFit]
      by_cases hb : b = []
      · have hleaves : p.Leaves 0 := (hsplit.leaves 0).mp (by rw [hb]; exact Nat.le_refl 0)
        rw [hb, tagFrom, List.nil_append]
        by_cases hshort : p.app.opcode = opcodeWrite ∧ p.rest = []
        · rw [if_pos hshort] at hstate
          generalize after Traced.read t (tagFrom k 0 (p.eth :: p.app :: a)) = t' at hstate ⊢
          rw [List.map_cons, tagAll, RawPacket.units, tagFrom, List.cons_append]
          exact iff_of_false (not_framed_of_packet hstate (Nat.succ_ne_self k) _)
            fun h ↦ h.1.2 hshort.1 hshort.2
        · rw [if_neg hshort] at hstate
          rw [ih hstate hqs']
          exact (and_iff_right ⟨hleaves, fun hop hrest ↦ hshort ⟨hop, hrest⟩⟩).symm
      · have hpos := List.length_pos_of_ne_nil hb
        refine iff_of_false (not_framed_of_left (hleft hb) hb ?_) fun h ↦ ?_
        · rw [List.map_cons, tagAll, RawPacket.units, tagFrom, List.cons_append, List.length_cons]
          omega
        · have hle := (hsplit.leaves 0).mpr h.1.1
          omega

/-- **Framing.** Whatever the schedule, `parser` makes its requests and data units from the right
packets exactly when every packet has as many units as it takes. -/
theorem framing_iff (ps : List RawPacket) : (∀ ts, Framed ps 0 (parsed ps ts).out) ↔ AllFit ps := by
  have hpre (es es' : List Event) (h : Framed ps 0 (es ++ es')) : Framed ps 0 es :=
    ((framed_append 0 es es').mp h).1
  exact (forall_under_iff hpre _ _).trans (framed_iff_allFit rfl rfl)

/-- A `READ` with a unit after its headers. -/
def longRead : RawPacket := ⟨{}, {}, [{ last := 1 }], by decide⟩

def shortRead : RawPacket := ⟨{}, { last := 1 }, [], by decide⟩

/-- After a `READ` with one unit too many, the next request is made from this unit and the first
header of the next packet. -/
theorem not_framed_longRead :
    ¬Framed [longRead, shortRead] 0
      (parsed [longRead, shortRead]
        (inTurn (tagAll 0 ([longRead, shortRead].map RawPacket.units)))).out := by
  intro hframed
  rw [parsed, under_all] at hframed
  have hfit : AllFit [longRead, shortRead] := (framed_iff_allFit rfl List.drop_zero).mp hframed
  have hop : longRead.app.opcode ≠ opcodeWrite := by decide +kernel
  rw [AllFit, RawPacket.Fits, RawPacket.Leaves, if_neg hop] at hfit
  have hleaves := hfit.1.1
  exact absurd hleaves (Nat.not_succ_le_zero 0)

end Stream

end FpgaOs.Rdm
