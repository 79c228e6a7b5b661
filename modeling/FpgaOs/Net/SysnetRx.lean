import FpgaOs.Lib.BitField
import FpgaOs.Lib.Feed
import FpgaOs.Lib.Frame
import FpgaOs.Rdm.Format

/-!
# The receive demultiplexer

`sysnet_rx_512` sends each packet to the port that the app id in its first unit selects. It takes a
packet to be larger than a unit: after the first unit it expects another one of the same packet,
whether or not `last` was set. So a packet of a single unit takes the next packet along to its own
port, whatever that packet selects, and the one after that is looked at again.

The output on a port is whole packets in any case. It is the packets that select the port exactly
when each packet taken along selects the port it goes to.
-/

namespace FpgaOs.Net

open BitField Feed Rdm

/-- The two output streams. -/
inductive Port
  | output0
  | output1
  deriving DecidableEq

/-- `enum SYSNET_RX_STATE`. -/
inductive RxState
  | idle
  | stream
  deriving DecidableEq

/-- The static variables of `sysnet_rx_512`. -/
structure SysnetRx where
  state : RxState
  appId : BitVec 8

/-- Where `RX_DISPATCH` writes. -/
def rxDispatch (appId : BitVec 8) : Port :=
  if appId = 0 then .output0 else if appId = 1 then .output1 else .output0

/-- The bits from `LEGO_HEADER_APP_ID_BITS_START` to `LEGO_HEADER_APP_ID_BITS_END`. -/
def getAppId (d : NetAxis) : BitVec 8 := slice d.data 336 8

/-- `sysnet_rx_512` reads a unit. -/
def SysnetRx.read (s : SysnetRx) (current : NetAxis) : SysnetRx × List (Port × NetAxis) :=
  match s.state with
  | .idle => (⟨.stream, getAppId current⟩, [(rxDispatch (getAppId current), current)])
  | .stream =>
    (if current.last = 1 then ⟨.idle, 0⟩ else s, [(rxDispatch s.appId, current)])

/-- A packet of one or more units. -/
abbrev Packet := Frame fun d : NetAxis ↦ d.last = 1

/-- The port that the packet selects. -/
def Packet.port (p : Packet) : Port := rxDispatch (getAppId p.first)

/-- What has been written to a port. -/
def on (port : Port) (out : List (Port × NetAxis)) : List NetAxis :=
  (out.filter (·.1 = port)).map Prod.snd

/-- What a port is to get: the packets that select it. -/
def expectedOn (port : Port) (ps : List Packet) : List NetAxis :=
  (ps.filter (·.port = port)).flatMap Frame.units

/-- `sysnet_rx_512` on a stream of packets, under a schedule of arrivals and calls. -/
def received (ps : List Packet) (ts : List Turn) : Feed NetAxis SysnetRx (Port × NetAxis) :=
  under SysnetRx.read ⟨.idle, 0⟩ (ps.flatMap Frame.units) ts

/-- Each port gets the packets that select it: in order as far as they have been read, and all of
them when everything has been read. -/
structure Demultiplexed (ps : List Packet) (f : Feed NetAxis SysnetRx (Port × NetAxis)) : Prop where
  prefixes : ∀ port, on port f.out <+: expectedOn port ps
  complete : f.queue = [] → f.input = [] → ∀ port, on port f.out = expectedOn port ps

/-- Each packet that is taken along by one of a single unit selects the same port. -/
def Routed : List Packet → Prop
  | [] => True
  | [_] => True
  | p :: q :: ps => if p.rest = [] then q.port = p.port ∧ Routed ps else Routed (q :: ps)

theorem routed_of_rest_ne_nil {ps : List Packet} (h : ∀ p ∈ ps, p.rest ≠ []) : Routed ps := by
  induction ps with
  | nil => trivial
  | cons p ps ih =>
    obtain ⟨hp, hps⟩ := List.forall_mem_cons.mp h
    cases ps with
    | nil => trivial
    | cons q ps =>
      rw [Routed, if_neg hp]
      exact ih hps

/-! ## The output -/

section Output

theorem on_append (port : Port) (out out' : List (Port × NetAxis)) :
    on port (out ++ out') = on port out ++ on port out' := by
  rw [on, List.filter_append, List.map_append]
  rfl

theorem on_map (port port' : Port) (us : List NetAxis) :
    on port (us.map (Prod.mk port')) = if port' = port then us else [] := by
  induction us with
  | nil => exact (ite_self []).symm
  | cons u us ih =>
    rw [on, List.map_cons, List.filter_cons]
    rw [on] at ih
    by_cases hport : port' = port
    · rw [if_pos hport] at ih ⊢
      rw [if_pos (decide_eq_true hport), List.map_cons, ih]
    · rw [if_neg hport] at ih ⊢
      rw [if_neg (by simpa using hport), ih]

theorem expectedOn_cons (port : Port) (p : Packet) (ps : List Packet) :
    expectedOn port (p :: ps) = (if p.port = port then p.units else []) ++ expectedOn port ps := by
  rw [expectedOn, List.filter_cons]
  by_cases hport : p.port = port
  · rw [if_pos hport, if_pos (decide_eq_true hport)]
    rfl
  · rw [if_neg hport, if_neg (by simpa using hport)]
    rfl

theorem read_stream {s : SysnetRx} (hst : s.state = .stream) {us : List NetAxis}
    (hm : Marked (fun d : NetAxis ↦ d.last = 1) us) :
    after SysnetRx.read s us = ⟨.idle, 0⟩
      ∧ emits SysnetRx.read s us = us.map (Prod.mk (rxDispatch s.appId)) := by
  induction us with
  | nil => exact hm.elim
  | cons u us ih =>
    have hread : s.read u = (if u.last = 1 then ⟨.idle, 0⟩ else s, [(rxDispatch s.appId, u)]) := by
      rw [SysnetRx.read, hst]
    rw [after, emits, hread]
    obtain ⟨rfl, hlast⟩ | ⟨hlast, hm'⟩ := marked_cons.mp hm
    · rw [if_pos hlast]
      exact ⟨rfl, rfl⟩
    · obtain ⟨hafter, hout⟩ := ih hm'
      rw [if_neg hlast, hafter, hout]
      exact ⟨rfl, rfl⟩

theorem read_packet {p : Packet} (hrest : p.rest ≠ []) (id : BitVec 8) :
    after SysnetRx.read ⟨.idle, id⟩ p.units = ⟨.idle, 0⟩
      ∧ emits SysnetRx.read ⟨.idle, id⟩ p.units = p.units.map (Prod.mk p.port) := by
  have hm : Marked (fun d : NetAxis ↦ d.last = 1) p.rest :=
    p.rest_eq_nil_or_marked.elim (fun h ↦ absurd h.1 hrest) And.right
  obtain ⟨hafter, hout⟩ := @read_stream ⟨.stream, getAppId p.first⟩ rfl _ hm
  rw [Frame.units, after, emits]
  exact ⟨hafter, congrArg _ hout⟩

theorem read_pair {p : Packet} (hrest : p.rest = []) (q : Packet) (id : BitVec 8) :
    after SysnetRx.read ⟨.idle, id⟩ (p.units ++ q.units) = ⟨.idle, 0⟩
      ∧ emits SysnetRx.read ⟨.idle, id⟩ (p.units ++ q.units)
        = p.units.map (Prod.mk p.port) ++ q.units.map (Prod.mk p.port) := by
  obtain ⟨hafter, hout⟩ := @read_stream ⟨.stream, getAppId p.first⟩ rfl _ q.marked
  have hunits : p.units = [p.first] := congrArg (p.first :: ·) hrest
  rw [hunits, List.singleton_append, after, emits]
  exact ⟨hafter, congrArg _ hout⟩

/-- **Each port gets its packets exactly when those taken along select the right port.** -/
theorem on_emits_iff (ps : List Packet) (id : BitVec 8) :
    (∀ port, on port (emits SysnetRx.read ⟨.idle, id⟩ (ps.flatMap Frame.units))
      = expectedOn port ps)
      ↔ Routed ps := by
  induction ps using Routed.induct generalizing id with
  | case1 => exact iff_of_true (fun _ ↦ rfl) trivial
  | case2 p =>
    refine iff_of_true (fun port ↦ ?_) trivial
    rw [expectedOn_cons, List.flatMap_singleton]
    by_cases hrest : p.rest = []
    · have hunits : p.units = [p.first] := congrArg (p.first :: ·) hrest
      have hout : emits SysnetRx.read ⟨.idle, id⟩ p.units = p.units.map (Prod.mk p.port) := by
        rw [hunits]
        rfl
      rw [hout, on_map]
      exact (List.append_nil _).symm
    · rw [(read_packet hrest id).2, on_map]
      exact (List.append_nil _).symm
  | case3 p q ps hrest ih =>
    obtain ⟨hafter, hout⟩ := read_pair hrest q id
    rw [Routed, if_pos hrest, ← ih 0, List.flatMap_cons, List.flatMap_cons, ← List.append_assoc,
      emits_append, hafter, hout]
    simp only [on_append, on_map, expectedOn_cons]
    constructor
    · intro h
      have hport : q.port = p.port := by
        by_contra hne
        -- the first unit of `q` would be that of a later packet for the port of `p`
        have hall := h p.port
        rw [if_pos rfl, if_pos rfl, if_neg hne, List.nil_append, List.append_assoc] at hall
        have htail := List.append_cancel_left hall
        rw [expectedOn, Frame.units, List.cons_append] at htail
        cases hsel : ps.filter (·.port = p.port) with
        | nil =>
          rw [hsel] at htail
          exact absurd htail (List.cons_ne_nil _ _)
        | cons r rs =>
          rw [hsel, List.flatMap_cons, Frame.units, List.cons_append] at htail
          have hr := (List.mem_filter.mp
            (hsel ▸ List.mem_cons_self : r ∈ ps.filter (·.port = p.port))).2
          have hfirst : q.first = r.first := (List.cons.inj htail).1
          apply hne
          rw [Packet.port, hfirst]
          exact of_decide_eq_true hr
      refine ⟨hport, fun port ↦ ?_⟩
      have hall := h port
      rw [hport, ← List.append_assoc] at hall
      exact List.append_cancel_left hall
    · rintro ⟨hport, h⟩ port
      rw [h port, hport, List.append_assoc]
  | case4 p q ps hrest ih =>
    obtain ⟨hafter, hout⟩ := read_packet hrest id
    rw [Routed, if_neg hrest, ← ih 0, List.flatMap_cons, emits_append, hafter, hout]
    apply forall_congr'
    intro port
    rw [on_append, on_map, expectedOn_cons port p]
    exact List.append_right_inj _

theorem on_prefix (port : Port) {out out' : List (Port × NetAxis)} (h : out <+: out') :
    on port out <+: on port out' :=
  (h.filter _).map _

/-- **Receive demultiplexing.** Whatever the schedule, each port gets exactly the packets that
select it, if and only if each packet that follows one of a single unit, itself not taken along,
selects the same port. -/
theorem demultiplexed_iff (ps : List Packet) :
    (∀ ts, Demultiplexed ps (received ps ts)) ↔ Routed ps := by
  rw [← on_emits_iff ps 0]
  constructor
  · intro h port
    have hcomplete := (h (inTurn (ps.flatMap Frame.units))).complete
    rw [received, under_all] at hcomplete
    exact hcomplete rfl rfl port
  · intro h ts
    obtain ⟨us, hus⟩ := @exists_hasRead _ _ _ SysnetRx.read ⟨.idle, 0⟩ (ps.flatMap Frame.units) ts
    constructor
    · intro port
      rw [← h port, ← hus.split, emits_append, received, hus.out_eq]
      exact on_prefix port (List.prefix_append _ _)
    · intro hqueue hinput port
      have hall := hus.split
      rw [received] at hqueue hinput
      rw [hqueue, hinput, List.append_nil, List.append_nil] at hall
      rw [← h port, ← hall, received, hus.out_eq]

/-- A packet of a single unit for `output_0`. -/
def single0 : Packet := ⟨{ last := 1 }, [], by decide⟩

/-- A packet of a single unit for `output_1`. -/
def single1 : Packet := ⟨{ data := 1 <<< 336, last := 1 }, [], by decide⟩

/-- A packet of a single unit for `output_0` takes a packet for `output_1` along. -/
theorem not_demultiplexed_single :
    ¬Demultiplexed [single0, single1]
      (received [single0, single1] (inTurn (single0.units ++ single1.units))) := by
  intro h
  have hread : (received [single0, single1] (inTurn (single0.units ++ single1.units))).queue = []
      ∧ (received [single0, single1] (inTurn (single0.units ++ single1.units))).input = []
      ∧ on .output1 (received [single0, single1] (inTurn (single0.units ++ single1.units))).out = []
      ∧ expectedOn .output1 [single0, single1] ≠ [] := by decide +kernel
  obtain ⟨hqueue, hinput, hout, hexpected⟩ := hread
  exact hexpected ((h.complete hqueue hinput .output1).symm.trans hout)

end Output

end FpgaOs.Net
