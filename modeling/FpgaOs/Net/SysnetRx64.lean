import FpgaOs.Lib.Frame
import FpgaOs.Lib.Process
import FpgaOs.Net.SysnetTx64

/-!
# The receive parser for units of 64 bits

`sysnet_rx_64` takes the headers of a packet apart and passes everything on, whatever the app id.
In the states of the headers it means to write the unit before the one it reads, and from the Lego
header on the unit that it reads, with one more unit at the end. But the variables that hold the
two units are not static, so the unit before has been lost when a call writes it, and the unit that
is written at the end has been read by no one.

Nor would the numbers come out right: the unit that completes the UDP header is read when the one
before it is to be written, and the next call writes the next unit. So all units from there on are
written one place too early.
-/

namespace FpgaOs.Net

open Machine Process

/-! ## The code -/

/-- `enum parser_state`. -/
inductive ParserState
  | eth0
  | eth1
  | ip0
  | ip1
  | udp
  | lego
  | smStream
  | smResidue
  deriving DecidableEq

/-- The variables `current` and `prev` at the beginning of a call. -/
structure RxLocals where
  current : NetAxis64 := {}
  prev : NetAxis64 := {}
  deriving Inhabited

/-- `sysnet_rx_64` reads a unit in a state; the result is the next state and what is written to
`output0`. -/
def ParserState.read (state : ParserState) (current : NetAxis64) (locals : RxLocals) :
    ParserState × List NetAxis64 :=
  match state with
  | .eth0 => (.eth1, [])
  | .eth1 => (.ip0, [locals.prev])
  | .ip0 => (.ip1, [locals.prev])
  | .ip1 => (.udp, [locals.prev])
  | .udp => (.lego, [locals.prev])
  | .lego => (if current.last = 1 then .eth0 else .smStream, [current])
  | .smStream => (if current.last = 1 then .smResidue else .smStream, [current])
  | .smResidue => (.smResidue, [])

/-- `sysnet_rx_64`. Only PARSER_SM_RESIDUE does not read. -/
def sysnetRx64 : Process Unit (fun _ ↦ NetAxis64) ParserState NetAxis64 RxLocals where
  wants state := if state = .smResidue then none else some ()
  work _ locals := (.eth0, [locals.current])
  read _ state current locals := state.read current locals

/-- A packet of six or more units. -/
structure RxPacket64 extends Frame fun d : NetAxis64 ↦ d.last = 1 where
  six_le : 6 ≤ (first :: rest).length

/-- The units of a sequence of packets. -/
def streamOf64 (ps : List RxPacket64) : List NetAxis64 := ps.flatMap fun p ↦ p.units

/-- `sysnet_rx_64` on packets, under a schedule of arrivals and calls. -/
def received64 (ps : List RxPacket64) (ts : List (Turn Unit RxLocals)) :
    Fed (fun _ : Unit ↦ NetAxis64) ParserState NetAxis64 :=
  run sysnetRx64.step (start .eth0 fun _ ↦ streamOf64 ps) ts

/-! ## The first packet -/

/-- The state in which the parser reads the unit number `k` of a packet. -/
def stateAt : ℕ → ParserState
  | 0 => .eth0
  | 1 => .eth1
  | 2 => .ip0
  | 3 => .ip1
  | 4 => .udp
  | 5 => .lego
  | _ => .smStream

/-- The parser is within the first packet, with one unit less written than read; or it has written
the final unit of that packet in the place of the one before. -/
inductive FirstPacket (units : List NetAxis64) (v : View (fun _ : Unit ↦ NetAxis64) ParserState
    NetAxis64) : Prop
  | within (read rest others : List NetAxis64) (state : v.st = stateAt read.length)
    (split : units = read ++ rest) (marked : Marked (fun d : NetAxis64 ↦ d.last = 1) rest)
    (unread : v.unread () = rest ++ others) (unmarked : ∀ d ∈ read, d.last ≠ 1)
    (length : v.out.length = read.length - 1)
  | displaced (read : List NetAxis64) (d final : NetAxis64) (before after : List NetAxis64)
    (split : units = read ++ [d, final]) (unmarked : d.last ≠ 1) (marked : final.last = 1)
    (out : v.out = before ++ final :: after) (length : before.length = read.length)

section First

variable {units : List NetAxis64} {v : View (fun _ : Unit ↦ NetAxis64) ParserState NetAxis64}

theorem stateAt_ne_smResidue (k : ℕ) : stateAt k ≠ .smResidue := by
  rw [stateAt.eq_def]
  split <;> decide

theorem wants_stateAt (k : ℕ) : sysnetRx64.wants (stateAt k) = some () :=
  if_neg (stateAt_ne_smResidue k)

/-- Before the sixth unit the parser goes from header to header and writes a unit in all of these
states but the first. -/
theorem read_stateAt_of_lt {k : ℕ} (hk : k < 5) (current : NetAxis64) (locals : RxLocals) :
    ((stateAt k).read current locals).1 = stateAt (k + 1)
      ∧ ((stateAt k).read current locals).2.length = k + 1 - 1 - (k - 1) := by
  match k with
  | 0 | 1 | 2 | 3 | 4 => exact ⟨rfl, rfl⟩

/-- From the sixth unit on the parser writes the unit that it reads. -/
theorem read_stateAt_of_le {k : ℕ} (hk : 5 ≤ k) (current : NetAxis64) (locals : RxLocals) :
    (current.last ≠ 1 → ((stateAt k).read current locals).1 = stateAt (k + 1))
      ∧ ((stateAt k).read current locals).2 = [current] := by
  match k with
  | 5 => exact ⟨fun h ↦ if_neg h, rfl⟩
  | k + 6 => exact ⟨fun h ↦ if_neg h, rfl⟩

/-- The step of the invariant; this is where the packet has to have six units. -/
theorem FirstPacket.next (hsix : 6 ≤ units.length) (h : FirstPacket units v)
    (locals : RxLocals) :
    FirstPacket units (sysnetRx64.next v locals) := by
  cases h with
  | within read rest others state split marked unread unmarked length =>
    obtain ⟨u, us, rfl⟩ := List.exists_cons_of_ne_nil marked.ne_nil
    have hwants : sysnetRx64.wants v.st = some () := by rw [state, wants_stateAt]
    have hunread : Function.update v.unread () (us ++ others) () = us ++ others :=
      Function.update_self ..
    rw [next_of_cons hwants unread]
    obtain ⟨rfl, hlast⟩ | ⟨hlast, hm⟩ := marked_cons.mp marked
    · -- the final unit goes to the place of the one before
      have hlen : read.length + 1 = units.length := by
        rw [split, List.length_append, List.length_singleton]
      have hout : (v.st.read u locals).2 = [u] := by
        rw [state]
        exact (read_stateAt_of_le (by omega) u locals).2
      obtain rfl | ⟨before, d, rfl⟩ := List.eq_nil_or_concat' read
      · rw [List.length_nil] at hlen
        omega
      · refine .displaced before d u v.out [] ?_ ?_ hlast ?_ ?_
        · rw [split, List.append_assoc]
          rfl
        · exact unmarked d (List.mem_append_right _ (List.mem_singleton_self d))
        · exact congrArg (v.out ++ ·) hout
        · rw [length, List.length_append, List.length_singleton, Nat.add_sub_cancel]
    · have hnext : ((stateAt read.length).read u locals).1 = stateAt (read.length + 1)
          ∧ ((stateAt read.length).read u locals).2.length
            = read.length + 1 - 1 - (read.length - 1) := by
        rcases Nat.lt_or_ge read.length 5 with hlt | hge
        · exact read_stateAt_of_lt hlt u locals
        · obtain ⟨hst, hout⟩ := read_stateAt_of_le hge u locals
          rw [hout]
          exact ⟨hst hlast, by rw [List.length_singleton]; omega⟩
      refine .within (read ++ [u]) us others ?_ ?_ hm hunread ?_ ?_
      · rw [List.length_append, List.length_singleton, ← hnext.1, ← state]
        rfl
      · rw [split, List.append_assoc]
        rfl
      · exact List.forall_mem_append.mpr ⟨unmarked, List.forall_mem_singleton.mpr hlast⟩
      · rw [List.length_append, List.length_append, List.length_singleton, length, state]
        exact (congrArg _ hnext.2).trans (by omega)
  | displaced read d final before after split unmarked marked out length =>
    obtain ⟨more, hmore⟩ := exists_out_next sysnetRx64 v locals
    refine .displaced read d final before (after ++ more) split unmarked marked ?_ length
    rw [hmore, out, List.append_assoc]
    rfl

/-- When the parser has nothing more to do, the output is not the input. -/
theorem FirstPacket.out_ne (h : FirstPacket units v) (hfin : sysnetRx64.Finished v)
    (others : List NetAxis64) : v.out ≠ units ++ others := by
  cases h with
  | within read rest others state split marked unread unmarked length =>
    obtain ⟨i, -, hunread⟩ := hfin
    rw [show i = () from rfl, unread, List.append_eq_nil_iff] at hunread
    exact absurd hunread.1 marked.ne_nil
  | displaced read d final before after split unmarked marked out length =>
    intro heq
    rw [out, split, List.append_assoc] at heq
    obtain ⟨-, htail⟩ := List.append_inj heq length
    obtain ⟨rfl, -⟩ := List.cons.inj htail
    exact unmarked marked

end First

/-! ## The run -/

section Run

/-- A bound of the calls to come: one for each unit, and one for each final unit at most. -/
def callsLeft (v : View (fun _ : Unit ↦ NetAxis64) ParserState NetAxis64) : ℕ :=
  2 * (v.unread ()).length + if v.st = .smResidue then 1 else 0

theorem callsLeft_next {v : View (fun _ : Unit ↦ NetAxis64) ParserState NetAxis64}
    (hfin : ¬sysnetRx64.Finished v) (locals : RxLocals) :
    callsLeft (sysnetRx64.next v locals) < callsLeft v := by
  obtain ⟨hw, hnext⟩ | ⟨i, u, us, -, hunread, hnext⟩ := next_cases hfin locals
  · have hst : v.st = .smResidue := by
      by_contra hne
      have hwants : sysnetRx64.wants v.st = some () := if_neg hne
      rw [hw] at hwants
      contradiction
    rw [hnext, callsLeft, callsLeft, hst]
    exact Nat.lt_succ_self _
  · have hunread' : (v.unread ()).length = us.length + 1 := by
      rw [show () = i from rfl, hunread, List.length_cons]
    have hrest : Function.update v.unread i us () = us := Function.update_self ..
    rw [hnext, callsLeft, callsLeft, hunread']
    dsimp only
    rw [hrest]
    split <;> split <;> omega

/-- Some schedule lets everything arrive and the parser end. -/
theorem exists_finished (ps : List RxPacket64) :
    ∃ ts, sysnetRx64.Finished (received64 ps ts).view := by
  obtain ⟨ts, hts⟩ := exists_arrived sysnetRx64 (start .eth0 fun _ ↦ streamOf64 ps) [()]
  have harrived : ∀ i, (received64 ps ts).input i = [] := fun _ ↦ hts () (List.mem_singleton_self _)
  refine ⟨ts ++ (List.replicate (callsLeft (received64 ps ts).view) default).map .call, ?_⟩
  rw [received64, run_append, ← received64, view_calls harrived]
  exact finished_of_measure (fun _ ↦ True) callsLeft (fun _ _ _ ↦ trivial)
    (fun _ locals _ hfin ↦ callsLeft_next hfin locals) trivial
    (Nat.le_of_eq List.length_replicate.symm)

/-- **No packet is forwarded as it came.** The parser comes to its end, and whenever it does, for
whatever values the variables had, the output is the input only if there was none. -/
theorem received64_out_iff (ps : List RxPacket64) :
    (∃ ts, sysnetRx64.Finished (received64 ps ts).view)
      ∧ ∀ ts, sysnetRx64.Finished (received64 ps ts).view →
        ((received64 ps ts).out = streamOf64 ps ↔ ps = []) := by
  refine ⟨exists_finished ps, fun ts hfin ↦ ?_⟩
  cases ps with
  | nil =>
    -- there is nothing to read
    have hinv : ∀ (v : View (fun _ : Unit ↦ NetAxis64) ParserState NetAxis64) (locals : RxLocals),
        v = ⟨fun _ ↦ [], .eth0, []⟩ → sysnetRx64.next v locals = ⟨fun _ ↦ [], .eth0, []⟩ := by
      rintro v locals rfl
      exact next_of_finished ⟨(), rfl, rfl⟩ locals
    have hview := view_invariant (f := start .eth0 fun _ ↦ streamOf64 []) _ hinv rfl ts
    exact iff_of_true (congrArg View.out hview) rfl
  | cons p ps =>
    have hstart : FirstPacket p.units (start .eth0 fun _ ↦ streamOf64 (p :: ps) :
        Fed (fun _ : Unit ↦ NetAxis64) ParserState NetAxis64).view :=
      .within [] p.units (streamOf64 ps) rfl rfl p.marked rfl (List.forall_mem_nil _) rfl
    have hfirst : FirstPacket p.units (received64 (p :: ps) ts).view :=
      view_invariant (FirstPacket p.units) (fun _ locals h ↦ h.next p.six_le locals) hstart ts
    exact iff_of_false (hfirst.out_ne hfin (streamOf64 ps)) (List.cons_ne_nil _ _)

end Run

/-- A packet of six units. -/
def sixUnits : RxPacket64 :=
  ⟨⟨{ data := 1 }, [{ data := 2 }, { data := 3 }, { data := 4 }, { data := 5 },
    { data := 6, last := 1 }], by decide⟩, by decide⟩

/-- All units arrive, and the parser is called for each of them. -/
def sixCalls : List (Turn Unit RxLocals) :=
  List.replicate 6 (.arrive ()) ++ List.replicate 6 (.call {})

/-- Of six units only the last is written, after four that are not from the packet. -/
theorem not_forwarded_sixUnits :
    sysnetRx64.Finished (received64 [sixUnits] sixCalls).view
      ∧ (received64 [sixUnits] sixCalls).out ≠ streamOf64 [sixUnits] :=
  ⟨⟨(), by decide, by decide⟩, by decide⟩

end FpgaOs.Net
