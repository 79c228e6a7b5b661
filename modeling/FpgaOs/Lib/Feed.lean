import Mathlib.Data.List.Infix
import FpgaOs.Lib.Machine

/-!
# A stage that reads a stream unit by unit

A stage is called again and again. A call reads the next unit that has arrived, if there is one,
changes the state of the stage and emits something; a call that finds nothing does nothing. `Feed`
is the stage together with the units that have not arrived, those that have not been read, and
everything emitted so far.

Whatever the order of arrivals and calls, what has been emitted is what a prefix of the units makes
the stage emit, and each prefix is reached by some order. So a property that is inherited by
prefixes holds of the output of every schedule exactly when it holds of the output for all units.
-/

namespace FpgaOs

variable {α σ β : Type*}

/-- The units that have not arrived, those that have not been read, the state and the output. -/
structure Feed (α σ β : Type*) where
  input : List α
  queue : List α
  st : σ
  out : List β

namespace Feed

/-- What can happen next. -/
inductive Turn
  | arrive
  | call
  deriving DecidableEq

def start (st : σ) (input : List α) : Feed α σ β := ⟨input, [], st, []⟩

section Emits

variable (read : σ → α → σ × List β)

/-- The state of the stage after it has read units. -/
def after : σ → List α → σ
  | st, [] => st
  | st, u :: us => after (read st u).1 us

/-- What the stage emits for units. -/
def emits : σ → List α → List β
  | _, [] => []
  | st, u :: us => (read st u).2 ++ emits (read st u).1 us

def step (f : Feed α σ β) : Turn → Feed α σ β
  | .arrive =>
    match f.input with
    | [] => f
    | u :: input => { f with input := input, queue := f.queue ++ [u] }
  | .call =>
    match f.queue with
    | [] => f
    | u :: queue =>
      { f with queue := queue, st := (read f.st u).1, out := f.out ++ (read f.st u).2 }

/-- The stage under a schedule. -/
def under (st : σ) (input : List α) (ts : List Turn) : Feed α σ β :=
  Machine.run (step read) (start st input) ts

variable {read}

@[simp] theorem after_nil (st : σ) : after read st [] = st := rfl

@[simp] theorem emits_nil (st : σ) : emits read st [] = [] := rfl

theorem after_append (st : σ) (us us' : List α) :
    after read st (us ++ us') = after read (after read st us) us' := by
  induction us generalizing st with
  | nil => rfl
  | cons u us ih => exact ih _

theorem emits_append (st : σ) (us us' : List α) :
    emits read st (us ++ us') = emits read st us ++ emits read (after read st us) us' := by
  induction us generalizing st with
  | nil => rfl
  | cons u us ih => rw [List.cons_append, emits, emits, ih, List.append_assoc]; rfl

theorem emits_split {us : List α} {k : ℕ} {u : α} (hu : us[k]? = some u) (st : σ) :
    ∃ rest, emits read st us = emits read st (us.take k)
      ++ ((read (after read st (us.take k)) u).2 ++ rest) := by
  obtain ⟨hk, hget⟩ := List.getElem?_eq_some_iff.mp hu
  have hsplit : us = us.take k ++ u :: us.drop (k + 1) := by
    rw [← hget, List.getElem_cons_drop, List.take_append_drop]
  refine ⟨emits read (read (after read st (us.take k)) u).1 (us.drop (k + 1)), ?_⟩
  conv_lhs => rw [hsplit, emits_append]
  rfl

/-- The stage has read `us` of the units `all`. -/
structure HasRead (read : σ → α → σ × List β) (st : σ) (all us : List α) (f : Feed α σ β) :
    Prop where
  split : us ++ (f.queue ++ f.input) = all
  st_eq : f.st = after read st us
  out_eq : f.out = emits read st us

theorem HasRead.step {st : σ} {all us : List α} {f : Feed α σ β} (h : HasRead read st all us f)
    (t : Turn) :
    ∃ us', HasRead read st all us' (f.step read t) := by
  cases t with
  | arrive =>
    rw [Feed.step]
    split
    · exact ⟨us, h⟩
    · next u input hu =>
      refine ⟨us, { h with split := ?_ }⟩
      rw [← h.split, hu, List.append_assoc]
      rfl
  | call =>
    rw [Feed.step]
    split
    · exact ⟨us, h⟩
    · next u queue hu =>
      refine ⟨us ++ [u], ?_, ?_, ?_⟩
      · rw [← h.split, hu, List.append_assoc]
        rfl
      · rw [after_append, ← h.st_eq]
        rfl
      · rw [emits_append, ← h.st_eq, ← h.out_eq, emits, emits, List.append_nil]

theorem hasRead_start (st : σ) (input : List α) : HasRead read st input [] (start st input) :=
  ⟨rfl, rfl, rfl⟩

/-- **Whatever the schedule, the stage has read a prefix of the units.** -/
theorem exists_hasRead (st : σ) (input : List α) (ts : List Turn) :
    ∃ us, HasRead read st input us (under read st input ts) := by
  have hstep : ∀ (f : Feed α σ β) t, (∃ us, HasRead read st input us f) →
    ∃ us, HasRead read st input us (f.step read t) := by
    rintro f t ⟨us, h⟩
    exact h.step t
  exact Machine.run_invariant hstep ⟨[], hasRead_start st input⟩ ts

/-- Units that arrive and are read one by one. -/
def inTurn (us : List α) : List Turn := us.flatMap fun _ ↦ [.arrive, .call]

theorem run_inTurn (us rest : List α) {f : Feed α σ β} (hqueue : f.queue = [])
    (hinput : f.input = us ++ rest) :
    Machine.run (step read) f (inTurn us)
      = ⟨rest, [], after read f.st us, f.out ++ emits read f.st us⟩ := by
  induction us generalizing f with
  | nil =>
    obtain ⟨input, queue, st, out⟩ := f
    obtain rfl : queue = [] := hqueue
    obtain rfl : input = rest := hinput
    rw [emits_nil, List.append_nil]
    rfl
  | cons u us ih =>
    obtain ⟨input, queue, st, out⟩ := f
    obtain rfl : queue = [] := hqueue
    obtain rfl : input = u :: (us ++ rest) := hinput
    have hstep : Machine.run (step read) (⟨u :: (us ++ rest), [], st, out⟩ : Feed α σ β)
      (inTurn (u :: us))
        = Machine.run (step read) ⟨us ++ rest, [], (read st u).1, out ++ (read st u).2⟩
          (inTurn us) := rfl
    rw [hstep, ih rfl rfl, List.append_assoc]
    rfl

theorem under_inTurn (st : σ) (us rest : List α) :
    under read st (us ++ rest) (inTurn us) = ⟨rest, [], after read st us, emits read st us⟩ :=
  run_inTurn us rest rfl rfl

theorem under_all (st : σ) (input : List α) :
    under read st input (inTurn input) = ⟨[], [], after read st input, emits read st input⟩ := by
  have hall := @under_inTurn α σ β read st input []
  rwa [List.append_nil] at hall

/-- **A property that prefixes inherit holds under every schedule exactly when it holds at the
end.** -/
theorem forall_under_iff {p : List β → Prop} (hp : ∀ es es', p (es ++ es') → p es) (st : σ)
    (input : List α) :
    (∀ ts, p (under read st input ts).out) ↔ p (emits read st input) := by
  constructor
  · intro h
    have hout := h (inTurn input)
    rwa [under_all] at hout
  · intro h ts
    obtain ⟨us, hus⟩ := @exists_hasRead α σ β read st input ts
    rw [hus.out_eq]
    rw [← hus.split, emits_append] at h
    exact hp _ _ h

end Emits

/-! ## Packet by packet -/

section Packets

variable {π : Type*} (read : σ → α → σ × List β) (units : π → List α) (ready : σ → Prop)
  (expected : π → List β)

/-- The output is what is expected of the packets, in order; between two packets it is exactly what
is expected of those that have been read, and the stage is ready for the next one. -/
structure KeepsApart (ps : List π) (f : Feed α σ β) : Prop where
  out : f.out <+: ps.flatMap expected
  between : ∀ qs rs, ps = qs ++ rs → f.queue ++ f.input = rs.flatMap units →
    f.out = qs.flatMap expected ∧ ready f.st

/-- The stage reads this packet as expected. -/
def Takes (st : σ) (p : π) : Prop :=
  ready (after read st (units p)) ∧ emits read st (units p) = expected p

variable {read units ready expected}

theorem takes_all {ps : List π}
    (h : ∀ p ∈ ps, ∀ st, ready st → Takes read units ready expected st p) {st : σ}
    (hst : ready st) :
    ready (after read st (ps.flatMap units)) ∧ emits read st (ps.flatMap units)
      = ps.flatMap expected := by
  induction ps generalizing st with
  | nil => exact ⟨hst, rfl⟩
  | cons p ps ih =>
    obtain ⟨hp, hps⟩ := List.forall_mem_cons.mp h
    obtain ⟨hready, hout⟩ := hp st hst
    obtain ⟨hready', hout'⟩ := ih hps hready
    rw [List.flatMap_cons, List.flatMap_cons, after_append, emits_append, hout, hout']
    exact ⟨hready', rfl⟩

/-- A stage that takes each packet keeps them apart wherever it has read the stream to. -/
theorem HasRead.keepsApart {ps : List π} {st : σ} {us : List α} {f : Feed α σ β}
    (hus : HasRead read st (ps.flatMap units) us f)
    (h : ∀ p ∈ ps, ∀ st, ready st → Takes read units ready expected st p) (hst : ready st) :
    KeepsApart units ready expected ps f := by
  constructor
  · rw [hus.out_eq, ← (takes_all h hst).2, ← hus.split, emits_append]
    exact List.prefix_append _ _
  · rintro qs rs rfl hunread
    have hsplit := hus.split
    rw [hunread, List.flatMap_append] at hsplit
    rw [hus.out_eq, hus.st_eq, List.append_cancel_right hsplit]
    obtain ⟨hready, hout⟩ := takes_all (fun p hp ↦ h p (List.mem_append_left _ hp)) hst
    exact ⟨hout, hready⟩

theorem keepsApart_of_takes {ps : List π}
    (h : ∀ p ∈ ps, ∀ st, ready st → Takes read units ready expected st p) {st : σ} (hst : ready st)
    (ts : List Turn) :
    KeepsApart units ready expected ps (under read st (ps.flatMap units) ts) := by
  obtain ⟨us, hus⟩ := @exists_hasRead α σ β read st (ps.flatMap units) ts
  exact hus.keepsApart h hst

/-- **The stage keeps packets apart under every schedule exactly when it takes each of them.** -/
theorem forall_keepsApart_iff {fits : π → Prop}
    (hfits : ∀ p st, ready st → (fits p ↔ Takes read units ready expected st p)) {st : σ}
    (hst : ready st) (ps : List π) :
    (∀ ts, KeepsApart units ready expected ps (under read st (ps.flatMap units) ts))
      ↔ ∀ p ∈ ps, fits p := by
  constructor
  · intro h
    -- by induction on the packets still to come: the reader has taken those before
    have hfrom : ∀ rs qs, ps = qs ++ rs → (∀ q ∈ qs, fits q) → ∀ p ∈ rs, fits p := by
      intro rs
      induction rs with
      | nil => exact fun _ _ _ ↦ List.forall_mem_nil _
      | cons p rs ih =>
        intro qs hps hqs
        obtain ⟨hready, hout⟩ := takes_all (fun q hq st hst ↦ (hfits q st hst).mp (hqs q hq)) hst
        have hps' : ps = (qs ++ [p]) ++ rs := by rw [hps, List.append_assoc]; rfl
        have hstream : ps.flatMap units = (qs.flatMap units ++ units p) ++ rs.flatMap units := by
          rw [hps', List.flatMap_append, List.flatMap_append, List.flatMap_singleton]
        -- the schedule that stops right after `p`
        have hbetween := (h (inTurn (qs.flatMap units ++ units p))).between _ _ hps'
        rw [hstream, under_inTurn] at hbetween
        obtain ⟨hall, hready'⟩ := hbetween rfl
        rw [emits_append, hout, List.flatMap_append, List.flatMap_singleton] at hall
        rw [after_append] at hready'
        have hp : fits p := (hfits p _ hready).mpr ⟨hready', List.append_cancel_left hall⟩
        refine List.forall_mem_cons.mpr ⟨hp, ih _ hps' fun q hq ↦ ?_⟩
        rcases List.mem_append.mp hq with hq | hq
        · exact hqs q hq
        · rwa [List.mem_singleton.mp hq]
    exact hfrom ps [] rfl (List.forall_mem_nil _)
  · exact fun h ts ↦ keepsApart_of_takes (fun p hp st hst ↦ (hfits p st hst).mp (h p hp)) hst ts

end Packets

end Feed

end FpgaOs
