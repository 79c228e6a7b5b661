import FpgaOs.Lib.Machine
import Mathlib.Logic.Function.Basic

/-!
# A process that reads its streams when it wants to

A process is called again and again. In some of its states it works on without any input; in the
others it wants the next unit of one of its streams, and a call that finds this stream empty does
nothing. It does not look at a stream in any other way, so when the units arrive makes no difference
to what it does with them: `view` forgets which of the unread units have arrived, and what a
schedule of arrivals and calls does to the view is what the calls alone do to a process whose units
are all there (`exists_run_view`).

Each call brings a value of its own, for what the process leaves to chance: the variables that a
call reads and has not set.

A process is finished when it wants a unit of a stream that has none left. If every other call makes
a measure smaller, then once everything has arrived, as many calls as the measure says finish the
process (`finished_of_measure`).
-/

namespace FpgaOs

open Machine

variable {ι : Type*} [DecidableEq ι] {α : ι → Type*} {σ β γ : Type*}

/-- The stream that the process wants in a state, what it does where it wants none, and what it does
with a unit. -/
structure Process (ι : Type*) (α : ι → Type*) (σ β γ : Type*) where
  wants : σ → Option ι
  work : σ → γ → σ × List β
  read : (i : ι) → σ → α i → γ → σ × List β

/-- For each stream, the units that have not arrived and those that have not been read; the state
and the output. -/
structure Fed (α : ι → Type*) (σ β : Type*) where
  input : ∀ i, List (α i)
  queue : ∀ i, List (α i)
  st : σ
  out : List β

/-- The units that have not been read, the state and the output. -/
structure View (α : ι → Type*) (σ β : Type*) where
  unread : ∀ i, List (α i)
  st : σ
  out : List β

namespace Process

/-- What can happen next. -/
inductive Turn (ι γ : Type*)
  | arrive (i : ι)
  | call (g : γ)

variable (P : Process ι α σ β γ)

def step (f : Fed α σ β) : Turn ι γ → Fed α σ β
  | .arrive i =>
    match f.input i with
    | [] => f
    | u :: us =>
      { f with input := Function.update f.input i us
               queue := Function.update f.queue i (f.queue i ++ [u]) }
  | .call g =>
    match P.wants f.st with
    | none => { f with st := (P.work f.st g).1, out := f.out ++ (P.work f.st g).2 }
    | some i =>
      match f.queue i with
      | [] => f
      | u :: us =>
        { f with queue := Function.update f.queue i us
                 st := (P.read i f.st u g).1
                 out := f.out ++ (P.read i f.st u g).2 }

/-- A call when everything has arrived. -/
def next (v : View α σ β) (g : γ) : View α σ β :=
  match P.wants v.st with
  | none => { v with st := (P.work v.st g).1, out := v.out ++ (P.work v.st g).2 }
  | some i =>
    match v.unread i with
    | [] => v
    | u :: us =>
      ⟨Function.update v.unread i us, (P.read i v.st u g).1, v.out ++ (P.read i v.st u g).2⟩

/-- Nothing has arrived. -/
def start (st : σ) (input : ∀ i, List (α i)) : Fed α σ β := ⟨input, fun _ ↦ [], st, []⟩

/-- The process wants a unit of a stream that has none left. -/
def Finished (v : View α σ β) : Prop := ∃ i, P.wants v.st = some i ∧ v.unread i = []

end Process

def Fed.view (f : Fed α σ β) : View α σ β := ⟨fun i ↦ f.queue i ++ f.input i, f.st, f.out⟩

namespace Process

/-! ## Schedules do not matter -/

section View

variable {P : Process ι α σ β γ} {f : Fed α σ β} {v : View α σ β} {i : ι} {u : α i}
  {us : List (α i)} {g : γ}

theorem next_of_none (h : P.wants v.st = none) (g : γ) :
    P.next v g = { v with st := (P.work v.st g).1, out := v.out ++ (P.work v.st g).2 } := by
  rw [next, h]

theorem next_of_cons (h : P.wants v.st = some i) (hu : v.unread i = u :: us) (g : γ) :
    P.next v g
      = ⟨Function.update v.unread i us, (P.read i v.st u g).1, v.out ++ (P.read i v.st u g).2⟩ := by
  rw [next, h]
  dsimp only
  rw [hu]

theorem next_of_finished (h : P.Finished v) (g : γ) : P.next v g = v := by
  obtain ⟨i, hi, hu⟩ := h
  rw [next, hi]
  dsimp only
  rw [hu]

omit [DecidableEq ι] in
/-- A process that is not finished finds what it wants. -/
theorem exists_unread (h : P.wants v.st = some i) (hfin : ¬P.Finished v) :
    ∃ u us, v.unread i = u :: us :=
  List.exists_cons_of_ne_nil fun hnil ↦ hfin ⟨i, h, hnil⟩

/-- **What a call can do**, where the process is not finished. -/
theorem next_cases (h : ¬P.Finished v) (g : γ) :
    (P.wants v.st = none
      ∧ P.next v g = { v with st := (P.work v.st g).1, out := v.out ++ (P.work v.st g).2 })
    ∨ ∃ i u us, P.wants v.st = some i ∧ v.unread i = u :: us
      ∧ P.next v g = ⟨Function.update v.unread i us, (P.read i v.st u g).1,
        v.out ++ (P.read i v.st u g).2⟩ := by
  match hw : P.wants v.st with
  | none => exact .inl ⟨rfl, next_of_none hw g⟩
  | some i =>
    obtain ⟨u, us, hu⟩ := exists_unread hw h
    exact .inr ⟨i, u, us, rfl, hu, next_of_cons hw hu g⟩

/-- Nothing that has been put out is taken back. -/
theorem exists_out_next (P : Process ι α σ β γ) (v : View α σ β) (g : γ) :
    ∃ more, (P.next v g).out = v.out ++ more := by
  by_cases hfin : P.Finished v
  · exact ⟨[], by rw [next_of_finished hfin, List.append_nil]⟩
  · obtain ⟨-, hnext⟩ | ⟨i, u, us, -, -, hnext⟩ := next_cases hfin g
    · exact ⟨_, by rw [hnext]⟩
    · exact ⟨_, by rw [hnext]⟩

theorem update_append (q r : ∀ i, List (α i)) (i : ι) (us : List (α i)) :
    (fun j ↦ Function.update q i us j ++ r j)
      = Function.update (fun j ↦ q j ++ r j) i (us ++ r i) := by
  funext j
  by_cases hj : j = i
  · cases hj
    rw [Function.update_self, Function.update_self]
  · rw [Function.update_of_ne hj, Function.update_of_ne hj]

omit [DecidableEq ι] in
theorem unread_of_queue (hu : f.queue i = u :: us) : f.view.unread i = u :: (us ++ f.input i) := by
  rw [← List.cons_append, ← hu]
  rfl

theorem view_arrive (f : Fed α σ β) (i : ι) : (P.step f (.arrive i)).view = f.view := by
  rw [step]
  split
  · rfl
  · next u us hu =>
    rw [Fed.view, Fed.view]
    congr 1
    funext j
    dsimp only
    by_cases hj : j = i
    · cases hj
      rw [Function.update_self, Function.update_self, List.append_assoc, hu]
      rfl
    · rw [Function.update_of_ne hj, Function.update_of_ne hj]

/-- A call does to the view what it does when everything has arrived, unless it has to wait. -/
theorem view_call (f : Fed α σ β) (g : γ) :
    (P.step f (.call g)).view = f.view ∨ (P.step f (.call g)).view = P.next f.view g := by
  rw [step]
  split
  · next hw => exact .inr (next_of_none (v := f.view) hw g).symm
  · next i hw =>
    split
    · exact .inl rfl
    · next u us hu =>
      rw [next_of_cons hw (unread_of_queue hu), Fed.view]
      exact .inr (congrArg (View.mk · _ _) (update_append ..))

/-- **Whatever the schedule, the process has done what some calls do when everything is there.** -/
theorem exists_run_view (f : Fed α σ β) (ts : List (Turn ι γ)) :
    ∃ gs, (run P.step f ts).view = run P.next f.view gs := by
  induction ts generalizing f with
  | nil => exact ⟨[], rfl⟩
  | cons t ts ih =>
    obtain ⟨gs, hrun⟩ := ih (P.step f t)
    have hstep : (P.step f t).view = f.view ∨ ∃ g, (P.step f t).view = P.next f.view g := by
      cases t with
      | arrive i => exact .inl (view_arrive f i)
      | call g => exact (view_call f g).imp_right fun h ↦ ⟨g, h⟩
    obtain hsame | ⟨g, hg⟩ := hstep
    · exact ⟨gs, by rw [run_cons, hrun, hsame]⟩
    · exact ⟨g :: gs, by rw [run_cons, hrun, hg, run_cons]⟩

theorem view_invariant (inv : View α σ β → Prop) (hstep : ∀ v g, inv v → inv (P.next v g))
    (hf : inv f.view) (ts : List (Turn ι γ)) : inv (run P.step f ts).view := by
  obtain ⟨gs, hrun⟩ := @exists_run_view _ _ _ _ _ _ P f ts
  rw [hrun]
  exact run_invariant hstep hf gs

/-! ## The process ends -/

theorem input_step_of_nil (h : f.input i = []) (t : Turn ι γ) : (P.step f t).input i = [] := by
  cases t with
  | arrive j =>
    rw [step]
    split
    · exact h
    · next u us hu =>
      have hne : i ≠ j := by
        rintro rfl
        rw [h] at hu
        contradiction
      rw [← h]
      exact Function.update_of_ne hne ..
  | call g =>
    rw [step]
    split
    · exact h
    · split
      · exact h
      · exact h

theorem input_run_of_nil (h : f.input i = []) (ts : List (Turn ι γ)) :
    (run P.step f ts).input i = [] := by
  have hstep : ∀ (f : Fed α σ β) t, f.input i = [] → (P.step f t).input i = [] :=
    fun _ t hf ↦ input_step_of_nil hf t
  exact run_invariant hstep h ts

theorem exists_arrived_one (P : Process ι α σ β γ) (f : Fed α σ β) (i : ι) :
    ∃ ts, (run P.step f ts).input i = [] := by
  induction hn : (f.input i).length generalizing f with
  | zero => exact ⟨[], List.length_eq_zero_iff.mp hn⟩
  | succ n ih =>
    obtain ⟨u, us, hu⟩ := List.exists_cons_of_length_eq_add_one hn
    have hinput : (P.step f (.arrive i)).input i = us := by
      rw [step, hu]
      exact Function.update_self ..
    rw [hu, List.length_cons] at hn
    obtain ⟨ts, hts⟩ := ih (P.step f (.arrive i)) (by rw [hinput]; exact Nat.succ.inj hn)
    exact ⟨.arrive i :: ts, hts⟩

theorem exists_arrived (P : Process ι α σ β γ) (f : Fed α σ β) (is : List ι) :
    ∃ ts, ∀ i ∈ is, (run P.step f ts).input i = [] := by
  induction is with
  | nil => exact ⟨[], List.forall_mem_nil _⟩
  | cons i is ih =>
    obtain ⟨ts, hts⟩ := ih
    obtain ⟨ts', hts'⟩ := exists_arrived_one P (run P.step f ts) i
    refine ⟨ts ++ ts', List.forall_mem_cons.mpr ⟨by rw [run_append, hts'], fun j hj ↦ ?_⟩⟩
    rw [run_append]
    exact input_run_of_nil (hts j hj) ts'

theorem view_call_of_arrived (h : ∀ i, f.input i = []) (g : γ) :
    (P.step f (.call g)).view = P.next f.view g ∧ ∀ i, (P.step f (.call g)).input i = [] := by
  rw [step]
  split
  · next hw => exact ⟨(next_of_none (v := f.view) hw g).symm, h⟩
  · next i hw =>
    split
    · next hu =>
      have hunread : f.view.unread i = [] := List.append_eq_nil_iff.mpr ⟨hu, h i⟩
      have hfinished : P.Finished f.view := ⟨i, hw, hunread⟩
      exact ⟨(next_of_finished hfinished g).symm, h⟩
    · next u us hu =>
      rw [next_of_cons hw (unread_of_queue hu), Fed.view]
      exact ⟨congrArg (View.mk · _ _) (update_append ..), h⟩

theorem view_calls (h : ∀ i, f.input i = []) (gs : List γ) :
    (run P.step f (gs.map .call)).view = run P.next f.view gs := by
  induction gs generalizing f with
  | nil => rfl
  | cons g gs ih =>
    obtain ⟨hview, hinput⟩ := view_call_of_arrived h g
    rw [List.map_cons, run_cons, run_cons, ih hinput, hview]

theorem run_of_finished (h : P.Finished v) (gs : List γ) : run P.next v gs = v := by
  induction gs with
  | nil => rfl
  | cons g gs ih => rw [run_cons, next_of_finished h, ih]

/-- **Termination.** If every call of a process that is not finished makes the measure smaller, it
is finished after as many calls as the measure says. -/
theorem finished_of_measure [Nonempty γ] (inv : View α σ β → Prop) (μ : View α σ β → ℕ)
    (hstep : ∀ v g, inv v → inv (P.next v g))
    (hμ : ∀ v g, inv v → ¬P.Finished v → μ (P.next v g) < μ v) (hv : inv v) {gs : List γ}
    (hgs : μ v ≤ gs.length) :
    P.Finished (run P.next v gs) := by
  induction gs generalizing v with
  | nil =>
    by_contra hnot
    have hlt := hμ v (Classical.arbitrary γ) hv hnot
    exact absurd (Nat.lt_of_lt_of_le hlt hgs) (Nat.not_lt_zero _)
  | cons g gs ih =>
    by_cases hfin : P.Finished v
    · rw [run_of_finished hfin]
      exact hfin
    · have hlt := hμ v g hv hfin
      exact ih (hstep v g hv) (by rw [List.length_cons] at hgs; omega)

end View

/-! ## A process among others -/

/-- A call, where the process has its queues and its state and hands on what it puts out. -/
def call (P : Process ι α σ β γ) (queue : ∀ i, List (α i)) (st : σ) (g : γ) :
    (∀ i, List (α i)) × σ × List β :=
  match P.wants st with
  | none => (queue, P.work st g)
  | some i =>
    match queue i with
    | [] => (queue, st, [])
    | u :: us => (Function.update queue i us, P.read i st u g)

section Call

variable (P : Process ι α σ β γ) (queue rest : ∀ i, List (α i)) (st : σ) (out : List β) (g : γ)

variable {P queue st} in
theorem call_of_nil {i : ι} (hw : P.wants st = some i) (hq : queue i = []) (g : γ) :
    P.call queue st g = (queue, st, []) := by
  rw [call, hw]
  dsimp only
  rw [hq]

/-- **What a call can do** with the units that will still be written to the streams: the process
waits, or it does what it does when everything has arrived, and is not finished. -/
theorem call_cases :
    (P.call queue st g = (queue, st, []) ∧ ∃ i, P.wants st = some i ∧ queue i = [])
      ∨ ((⟨fun i ↦ (P.call queue st g).1 i ++ rest i, (P.call queue st g).2.1,
          out ++ (P.call queue st g).2.2⟩ : View α σ β)
            = P.next ⟨fun i ↦ queue i ++ rest i, st, out⟩ g
        ∧ ¬P.Finished (⟨fun i ↦ queue i ++ rest i, st, out⟩ : View α σ β)) := by
  match hw : P.wants st with
  | none =>
    refine .inr ⟨?_, ?_⟩
    · rw [call, hw]
      exact (next_of_none (v := ⟨_, st, out⟩) hw g).symm
    · rintro ⟨i, hi, -⟩
      rw [hw] at hi
      contradiction
  | some i =>
    match hq : queue i with
    | [] => exact .inl ⟨call_of_nil hw hq g, i, rfl, hq⟩
    | u :: us =>
      have hunread : (⟨fun i ↦ queue i ++ rest i, st, out⟩ : View α σ β).unread i
          = u :: (us ++ rest i) := by
        rw [← List.cons_append, ← hq]
      refine .inr ⟨?_, ?_⟩
      · rw [next_of_cons hw hunread, call, hw]
        dsimp only
        rw [hq]
        exact congrArg (View.mk · _ _) (update_append ..)
      · rintro ⟨j, hj, hnil⟩
        obtain rfl : i = j := Option.some.inj (hw.symm.trans hj)
        rw [hunread] at hnil
        contradiction

end Call

end Process

end FpgaOs
