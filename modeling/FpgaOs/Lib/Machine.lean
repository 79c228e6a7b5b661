import Mathlib.Data.List.Basic

/-!
# Runs of a deterministic machine

A machine is a step function `σ → ι → σ` on states and inputs. Everything that is said about whole
runs in this development goes through the few facts here: a run is a fold, a side condition on the
inputs is a `Guarded` run, and an invariant is carried along a guarded run once and for all.

The second section compares two side conditions. If, under an invariant, a property of a step and a
condition on it are equivalent, and the condition is enough to keep the invariant, then the property
holds along a run exactly when the condition does, although neither needs to keep the invariant on
its own outside such runs.

Two states that are related in every step put out the same along every run (`outputs_eq_of_rel`).

`Leads` is about what can still happen: some inputs of a given kind bring the machine into a state
with a property. With a measure that can always be made smaller, every state leads to the goal.

`stuck_of_rounds` is about what must happen: if whatever an input does makes a measure smaller, a
schedule that never forgets an input ends in a state in which nothing can happen.
-/

namespace FpgaOs.Machine

variable {σ ι : Type*} (step : σ → ι → σ)

/-- The state after a finite sequence of inputs. -/
def run (s : σ) (is : List ι) : σ := is.foldl step s

@[simp] theorem run_nil (s : σ) : run step s [] = s := rfl

@[simp] theorem run_cons (s : σ) (i : ι) (is : List ι) :
    run step s (i :: is) = run step (step s i) is := rfl

theorem run_append (s : σ) (is js : List ι) :
    run step s (is ++ js) = run step (run step s is) js := by
  rw [run, run, run, List.foldl_append]

theorem run_concat (s : σ) (is : List ι) (i : ι) :
    run step s (is ++ [i]) = step (run step s is) i := by
  rw [run_append, run_cons, run_nil]

/-- Every input of the sequence meets `guard` in the state in which it is taken. -/
def Guarded (guard : σ → ι → Prop) : σ → List ι → Prop
  | _, [] => True
  | s, i :: is => guard s i ∧ Guarded guard (step s i) is

variable {step} {guard : σ → ι → Prop}

@[simp] theorem guarded_nil (s : σ) : Guarded step guard s [] := trivial

@[simp] theorem guarded_cons {s : σ} {i : ι} {is : List ι} :
    Guarded step guard s (i :: is) ↔ guard s i ∧ Guarded step guard (step s i) is := Iff.rfl

instance decidableGuarded [∀ s i, Decidable (guard s i)] :
    ∀ (s : σ) (is : List ι), Decidable (Guarded step guard s is)
  | _, [] => isTrue trivial
  | s, i :: is =>
    have := decidableGuarded (step s i) is
    inferInstanceAs (Decidable (guard s i ∧ Guarded step guard (step s i) is))

theorem guarded_append {s : σ} {is js : List ι} :
    Guarded step guard s (is ++ js)
      ↔ Guarded step guard s is ∧ Guarded step guard (run step s is) js := by
  induction is generalizing s with
  | nil => exact ⟨fun h ↦ ⟨trivial, h⟩, And.right⟩
  | cons i is ih =>
    rw [List.cons_append, guarded_cons, guarded_cons, run_cons, ih, and_assoc]

theorem Guarded.mono {guard' : σ → ι → Prop} (h : ∀ s i, guard s i → guard' s i) {s : σ}
    {is : List ι} (hg : Guarded step guard s is) : Guarded step guard' s is := by
  induction is generalizing s with
  | nil => trivial
  | cons i is ih => exact ⟨h s i hg.1, ih hg.2⟩

theorem Guarded.and {guard' : σ → ι → Prop} {s : σ} {is : List ι} (h : Guarded step guard s is)
    (h' : Guarded step guard' s is) : Guarded step (fun s i ↦ guard s i ∧ guard' s i) s is := by
  induction is generalizing s with
  | nil => trivial
  | cons i is ih => exact ⟨⟨h.1, h'.1⟩, ih h.2 h'.2⟩

theorem guarded_of_forall {p : ι → Prop} {s : σ} {is : List ι} (h : ∀ i ∈ is, p i) :
    Guarded step (fun _ i ↦ p i) s is := by
  induction is generalizing s with
  | nil => trivial
  | cons i is ih => exact ⟨h i List.mem_cons_self, ih fun j hj ↦ h j (List.mem_cons_of_mem _ hj)⟩

/-- What is noted beside the state does not matter to what is asked of it. -/
theorem guarded_map {τ : Type*} {f : τ → σ} {step' : τ → ι → τ}
    (hf : ∀ t i, f (step' t i) = step (f t) i) {t : τ} {is : List ι} :
    Guarded step guard (f t) is ↔ Guarded step' (fun t i ↦ guard (f t) i) t is := by
  induction is generalizing t with
  | nil => exact Iff.rfl
  | cons i is ih => rw [guarded_cons, guarded_cons, ← hf, ih]

/-- **The invariant rule.** What holds at the start and survives every guarded step holds at the
end of every guarded run. -/
theorem Guarded.invariant {inv : σ → Prop} (hstep : ∀ s i, inv s → guard s i → inv (step s i))
    {s : σ} {is : List ι} (hs : inv s) (hg : Guarded step guard s is) : inv (run step s is) := by
  induction is generalizing s with
  | nil => exact hs
  | cons i is ih => exact ih (hstep s i hs hg.1) hg.2

/-- What holds at the start and survives every step holds at the end of every run. -/
theorem run_invariant {inv : σ → Prop} (hstep : ∀ s i, inv s → inv (step s i)) {s : σ} (hs : inv s)
    (is : List ι) :
    inv (run step s is) := by
  induction is generalizing s with
  | nil => exact hs
  | cons i is ih => exact ih (hstep s i hs)

/-- Under an invariant that the guard keeps, what the guard implies of a step holds along the
run. -/
theorem Guarded.imp {inv : σ → Prop} {prop : σ → ι → Prop}
    (hstep : ∀ s i, inv s → guard s i → inv (step s i)) (himp : ∀ s i, inv s → guard s i → prop s i)
    {s : σ} {is : List ι} (hs : inv s) (hg : Guarded step guard s is) : Guarded step prop s is := by
  induction is generalizing s with
  | nil => trivial
  | cons i is ih => exact ⟨himp s i hs hg.1, ih (hstep s i hs hg.1) hg.2⟩

/-- **The budget rule.** If every step keeps the invariant, and a step of some kind takes one off a
measure that never grows, then there are no more such steps than the measure allows. -/
theorem Guarded.countP_le {inv : σ → Prop} {μ : σ → ℕ} {p : ι → Bool}
    (hstep : ∀ s i, inv s → guard s i →
      inv (step s i) ∧ μ (step s i) + (if p i then 1 else 0) ≤ μ s)
    {s : σ} {is : List ι} (hs : inv s) (hg : Guarded step guard s is) : is.countP p ≤ μ s := by
  induction is generalizing s with
  | nil => exact Nat.zero_le _
  | cons i is ih =>
    obtain ⟨hinv, hle⟩ := hstep s i hs hg.1
    rw [List.countP_cons]
    exact Nat.le_trans (Nat.add_le_add_right (ih hinv hg.2) _) hle

/-- **Equivalent conditions along a run.** If the guard keeps the invariant, and under the
invariant the guard is equivalent to `prop`, then the two hold along the same runs. -/
theorem guarded_iff_of_invariant {inv : σ → Prop} {prop : σ → ι → Prop}
    (hstep : ∀ s i, inv s → guard s i → inv (step s i))
    (hiff : ∀ s i, inv s → (prop s i ↔ guard s i)) {s : σ} {is : List ι} (hs : inv s) :
    Guarded step prop s is ↔ Guarded step guard s is := by
  induction is generalizing s with
  | nil => exact Iff.rfl
  | cons i is ih =>
    rw [guarded_cons, guarded_cons, hiff s i hs]
    exact and_congr_right fun hg ↦ ih (hstep s i hs hg)

/-- The same where both the equivalence and the invariant rest on a further condition that holds
along the run. -/
theorem guarded_iff_of_invariant_of {inv : σ → Prop} {env prop : σ → ι → Prop}
    (hstep : ∀ s i, inv s → env s i → guard s i → inv (step s i))
    (hiff : ∀ s i, inv s → env s i → (prop s i ↔ guard s i)) {s : σ} {is : List ι} (hs : inv s)
    (henv : Guarded step env s is) : Guarded step prop s is ↔ Guarded step guard s is := by
  induction is generalizing s with
  | nil => exact Iff.rfl
  | cons i is ih =>
    rw [guarded_cons, guarded_cons, hiff s i hs henv.1]
    exact and_congr_right fun hg ↦ ih (hstep s i hs henv.1 hg) henv.2

/-! ## Two runs -/

section Outputs

variable {β : Type*} (step) (out : σ → ι → β)

/-- What is put out along a run. -/
def outputs : σ → List ι → List β
  | _, [] => []
  | s, i :: is => out s i :: outputs (step s i) is

variable {step out}

/-- **The bisimulation rule.** If related states put out the same, and every step leads to related
states, then they put out the same along every run. -/
theorem outputs_eq_of_rel {rel : σ → σ → Prop}
    (h : ∀ s t i, rel s t → out s i = out t i ∧ rel (step s i) (step t i)) {s t : σ}
    (hst : rel s t) (is : List ι) : outputs step out s is = outputs step out t is := by
  induction is generalizing s t with
  | nil => rfl
  | cons i is ih =>
    obtain ⟨hout, hrel⟩ := h s t i hst
    rw [outputs, outputs, hout, ih hrel]

end Outputs

/-! ## What can be reached -/

section Leads

variable (step) (allowed : ι → Prop)

/-- Some allowed inputs lead to a state with the property. -/
def Leads (s : σ) (p : σ → Prop) : Prop := ∃ is : List ι, (∀ i ∈ is, allowed i) ∧ p (run step s is)

variable {step allowed} {s : σ} {p q : σ → Prop}

theorem Leads.now (h : p s) : Leads step allowed s p := ⟨[], nofun, h⟩

theorem Leads.next {i : ι} (hi : allowed i) (h : Leads step allowed (step s i) p) :
    Leads step allowed s p := by
  obtain ⟨is, his, hp⟩ := h
  exact ⟨i :: is, List.forall_mem_cons.mpr ⟨hi, his⟩, hp⟩

theorem Leads.once {i : ι} (hi : allowed i) (h : p (step s i)) : Leads step allowed s p :=
  .next hi (.now h)

theorem Leads.trans (h : Leads step allowed s p) (hpq : ∀ s', p s' → Leads step allowed s' q) :
    Leads step allowed s q := by
  obtain ⟨is, his, hp⟩ := h
  obtain ⟨js, hjs, hq⟩ := hpq _ hp
  refine ⟨is ++ js, ?_, by rwa [run_append]⟩
  intro i hi
  rcases List.mem_append.mp hi with hi | hi
  · exact his i hi
  · exact hjs i hi

/-- **The measure rule.** If, under an invariant, the measure can be made smaller in every state
that is not yet good, a good state can be reached. -/
theorem Leads.of_measure {inv : σ → Prop} (μ : σ → ℕ)
    (h : ∀ s, inv s → Leads step allowed s p ∨ Leads step allowed s fun s' ↦ inv s' ∧ μ s' < μ s)
    (hs : inv s) : Leads step allowed s p := by
  induction hn : μ s using Nat.strongRecOn generalizing s with
  | _ n ih =>
    rcases h s hs with hp | hlt
    · exact hp
    · exact hlt.trans fun s' hs' ↦ ih _ (hn ▸ hs'.2) hs'.1 rfl

end Leads

/-! ## Fair schedules -/

section Fair

variable (step) (allowed : ι → Prop)

/-- No allowed input has an effect. -/
def Stuck (s : σ) : Prop := ∀ i, allowed i → step s i = s

variable {step allowed} {s : σ} {inv : σ → Prop} {μ : σ → ℕ}

theorem Stuck.run (h : Stuck step allowed s) {is : List ι} (his : ∀ i ∈ is, allowed i) :
    run step s is = s := by
  induction is with
  | nil => rfl
  | cons i is ih =>
    obtain ⟨hi, his⟩ := List.forall_mem_cons.mp his
    rw [run_cons, h i hi, ih his]

/-- Some of the inputs have done something, or none of them can. -/
theorem lt_or_forall_eq (hinv : ∀ s i, inv s → allowed i → inv (step s i))
    (hμ : ∀ s i, inv s → allowed i → step s i = s ∨ μ (step s i) < μ s) (hs : inv s) {is : List ι}
    (his : ∀ i ∈ is, allowed i) :
    μ (Machine.run step s is) < μ s ∨ Machine.run step s is = s ∧ ∀ i ∈ is, step s i = s := by
  induction is generalizing s with
  | nil => exact .inr ⟨rfl, nofun⟩
  | cons i is ih =>
    obtain ⟨hi, his⟩ := List.forall_mem_cons.mp his
    rw [run_cons]
    rcases hμ s i hs hi with heq | hlt
    · rw [heq]
      exact (ih hs his).imp_right fun h ↦ ⟨h.1, List.forall_mem_cons.mpr ⟨heq, h.2⟩⟩
    · rcases ih (hinv s i hs hi) his with h | h
      · exact .inl (Nat.lt_trans h hlt)
      · exact .inl (by rwa [h.1])

/-- **The fairness rule.** If whatever an input does makes the measure smaller, then after as many
rounds as the measure says nothing can happen any more. In a round the allowed inputs come in any
order and any number of times, but each of them comes. -/
theorem stuck_of_rounds (hinv : ∀ s i, inv s → allowed i → inv (step s i))
    (hμ : ∀ s i, inv s → allowed i → step s i = s ∨ μ (step s i) < μ s) (hs : inv s)
    {rounds : List (List ι)} (hrounds : ∀ is ∈ rounds, ∀ i, i ∈ is ↔ allowed i)
    (hlen : μ s ≤ rounds.length) : inv (Machine.run step s rounds.flatten)
      ∧ Stuck step allowed (Machine.run step s rounds.flatten) := by
  induction rounds generalizing s with
  | nil =>
    exact ⟨hs, fun i hi ↦ (hμ s i hs hi).resolve_right fun hlt ↦
      Nat.not_lt_zero _ (Nat.lt_of_lt_of_le hlt hlen)⟩
  | cons is rounds ih =>
    obtain ⟨his, hrounds⟩ := List.forall_mem_cons.mp hrounds
    have hall : ∀ i ∈ is, allowed i := fun i hi ↦ (his i).mp hi
    have hinv' : inv (Machine.run step s is) :=
      Guarded.invariant hinv hs (guarded_of_forall hall)
    rw [List.flatten_cons, run_append]
    rcases lt_or_forall_eq hinv hμ hs hall with hlt | ⟨heq, hnone⟩
    · exact ih hinv' hrounds (Nat.le_of_lt_succ (Nat.lt_of_lt_of_le hlt hlen))
    · have hstuck : Stuck step allowed s := fun i hi ↦ hnone i ((his i).mpr hi)
      have hrest : ∀ i ∈ rounds.flatten, allowed i := by
        intro i hi
        obtain ⟨js, hjs, hi⟩ := List.mem_flatten.mp hi
        exact (hrounds js hjs i).mp hi
      rw [heq, hstuck.run hrest]
      exact ⟨hs, hstuck⟩

end Fair

end FpgaOs.Machine
