import Mathlib.Algebra.BigOperators.Group.Finset.Piecewise
import Mathlib.Data.List.Infix
import Mathlib.Logic.Function.Basic
import FpgaOs.Lib.Frame

/-!
# Several streams of packets into one

An arbiter reads the units of several inputs and writes them to one output. `Inputs` holds the units
of each input that have not arrived and those that have not been read, and everything written so
far, each unit with the input it was read from.

Whoever decides which input is read, no unit is lost. Whether packets stay whole depends on the
decisions: `Sent` says that the output is whole packets and the beginning of a packet of one input,
and it is kept as long as that input is the one that is read.
-/

namespace FpgaOs

variable {ι α β γ : Type*}

/-- The units that have not arrived, those that have not been read, and the output. -/
structure Inputs (ι α : Type*) where
  left : ι → List α
  queue : ι → List α
  out : List (ι × α)

namespace Inputs

variable [DecidableEq ι]

/-- What there is of one input. -/
def ofInput (i : ι) (l : List (ι × β)) : List β := (l.filter (·.1 = i)).map Prod.snd

theorem ofInput_append (i : ι) (l l' : List (ι × β)) :
    ofInput i (l ++ l') = ofInput i l ++ ofInput i l' := by
  rw [ofInput, List.filter_append, List.map_append]
  rfl

theorem ofInput_singleton (i j : ι) (b : β) : ofInput i [(j, b)] = if j = i then [b] else [] := by
  rw [ofInput, List.filter_singleton]
  by_cases hj : j = i
  · rw [if_pos hj, decide_eq_true hj]
    rfl
  · rw [if_neg hj, decide_eq_false hj]
    rfl

theorem ofInput_map (i j : ι) (bs : List β) :
    ofInput i (bs.map (Prod.mk j)) = if j = i then bs else [] := by
  induction bs with
  | nil => exact (ite_self []).symm
  | cons b bs ih =>
    rw [List.map_cons, ← List.singleton_append, ofInput_append, ofInput_singleton, ih]
    split <;> rfl

/-! ## Units -/

section Units

def start (left : ι → List α) : Inputs ι α := ⟨left, fun _ ↦ [], []⟩

/-- The next unit of an input arrives. -/
def arrive (s : Inputs ι α) (i : ι) : Inputs ι α :=
  match s.left i with
  | [] => s
  | u :: left =>
    { s with
      left := Function.update s.left i left
      queue := Function.update s.queue i (s.queue i ++ [u]) }

/-- A unit of an input is read and written. -/
def forward (s : Inputs ι α) (i : ι) : Option (α × Inputs ι α) :=
  match s.queue i with
  | [] => none
  | u :: queue =>
    some (u, { s with queue := Function.update s.queue i queue, out := s.out ++ [(i, u)] })

/-- Each unit has been written, has not been read, or has not arrived. -/
def Conserves (all : ι → List α) (s : Inputs ι α) : Prop :=
  ∀ i, ofInput i s.out ++ (s.queue i ++ s.left i) = all i

variable {all : ι → List α} {s s' : Inputs ι α} {i : ι} {u : α}

theorem conserves_start (all : ι → List α) : Conserves all (start all) := fun _ ↦ rfl

theorem arrive_out (s : Inputs ι α) (i : ι) : (s.arrive i).out = s.out := by
  rw [arrive]
  split <;> rfl

theorem Conserves.arrive (h : Conserves all s) (i : ι) : Conserves all (s.arrive i) := by
  intro j
  rw [Inputs.arrive]
  split
  · exact h j
  · next u left hleft =>
    dsimp only
    by_cases hj : j = i
    · subst hj
      rw [Function.update_self, Function.update_self, ← h j, hleft, List.append_assoc (s.queue j)]
      rfl
    · rw [Function.update_of_ne hj, Function.update_of_ne hj]
      exact h j

theorem forward_eq_none : s.forward i = none ↔ s.queue i = [] := by
  rw [forward]
  split
  · next hqueue => exact iff_of_true rfl hqueue
  · next hqueue => exact iff_of_false (Option.some_ne_none _) (hqueue ▸ List.cons_ne_nil _ _)

theorem forward_eq_some : s.forward i = some (u, s') ↔ ∃ queue, s.queue i = u :: queue
    ∧ s' = { s with queue := Function.update s.queue i queue, out := s.out ++ [(i, u)] } := by
  rw [forward]
  split
  · next hqueue => simp [hqueue]
  · next v queue hqueue =>
    rw [hqueue, Option.some.injEq, Prod.mk.injEq]
    constructor
    · rintro ⟨rfl, rfl⟩
      exact ⟨queue, rfl, rfl⟩
    · rintro ⟨queue', heq, rfl⟩
      obtain ⟨rfl, rfl⟩ := List.cons.inj heq
      exact ⟨rfl, rfl⟩

theorem Conserves.forward (h : Conserves all s) (hf : s.forward i = some (u, s')) :
    Conserves all s' := by
  obtain ⟨queue, hqueue, rfl⟩ := forward_eq_some.mp hf
  intro j
  dsimp only
  rw [ofInput_append, ofInput_singleton]
  by_cases hj : i = j
  · subst hj
    rw [if_pos rfl, Function.update_self, ← h i, hqueue, List.append_assoc]
    rfl
  · rw [if_neg hj, Function.update_of_ne (Ne.symm hj), List.append_nil]
    exact h j

/-- The units of an input that have arrived. -/
def arrived (s : Inputs ι α) (i : ι) : List α := ofInput i s.out ++ s.queue i

theorem arrived_forward (hf : s.forward i = some (u, s')) (j : ι) : s'.arrived j = s.arrived j := by
  obtain ⟨queue, hqueue, rfl⟩ := forward_eq_some.mp hf
  rw [arrived, arrived]
  dsimp only
  rw [ofInput_append, ofInput_singleton]
  by_cases hj : i = j
  · subst hj
    rw [if_pos rfl, Function.update_self, hqueue, List.append_assoc]
    rfl
  · rw [if_neg hj, Function.update_of_ne (Ne.symm hj), List.append_nil]

/-- The number of units that have arrived and have not been read. -/
def unread [Fintype ι] (s : Inputs ι α) : ℕ := ∑ i, (s.queue i).length

theorem unread_forward [Fintype ι] (hf : s.forward i = some (u, s')) :
    s'.unread + 1 = s.unread := by
  obtain ⟨queue, hqueue, rfl⟩ := forward_eq_some.mp hf
  have hupdate : (fun j ↦ (Function.update s.queue i queue j).length)
      = Function.update (fun j ↦ (s.queue j).length) i queue.length :=
    funext fun j ↦ Function.apply_update (fun _ ↦ List.length) s.queue i queue j
  rw [unread, unread]
  dsimp only
  rw [hupdate, Finset.sum_update_of_mem (Finset.mem_univ i),
    ← Finset.sum_sdiff (Finset.subset_univ {i}), Finset.sum_singleton, hqueue, List.length_cons]
  omega

end Units

/-! ## Packets -/

section Packets

variable {last : α → Prop}

/-- Whole packets, unit by unit. -/
def tagged (done : List (ι × Frame last)) : List (ι × α) :=
  done.flatMap fun d ↦ d.2.units.map (Prod.mk d.1)

/-- The packets of each input are in their order, and none is left out. -/
def KeepsOrder (ps : ι → List (Frame last)) (done : List (ι × Frame last)) : Prop :=
  ∀ i, ofInput i done <+: ps i

/-- The output is the beginning of a sequence of whole packets. -/
def Framed (ps : ι → List (Frame last)) (out : List (ι × α)) : Prop :=
  ∃ done, KeepsOrder ps done ∧ out <+: tagged done

omit [DecidableEq ι] in
theorem tagged_concat (done : List (ι × Frame last)) (i : ι) (p : Frame last) :
    tagged (done ++ [(i, p)]) = tagged done ++ p.units.map (Prod.mk i) := by
  rw [tagged, List.flatMap_append, List.flatMap_singleton]
  rfl

omit [DecidableEq ι] in
/-- Whole packets end with a marked unit. -/
theorem last_of_getLast?_tagged {done : List (ι × Frame last)} {w : ι × α}
    (hw : (tagged done).getLast? = some w) : last w.2 := by
  rcases List.eq_nil_or_concat' done with rfl | ⟨done, ⟨i, p⟩, rfl⟩
  · exact absurd hw (Option.some_ne_none _).symm
  · have hne : p.units.map (Prod.mk i) ≠ [] := mt List.map_eq_nil_iff.mp p.units_ne_nil
    rw [tagged_concat, List.getLast?_append_of_ne_nil _ hne, List.getLast?_map,
      Option.map_eq_some_iff] at hw
    obtain ⟨u, hu, rfl⟩ := hw
    exact p.marked.last_of_getLast? hu

theorem ofInput_tagged (i : ι) (done : List (ι × Frame last)) :
    ofInput i (tagged done) = (ofInput i done).flatMap Frame.units := by
  induction done with
  | nil => rfl
  | cons d done ih =>
    rw [← List.singleton_append, ofInput_append, List.flatMap_append, ← ih, ofInput_singleton,
      tagged, tagged, List.flatMap_append, ofInput_append, List.flatMap_singleton, ofInput_map]
    split
    · rw [List.flatMap_singleton]
    · rfl

/-- The output is the packets `done` and the units `part` with which the next packet of input `i`
begins. -/
structure Sent (ps : ι → List (Frame last)) (out : List (ι × α))
    (done : List (ι × Frame last)) (i : ι) (part : List α) : Prop where
  out_eq : out = tagged done ++ part.map (Prod.mk i)
  order : KeepsOrder ps done
  exists_next : part ≠ [] → ∃ p rest, ps i = ofInput i done ++ p :: rest
  next_eq : ∀ p rest, ps i = ofInput i done ++ p :: rest → ∃ tail, tail ≠ []
    ∧ p.units = part ++ tail

variable {ps : ι → List (Frame last)} {out : List (ι × α)} {done : List (ι × Frame last)}
  {s s' : Inputs ι α} {i : ι} {u : α} {part : List α}

theorem sent_nil (hout : out = tagged done) (horder : KeepsOrder ps done) (i : ι) :
    Sent ps out done i [] where
  out_eq := hout.trans (List.append_nil _).symm
  order := horder
  exists_next := fun h ↦ absurd rfl h
  next_eq := fun p _ _ ↦ ⟨p.units, p.units_ne_nil, rfl⟩

theorem keepsOrder_nil (ps : ι → List (Frame last)) : KeepsOrder ps [] := fun _ ↦ List.nil_prefix

theorem sent_start (ps : ι → List (Frame last)) (i : ι) : Sent ps [] [] i [] :=
  sent_nil rfl (keepsOrder_nil ps) i

theorem Sent.framed (h : Sent ps out done i part) : Framed ps out := by
  by_cases hpart : part = []
  · refine ⟨done, h.order, ?_⟩
    rw [h.out_eq, hpart, List.map_nil, List.append_nil]
  · obtain ⟨p, rest, hps⟩ := h.exists_next hpart
    obtain ⟨tail, -, hunits⟩ := h.next_eq p rest hps
    refine ⟨done ++ [(i, p)], fun j ↦ ?_, ?_⟩
    · rw [ofInput_append, ofInput_singleton]
      by_cases hj : i = j
      · subst hj
        rw [if_pos rfl, hps]
        exact (List.prefix_append_right_inj _).mpr ⟨rest, rfl⟩
      · rw [if_neg hj, List.append_nil]
        exact h.order j
    · rw [h.out_eq, tagged_concat, hunits, List.map_append]
      exact (List.prefix_append_right_inj _).mpr (List.prefix_append _ _)

/-- A unit in a packet is marked exactly when it is the final one. -/
theorem last_iff_of_marked {us vs : List α} (h : Marked last (us ++ u :: vs)) :
    last u ↔ vs = [] := by
  induction us with
  | nil =>
    obtain ⟨rfl, hlast⟩ | ⟨hlast, hm⟩ := marked_cons.mp h
    · exact iff_of_true hlast rfl
    · exact iff_of_false hlast hm.ne_nil
  | cons v us ih =>
    obtain ⟨hnil, -⟩ | ⟨-, hm⟩ := marked_cons.mp h
    · exact absurd hnil (List.append_ne_nil_of_right_ne_nil _ (List.cons_ne_nil _ _))
    · exact ih hm

theorem Sent.not_last (h : Sent ps out done i (part ++ [u])) : ¬last u := by
  obtain ⟨p, rest, hps⟩ :=
    h.exists_next (List.append_ne_nil_of_right_ne_nil _ (List.cons_ne_nil _ _))
  obtain ⟨tail, htail, hunits⟩ := h.next_eq p rest hps
  rw [List.append_assoc] at hunits
  have hmarked : Marked last (part ++ u :: tail) := hunits ▸ p.marked
  exact mt (last_iff_of_marked hmarked).mp htail

/-- **Reading the input whose packet has begun.** The packet goes on, or ends with this unit. -/
theorem Sent.forward (h : Sent ps s.out done i part)
    (hc : Conserves (fun j ↦ (ps j).flatMap Frame.units) s) (hf : s.forward i = some (u, s')) :
    (last u ∧ ∃ p, s'.out = tagged (done ++ [(i, p)]) ∧ KeepsOrder ps (done ++ [(i, p)]))
      ∨ (¬last u ∧ Sent ps s'.out done i (part ++ [u])) := by
  obtain ⟨queue, hqueue, rfl⟩ := forward_eq_some.mp hf
  obtain ⟨rest, hrest⟩ := h.order i
  have hsent : ofInput i s.out = (ofInput i done).flatMap Frame.units ++ part := by
    rw [h.out_eq, ofInput_append, ofInput_tagged, ofInput_map, if_pos rfl]
  have hunread : part ++ u :: (queue ++ s.left i) = rest.flatMap Frame.units := by
    have hall : ofInput i s.out ++ (s.queue i ++ s.left i) = (ps i).flatMap Frame.units := hc i
    rw [hsent, hqueue, ← hrest, List.flatMap_append, List.append_assoc] at hall
    exact List.append_cancel_left hall
  obtain _ | ⟨p, rest⟩ := rest
  · exact absurd hunread (List.append_ne_nil_of_right_ne_nil _ (List.cons_ne_nil _ _))
  · obtain ⟨tail, htail, hunits⟩ := h.next_eq p rest hrest.symm
    rw [List.flatMap_cons, hunits, List.append_assoc] at hunread
    obtain ⟨tail, rfl⟩ : ∃ tail', tail = u :: tail' := by
      obtain _ | ⟨v, tail⟩ := tail
      · exact absurd rfl htail
      · have hhead := List.append_cancel_left hunread
        exact ⟨tail, congrArg (· :: tail) (List.cons.inj hhead).1.symm⟩
    have hmarked : Marked last (part ++ u :: tail) := hunits ▸ p.marked
    have hlast := last_iff_of_marked hmarked
    have hout : s.out ++ [(i, u)] = tagged done ++ (part ++ [u]).map (Prod.mk i) := by
      rw [h.out_eq, List.map_append, List.append_assoc]
      rfl
    by_cases htail' : tail = []
    · refine .inl ⟨hlast.mpr htail', p, ?_, fun j ↦ ?_⟩
      · rw [tagged_concat, hunits, htail']
        exact hout
      · rw [ofInput_append, ofInput_singleton]
        by_cases hj : i = j
        · subst hj
          rw [if_pos rfl, ← hrest]
          exact (List.prefix_append_right_inj _).mpr ⟨rest, rfl⟩
        · rw [if_neg hj, List.append_nil]
          exact h.order j
    · refine .inr ⟨mt hlast.mp htail', hout, h.order, fun _ ↦ ⟨p, rest, hrest.symm⟩, ?_⟩
      intro q rest' hq
      -- the next packet is the same as before
      obtain ⟨rfl, -⟩ := List.cons.inj (List.append_cancel_left (hq.symm.trans hrest.symm))
      refine ⟨tail, htail', ?_⟩
      rw [hunits, List.append_assoc]
      rfl

end Packets

end Inputs

end FpgaOs
