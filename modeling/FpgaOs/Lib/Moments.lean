import FpgaOs.Lib.Process
import Mathlib.Order.Monotone.Basic

/-!
# A process that reads a store

What a process puts out may depend on a store that others change while it runs. If the store
decides only what the units are, but not how many there are or what the process does next, then each
unit is the one that would stand in its place had the store always been what it was at the moment
of the call that put the unit out. These moments do not go back, since the units are put out in
order.

The store is given as a sequence, `store n` being what it is after `n` changes. `Moments` is kept by
a call (`Moments.call`) and by a change of the store (`Moments.later`).
-/

namespace FpgaOs

open Machine

variable {ι : Type*} [DecidableEq ι] {α : ι → Type*} {σ β γ δ : Type*}

/-- The two have done the same, apart from what the units are that they have put out. -/
structure View.Alike (v w : View α σ β) : Prop where
  unread : v.unread = w.unread
  st : v.st = w.st
  length : v.out.length = w.out.length

namespace Process

/-- The store decides only what the units are that are put out. -/
structure StoreOnly (P : δ → Process ι α σ β γ) : Prop where
  wants (d d' : δ) (s : σ) : (P d).wants s = (P d').wants s
  work (d d' : δ) (s : σ) (g : γ) : ((P d).work s g).1 = ((P d').work s g).1
    ∧ ((P d).work s g).2.length = ((P d').work s g).2.length
  read (d d' : δ) (i : ι) (s : σ) (u : α i) (g : γ) :
    ((P d).read i s u g).1 = ((P d').read i s u g).1
    ∧ ((P d).read i s u g).2.length = ((P d').read i s u g).2.length

/-- The units stand as they would if the store had always been what it was at their moments, after
at most `n` changes. -/
structure Moments (P : δ → Process ι α σ β γ) (store : ℕ → δ) (start : View α σ β) (n : ℕ)
    (v : View α σ β) (gs : List γ) (τ : ℕ → ℕ) : Prop where
  mono : Monotone τ
  le (p : ℕ) : τ p ≤ n
  alike (d : δ) : v.Alike (run (P d).next start gs)
  out (p : ℕ) : v.out[p]? = (run (P (store (τ p))).next start gs).out[p]?

section Moments

variable {P : δ → Process ι α σ β γ} {store : ℕ → δ} {start v w : View α σ β} {n n' : ℕ}
  {gs : List γ} {τ : ℕ → ℕ}

theorem StoreOnly.alike_next (hP : StoreOnly P) (h : v.Alike w) (d d' : δ) (g : γ) :
    ((P d).next v g).Alike ((P d').next w g) := by
  obtain ⟨unread, st, out⟩ := v
  obtain ⟨unread', st', out'⟩ := w
  obtain ⟨rfl, rfl, hlen⟩ := h
  dsimp only at hlen
  by_cases hfin : (P d).Finished ⟨unread, st, out⟩
  · obtain ⟨i, hw, hu⟩ := hfin
    have hfin' : (P d').Finished (⟨unread, st, out'⟩ : View α σ β) :=
      ⟨i, (hP.wants d' d st).trans hw, hu⟩
    rw [next_of_finished ⟨i, hw, hu⟩, next_of_finished hfin']
    exact ⟨rfl, rfl, hlen⟩
  obtain ⟨hw, hnext⟩ | ⟨i, u, us, hw, hu, hnext⟩ := next_cases hfin g
  · obtain ⟨hst, hout⟩ := hP.work d d' st g
    rw [hnext, next_of_none (v := ⟨unread, st, out'⟩) ((hP.wants d' d st).trans hw)]
    refine ⟨rfl, hst, ?_⟩
    dsimp only
    rw [List.length_append, List.length_append, hlen, hout]
  · obtain ⟨hst, hout⟩ := hP.read d d' i st u g
    rw [hnext, next_of_cons (v := ⟨unread, st, out'⟩) ((hP.wants d' d st).trans hw) hu]
    refine ⟨rfl, hst, ?_⟩
    dsimp only
    rw [List.length_append, List.length_append, hlen, hout]

/-- What a call puts out depends on the state and the unread units. -/
theorem getElem?_next_of_alike (Q : Process ι α σ β γ) (h : v.Alike w) (g : γ) {p : ℕ}
    (hp : v.out.length ≤ p) : (Q.next v g).out[p]? = (Q.next w g).out[p]? := by
  obtain ⟨unread, st, out⟩ := v
  obtain ⟨unread', st', out'⟩ := w
  obtain ⟨rfl, rfl, hlen⟩ := h
  dsimp only at hlen hp
  by_cases hfin : Q.Finished ⟨unread, st, out⟩
  · have hfin' : Q.Finished (⟨unread, st, out'⟩ : View α σ β) := hfin
    rw [next_of_finished hfin, next_of_finished hfin', List.getElem?_eq_none hp,
      List.getElem?_eq_none (by rwa [← hlen])]
  obtain ⟨hw, hnext⟩ | ⟨i, u, us, hw, hu, hnext⟩ := next_cases hfin g
  · rw [hnext, next_of_none (v := ⟨unread, st, out'⟩) hw]
    dsimp only
    rw [List.getElem?_append_right hp, List.getElem?_append_right (by rwa [← hlen]), hlen]
  · rw [hnext, next_of_cons (v := ⟨unread, st, out'⟩) hw hu]
    dsimp only
    rw [List.getElem?_append_right hp, List.getElem?_append_right (by rwa [← hlen]), hlen]

/-- A unit that has been put out stays. -/
theorem getElem?_next_of_lt (Q : Process ι α σ β γ) (v : View α σ β) (g : γ) {p : ℕ}
    (hp : p < v.out.length) : (Q.next v g).out[p]? = v.out[p]? := by
  obtain ⟨more, hmore⟩ := exists_out_next Q v g
  rw [hmore, List.getElem?_append_left hp]

theorem moments_start (P : δ → Process ι α σ β γ) (store : ℕ → δ) (start : View α σ β) (n : ℕ) :
    Moments P store start n start [] fun _ ↦ n where
  mono := monotone_const
  le _ := Nat.le_refl n
  alike _ := ⟨rfl, rfl, rfl⟩
  out _ := rfl

theorem Moments.later (h : Moments P store start n v gs τ) (hn : n ≤ n') :
    Moments P store start n' v gs τ :=
  { h with le p := (h.le p).trans hn }

/-- **A call** puts out units of this moment. -/
theorem Moments.call (hP : StoreOnly P) (h : Moments P store start n v gs τ) (g : γ) :
    Moments P store start n ((P (store n)).next v g) (gs ++ [g])
      fun p ↦ if p < v.out.length then τ p else n where
  mono p q hpq := by
    dsimp only
    split
    · split
      · exact h.mono hpq
      · exact h.le p
    · next hp => rw [if_neg fun hq ↦ hp (hpq.trans_lt hq)]
  le p := by
    split
    · exact h.le p
    · exact Nat.le_refl n
  alike d := by
    rw [run_concat]
    exact hP.alike_next (h.alike d) (store n) d g
  out p := by
    rw [run_concat]
    by_cases hp : p < v.out.length
    · rw [if_pos hp, getElem?_next_of_lt _ _ _ hp, h.out p]
      have hlt : p < (run (P (store (τ p))).next start gs).out.length := by
        rwa [← (h.alike _).length]
      exact (getElem?_next_of_lt _ _ _ hlt).symm
    · rw [if_neg hp]
      exact getElem?_next_of_alike _ (h.alike _) g (Nat.le_of_not_lt hp)

end Moments

end Process

end FpgaOs
