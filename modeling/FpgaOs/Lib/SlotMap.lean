import Mathlib.Data.Set.Card
import Mathlib.Logic.Function.Basic

/-!
# A map in slots

A table has slots, each empty or with a key and a value. As long as no key is in two slots, the
table is a partial map from keys to values (`Represents`). Writing a key into a slot that is empty
or already has this key, when no other slot has it, changes the map at this key (`insert`), and so
does emptying a slot (`erase`). The keys of a part of the table are as many as its slots in use
(`ncard_keys`).
-/

namespace FpgaOs.SlotMap

variable {ε κ ν π : Type*}

/-- No key is in two slots. -/
def Distinct (c : ε → Option (κ × ν)) : Prop :=
  ∀ ⦃e e' x x'⦄, c e = some x → c e' = some x' → x.1 = x'.1 → e = e'

/-- The slots hold the map. -/
def Represents (c : ε → Option (κ × ν)) (m : κ → Option ν) : Prop :=
  ∀ k v, m k = some v ↔ ∃ e, c e = some (k, v)

variable {c : ε → Option (κ × ν)} {m : κ → Option ν} {e : ε} {k : κ} {v : ν}

theorem represents_none : Represents (fun _ : ε ↦ (none : Option (κ × ν))) fun _ ↦ none :=
  fun _ _ ↦ ⟨nofun, nofun⟩

theorem distinct_none : Distinct fun _ : ε ↦ (none : Option (κ × ν)) := nofun

section Update

variable [DecidableEq ε]

/-- A key may be written into a slot: the slot is empty or has it, and no other slot has it. -/
structure Place (c : ε → Option (κ × ν)) (e : ε) (k : κ) : Prop where
  own : ∀ x, c e = some x → x.1 = k
  other : ∀ e' x, c e' = some x → x.1 = k → e' = e

theorem Distinct.insert (h : Distinct c) (hp : Place c e k) (v : ν) :
    Distinct (Function.update c e (some (k, v))) := by
  intro e₁ e₂ x₁ x₂ h₁ h₂ hkey
  rw [Function.update_apply] at h₁ h₂
  split at h₁
  · next heq =>
    obtain rfl := Option.some.inj h₁
    split at h₂
    · next heq' => rw [heq, heq']
    · rw [heq, hp.other e₂ x₂ h₂ hkey.symm]
  · split at h₂
    · next heq' =>
      obtain rfl := Option.some.inj h₂
      rw [heq', hp.other e₁ x₁ h₁ hkey]
    · exact h h₁ h₂ hkey

theorem Distinct.erase (h : Distinct c) : Distinct (Function.update c e none) := by
  intro e₁ e₂ x₁ x₂ h₁ h₂ hkey
  rw [Function.update_apply] at h₁ h₂
  split at h₁
  · contradiction
  · split at h₂
    · contradiction
    · exact h h₁ h₂ hkey

variable [DecidableEq κ]

theorem Represents.insert (h : Represents c m) (hp : Place c e k) (v : ν) :
    Represents (Function.update c e (some (k, v))) (Function.update m k (some v)) := by
  intro k' v'
  rw [Function.update_apply]
  by_cases hk : k' = k
  · rw [if_pos hk]
    constructor
    · intro hv
      exact ⟨e, by rw [Function.update_self, ← hk, Option.some.inj hv]⟩
    · rintro ⟨e', he'⟩
      obtain rfl : e' = e := by
        by_contra hne
        rw [Function.update_of_ne hne] at he'
        exact hne (hp.other e' _ he' hk)
      rw [Function.update_self, Option.some.injEq, Prod.mk.injEq] at he'
      rw [he'.2]
  · rw [if_neg hk, h k' v']
    refine exists_congr fun e' ↦ ?_
    by_cases he' : e' = e
    · rw [he', Function.update_self]
      refine iff_of_false (fun hc ↦ hk (hp.own _ hc)) fun hc ↦ hk ?_
      rw [Option.some.injEq, Prod.mk.injEq] at hc
      exact hc.1.symm
    · rw [Function.update_of_ne he']

theorem Represents.erase (h : Represents c m) (hd : Distinct c) (he : c e = some (k, v)) :
    Represents (Function.update c e none) (Function.update m k none) := by
  intro k' v'
  rw [Function.update_apply]
  by_cases hk : k' = k
  · rw [if_pos hk]
    refine iff_of_false nofun ?_
    rintro ⟨e', he'⟩
    rw [Function.update_apply] at he'
    split at he'
    · contradiction
    · next hne => exact hne (hd he' he hk)
  · rw [if_neg hk, h k' v']
    refine exists_congr fun e' ↦ ?_
    by_cases he' : e' = e
    · rw [he', Function.update_self, he]
      refine iff_of_false (fun hc ↦ hk ?_) nofun
      rw [Option.some.injEq, Prod.mk.injEq] at hc
      exact hc.1.symm
    · rw [Function.update_of_ne he']

end Update

/-- **Counting keys.** If slots and keys belong to parts, the keys of a part are as many as its
slots in use. -/
theorem ncard_keys (h : Represents c m) (hd : Distinct c) {part : κ → π} {partOf : ε → π}
    (hpart : ∀ e x, c e = some x → part x.1 = partOf e) (b : π) :
    {k | part k = b ∧ (m k).isSome}.ncard = {e | partOf e = b ∧ (c e).isSome}.ncard := by
  symm
  refine Set.ncard_congr (fun e he ↦ ((c e).get he.2).1) ?_ ?_ ?_
  · intro e he
    have hc : c e = some ((c e).get he.2) := (Option.some_get _).symm
    refine ⟨(hpart e _ hc).trans he.1, ?_⟩
    rw [Option.isSome_iff_exists]
    exact ⟨_, (h _ _).mpr ⟨e, hc⟩⟩
  · intro e e' he he' hkey
    exact hd (Option.some_get he.2).symm (Option.some_get he'.2).symm hkey
  · rintro k ⟨hk, hsome⟩
    obtain ⟨v, hv⟩ := Option.isSome_iff_exists.mp hsome
    obtain ⟨e, he⟩ := (h k v).mp hv
    have hget : (c e).isSome := by rw [he]; rfl
    refine ⟨e, ⟨(hpart e _ he).symm.trans hk, hget⟩, ?_⟩
    simp only [he, Option.get_some]

end FpgaOs.SlotMap
