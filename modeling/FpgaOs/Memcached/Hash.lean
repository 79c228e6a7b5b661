import FpgaOs.Lib.Commuting
import FpgaOs.Lib.Lookup3
import FpgaOs.Memcached.Concurrency
import Mathlib.Tactic.IntervalCases

/-!
# Hashing keys

`hash` is two functions with streams between them. A key comes in words of 16 bytes, and
`hashKeyResizer` makes words of 12 bytes from them: three words give four, so it has a state for
each place at which a word can begin, and one for what is left over at the end of a key. `bobj`
takes a word of 12 bytes at a time and mixes it in, in several calls for each.

What comes out is the hash function of `Lookup3` (`KeyResizer.exists_runs_keys` and
`Bobj.exists_runs_keys`), up to a key that ends in the state `KS_STEP0`. This is where a word begins
that is a whole number of three words away from the beginning of its key. Of the places where a key
can end it is the only one from which `hashKeyResizer` does not return to `KS_IDLE`; it takes the
words of all later keys for more of the same one, and nothing is hashed any more.
-/

namespace FpgaOs.Memcached

open BitField Lookup3 Machine

/-! ## The code -/

/-- The streams of `hash`. -/
structure HashStreams where
  in2hash : List KeyWord := []
  in2hashKeyLength : List (BitVec 8) := []
  resizedKey : List (BitVec 96) := []
  resizedKeyLength : List (BitVec 32) := []
  resizedInitValue : List (BitVec 32) := []
  hash2cc : List (BitVec 32) := []
  deriving DecidableEq

/-- `enum ksState`. -/
inductive KsState
  | idle
  | step1
  | step2
  | step3
  | step0
  | residue
  | residue1
  | residue2
  deriving DecidableEq

/-- The static variables of `hashKeyResizer`. -/
structure KeyResizer where
  state : KsState := .idle
  keyResizerLength : BitVec 8 := 0
  resizedKeyOutput : BitVec 96 := 0
  tempInput : KeyWord := ⟨0, false⟩
  deriving DecidableEq

def hashFunctionSeed : BitVec 32 := 13

def hashKeyResizer (s : KeyResizer) (q : HashStreams) : KeyResizer × HashStreams :=
  match s.state with
  | .idle =>
    match q.in2hashKeyLength, q.in2hash with
    | keyResizerLength :: in2hashKeyLength, tempInput :: in2hash =>
      let resizedKeyOutput : BitVec 96 := slice tempInput.data 0 96
      (⟨if 12 < keyResizerLength then if tempInput.eop then .residue else .step1 else .idle,
          keyResizerLength, resizedKeyOutput, tempInput⟩,
        { q with
          in2hashKeyLength
          in2hash
          resizedKeyLength := q.resizedKeyLength ++ [keyResizerLength.setWidth 32]
          resizedInitValue := q.resizedInitValue ++ [hashFunctionSeed]
          resizedKey := q.resizedKey ++ [resizedKeyOutput] })
    | _, _ => (s, q)
  | .step1 =>
    match q.in2hash with
    | [] => (s, q)
    | tempInput :: in2hash =>
      let keyResizerLength := s.keyResizerLength - 16
      let resizedKeyOutput := setSlice (setSlice s.resizedKeyOutput 0
        (slice s.tempInput.data 96 32)) 32 (slice tempInput.data 0 64)
      (⟨if 8 < keyResizerLength then if tempInput.eop then .residue1 else .step2 else .idle,
          keyResizerLength, resizedKeyOutput, tempInput⟩,
        { q with in2hash, resizedKey := q.resizedKey ++ [resizedKeyOutput] })
  | .step2 =>
    match q.in2hash with
    | [] => (s, q)
    | tempInput :: in2hash =>
      let keyResizerLength := s.keyResizerLength - 16
      let resizedKeyOutput := setSlice (setSlice s.resizedKeyOutput 0
        (slice s.tempInput.data 64 64)) 64 (slice tempInput.data 0 32)
      (⟨if 4 < keyResizerLength then if tempInput.eop then .residue2 else .step3 else .idle,
          keyResizerLength, resizedKeyOutput, tempInput⟩,
        { q with in2hash, resizedKey := q.resizedKey ++ [resizedKeyOutput] })
  | .step3 =>
    let keyResizerLength := s.keyResizerLength - 16
    let resizedKeyOutput : BitVec 96 := slice s.tempInput.data 32 96
    ({ s with state := if 0 < keyResizerLength then .step0 else .idle
              keyResizerLength
              resizedKeyOutput },
      { q with resizedKey := q.resizedKey ++ [resizedKeyOutput] })
  | .step0 =>
    match q.in2hash with
    | [] => (s, q)
    | tempInput :: in2hash =>
      let resizedKeyOutput : BitVec 96 := slice tempInput.data 0 96
      ({ s with state := if 12 < s.keyResizerLength then
                  if tempInput.eop then .residue else .step1 else .step0
                resizedKeyOutput
                tempInput },
        { q with in2hash, resizedKey := q.resizedKey ++ [resizedKeyOutput] })
  | .residue =>
    let resizedKeyOutput := setSlice s.resizedKeyOutput 0 (slice s.tempInput.data 96 32)
    ({ s with state := .idle, resizedKeyOutput },
      { q with resizedKey := q.resizedKey ++ [resizedKeyOutput] })
  | .residue1 =>
    let resizedKeyOutput := setSlice s.resizedKeyOutput 0 (slice s.tempInput.data 64 64)
    ({ s with state := .idle, resizedKeyOutput },
      { q with resizedKey := q.resizedKey ++ [resizedKeyOutput] })
  | .residue2 =>
    let resizedKeyOutput : BitVec 96 := slice s.tempInput.data 32 96
    ({ s with state := .idle, resizedKeyOutput },
      { q with resizedKey := q.resizedKey ++ [resizedKeyOutput] })

/-- `enum hS`. -/
inductive HashState
  | idle
  | acc1
  | acc2
  | acc3
  | acc4
  | final
  | finalMix1
  | finalMix2
  | finalMix3
  | finalMix4
  deriving DecidableEq

/-- The static variables of `bobj`. -/
structure Bobj where
  state : HashState := .idle
  a : BitVec 32 := 0
  b : BitVec 32 := 0
  c : BitVec 32 := 0
  length : ℕ := 0
  deriving DecidableEq

/-- `switch(length)`: what is added for the last word of a key. -/
def Bobj.addLast (s : Bobj) (inputWord : BitVec 96) : Bobj :=
  let w0 : BitVec 32 := slice inputWord 0 32
  let w1 : BitVec 32 := slice inputWord 32 32
  let w2 : BitVec 32 := slice inputWord 64 32
  match s.length with
  | 12 => { s with a := s.a + w0, b := s.b + w1, c := s.c + w2 }
  | 11 => { s with a := s.a + w0, b := s.b + w1, c := s.c + (w2 &&& 0xffffff) }
  | 10 => { s with a := s.a + w0, b := s.b + w1, c := s.c + (w2 &&& 0xffff) }
  | 9 => { s with a := s.a + w0, b := s.b + w1, c := s.c + (w2 &&& 0xff) }
  | 8 => { s with a := s.a + w0, b := s.b + w1 }
  | 7 => { s with a := s.a + w0, b := s.b + (w1 &&& 0xffffff) }
  | 6 => { s with a := s.a + w0, b := s.b + (w1 &&& 0xffff) }
  | 5 => { s with a := s.a + w0, b := s.b + (w1 &&& 0xff) }
  | 4 => { s with a := s.a + w0 }
  | 3 => { s with a := s.a + (w0 &&& 0xffffff) }
  | 2 => { s with a := s.a + (w0 &&& 0xffff) }
  | 1 => { s with a := s.a + (w0 &&& 0xff) }
  | _ => s

def bobj (s : Bobj) (q : HashStreams) : Bobj × HashStreams :=
  match s.state with
  | .idle =>
    match q.resizedKeyLength, q.resizedInitValue with
    | length :: resizedKeyLength, initval :: resizedInitValue =>
      let x := 0xdeadbeef + length + initval
      (⟨if 12 < length.toNat then .acc1 else .final, x, x, x, length.toNat⟩,
        { q with resizedKeyLength, resizedInitValue })
    | _, _ => (s, q)
  | .acc1 =>
    match q.resizedKey with
    | [] => (s, q)
    | inputWord :: resizedKey =>
      let a := s.a + slice inputWord 0 32
      let b := s.b + slice inputWord 32 32
      let c := s.c + slice inputWord 64 32
      ({ s with state := .acc2, a := (a - c) ^^^ rot c 4, b, c := c + b }, { q with resizedKey })
  | .acc2 =>
    let b := (s.b - s.a) ^^^ rot s.a 6
    let a := s.a + s.c
    let c := (s.c - b) ^^^ rot b 8
    ({ s with state := .acc3, a, b := b + a, c }, q)
  | .acc3 =>
    let a := (s.a - s.c) ^^^ rot s.c 16
    let c := s.c + s.b
    let b := (s.b - a) ^^^ rot a 19
    ({ s with state := .acc4, a := a + c, b, c }, q)
  | .acc4 =>
    let c := (s.c - s.b) ^^^ rot s.b 4
    let length := s.length - 12
    ({ s with state := if 12 < length then .acc1 else .final, b := s.b + s.a, c, length }, q)
  | .final =>
    if s.length = 0 then ({ s with state := .idle }, { q with hash2cc := q.hash2cc ++ [s.c] })
    else
      match q.resizedKey with
      | [] => (s, q)
      | inputWord :: resizedKey =>
        ({ s.addLast inputWord with state := .finalMix1 },
          if s.length ≤ 12 then { q with resizedKey } else q)
  | .finalMix1 =>
    let c := (s.c ^^^ s.b) - rot s.b 14
    ({ s with state := .finalMix2, a := (s.a ^^^ c) - rot c 11, c }, q)
  | .finalMix2 =>
    let b := (s.b ^^^ s.a) - rot s.a 25
    ({ s with state := .finalMix3, b, c := (s.c ^^^ b) - rot b 16 }, q)
  | .finalMix3 =>
    let a := (s.a ^^^ s.c) - rot s.c 4
    ({ s with state := .finalMix4, a, b := (s.b ^^^ a) - rot a 14 }, q)
  | .finalMix4 =>
    let c := (s.c ^^^ s.b) - rot s.b 24
    ({ s with state := .idle, c }, { q with hash2cc := q.hash2cc ++ [c] })

/-! ## Lengths -/

theorem ofNat_lt {k n : ℕ} (hk : k < 256) (hn : n < 256) :
    BitVec.ofNat 8 k < BitVec.ofNat 8 n ↔ k < n := by
  rw [BitVec.lt_def, BitVec.toNat_ofNat, BitVec.toNat_ofNat, Nat.mod_eq_of_lt hk,
    Nat.mod_eq_of_lt hn]

theorem ofNat_sub {k n : ℕ} (h : k ≤ n) :
    BitVec.ofNat 8 n - BitVec.ofNat 8 k = BitVec.ofNat 8 (n - k) := by
  obtain ⟨m, rfl⟩ := Nat.exists_eq_add_of_le h
  rw [Nat.add_sub_cancel_left, BitVec.ofNat_add]
  exact (BitVec.add_comm ..).symm ▸ BitVec.add_sub_cancel ..

/-! ## Keys -/

/-- A key has 1 to 255 bytes. -/
structure IsKey (key : List (BitVec 8)) : Prop where
  ne_nil : key ≠ []
  length_lt : key.length < 256

/-- After a key of this length `hashKeyResizer` stays in `KS_STEP0`. -/
def Stalls (length : ℕ) : Prop := 48 < length ∧ (length - 1) % 48 < 12

instance : DecidablePred Stalls := fun _ ↦ inferInstanceAs (Decidable (_ ∧ _))

/-- The keys that are hashed: those up to the first one of such a length. -/
def hashed : List (List (BitVec 8)) → List (List (BitVec 8))
  | [] => []
  | key :: keys => key :: if Stalls key.length then [] else hashed keys

theorem hashed_isPrefix (keys : List (List (BitVec 8))) : hashed keys <+: keys := by
  induction keys with
  | nil => exact List.prefix_rfl
  | cons key keys ih =>
    rw [hashed]
    split
    · exact ⟨keys, rfl⟩
    · exact List.prefix_cons_inj key |>.mpr ih

/-- All keys are hashed when there is no such length, except perhaps that of the last one. -/
theorem hashed_eq {keys : List (List (BitVec 8))} (h : ∀ key ∈ keys.dropLast, ¬Stalls key.length) :
    hashed keys = keys := by
  induction keys with
  | nil => rfl
  | cons key keys ih =>
    cases keys with
    | nil =>
      rw [hashed]
      split <;> rfl
    | cons key' keys =>
      obtain ⟨hkey, hkeys⟩ := List.forall_mem_cons.mp h
      rw [hashed, if_neg hkey, ih hkeys]

/-! ## `bobj` -/

namespace Bobj

variable (s : Bobj) (q : HashStreams)

/-- A call does something. -/
def Able : Prop :=
  match s.state with
  | .idle => q.resizedKeyLength ≠ [] ∧ q.resizedInitValue ≠ []
  | .acc1 => q.resizedKey ≠ []
  | .final => s.length = 0 ∨ q.resizedKey ≠ []
  | _ => True

/-- The calls of `bobj` alone. -/
def Runs : Bobj × HashStreams → Bobj × HashStreams → Prop :=
  Reaches (fun x (_ : Unit) ↦ bobj x.1 x.2) fun x _ ↦ x.1.Able x.2

def acc : Acc := ⟨s.a, s.b, s.c⟩

variable {s q}

theorem Runs.call (h : s.Able q) {y : Bobj × HashStreams} (hrest : Runs (bobj s q) y) :
    Runs (s, q) y :=
  Reaches.head (i := ()) h hrest

theorem acc_addLast (hlen : 1 ≤ s.length ∧ s.length ≤ 12) (w : BitVec 96) :
    (s.addLast w).acc = s.acc.add ((bytes 12 w).take s.length) := by
  obtain ⟨state, a, b, c, length⟩ := s
  dsimp only at hlen
  have h0 := le32_drop_take (by decide : 0 + 4 ≤ 12) w length
  have h1 := le32_drop_take (by decide : 4 + 4 ≤ 12) w length
  have h2 := le32_drop_take (by decide : 8 + 4 ≤ 12) w length
  rw [List.drop_zero] at h0
  rw [acc, acc, Acc.add]
  dsimp only
  rw [h0, h1, h2]
  have hall : ∀ x : BitVec 32, x &&& 4294967295#32 = x := fun _ ↦ BitVec.and_allOnes
  obtain ⟨hlow, hhigh⟩ := hlen
  -- each case of the `switch`
  interval_cases length <;> simp [addLast, hall]

theorem exists_runs_acc {w : BitVec 96} {rest : List (BitVec 96)} {s : Bobj} {q : HashStreams}
    (hstate : s.state = .acc1) (hq : q.resizedKey = w :: rest) :
    ∃ t : Bobj, t.state = (if 12 < t.length then .acc1 else .final) ∧ t.length = s.length - 12
      ∧ t.acc = (s.acc.add (bytes 12 w)).mix ∧ Runs (s, q) (t, { q with resizedKey := rest }) := by
  obtain ⟨_, a, b, c, length⟩ := s
  obtain rfl := hstate
  obtain ⟨in2hash, lengths, keys, keyLengths, inits, out⟩ := q
  obtain rfl : keys = w :: rest := hq
  have h0 := le32_drop (by decide : 0 + 4 ≤ 12) w
  have h1 := le32_drop (by decide : 4 + 4 ≤ 12) w
  have h2 := le32_drop (by decide : 8 + 4 ≤ 12) w
  rw [List.drop_zero] at h0
  refine ⟨_, ?_, ?_, ?_, .call ?_ (.call ?_ (.call ?_ (.call ?_ (Reaches.refl _))))⟩
  · rfl
  · rfl
  · rw [acc, Acc.add, h0, h1, h2]
    rfl
  · exact List.cons_ne_nil _ _
  all_goals trivial

theorem exists_runs_mix {s : Bobj} (hstate : s.state = .finalMix1) (q : HashStreams) :
    ∃ t : Bobj, t.state = .idle
      ∧ Runs (s, q) (t, { q with hash2cc := q.hash2cc ++ [s.acc.final] }) := by
  obtain ⟨_, a, b, c, length⟩ := s
  obtain rfl := hstate
  refine ⟨_, ?_, .call ?_ (.call ?_ (.call ?_ (.call ?_ (Reaches.refl _))))⟩
  · rfl
  all_goals trivial

theorem exists_runs_final {key : List (BitVec 8)} {w : BitVec 96} {rest : List (BitVec 96)}
    {s : Bobj} (hkey : key ≠ []) (hle : key.length ≤ 12) (hw : (bytes 12 w).take key.length = key)
    (hstate : s.state = .final) (hlen : s.length = key.length) (hq : q.resizedKey = w :: rest) :
    ∃ t : Bobj, t.state = .idle ∧ Runs (s, q)
      (t, { q with resizedKey := rest, hash2cc := q.hash2cc ++ [(s.acc.add key).final] }) := by
  have hpos : 1 ≤ key.length := List.length_pos_iff.mpr hkey
  have hadd := acc_addLast ⟨hlen.symm ▸ hpos, hlen.symm ▸ hle⟩ w
  rw [hlen, hw] at hadd
  have hcall : bobj s q
      = ({ s.addLast w with state := .finalMix1 }, { q with resizedKey := rest }) := by
    rw [bobj, hstate]
    dsimp only
    rw [if_neg (by omega), hq]
    dsimp only
    rw [if_pos (by omega)]
  obtain ⟨t, hidle, hruns⟩ := @exists_runs_mix { s.addLast w with state := .finalMix1 } rfl
    { q with resizedKey := rest }
  refine ⟨t, hidle, .call ?_ ?_⟩
  · rw [Able, hstate]
    exact .inr (hq ▸ List.cons_ne_nil _ _)
  · rw [hcall, ← hadd]
    exact hruns

theorem exists_runs_absorb {key : List (BitVec 8)} {cs : List (BitVec 96)} (hkey : key ≠ [])
    (hfills : Fills 12 key (cs.map (bytes 12))) {rest : List (BitVec 96)} {s : Bobj}
    {q : HashStreams} (hstate : s.state = if 12 < key.length then .acc1 else .final)
    (hlen : s.length = key.length) (hq : q.resizedKey = cs ++ rest) :
    ∃ t : Bobj, t.state = .idle ∧ Runs (s, q)
      (t, { q with resizedKey := rest, hash2cc := q.hash2cc ++ [absorb s.acc key] }) := by
  induction cs generalizing key s q with
  | nil => exact absurd hfills hkey
  | cons w cs ih =>
    rw [absorb]
    by_cases hlt : 12 < key.length
    · rw [if_pos hlt] at hstate ⊢
      obtain ⟨hw, hrest, -⟩ := hfills.of_lt hlt
      have hdrop : key.drop 12 ≠ [] := by
        rw [Ne, List.drop_eq_nil_iff]
        omega
      obtain ⟨t, hstate', hlen', hacc, hruns⟩ := exists_runs_acc hstate hq
      have hlength : t.length = (key.drop 12).length := by rw [hlen', hlen, List.length_drop]
      rw [hlength] at hstate'
      obtain ⟨u, hidle, hruns'⟩ := @ih _ hdrop hrest t { q with resizedKey := cs ++ rest } hstate'
        hlength rfl
      rw [hacc, hw, Acc.add_take _ le_rfl] at hruns'
      exact ⟨u, hidle, hruns.trans hruns'⟩
    · rw [if_neg hlt] at hstate ⊢
      rw [if_neg hkey]
      obtain ⟨hcs, hw⟩ := hfills.of_le (Nat.not_lt.mp hlt)
      obtain rfl := List.map_eq_nil_iff.mp hcs
      exact exists_runs_final hkey (Nat.not_lt.mp hlt) hw hstate hlen hq


/-- **A key.** -/
theorem exists_runs_key {key : List (BitVec 8)} {cs : List (BitVec 96)} (hkey : key ≠ [])
    (hlt : key.length < 256) (hfills : Fills 12 key (cs.map (bytes 12))) {rest : List (BitVec 96)}
    {lengths inits : List (BitVec 32)} {s : Bobj} {q : HashStreams} (hstate : s.state = .idle)
    (hq : q.resizedKey = cs ++ rest)
    (hlengths : q.resizedKeyLength = .ofNat 32 key.length :: lengths)
    (hinits : q.resizedInitValue = hashFunctionSeed :: inits) :
    ∃ t : Bobj, t.state = .idle ∧ Runs (s, q)
      (t, { q with
        resizedKey := rest
        resizedKeyLength := lengths
        resizedInitValue := inits
        hash2cc := q.hash2cc ++ [Lookup3.hash key hashFunctionSeed] }) := by
  have hlen : (BitVec.ofNat 32 key.length).toNat = key.length := by
    rw [BitVec.toNat_ofNat]
    exact Nat.mod_eq_of_lt (by omega)
  have hcall : bobj s q = (⟨if 12 < key.length then .acc1 else .final,
      (init key.length hashFunctionSeed).a, (init key.length hashFunctionSeed).b,
      (init key.length hashFunctionSeed).c, key.length⟩,
      { q with resizedKeyLength := lengths, resizedInitValue := inits }) := by
    rw [bobj, hstate]
    dsimp only
    rw [hlengths, hinits]
    dsimp only
    rw [hlen]
    rfl
  obtain ⟨t, hidle, hruns⟩ := @exists_runs_absorb key cs hkey hfills rest (bobj s q).1 (bobj s q).2
    (by rw [hcall]) (by rw [hcall]) (by rw [hcall]; exact hq)
  refine ⟨t, hidle, .call ?_ ?_⟩
  · rw [Able, hstate]
    dsimp only
    rw [hlengths, hinits]
    exact ⟨List.cons_ne_nil _ _, List.cons_ne_nil _ _⟩
  · rw [hcall] at hruns ⊢
    exact hruns

/-- **Keys.** Every one is hashed. -/
theorem exists_runs_keys {keys : List (List (BitVec 8))} {css : List (List (BitVec 96))}
    (hkeys : ∀ key ∈ keys, IsKey key)
    (hfills : List.Forall₂ (fun key cs ↦ Fills 12 key (cs.map (bytes 12))) keys css)
    {rest : List (BitVec 96)} {s : Bobj} {q : HashStreams} (hstate : s.state = .idle)
    (hq : q.resizedKey = css.flatten ++ rest)
    (hlengths : q.resizedKeyLength = keys.map fun key ↦ .ofNat 32 key.length)
    (hinits : q.resizedInitValue = keys.map fun _ ↦ hashFunctionSeed) :
    ∃ t : Bobj, t.state = .idle ∧ Runs (s, q)
      (t, { q with
        resizedKey := rest
        resizedKeyLength := []
        resizedInitValue := []
        hash2cc := q.hash2cc ++ keys.map fun key ↦ Lookup3.hash key hashFunctionSeed }) := by
  induction hfills generalizing s q with
  | nil =>
    obtain ⟨in2hash, in2hashKeyLength, resizedKey, lengths, inits, out⟩ := q
    obtain rfl : resizedKey = rest := hq
    obtain rfl : lengths = [] := hlengths
    obtain rfl : inits = [] := hinits
    refine ⟨s, hstate, ?_⟩
    rw [List.map_nil, List.append_nil]
    exact Reaches.refl _
  | @cons key cs keys css hfill _ ih =>
    obtain ⟨hkey, hkeys⟩ := List.forall_mem_cons.mp hkeys
    rw [List.flatten_cons, List.append_assoc] at hq
    obtain ⟨t, hidle, hruns⟩ :=
      exists_runs_key hkey.ne_nil hkey.length_lt hfill hstate hq hlengths hinits
    obtain ⟨u, hidle', hruns'⟩ := @ih hkeys t { q with
      resizedKey := css.flatten ++ rest
      resizedKeyLength := keys.map fun key ↦ .ofNat 32 key.length
      resizedInitValue := keys.map fun _ ↦ hashFunctionSeed
      hash2cc := q.hash2cc ++ [Lookup3.hash key hashFunctionSeed] } hidle rfl rfl rfl
    refine ⟨u, hidle', hruns.trans ?_⟩
    rwa [List.append_assoc] at hruns'

/-! ### What a call reads -/

/-- With these streams, and with more words in them, a call leaves `keys`, `lengths` and `inits` of
the first ones, and puts out `out`. -/
def Calls (s : Bobj) (q : HashStreams) (t : Bobj) (keys : List (BitVec 96))
    (lengths inits out : List (BitVec 32)) : Prop :=
  ∀ (q' : HashStreams) xs ys zs, q'.resizedKey = q.resizedKey ++ xs →
    q'.resizedKeyLength = q.resizedKeyLength ++ ys →
    q'.resizedInitValue = q.resizedInitValue ++ zs →
    s.Able q' ∧ bobj s q' = (t, { q' with
      resizedKey := keys ++ xs
      resizedKeyLength := lengths ++ ys
      resizedInitValue := inits ++ zs
      hash2cc := q'.hash2cc ++ out })

theorem calls_of_forall {out : List (BitVec 32)} (q : HashStreams)
    (h : ∀ q', s.Able q' ∧ bobj s q' = ((bobj s q).1, { q' with hash2cc := q'.hash2cc ++ out })) :
    s.Calls q (bobj s q).1 q.resizedKey q.resizedKeyLength q.resizedInitValue out := by
  intro q' xs ys zs hkeys hlengths hinits
  rw [← hkeys, ← hlengths, ← hinits]
  exact h q'

theorem calls_of_none (q : HashStreams)
    (h : ∀ q', s.Able q' ∧ bobj s q' = ((bobj s q).1, q')) :
    s.Calls q (bobj s q).1 q.resizedKey q.resizedKeyLength q.resizedInitValue [] := by
  refine calls_of_forall q fun q' ↦ ?_
  rw [List.append_nil]
  exact h q'

/-- A call looks only at the words that come first. -/
theorem exists_calls (h : s.Able q) :
    ∃ t keys lengths inits out, s.Calls q t keys lengths inits out := by
  suffices hcalls : ∃ keys lengths inits out, s.Calls q (bobj s q).1 keys lengths inits out from
    ⟨_, hcalls⟩
  obtain ⟨state, a, b, c, length⟩ := s
  obtain ⟨in2hash, in2hashKeyLength, keys, lengths, inits, out⟩ := q
  cases state with
  | idle =>
    obtain ⟨l, lengths, rfl⟩ := List.exists_cons_of_ne_nil h.1
    obtain ⟨x, inits, rfl⟩ := List.exists_cons_of_ne_nil h.2
    refine ⟨keys, lengths, inits, [], fun q' xs ys zs hkeys hlengths hinits ↦ ?_⟩
    rw [Able, bobj, hlengths, hinits, List.append_nil, ← hkeys]
    exact ⟨⟨List.cons_ne_nil _ _, List.cons_ne_nil _ _⟩, rfl⟩
  | acc1 =>
    obtain ⟨w, keys, rfl⟩ := List.exists_cons_of_ne_nil h
    refine ⟨keys, lengths, inits, [], fun q' xs ys zs hkeys hlengths hinits ↦ ?_⟩
    rw [Able, bobj, hkeys, List.append_nil, ← hlengths, ← hinits]
    exact ⟨List.cons_ne_nil _ _, rfl⟩
  | final =>
    by_cases hzero : length = 0
    · subst hzero
      exact ⟨_, _, _, [c], calls_of_forall _ fun q' ↦ ⟨.inl rfl, rfl⟩⟩
    · obtain ⟨w, keys, rfl⟩ := List.exists_cons_of_ne_nil (h.resolve_left hzero)
      by_cases hle : length ≤ 12
      · refine ⟨keys, lengths, inits, [], fun q' xs ys zs hkeys hlengths hinits ↦ ?_⟩
        rw [List.cons_append] at hkeys
        rw [Able, bobj, bobj, List.append_nil, ← hlengths, ← hinits]
        simp only [if_neg hzero, hkeys, if_pos hle]
        exact ⟨.inr (List.cons_ne_nil _ _), trivial⟩
      · -- such a word would be left for the next call
        refine ⟨w :: keys, lengths, inits, [], fun q' xs ys zs hkeys hlengths hinits ↦ ?_⟩
        rw [List.cons_append] at hkeys
        rw [Able, bobj, bobj, List.append_nil, ← hlengths, ← hinits]
        simp only [if_neg hzero, hkeys, if_neg hle]
        refine ⟨.inr (List.cons_ne_nil _ _), ?_⟩
        rw [List.cons_append, ← hkeys]
  | acc2 => exact ⟨_, _, _, _, calls_of_none _ fun q' ↦ ⟨trivial, rfl⟩⟩
  | acc3 => exact ⟨_, _, _, _, calls_of_none _ fun q' ↦ ⟨trivial, rfl⟩⟩
  | acc4 => exact ⟨_, _, _, _, calls_of_none _ fun q' ↦ ⟨trivial, rfl⟩⟩
  | finalMix1 => exact ⟨_, _, _, _, calls_of_none _ fun q' ↦ ⟨trivial, rfl⟩⟩
  | finalMix2 => exact ⟨_, _, _, _, calls_of_none _ fun q' ↦ ⟨trivial, rfl⟩⟩
  | finalMix3 => exact ⟨_, _, _, _, calls_of_none _ fun q' ↦ ⟨trivial, rfl⟩⟩
  | finalMix4 => exact ⟨_, _, _, _, calls_of_forall _ fun q' ↦ ⟨trivial, rfl⟩⟩

theorem bobj_of_not (h : ¬s.Able q) : bobj s q = (s, q) := by
  rw [Able] at h
  rw [bobj]
  cases hst : s.state with
  | idle =>
    rw [hst] at h
    dsimp only at h ⊢
    split
    · next hlengths hin =>
      exact absurd ⟨hlengths ▸ List.cons_ne_nil _ _, hin ▸ List.cons_ne_nil _ _⟩ h
    · rfl
  | acc1 =>
    rw [hst] at h
    rw [not_ne_iff.mp h]
  | final =>
    rw [hst] at h
    obtain ⟨hzero, hnil⟩ := not_or.mp h
    dsimp only
    rw [if_neg hzero, not_ne_iff.mp hnil]
  | acc2 | acc3 | acc4 | finalMix1 | finalMix2 | finalMix3 | finalMix4 =>
    rw [hst] at h
    exact absurd trivial h

end Bobj

/-! ## `hashKeyResizer` -/

/-- The words of a key, of 16 bytes each, the last one marked. -/
structure Spells (key : List (BitVec 8)) (ws : List KeyWord) : Prop where
  fills : Fills 16 key (ws.map fun w ↦ bytes 16 w.data)
  marked : Marked (fun w : KeyWord ↦ w.eop = true) ws

section Spells

variable {key : List (BitVec 8)} {w : KeyWord} {ws : List KeyWord}

theorem Spells.of_le (h : Spells key (w :: ws)) (hle : key.length ≤ 16) :
    ws = [] ∧ w.eop = true ∧ (bytes 16 w.data).take key.length = key := by
  obtain ⟨hws, hw⟩ := h.fills.of_le hle
  obtain rfl := List.map_eq_nil_iff.mp hws
  exact ⟨rfl, h.marked, hw⟩

theorem Spells.of_lt (h : Spells key (w :: ws)) (hlt : 16 < key.length) :
    w.eop = false ∧ bytes 16 w.data = key.take 16 ∧ Spells (key.drop 16) ws := by
  obtain ⟨hw, hrest, hne⟩ := h.fills.of_lt hlt
  obtain ⟨rfl, -⟩ | ⟨hlast, hmarked⟩ := marked_cons.mp h.marked
  · exact absurd rfl hne
  · exact ⟨Bool.not_eq_true _ ▸ hlast, hw, hrest, hmarked⟩

theorem Spells.exists_cons (h : Spells key ws) : ∃ w ws', ws = w :: ws' :=
  List.exists_cons_of_ne_nil h.marked.ne_nil

theorem Spells.agree (h : Spells key (w :: ws)) : Agree (bytes 16 w.data) key := by
  rw [agree_iff, length_bytes]
  exact h.fills.2.2.1

theorem Spells.eop_iff (h : Spells key (w :: ws)) : w.eop = true ↔ key.length ≤ 16 := by
  refine ⟨fun heop ↦ Nat.not_lt.mp fun hlt ↦ ?_, fun hle ↦ (h.of_le hle).2.1⟩
  exact Bool.false_ne_true ((h.of_lt hlt).1.symm.trans heop)

end Spells

namespace KeyResizer

variable (s : KeyResizer) (q : HashStreams)

/-- A call does something. -/
def Able : Prop :=
  match s.state with
  | .idle => q.in2hashKeyLength ≠ [] ∧ q.in2hash ≠ []
  | .step1 | .step2 | .step0 => q.in2hash ≠ []
  | _ => True

/-- The calls of `hashKeyResizer` alone. -/
def Runs : KeyResizer × HashStreams → KeyResizer × HashStreams → Prop :=
  Reaches (fun x (_ : Unit) ↦ hashKeyResizer x.1 x.2) fun x _ ↦ x.1.Able x.2

/-- Calls of `hashKeyResizer` cut the rest of a key into words of 12 bytes and end like this. -/
def Resizes (key : List (BitVec 8)) (rest : List KeyWord) (done : KeyResizer → Prop) : Prop :=
  ∃ t cs, done t ∧ Fills 12 key (cs.map (bytes 12))
    ∧ Runs (s, q) (t, { q with in2hash := rest, resizedKey := q.resizedKey ++ cs })

variable {s q} {key : List (BitVec 8)} {rest : List KeyWord} {done : KeyResizer → Prop}

theorem Runs.call (h : s.Able q) {y : KeyResizer × HashStreams}
    (hrest : Runs (hashKeyResizer s q) y) : Runs (s, q) y :=
  Reaches.head (i := ()) h hrest

theorem Resizes.nil (hdone : done s) (hq : q.in2hash = rest) : Resizes s q [] rest done := by
  refine ⟨s, [], hdone, rfl, ?_⟩
  rw [List.append_nil, ← hq]
  exact Reaches.refl _

theorem Resizes.cons {o : ℕ} {t : KeyResizer} {tail : List KeyWord} {c : BitVec 96} (h : s.Able q)
    (hcall : hashKeyResizer s q = (t, { q with
      in2hash := tail
      resizedKey := q.resizedKey ++ [c] }))
    (ho : o < key.length) (hc : Agree (bytes 12 c) (key.drop o))
    (hrest : Resizes t { q with in2hash := tail, resizedKey := q.resizedKey ++ [c] }
      (key.drop (o + 12)) rest done) : Resizes s q (key.drop o) rest done := by
  obtain ⟨u, cs, hdone, hfills, hruns⟩ := hrest
  have hagree := agree_iff.mp hc
  rw [length_bytes] at hagree
  rw [← List.drop_drop] at hfills
  refine ⟨u, c :: cs, hdone, ⟨?_, length_bytes _ _, hagree, hfills⟩, .call h ?_⟩
  · rw [Ne, List.drop_eq_nil_iff]
    omega
  · rw [hcall]
    rwa [List.append_assoc] at hruns

theorem Resizes.last {o : ℕ} {t : KeyResizer} {c : BitVec 96} (h : s.Able q)
    (hcall : hashKeyResizer s q = (t, { q with
      in2hash := rest
      resizedKey := q.resizedKey ++ [c] }))
    (ho : o < key.length) (hle : key.length ≤ o + 12) (hc : Agree (bytes 12 c) (key.drop o))
    (hdone : done t) : Resizes s q (key.drop o) rest done := by
  refine .cons h hcall ho hc ?_
  rw [List.drop_of_length_le hle]
  exact .nil hdone rfl

/-! ### The bytes of the words -/

section Bytes

variable {w w' : BitVec 128} {o k m : ℕ}

/-- The word is a part of one word of the key. -/
theorem agree_slice (ho : o + 12 ≤ 16) (h : Agree (bytes 16 w) key) :
    Agree (bytes 12 (slice w (8 * o) (8 * 12))) (key.drop o) := by
  rw [bytes_slice ho]
  exact (h.drop o).take 12

theorem length_take_drop_bytes (ho : o + k = 16) (w : BitVec 128) :
    (((bytes 16 w).drop o).take k).length = k := by
  rw [List.length_take, List.length_drop, length_bytes]
  omega

theorem agree_setSlice_setSlice (ho : o + k = 16) (hm : k + m = 12) (out : BitVec 96)
    (h : Agree (bytes 16 w) key) (h' : Agree (bytes 16 w') (key.drop 16)) :
    Agree (bytes 12 (setSlice (setSlice out 0 (slice w (8 * o) (8 * k))) (8 * k)
      (slice w' 0 (8 * m)))) (key.drop o) := by
  have hset := bytes_setSlice_setSlice (by omega) out (slice w (8 * o) (8 * k))
    (slice w' (8 * 0) (8 * m))
  rw [hm, bytes_slice (Nat.le_of_eq ho), bytes_slice (by omega : 0 + m ≤ 16), List.drop_zero]
    at hset
  rw [hset]
  refine ((h.drop o).take k).append ?_
  rw [length_take_drop_bytes ho, List.drop_drop, ho]
  exact h'.take m

theorem agree_setSlice (ho : o + k = 16) (hk : k ≤ 12) (hlen : key.length ≤ 16) (out : BitVec 96)
    (h : Agree (bytes 16 w) key) :
    Agree (bytes 12 (setSlice out 0 (slice w (8 * o) (8 * k)))) (key.drop o) := by
  have hset := @bytes_setSlice 96 k 12 0 out (by omega) (by omega) (slice w (8 * o) (8 * k))
  rw [List.take_zero, List.nil_append, bytes_slice (Nat.le_of_eq ho)] at hset
  rw [hset]
  refine ((h.drop o).take k).append ?_
  rw [length_take_drop_bytes ho, List.drop_drop, ho, List.drop_of_length_le hlen]
  exact .nil _

end Bytes

/-! ### The states -/

/-- The rest of a key, from the word on of which a part has been put out already. -/
structure At (s : KeyResizer) (key : List (BitVec 8)) (ws : List KeyWord) : Prop where
  length : s.keyResizerLength = .ofNat 8 key.length
  bound : key.length < 256
  spells : Spells key (s.tempInput :: ws)

variable {ws : List KeyWord}

theorem resizes_step {o m : ℕ} (hm : m + 4 = o) (hat : s.At key ws) (hlt : 16 < key.length)
    {w : KeyWord} {ws' : List KeyWord} (hws : ws = w :: ws') {c : BitVec 96}
    {last next : KsState} (h : s.Able q)
    (hcall : hashKeyResizer s q
      = (⟨if BitVec.ofNat 8 m < s.keyResizerLength - 16 then if w.eop then last else next
            else .idle, s.keyResizerLength - 16, c, w⟩,
          { q with in2hash := ws' ++ rest, resizedKey := q.resizedKey ++ [c] }))
    (ho : o < 16) (hc : Agree (bytes 12 c) (key.drop o))
    (hidle : ∀ t : KeyResizer, t.state = .idle → key.length ≤ o + 12 → done t)
    (hnext : ∀ (t : KeyResizer) q', t.At (key.drop 16) ws' → q'.in2hash = ws' ++ rest →
      t.state = (if (key.drop 16).length ≤ 16 then last else next) → o + 12 < key.length →
        Resizes t q' ((key.drop 16).drop m) rest done) : Resizes s q (key.drop o) rest done := by
  obtain rfl := hws
  have hspells := (hat.spells.of_lt hlt).2.2
  have hlen : s.keyResizerLength - 16 = .ofNat 8 (key.drop 16).length := by
    rw [hat.length, List.length_drop]
    exact ofNat_sub hlt.le
  have hbound : (key.drop 16).length < 256 := by
    rw [List.length_drop]
    exact (Nat.sub_le ..).trans_lt hat.bound
  rw [hlen] at hcall
  have hdrop : (key.drop 16).length = key.length - 16 := List.length_drop
  by_cases hmore : o + 12 < key.length
  · refine .cons h hcall (by omega) hc ?_
    rw [if_pos ((ofNat_lt (by omega) hbound).mpr (by omega)),
      show o + 12 = 16 + m by omega, ← List.drop_drop]
    exact hnext _ _ ⟨rfl, hbound, hspells⟩ rfl (if_congr hspells.eop_iff rfl rfl) hmore
  · have hle := Nat.not_lt.mp hmore
    obtain ⟨rfl, -, -⟩ := hspells.of_le (by omega)
    refine .last h hcall (by omega) hle hc (hidle _ ?_ hle)
    exact if_neg (mt (ofNat_lt (by omega) hbound).mp (by omega))

theorem resizes_four (hat : s.At key ws) (hlt : 4 < key.length) (hq : q.in2hash = ws ++ rest)
    (hstate : s.state = if key.length ≤ 16 then .residue2 else .step3)
    (hidle : ∀ t : KeyResizer, t.state = .idle → key.length ≤ 16 → done t)
    (hnext : ∀ (t : KeyResizer) q', t.keyResizerLength = .ofNat 8 (key.drop 16).length →
      Spells (key.drop 16) ws → q'.in2hash = ws ++ rest → t.state = .step0 → 16 < key.length →
        Resizes t q' (key.drop 16) rest done) : Resizes s q (key.drop 4) rest done := by
  have hc : Agree (bytes 12 (slice s.tempInput.data 32 96)) (key.drop 4) :=
    agree_slice (o := 4) (by decide) hat.spells.agree
  by_cases hmore : 16 < key.length
  · rw [if_neg (Nat.not_le.mpr hmore)] at hstate
    have hdrop : (key.drop 16).length = key.length - 16 := List.length_drop
    have hbound := hat.bound
    have hlen : s.keyResizerLength - 16 = .ofNat 8 (key.drop 16).length := by
      rw [hat.length, hdrop]
      exact ofNat_sub hmore.le
    have hpos : 0 < s.keyResizerLength - 16 := by
      rw [hlen]
      exact (ofNat_lt (k := 0) (by decide) (by omega)).mpr (by omega)
    have hcall : hashKeyResizer s q = (⟨.step0, s.keyResizerLength - 16,
        slice s.tempInput.data 32 96, s.tempInput⟩, { q with
          in2hash := q.in2hash
          resizedKey := q.resizedKey ++ [slice s.tempInput.data 32 96] }) := by
      rw [hashKeyResizer, hstate]
      dsimp only
      rw [if_pos hpos]
    refine .cons ?_ hcall hlt hc ?_
    · rw [Able, hstate]
      trivial
    · exact hnext _ _ hlen (hat.spells.of_lt hmore).2.2 hq rfl hmore
  · have hle := Nat.not_lt.mp hmore
    rw [if_pos hle] at hstate
    obtain ⟨rfl, -, -⟩ := hat.spells.of_le hle
    rw [List.nil_append] at hq
    refine .last (t := { s with
        state := .idle
        resizedKeyOutput := slice s.tempInput.data 32 96 }) ?_ ?_ hlt hle hc (hidle _ rfl hle)
    · rw [Able, hstate]
      trivial
    · rw [hashKeyResizer, hstate, ← hq]

theorem resizes_eight (hat : s.At key ws) (hlt : 8 < key.length) (hq : q.in2hash = ws ++ rest)
    (hstate : s.state = if key.length ≤ 16 then .residue1 else .step2)
    (hidle : ∀ t : KeyResizer, t.state = .idle → key.length ≤ 20 → done t)
    (hnext : ∀ (t : KeyResizer) q' ws', t.At (key.drop 16) ws' → q'.in2hash = ws' ++ rest →
      t.state = (if (key.drop 16).length ≤ 16 then .residue2 else .step3) → 20 < key.length →
        Resizes t q' ((key.drop 16).drop 4) rest done) : Resizes s q (key.drop 8) rest done := by
  by_cases hmore : 16 < key.length
  · rw [if_neg (Nat.not_le.mpr hmore)] at hstate
    have hspells := (hat.spells.of_lt hmore).2.2
    obtain ⟨w, ws', rfl⟩ := hspells.exists_cons
    refine resizes_step (m := 4) rfl hat hmore rfl ?_ ?_ (by decide)
      (agree_setSlice_setSlice (o := 8) (k := 8) (m := 4) rfl rfl s.resizedKeyOutput
        hat.spells.agree hspells.agree) hidle fun t q' ↦ hnext t q' ws'
    · rw [Able, hstate, hq]
      exact List.cons_ne_nil _ _
    · rw [hashKeyResizer, hstate, hq]
      rfl
  · have hle := Nat.not_lt.mp hmore
    rw [if_pos hle] at hstate
    obtain ⟨rfl, -, -⟩ := hat.spells.of_le hle
    rw [List.nil_append] at hq
    refine .last (t := { s with
        state := .idle
        resizedKeyOutput := setSlice s.resizedKeyOutput 0 (slice s.tempInput.data 64 64) })
      ?_ ?_ hlt (by omega) (agree_setSlice (o := 8) (k := 8) rfl (by decide) hle
        s.resizedKeyOutput hat.spells.agree) (hidle _ rfl (by omega))
    · rw [Able, hstate]
      trivial
    · rw [hashKeyResizer, hstate, ← hq]

theorem resizes_twelve (hat : s.At key ws) (hlt : 12 < key.length) (hq : q.in2hash = ws ++ rest)
    (hstate : s.state = if key.length ≤ 16 then .residue else .step1)
    (hidle : ∀ t : KeyResizer, t.state = .idle → key.length ≤ 24 → done t)
    (hnext : ∀ (t : KeyResizer) q' ws', t.At (key.drop 16) ws' → q'.in2hash = ws' ++ rest →
      t.state = (if (key.drop 16).length ≤ 16 then .residue1 else .step2) → 24 < key.length →
        Resizes t q' ((key.drop 16).drop 8) rest done) : Resizes s q (key.drop 12) rest done := by
  by_cases hmore : 16 < key.length
  · rw [if_neg (Nat.not_le.mpr hmore)] at hstate
    have hspells := (hat.spells.of_lt hmore).2.2
    obtain ⟨w, ws', rfl⟩ := hspells.exists_cons
    refine resizes_step (m := 8) rfl hat hmore rfl ?_ ?_ (by decide)
      (agree_setSlice_setSlice (o := 12) (k := 4) (m := 8) rfl rfl s.resizedKeyOutput
        hat.spells.agree hspells.agree) hidle fun t q' ↦ hnext t q' ws'
    · rw [Able, hstate, hq]
      exact List.cons_ne_nil _ _
    · rw [hashKeyResizer, hstate, hq]
      rfl
  · have hle := Nat.not_lt.mp hmore
    rw [if_pos hle] at hstate
    obtain ⟨rfl, -, -⟩ := hat.spells.of_le hle
    rw [List.nil_append] at hq
    refine .last (t := { s with
        state := .idle
        resizedKeyOutput := setSlice s.resizedKeyOutput 0 (slice s.tempInput.data 96 32) })
      ?_ ?_ hlt (by omega) (agree_setSlice (o := 12) (k := 4) rfl (by decide) hle
        s.resizedKeyOutput hat.spells.agree) (hidle _ rfl (by omega))
    · rw [Able, hstate]
      trivial
    · rw [hashKeyResizer, hstate, ← hq]

theorem resizes_zero (hlength : s.keyResizerLength = .ofNat 8 key.length)
    (hbound : key.length < 256) (hpos : 0 < key.length) (hspells : Spells key ws)
    (hq : q.in2hash = ws ++ rest) (hstate : s.state = .step0)
    (hdone : ∀ t : KeyResizer, t.state = .step0 → t.keyResizerLength = .ofNat 8 key.length →
      key.length ≤ 12 → done t)
    (hnext : ∀ (t : KeyResizer) q' ws', t.At key ws' → q'.in2hash = ws' ++ rest →
      t.state = (if key.length ≤ 16 then .residue else .step1) → 12 < key.length →
        Resizes t q' (key.drop 12) rest done) : Resizes s q key rest done := by
  obtain ⟨w, ws', rfl⟩ := hspells.exists_cons
  have hcall : hashKeyResizer s q = (⟨if 12 < s.keyResizerLength then
      if w.eop then .residue else .step1 else .step0, s.keyResizerLength, slice w.data 0 96, w⟩,
      { q with in2hash := ws' ++ rest, resizedKey := q.resizedKey ++ [slice w.data 0 96] }) := by
    rw [hashKeyResizer, hstate, hq]
    rfl
  have hable : s.Able q := by
    rw [Able, hstate, hq]
    exact List.cons_ne_nil _ _
  have hc : Agree (bytes 12 (slice w.data 0 96)) (key.drop 0) :=
    agree_slice (o := 0) (by decide) hspells.agree
  rw [← @List.drop_zero _ key]
  by_cases hmore : 12 < key.length
  · refine .cons hable hcall hpos hc ?_
    rw [Nat.zero_add, if_pos (hlength ▸ (ofNat_lt (by decide) hbound).mpr hmore)]
    exact hnext _ _ ws' ⟨hlength, hbound, hspells⟩ rfl (if_congr hspells.eop_iff rfl rfl) hmore
  · have hle := Nat.not_lt.mp hmore
    obtain ⟨rfl, -, -⟩ := hspells.of_le (hle.trans (by decide))
    refine .last hable hcall hpos (by omega) hc (hdone _ (if_neg ?_) hlength hle)
    exact hlength ▸ mt (ofNat_lt (by decide) hbound).mp hmore

/-! ### A key -/

/-- How `hashKeyResizer` ends. -/
def Ends (length : ℕ) (s : KeyResizer) : Prop :=
  if Stalls length then s.state = .step0 ∧ s.keyResizerLength ≤ 12
  else s.state = .idle

theorem ends_of_idle {length : ℕ} (h : length ≤ 48) {t : KeyResizer} (ht : t.state = .idle) :
    t.Ends length := by
  rw [Ends, if_neg fun hstalls ↦ absurd hstalls.1 (Nat.not_lt.mpr h)]
  exact ht

theorem stalls_sub {length : ℕ} (h : 60 < length) : Stalls (length - 48) ↔ Stalls length := by
  rw [Stalls, Stalls]
  omega

theorem ends_sub {length : ℕ} (h : 60 < length) {t : KeyResizer} :
    t.Ends (length - 48) ↔ t.Ends length := iff_of_eq (if_congr (stalls_sub h) rfl rfl)

theorem Resizes.mono {done' : KeyResizer → Prop} (h : Resizes s q key rest done)
    (hdone : ∀ t, done t → done' t) : Resizes s q key rest done' := by
  obtain ⟨t, cs, ht, hrest⟩ := h
  exact ⟨t, cs, hdone t ht, hrest⟩

theorem resizes_rest (hat : s.At key ws) (hlt : 12 < key.length) (hq : q.in2hash = ws ++ rest)
    (hstate : s.state = if key.length ≤ 16 then .residue else .step1) :
    Resizes s q (key.drop 12) rest (Ends key.length) := by
  induction hn : key.length using Nat.strong_induction_on generalizing s q key ws with
  | _ n ih =>
    subst hn
    have hbound := hat.bound
    have hidle : ∀ {t : KeyResizer} {k : ℕ}, t.state = .idle → k ≤ 48 → key.length ≤ k →
        t.Ends key.length := fun ht hk hle ↦ ends_of_idle (hle.trans hk) ht
    refine resizes_twelve hat hlt hq hstate (fun t ht ↦ hidle ht (by decide)) ?_
    intro t q ws hat hq hstate hlt
    have hlen : (key.drop 16).length = key.length - 16 := List.length_drop
    refine resizes_eight hat (by omega) hq hstate
      (fun t ht hle ↦ hidle (k := 36) ht (by decide) (by omega)) ?_
    intro t q ws hat hq hstate hlt
    have hlen : ((key.drop 16).drop 16).length = key.length - 32 := by
      rw [List.length_drop, List.length_drop]
      omega
    refine resizes_four hat (by omega) hq hstate
      (fun t ht hle ↦ hidle (k := 48) ht (by decide) (by omega)) ?_
    intro t q hlength hspells hq hstate hlt
    have hlen : (((key.drop 16).drop 16).drop 16).length = key.length - 48 := by
      rw [List.length_drop, List.length_drop, List.length_drop]
      omega
    refine resizes_zero hlength (by omega) (by omega) hspells hq hstate ?_ ?_
    · intro t hstate hlength hle
      rw [Ends, if_pos ⟨by omega, by omega⟩]
      refine ⟨hstate, hlength ▸ BitVec.not_lt.mp (mt (ofNat_lt (by decide) (by omega)).mp ?_)⟩
      exact Nat.not_lt.mpr hle
    · intro t q ws hat hq hstate hlt
      refine (ih _ (by omega) hat hlt hq hstate rfl).mono fun t ht ↦ (ends_sub (by omega)).mp ?_
      rwa [hlen] at ht

/-- **A key.** -/
theorem exists_runs_key (hpos : 0 < key.length) (hbound : key.length < 256)
    (hspells : Spells key ws) {lengths : List (BitVec 8)} (hstate : s.state = .idle)
    (hq : q.in2hash = ws ++ rest) (hlengths : q.in2hashKeyLength = .ofNat 8 key.length :: lengths) :
    ∃ t cs, Ends key.length t ∧ Fills 12 key (cs.map (bytes 12)) ∧ Runs (s, q) (t, { q with
      in2hash := rest
      in2hashKeyLength := lengths
      resizedKey := q.resizedKey ++ cs
      resizedKeyLength := q.resizedKeyLength ++ [.ofNat 32 key.length]
      resizedInitValue := q.resizedInitValue ++ [hashFunctionSeed] }) := by
  obtain ⟨w, ws', rfl⟩ := hspells.exists_cons
  let c : BitVec 96 := slice w.data 0 96
  let t : KeyResizer := ⟨if 12 < BitVec.ofNat 8 key.length then
    if w.eop then .residue else .step1 else .idle, .ofNat 8 key.length, c, w⟩
  let q' : HashStreams := { q with
    in2hash := ws' ++ rest
    in2hashKeyLength := lengths
    resizedKey := q.resizedKey ++ [c]
    resizedKeyLength := q.resizedKeyLength ++ [.ofNat 32 key.length]
    resizedInitValue := q.resizedInitValue ++ [hashFunctionSeed] }
  have hwidth : (BitVec.ofNat 8 key.length).setWidth 32 = .ofNat 32 key.length := by
    apply BitVec.eq_of_toNat_eq
    rw [BitVec.toNat_setWidth, BitVec.toNat_ofNat, BitVec.toNat_ofNat, Nat.mod_eq_of_lt hbound]
  have hcall : hashKeyResizer s q = (t, q') := by
    rw [hashKeyResizer, hstate, hq, hlengths]
    dsimp only
    rw [List.cons_append]
    dsimp only
    rw [hwidth]
  have hable : s.Able q := by
    rw [Able, hstate, hq, hlengths]
    exact ⟨List.cons_ne_nil _ _, List.cons_ne_nil _ _⟩
  have hc : Agree (bytes 12 c) key := agree_slice (o := 0) (by decide) hspells.agree
  have hne : key ≠ [] := List.ne_nil_of_length_pos hpos
  have htake := agree_iff.mp hc
  rw [length_bytes] at htake
  obtain ⟨u, cs, hdone, hfills, hruns⟩ : Resizes t q' (key.drop 12) rest (Ends key.length) := by
    by_cases hmore : 12 < key.length
    · refine resizes_rest ⟨rfl, hbound, hspells⟩ hmore rfl ?_
      exact (if_pos ((ofNat_lt (by decide) hbound).mpr hmore)).trans
        (if_congr hspells.eop_iff rfl rfl)
    · have hle := Nat.not_lt.mp hmore
      obtain ⟨rfl, -, -⟩ := hspells.of_le (hle.trans (by decide))
      rw [List.drop_of_length_le hle]
      refine .nil (ends_of_idle (hle.trans (by decide)) ?_) rfl
      exact if_neg (mt (ofNat_lt (by decide) hbound).mp hmore)
  refine ⟨u, c :: cs, hdone, ⟨hne, length_bytes _ _, htake, hfills⟩, .call hable ?_⟩
  rw [hcall]
  rwa [List.append_assoc] at hruns

/-- In `KS_STEP0` the words of all further keys are taken for words of this one. -/
theorem exists_runs_stalled (hstate : s.state = .step0) (hlength : s.keyResizerLength ≤ 12) :
    ∃ t cs, t.state = .step0 ∧ Runs (s, q)
      (t, { q with in2hash := [], resizedKey := q.resizedKey ++ cs }) := by
  obtain ⟨ws, lengths, keys, keyLengths, inits, out⟩ := q
  induction ws generalizing s keys with
  | nil =>
    refine ⟨s, [], hstate, ?_⟩
    rw [List.append_nil]
    exact Reaches.refl _
  | cons w ws ih =>
    let t : KeyResizer :=
      { s with state := .step0, resizedKeyOutput := slice w.data 0 96, tempInput := w }
    have hcall : hashKeyResizer s ⟨w :: ws, lengths, keys, keyLengths, inits, out⟩
        = (t, ⟨ws, lengths, keys ++ [slice w.data 0 96], keyLengths, inits, out⟩) := by
      rw [hashKeyResizer, hstate]
      dsimp only
      rw [if_neg (BitVec.not_lt.mpr hlength)]
    obtain ⟨u, cs, hstate', hruns⟩ := @ih t rfl hlength (keys ++ [slice w.data 0 96])
    refine ⟨u, slice w.data 0 96 :: cs, hstate', .call ?_ ?_⟩
    · rw [Able, hstate]
      exact List.cons_ne_nil _ _
    · rw [hcall]
      rwa [List.append_assoc] at hruns

/-- **Keys.** Words of 12 bytes are made of them up to one after which it stays in `KS_STEP0`. -/
theorem exists_runs_keys {keys : List (List (BitVec 8))} {wss : List (List KeyWord)}
    (hkeys : ∀ key ∈ keys, IsKey key) (hspells : List.Forall₂ Spells keys wss)
    {s : KeyResizer} {q : HashStreams} (hstate : s.state = .idle) (hq : q.in2hash = wss.flatten)
    (hlengths : q.in2hashKeyLength = keys.map fun key ↦ .ofNat 8 key.length) :
    ∃ t lengths css cs, (t.state = .idle ∧ lengths = [] ∨ t.state = .step0)
      ∧ List.Forall₂ (fun key cs ↦ Fills 12 key (cs.map (bytes 12))) (hashed keys) css
      ∧ Runs (s, q) (t, { q with
        in2hash := []
        in2hashKeyLength := lengths
        resizedKey := q.resizedKey ++ (css.flatten ++ cs)
        resizedKeyLength := q.resizedKeyLength ++ (hashed keys).map fun key ↦ .ofNat 32 key.length
        resizedInitValue :=
          q.resizedInitValue ++ (hashed keys).map fun _ ↦ hashFunctionSeed }) := by
  induction hspells generalizing s q with
  | nil =>
    obtain ⟨ws, lengths, resizedKey, keyLengths, inits, out⟩ := q
    obtain rfl : ws = [] := hq
    obtain rfl : lengths = [] := hlengths
    refine ⟨s, [], [], [], .inl ⟨hstate, rfl⟩, .nil, ?_⟩
    simp only [hashed, List.map_nil, List.flatten_nil, List.append_nil]
    exact Reaches.refl _
  | @cons key ws keys wss hspell _ ih =>
    obtain ⟨hkey, hkeys⟩ := List.forall_mem_cons.mp hkeys
    have hpos := List.length_pos_iff.mpr hkey.ne_nil
    obtain ⟨t, cs, hends, hfills, hruns⟩ :=
      exists_runs_key hpos hkey.length_lt hspell hstate hq hlengths
    rw [Ends] at hends
    by_cases hstalls : Stalls key.length
    · rw [if_pos hstalls] at hends
      obtain ⟨u, cs', hstate', hruns'⟩ := @exists_runs_stalled t _ hends.1 hends.2
      rw [hashed, if_pos hstalls]
      refine ⟨u, keys.map fun key ↦ .ofNat 8 key.length, [cs], cs', .inr hstate',
        .cons hfills .nil, hruns.trans ?_⟩
      rw [List.flatten_singleton, ← List.append_assoc]
      exact hruns'
    · rw [if_neg hstalls] at hends
      obtain ⟨u, lengths, css, cs', hended, hall, hruns'⟩ := @ih hkeys t { q with
        in2hash := wss.flatten
        in2hashKeyLength := keys.map fun key ↦ .ofNat 8 key.length
        resizedKey := q.resizedKey ++ cs
        resizedKeyLength := q.resizedKeyLength ++ [.ofNat 32 key.length]
        resizedInitValue := q.resizedInitValue ++ [hashFunctionSeed] } hends rfl rfl
      rw [hashed, if_neg hstalls]
      refine ⟨u, lengths, cs :: css, cs', hended, .cons hfills hall, hruns.trans ?_⟩
      simp only [List.append_assoc] at hruns'
      rw [List.flatten_cons, List.append_assoc]
      exact hruns'

/-! ### What a call reads -/

/-- With these streams, and with more words in them, a call leaves `ws` and `lengths` of the first
ones, and puts out `keys`, `lengths'` and `inits`. -/
def Calls (s : KeyResizer) (q : HashStreams) (t : KeyResizer) (ws : List KeyWord)
    (lengths : List (BitVec 8)) (keys : List (BitVec 96)) (lengths' inits : List (BitVec 32)) :
    Prop :=
  ∀ (q' : HashStreams) xs ys, q'.in2hash = q.in2hash ++ xs →
    q'.in2hashKeyLength = q.in2hashKeyLength ++ ys →
    s.Able q' ∧ hashKeyResizer s q' = (t, { q' with
      in2hash := ws ++ xs
      in2hashKeyLength := lengths ++ ys
      resizedKey := q'.resizedKey ++ keys
      resizedKeyLength := q'.resizedKeyLength ++ lengths'
      resizedInitValue := q'.resizedInitValue ++ inits })

theorem calls_of_cons {w : KeyWord} {ws : List KeyWord} (hq : q.in2hash = w :: ws)
    (h : ∀ (q' : HashStreams) ws', q'.in2hash = w :: ws' → s.Able q'
      ∧ hashKeyResizer s q' = ((hashKeyResizer s q).1, { q' with
        in2hash := ws'
        resizedKey := q'.resizedKey ++ [(hashKeyResizer s q).1.resizedKeyOutput] })) :
    s.Calls q (hashKeyResizer s q).1 ws q.in2hashKeyLength
      [(hashKeyResizer s q).1.resizedKeyOutput] [] [] := by
  intro q' xs ys hin hlengths
  rw [List.append_nil, List.append_nil, ← hlengths]
  exact h q' (ws ++ xs) (by rw [hin, hq, List.cons_append])

theorem calls_of_forall (q : HashStreams)
    (h : ∀ q' : HashStreams, s.Able q' ∧ hashKeyResizer s q' = ((hashKeyResizer s q).1, { q' with
      resizedKey := q'.resizedKey ++ [(hashKeyResizer s q).1.resizedKeyOutput] })) :
    s.Calls q (hashKeyResizer s q).1 q.in2hash q.in2hashKeyLength
      [(hashKeyResizer s q).1.resizedKeyOutput] [] [] := by
  intro q' xs ys hin hlengths
  rw [List.append_nil, List.append_nil, ← hlengths, ← hin]
  exact h q'

/-- A call looks only at the words that come first. -/
theorem exists_calls (h : s.Able q) :
    ∃ t ws lengths keys lengths' inits, s.Calls q t ws lengths keys lengths' inits := by
  suffices hcalls : ∃ ws lengths keys lengths' inits,
    s.Calls q (hashKeyResizer s q).1 ws lengths keys lengths' inits from ⟨_, hcalls⟩
  obtain ⟨state, keyResizerLength, resizedKeyOutput, tempInput⟩ := s
  obtain ⟨ws, lengths, keys, keyLengths, inits, out⟩ := q
  cases state with
  | idle =>
    obtain ⟨l, lengths, rfl⟩ := List.exists_cons_of_ne_nil h.1
    obtain ⟨w, ws, rfl⟩ := List.exists_cons_of_ne_nil h.2
    refine ⟨ws, lengths, [slice w.data 0 96], [l.setWidth 32], [hashFunctionSeed],
      fun q' xs ys hin hlengths ↦ ?_⟩
    rw [Able, hashKeyResizer, hlengths, hin]
    exact ⟨⟨List.cons_ne_nil _ _, List.cons_ne_nil _ _⟩, rfl⟩
  | step1 =>
    obtain ⟨w, ws, rfl⟩ := List.exists_cons_of_ne_nil h
    refine ⟨_, _, _, _, _, calls_of_cons rfl fun q' ws' hin ↦ ?_⟩
    rw [Able, hashKeyResizer, hin]
    exact ⟨List.cons_ne_nil _ _, rfl⟩
  | step2 =>
    obtain ⟨w, ws, rfl⟩ := List.exists_cons_of_ne_nil h
    refine ⟨_, _, _, _, _, calls_of_cons rfl fun q' ws' hin ↦ ?_⟩
    rw [Able, hashKeyResizer, hin]
    exact ⟨List.cons_ne_nil _ _, rfl⟩
  | step0 =>
    obtain ⟨w, ws, rfl⟩ := List.exists_cons_of_ne_nil h
    refine ⟨_, _, _, _, _, calls_of_cons rfl fun q' ws' hin ↦ ?_⟩
    rw [Able, hashKeyResizer, hin]
    exact ⟨List.cons_ne_nil _ _, rfl⟩
  | step3 => exact ⟨_, _, _, _, _, calls_of_forall _ fun q' ↦ ⟨trivial, rfl⟩⟩
  | residue => exact ⟨_, _, _, _, _, calls_of_forall _ fun q' ↦ ⟨trivial, rfl⟩⟩
  | residue1 => exact ⟨_, _, _, _, _, calls_of_forall _ fun q' ↦ ⟨trivial, rfl⟩⟩
  | residue2 => exact ⟨_, _, _, _, _, calls_of_forall _ fun q' ↦ ⟨trivial, rfl⟩⟩

theorem hashKeyResizer_of_not (h : ¬s.Able q) : hashKeyResizer s q = (s, q) := by
  rw [Able] at h
  rw [hashKeyResizer]
  cases hst : s.state with
  | idle =>
    rw [hst] at h
    dsimp only at h ⊢
    split
    · next hlengths hin =>
      exact absurd ⟨hlengths ▸ List.cons_ne_nil _ _, hin ▸ List.cons_ne_nil _ _⟩ h
    · rfl
  | step1 | step2 | step0 =>
    rw [hst] at h
    rw [not_ne_iff.mp h]
  | step3 | residue | residue1 | residue2 =>
    rw [hst] at h
    exact absurd trivial h

end KeyResizer

end FpgaOs.Memcached
