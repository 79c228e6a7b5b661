import FpgaOs.Lib.Frame
import FpgaOs.Lib.Machine
import FpgaOs.Lib.Ring

/-!
# The concurrency filter

The stages behind `concurrencyControl` work on several requests at once: one reads its bucket while
another is still to write its own. `concurrencyControl` is where requests that must not overlap
could be kept apart. It asks `hashFilter` about every request, notes in it every request that it
lets through, and holds a request back as long as the filter is full or says so. The last stage
sends a word on `dec2cc` for every request that is done.

`globals.cpp` has two versions of the filter, and `#if 0` takes the one that notes nothing and never
says no. The other one is a ring of eight entries, in which a `SET` or a `DELETE` holds back the
requests with the same six bits of the hash, and a flush all of them; the oldest entry is taken out
for every word on `dec2cc`. The bucket of a request has one bit more than the ring looks at, so it
may hold back more than it has to. Both versions are modelled, and `enabled` is the condition of the
`#if`.
-/

namespace FpgaOs.Memcached

open Machine

/-! ## The code -/

/-- A word of a key on its way to the table. -/
structure KeyWord where
  data : BitVec 128
  eop : Bool
  deriving DecidableEq

/-- `struct internalMdWord`. -/
structure InternalMd where
  operation : BitVec 8 := 0
  metadata : BitVec 32 := 0
  keyLength : BitVec 8 := 0
  valueLength : BitVec 16 := 0
  deriving DecidableEq

/-- `struct ccWord`. -/
structure CcWord where
  address : BitVec 6 := 0
  operation : BitVec 8 := 0
  status : BitVec 1 := 0
  deriving DecidableEq

/-- An entry that is in use holds a request back: a `SET` or a `DELETE` with this address, or a
flush. -/
def CcWord.Blocks (entry element : CcWord) : Prop :=
  (element.address = entry.address ∧ (entry.operation = 1 ∨ entry.operation = 4))
    ∨ entry.operation = 8

instance (entry element : CcWord) : Decidable (entry.Blocks element) :=
  inferInstanceAs (Decidable (_ ∨ _))

/-- `class concurrencyFilter`. The pointers are `uint8_t`s that go from 7 to 0. -/
structure ConcurrencyFilter where
  /-- The version under `#if`, not the one under `#else`. -/
  enabled : Bool := false
  wrPtr : BitVec 3 := 0
  rdPtr : BitVec 3 := 0
  level : BitVec 8 := 0
  filterEntries : BitVec 3 → CcWord := fun _ ↦ {}

namespace ConcurrencyFilter

variable (f : ConcurrencyFilter)

def push (newElement : CcWord) : ConcurrencyFilter :=
  if f.enabled ∧ f.level < 8 then
    { f with filterEntries := Function.update f.filterEntries f.wrPtr newElement
             wrPtr := f.wrPtr + 1
             level := f.level + 1 }
  else f

def pop : ConcurrencyFilter :=
  if f.enabled then
    { f with filterEntries := Function.update f.filterEntries f.rdPtr
               { f.filterEntries f.rdPtr with address := 0, status := 0 }
             rdPtr := f.rdPtr + 1
             level := f.level - 1 }
  else f

def compare (compareElement : CcWord) : Bool :=
  f.enabled && (List.range 8).any fun i ↦
    (f.filterEntries (BitVec.ofNat 3 i)).status = 1
      ∧ (f.filterEntries (BitVec.ofNat 3 i)).Blocks compareElement

def full : Bool := f.enabled && f.level = 8

@[simp] theorem enabled_push (x : CcWord) : (f.push x).enabled = f.enabled := by
  rw [push]
  split <;> rfl

@[simp] theorem enabled_pop : f.pop.enabled = f.enabled := by
  rw [pop]
  split <;> rfl

variable {f}

/-- The version under `#else` holds nothing back. -/
theorem free_of_not_enabled (h : f.enabled = false) (x : CcWord) :
    f.compare x = false ∧ f.full = false := by
  rw [compare, full, h]
  exact ⟨rfl, rfl⟩

end ConcurrencyFilter

/-- `enum concState`. -/
inductive ConcState
  | idle
  | wait
  | push
  | stream
  | popIdle
  | popWait
  deriving DecidableEq

/-- The static variables of `concurrencyControl`. -/
structure Concurrency where
  state : ConcState := .idle
  inputWord : KeyWord := ⟨0, false⟩
  inputWordMd : InternalMd := {}
  compareElement : CcWord := {}
  hashFilter : ConcurrencyFilter := {}

/-- The streams that `concurrencyControl` reads, and those that it writes to. -/
structure CcStreams where
  in2cc : List KeyWord
  in2ccMd : List InternalMd
  hash2cc : List (BitVec 32)
  dec2cc : List (BitVec 1)
  cc2memRead : List KeyWord
  cc2memReadMd : List InternalMd

/-- `concurrencyControl`. The filter compares `hashInputWord.range(6, 0)`, of which a `ccWord` has
room for six bits. -/
def concurrencyControl (s : Concurrency) (q : CcStreams) : Concurrency × CcStreams :=
  match s.state with
  | .idle =>
    if q.dec2cc ≠ [] then ({ s with state := .popIdle }, q)
    else
      match q.in2ccMd, q.in2cc, q.hash2cc with
      | md :: in2ccMd, word :: in2cc, hash :: hash2cc =>
        let compareElement :=
          { s.compareElement with address := hash.setWidth 6, operation := md.operation }
        ({ s with
            inputWord := word
            inputWordMd := { md with metadata := hash }
            compareElement
            state := if s.hashFilter.compare compareElement ∨ s.hashFilter.full then .wait
              else .push },
          { q with in2ccMd, in2cc, hash2cc })
      | _, _, _ => (s, q)
  | .wait =>
    if q.dec2cc ≠ [] then ({ s with state := .popWait }, q)
    else if ¬s.hashFilter.full ∧ ¬s.hashFilter.compare s.compareElement then
      ({ s with state := .push }, q)
    else (s, q)
  | .push =>
    let compareElement := { s.compareElement with status := 1 }
    ({ s with
        compareElement
        hashFilter := s.hashFilter.push compareElement
        state := if s.inputWord.eop then .idle else .stream },
      { q with cc2memRead := q.cc2memRead ++ [s.inputWord]
               cc2memReadMd := q.cc2memReadMd ++ [s.inputWordMd] })
  | .stream =>
    match q.in2cc with
    | [] => (s, q)
    | word :: in2cc =>
      ({ s with inputWord := word, state := if word.eop then .idle else .stream },
        { q with in2cc, cc2memRead := q.cc2memRead ++ [word] })
  | .popIdle =>
    match q.dec2cc with
    | [] => (s, q)
    | pop :: dec2cc =>
      ({ s with hashFilter := if pop = 1 then s.hashFilter.pop else s.hashFilter, state := .idle },
        { q with dec2cc })
  | .popWait =>
    match q.dec2cc with
    | [] => (s, q)
    | pop :: dec2cc =>
      ({ s with hashFilter := if pop = 1 then s.hashFilter.pop else s.hashFilter, state := .wait },
        { q with dec2cc })

/-! ## The ring -/

/-- The filter holds these elements, the oldest one first. -/
structure ConcurrencyFilter.Holds (f : ConcurrencyFilter) (q : List CcWord) : Prop where
  enabled : f.enabled = true
  ring : ∃ r, Ring.Stores f.filterEntries r q ∧ f.rdPtr = BitVec.ofNat 3 r
    ∧ f.wrPtr = BitVec.ofNat 3 (r + q.length)
    ∧ ∀ i, (f.filterEntries i).status = 1 → ∃ j < q.length, i = BitVec.ofNat 3 (r + j)
  level : f.level = BitVec.ofNat 8 q.length
  valid : ∀ x ∈ q, x.status = 1

section Holds

variable {f : ConcurrencyFilter} {q : List CcWord} {x : CcWord}

theorem ConcurrencyFilter.Holds.length_le (h : f.Holds q) : q.length ≤ 8 := by
  obtain ⟨r, hstores, -⟩ := h.ring
  exact hstores.length_le

theorem holds_empty : ({ enabled := true } : ConcurrencyFilter).Holds [] where
  enabled := rfl
  ring := ⟨0, Ring.stores_nil _ _, rfl, rfl, fun _ h ↦ absurd h (by decide : ¬(0 : BitVec 1) = 1)⟩
  level := rfl
  valid := List.forall_mem_nil _

theorem ConcurrencyFilter.Holds.compare_iff (h : f.Holds q) :
    f.compare x = true ↔ ∃ y ∈ q, y.Blocks x := by
  obtain ⟨r, hstores, -, -, hused⟩ := h.ring
  rw [ConcurrencyFilter.compare, h.enabled, Bool.true_and, List.any_eq_true]
  constructor
  · rintro ⟨i, -, hi⟩
    obtain ⟨hstatus, hblocks⟩ := of_decide_eq_true hi
    obtain ⟨j, hj, hindex⟩ := hused _ hstatus
    rw [hindex, hstores.get j hj] at hblocks
    exact ⟨q[j], List.getElem_mem hj, hblocks⟩
  · rintro ⟨y, hy, hblocks⟩
    obtain ⟨j, hj, rfl⟩ := List.getElem_of_mem hy
    refine ⟨(BitVec.ofNat 3 (r + j)).toNat, List.mem_range.mpr (BitVec.isLt _), ?_⟩
    rw [BitVec.ofNat_toNat, BitVec.setWidth_eq, hstores.get j hj]
    exact decide_eq_true ⟨h.valid _ hy, hblocks⟩

theorem ConcurrencyFilter.Holds.full_iff (h : f.Holds q) : f.full = true ↔ q.length = 8 := by
  have hle := h.length_le
  rw [ConcurrencyFilter.full, h.enabled, Bool.true_and, decide_eq_true_iff, h.level,
    ← BitVec.toNat_inj, BitVec.toNat_ofNat]
  change q.length % 2 ^ 8 = 8 ↔ _
  omega

/-- **Push.** An element is put behind the others. -/
theorem ConcurrencyFilter.Holds.push (h : f.Holds q) (hlen : q.length < 8) (hx : x.status = 1) :
    (f.push x).Holds (q ++ [x]) := by
  obtain ⟨r, hstores, hrd, hwr, hused⟩ := h.ring
  have hlevel : f.level < 8 := by
    rw [h.level, BitVec.lt_def, BitVec.toNat_ofNat]
    change q.length % 2 ^ 8 < 8
    omega
  rw [ConcurrencyFilter.push, if_pos ⟨h.enabled, hlevel⟩]
  refine ⟨h.enabled, ⟨r, ?_, hrd, ?_, fun i hi ↦ ?_⟩, ?_, ?_⟩
  · dsimp only
    rw [hwr]
    exact hstores.push hlen x
  · rw [hwr, List.length_append, ← Nat.add_assoc, BitVec.ofNat_add (r + q.length)]
    rfl
  · dsimp only at hi
    rw [hwr, Function.update_apply] at hi
    rw [List.length_append, List.length_singleton]
    split at hi
    · next heq => exact ⟨q.length, Nat.lt_succ_self _, heq⟩
    · obtain ⟨j, hj, hindex⟩ := hused i hi
      exact ⟨j, Nat.lt_succ_of_lt hj, hindex⟩
  · rw [h.level, List.length_append, BitVec.ofNat_add]
    rfl
  · intro y hy
    rcases List.mem_append.mp hy with hy | hy
    · exact h.valid y hy
    · rwa [List.mem_singleton.mp hy]

/-- **Pop.** The oldest element is taken out. -/
theorem ConcurrencyFilter.Holds.pop (h : f.Holds (x :: q)) : f.pop.Holds q := by
  obtain ⟨r, hstores, hrd, hwr, hused⟩ := h.ring
  have hle := h.length_le
  rw [List.length_cons] at hle hwr
  have hapart : ∀ j < q.length, BitVec.ofNat 3 (r + 1 + j) ≠ BitVec.ofNat 3 r := fun j hj ↦
    (Ring.ofNat_ne (by omega) (by omega)).symm
  rw [ConcurrencyFilter.pop, if_pos h.enabled]
  refine ⟨h.enabled, ⟨r + 1, ⟨?_, fun j hj ↦ ?_⟩, ?_, ?_, fun i hi ↦ ?_⟩, ?_, ?_⟩
  · exact (Nat.le_succ _).trans hstores.length_le
  · dsimp only
    rw [hrd, Function.update_of_ne (hapart j hj)]
    exact hstores.tail.get j hj
  · rw [hrd, BitVec.ofNat_add]
    rfl
  · rw [hwr, Nat.add_assoc, Nat.add_comm 1]
  · dsimp only at hi
    rw [hrd, Function.update_apply] at hi
    split at hi
    · exact absurd hi (by decide : ¬(0 : BitVec 1) = 1)
    · next hne =>
      obtain ⟨j, hj, rfl⟩ := hused i hi
      match j, hj, hne with
      | 0, _, hne => exact absurd rfl hne
      | j + 1, hj, _ => exact ⟨j, Nat.lt_of_succ_lt_succ hj, by rw [Nat.add_assoc, Nat.add_comm 1]⟩
  · rw [h.level, List.length_cons, BitVec.ofNat_add]
    exact BitVec.add_sub_cancel ..
  · exact fun y hy ↦ h.valid y (List.mem_cons_of_mem _ hy)

end Holds

/-! ## Requests -/

/-- A request as it reaches `concurrencyControl`. -/
structure CcRequest where
  md : InternalMd
  hash : BitVec 32
  words : List KeyWord
  marked : Marked (fun w : KeyWord ↦ w.eop = true) words

namespace CcRequest

variable (r : CcRequest)

/-- What the filter looks at. -/
def element : CcWord := ⟨r.hash.setWidth 6, r.md.operation, 1⟩

/-- The metadata that are handed on. -/
def sentMd : InternalMd := { r.md with metadata := r.hash }

end CcRequest

/-- The requests that have been let through, of which `p` have left the filter. Those that are not
done are apart, if the filter is enabled. -/
structure LetThrough (forwarded : List CcRequest) (p completed : ℕ) (s : Concurrency)
    (pops : List (BitVec 1)) (sentMds : List InternalMd) : Prop where
  holds : s.hashFilter.enabled = true →
    s.hashFilter.Holds ((forwarded.drop p).map CcRequest.element)
  pops_eq : pops = List.replicate (completed - p) 1
  le_completed : p ≤ completed
  completed_le : completed ≤ forwarded.length
  apart : s.hashFilter.enabled = true →
    (forwarded.drop completed).Pairwise fun x y ↦ ¬x.element.Blocks y.element
  sentMds_eq : sentMds = forwarded.map CcRequest.sentMd

/-- `concurrencyControl` is between two requests, holds one back, or hands on the words of one. The
units that have not been read are those of the requests to come. -/
inductive CcInv (rs : List CcRequest) (completed : ℕ) (s : Concurrency) (words : List KeyWord)
    (mds : List InternalMd) (hashes : List (BitVec 32)) (pops : List (BitVec 1))
    (sentWords : List KeyWord) (sentMds : List InternalMd) : Prop
  | idle (forwarded rest : List CcRequest) (p : ℕ)
    (state : s.state = .idle ∨ s.state = .popIdle ∧ pops ≠ [])
    (sent : LetThrough forwarded p completed s pops sentMds) (split : forwarded ++ rest = rs)
    (words_eq : words = rest.flatMap CcRequest.words) (mds_eq : mds = rest.map CcRequest.md)
    (hashes_eq : hashes = rest.map CcRequest.hash)
    (sentWords_eq : sentWords = forwarded.flatMap CcRequest.words)
  | held (forwarded rest : List CcRequest) (r : CcRequest) (ws : List KeyWord) (p : ℕ)
    (state : s.state = .wait ∨ s.state = .popWait ∧ pops ≠ [] ∨ s.state = .push
      ∧ (s.hashFilter.enabled = true →
        (forwarded.drop p).length < 8 ∧ ∀ x ∈ forwarded.drop p, ¬x.element.Blocks r.element))
    (sent : LetThrough forwarded p completed s pops sentMds) (split : forwarded ++ r :: rest = rs)
    (inputWord : r.words = s.inputWord :: ws) (inputWordMd : s.inputWordMd = r.sentMd)
    (compareElement : { s.compareElement with status := 1 } = r.element)
    (words_eq : words = ws ++ rest.flatMap CcRequest.words) (mds_eq : mds = rest.map CcRequest.md)
    (hashes_eq : hashes = rest.map CcRequest.hash)
    (sentWords_eq : sentWords = forwarded.flatMap CcRequest.words)
  | stream (forwarded rest : List CcRequest) (ws : List KeyWord) (p : ℕ) (state : s.state = .stream)
    (sent : LetThrough forwarded p completed s pops sentMds) (split : forwarded ++ rest = rs)
    (marked : Marked (fun w : KeyWord ↦ w.eop = true) ws)
    (words_eq : words = ws ++ rest.flatMap CcRequest.words) (mds_eq : mds = rest.map CcRequest.md)
    (hashes_eq : hashes = rest.map CcRequest.hash)
    (sentWords_eq : sentWords ++ ws = forwarded.flatMap CcRequest.words)

section CcInv

variable {rs : List CcRequest} {completed : ℕ} {s : Concurrency} {words : List KeyWord}
  {mds : List InternalMd} {hashes : List (BitVec 32)} {pops : List (BitVec 1)}
  {sentWords : List KeyWord} {sentMds : List InternalMd} {forwarded : List CcRequest} {p : ℕ}

theorem LetThrough.congr {s' : Concurrency} (h : LetThrough forwarded p completed s pops sentMds)
    (hfilter : s'.hashFilter = s.hashFilter) :
    LetThrough forwarded p completed s' pops sentMds :=
  { h with
    holds := by rw [hfilter]; exact h.holds
    apart := by rw [hfilter]; exact h.apart }

theorem LetThrough.pop {pop : BitVec 1} {pops' : List (BitVec 1)} {s' : Concurrency}
    (h : LetThrough forwarded p completed s pops sentMds) (hpops : pops = pop :: pops')
    (hfilter : s'.hashFilter = if pop = 1 then s.hashFilter.pop else s.hashFilter) :
    LetThrough forwarded (p + 1) completed s' pops' sentMds := by
  have heq := h.pops_eq
  rw [hpops] at heq
  obtain ⟨n, hn⟩ : ∃ n, completed - p = n + 1 := by
    refine Nat.exists_eq_succ_of_ne_zero fun hzero ↦ ?_
    rw [hzero] at heq
    contradiction
  rw [hn, List.replicate_succ, List.cons.injEq] at heq
  have hlt : p < forwarded.length := by
    have hle := h.completed_le
    omega
  rw [heq.1, if_pos rfl] at hfilter
  refine { h with
    holds := fun hen ↦ ?_
    pops_eq := by rw [heq.2, show completed - (p + 1) = n by omega]
    le_completed := by omega
    apart := ?_ }
  · rw [hfilter, ConcurrencyFilter.enabled_pop] at hen
    have hholds := h.holds hen
    rw [List.drop_eq_getElem_cons hlt, List.map_cons] at hholds
    rw [hfilter]
    exact hholds.pop
  · rw [hfilter, ConcurrencyFilter.enabled_pop]
    exact h.apart

theorem LetThrough.push {r : CcRequest} {s' : Concurrency}
    (h : LetThrough forwarded p completed s pops sentMds)
    (hfree : s.hashFilter.enabled = true →
      (forwarded.drop p).length < 8 ∧ ∀ x ∈ forwarded.drop p, ¬x.element.Blocks r.element)
    (hfilter : s'.hashFilter = s.hashFilter.push r.element) :
    LetThrough (forwarded ++ [r]) p completed s' pops (sentMds ++ [r.sentMd]) where
  holds hen := by
    rw [hfilter, ConcurrencyFilter.enabled_push] at hen
    rw [hfilter, List.drop_append_of_le_length (h.le_completed.trans h.completed_le),
      List.map_append]
    exact (h.holds hen).push (by rw [List.length_map]; exact (hfree hen).1) rfl
  pops_eq := h.pops_eq
  le_completed := h.le_completed
  completed_le := by
    rw [List.length_append]
    exact h.completed_le.trans (Nat.le_add_right _ _)
  apart hen := by
    rw [hfilter, ConcurrencyFilter.enabled_push] at hen
    rw [List.drop_append_of_le_length h.completed_le, List.pairwise_append]
    refine ⟨h.apart hen, List.pairwise_singleton _ _, fun x hx y hy ↦ ?_⟩
    have hsplit : forwarded.drop completed = (forwarded.drop p).drop (completed - p) := by
      rw [List.drop_drop, Nat.add_sub_cancel' h.le_completed]
    rw [hsplit] at hx
    rw [List.mem_singleton.mp hy]
    exact (hfree hen).2 x (List.mem_of_mem_drop hx)
  sentMds_eq := by rw [h.sentMds_eq, List.map_append, List.map_singleton]

theorem LetThrough.free {r : CcRequest} (h : LetThrough forwarded p completed s pops sentMds)
    {element : CcWord} (helement : { element with status := 1 } = r.element)
    (hfree : ¬(s.hashFilter.compare element = true ∨ s.hashFilter.full = true))
    (hen : s.hashFilter.enabled = true) :
    (forwarded.drop p).length < 8 ∧ ∀ x ∈ forwarded.drop p, ¬x.element.Blocks r.element := by
  have hholds := h.holds hen
  rw [not_or, hholds.compare_iff, hholds.full_iff] at hfree
  have hle := hholds.length_le
  refine ⟨?_, fun x hx hblocks ↦ hfree.1 ⟨_, List.mem_map_of_mem hx, ?_⟩⟩
  · rw [List.length_map] at hle hfree
    omega
  · rw [← helement] at hblocks
    exact hblocks

theorem LetThrough.complete (h : LetThrough forwarded p completed s pops sentMds)
    (hlt : completed < forwarded.length) :
    LetThrough forwarded p (completed + 1) s (pops ++ [1]) sentMds where
  holds := h.holds
  pops_eq := by
    rw [h.pops_eq, Nat.succ_sub h.le_completed, List.replicate_succ']
  le_completed := h.le_completed.trans (Nat.le_succ _)
  completed_le := hlt
  apart hen := by
    have happart := h.apart hen
    rw [List.drop_eq_getElem_cons hlt] at happart
    exact happart.of_cons
  sentMds_eq := h.sentMds_eq

/-- **A request is done.** -/
theorem CcInv.complete (h : CcInv rs completed s words mds hashes pops sentWords sentMds)
    (hlt : completed < sentMds.length) :
    CcInv rs (completed + 1) s words mds hashes (pops ++ [1]) sentWords sentMds := by
  cases h with
  | idle forwarded rest p state sent split words_eq mds_eq hashes_eq sentWords_eq =>
    rw [sent.sentMds_eq, List.length_map] at hlt
    exact .idle forwarded rest p (state.imp_right fun h ↦ ⟨h.1, List.concat_ne_nil _ _⟩)
      (sent.complete hlt) split words_eq mds_eq hashes_eq sentWords_eq
  | held forwarded rest r ws p state sent split inputWord inputWordMd compareElement words_eq mds_eq
      hashes_eq sentWords_eq =>
    rw [sent.sentMds_eq, List.length_map] at hlt
    exact .held forwarded rest r ws p
      (state.imp_right (Or.imp_left fun h ↦ ⟨h.1, List.concat_ne_nil _ _⟩)) (sent.complete hlt)
      split inputWord inputWordMd compareElement words_eq mds_eq hashes_eq sentWords_eq
  | stream forwarded rest ws p state sent split marked words_eq mds_eq hashes_eq sentWords_eq =>
    rw [sent.sentMds_eq, List.length_map] at hlt
    exact .stream forwarded rest ws p state (sent.complete hlt) split marked words_eq mds_eq
      hashes_eq sentWords_eq

/-- What has been handed on is a part of the requests. -/
theorem CcInv.exists_letThrough (h : CcInv rs completed s words mds hashes pops sentWords sentMds) :
    ∃ forwarded p, forwarded <+: rs ∧ LetThrough forwarded p completed s pops sentMds
      ∧ sentWords <+: forwarded.flatMap CcRequest.words := by
  cases h with
  | idle forwarded rest p _ sent split _ _ _ sentWords_eq =>
    exact ⟨forwarded, p, ⟨rest, split⟩, sent, sentWords_eq ▸ List.prefix_rfl⟩
  | held forwarded rest r _ p _ sent split _ _ _ _ _ _ sentWords_eq =>
    exact ⟨forwarded, p, ⟨r :: rest, split⟩, sent, sentWords_eq ▸ List.prefix_rfl⟩
  | stream forwarded rest ws p _ sent split _ _ _ _ sentWords_eq =>
    exact ⟨forwarded, p, ⟨rest, split⟩, sent, ⟨ws, sentWords_eq⟩⟩

theorem CcInv.length_le (h : CcInv rs completed s words mds hashes pops sentWords sentMds) :
    sentMds.length + mds.length ≤ rs.length := by
  cases h with
  | idle forwarded rest _ _ sent split _ mds_eq =>
    rw [sent.sentMds_eq, mds_eq, ← split, List.length_append, List.length_map, List.length_map]
  | held forwarded rest r _ _ _ sent split _ _ _ _ mds_eq =>
    rw [sent.sentMds_eq, mds_eq, ← split, List.length_append, List.length_map, List.length_map]
    exact Nat.add_le_add_left (Nat.le_succ _) _
  | stream forwarded rest _ _ _ sent split _ _ mds_eq =>
    rw [sent.sentMds_eq, mds_eq, ← split, List.length_append, List.length_map, List.length_map]

theorem CcInv.start (rs : List CcRequest) (enabled : Bool) :
    CcInv rs 0 { hashFilter := { enabled } } (rs.flatMap CcRequest.words) (rs.map CcRequest.md)
      (rs.map CcRequest.hash) [] [] [] :=
  .idle [] rs 0 (.inl rfl) ⟨fun hen ↦ (show enabled = true from hen) ▸ holds_empty, rfl,
    Nat.zero_le _, Nat.zero_le _, fun _ ↦ .nil, rfl⟩ rfl rfl rfl rfl rfl

end CcInv

/-! ## A call -/

section Call

variable {rs : List CcRequest} {completed : ℕ} {s : Concurrency} {q : CcStreams}
  {moreWords preWords : List KeyWord} {moreMds preMds : List InternalMd}
  {moreHashes : List (BitVec 32)}

/-- The invariant for streams to which more will be written, and from which something has been
read. -/
abbrev CcHolds (rs : List CcRequest) (completed : ℕ) (moreWords preWords : List KeyWord)
    (moreMds preMds : List InternalMd) (moreHashes : List (BitVec 32))
    (x : Concurrency × CcStreams) : Prop :=
  CcInv rs completed x.1 (x.2.in2cc ++ moreWords) (x.2.in2ccMd ++ moreMds)
    (x.2.hash2cc ++ moreHashes) x.2.dec2cc (preWords ++ x.2.cc2memRead)
    (preMds ++ x.2.cc2memReadMd)

theorem ccHolds_idle (h : CcHolds rs completed moreWords preWords moreMds preMds moreHashes (s, q))
    (hstate : s.state = .idle) :
    CcHolds rs completed moreWords preWords moreMds preMds moreHashes (concurrencyControl s q) := by
  cases h with
  | idle forwarded rest p state sent split words_eq mds_eq hashes_eq sentWords_eq =>
    rw [concurrencyControl, hstate]
    dsimp only
    split
    · next hpops =>
      exact .idle forwarded rest p (.inr ⟨rfl, hpops⟩) (sent.congr rfl) split words_eq mds_eq
        hashes_eq sentWords_eq
    split
    · next md in2ccMd word in2cc hash hash2cc hmd hword hhash =>
      dsimp only at words_eq mds_eq hashes_eq
      rw [hmd] at mds_eq
      rw [hword] at words_eq
      rw [hhash] at hashes_eq
      -- the heads of the three streams belong to the next request
      match rest, mds_eq with
      | r :: rest, mds_eq =>
        rw [List.map_cons, List.cons_append, List.cons.injEq] at mds_eq hashes_eq
        obtain ⟨ws, hws⟩ : ∃ ws, r.words = word :: ws := by
          obtain ⟨w, ws, hws⟩ := List.exists_cons_of_ne_nil r.marked.ne_nil
          rw [List.flatMap_cons, hws, List.cons_append, List.cons_append, List.cons.injEq]
            at words_eq
          exact ⟨ws, by rw [hws, words_eq.1]⟩
        rw [List.flatMap_cons, hws, List.cons_append, List.cons_append, List.cons.injEq] at words_eq
        have helement : ({ s.compareElement with
            address := hash.setWidth 6, operation := md.operation, status := 1 } : CcWord)
              = r.element := by
          rw [mds_eq.1, hashes_eq.1]
          rfl
        refine .held forwarded rest r ws p ?_ (sent.congr rfl) split hws ?_ helement words_eq.2
          mds_eq.2 hashes_eq.2 sentWords_eq
        · dsimp only
          split
          · exact .inl rfl
          · next hfree => exact .inr (.inr ⟨rfl, sent.free helement hfree⟩)
        · rw [mds_eq.1, hashes_eq.1]
          rfl
    · exact .idle forwarded rest p state sent split words_eq mds_eq hashes_eq sentWords_eq
  | held _ _ _ _ _ state => simp [hstate] at state
  | stream _ _ _ _ state => simp [hstate] at state

theorem ccHolds_wait (h : CcHolds rs completed moreWords preWords moreMds preMds moreHashes (s, q))
    (hstate : s.state = .wait) :
    CcHolds rs completed moreWords preWords moreMds preMds moreHashes (concurrencyControl s q) := by
  cases h with
  | idle _ _ _ state => simp [hstate] at state
  | held forwarded rest r ws p state sent split inputWord inputWordMd compareElement words_eq mds_eq
      hashes_eq sentWords_eq =>
    rw [concurrencyControl, hstate]
    dsimp only
    split
    · next hpops =>
      exact .held forwarded rest r ws p (.inr (.inl ⟨rfl, hpops⟩)) (sent.congr rfl) split inputWord
        inputWordMd compareElement words_eq mds_eq hashes_eq sentWords_eq
    split
    · next hfree =>
      have hfree' := sent.free compareElement fun h ↦ h.elim hfree.2 hfree.1
      exact .held forwarded rest r ws p (.inr (.inr ⟨rfl, hfree'⟩)) (sent.congr rfl) split inputWord
        inputWordMd compareElement words_eq mds_eq hashes_eq sentWords_eq
    · exact .held forwarded rest r ws p state sent split inputWord inputWordMd compareElement
        words_eq mds_eq hashes_eq sentWords_eq
  | stream _ _ _ _ state => simp [hstate] at state

theorem ccHolds_push (h : CcHolds rs completed moreWords preWords moreMds preMds moreHashes (s, q))
    (hstate : s.state = .push) :
    CcHolds rs completed moreWords preWords moreMds preMds moreHashes (concurrencyControl s q) := by
  cases h with
  | idle _ _ _ state => simp [hstate] at state
  | held forwarded rest r ws p state sent split inputWord inputWordMd compareElement words_eq mds_eq
      hashes_eq sentWords_eq =>
    have hfree : s.hashFilter.enabled = true →
        (forwarded.drop p).length < 8 ∧ ∀ x ∈ forwarded.drop p, ¬x.element.Blocks r.element := by
      simpa [hstate] using state
    have hpush := @LetThrough.push completed s _ _ forwarded p r
      { s with hashFilter := s.hashFilter.push r.element } sent hfree rfl
    have hsplit : forwarded ++ [r] ++ rest = rs := by rw [← split, List.append_assoc]; rfl
    have hsent : preWords ++ (q.cc2memRead ++ [s.inputWord]) ++ ws
        = (forwarded ++ [r]).flatMap CcRequest.words := by
      rw [List.flatMap_append, List.flatMap_singleton, inputWord, ← sentWords_eq]
      simp
    rw [concurrencyControl, hstate]
    dsimp only
    rw [compareElement]
    -- the request goes on with its next word, unless this was the last one
    have hmarked := r.marked
    rw [inputWord] at hmarked
    obtain ⟨rfl, hlast⟩ | ⟨hlast, hm⟩ := marked_cons.mp hmarked
    · rw [if_pos hlast]
      rw [List.append_nil] at hsent
      refine .idle (forwarded ++ [r]) rest p (.inl rfl) ?_ hsplit words_eq mds_eq hashes_eq hsent
      rw [inputWordMd, ← List.append_assoc]
      exact hpush.congr rfl
    · rw [if_neg hlast]
      refine .stream (forwarded ++ [r]) rest ws p rfl ?_ hsplit hm words_eq mds_eq hashes_eq hsent
      rw [inputWordMd, ← List.append_assoc]
      exact hpush.congr rfl
  | stream _ _ _ _ state => simp [hstate] at state

theorem ccHolds_stream
    (h : CcHolds rs completed moreWords preWords moreMds preMds moreHashes (s, q))
    (hstate : s.state = .stream) :
    CcHolds rs completed moreWords preWords moreMds preMds moreHashes (concurrencyControl s q) := by
  cases h with
  | idle _ _ _ state => simp [hstate] at state
  | held _ _ _ _ _ state => simp [hstate] at state
  | stream forwarded rest ws p state sent split marked words_eq mds_eq hashes_eq sentWords_eq =>
    rw [concurrencyControl, hstate]
    dsimp only
    split
    · exact .stream forwarded rest ws p state sent split marked words_eq mds_eq hashes_eq
        sentWords_eq
    · next word in2cc hword =>
      match ws, marked with
      | w :: ws, marked =>
        dsimp only at words_eq
        rw [hword, List.cons_append, List.cons_append, List.cons.injEq] at words_eq
        have hsent : preWords ++ (q.cc2memRead ++ [word]) ++ ws
            = forwarded.flatMap CcRequest.words := by
          rw [← sentWords_eq, words_eq.1]
          simp
        rw [words_eq.1] at hsent ⊢
        obtain ⟨rfl, hlast⟩ | ⟨hlast, hm⟩ := marked_cons.mp marked
        · rw [if_pos hlast]
          rw [List.append_nil] at hsent
          exact .idle forwarded rest p (.inl rfl) (sent.congr rfl) split words_eq.2 mds_eq hashes_eq
            hsent
        · rw [if_neg hlast]
          exact .stream forwarded rest ws p rfl (sent.congr rfl) split hm words_eq.2 mds_eq
            hashes_eq hsent

theorem ccHolds_pop (h : CcHolds rs completed moreWords preWords moreMds preMds moreHashes (s, q))
    (hstate : s.state = .popIdle ∨ s.state = .popWait) :
    CcHolds rs completed moreWords preWords moreMds preMds moreHashes (concurrencyControl s q) := by
  cases h with
  | idle forwarded rest p state sent split words_eq mds_eq hashes_eq sentWords_eq =>
    have hpop : s.state = .popIdle := by
      rcases hstate with hstate | hstate
      · exact hstate
      · simp [hstate] at state
    rw [concurrencyControl, hpop]
    dsimp only
    split
    · exact .idle forwarded rest p state sent split words_eq mds_eq hashes_eq sentWords_eq
    · next pop dec2cc hdec =>
      exact .idle forwarded rest (p + 1) (.inl rfl) (sent.pop hdec rfl) split words_eq mds_eq
        hashes_eq sentWords_eq
  | held forwarded rest r ws p state sent split inputWord inputWordMd compareElement words_eq mds_eq
      hashes_eq sentWords_eq =>
    have hpop : s.state = .popWait := by
      rcases hstate with hstate | hstate
      · simp [hstate] at state
      · exact hstate
    rw [concurrencyControl, hpop]
    dsimp only
    split
    · exact .held forwarded rest r ws p state sent split inputWord inputWordMd compareElement
        words_eq mds_eq hashes_eq sentWords_eq
    · next pop dec2cc hdec =>
      exact .held forwarded rest r ws (p + 1) (.inl rfl) (sent.pop hdec rfl) split inputWord
        inputWordMd compareElement words_eq mds_eq hashes_eq sentWords_eq
  | stream _ _ _ _ state => rcases hstate with hstate | hstate <;> simp [hstate] at state

/-- **A call.** -/
theorem ccHolds_call
    (h : CcHolds rs completed moreWords preWords moreMds preMds moreHashes (s, q)) :
    CcHolds rs completed moreWords preWords moreMds preMds moreHashes (concurrencyControl s q) := by
  cases hstate : s.state with
  | idle => exact ccHolds_idle h hstate
  | wait => exact ccHolds_wait h hstate
  | push => exact ccHolds_push h hstate
  | stream => exact ccHolds_stream h hstate
  | popIdle => exact ccHolds_pop h (.inl hstate)
  | popWait => exact ccHolds_pop h (.inr hstate)

end Call

/-! ## The two versions -/

theorem enabled_concurrencyControl (s : Concurrency) (q : CcStreams) :
    (concurrencyControl s q).1.hashFilter.enabled = s.hashFilter.enabled := by
  have hpop : ∀ pop : BitVec 1,
      (if pop = 1 then s.hashFilter.pop else s.hashFilter).enabled = s.hashFilter.enabled := by
    intro pop
    split
    · exact s.hashFilter.enabled_pop
    · rfl
  rw [concurrencyControl]
  split
  · split
    · rfl
    · split <;> rfl
  · split
    · rfl
    · split <;> rfl
  · exact s.hashFilter.enabled_push _
  · split <;> rfl
  · split
    · rfl
    · exact hpop _
  · split
    · rfl
    · exact hpop _

end FpgaOs.Memcached
