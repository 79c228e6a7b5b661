import FpgaOs.Lib.Bump
import FpgaOs.Rdm.Drain
import FpgaOs.Rdm.Requests

/-!
# The addresses of allocations

`rdm_alloc_va` is a counter of 64 bits. An `ALLOC` that gets a block gets the value of the counter,
and the counter is advanced by the length, rounded up to units and then to pages. `map` then sets
the mapping of the address; the key of the mapping is its lower 32 bits. The lengths are arbitrary
here, so the rounding and the counter may come round, and the keys come round much earlier.

That the ranges are disjoint and the keys are different is shown to hold under every schedule
exactly if it holds of the addresses that the counter gives out, and when it does is a matter of the
lengths only.
-/

namespace FpgaOs.Rdm

open BitField Mapping Service

/-- A request for a block. -/
structure AllocRequest where
  eth : NetAxis
  app : NetAxis
  opcode_eq : app.opcode = opcodeAlloc

def AllocRequest.units (r : AllocRequest) : List NetAxis := [r.eth, r.app]

/-- By how much an allocation advances the counter. -/
def rounded (length : BitVec 64) : BitVec 64 := roundUp (roundUp length 64) rdmVaPageSize

/-- The bytes of an allocation. -/
def extent (va length : BitVec 64) : Set ℕ := Set.Ico va.toNat (va.toNat + length.toNat)

section Runs

variable (e : Env)

/-- The state that a schedule leads to, when the requests are fed to the service. -/
def afterAllocs (rs : List AllocRequest) (as : List Action) : Service :=
  Machine.run (Service.step e) (Service.init (rs.flatMap AllocRequest.units)) as

/-- What `map` has asked the mapping in the course of a schedule. -/
def asked : Service → List Action → List MappingRequest
  | _, [] => []
  | s, a :: as => (s.step e a).mapping.reqs.drop s.mapping.reqs.length ++ asked (s.step e a) as

/-- **What is to hold of the addresses.** -/
structure AddressesApart (rs : List AllocRequest) (as : List Action) : Prop where
  /-- The reply to request `i` is units `2 * i` and `2 * i + 1`; its address and the length that was
  asked for are a range that is disjoint from that of any other `ALLOC` that got a block. -/
  ranges : ∀ i j : ℕ, i < j → ∀ (r r' : AllocRequest) (h h' : NetAxis), rs[i]? = some r →
    rs[j]? = some r' →
    (afterAllocs e rs as).toNet[2 * i + 1]? = some h →
    (afterAllocs e rs as).toNet[2 * j + 1]? = some h' →
    h.opcode = opcodeReplyAlloc → h'.opcode = opcodeReplyAlloc →
    Disjoint (extent h.address r.app.length) (extent h'.address r'.app.length)
  /-- No key is set twice. -/
  keys : (asked e (Service.init (rs.flatMap AllocRequest.units)) as).Pairwise fun q q' ↦
    q.address ≠ q'.address

/-- The lengths of the requests that get a block, from answer `n` of the allocator on. -/
def granted : ℕ → List AllocRequest → List (BitVec 64)
  | _, [] => []
  | n, r :: rs =>
    if (e.alloc n buddyRequest).stat = 0 then r.app.length :: granted (n + 1) rs
    else granted (n + 1) rs

end Runs

/-! ## When the addresses are apart -/

def lengthAt (ls : List (BitVec 64)) (i : ℕ) : ℕ := (ls.getD i 0).toNat

def roundedAt (ls : List (BitVec 64)) (i : ℕ) : ℕ := (rounded (ls.getD i 0)).toNat

/-- The value of the counter for allocation `i`, if it had no bound. -/
def startAt (ls : List (BitVec 64)) : ℕ → ℕ := Bump.start 0x1000 (roundedAt ls)

/-- The condition on the lengths of the allocations. -/
structure LengthsFit (ls : List (BitVec 64)) : Prop where
  keys : ∀ i j, i < j → j < ls.length → startAt ls i % 2 ^ 32 ≠ startAt ls j % 2 ^ 32
  top : ∀ j < ls.length,
    startAt ls j < 2 ^ 64 ∨ lengthAt ls j = 0 ∨ startAt ls j + lengthAt ls j ≤ 2 ^ 64 + 0x1000

/-- The addresses that the counter gives to allocations, and their lengths. -/
def placed : BitVec 64 → List (BitVec 64) → List (BitVec 64 × BitVec 64)
  | _, [] => []
  | va, l :: ls => (va, l) :: placed (va + rounded l) ls

section Placed

theorem rounds (ls : List (BitVec 64)) :
    Bump.Rounds 0x1000 (2 ^ 64) (lengthAt ls) (roundedAt ls) := by
  have hunits (l : BitVec 64) :=
    toNat_roundUp (x := l) (by decide : (64 - 1 : BitVec 64).toNat = 2 ^ 6 - 1)
  have hpages (l : BitVec 64) :=
    toNat_roundUp (x := l) (by decide : (rdmVaPageSize - 1).toNat = 2 ^ 12 - 1)
  have hlt (i : ℕ) := (ls.getD i 0).isLt
  refine ⟨fun i ↦ ?_, fun i ↦ BitVec.isLt _, fun i hzero ↦ ?_, fun i hne ↦ ?_⟩
  · rw [roundedAt, rounded, hpages]
    omega
  · rw [lengthAt] at hzero
    rw [roundedAt, rounded, hpages, toNat_sub_one, hunits, toNat_sub_one, hzero]
    omega
  · have hi := hlt i
    rw [roundedAt, rounded, hpages, toNat_sub_one, hunits, toNat_sub_one] at hne ⊢
    rw [lengthAt]
    omega

theorem length_placed (va : BitVec 64) (ls : List (BitVec 64)) :
    (placed va ls).length = ls.length := by
  induction ls generalizing va with
  | nil => rfl
  | cons l ls ih => rw [placed, List.length_cons, List.length_cons, ih]

theorem getElem?_placed (first : ℕ) (ls : List (BitVec 64)) (i : ℕ) :
    (placed (BitVec.ofNat 64 first) ls)[i]?
      = ls[i]?.map fun l ↦ (BitVec.ofNat 64 (Bump.start first (roundedAt ls) i), l) := by
  induction ls generalizing first i with
  | nil => rfl
  | cons l ls ih =>
    cases i with
    | zero => rfl
    | succ i =>
      have hva : BitVec.ofNat 64 first + rounded l
        = BitVec.ofNat 64 (first + (rounded l).toNat) := by
        rw [BitVec.ofNat_add, BitVec.ofNat_toNat, BitVec.setWidth_eq]
      rw [placed, List.getElem?_cons_succ, List.getElem?_cons_succ, hva, ih, Bump.start_succ_eq]
      rfl

theorem getElem_placed (ls : List (BitVec 64)) {i : ℕ} (hi : i < (placed 0x1000 ls).length) :
    (placed 0x1000 ls)[i] = (BitVec.ofNat 64 (startAt ls i), ls.getD i 0) := by
  have hi' : i < ls.length := length_placed 0x1000 ls ▸ hi
  have h := getElem?_placed 0x1000 ls i
  rw [List.getElem?_eq_getElem hi'] at h
  rw [List.getD_eq_getElem?_getD, List.getElem?_eq_getElem hi']
  exact (List.getElem?_eq_some_iff.mp h).2

/-- Two allocations have different keys. -/
def KeysDiffer (a b : BitVec 64 × BitVec 64) : Prop := a.1.setWidth 32 ≠ b.1.setWidth 32

/-- Two allocations have disjoint ranges. -/
def ExtentsDisjoint (a b : BitVec 64 × BitVec 64) : Prop :=
  Disjoint (extent a.1 a.2) (extent b.1 b.2)

theorem pairwise_keysDiffer_iff (ls : List (BitVec 64)) : (placed 0x1000 ls).Pairwise KeysDiffer ↔
    ∀ i j, i < j → j < ls.length → startAt ls i % 2 ^ 32 ≠ startAt ls j % 2 ^ 32 := by
  have hkey (m n : ℕ) : (BitVec.ofNat 64 m).setWidth 32 ≠ (BitVec.ofNat 64 n).setWidth 32
    ↔ m % 2 ^ 32 ≠ n % 2 ^ 32 := by
    rw [ne_eq, ← BitVec.toNat_inj]
    simp only [BitVec.toNat_setWidth, BitVec.toNat_ofNat]
    omega
  rw [List.pairwise_iff_getElem]
  constructor
  · intro h i j hij hj
    have hj' : j < (placed 0x1000 ls).length := (length_placed _ _).symm ▸ hj
    have hdiff := h i j (hij.trans hj') hj' hij
    rw [KeysDiffer, getElem_placed, getElem_placed, hkey] at hdiff
    exact hdiff
  · intro h i j hi hj hij
    rw [KeysDiffer, getElem_placed, getElem_placed, hkey]
    exact h i j hij (length_placed 0x1000 ls ▸ hj)

theorem pairwise_extentsDisjoint_iff (ls : List (BitVec 64)) :
    (placed 0x1000 ls).Pairwise ExtentsDisjoint ↔
    ∀ i j, i < j → j < ls.length →
      Disjoint (Bump.range 0x1000 (2 ^ 64) (lengthAt ls) (roundedAt ls) i)
      (Bump.range 0x1000 (2 ^ 64) (lengthAt ls) (roundedAt ls) j) := by
  have hrange (i : ℕ) : extent (BitVec.ofNat 64 (startAt ls i)) (ls.getD i 0)
      = Bump.range 0x1000 (2 ^ 64) (lengthAt ls) (roundedAt ls) i := by
    rw [extent, BitVec.toNat_ofNat]
    rfl
  rw [List.pairwise_iff_getElem]
  constructor
  · intro h i j hij hj
    have hj' : j < (placed 0x1000 ls).length := (length_placed _ _).symm ▸ hj
    have hdisj := h i j (hij.trans hj') hj' hij
    rw [ExtentsDisjoint, getElem_placed, getElem_placed, hrange, hrange] at hdisj
    exact hdisj
  · intro h i j hi hj hij
    rw [ExtentsDisjoint, getElem_placed, getElem_placed, hrange, hrange]
    exact h i j hij (length_placed 0x1000 ls ▸ hj)

/-- **When the addresses are apart.** -/
theorem pairwise_iff_lengthsFit (ls : List (BitVec 64)) :
    (placed 0x1000 ls).Pairwise KeysDiffer ∧ (placed 0x1000 ls).Pairwise ExtentsDisjoint
      ↔ LengthsFit ls := by
  rw [pairwise_keysDiffer_iff, pairwise_extentsDisjoint_iff]
  have hdisj (hkeys : ∀ i j, i < j → j < ls.length →
    startAt ls i % 2 ^ 32 ≠ startAt ls j % 2 ^ 32) :=
    Bump.disjoint_iff (rounds ls) hkeys (by decide) (by decide) (by decide)
  constructor
  · rintro ⟨hkeys, hranges⟩
    exact ⟨hkeys, (hdisj hkeys).mp hranges⟩
  · rintro ⟨hkeys, htop⟩
    exact ⟨hkeys, (hdisj hkeys).mpr htop⟩

end Placed

/-! ## What the service makes of the requests -/

section Requests

variable {e : Env}

def AllocRequest.toRequest (r : AllocRequest) : Request where
  eth := r.eth
  app := r.app
  payload := []
  opcode_mem := .inr r.opcode_eq
  length_mem hop := by
    rw [r.opcode_eq] at hop
    exact absurd hop (by decide)
  payload_length := by
    rw [r.opcode_eq]
    rfl
  last_iff i d hd := by cases hd

/-- The requests that `parser` hands on. -/
def allocInfos (base : PipelineInfo) (nr : BitVec 64) (rs : List AllocRequest) :
    List PipelineInfo :=
  requestInfos base nr (rs.map AllocRequest.toRequest)

theorem allocInfos_cons (base : PipelineInfo) (nr : BitVec 64) (r : AllocRequest)
    (rs : List AllocRequest) :
    allocInfos base nr (r :: rs)
      = r.toRequest.info base nr :: allocInfos (r.toRequest.info base nr) (nr + 1) rs := rfl

/-- What becomes of each request: the address and the length of an allocation, or nothing. -/
def grants (e : Env) : ℕ → BitVec 64 → List AllocRequest → List (Option (BitVec 64 × BitVec 64))
  | _, _, [] => []
  | n, va, r :: rs =>
    if (e.alloc n buddyRequest).stat = 0 then
      some (va, r.app.length) :: grants e (n + 1) (va + rounded r.app.length) rs
    else none :: grants e (n + 1) va rs

theorem length_grants (n : ℕ) (va : BitVec 64) (rs : List AllocRequest) :
    (grants e n va rs).length = rs.length := by
  induction rs generalizing n va with
  | nil => rfl
  | cons r rs ih =>
    rw [grants]
    split
    · rw [List.length_cons, List.length_cons, ih]
    · rw [List.length_cons, List.length_cons, ih]

theorem snd_of_grants {n : ℕ} {va : BitVec 64} {rs : List AllocRequest} {i : ℕ} {r : AllocRequest}
    {a : BitVec 64 × BitVec 64} (hr : rs[i]? = some r)
    (ha : (grants e n va rs)[i]? = some (some a)) :
    a.2 = r.app.length := by
  induction rs generalizing n va i with
  | nil => cases hr
  | cons r' rs ih =>
    rw [grants] at ha
    cases i with
    | zero =>
      split at ha
      · rw [← Option.some.inj (Option.some.inj ha), ← Option.some.inj hr]
      · cases Option.some.inj ha
    | succ i =>
      split at ha
      · exact ih hr ha
      · exact ih hr ha

theorem filterMap_grants (n : ℕ) (va : BitVec 64) (rs : List AllocRequest) :
    (grants e n va rs).filterMap id = placed va (granted e n rs) := by
  induction rs generalizing n va with
  | nil => rfl
  | cons r rs ih =>
    rw [grants, granted]
    split
    · rw [placed, ← ih]
      rfl
    · rw [← ih]
      rfl

theorem asksOf_allocInfos (n : ℕ) (va : BitVec 64) (base : PipelineInfo) (nr : BitVec 64)
    (rs : List AllocRequest) :
    (asksOf (allocAll e n va (allocInfos base nr rs))).map MappingRequest.address
      = (placed va (granted e n rs)).map fun a ↦ a.1.setWidth 32 := by
  induction rs generalizing n va base nr with
  | nil => rfl
  | cons r rs ih =>
    have hop : (r.toRequest.info base nr).opcode = opcodeAlloc := r.opcode_eq
    have hiff := skipsMap_allocate hop va (e.alloc n buddyRequest)
    rw [allocInfos_cons, allocAll, if_pos hop, asksOf_cons, granted]
    by_cases hstat : (e.alloc n buddyRequest).stat = 0
    · have hreq : ((r.toRequest.info base nr).allocate va
        (e.alloc n buddyRequest)).1.mapRequest.address = va.setWidth 32 := by
        rw [PipelineInfo.mapRequest, opcode_allocate, if_pos hop, PipelineInfo.allocate,
          if_pos hstat]
      have hva : ((r.toRequest.info base nr).allocate va (e.alloc n buddyRequest)).2
        = va + rounded r.app.length := by
        rw [PipelineInfo.allocate, if_pos hstat]
        rfl
      rw [if_neg (mt hiff.mp (not_not_intro hstat)), if_pos hstat, List.map_append, hva, ih, placed,
        List.map_cons]
      exact congrArg (· :: _) hreq
    · have hva : ((r.toRequest.info base nr).allocate va (e.alloc n buddyRequest)).2 = va := by
        rw [PipelineInfo.allocate, if_neg hstat]
      rw [if_pos (hiff.mpr hstat), if_neg hstat, hva, List.nil_append, ih]

/-- The second header of a reply says what has become of the request. -/
def Answers (h : NetAxis) : Option (BitVec 64 × BitVec 64) → Prop
  | some a => h.opcode = opcodeReplyAlloc ∧ h.address = a.1
  | none => h.opcode ≠ opcodeReplyAlloc

theorem answers_replyHeader {pi : PipelineInfo} (hop : pi.opcode = opcodeAlloc) (va : BitVec 64)
    (ret : BuddyAllocRet) (length : BitVec 64) :
    Answers (pi.allocate va ret).1.replyHeader.1
      (if ret.stat = 0 then some (va, length) else none) := by
  rw [PipelineInfo.replyHeader, opcode_allocate]
  dsimp only
  rw [if_pos hop, PipelineInfo.allocate]
  by_cases hstat : ret.stat = 0
  · rw [if_pos hstat, if_pos hstat, if_pos rfl]
    constructor
    · simp
    · simp
  · have hne : piAllocFail ≠ piAllocSucceed := by decide
    rw [if_neg hstat, if_neg hstat]
    dsimp only
    rw [if_neg hne, Answers]
    simp only [opcode_last, opcode_setLength, opcode_setAddress, opcode_setOpcode]
    decide

theorem grants_cons (t : Turn) (r : AllocRequest) (rs : List AllocRequest) :
    grants e t.allocs t.va (r :: rs)
      = (if (e.alloc t.allocs buddyRequest).stat = 0 then some (t.va, r.app.length) else none)
        :: grants e (t.alloc (roundUp r.app.length 64) (e.alloc t.allocs buddyRequest)).allocs
          (t.alloc (roundUp r.app.length 64) (e.alloc t.allocs buddyRequest)).va rs := by
  rw [grants, Turn.alloc]
  split <;> rfl

/-- **The replies to the requests.** -/
theorem served_allocInfos (t : Turn) (base : PipelineInfo) (nr : BitVec 64)
    (rs : List AllocRequest) {i : ℕ}
    (hi : i < rs.length) : ∃ h g, (served e t (allocInfos base nr rs))[2 * i + 1]? = some h
      ∧ (grants e t.allocs t.va rs)[i]? = some g ∧ Answers h g := by
  induction rs generalizing t base nr i with
  | nil => exact absurd hi (Nat.not_lt_zero i)
  | cons r rs ih =>
    have hop : (r.toRequest.info base nr).opcode = opcodeAlloc := r.opcode_eq
    rw [allocInfos_cons, served_alloc_cons hop, grants_cons]
    cases i with
    | zero => exact ⟨_, _, rfl, rfl, answers_replyHeader hop _ _ _⟩
    | succ i => exact ih _ _ _ (Nat.lt_of_succ_lt_succ hi)

theorem Inv.ofAllocs (e : Env) (rs : List AllocRequest) :
    Inv e (served e .first (allocInfos {} 1 rs)) (.ofRequests e (rs.map AllocRequest.toRequest))
      (Service.init (rs.flatMap AllocRequest.units)) := by
  have hunits : (rs.map AllocRequest.toRequest).flatMap Request.units
    = rs.flatMap AllocRequest.units :=
    List.flatMap_map _ _ _
  rw [← hunits]
  exact Inv.ofRequests e _

end Requests

/-! ## What has been asked -/

section Asked

variable {e : Env} {out : List NetAxis} {v : View} {s : Service}

theorem Inv.run_asked (h : Inv e out v s) (as : List Action) :
    ∃ v', Inv e out v' (Machine.run (Service.step e) s as) ∧ asked e s as ++ asksOf v'.toMap
      = asksOf v.toMap := by
  induction as generalizing v s with
  | nil => exact ⟨v, h, rfl⟩
  | cons a as ih =>
    have hstep : ∃ v', Inv e out v' (s.step e a)
        ∧ (s.step e a).mapping.reqs.drop s.mapping.reqs.length ++ asksOf v'.toMap
          = asksOf v.toMap := by
      by_cases ha : a = .dramWrPipe
      · have hreqs : s.dramWrPipe.mapping = s.mapping := by
          rw [Service.dramWrPipe]
          split
          · split <;> rfl
          · split <;> rfl
        refine ⟨v, ha ▸ h.dramWrPipe, ?_⟩
        rw [ha, Service.step, hreqs, List.drop_length, List.nil_append]
      · obtain ⟨v', hv', hcarries⟩ := h.step_writes ha
        exact ⟨v', hv', hcarries.asks⟩
    obtain ⟨v₁, hv₁, hasks₁⟩ := hstep
    obtain ⟨v₂, hv₂, hasks₂⟩ := ih hv₁
    refine ⟨v₂, hv₂, ?_⟩
    rw [asked, List.append_assoc, hasks₂, hasks₁]

end Asked

/-! ## Whatever the schedule -/

section Apart

variable {e : Env} {rs : List AllocRequest}

theorem pairwise_grants_iff : (placed 0x1000 (granted e 0 rs)).Pairwise ExtentsDisjoint ↔
    ∀ i j : ℕ, i < j → ∀ a b, (grants e 0 0x1000 rs)[i]? = some (some a) →
      (grants e 0 0x1000 rs)[j]? = some (some b) →
      ExtentsDisjoint a b := by
  rw [← filterMap_grants, List.pairwise_filterMap, List.pairwise_iff_getElem]
  constructor
  · intro h i j hij a b ha hb
    obtain ⟨hi, ha⟩ := List.getElem?_eq_some_iff.mp ha
    obtain ⟨hj, hb⟩ := List.getElem?_eq_some_iff.mp hb
    exact h i j hi hj hij a ha b hb
  · intro h i j hi hj hij a ha b hb
    exact h i j hij a b (List.getElem?_eq_some_iff.mpr ⟨hi, ha⟩)
      (List.getElem?_eq_some_iff.mpr ⟨hj, hb⟩)

theorem pairwise_keys_iff : (placed 0x1000 (granted e 0 rs)).Pairwise KeysDiffer ↔
    (asksOf (View.ofRequests e (rs.map AllocRequest.toRequest)).toMap).Pairwise fun q q' ↦
      q.address ≠ q'.address := by
  have hkeys := @asksOf_allocInfos e 0 0x1000 {} 1 rs
  have hleft := @List.pairwise_map _ _ (fun a : BitVec 64 × BitVec 64 ↦ a.1.setWidth 32) (· ≠ ·)
    (placed 0x1000 (granted e 0 rs))
  have hright := @List.pairwise_map _ _ MappingRequest.address (· ≠ ·)
    (asksOf (View.ofRequests e (rs.map AllocRequest.toRequest)).toMap)
  exact hleft.symm.trans ((iff_of_eq (congrArg _ hkeys.symm)).trans hright)

theorem exists_reply {i : ℕ} {r : AllocRequest} (hr : rs[i]? = some r) :
    ∃ h g, (served e .first (allocInfos {} 1 rs))[2 * i + 1]? = some h
      ∧ (grants e 0 0x1000 rs)[i]? = some g
      ∧ ((h.opcode = opcodeReplyAlloc ∧ g = some (h.address, r.app.length))
        ∨ (h.opcode ≠ opcodeReplyAlloc ∧ g = none)) := by
  obtain ⟨hi, -⟩ := List.getElem?_eq_some_iff.mp hr
  obtain ⟨h, g, hout, hg, hans⟩ := @served_allocInfos e .first {} 1 rs i hi
  refine ⟨h, g, hout, hg, ?_⟩
  cases g with
  | none => exact .inr ⟨hans, rfl⟩
  | some a =>
    have hlen := snd_of_grants hr hg
    rw [hans.2, ← hlen]
    exact .inl ⟨hans.1, rfl⟩

theorem reply_of_grant {sent : List NetAxis} (hsent : sent = served e .first (allocInfos {} 1 rs))
    {k : ℕ} {a : BitVec 64 × BitVec 64} (ha : (grants e 0 0x1000 rs)[k]? = some (some a)) :
    ∃ r h, rs[k]? = some r ∧ sent[2 * k + 1]? = some h ∧ h.opcode = opcodeReplyAlloc
      ∧ a = (h.address, r.app.length) := by
  obtain ⟨hk, -⟩ := List.getElem?_eq_some_iff.mp ha
  rw [length_grants] at hk
  obtain ⟨h, g, hout, hg, hans⟩ := @exists_reply e rs k rs[k] (List.getElem?_eq_getElem hk)
  obtain rfl := Option.some.inj (ha.symm.trans hg)
  rcases hans with ⟨hop, hsome⟩ | ⟨-, hnone⟩
  · exact ⟨rs[k], h, List.getElem?_eq_getElem hk, hsent.symm ▸ hout, hop, Option.some.inj hsome⟩
  · cases hnone

theorem grant_of_reply {sent : List NetAxis} (hsent : sent <+: served e .first (allocInfos {} 1 rs))
    {k : ℕ} {r : AllocRequest} {h : NetAxis} (hr : rs[k]? = some r) (hh : sent[2 * k + 1]? = some h)
    (hop : h.opcode = opcodeReplyAlloc) :
    (grants e 0 0x1000 rs)[k]? = some (some (h.address, r.app.length)) := by
  obtain ⟨h', g, hout, hg, hans⟩ := @exists_reply e rs k r hr
  obtain rfl : h = h' := by
    obtain ⟨rest, hrest⟩ := hsent
    have hlt := (List.getElem?_eq_some_iff.mp hh).1
    rw [← hrest, List.getElem?_append_left hlt, hh] at hout
    exact Option.some.inj hout
  rcases hans with ⟨-, hsome⟩ | ⟨hne, -⟩
  · rw [hg, hsome]
  · exact absurd hop hne

/-- **The addresses of allocations** are apart under every schedule exactly if the lengths fit. -/
theorem addressesApart_iff (e : Env) (rs : List AllocRequest) :
    (∀ as, AddressesApart e rs as) ↔ LengthsFit (granted e 0 rs) := by
  rw [← pairwise_iff_lengthsFit, pairwise_grants_iff, pairwise_keys_iff]
  constructor
  · intro h
    -- a schedule after which everything has been asked and sent
    obtain ⟨as, -, hdrained⟩ := leads_drained ⟨_, Inv.ofAllocs e rs⟩
    obtain ⟨v, hv, hasked⟩ := (Inv.ofAllocs e rs).run_asked as
    have hsent := Bound.toNet_of_drained ⟨v, hv⟩ hdrained
    obtain ⟨htoMap, -, -⟩ := hv.quiet₃ hdrained.quiet₃
    rw [htoMap] at hasked
    have hall : asked e (Service.init (rs.flatMap AllocRequest.units)) as = asksOf
      (View.ofRequests e (rs.map AllocRequest.toRequest)).toMap :=
      (List.append_nil _).symm.trans hasked
    refine ⟨hall ▸ (h as).keys, fun i j hij a b ha hb ↦ ?_⟩
    obtain ⟨r, u, hr, hu, hop, rfl⟩ := reply_of_grant hsent ha
    obtain ⟨r', u', hr', hu', hop', rfl⟩ := reply_of_grant hsent hb
    exact (h as).ranges i j hij r r' u u' hr hr' hu hu' hop hop'
  · rintro ⟨hkeys, hdisj⟩ as
    obtain ⟨v, hv, hasked⟩ := (Inv.ofAllocs e rs).run_asked as
    have hsent : (afterAllocs e rs as).toNet <+: served e .first (allocInfos {} 1 rs) :=
      ⟨_, hv.output⟩
    refine ⟨fun i j hij r r' h h' hr hr' hh hh' hop hop' ↦ ?_, ?_⟩
    · exact hdisj i j hij _ _ (grant_of_reply hsent hr hh hop) (grant_of_reply hsent hr' hh' hop')
    · exact hkeys.sublist (List.IsPrefix.sublist ⟨_, hasked⟩)

/-! ### A key that is set twice -/

/-- An `ALLOC` of a length. -/
def allocOf (length : BitVec 64) : AllocRequest where
  eth := {}
  app := { header opcodeAlloc 0 length with last := 1 }
  opcode_eq := opcode_header _ _ _

/-- The allocator has two blocks, and the mapping takes everything. -/
def twoBlocks : Env where
  alloc n _ := if n = 0 then ⟨0, 0⟩ else if n = 1 then ⟨0, 512⟩ else ⟨1, 0⟩
  map _ _ := ⟨0, 0, 0⟩
  dram _ _ _ := 0

/-- The second of two allocations overwrites the mapping of the first one, of `2 ^ 32` bytes. -/
theorem not_addressesApart_large :
    ¬∀ as, AddressesApart twoBlocks [allocOf 0x100000000, allocOf 64] as := by
  intro h
  have hkeys := (h (roundRobin 8)).keys
  revert hkeys
  decide +kernel

end Apart

end FpgaOs.Rdm
