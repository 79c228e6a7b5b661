import FpgaOs.Lib.Machine
import FpgaOs.Lib.Query
import FpgaOs.Rdm.Format

/-!
# Two clients of one buddy allocator

`buddy_alloc_mux` forwards the requests of two clients to one allocator. An answer does not say
whose request it is for, so the multiplexer forwards one request at a time and keeps in `channel`
whose it was. `Mux` is its state with the streams, the allocator, and a record of what has arrived
and what has been forwarded.

The allocator answers its requests in order, each once and at any time: the `n`-th forwarded request
`r` gets the answer `f n r`, where `f` is arbitrary.
-/

namespace FpgaOs.Paging

open Rdm Mapping

/-- `enum MUX_STATUS`. -/
inductive MuxStatus
  | send
  | ret
  deriving DecidableEq

structure Mux where
  /-- All requests that have arrived, from the first and the second client. -/
  arrived1 : List BuddyAlloc
  arrived2 : List BuddyAlloc
  buddyAllocReq1 : List BuddyAlloc
  buddyAllocReq2 : List BuddyAlloc
  state : MuxStatus
  channel : BitVec 1
  /-- All requests that have been forwarded. -/
  forwarded : List BuddyAlloc
  /-- The allocator, between `fwd_buddy_alloc_req` and `fwd_buddy_alloc_ret`. -/
  allocator : Query BuddyAlloc BuddyAllocRet
  buddyAllocRet1 : List BuddyAllocRet
  buddyAllocRet2 : List BuddyAllocRet

namespace Mux

def init : Mux := ⟨[], [], [], [], .send, 0, [], .empty, [], []⟩

/-- `buddy_alloc_mux` is called. -/
def buddyAllocMux (s : Mux) : Mux :=
  match s.state with
  | .send =>
    match s.buddyAllocReq1, s.buddyAllocReq2 with
    | r :: rest, _ =>
      { s with
        buddyAllocReq1 := rest
        forwarded := s.forwarded ++ [r]
        allocator := s.allocator.ask r
        channel := 0
        state := .ret }
    | [], r :: rest =>
      { s with
        buddyAllocReq2 := rest
        forwarded := s.forwarded ++ [r]
        allocator := s.allocator.ask r
        channel := 1
        state := .ret }
    | [], [] => s
  | .ret =>
    match s.allocator.rets with
    | [] => s
    | x :: rest =>
      if s.channel = 0 then
        { s with
          allocator := { s.allocator with rets := rest }
          buddyAllocRet1 := s.buddyAllocRet1 ++ [x]
          state := .send }
      else
        { s with
          allocator := { s.allocator with rets := rest }
          buddyAllocRet2 := s.buddyAllocRet2 ++ [x]
          state := .send }

/-- What can happen next. -/
inductive Action
  | arrive1 (r : BuddyAlloc)
  | arrive2 (r : BuddyAlloc)
  | call
  | answer
  deriving DecidableEq

def step (f : ℕ → BuddyAlloc → BuddyAllocRet) (s : Mux) : Action → Mux
  | .arrive1 r =>
    { s with arrived1 := s.arrived1 ++ [r], buddyAllocReq1 := s.buddyAllocReq1 ++ [r] }
  | .arrive2 r =>
    { s with arrived2 := s.arrived2 ++ [r], buddyAllocReq2 := s.buddyAllocReq2 ++ [r] }
  | .call => s.buddyAllocMux
  | .answer => { s with allocator := s.allocator.answer f }

/-! ## Clients -/

/-- The requests of a client that have arrived; a client is known by its channel. -/
def arrived (s : Mux) (c : BitVec 1) : List BuddyAlloc := if c = 0 then s.arrived1 else s.arrived2

def req (s : Mux) (c : BitVec 1) : List BuddyAlloc :=
  if c = 0 then s.buddyAllocReq1 else s.buddyAllocReq2

def ret (s : Mux) (c : BitVec 1) : List BuddyAllocRet :=
  if c = 0 then s.buddyAllocRet1 else s.buddyAllocRet2

/-- Those of the `xs` that belong to a client, where `cs` says whose they are. -/
def pick {α : Type*} (c : BitVec 1) (cs : List (BitVec 1)) (xs : List α) : List α :=
  ((cs.zip xs).filter (·.1 = c)).map Prod.snd

/-- The requests that have been forwarded are those of the clients `cs`, and the multiplexer has
kept the two clients apart. -/
structure Shares (f : ℕ → BuddyAlloc → BuddyAllocRet) (cs : List (BitVec 1)) (s : Mux) : Prop where
  length : cs.length = s.forwarded.length
  /-- What has been forwarded for a client, and what has not, are its requests in order. -/
  order : ∀ c, pick c cs s.forwarded ++ s.req c = s.arrived c
  /-- All forwarded requests but the last have been answered. -/
  answered : s.forwarded.length = s.allocator.answered + s.allocator.reqs.length
  one : s.allocator.reqs.length ≤ 1
  /-- A client has got the answers to its own requests, of those that the multiplexer has read. -/
  replies : ∀ c, s.ret c = pick c cs ((s.forwarded.mapIdx f).take s.allocator.taken)

/-- Everything has been forwarded, answered and handed back. -/
structure Served (s : Mux) : Prop where
  req : ∀ c, s.req c = []
  state : s.state = .send
  reqs : s.allocator.reqs = []
  rets : s.allocator.rets = []
  taken : s.allocator.taken = s.forwarded.length

/-! ## The invariant -/

section Invariant

variable {f : ℕ → BuddyAlloc → BuddyAllocRet} {cs : List (BitVec 1)} {s : Mux}

theorem pick_concat {α : Type*} (c d : BitVec 1) {cs : List (BitVec 1)} {xs : List α} (x : α)
    (h : cs.length = xs.length) :
    pick c (cs ++ [d]) (xs ++ [x]) = pick c cs xs ++ if d = c then [x] else [] := by
  rw [pick, List.zip_append h, List.filter_append, List.map_append]
  congr 1
  by_cases hd : d = c
  · simp [hd]
  · simp [hd]

theorem pick_concat_left {α : Type*} (c d : BitVec 1) {cs : List (BitVec 1)} {xs : List α}
    (h : cs.length = xs.length) : pick c (cs ++ [d]) xs = pick c cs xs := by
  have hzip := @List.zip_append _ _ cs [d] xs [] h
  rw [List.append_nil, List.zip_nil_right, List.append_nil] at hzip
  rw [pick, hzip]
  rfl

/-- In `MUX_SEND` nothing is outstanding; in `MUX_RET` the last forwarded request is, and `channel`
is its client. -/
def Serving (f : ℕ → BuddyAlloc → BuddyAllocRet) (cs : List (BitVec 1)) (s : Mux) : Prop :=
  if s.state = .send then
    s.allocator.Idle ∧ s.allocator.taken = s.forwarded.length
      ∧ ∀ c, s.ret c = pick c cs (s.forwarded.mapIdx f)
  else
    ∃ ds done r, cs = ds ++ [s.channel] ∧ s.forwarded = done ++ [r] ∧ ds.length = done.length
      ∧ s.allocator.Waiting f r ∧ s.allocator.taken = done.length
        ∧ ∀ c, s.ret c = pick c ds (done.mapIdx f)

structure Inv (f : ℕ → BuddyAlloc → BuddyAllocRet) (cs : List (BitVec 1)) (s : Mux) : Prop where
  length : cs.length = s.forwarded.length
  order : ∀ c, pick c cs s.forwarded ++ s.req c = s.arrived c
  serving : Serving f cs s

theorem inv_init : Inv f [] init where
  length := rfl
  order c := by
    rw [req, arrived]
    split <;> rfl
  serving := by
    refine ⟨Query.idle_empty, rfl, fun c ↦ ?_⟩
    rw [ret]
    split <;> rfl

theorem eq_zero_or_one : ∀ c : BitVec 1, c = 0 ∨ c = 1 := by decide

theorem Inv.arrive1 (h : Inv f cs s) (r : BuddyAlloc) : Inv f cs (s.step f (.arrive1 r)) where
  length := h.length
  order c := by
    have horder := h.order c
    rw [req, arrived] at horder ⊢
    obtain rfl | rfl := eq_zero_or_one c
    · rw [if_pos rfl, if_pos rfl] at horder ⊢
      rw [step, ← horder, List.append_assoc]
    · exact horder
  serving := h.serving

theorem Inv.arrive2 (h : Inv f cs s) (r : BuddyAlloc) : Inv f cs (s.step f (.arrive2 r)) where
  length := h.length
  order c := by
    have horder := h.order c
    rw [req, arrived] at horder ⊢
    obtain rfl | rfl := eq_zero_or_one c
    · exact horder
    · rw [if_neg (by decide), if_neg (by decide)] at horder ⊢
      rw [step, ← horder, List.append_assoc]
  serving := h.serving

theorem Inv.answer (h : Inv f cs s) : Inv f cs (s.step f .answer) where
  length := h.length
  order := h.order
  serving := by
    have hserving := h.serving
    rw [Serving] at hserving ⊢
    rw [step]
    split
    · next hst =>
      rw [if_pos hst] at hserving
      rw [hserving.1.answer]
      exact hserving
    · next hst =>
      rw [if_neg hst] at hserving
      obtain ⟨ds, done, r, hcs, hfwd, hlen, hwait, htaken, hret⟩ := hserving
      obtain ⟨hwait', htaken'⟩ := hwait.answer
      exact ⟨ds, done, r, hcs, hfwd, hlen, hwait', htaken'.trans htaken, hret⟩

theorem Inv.forward (h : Inv f cs s) (hst : s.state = .send) {c : BitVec 1}
    {r : BuddyAlloc} {s' : Mux} (hreq : ∀ d, (if c = d then [r] else []) ++ s'.req d = s.req d)
    (harrived : s'.arrived = s.arrived)
    (hret : s'.ret = s.ret) (hfwd : s'.forwarded = s.forwarded ++ [r])
    (halloc : s'.allocator = s.allocator.ask r)
    (hchannel : s'.channel = c) (hst' : s'.state = .ret) : Inv f (cs ++ [c]) s' where
  length := by rw [hfwd, List.length_append, List.length_append, h.length]; rfl
  order d := by
    rw [hfwd, pick_concat d c r h.length, List.append_assoc, hreq, harrived]
    exact h.order d
  serving := by
    have hserving := h.serving
    rw [Serving, if_pos hst] at hserving
    rw [Serving, if_neg (by rw [hst']; decide), halloc, hret, hchannel]
    obtain ⟨hidle, htaken, hret⟩ := hserving
    exact ⟨cs, s.forwarded, r, rfl, hfwd, h.length, hidle.ask r, htaken, hret⟩

theorem Inv.return (h : Inv f cs s) (hst : s.state ≠ .send) {x : BuddyAllocRet}
    {rest : List BuddyAllocRet} (hrets : s.allocator.rets = x :: rest) {s' : Mux}
    (hret : ∀ d, s'.ret d = s.ret d ++ if s.channel = d then [x] else [])
    (harrived : s'.arrived = s.arrived) (hreq : s'.req = s.req) (hfwd : s'.forwarded = s.forwarded)
    (halloc : s'.allocator = { s.allocator with rets := rest }) (hst' : s'.state = .send) :
      Inv f cs s' where
  length := by rw [hfwd]; exact h.length
  order d := by
    rw [hfwd, hreq, harrived]
    exact h.order d
  serving := by
    have hserving := h.serving
    rw [Serving, if_neg hst] at hserving
    obtain ⟨ds, done, r, rfl, hdone, hlen, hwait, htaken, hold⟩ := hserving
    obtain ⟨hx, hidle, hnext⟩ := hwait.read hrets
    rw [Serving, if_pos hst', halloc, hfwd, hdone]
    refine ⟨hidle, ?_, fun d ↦ ?_⟩
    · rw [hnext, htaken, List.length_append]
      rfl
    · rw [hret, hold, List.mapIdx_concat,
        pick_concat d s.channel _ (by rw [List.length_mapIdx]; exact hlen), hx, htaken]

theorem Inv.call (h : Inv f cs s) : ∃ cs', Inv f cs' s.buddyAllocMux := by
  rw [buddyAllocMux]
  split
  · next hst =>
    -- the first channel has priority
    split
    · next r rest _ hreq =>
      refine ⟨cs ++ [0], h.forward hst (fun d ↦ ?_) rfl rfl rfl rfl rfl rfl⟩
      rw [req, req]
      obtain rfl | rfl := eq_zero_or_one d
      · exact hreq.symm
      · rfl
    · next r rest _ hreq =>
      refine ⟨cs ++ [1], h.forward hst (fun d ↦ ?_) rfl rfl rfl rfl rfl rfl⟩
      rw [req, req]
      obtain rfl | rfl := eq_zero_or_one d
      · rfl
      · exact hreq.symm
    · exact ⟨cs, h⟩
  · next hst =>
    have hne : s.state ≠ .send := by rw [hst]; decide
    split
    · exact ⟨cs, h⟩
    · next x rest hrets =>
      split
      · next hch =>
        refine ⟨cs, h.return hne hrets (fun d ↦ ?_) rfl rfl rfl rfl rfl⟩
        rw [ret, ret, hch]
        obtain rfl | rfl := eq_zero_or_one d
        · rfl
        · exact (List.append_nil _).symm
      · next hch =>
        have hone : s.channel = 1 := (eq_zero_or_one _).resolve_left hch
        refine ⟨cs, h.return hne hrets (fun d ↦ ?_) rfl rfl rfl rfl rfl⟩
        rw [ret, ret, hone]
        obtain rfl | rfl := eq_zero_or_one d
        · exact (List.append_nil _).symm
        · rfl

/-- **The step lemma.** -/
theorem Inv.step (h : Inv f cs s) (a : Action) : ∃ cs', Inv f cs' (s.step f a) := by
  cases a with
  | arrive1 r => exact ⟨cs, h.arrive1 r⟩
  | arrive2 r => exact ⟨cs, h.arrive2 r⟩
  | call => exact h.call
  | answer => exact ⟨cs, h.answer⟩

/-- **The run lemma.** -/
theorem Inv.run (h : Inv f cs s) (as : List Action) :
    ∃ cs', Inv f cs' (Machine.run (Mux.step f) s as) := by
  induction as generalizing cs s with
  | nil => exact ⟨cs, h⟩
  | cons a as ih =>
    obtain ⟨cs', h'⟩ := h.step a
    exact ih h'

theorem Inv.shares (h : Inv f cs s) : Shares f cs s := by
  have hserving := h.serving
  rw [Serving] at hserving
  split at hserving
  · obtain ⟨⟨hreqs, hrets⟩, htaken, hret⟩ := hserving
    have hanswered : s.allocator.answered = s.forwarded.length := by
      rw [← htaken, Query.taken, hrets]
      rfl
    refine ⟨h.length, h.order, ?_, ?_, fun c ↦ ?_⟩
    · rw [hanswered, hreqs]
      rfl
    · rw [hreqs]
      exact Nat.zero_le 1
    · rw [hret, htaken, List.take_of_length_le (by rw [List.length_mapIdx])]
  · obtain ⟨ds, done, r, rfl, hfwd, hlen, hwait, htaken, hret⟩ := hserving
    have hcount : s.forwarded.length = s.allocator.answered + s.allocator.reqs.length
        ∧ s.allocator.reqs.length ≤ 1 := by
      rw [hfwd, List.length_append, ← htaken, Query.taken, List.length_singleton]
      -- the call is still with the allocator, or its answer waits
      obtain ⟨hreqs, hrets⟩ | ⟨hreqs, hrets, hpos⟩ := hwait
      · rw [hreqs, hrets]
        exact ⟨rfl, Nat.le_refl 1⟩
      · rw [hreqs, hrets]
        exact ⟨Nat.sub_add_cancel hpos, Nat.zero_le 1⟩
    have hlen' : ds.length = (done.mapIdx f).length := by rw [List.length_mapIdx, hlen]
    refine ⟨h.length, h.order, hcount.1, hcount.2, fun c ↦ ?_⟩
    rw [hret, hfwd, List.mapIdx_concat, htaken, List.take_left' List.length_mapIdx,
      pick_concat_left c s.channel hlen']

/-! ## Everything is served -/

/-- The number of calls that are needed. -/
def toDo (s : Mux) : ℕ :=
  2 * (s.buddyAllocReq1.length + s.buddyAllocReq2.length) + if s.state = .send then 0 else 1

theorem Inv.moves_ret (h : Inv f cs s) (hst : s.state = .ret) :
    ∃ cs', Inv f cs' (s.step f .answer).buddyAllocMux ∧ (s.step f .answer).buddyAllocMux.toDo
      < s.toDo := by
  have hserving := h.serving
  rw [Serving, if_neg (by rw [hst]; decide)] at hserving
  obtain ⟨ds, done, r, -, -, -, hwait, -⟩ := hserving
  obtain ⟨cs', h'⟩ := h.answer.call
  refine ⟨cs', h', ?_⟩
  obtain ⟨x, rest, hrets⟩ := List.exists_cons_of_ne_nil hwait.ready
  have hst' : (s.step f .answer).state = .ret := hst
  have hrets' : (s.step f .answer).allocator.rets = x :: rest := hrets
  have hdo : s.toDo = 2 * (s.buddyAllocReq1.length + s.buddyAllocReq2.length) + 1 := by
    rw [toDo, if_neg (by rw [hst]; decide)]
  rw [hdo, buddyAllocMux, hst']
  dsimp only
  rw [hrets']
  dsimp only
  split
  · exact Nat.lt_succ_self _
  · exact Nat.lt_succ_self _

theorem Inv.moves_send (h : Inv f cs s) (hst : s.state = .send)
    (hreq : s.buddyAllocReq1 ≠ [] ∨ s.buddyAllocReq2 ≠ []) :
    ∃ cs', Inv f cs' s.buddyAllocMux ∧ s.buddyAllocMux.toDo < s.toDo := by
  obtain ⟨cs', h'⟩ := h.call
  refine ⟨cs', h', ?_⟩
  have hdo : s.toDo = 2 * (s.buddyAllocReq1.length + s.buddyAllocReq2.length) := by
    rw [toDo, if_pos hst]
    rfl
  rw [hdo, buddyAllocMux, hst]
  dsimp only
  split
  · next r rest _ h1 =>
    rw [toDo, if_neg (by decide : MuxStatus.ret ≠ .send), h1, List.length_cons]
    dsimp only
    omega
  · next r rest h1 h2 =>
    rw [toDo, if_neg (by decide : MuxStatus.ret ≠ .send), h2, List.length_cons]
    dsimp only
    omega
  · next h1 h2 => exact (hreq.elim (fun hne ↦ hne h1) fun hne ↦ hne h2).elim

theorem Inv.served (h : Inv f cs s) (hst : s.state = .send) (h1 : s.buddyAllocReq1 = [])
    (h2 : s.buddyAllocReq2 = []) : s.Served := by
  have hserving := h.serving
  rw [Serving, if_pos hst] at hserving
  refine ⟨fun c ↦ ?_, hst, hserving.1.1, hserving.1.2, hserving.2.1⟩
  rw [req]
  split
  · exact h1
  · exact h2

/-- Calls and answers alone serve all requests that have arrived. -/
theorem Inv.leads_served (h : Inv f cs s) :
    Machine.Leads (Mux.step f) (· ∈ [.call, .answer]) s Served := by
  have hmove : ∀ s, (∃ cs, Inv f cs s) → Machine.Leads (Mux.step f) (· ∈ [.call, .answer]) s Served
      ∨ Machine.Leads (Mux.step f) (· ∈ [.call, .answer]) s fun s' ↦ (∃ cs, Inv f cs s')
        ∧ s'.toDo < s.toDo := by
    intro s ⟨cs, h⟩
    cases hst : s.state with
    | send =>
      by_cases hreq : s.buddyAllocReq1 ≠ [] ∨ s.buddyAllocReq2 ≠ []
      · obtain ⟨cs', h', hlt⟩ := h.moves_send hst hreq
        exact .inr (.once List.mem_cons_self ⟨⟨cs', h'⟩, hlt⟩)
      · rw [not_or, not_not, not_not] at hreq
        exact .inl (.now (h.served hst hreq.1 hreq.2))
    | ret =>
      obtain ⟨cs', h', hlt⟩ := h.moves_ret hst
      exact .inr (.next (List.mem_cons_of_mem _ List.mem_cons_self)
        (.once List.mem_cons_self ⟨⟨cs', h'⟩, hlt⟩))
  exact Machine.Leads.of_measure toDo hmove ⟨cs, h⟩

end Invariant

/-- The multiplexer after a sequence of arrivals, calls and answers. -/
def after (f : ℕ → BuddyAlloc → BuddyAllocRet) (as : List Action) : Mux :=
  Machine.run (step f) init as

/-- **Sharing the allocator.** Whatever arrives and in whatever order calls and answers come, the
forwarded requests are those of the two clients, each in its own order, at most one is unanswered,
and each client has got the answers to its own requests. What has arrived can always be served to
the end. -/
theorem shares_allocator (f : ℕ → BuddyAlloc → BuddyAllocRet) (as : List Action) :
    (∃ cs, Shares f cs (after f as)) ∧ Machine.Leads (step f) (· ∈ [.call, .answer])
    (after f as) Served := by
  obtain ⟨cs, h⟩ := inv_init.run as
  exact ⟨⟨cs, h.shares⟩, h.leads_served⟩

end Mux

end FpgaOs.Paging
