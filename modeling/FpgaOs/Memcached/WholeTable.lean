import FpgaOs.Memcached.Dictionary

/-!
# From packets to answers

`hashTableWithBuddy` joins the front end and the stages with three streams. `WholeTable` is all of
it but `ht_outputLogic`, together with the memory: packets are sent to it, and every function is
called whenever the schedule says so. What the front end has written for `concurrencyControl` takes
any time to arrive there.

Seen from the stages nothing is new. Words arrive in some order, and they are those with which the
pipeline is started (`seen_stages`), whatever the front end does (`seen_front`). So a client that
sends packets sees a dictionary (`answered_prefix`): it is told what the map of its keys to values
says to one request after the other. If no key but the last one stalls `hashKeyResizer`, and no
function is forgotten, all requests that it has sent are answered (`answered_of_rounds`). As before
it has to wait for the answer to a `SET` or a `DELETE` before it sends a packet whose key has the
same bucket, unless the filter is enabled.
-/

namespace FpgaOs.Memcached

open Machine FrontEnd

/-! ## Words on their way -/

/-- What the front end has written in addition to `q` is on its way. -/
def Pipeline.receive (s : Pipeline) (q q' : FrontStreams) : Pipeline :=
  { s with
    words := s.words ++ q'.in2cc.drop q.in2cc.length
    mds := s.mds ++ q'.in2ccMd.drop q.in2ccMd.length
    hashes := s.hashes ++ q'.hash2cc.drop q.hash2cc.length }

/-- What has been put out is a part of this. -/
structure FrontStreams.Before (q q' : FrontStreams) : Prop where
  in2cc : q.in2cc <+: q'.in2cc
  in2ccMd : q.in2ccMd <+: q'.in2ccMd
  hash2cc : q.hash2cc <+: q'.hash2cc

theorem append_drop_append_drop {α : Type*} {l l' l'' : List α} (h : l <+: l')
    (h' : l' <+: l'') (xs : List α) :
    xs ++ l'.drop l.length ++ l''.drop l'.length = xs ++ l''.drop l.length := by
  obtain ⟨a, rfl⟩ := h
  obtain ⟨b, rfl⟩ := h'
  rw [List.drop_left, List.drop_left, List.append_assoc l a b, List.drop_left, List.append_assoc]

theorem Pipeline.receive_receive (s : Pipeline) {q q' q'' : FrontStreams} (h : q.Before q')
    (h' : q'.Before q'') : (s.receive q q').receive q' q'' = s.receive q q'' := by
  rw [receive, receive, receive]
  dsimp only
  rw [append_drop_append_drop h.in2cc h'.in2cc, append_drop_append_drop h.in2ccMd h'.in2ccMd,
    append_drop_append_drop h.hash2cc h'.hash2cc]

/-- Nothing is new. -/
theorem Pipeline.receive_of_before (s : Pipeline) {q q' : FrontStreams} (h : q'.Before q) :
    s.receive q q' = s := by
  rw [receive, List.drop_eq_nil_of_le h.in2cc.length_le, List.drop_eq_nil_of_le h.in2ccMd.length_le,
    List.drop_eq_nil_of_le h.hash2cc.length_le, List.append_nil, List.append_nil, List.append_nil]

theorem FrontStreams.Before.refl (q : FrontStreams) : q.Before q :=
  ⟨List.prefix_rfl, List.prefix_rfl, List.prefix_rfl⟩

theorem Pipeline.receive_step (s : Pipeline) (e : Event) (q q' : FrontStreams) :
    (s.step e).receive q q' = s.receive q q'
      ∨ (s.step e).receive q q' = (s.receive q q').step e := by
  cases e with
  | word =>
    cases hwords : s.words with
    | nil => rw [step, hwords]; exact .inl rfl
    | cons w words =>
      right
      rw [receive, receive, step, step, hwords]
      rfl
  | md =>
    cases hmds : s.mds with
    | nil => rw [step, hmds]; exact .inl rfl
    | cons m mds =>
      right
      rw [receive, receive, step, step, hmds]
      rfl
  | hash =>
    cases hhashes : s.hashes with
    | nil => rw [step, hhashes]; exact .inl rfl
    | cons k hashes =>
      right
      rw [receive, receive, step, step, hhashes]
      rfl
  | _ => exact .inr rfl

theorem Pipeline.mds_eq_nil {s : Pipeline} (h : s.step .md = s) : s.mds = [] := by
  rw [Pipeline.step] at h
  cases hmds : s.mds with
  | nil => rfl
  | cons m mds =>
    rw [hmds] at h
    exact absurd ((congrArg Pipeline.mds h).trans hmds).symm (List.cons_ne_self _ _)

/-! ## The code -/

/-- The functions of `hashTableWithBuddy` up to `memWriteWithBuddy`, the memory, and the packets
that have not been sent. -/
structure WholeTable where
  toSend : List ClientPacket
  front : FrontEnd
  stages : Pipeline

namespace WholeTable

/-- A packet is sent, or something happens in one of the parts. -/
inductive Event
  | send
  | front (e : FrontEnd.Event)
  | stages (e : Pipeline.Event)
  deriving DecidableEq

variable (s : WholeTable)

def step : Event → WholeTable
  | .send =>
    match s.toSend with
    | [] => s
    | p :: toSend => { s with toSend, front := { s.front with input := s.front.input ++ p.words } }
  | .front e =>
    let front := s.front.step e
    { s with front, stages := s.stages.receive s.front.q front.q }
  | .stages e => { s with stages := s.stages.step e }

/-- These packets are to be sent. -/
def start (ps : List ClientPacket) (enabled : Bool) : WholeTable :=
  ⟨ps, FrontEnd.start [], .start [] enabled⟩

variable (ps : List ClientPacket)

/-- The packets that have been sent. -/
def sent : List ClientPacket := ps.take (ps.length - s.toSend.length)

/-- The packets that have been sent and are not answered. -/
def pending : List ClientPacket := (s.sent ps).drop s.stages.q.memWr2out.length

/-- A packet is sent only when those that change its bucket have been answered, or the filter sees
to it. -/
def Waits (e : Event) : Prop :=
  s.stages.cc.hashFilter.enabled = true ∨
    (e = .send → ∀ p' ∈ s.toSend.head?, ∀ p ∈ s.pending ps, p.Spares p')

instance (e : Event) : Decidable (Waits s ps e) := inferInstanceAs (Decidable (_ ∨ _))

/-! ## What the stages see -/

/-- All that the stages are to get for these requests. -/
def wanted (rs : List TableRequest) : FrontStreams where
  in2cc := rs.flatMap fun r ↦ r.toCc.words
  in2ccMd := rs.map fun r ↦ r.toCc.md
  hash2cc := rs.map fun r ↦ r.toCc.hash

variable {s : WholeTable} {ps : List ClientPacket} {rs : List TableRequest}

/-- The stages, with all that they still have to get. -/
def seen (s : WholeTable) (rs : List TableRequest) : Pipeline :=
  s.stages.receive s.front.q (wanted rs)

theorem seen_send : (s.step .send).seen rs = s.seen rs := by
  rw [step]
  split <;> rfl

theorem seen_front {e : FrontEnd.Event} (h : (s.front.step e).q.Before (wanted rs)) :
    (s.step (.front e)).seen rs = s.seen rs := by
  obtain ⟨hcc, hmd, hhash⟩ := prefix_step s.front e
  exact s.stages.receive_receive ⟨hcc, hmd, hhash⟩ h

theorem seen_stages (e : Pipeline.Event) :
    (s.step (.stages e)).seen rs = s.seen rs ∨ (s.step (.stages e)).seen rs = (s.seen rs).step e :=
  s.stages.receive_step e s.front.q (wanted rs)

/-! ## What is put out -/

/-- These are the requests that the packets carry, and whatever the front end puts out for the
packets is a part of what the stages are to get for the requests. -/
structure Serves (ps : List ClientPacket) (rs : List TableRequest) : Prop where
  carries : List.Forall₂ (fun p r ↦ FrontEnd.Carries p.toRequestPacket r) ps rs
  before : ∀ t, Reaches FrontEnd.step Ready (.start (ps.map ClientPacket.toRequestPacket)) t →
    t.q.Before (wanted rs)

/-- After so many rounds the front end is done with the packets, and everything has been put out. -/
def EndsWithin (ps : List ClientPacket) (rs : List TableRequest) (n : ℕ) : Prop :=
  ∀ t, Reaches FrontEnd.step Ready (.start (ps.map ClientPacket.toRequestPacket)) t →
    ∀ rounds : List (List FrontEnd.Event), (∀ r ∈ rounds, ∀ e, e ∈ r) → n ≤ rounds.length →
      let s := run FrontEnd.step t rounds.flatten
      Ended Ready s ∧ (wanted rs).Before s.q

theorem exists_serves (ps : List ClientPacket) :
    ∃ rs, Serves ps rs
      ∧ ((∀ p ∈ ps.dropLast, ¬Stalls p.key.length) → ∃ n, EndsWithin ps rs n) := by
  let packets := ps.map ClientPacket.toRequestPacket
  obtain ⟨wss, hcut, hpre, n, hall⟩ := exists_puts packets
  have hops : ∀ p ∈ packets, ∃ op : Operation, op.code = p.first.operation := by
    intro p hp
    obtain ⟨c, -, rfl⟩ := List.mem_map.mp hp
    exact ⟨c.op, c.code⟩
  obtain ⟨rs, hcarries, hwords, hmds, hhashes⟩ := exists_forall_carries hcut hops
  have hhashed : hashes packets <+: (wanted rs).hash2cc := by
    rw [wanted, hhashes, hashes]
    exact (hashed_isPrefix _).map _
  rw [← hwords, ← hmds] at hpre hall
  refine ⟨rs, ⟨List.forall₂_map_left_iff.mp hcarries, ?_⟩, fun hstall ↦ ⟨n, ?_⟩⟩
  · rintro t ⟨es, -, rfl⟩
    obtain ⟨hcc, hmd, hhash⟩ := hpre es
    exact ⟨hcc, hmd, hhash.trans hhashed⟩
  · rintro t ⟨es, -, rfl⟩ rounds hrounds hlen
    obtain ⟨hended, hcc, hmd, hhash⟩ := hall es rounds hrounds hlen
    rw [run_append] at hended hcc hmd hhash
    have hkeys : hashed (packets.map RequestPacket.key) = packets.map RequestPacket.key := by
      refine hashed_eq fun key hkey ↦ ?_
      rw [← List.map_dropLast, ← List.map_dropLast, List.map_map] at hkey
      obtain ⟨p, hp, rfl⟩ := List.mem_map.mp hkey
      exact hstall p hp
    refine ⟨hended, hcc ▸ List.prefix_rfl, hmd ▸ List.prefix_rfl, ?_⟩
    rw [hhash, hashes, hkeys, ← hhashes]
    exact List.prefix_rfl

/-! ## The invariant -/

/-- What the front end has done it has done with the packets that have been sent, and the stages are
somewhere on their way with the requests that these packets carry. -/
structure Sound (ps : List ClientPacket) (rs : List TableRequest) (s : WholeTable) : Prop where
  split : s.sent ps ++ s.toSend = ps
  front : Reaches FrontEnd.step Ready
    (.start ((s.sent ps).map ClientPacket.toRequestPacket)) s.front
  inv : ∃ p, Inv .blank rs (jobs .blank rs) p (s.seen rs)
  apart : s.stages.cc.hashFilter.enabled = true ∨ (s.pending ps).Pairwise ClientPacket.Spares

theorem Sound.before (h : Sound ps rs s) (hserves : Serves ps rs) {t : FrontEnd}
    (ht : Reaches FrontEnd.step Ready s.front t) : t.q.Before (wanted rs) := by
  have hall := reaches_start_append (h.front.trans ht) (s.toSend.map ClientPacket.toRequestPacket)
  rw [← List.map_append, h.split] at hall
  have hbefore := hserves.before _ hall
  exact hbefore

/-- No more metadata have been put out than packets have been sent. -/
theorem Sound.sent_seen_le (h : Sound ps rs s) (hserves : Serves ps rs) :
    (s.seen rs).sent rs ≤ (s.sent ps).length := by
  obtain ⟨es, -, hrun⟩ := h.front
  obtain ⟨wss, -, hpre, -⟩ := exists_puts ((s.sent ps).map ClientPacket.toRequestPacket)
  have hle := (hpre es).2.1.length_le
  have hput := (h.before hserves (.refl _)).in2ccMd.length_le
  rw [hrun, List.map_map, List.length_map] at hle
  rw [wanted, List.length_map] at hput
  rw [Pipeline.sent, seen, Pipeline.receive, wanted, List.length_append, List.length_drop,
    List.length_map]
  omega

theorem Serves.pairwise_spares (h : Serves ps rs) (n a : ℕ)
    (hspares : ((ps.take n).drop a).Pairwise ClientPacket.Spares) :
    ((rs.take n).drop a).Pairwise TableRequest.Spares := by
  have hcarries := List.forall₂_drop a (List.forall₂_take n h.carries)
  have hlen := hcarries.length_eq
  rw [List.pairwise_iff_getElem] at hspares ⊢
  intro i j hi hj hij
  have hi' := hcarries.get (hlen ▸ hi) hi
  have hj' := hcarries.get (hlen ▸ hj) hj
  exact hi'.spares hj' (hspares i j _ _ hij)

theorem Sound.apart_seen (h : Sound ps rs s) (hserves : Serves ps rs) : (s.seen rs).Apart rs := by
  refine h.apart.imp_right fun hspares ↦ ?_
  have hrequests := hserves.pairwise_spares _ _ hspares
  refine hrequests.sublist (List.Sublist.drop (List.take_sublist_take_left ?_) _)
  have hle := h.sent_seen_le hserves
  rw [sent, List.length_take] at hle
  exact hle.trans (Nat.min_le_left ..)

theorem sent_of_append {ps' : List ClientPacket} (h : ps' ++ s.toSend = ps) : s.sent ps = ps' := by
  rw [sent, ← h, List.length_append, Nat.add_sub_cancel, List.take_left]

theorem Sound.send (h : Sound ps rs s) (hwaits : s.Waits ps .send) :
    Sound ps rs (s.step .send) := by
  obtain ⟨toSend, front, stages⟩ := s
  cases toSend with
  | nil => exact h
  | cons p toSend =>
    have hsplit := h.split
    have hsent : (step ⟨p :: toSend, front, stages⟩ .send).sent ps
        = sent ⟨p :: toSend, front, stages⟩ ps ++ [p] :=
      sent_of_append (by rwa [step, List.append_assoc])
    have hpending : ((step ⟨p :: toSend, front, stages⟩ .send).pending ps).Sublist
        (pending ⟨p :: toSend, front, stages⟩ ps ++ [p]) := by
      rw [pending, hsent, List.drop_append]
      exact (List.Sublist.refl _).append (List.drop_sublist _ _)
    refine ⟨by rwa [hsent, List.append_assoc], ?_, h.inv, ?_⟩
    · have hfront := reaches_start_append h.front [p.toRequestPacket]
      rw [hsent, List.map_append]
      rwa [List.flatMap_singleton] at hfront
    · rcases h.apart with hen | hspares
      · exact .inl hen
      refine hwaits.imp_right fun hwaits ↦ List.Pairwise.sublist hpending ?_
      refine List.pairwise_append.mpr ⟨hspares, List.pairwise_singleton _ _, fun p' hp' q hq ↦ ?_⟩
      rw [List.mem_singleton.mp hq]
      exact hwaits rfl p rfl p' hp'

theorem Sound.front_step (h : Sound ps rs s) (hserves : Serves ps rs) (e : FrontEnd.Event) :
    Sound ps rs (s.step (.front e)) where
  split := h.split
  front := commutes.reaches_step h.front e
  inv := by
    rw [seen_front (h.before hserves (commutes.reaches_step (.refl _) e))]
    exact h.inv
  apart := h.apart

theorem Sound.stages_step (h : Sound ps rs s) (hserves : Serves ps rs) (e : Pipeline.Event) :
    Sound ps rs (s.step (.stages e)) where
  split := h.split
  front := h.front
  inv := by
    rcases @seen_stages s rs e with heq | heq
    · rw [heq]
      exact h.inv
    · rw [heq]
      obtain ⟨p, h'⟩ := h.inv
      exact h'.step (h.apart_seen hserves) e
  apart := by
    have hanswered := memWr2out_prefix_step s.stages e
    have hpending : ((s.step (.stages e)).pending ps).Sublist (s.pending ps) :=
      (List.drop_suffix_drop_left _ hanswered.length_le).sublist
    have henabled : (s.step (.stages e)).stages.cc.hashFilter.enabled
        = s.stages.cc.hashFilter.enabled := enabled_step s.stages e
    rw [henabled]
    exact h.apart.imp_right fun hspares ↦ hspares.sublist hpending

/-- **A step.** -/
theorem Sound.step (h : Sound ps rs s) (hserves : Serves ps rs) {e : Event}
    (hwaits : s.Waits ps e) : Sound ps rs (s.step e) := by
  cases e with
  | send => exact h.send hwaits
  | front e => exact h.front_step hserves e
  | stages e => exact h.stages_step hserves e

theorem Serves.short (h : Serves ps rs) (hshort : ∀ p ∈ ps, p.key.length ≤ 112) :
    ∀ r ∈ rs, r.Short := by
  intro r hr
  obtain ⟨i, hi, rfl⟩ := List.getElem_of_mem hr
  exact (h.carries.get (h.carries.length_eq ▸ hi) hi).short (hshort _ (List.getElem_mem _))

theorem seen_start (enabled : Bool) : (start ps enabled).seen rs = .start rs enabled := rfl

theorem Sound.start (hserves : Serves ps rs) (hshort : ∀ p ∈ ps, p.key.length ≤ 112)
    (enabled : Bool) : Sound ps rs (.start ps enabled) where
  split := by rw [sent, WholeTable.start, Nat.sub_self]; rfl
  front := by rw [sent, WholeTable.start, Nat.sub_self]; exact .refl _
  inv := by
    rw [seen_start]
    exact ⟨{}, .start .blank rs enabled (hserves.short hshort) rfl rfl⟩
  apart := by
    rw [pending, sent, WholeTable.start, Nat.sub_self]
    exact .inr .nil

/-! ## Answers -/

section Answers

variable {enabled : Bool} {es : List Event}

theorem Sound.run (hserves : Serves ps rs) (hshort : ∀ p ∈ ps, p.key.length ≤ 112)
    (hwaits : Guarded WholeTable.step (Waits · ps) (.start ps enabled) es) :
    Sound ps rs (run WholeTable.step (.start ps enabled) es) :=
  @Guarded.invariant _ _ _ _ (Sound ps rs) (fun _ _ h hwaits ↦ h.step hserves hwaits) _ _
    (.start hserves hshort enabled) hwaits

/-- **The client sees a dictionary.** Whatever the order of the calls, and however long the words
are on their way, the answers so far and the requests to the allocator are those of the dictionary
for the first requests. None is answered before it has been sent. -/
theorem answered_prefix (hshort : ∀ p ∈ ps, p.key.length ≤ 112)
    (hwaits : Guarded step (Waits · ps) (start ps enabled) es) :
    let s := Machine.run step (start ps enabled) es
    let answers := Dictionary.empty.answers (ps.map ClientPacket.request)
    ∃ n ≤ (s.sent ps).length, s.stages.q.memWr2out = (answers.take n).map Prod.fst
      ∧ s.stages.q.alloc = (answers.take n).filterMap Prod.snd := by
  intro s answers
  obtain ⟨rs, hserves, -⟩ := exists_serves ps
  have hsound : Sound ps rs s := .run hserves hshort hwaits
  obtain ⟨p, h'⟩ := hsound.inv
  have hanswers : Memcached.answers Store.apply .empty rs = answers :=
    (Store.shows_empty.answers_eq hserves.carries).1
  have hall := h'.answered (hserves.short hshort)
  rw [hanswers] at hall
  exact ⟨p.wr, h'.wr_le_sent.trans (hsound.sent_seen_le hserves), hall⟩

end Answers

/-! ## All answers -/

/-- The event is one of the front end. -/
def Event.front? : Event → Option FrontEnd.Event
  | .front e => some e
  | _ => none

theorem toSend_step (h : s.toSend = []) (e : Event) : (s.step e).toSend = [] := by
  cases e with
  | send => rwa [step, h]
  | _ => exact h

theorem waits_of_sent (h : s.toSend = []) (ps : List ClientPacket) (e : Event) : s.Waits ps e := by
  refine .inr fun _ p' hp' ↦ ?_
  rw [h] at hp'
  exact absurd hp' (Option.not_mem_none p')

/-- When no packet is sent, the front end is on its own. -/
theorem front_run (h : s.toSend = []) (es : List Event) :
    (Machine.run step s es).front
      = Machine.run FrontEnd.step s.front (es.filterMap Event.front?) := by
  induction es generalizing s with
  | nil => rfl
  | cons e es ih =>
    rw [Machine.run_cons, ih (toSend_step h e), List.filterMap_cons]
    cases e with
    | send =>
      rw [step, h]
      rfl
    | _ => rfl

theorem Sound.work_step (h : Sound ps rs s) (hserves : Serves ps rs) (e : Event) :
    ((s.step e).seen rs).work ≤ (s.seen rs).work := by
  cases e with
  | send => rw [seen_send]
  | front e => rw [seen_front (h.before hserves (commutes.reaches_step (.refl _) e))]
  | stages e =>
    rcases @seen_stages s rs e with heq | heq
    · rw [heq]
    · rw [heq]
      obtain ⟨p, h'⟩ := h.inv
      rcases h'.work_step e with heq | hlt
      · rw [heq]
      · exact hlt.le

/-- What the stages still have to do. -/
def work (s : WholeTable) : ℕ := s.stages.work

/-- All packets have been sent, and the front end is done with them. -/
structure Delivered (ps : List ClientPacket) (rs : List TableRequest) (s : WholeTable) : Prop
    extends Sound ps rs s where
  toSend : s.toSend = []
  ended : Ended Ready s.front
  delivered : (wanted rs).Before s.front.q

theorem Delivered.seen_eq (h : Delivered ps rs s) : s.seen rs = s.stages :=
  s.stages.receive_of_before h.delivered

/-- What is left are the stages. -/
theorem Delivered.step_eq (h : Delivered ps rs s) (e : Event) :
    s.step e = s ∨ ∃ e', s.step e = { s with stages := s.stages.step e' } := by
  cases e with
  | send => exact .inl (by rw [step, h.toSend])
  | front e =>
    left
    rw [step, step_idle (h.ended e), s.stages.receive_of_before (.refl _)]
  | stages e => exact .inr ⟨e, rfl⟩

theorem Delivered.step (h : Delivered ps rs s) (hserves : Serves ps rs) (e : Event) :
    Delivered ps rs (s.step e) := by
  have hsound := h.toSound.step hserves (waits_of_sent h.toSend ps e)
  rcases h.step_eq e with heq | ⟨e', heq⟩
  · rwa [heq]
  · rw [heq] at hsound ⊢
    exact ⟨hsound, h.toSend, h.ended, h.delivered⟩

theorem Delivered.work_step (h : Delivered ps rs s) (e : Event) :
    s.step e = s ∨ (s.step e).work < s.work := by
  rcases h.step_eq e with heq | ⟨e', heq⟩
  · exact .inl heq
  · obtain ⟨p, h'⟩ := h.inv
    rw [h.seen_eq] at h'
    rw [heq]
    exact (h'.work_step e').imp_left fun heq ↦ by rw [heq]

theorem Sound.front_of_sent (h : Sound ps rs s) (hsent : s.toSend = []) :
    Reaches FrontEnd.step Ready (.start (ps.map ClientPacket.toRequestPacket)) s.front := by
  have hsplit := h.split
  rw [hsent, List.append_nil] at hsplit
  have hfront := h.front
  rwa [hsplit] at hfront

/-- After enough rounds the front end is done, and there is not more work left for the stages than
there was. -/
theorem Sound.delivered (h : Sound ps rs s) (hserves : Serves ps rs) (hsent : s.toSend = [])
    {es : List Event} {t : FrontEnd}
    (ht : Machine.run FrontEnd.step s.front (es.filterMap Event.front?) = t)
    (hended : Ended Ready t) (hbefore : (wanted rs).Before t.q) :
    let s' := Machine.run WholeTable.step s es
    Delivered ps rs s' ∧ s'.work ≤ (s.seen rs).work := by
  intro s'
  let inv : WholeTable → Prop :=
    fun t ↦ Sound ps rs t ∧ t.toSend = [] ∧ (t.seen rs).work ≤ (s.seen rs).work
  have hstep : ∀ t e, inv t → inv (t.step e) := by
    intro t e ⟨hsound, hnil, hle⟩
    exact ⟨hsound.step hserves (waits_of_sent hnil ps e), toSend_step hnil e,
      (hsound.work_step hserves e).trans hle⟩
  obtain ⟨hsound, hnil, hle⟩ : inv s' := run_invariant hstep ⟨h, hsent, le_rfl⟩ _
  rw [← front_run hsent] at ht
  have hdelivered : Delivered ps rs s' := ⟨hsound, hnil, ht ▸ hended, ht ▸ hbefore⟩
  rw [hdelivered.seen_eq] at hle
  exact ⟨hdelivered, hle⟩

/-- When nothing moves, all that has been sent is answered, and the memory holds the dictionary. -/
theorem Delivered.finished (h : Delivered ps rs s) (hserves : Serves ps rs)
    (hshort : ∀ p ∈ ps, p.key.length ≤ 112)
    (hstuck : Stuck WholeTable.step (fun _ ↦ True) s) :
    let requests := ps.map ClientPacket.request
    let answers := Dictionary.empty.answers requests
    s.stages.q.memWr2out = answers.map Prod.fst ∧ s.stages.q.alloc = answers.filterMap Prod.snd
      ∧ ∃ t : Store, Refines ⟨s.stages.bram.memArrayHashTable, s.stages.memWr.nr⟩ t
        ∧ t.Shows (Dictionary.empty.after requests) := by
  intro requests answers
  have hquiet : ∀ e, s.stages.step e = s.stages :=
    fun e ↦ congrArg WholeTable.stages (hstuck (.stages e) trivial)
  obtain ⟨p, h'⟩ := h.inv
  rw [h.seen_eq] at h'
  obtain ⟨hwr, hmem⟩ := h'.finished fun e _ ↦ hquiet e
  rw [Pipeline.sent, Pipeline.mds_eq_nil (hquiet .md), List.length_nil, Nat.sub_zero] at hwr
  obtain ⟨hanswers, hshows⟩ := Store.shows_empty.answers_eq hserves.carries
  have hjobs : (jobs .blank rs).length = rs.length :=
    (List.length_map _).symm.trans (congrArg List.length h'.map_req)
  have hlen : (Memcached.answers Store.apply .empty rs).length ≤ p.wr := by
    rw [hwr, ← map_answer_jobs (hserves.short hshort), List.length_map, hjobs]
  have hall := h'.answered (hserves.short hshort)
  rw [List.take_of_length_le hlen, hanswers] at hall
  have hafter := HashTable.initial_blank.refines.after (hserves.short hshort)
  refine ⟨hall.1, hall.2, _, ?_, hshows⟩
  rw [hmem, h'.nr, after, hwr, List.take_length]
  exact hafter

/-- In the first rounds the front end comes to its end, in the others the stages do. -/
theorem Sound.delivered_of_rounds (h : Sound ps rs s) (hserves : Serves ps rs)
    (hsent : s.toSend = []) {n : ℕ} (hends : EndsWithin ps rs n) {rounds : List (List Event)}
    (hrounds : ∀ r ∈ rounds, ∀ e, e ∈ r) (hlen : n + (s.seen rs).work ≤ rounds.length) :
    let s' := Machine.run WholeTable.step s rounds.flatten
    Delivered ps rs s' ∧ Stuck WholeTable.step (fun _ ↦ True) s' := by
  obtain ⟨first, others, rfl, hfirst⟩ : ∃ first others, rounds = first ++ others
      ∧ first.length = n :=
    ⟨rounds.take n, rounds.drop n, (List.take_append_drop ..).symm,
      List.length_take_of_le ((Nat.le_add_right ..).trans hlen)⟩
  rw [List.length_append, hfirst, Nat.add_le_add_iff_left] at hlen
  obtain ⟨hrounds, hothers⟩ := List.forall_mem_append.mp hrounds
  have hfronts : ∀ r ∈ first.map (List.filterMap Event.front?), ∀ e, e ∈ r := by
    intro r hr e
    obtain ⟨r', hr', rfl⟩ := List.mem_map.mp hr
    exact List.mem_filterMap.mpr ⟨.front e, hrounds r' hr' _, rfl⟩
  obtain ⟨hended, hbefore⟩ := hends s.front (h.front_of_sent hsent) _ hfronts
    (by rw [List.length_map, hfirst])
  obtain ⟨hdelivered, hwork⟩ := h.delivered hserves hsent
    (by rw [List.filterMap_flatten]) hended hbefore
  have hall : ∀ r ∈ others, ∀ e, e ∈ r ↔ True := fun r hr e ↦ iff_true_intro (hothers r hr e)
  rw [List.flatten_append, run_append]
  exact stuck_of_rounds (fun _ e h _ ↦ Delivered.step h hserves e)
    (fun _ e h _ ↦ Delivered.work_step h e) hdelivered hall (hwork.trans hlen)

/-- **Every packet is answered.** When all packets have been sent, let there be rounds with every
arrival and every function in each of them. After some number of rounds all packets are answered as
by the dictionary, and the memory holds it. A key after which `hashKeyResizer` stays in `KS_STEP0`
may only be the last one. -/
theorem answered_of_rounds (hshort : ∀ p ∈ ps, p.key.length ≤ 112)
    (hstall : ∀ p ∈ ps.dropLast, ¬Stalls p.key.length) {enabled : Bool} {es : List Event}
    (hwaits : Guarded step (Waits · ps) (start ps enabled) es)
    (hsent : (Machine.run step (start ps enabled) es).toSend = []) :
    ∃ n, ∀ rounds : List (List Event), (∀ r ∈ rounds, ∀ e, e ∈ r) → n ≤ rounds.length →
      let s := Machine.run step (start ps enabled) (es ++ rounds.flatten)
      let requests := ps.map ClientPacket.request
      let answers := Dictionary.empty.answers requests
      s.stages.q.memWr2out = answers.map Prod.fst ∧ s.stages.q.alloc = answers.filterMap Prod.snd
        ∧ ∃ t : Store, Refines ⟨s.stages.bram.memArrayHashTable, s.stages.memWr.nr⟩ t
          ∧ t.Shows (Dictionary.empty.after requests) := by
  obtain ⟨rs, hserves, hends⟩ := exists_serves ps
  obtain ⟨n, hends⟩ := hends hstall
  let s := Machine.run step (start ps enabled) es
  have hsound : Sound ps rs s := .run hserves hshort hwaits
  refine ⟨n + (s.seen rs).work, fun rounds hrounds hlen ↦ ?_⟩
  obtain ⟨hdone, hstuck⟩ := hsound.delivered_of_rounds hserves hsent hends hrounds hlen
  rw [run_append]
  exact hdone.finished hserves hshort hstuck

/-! ## An example -/

/-- A `GET` of the key of `sampleSet`. -/
def sampleGetTen : RequestPacket where
  first := ⟨0xa, true, true, false, false, 0, sampleSet.first.key⟩
  rest := sampleSet.rest
  sop := rfl
  marked := sampleSet.marked
  keyLength_ne := by decide
  complete := by decide

/-- A `SET` and a `GET` of the same key. -/
def samplePackets : List ClientPacket :=
  [⟨sampleSet, .set, by decide⟩, ⟨sampleGetTen, .get, by decide⟩]

/-- All that can happen but for sending. -/
def round : List Event := FrontEnd.round.map .front ++ (.md :: Pipeline.round).map .stages

theorem mem_round (e : Event) : e ∈ round ↔ e ≠ .send := by
  cases e with
  | send => decide
  | front e => cases e <;> decide
  | stages e => cases e <;> decide

theorem guarded_rounds (ps : List ClientPacket) (s : WholeTable) (n : ℕ) :
    Guarded step (Waits · ps) s (List.replicate n round).flatten := by
  have hround : ∀ e ∈ (List.replicate n round).flatten, e ≠ .send := by
    intro e he
    obtain ⟨r, hr, he⟩ := List.mem_flatten.mp he
    exact (mem_round e).mp (List.eq_of_mem_replicate hr ▸ he)
  exact (guarded_of_forall hround).mono fun _ _ he ↦ .inr fun hsend ↦ absurd hsend he

/-- The `GET` is sent some time after the `SET`. -/
def sampleEvents (n : ℕ) : List Event := .send :: ((List.replicate n round).flatten ++ [.send])

theorem waits_sampleEvents :
    Guarded step (Waits · samplePackets) (start samplePackets false) (sampleEvents 16) := by
  rw [sampleEvents, guarded_cons, guarded_append, guarded_cons]
  exact ⟨by decide +kernel, guarded_rounds _ _ _, by decide +kernel, trivial⟩

theorem answered_prefix_sample :
    let s := Machine.run step (start samplePackets false) (sampleEvents 16)
    let answers := Dictionary.empty.answers (samplePackets.map ClientPacket.request)
    ∃ n ≤ (s.sent samplePackets).length, s.stages.q.memWr2out = (answers.take n).map Prod.fst
      ∧ s.stages.q.alloc = (answers.take n).filterMap Prod.snd :=
  answered_prefix (by decide) waits_sampleEvents

theorem answered_of_rounds_sample :
    ∃ n, ∀ rounds : List (List Event), (∀ r ∈ rounds, ∀ e, e ∈ r) → n ≤ rounds.length →
      let s := Machine.run step (start samplePackets false) (sampleEvents 16 ++ rounds.flatten)
      let requests := samplePackets.map ClientPacket.request
      let answers := Dictionary.empty.answers requests
      s.stages.q.memWr2out = answers.map Prod.fst ∧ s.stages.q.alloc = answers.filterMap Prod.snd
        ∧ ∃ t : Store, Refines ⟨s.stages.bram.memArrayHashTable, s.stages.memWr.nr⟩ t
          ∧ t.Shows (Dictionary.empty.after requests) :=
  answered_of_rounds (by decide) (by decide) waits_sampleEvents
    (List.isEmpty_iff.mp (by decide +kernel))

/-- The statuses and the lengths that are answered in some rounds. -/
def sampleAnswers (n : ℕ) : List (BitVec 1 × BitVec 16) :=
  (Machine.run step (start samplePackets false)
    (sampleEvents 16 ++ (List.replicate n round).flatten)).stages.q.memWr2out.map
      fun x ↦ (x.status, x.valueLength)

-- the `GET` finds what the `SET` has left
example : sampleAnswers 0 = [(0, 0)] := by decide +kernel
example : sampleAnswers 30 = [(0, 0), (0, 5)] := by decide +kernel

end WholeTable

end FpgaOs.Memcached
