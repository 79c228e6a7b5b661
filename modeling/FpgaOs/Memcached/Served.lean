import FpgaOs.Memcached.Progress

/-!
# The pipeline is a map

The stages of the hash table work on several requests at once, in whatever order they are called,
and the memory is behind all of them. What is answered is nevertheless what the map answers to one
request after another (`served_prefix`), and when no function is forgotten all requests that have
been sent are answered and the memory holds the map (`served_of_rounds`).

As `globals.cpp` is, this takes some care of those who send requests: after a `SET` or a `DELETE`
they have to wait for the answer before they send a request with the same bucket. The answer comes
before the bucket has been written, but the command for it has been given, and this is enough as the
aggregator prefers writes. Who does not wait may miss a key that was set before. With the other
version of the filter nobody has to wait (`waits_of_enabled`).
-/

namespace FpgaOs.Memcached

open Machine

/-- The map after a sequence of requests. -/
noncomputable def Store.after (s : Store) (rs : List TableRequest) : Store :=
  rs.foldl (fun s r ↦ (s.apply r).1) s

section Served

variable {rs : List TableRequest}

theorem Refines.after {h : HashTable} {s : Store} (h' : Refines h s) (hshort : ∀ r ∈ rs, r.Short) :
    Refines (rs.foldl (fun h r ↦ (h.apply r).1) h) (s.after rs) := by
  induction rs generalizing h s with
  | nil => exact h'
  | cons r rs ih =>
    obtain ⟨hr, hrs⟩ := List.forall_mem_cons.mp hshort
    exact ih (h'.apply hr).1 hrs

/-- What the stages should answer is what the map answers. -/
theorem map_answer_jobs (hshort : ∀ r ∈ rs, r.Short) :
    (jobs .blank rs).map Job.answer = answers Store.apply .empty rs := by
  rw [← answers_eq_map_jobs]
  exact HashTable.initial_blank.refines.answers_eq hshort

/-- What has been answered when the stages are at these places. -/
theorem Inv.answered {p : Places} {s : Pipeline} (h' : Inv .blank rs (jobs .blank rs) p s)
    (hshort : ∀ r ∈ rs, r.Short) :
    s.q.memWr2out = ((answers Store.apply .empty rs).take p.wr).map Prod.fst
      ∧ s.q.alloc = ((answers Store.apply .empty rs).take p.wr).filterMap Prod.snd := by
  rw [h'.out, h'.alloc, ← map_answer_jobs hshort, ← List.map_take, List.map_map,
    List.filterMap_map]
  exact ⟨rfl, rfl⟩

/-- What has been answered has been sent. -/
theorem Inv.wr_le_sent {h : HashTable} {js : List Job} {p : Places} {s : Pipeline}
    (h' : Inv h rs js p s) : p.wr ≤ s.sent rs := by
  have hread : p.wr ≤ p.read :=
    ((h'.wr_le.trans h'.wrMd_le).trans h'.cmpDone_le).trans h'.asked_le
  have hlen := CcInv.length_le h'.cc
  rw [List.length_append, List.length_map, List.length_map, List.length_append,
    List.length_take_of_le h'.read_le] at hlen
  rw [Pipeline.sent]
  omega

/-- **Pipelining is invisible.** Whatever the order of the calls, and whenever words arrive, the
answers so far and the requests to the allocator are those of the map for the first requests, as
long as those who send requests wait where they have to. -/
theorem served_prefix (hshort : ∀ r ∈ rs, r.Short) {enabled : Bool} {es : List Pipeline.Event}
    (hwaits : Guarded Pipeline.step (Pipeline.Waits rs) (.start rs enabled) es) :
    let s := run Pipeline.step (.start rs enabled) es
    ∃ n, s.q.memWr2out = ((answers Store.apply .empty rs).take n).map Prod.fst
      ∧ s.q.alloc = ((answers Store.apply .empty rs).take n).filterMap Prod.snd := by
  have hkept : Kept .blank rs (run Pipeline.step (.start rs enabled) es) :=
    @Guarded.invariant _ _ _ _ (Kept .blank rs) (fun _ _ h' hwaits ↦ h'.step hwaits) _ _
      (.start enabled hshort rfl rfl) hwaits
  obtain ⟨p, h'⟩ := hkept.inv
  exact ⟨p.wr, h'.answered hshort⟩

/-- **Every request is answered.** After any calls and arrivals, let there be rounds in which no
further request is sent: in each of them every function is called and the words and hashes go on
arriving, in any order and as often as one likes. After as many rounds as there is work all requests
that were sent have been answered as by the map, and the memory holds it. -/
theorem served_of_rounds (hshort : ∀ r ∈ rs, r.Short) {enabled : Bool} {es : List Pipeline.Event}
    (hwaits : Guarded Pipeline.step (Pipeline.Waits rs) (.start rs enabled) es)
    {rounds : List (List Pipeline.Event)} (hrounds : ∀ r ∈ rounds, ∀ e, e ∈ r ↔ e ≠ .md)
    (hlength : (Pipeline.start rs enabled).work ≤ rounds.length) :
    let s := run Pipeline.step (.start rs enabled) (es ++ rounds.flatten)
    let n := (run Pipeline.step (.start rs enabled) es).sent rs
    s.q.memWr2out = ((answers Store.apply .empty rs).take n).map Prod.fst
      ∧ s.q.alloc = ((answers Store.apply .empty rs).take n).filterMap Prod.snd
      ∧ Refines ⟨s.bram.memArrayHashTable, s.memWr.nr⟩ (Store.empty.after (rs.take n)) := by
  intro s n
  have hwork : ∀ s e, Kept .blank rs s → s.step e = s ∨ (s.step e).work < s.work :=
    fun _ e h' ↦ h'.inv.elim fun _ hinv ↦ hinv.work_step e
  let bounded : Pipeline → Prop := fun s ↦ Kept .blank rs s ∧ s.work ≤ rounds.length
  have hbounded : ∀ s e, bounded s → s.Waits rs e → bounded (s.step e) := by
    refine fun s e ⟨h', hle⟩ hwaits ↦ ⟨h'.step hwaits, ?_⟩
    rcases hwork s e h' with heq | hlt
    · rwa [heq]
    · exact hlt.le.trans hle
  obtain ⟨hkept, hle⟩ : bounded (run Pipeline.step (.start rs enabled) es) :=
    Guarded.invariant hbounded ⟨.start enabled hshort rfl rfl, hlength⟩ hwaits
  -- no request is sent in the rounds, so none has to wait
  let inv : Pipeline → Prop := fun s ↦ Kept .blank rs s ∧ s.sent rs = n
  have hstep : ∀ s e, inv s → e ≠ .md → inv (s.step e) := by
    intro s e ⟨h', hsent⟩ he
    refine ⟨h'.step (.inr fun hmd ↦ absurd hmd he), ?_⟩
    rw [Pipeline.sent, mds_step s he]
    exact hsent
  obtain ⟨⟨hkept', hsent⟩, hquiet⟩ : inv s ∧ s.Quiet := by
    have hrun := stuck_of_rounds hstep (fun s e h' _ ↦ hwork s e h'.1) ⟨hkept, rfl⟩ hrounds hle
    rwa [← run_append] at hrun
  obtain ⟨p, h'⟩ := hkept'.inv
  obtain ⟨hwr, hmem⟩ := h'.finished hquiet
  rw [← hsent, ← hwr]
  refine ⟨(h'.answered hshort).1, (h'.answered hshort).2, ?_⟩
  have hafter := HashTable.initial_blank.refines.after
    fun r hr ↦ hshort r (List.mem_of_mem_take (i := p.wr) hr)
  rwa [hmem, h'.nr]

end Served

/-- All functions, and all arrivals but those of requests. -/
def Pipeline.round : List Event :=
  [.memAccess, .cmdAggregator, .memWrite, .htCompare, .memRead, .concurrencyControl, .hash, .word]

theorem Pipeline.mem_round (e : Event) : e ∈ round ↔ e ≠ .md := by cases e <;> decide

theorem Pipeline.guarded_rounds (rs : List TableRequest) (s : Pipeline) (n : ℕ) :
    Guarded step (Waits rs) s (List.replicate n round).flatten := by
  have hround : ∀ e ∈ (List.replicate n round).flatten, e ≠ .md := by
    intro e he
    obtain ⟨r, hr, he⟩ := List.mem_flatten.mp he
    exact (mem_round e).mp (List.eq_of_mem_replicate hr ▸ he)
  exact (guarded_of_forall hround).mono fun _ _ he ↦ .inr fun hmd ↦ absurd hmd he

/-- A `SET` and a `GET` of the same key. -/
def sampleRequests : List TableRequest := [⟨.sample 0 9, .set⟩, ⟨.sample 0 0, .get⟩]

theorem short_sampleRequests : ∀ r ∈ sampleRequests, r.Short := by
  rw [sampleRequests]
  simp only [List.forall_mem_cons]
  exact ⟨by decide, by decide, nofun⟩

/-- The `GET` is sent some time after the `SET`. -/
def sampleEvents (n : ℕ) : List Pipeline.Event :=
  .md :: ((List.replicate n Pipeline.round).flatten ++ [.md])

theorem waits_sampleEvents :
    Guarded Pipeline.step (Pipeline.Waits sampleRequests) (.start sampleRequests false)
      (sampleEvents 12) := by
  rw [sampleEvents, guarded_cons, guarded_append, guarded_cons]
  exact ⟨by decide +kernel, Pipeline.guarded_rounds _ _ _, by decide +kernel, trivial⟩

theorem served_prefix_sample :
    let s := run Pipeline.step (.start sampleRequests false) (sampleEvents 12)
    ∃ n, s.q.memWr2out = ((answers Store.apply .empty sampleRequests).take n).map Prod.fst
      ∧ s.q.alloc = ((answers Store.apply .empty sampleRequests).take n).filterMap Prod.snd :=
  served_prefix short_sampleRequests waits_sampleEvents

theorem served_of_rounds_sample :
    let s := run Pipeline.step (.start sampleRequests false)
      (sampleEvents 12 ++ (List.replicate 90 Pipeline.round).flatten)
    let n := (run Pipeline.step (.start sampleRequests false) (sampleEvents 12)).sent sampleRequests
    s.q.memWr2out = ((answers Store.apply .empty sampleRequests).take n).map Prod.fst
      ∧ s.q.alloc = ((answers Store.apply .empty sampleRequests).take n).filterMap Prod.snd
      ∧ Refines ⟨s.bram.memArrayHashTable, s.memWr.nr⟩
        (Store.empty.after (sampleRequests.take n)) :=
  served_of_rounds short_sampleRequests waits_sampleEvents
    (fun _ hr e ↦ List.eq_of_mem_replicate hr ▸ Pipeline.mem_round e) (by decide +kernel)

/-- What is answered with the filter as it is (`false`) or enabled, when the `GET` is sent some
rounds after the `SET`. -/
def sampleAnswers (enabled : Bool) (n : ℕ) : List (BitVec 1 × BitVec 16) :=
  (run Pipeline.step (.start sampleRequests enabled)
    (sampleEvents n ++ (List.replicate 40 Pipeline.round).flatten)).q.memWr2out.map
      fun x ↦ (x.status, x.valueLength)

-- the `GET` waits; it does not and finds nothing; the filter holds it back
example : sampleAnswers false 12 = [(0, 0), (0, 9)] := by decide +kernel
example : sampleAnswers false 0 = [(0, 0), (1, 0)] := by decide +kernel
example : sampleAnswers true 0 = [(0, 0), (0, 9)] := by decide +kernel

end FpgaOs.Memcached
