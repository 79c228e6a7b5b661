import FpgaOs.Memcached.FrontEnd

/-!
# What is set aside

`ht_inputLogic` writes the key, the value and two words of metadata of each request into buffers, in
which they wait for the result. They are in order, and they are there in time: the metadata for the
table are sent when the key is at an end, so whoever has the result of a request has its key
(`setAside_run`).
-/

namespace FpgaOs.Memcached

open BitField Machine

/-! ## A request -/

namespace RequestPacket

variable (p : RequestPacket)

/-- The key, the value and the metadata as they are set aside for the answer. -/
def keys2out : List (BitVec 64) := (p.written []).in2key

def values2out : List (BitVec 64) := p.words.flatMap PipelineWord.values

def mds2out : List (BitVec 128) := (p.written []).in2md

end RequestPacket

namespace InputLogic

variable {s : InputLogic}

theorem Between.set_aside (h : s.Between) (ps : List RequestPacket) :
    let o := (s.acceptAll (ps.flatMap RequestPacket.words)).2
    o.in2key = ps.flatMap RequestPacket.keys2out
      ∧ o.in2value = ps.flatMap RequestPacket.values2out
      ∧ o.in2md = ps.flatMap RequestPacket.mds2out := by
  induction ps generalizing s with
  | nil => exact ⟨rfl, rfl, rfl⟩
  | cons p ps ih =>
    obtain ⟨t, ws, heq, hbetween, -⟩ := h.exists_request p
    obtain ⟨hkeys, hvalues, hmds⟩ := ih hbetween
    rw [List.flatMap_cons, acceptAll_append, heq]
    exact ⟨congrArg (p.keys2out ++ ·) hkeys, congrArg (p.values2out ++ ·) hvalues,
      congrArg (p.mds2out ++ ·) hmds⟩

/-- In a request: the metadata are sent when the key is at an end, and then no more of the key is
set aside. -/
theorem accept_stream (hstate : s.iState = .stream) (w : PipelineWord) :
    (s.accept w).1.iState = (if w.eop then .idle else .stream)
      ∧ ((s.accept w).2.in2ccMd ≠ [] → (s.accept w).1.keyLength = 0)
      ∧ (s.keyLength = 0 → (s.accept w).1.keyLength = 0 ∧ (s.accept w).2.in2key = []) := by
  rw [accept, hstate]
  dsimp only
  rw [further]
  by_cases hpos : 0 < s.keyLength
  · have hne : s.keyLength ≠ 0 := fun hzero ↦ by
      rw [hzero] at hpos
      exact absurd hpos (by decide)
    rw [if_pos hpos, piece]
    dsimp only
    refine ⟨rfl, ?_, fun hzero ↦ absurd hzero hne⟩
    split
    · exact fun _ ↦ rfl
    · split <;> exact fun h ↦ absurd rfl h
  · rw [if_neg hpos]
    exact ⟨rfl, fun h ↦ absurd rfl h, fun hzero ↦ ⟨hzero, rfl⟩⟩

theorem acceptAll_of_zero {ws : List PipelineWord}
    (hmarked : Marked (fun w : PipelineWord ↦ w.eop = true) ws) (hstate : s.iState = .stream)
    (hzero : s.keyLength = 0) : (s.acceptAll ws).2.in2key = [] := by
  induction ws generalizing s with
  | nil => rfl
  | cons w ws ih =>
    obtain ⟨hnext, -, hkey⟩ := accept_stream hstate w
    obtain ⟨hzero', hnone⟩ := hkey hzero
    rw [acceptAll, Written.append]
    dsimp only
    rw [hnone, List.nil_append]
    obtain ⟨rfl, -⟩ | ⟨hlast, hmarked⟩ := marked_cons.mp hmarked
    · rfl
    · rw [if_neg hlast] at hnext
      exact ih hmarked hnext hzero'

theorem acceptAll_part {part : List PipelineWord} (hunmarked : ∀ w ∈ part, ¬w.eop = true)
    (hstate : s.iState = .stream) :
    (s.acceptAll part).1.iState = .stream
      ∧ ((s.acceptAll part).2.in2ccMd ≠ [] → (s.acceptAll part).1.keyLength = 0)
      ∧ (s.keyLength = 0 → (s.acceptAll part).1.keyLength = 0) := by
  induction part generalizing s with
  | nil => exact ⟨hstate, fun h ↦ absurd rfl h, id⟩
  | cons w part ih =>
    obtain ⟨hw, hpart⟩ := List.forall_mem_cons.mp hunmarked
    obtain ⟨hnext, hmd, hkey⟩ := accept_stream hstate w
    rw [if_neg hw] at hnext
    obtain ⟨hend, hmds, hzero⟩ := ih hpart hnext
    rw [acceptAll]
    refine ⟨hend, fun hne ↦ ?_, fun h ↦ hzero (hkey h).1⟩
    by_cases hfirst : (s.accept w).2.in2ccMd = []
    · refine hmds fun hnil ↦ hne ?_
      rw [Written.append]
      dsimp only
      rw [hfirst, hnil]
      rfl
    · exact hzero (hmd hfirst)

theorem accept_first (hstate : s.iState = .idle) {w : PipelineWord} (hsop : w.sop = true) :
    (s.accept w).1.iState = .stream
      ∧ ((s.accept w).2.in2ccMd ≠ [] → (s.accept w).1.keyLength = 0)
      ∧ (s.accept w).2.in2value = w.values := by
  rw [accept, hstate]
  dsimp only
  rw [if_pos hsop, first]
  dsimp only
  split
  · split
    · exact ⟨rfl, fun _ ↦ rfl, rfl⟩
    · exact ⟨rfl, fun h ↦ absurd rfl h, rfl⟩
  · exact ⟨rfl, fun h ↦ absurd rfl h, rfl⟩

/-- In the middle of a request: when its metadata have been sent, all of its key has been set
aside, and so has the value in its first word. -/
theorem Between.set_aside_part (h : s.Between) {p : RequestPacket} {part part' : List PipelineWord}
    (hsplit : part ++ part' = p.words) (hpart' : part' ≠ [])
    (hmd : (s.acceptAll part).2.in2ccMd ≠ []) :
    (s.acceptAll part).2.in2key = p.keys2out
      ∧ p.first.values.length ≤ (s.acceptAll part).2.in2value.length := by
  cases part with
  | nil => exact absurd rfl hmd
  | cons w part =>
    obtain ⟨rfl, hcons⟩ := List.cons.inj hsplit
    have hrest : part ++ part' = p.rest := hcons
    obtain ⟨hstream, hfirst, hvalues⟩ := accept_first h.state p.sop
    have hmarked := p.marked
    rw [← hrest] at hmarked
    obtain ⟨hunmarked, hmarked'⟩ := hmarked.split hpart'
    obtain ⟨hstream', hmds, hzero⟩ := acceptAll_part hunmarked hstream
    have hend : (s.acceptAll (p.first :: part)).1.keyLength = 0 := by
      rw [acceptAll] at hmd ⊢
      by_cases hnil : (s.accept p.first).2.in2ccMd = []
      · refine hmds fun hnil' ↦ hmd ?_
        rw [Written.append]
        dsimp only
        rw [hnil, hnil']
        rfl
      · exact hzero (hfirst hnil)
    have hnone := acceptAll_of_zero hmarked' hstream' hend
    obtain ⟨t, ws, heq, -⟩ := h.exists_request p
    rw [← hsplit, acceptAll_append, Prod.mk.injEq] at heq
    have hkeys := congrArg Written.in2key heq.2
    rw [Written.append] at hkeys
    dsimp only at hkeys
    refine ⟨?_, ?_⟩
    · rw [← List.append_nil (s.acceptAll _).2.in2key, ← hnone]
      exact hkeys
    · rw [acceptAll, Written.append]
      dsimp only
      rw [hvalues, List.length_append]
      exact Nat.le_add_right _ _

theorem Between.length_in2ccMd_le (h : s.Between) {p : RequestPacket}
    {part part' : List PipelineWord} (hsplit : part ++ part' = p.words) :
    (s.acceptAll part).2.in2ccMd.length ≤ 1 := by
  obtain ⟨t, ws, heq, -⟩ := h.exists_request p
  rw [← hsplit, acceptAll_append, Prod.mk.injEq] at heq
  have hmds : (s.acceptAll part).2.in2ccMd ++ _ = (p.written ws).in2ccMd :=
    congrArg Written.in2ccMd heq.2
  have hlen := congrArg List.length hmds
  rw [List.length_append] at hlen
  exact (Nat.le_add_right ..).trans hlen.le

/-- **What is set aside in time.** When the metadata of a request have been sent, the key, and the
value in the first word, have been set aside. -/
theorem Between.set_aside_before (h : s.Between) {ps : List RequestPacket}
    {acc : List PipelineWord} (hacc : acc <+: ps.flatMap RequestPacket.words) {i : ℕ}
    (hi : i < (s.acceptAll acc).2.in2ccMd.length) :
    ((ps.take (i + 1)).flatMap RequestPacket.keys2out).length ≤ (s.acceptAll acc).2.in2key.length
      ∧ ∀ p ∈ ps[i]?, ((ps.take i).flatMap RequestPacket.values2out).length
        + p.first.values.length ≤ (s.acceptAll acc).2.in2value.length := by
  induction ps generalizing s acc i with
  | nil =>
    obtain rfl := List.prefix_nil.mp hacc
    exact absurd hi (Nat.not_lt_zero _)
  | cons p ps ih =>
    obtain ⟨t, ws, heq, hbetween, -⟩ := h.exists_request p
    rw [List.flatMap_cons] at hacc
    rcases Nat.lt_or_ge acc.length p.words.length with hlt | hle
    · obtain ⟨part', hsplit⟩ :=
        List.prefix_of_prefix_length_le hacc (List.prefix_append _ _) hlt.le
      have hpart' : part' ≠ [] := by
        rintro rfl
        rw [← hsplit, List.append_nil] at hlt
        exact Nat.lt_irrefl _ hlt
      have hmd : (s.acceptAll acc).2.in2ccMd ≠ [] :=
        List.ne_nil_of_length_pos (Nat.zero_lt_of_lt hi)
      obtain ⟨hkeys, hvalues⟩ := h.set_aside_part hsplit hpart' hmd
      obtain rfl : i = 0 := Nat.lt_one_iff.mp (hi.trans_le (h.length_in2ccMd_le hsplit))
      refine ⟨?_, ?_⟩
      · rw [hkeys, List.take_succ_cons, List.take_zero, List.flatMap_singleton]
      · rintro q ⟨⟩
        rw [List.take_zero, List.flatMap_nil, List.length_nil, Nat.zero_add]
        exact hvalues
    · obtain ⟨acc', rfl⟩ := List.prefix_of_prefix_length_le (List.prefix_append _ _) hacc hle
      have hacc' := (List.prefix_append_right_inj _).mp hacc
      rw [acceptAll_append, heq] at hi ⊢
      rw [Written.append] at hi ⊢
      dsimp only at hi ⊢
      have hkeys : (p.written ws).in2key = p.keys2out := rfl
      have hvalues : (p.written ws).in2value = p.values2out := rfl
      have hone : (p.written ws).in2ccMd.length = 1 := rfl
      rw [List.length_append, hone] at hi
      rw [hkeys, hvalues, List.length_append, List.length_append]
      cases i with
      | zero =>
        refine ⟨?_, ?_⟩
        · rw [List.take_succ_cons, List.take_zero, List.flatMap_singleton]
          exact Nat.le_add_right _ _
        · rintro q ⟨⟩
          rw [List.take_zero, List.flatMap_nil, List.length_nil, Nat.zero_add,
            RequestPacket.values2out, RequestPacket.words, List.flatMap_cons, List.length_append,
            Nat.add_assoc]
          exact Nat.le_add_right _ _
      | succ i =>
        obtain ⟨hlekeys, hlevalues⟩ := ih hbetween hacc' (by omega : i < _)
        rw [List.take_succ_cons, List.flatMap_cons, List.length_append, List.take_succ_cons,
          List.flatMap_cons, List.length_append]
        refine ⟨Nat.add_le_add_left hlekeys _, fun q hq ↦ ?_⟩
        rw [Nat.add_assoc]
        exact Nat.add_le_add_left (hlevalues q hq) _

end InputLogic

/-! ## The front end -/

namespace FrontEnd

/-- `ht_inputLogic` has taken some of the words, and what it has set aside is from these. -/
structure Accepted (ps : List RequestPacket) (acc : List PipelineWord) (t : FrontEnd) : Prop where
  split : acc ++ (t.q.inData ++ t.input) = ps.flatMap RequestPacket.words
  inputLogic : (InputLogic.acceptAll {} acc).1 = t.inputLogic
  in2key : (InputLogic.acceptAll {} acc).2.in2key = t.q.in2key
  in2value : (InputLogic.acceptAll {} acc).2.in2value = t.q.in2value
  in2md : (InputLogic.acceptAll {} acc).2.in2md = t.q.in2md
  in2ccMd : (InputLogic.acceptAll {} acc).2.in2ccMd = t.q.in2ccMd

variable {ps : List RequestPacket} {acc : List PipelineWord} {t : FrontEnd}

theorem Accepted.step (h : Accepted ps acc t) (e : Event) :
    ∃ acc', Accepted ps acc' (t.step e) := by
  by_cases hready : t.Ready e
  · cases e with
    | arrive =>
      obtain ⟨w, input, hinput⟩ := List.exists_cons_of_ne_nil hready
      rw [step_arrive hinput]
      refine ⟨acc, ?_, h.inputLogic, h.in2key, h.in2value, h.in2md, h.in2ccMd⟩
      rw [← h.split, hinput, List.append_assoc]
      rfl
    | htInputLogic =>
      obtain ⟨w, inData, hin⟩ := List.exists_cons_of_ne_nil hready
      rw [step_htInputLogic hin]
      have hone : t.inputLogic.acceptAll [w] = t.inputLogic.accept w := by
        rw [InputLogic.acceptAll, InputLogic.acceptAll, Written.append]
        simp only [List.append_nil]
      have hacc : InputLogic.acceptAll {} (acc ++ [w]) = ((t.inputLogic.accept w).1,
          (InputLogic.acceptAll {} acc).2.append (t.inputLogic.accept w).2) := by
        rw [InputLogic.acceptAll_append, h.inputLogic, hone]
      refine ⟨acc ++ [w], ?_, ?_, ?_, ?_, ?_, ?_⟩
      · rw [← h.split, hin, List.append_assoc]
        rfl
      · rw [hacc]
      · rw [hacc]
        exact congrArg (· ++ (t.inputLogic.accept w).2.in2key) h.in2key
      · rw [hacc]
        exact congrArg (· ++ (t.inputLogic.accept w).2.in2value) h.in2value
      · rw [hacc]
        exact congrArg (· ++ (t.inputLogic.accept w).2.in2md) h.in2md
      · rw [hacc]
        exact congrArg (· ++ (t.inputLogic.accept w).2.in2ccMd) h.in2ccMd
    | hashKeyResizer => exact ⟨acc, h.split, h.inputLogic, h.in2key, h.in2value, h.in2md, h.in2ccMd⟩
    | bobj => exact ⟨acc, h.split, h.inputLogic, h.in2key, h.in2value, h.in2md, h.in2ccMd⟩
  · rw [step_idle hready]
    exact ⟨acc, h⟩

theorem exists_accepted (ps : List RequestPacket) (es : List Event) :
    ∃ acc, Accepted ps acc (run step (start ps) es) := by
  let inv : FrontEnd → Prop := fun t ↦ ∃ acc, Accepted ps acc t
  have hstep : ∀ t e, inv t → inv (t.step e) := fun _ e ⟨_, h⟩ ↦ h.step e
  exact run_invariant hstep ⟨[], rfl, rfl, rfl, rfl, rfl, rfl⟩ es

/-- What has been set aside is from these packets, in order, and in time. -/
structure SetAside (ps : List RequestPacket) (t : FrontEnd) : Prop where
  keys : t.q.in2key <+: ps.flatMap RequestPacket.keys2out
  values : t.q.in2value <+: ps.flatMap RequestPacket.values2out
  mds : t.q.in2md <+: ps.flatMap RequestPacket.mds2out
  inTime : ∀ i < t.q.in2ccMd.length,
    ((ps.take (i + 1)).flatMap RequestPacket.keys2out).length ≤ t.q.in2key.length
      ∧ ∀ p ∈ ps[i]?, ((ps.take i).flatMap RequestPacket.values2out).length
        + p.first.values.length ≤ t.q.in2value.length

theorem Accepted.setAside (h : Accepted ps acc t) : SetAside ps t := by
  have hbetween : InputLogic.Between {} := ⟨rfl, rfl⟩
  obtain ⟨hkeys, hvalues, hmds⟩ := hbetween.set_aside ps
  rw [← h.split, InputLogic.acceptAll_append, Written.append] at hkeys hvalues hmds
  dsimp only at hkeys hvalues hmds
  rw [h.in2key] at hkeys
  rw [h.in2value] at hvalues
  rw [h.in2md] at hmds
  refine ⟨⟨_, hkeys⟩, ⟨_, hvalues⟩, ⟨_, hmds⟩, fun i hi ↦ ?_⟩
  rw [← h.in2ccMd] at hi
  have hintime := hbetween.set_aside_before ⟨_, h.split⟩ hi
  rwa [h.in2key, h.in2value] at hintime

theorem setAside_run (ps : List RequestPacket) (es : List Event) :
    SetAside ps (run step (start ps) es) := by
  obtain ⟨acc, h⟩ := exists_accepted ps es
  exact h.setAside

theorem set_aside_step (t : FrontEnd) (e : Event) : t.q.in2key <+: (t.step e).q.in2key
    ∧ t.q.in2value <+: (t.step e).q.in2value ∧ t.q.in2md <+: (t.step e).q.in2md := by
  have hsame :
      t.q.in2key <+: t.q.in2key ∧ t.q.in2value <+: t.q.in2value ∧ t.q.in2md <+: t.q.in2md :=
    ⟨List.prefix_rfl, List.prefix_rfl, List.prefix_rfl⟩
  cases e with
  | arrive =>
    rw [step]
    split <;> exact hsame
  | htInputLogic =>
    rw [step, htInputLogic]
    split
    · exact hsame
    · exact ⟨List.prefix_append .., List.prefix_append .., List.prefix_append ..⟩
  | hashKeyResizer => exact hsame
  | bobj => exact hsame

/-- In the end everything has been set aside. -/
theorem setAside_of_ended {es : List Event} (hended : Ended Ready (run step (start ps) es)) :
    let q := (run step (start ps) es).q
    q.in2key = ps.flatMap RequestPacket.keys2out
      ∧ q.in2value = ps.flatMap RequestPacket.values2out
      ∧ q.in2md = ps.flatMap RequestPacket.mds2out := by
  obtain ⟨acc, h⟩ := exists_accepted ps es
  have hbetween : InputLogic.Between {} := ⟨rfl, rfl⟩
  have hsplit := h.split
  rw [not_ne_iff.mp (hended .arrive), not_ne_iff.mp (hended .htInputLogic), List.append_nil,
    List.append_nil] at hsplit
  obtain ⟨hkeys, hvalues, hmds⟩ := hbetween.set_aside ps
  rw [← hsplit] at hkeys hvalues hmds
  exact ⟨h.in2key.symm.trans hkeys, h.in2value.symm.trans hvalues, h.in2md.symm.trans hmds⟩

end FrontEnd

end FpgaOs.Memcached
