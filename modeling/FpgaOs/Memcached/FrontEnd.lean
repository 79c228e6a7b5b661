import FpgaOs.Memcached.InputLogic
import FpgaOs.Memcached.Stages

/-!
# The front end of the hash table

`ht_inputLogic`, `hashKeyResizer` and `bobj` are what a request goes through before it reaches
`concurrencyControl`, which gets its key, its metadata and its hash on three streams. The functions
are called in any order while words arrive, and they are joined by streams. None of them gets in the
way of another one (`commutes`), so all schedules come to the same end, and it is enough to follow
the one in which each function does all of its work before the next one does any.

In the end the key and the metadata of every request have been put out. The hashes are those of
the keys up to the first one after which `hashKeyResizer` stays in `KS_STEP0` (`hash2cc_eq`). So
what arrives at `concurrencyControl` is what the pipeline of the hash table is started with
(`arrivals`), without the hashes that are missing.
-/

namespace FpgaOs.Memcached

open BitField Machine

/-! ## The code -/

/-- The functions before `concurrencyControl`, and the words that have not arrived. -/
structure FrontEnd where
  input : List PipelineWord
  inputLogic : InputLogic := {}
  keyResizer : KeyResizer := {}
  bobj : Bobj := {}
  q : FrontStreams := {}

namespace FrontEnd

/-- A word arrives, or a function is called. -/
inductive Event
  | arrive
  | htInputLogic
  | hashKeyResizer
  | bobj
  deriving DecidableEq

variable (s : FrontEnd)

def step : Event → FrontEnd
  | .arrive =>
    match s.input with
    | [] => s
    | w :: input => { s with input, q := { s.q with inData := s.q.inData ++ [w] } }
  | .htInputLogic =>
    let result := Memcached.htInputLogic s.inputLogic s.q
    { s with inputLogic := result.1, q := result.2 }
  | .hashKeyResizer =>
    let result := Memcached.hashKeyResizer s.keyResizer s.q.toHashStreams
    { s with keyResizer := result.1, q := { s.q with toHashStreams := result.2 } }
  | .bobj =>
    let result := Memcached.bobj s.bobj s.q.toHashStreams
    { s with bobj := result.1, q := { s.q with toHashStreams := result.2 } }

/-- The event does something. -/
def Ready : Event → Prop
  | .arrive => s.input ≠ []
  | .htInputLogic => s.q.inData ≠ []
  | .hashKeyResizer => s.keyResizer.Able s.q.toHashStreams
  | .bobj => s.bobj.Able s.q.toHashStreams

variable {s}

theorem step_arrive {w : PipelineWord} {input : List PipelineWord} (h : s.input = w :: input) :
    s.step .arrive = { s with input, q := { s.q with inData := s.q.inData ++ [w] } } := by
  rw [step, h]

theorem step_htInputLogic {w : PipelineWord} {inData : List PipelineWord}
    (h : s.q.inData = w :: inData) :
    s.step .htInputLogic = { s with
      inputLogic := (s.inputLogic.accept w).1
      q := { s.q with inData }.write (s.inputLogic.accept w).2 } := by
  rw [step, htInputLogic, h]

theorem step_idle {e : Event} (h : ¬s.Ready e) : s.step e = s := by
  cases e with
  | arrive => rw [step, not_ne_iff.mp h]
  | htInputLogic =>
    rw [step, htInputLogic, not_ne_iff.mp h]
  | hashKeyResizer =>
    rw [step, KeyResizer.hashKeyResizer_of_not h]
  | bobj => rw [step, Bobj.bobj_of_not h]

/-- Two events that can both do something: each of them still can after the other, and it does not
matter which is first. -/
def Swaps (s : FrontEnd) (e e' : Event) : Prop :=
  (s.step e').Ready e ∧ (s.step e).Ready e' ∧ (s.step e).step e' = (s.step e').step e

theorem Swaps.symm {e e' : Event} (h : s.Swaps e e') : s.Swaps e' e := ⟨h.2.1, h.1, h.2.2.symm⟩

theorem swaps_arrive_htInputLogic (h : s.Ready .arrive) (h' : s.Ready .htInputLogic) :
    s.Swaps .arrive .htInputLogic := by
  obtain ⟨input, inputLogic, keyResizer, bobj, q⟩ := s
  obtain ⟨hash, inData, in2key, in2value, in2md, in2cc, in2ccMd⟩ := q
  obtain ⟨w, input, rfl⟩ := List.exists_cons_of_ne_nil h
  obtain ⟨v, inData, rfl⟩ := List.exists_cons_of_ne_nil h'
  exact ⟨List.cons_ne_nil _ _, List.cons_ne_nil _ _, rfl⟩

theorem swaps_arrive_hashKeyResizer (h : s.Ready .arrive) (h' : s.Ready .hashKeyResizer) :
    s.Swaps .arrive .hashKeyResizer := by
  obtain ⟨input, inputLogic, keyResizer, bobj, q⟩ := s
  obtain ⟨w, input, rfl⟩ := List.exists_cons_of_ne_nil h
  exact ⟨List.cons_ne_nil _ _, h', rfl⟩

theorem swaps_arrive_bobj (h : s.Ready .arrive) (h' : s.Ready .bobj) :
    s.Swaps .arrive .bobj := by
  obtain ⟨input, inputLogic, keyResizer, bobj, q⟩ := s
  obtain ⟨w, input, rfl⟩ := List.exists_cons_of_ne_nil h
  exact ⟨List.cons_ne_nil _ _, h', rfl⟩

theorem swaps_htInputLogic_hashKeyResizer (h : s.Ready .htInputLogic)
    (h' : s.Ready .hashKeyResizer) : s.Swaps .htInputLogic .hashKeyResizer := by
  obtain ⟨input, inputLogic, keyResizer, bobj, q⟩ := s
  obtain ⟨hash, inData, in2key, in2value, in2md, in2cc, in2ccMd⟩ := q
  obtain ⟨w, inData, rfl⟩ := List.exists_cons_of_ne_nil h
  obtain ⟨t, ws, lengths, keys, lengths', inits, hcalls⟩ := KeyResizer.exists_calls h'
  obtain ⟨-, hcall⟩ := hcalls hash [] [] (List.append_nil _).symm (List.append_nil _).symm
  let o := (inputLogic.accept w).2
  obtain ⟨hable, hcall'⟩ := hcalls { hash with
    in2hash := hash.in2hash ++ o.in2hash
    in2hashKeyLength := hash.in2hashKeyLength ++ o.in2hashKeyLength } _ _ rfl rfl
  refine ⟨List.cons_ne_nil _ _, hable, ?_⟩
  rw [List.append_nil, List.append_nil] at hcall
  simp only [step, Memcached.htInputLogic, FrontStreams.write]
  rw [hcall, hcall']

theorem swaps_htInputLogic_bobj (h : s.Ready .htInputLogic) (h' : s.Ready .bobj) :
    s.Swaps .htInputLogic .bobj := by
  obtain ⟨input, inputLogic, keyResizer, bobj, q⟩ := s
  obtain ⟨hash, inData, in2key, in2value, in2md, in2cc, in2ccMd⟩ := q
  obtain ⟨w, inData, rfl⟩ := List.exists_cons_of_ne_nil h
  obtain ⟨t, keys, lengths, inits, out, hcalls⟩ := Bobj.exists_calls h'
  let o := (inputLogic.accept w).2
  obtain ⟨-, hcall⟩ := hcalls hash [] [] [] (List.append_nil _).symm (List.append_nil _).symm
    (List.append_nil _).symm
  obtain ⟨hable, hcall'⟩ := hcalls { hash with
    in2hash := hash.in2hash ++ o.in2hash
    in2hashKeyLength := hash.in2hashKeyLength ++ o.in2hashKeyLength } [] [] []
    (List.append_nil _).symm (List.append_nil _).symm (List.append_nil _).symm
  refine ⟨List.cons_ne_nil _ _, hable, ?_⟩
  simp only [step, Memcached.htInputLogic, FrontStreams.write]
  rw [hcall, hcall']

theorem swaps_hashKeyResizer_bobj (h : s.Ready .hashKeyResizer) (h' : s.Ready .bobj) :
    s.Swaps .hashKeyResizer .bobj := by
  obtain ⟨input, inputLogic, keyResizer, bobj, q⟩ := s
  obtain ⟨hash, inData, in2key, in2value, in2md, in2cc, in2ccMd⟩ := q
  obtain ⟨t, ws, lengths, keys, lengths', inits, hresize⟩ := KeyResizer.exists_calls h
  obtain ⟨u, keys', lengths'', inits', out, hhash⟩ := Bobj.exists_calls h'
  obtain ⟨-, hresize₁⟩ := hresize hash [] [] (List.append_nil _).symm (List.append_nil _).symm
  obtain ⟨-, hhash₁⟩ := hhash hash [] [] [] (List.append_nil _).symm (List.append_nil _).symm
    (List.append_nil _).symm
  obtain ⟨hable, hresize₂⟩ := hresize (Memcached.bobj bobj hash).2 [] []
    (by rw [hhash₁]; exact (List.append_nil _).symm)
    (by rw [hhash₁]; exact (List.append_nil _).symm)
  obtain ⟨hable', hhash₂⟩ := hhash (Memcached.hashKeyResizer keyResizer hash).2 keys lengths' inits
    (by rw [hresize₁]) (by rw [hresize₁]) (by rw [hresize₁])
  refine ⟨hable, hable', ?_⟩
  simp only [step]
  rw [hresize₂, hhash₂, hresize₁, hhash₁]
  simp only [List.append_nil]

theorem swaps {e e' : Event} (hne : e ≠ e') (h : s.Ready e) (h' : s.Ready e') : s.Swaps e e' := by
  cases e with
  | arrive =>
    cases e' with
    | arrive => exact absurd rfl hne
    | htInputLogic => exact swaps_arrive_htInputLogic h h'
    | hashKeyResizer => exact swaps_arrive_hashKeyResizer h h'
    | bobj => exact swaps_arrive_bobj h h'
  | htInputLogic =>
    cases e' with
    | arrive => exact (swaps_arrive_htInputLogic h' h).symm
    | htInputLogic => exact absurd rfl hne
    | hashKeyResizer => exact swaps_htInputLogic_hashKeyResizer h h'
    | bobj => exact swaps_htInputLogic_bobj h h'
  | hashKeyResizer =>
    cases e' with
    | arrive => exact (swaps_arrive_hashKeyResizer h' h).symm
    | htInputLogic => exact (swaps_htInputLogic_hashKeyResizer h' h).symm
    | hashKeyResizer => exact absurd rfl hne
    | bobj => exact swaps_hashKeyResizer_bobj h h'
  | bobj =>
    cases e' with
    | arrive => exact (swaps_arrive_bobj h' h).symm
    | htInputLogic => exact (swaps_htInputLogic_bobj h' h).symm
    | hashKeyResizer => exact (swaps_hashKeyResizer_bobj h' h).symm
    | bobj => exact absurd rfl hne

/-- **The functions do not get in each other's way.** -/
theorem commutes : Commutes step Ready where
  idle _ _ h := step_idle h
  stays _ _ _ hne h h' := (swaps hne h h').1
  comm _ _ _ hne h h' := (swaps hne h h').2.2


/-! ## A schedule -/

theorem reaches_arrive (s : FrontEnd) : Reaches step Ready s
    { s with input := [], q := { s.q with inData := s.q.inData ++ s.input } } := by
  obtain ⟨input, inputLogic, keyResizer, bobj, q⟩ := s
  obtain ⟨hash, inData, in2key, in2value, in2md, in2cc, in2ccMd⟩ := q
  induction input generalizing inData with
  | nil =>
    rw [List.append_nil]
    exact Reaches.refl _
  | cons w input ih =>
    refine .head (i := .arrive) (List.cons_ne_nil _ _) ?_
    have hrest := ih (inData ++ [w])
    rwa [List.append_assoc] at hrest

theorem reaches_htInputLogic (s : FrontEnd) : Reaches step Ready s
    { s with
      inputLogic := (s.inputLogic.acceptAll s.q.inData).1
      q := { s.q with inData := [] }.write (s.inputLogic.acceptAll s.q.inData).2 } := by
  obtain ⟨input, inputLogic, keyResizer, bobj, q⟩ := s
  obtain ⟨hash, inData, in2key, in2value, in2md, in2cc, in2ccMd⟩ := q
  induction inData generalizing inputLogic hash in2key in2value in2md in2cc in2ccMd with
  | nil =>
    rw [InputLogic.acceptAll, FrontStreams.write_nil]
    exact Reaches.refl _
  | cons w inData ih =>
    refine .head (i := .htInputLogic) (List.cons_ne_nil _ _) ?_
    rw [InputLogic.acceptAll, ← FrontStreams.write_write]
    exact ih _ _ _ _ _ _ _

theorem reaches_hashKeyResizer {s : FrontEnd} {t : KeyResizer} {hash : HashStreams}
    (h : KeyResizer.Runs (s.keyResizer, s.q.toHashStreams) (t, hash)) : Reaches step Ready s
      { s with keyResizer := t, q := { s.q with toHashStreams := hash } } := by
  let f : KeyResizer × HashStreams → FrontEnd :=
    fun x ↦ { s with keyResizer := x.1, q := { s.q with toHashStreams := x.2 } }
  let g : Unit → Event := fun _ ↦ .hashKeyResizer
  have hready : ∀ x (k : Unit), x.1.Able x.2 → (f x).Ready (g k) := fun _ _ hable ↦ hable
  exact Reaches.map (f := f) (g := g) (fun _ _ _ ↦ rfl) hready h

theorem reaches_bobj {s : FrontEnd} {t : Bobj} {hash : HashStreams}
    (h : Bobj.Runs (s.bobj, s.q.toHashStreams) (t, hash)) : Reaches step Ready s
      { s with bobj := t, q := { s.q with toHashStreams := hash } } := by
  let f : Bobj × HashStreams → FrontEnd :=
    fun x ↦ { s with bobj := x.1, q := { s.q with toHashStreams := x.2 } }
  let g : Unit → Event := fun _ ↦ .bobj
  have hready : ∀ x (k : Unit), x.1.Able x.2 → (f x).Ready (g k) := fun _ _ hable ↦ hable
  exact Reaches.map (f := f) (g := g) (fun _ _ _ ↦ rfl) hready h

/-! ## The end -/

/-- The words of these requests are to arrive. -/
def start (ps : List RequestPacket) : FrontEnd where
  input := ps.flatMap RequestPacket.words

/-- What has been done with some packets can also be done when more packets are to come. -/
theorem reaches_start_append {ps : List RequestPacket} {t : FrontEnd}
    (h : Reaches step Ready (start ps) t) (ps' : List RequestPacket) :
    Reaches step Ready (start (ps ++ ps'))
      { t with input := t.input ++ ps'.flatMap RequestPacket.words } := by
  let f : FrontEnd → FrontEnd :=
    fun x ↦ { x with input := x.input ++ ps'.flatMap RequestPacket.words }
  have hstart : start (ps ++ ps') = f (start ps) := by
    rw [start, List.flatMap_append]
    rfl
  rw [hstart]
  refine Reaches.map (f := f) (g := id) (fun x e hready ↦ ?_) (fun x e hready ↦ ?_) h
  · cases e with
    | arrive =>
      obtain ⟨w, input, hinput⟩ := List.exists_cons_of_ne_nil hready
      rw [step_arrive hinput]
      exact step_arrive (congrArg (· ++ ps'.flatMap RequestPacket.words) hinput)
    | _ => rfl
  · cases e with
    | arrive => exact List.append_ne_nil_of_left_ne_nil hready _
    | _ => exact hready

/-- The hashes of the keys that are hashed. -/
def hashes (ps : List RequestPacket) : List (BitVec 32) :=
  (hashed (ps.map RequestPacket.key)).map fun key ↦ Lookup3.hash key hashFunctionSeed

theorem exists_ended (ps : List RequestPacket) :
    ∃ t wss, Reaches step Ready (start ps) t ∧ Ended Ready t
      ∧ List.Forall₂ (fun p ws ↦ CutInto p.key ws) ps wss
      ∧ t.q.in2cc = wss.flatten ∧ t.q.in2ccMd = ps.map RequestPacket.md
      ∧ t.q.hash2cc = hashes ps := by
  let keys := ps.map RequestPacket.key
  have hkeys : ∀ key ∈ keys, IsKey key := by
    intro key hkey
    obtain ⟨p, -, rfl⟩ := List.mem_map.mp hkey
    exact p.isKey
  obtain ⟨inputLogic, o, wss, heq, hcut, hhash, hcc, hlengths, hmds⟩ :=
    InputLogic.Between.exists_requests (s := {}) ⟨rfl, rfl⟩ ps
  have hspells : List.Forall₂ (fun (p : RequestPacket) ws ↦ Spells p.key ws) ps wss :=
    hcut.imp fun p _ h ↦ h.spells p.isKey.ne_nil
  let q : FrontStreams := FrontStreams.write {} o
  have hq : q.in2hash = wss.flatten := hhash
  have hqlengths : q.in2hashKeyLength = keys.map fun key ↦ .ofNat 8 key.length := by
    rw [List.map_map]
    exact hlengths.trans (List.map_congr_left fun p _ ↦ p.keyLength_eq)
  obtain ⟨keyResizer, lengths, css, cs, hended, hfills, hresize⟩ :=
    @KeyResizer.exists_runs_keys keys wss hkeys (List.forall₂_map_left_iff.mpr hspells) {}
      q.toHashStreams rfl hq hqlengths
  let hash : HashStreams := { q.toHashStreams with
    in2hash := []
    in2hashKeyLength := lengths
    resizedKey := css.flatten ++ cs
    resizedKeyLength := (hashed keys).map fun key ↦ .ofNat 32 key.length
    resizedInitValue := (hashed keys).map fun _ ↦ hashFunctionSeed }
  obtain ⟨bobj, hidle, hhashes⟩ :=
    @Bobj.exists_runs_keys (hashed keys) css
      (fun key hkey ↦ hkeys key ((hashed_isPrefix keys).subset hkey)) hfills cs {} hash
      rfl rfl rfl rfl
  -- one function after the other
  have harrive := reaches_arrive (start ps)
  have hinput := harrive.trans (reaches_htInputLogic _)
  simp only [start, List.nil_append] at hinput
  rw [heq] at hinput
  have hall := (hinput.trans (reaches_hashKeyResizer hresize)).trans (reaches_bobj hhashes)
  refine ⟨_, wss, hall, ?_, hcut, hcc, hmds, rfl⟩
  intro e hready
  cases e with
  | arrive => exact hready rfl
  | htInputLogic => exact hready rfl
  | hashKeyResizer =>
    rw [Ready, KeyResizer.Able] at hready
    rcases hended with ⟨hstate, rfl⟩ | hstate
    · rw [hstate] at hready
      exact hready.1 rfl
    · rw [hstate] at hready
      exact hready rfl
  | bobj =>
    rw [Ready, Bobj.Able, hidle] at hready
    exact hready.1 rfl

theorem prefix_step (s : FrontEnd) (e : Event) :
    s.q.in2cc <+: (s.step e).q.in2cc ∧ s.q.in2ccMd <+: (s.step e).q.in2ccMd
      ∧ s.q.hash2cc <+: (s.step e).q.hash2cc := by
  by_cases hready : s.Ready e
  · cases e with
    | arrive =>
      obtain ⟨w, input, hinput⟩ := List.exists_cons_of_ne_nil hready
      rw [step_arrive hinput]
      exact ⟨List.prefix_rfl, List.prefix_rfl, List.prefix_rfl⟩
    | htInputLogic =>
      obtain ⟨w, inData, hin⟩ := List.exists_cons_of_ne_nil hready
      rw [step_htInputLogic hin]
      exact ⟨List.prefix_append .., List.prefix_append .., List.prefix_rfl⟩
    | hashKeyResizer =>
      obtain ⟨t, ws, lengths, keys, lengths', inits, hcalls⟩ := KeyResizer.exists_calls hready
      obtain ⟨-, hcall⟩ := hcalls s.q.toHashStreams [] [] (List.append_nil _).symm
        (List.append_nil _).symm
      rw [step, hcall]
      exact ⟨List.prefix_rfl, List.prefix_rfl, List.prefix_rfl⟩
    | bobj =>
      obtain ⟨t, keys, lengths, inits, out, hcalls⟩ := Bobj.exists_calls hready
      obtain ⟨-, hcall⟩ := hcalls s.q.toHashStreams [] [] [] (List.append_nil _).symm
        (List.append_nil _).symm (List.append_nil _).symm
      rw [step, hcall]
      exact ⟨List.prefix_rfl, List.prefix_rfl, List.prefix_append ..⟩
  · rw [step_idle hready]
    exact ⟨List.prefix_rfl, List.prefix_rfl, List.prefix_rfl⟩

/-- **What is put out.** At any time it is a part of what there is in the end, and a schedule that
forgets no function comes to this end, after which no function does anything. -/
theorem exists_puts (ps : List RequestPacket) :
    ∃ wss, List.Forall₂ (fun p ws ↦ CutInto p.key ws) ps wss
      ∧ (∀ es, let q := (run step (start ps) es).q
        q.in2cc <+: wss.flatten ∧ q.in2ccMd <+: ps.map RequestPacket.md ∧ q.hash2cc <+: hashes ps)
      ∧ ∃ n, ∀ es (rounds : List (List Event)), (∀ r ∈ rounds, ∀ e, e ∈ r) → n ≤ rounds.length →
        let s := run step (start ps) (es ++ rounds.flatten)
        Ended Ready s ∧ s.q.in2cc = wss.flatten ∧ s.q.in2ccMd = ps.map RequestPacket.md
          ∧ s.q.hash2cc = hashes ps := by
  obtain ⟨t, wss, ⟨is, hthrough⟩, hended, hcut, hcc, hmd, hhash⟩ := exists_ended ps
  refine ⟨wss, hcut, fun es ↦ ?_, is.length, fun es rounds hrounds hlen ↦ ?_⟩
  · have hpre : ∀ {β : Type} (out : FrontEnd → List β), (∀ s e, out s <+: out (step s e)) →
        out (run step (start ps) es) <+: out t :=
      fun _ hout ↦ commutes.prefix_run hout hended hthrough es
    rw [← hcc, ← hmd, ← hhash]
    exact ⟨hpre (fun s ↦ s.q.in2cc) fun s e ↦ (prefix_step s e).1,
      hpre (fun s ↦ s.q.in2ccMd) fun s e ↦ (prefix_step s e).2.1,
      hpre (fun s ↦ s.q.hash2cc) fun s e ↦ (prefix_step s e).2.2⟩
  · obtain ⟨js, hjs, hle⟩ := commutes.exists_through hended hthrough es
    rw [run_append, commutes.run_rounds hended hjs hrounds (hle.trans hlen)]
    exact ⟨hended, hcc, hmd, hhash⟩

/-- **The hashes.** They are those of the keys in order, up to the first key after which
`hashKeyResizer` stays in `KS_STEP0`, and they come out under every schedule. -/
theorem hash2cc_eq (ps : List RequestPacket) :
    (∀ es, (run step (start ps) es).q.hash2cc <+: hashes ps)
      ∧ ∃ n, ∀ es (rounds : List (List Event)), (∀ r ∈ rounds, ∀ e, e ∈ r) → n ≤ rounds.length →
        (run step (start ps) (es ++ rounds.flatten)).q.hash2cc = hashes ps := by
  obtain ⟨wss, -, hpre, n, hall⟩ := exists_puts ps
  refine ⟨fun es ↦ (hpre es).2.2, n, fun es rounds hrounds hlen ↦ ?_⟩
  exact (hall es rounds hrounds hlen).2.2.2

/-! ## What arrives -/

/-- This is the request that the packet carries. -/
structure Carries (p : RequestPacket) (r : TableRequest) : Prop where
  op : r.op.code = p.first.operation
  keyLength : r.keyLength = p.first.keyLength
  valueLength : r.valueLength = p.md.valueLength
  metadata : r.metadata = Lookup3.hash p.key hashFunctionSeed
  spells : Spells p.key (keyWords r.key)
  words : r.words = lookupWords p.key

theorem Spells.length_add_one {p : RequestPacket} {ws : List KeyWord} (h : Spells p.key ws) :
    ws.length + 1 = (memCount p.first.keyLength).toNat := by
  have hall : ∀ k : BitVec 8, k ≠ 0 → (memCount k).toNat = (k.toNat + 15) / 16 + 1 := by
    decide +kernel
  obtain ⟨hlow, hhigh⟩ := h.fills.length_bounds (by decide)
  rw [List.length_map, p.length_key] at hlow hhigh
  rw [hall _ p.keyLength_ne]
  omega

/-- The words in which the key is looked up do not depend on what was in the buffer before. -/
theorem words_eq {p : RequestPacket} {ws : List KeyWord} (h : CutInto p.key ws) {r : SetRequest}
    (hlen : r.keyLength = p.first.keyLength) (hkey : r.key = ws.map KeyWord.data) :
    r.words = lookupWords p.key := by
  obtain ⟨d, rfl⟩ := h
  have hshort : r.keyLength ≤ 16 ↔ p.key.length ≤ 16 := by
    rw [hlen, BitVec.le_def, p.length_key]
    rfl
  rw [SetRequest.words, hkey, lookupWords]
  by_cases hle : p.key.length ≤ 16
  · rw [if_pos (hshort.mpr hle), keyPieces_of_le hle, keyPieces_of_le hle, hlen, ← p.length_key]
    exact congrArg ([·]) (setWidth_setBytes (m := 16) hle)
  · rw [if_neg (mt hshort.mp hle), keyPieces_congr (Nat.not_le.mp hle)]

theorem exists_carries {p : RequestPacket} {ws : List KeyWord} (hcut : CutInto p.key ws)
    (hop : ∃ op : Operation, op.code = p.first.operation) :
    ∃ r : TableRequest, Carries p r ∧ keyWords r.key = ws := by
  obtain ⟨op, hop⟩ := hop
  have h := hcut.spells p.isKey.ne_nil
  have hws := keyWords_map_data h.marked
  refine ⟨{
    metadata := Lookup3.hash p.key hashFunctionSeed
    keyLength := p.first.keyLength
    valueLength := p.md.valueLength
    key := ws.map KeyWord.data
    keyLength_ne := p.keyLength_ne
    length_key := ?_
    op }, ⟨hop, rfl, rfl, rfl, ?_, ?_⟩, hws⟩
  · rw [List.length_map]
    exact Spells.length_add_one h
  · rwa [hws]
  · exact words_eq hcut rfl rfl

theorem Carries.md_eq {p : RequestPacket} {r : TableRequest} (h : Carries p r) :
    r.toCc.md = p.md := by
  rw [TableRequest.toCc, RequestPacket.md, h.op, h.keyLength, h.valueLength]
  rfl

theorem exists_forall_carries {ps : List RequestPacket} {wss : List (List KeyWord)}
    (hcut : List.Forall₂ (fun p ws ↦ CutInto p.key ws) ps wss)
    (hops : ∀ p ∈ ps, ∃ op : Operation, op.code = p.first.operation) :
    ∃ rs : List TableRequest, List.Forall₂ Carries ps rs
      ∧ (rs.flatMap fun r ↦ r.toCc.words) = wss.flatten
      ∧ (rs.map fun r ↦ r.toCc.md) = ps.map RequestPacket.md
      ∧ (rs.map fun r ↦ r.toCc.hash)
        = (ps.map RequestPacket.key).map fun key ↦ Lookup3.hash key hashFunctionSeed := by
  induction hcut with
  | nil => exact ⟨[], .nil, rfl, rfl, rfl⟩
  | @cons p ws ps wss h _ ih =>
    obtain ⟨hop, hops⟩ := List.forall_mem_cons.mp hops
    obtain ⟨r, hr, hws⟩ := exists_carries h hop
    obtain ⟨rs, hrs, hwss, hmds, hhashes⟩ := ih hops
    refine ⟨r :: rs, .cons hr hrs, ?_, ?_, ?_⟩
    · rw [List.flatMap_cons, hwss, List.flatten_cons, ← hws]
      rfl
    · rw [List.map_cons, hmds, List.map_cons, hr.md_eq]
    · rw [List.map_cons, hhashes, List.map_cons, List.map_cons, ← hr.metadata]
      rfl

/-- **What arrives.** There are requests to the table, one for each packet, such that at any time
what has been put out for `concurrencyControl` is a part of what the pipeline is started with. In
the end it is all of this but for the hashes after the first key that stalls `hashKeyResizer`. -/
theorem arrivals {ps : List RequestPacket}
    (hops : ∀ p ∈ ps, ∃ op : Operation, op.code = p.first.operation) (enabled : Bool) :
    ∃ rs : List TableRequest, List.Forall₂ Carries ps rs
      ∧ (∀ es, let q := (run step (start ps) es).q
        q.in2cc <+: (Pipeline.start rs enabled).words
          ∧ q.in2ccMd <+: (Pipeline.start rs enabled).mds
          ∧ q.hash2cc <+: (Pipeline.start rs enabled).hashes)
      ∧ ∃ n, ∀ es (rounds : List (List Event)), (∀ r ∈ rounds, ∀ e, e ∈ r) → n ≤ rounds.length →
        let q := (run step (start ps) (es ++ rounds.flatten)).q
        q.in2cc = (Pipeline.start rs enabled).words
          ∧ q.in2ccMd = (Pipeline.start rs enabled).mds
          ∧ q.hash2cc = (Pipeline.start rs enabled).hashes.take
            (hashed (ps.map RequestPacket.key)).length := by
  obtain ⟨wss, hcut, hpre, n, hall⟩ := exists_puts ps
  obtain ⟨rs, hrs, hwords, hmds, hmap⟩ := exists_forall_carries hcut hops
  have hhashes : hashes ps = (Pipeline.start rs enabled).hashes.take
      (hashed (ps.map RequestPacket.key)).length := by
    rw [Pipeline.start, hmap, ← List.map_take, hashes]
    exact congrArg _ (List.prefix_iff_eq_take.mp (hashed_isPrefix _))
  rw [← hwords, ← hmds] at hpre hall
  refine ⟨rs, hrs, fun es ↦ ?_, n, fun es rounds hrounds hlen ↦ ?_⟩
  · obtain ⟨hwords, hmds, hhash⟩ := hpre es
    exact ⟨hwords, hmds, hhash.trans (hhashes ▸ List.take_prefix ..)⟩
  · rw [← hhashes]
    exact (hall es rounds hrounds hlen).2

/-- A `SET` of a value of five bytes under a key of ten. -/
def sampleSet : RequestPacket where
  first := ⟨0x1 <<< 104 ||| 0x50a, true, true, true, false, 0x1122334455, 0x6162636465666768⟩
  rest := [⟨0, false, true, false, true, 0, 0x696a⟩]
  sop := rfl
  marked := rfl
  keyLength_ne := by decide
  complete := by decide

/-- A `GET` of a key of 49 bytes. -/
def sampleGet : RequestPacket where
  first := ⟨0x31, true, true, false, false, 0, 0x6162636465666768⟩
  rest := List.replicate 5 ⟨0, false, true, false, false, 0, 0x7172737475767778⟩
    ++ [⟨0, false, true, false, true, 0, 0x79⟩]
  sop := rfl
  marked := by decide
  keyLength_ne := by decide
  complete := by decide

theorem arrivals_sample :
    ∃ rs : List TableRequest, List.Forall₂ Carries [sampleSet, sampleGet, sampleSet] rs
      ∧ (∀ es, let q := (run step (start [sampleSet, sampleGet, sampleSet]) es).q
        q.in2cc <+: (Pipeline.start rs false).words
          ∧ q.in2ccMd <+: (Pipeline.start rs false).mds
          ∧ q.hash2cc <+: (Pipeline.start rs false).hashes)
      ∧ ∃ n, ∀ es (rounds : List (List Event)), (∀ r ∈ rounds, ∀ e, e ∈ r) → n ≤ rounds.length →
        let q := (run step (start [sampleSet, sampleGet, sampleSet]) (es ++ rounds.flatten)).q
        q.in2cc = (Pipeline.start rs false).words
          ∧ q.in2ccMd = (Pipeline.start rs false).mds
          ∧ q.hash2cc = (Pipeline.start rs false).hashes.take
            (hashed ([sampleSet, sampleGet, sampleSet].map RequestPacket.key)).length :=
  arrivals (by
    simp only [List.forall_mem_cons]
    exact ⟨⟨.set, by decide⟩, ⟨.get, by decide⟩, ⟨.set, by decide⟩, List.forall_mem_nil _⟩) false

/-- All functions once. -/
def round : List Event := [.arrive, .htInputLogic, .hashKeyResizer, .bobj]

/-- How many hashes there are after some rounds. -/
def sampleHashes (ps : List RequestPacket) (n : ℕ) : ℕ :=
  (run step (start ps) (List.replicate n round).flatten).q.hash2cc.length

-- the `SET` after the key of 49 bytes is not hashed
example : sampleHashes [sampleSet, sampleSet, sampleGet] 60 = 3 := by decide +kernel
example : sampleHashes [sampleSet, sampleGet, sampleSet] 60 = 2 := by decide +kernel

end FrontEnd

end FpgaOs.Memcached
