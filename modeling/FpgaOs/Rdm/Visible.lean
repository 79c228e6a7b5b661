import FpgaOs.Rdm.Memory

/-!
# Which `WRITE` a `READ` returns

`access` replies to a `WRITE` as soon as `map` has handed the request on: it does not wait for the
data to be sent, nor for the status that the data mover gives back, and `DRAM_wr_pipe` drops that
status. A `READ` has channels of its own. So when a client has got the reply to a `WRITE` and then
sends a `READ` to the same address, nothing makes the data mover write before it reads.

This file says when a `READ` returns the data of the latest `WRITE` that had been acknowledged: it
does in every run in which a unit of it is delivered only after the unit of the `WRITE` has been
written, with nothing written over it since, given that the mapping has given both the same address
and that the data have stayed with their command.
-/

namespace FpgaOs.Rdm

open BitField Mapping Service ByteMemory

/-! ## What is to hold -/

section Visible

variable (e : Env) (ps : List Packet)

/-- The turn of request `k`. -/
def turnAt (k : ℕ) : Turn := Turn.first.after e (ps.take k)

/-- The number of units that arrive before the first one of request `k`. -/
def unitsBefore (k : ℕ) : ℕ := ((ps.take k).flatMap Packet.units).length

/-- The number of units that are sent before the first one of the reply to request `k`. -/
def replyAt (k : ℕ) : ℕ := ((replies e 1 .first ps).take k).flatten.length

/-- Request `q` is a `READ` that has arrived after the reply to the mapped `WRITE` `w` to the same
address had been sent, where `arrivals` are the numbers of units that had been sent when the units
arrived. -/
def Acknowledged (arrivals : List ℕ) (w q : ℕ) : Prop :=
  w < q ∧ ∃ p ∈ ps[w]?, ∃ r ∈ ps[q]?, (p.writeAddress e (turnAt e ps w)).isSome
    ∧ r.app.opcode = opcodeRead
    ∧ p.app.address = r.app.address ∧ ∃ n ∈ arrivals[unitsBefore ps q]?, replyAt e ps (w + 1) ≤ n

/-- The `WRITE` whose data the `READ` is to return. -/
def IsLatest (arrivals : List ℕ) (w q : ℕ) : Prop :=
  Acknowledged e ps arrivals w q ∧ ∀ w' < q, Acknowledged e ps arrivals w' q → w' ≤ w

/-- What has been sent of the reply to request `q` is that to a mapped `READ`, with the data of the
`WRITE`. -/
structure Returns (q : ℕ) (p r : Packet) (toNet : List NetAxis) : Prop where
  opcode : ∀ h, toNet[replyAt e ps q + 1]? = some h → h.opcode = opcodeReplyRead
  data : ∀ j x u, j < r.nrUnits → p.payload[j]? = some x → toNet[replyAt e ps q + (2 + j)]?
    = some u → u.data = x.data

/-- **What is to hold of `READ`s.** -/
structure Visible (S : System) : Prop where
  returns : ∀ w q, IsLatest e ps S.arrivals w q → ∀ p ∈ ps[w]?, ∀ r ∈ ps[q]?,
    Returns e ps q p r S.service.toNet
  /-- All replies are sent when nothing is left to be done, and it can always come to that. -/
  all : S.service.Drained → S.service.toNet = (replies e 1 .first ps).flatten
  leads : S.service.Leads e Drained

/-! ## The condition -/

/-- The numbers of units that are read and written for the requests before request `k`. -/
def readsBefore (k : ℕ) : ℕ := (readAddrs e (ps.take k)).length

def writesBefore (k : ℕ) : ℕ := (writeAddrs e (ps.take k)).length

/-- The mapping gives the `READ` the address of the `WRITE`, and the data that go with the command
of the `WRITE` are its own. -/
def Paired (w q : ℕ) : Prop :=
  ∀ p ∈ ps[w]?, ∀ r ∈ ps[q]?, r.readAddress e (turnAt e ps q) = p.writeAddress e (turnAt e ps w)
    ∧ (p.payload.map NetAxis.data).take r.nrUnits <+: (allData ps).drop (writesBefore e ps w)

/-- The `k`-th unit that is written has been written, and nothing over it. -/
def System.Holds (S : System) (k : ℕ) : Prop :=
  ∃ u ∈ S.commits[k]?, ∀ u' ∈ S.commits.drop (k + 1), Apart 512 u.1 u'.1

/-- If the next unit to be delivered is one of the `READ`, the memory holds the unit of the
`WRITE`. -/
def System.Shows (S : System) (w q : ℕ) : Prop :=
  ∀ p ∈ ps[w]?, ∀ r ∈ ps[q]?, ∀ j < r.nrUnits, j < p.nrUnits →
    S.delivered = readsBefore e ps q + j →
    S.Holds (writesBefore e ps w + j)

/-- A unit of a `READ` is delivered only when the memory holds the unit of the `WRITE`. -/
def Settled (arrivals : List ℕ) (S : System) : System.Event → Prop
  | .call .dramDeliver =>
    S.service.dramBusy ≠ [] → ∀ q < ps.length, ∀ w < q, IsLatest e ps arrivals w q →
      S.Shows e ps w q
  | _ => True

instance (arrivals : List ℕ) (w q : ℕ) : Decidable (Acknowledged e ps arrivals w q) :=
  inferInstanceAs (Decidable (_ ∧ _))

instance (arrivals : List ℕ) (w q : ℕ) : Decidable (IsLatest e ps arrivals w q) :=
  inferInstanceAs (Decidable (_ ∧ _))

instance (w q : ℕ) : Decidable (Paired e ps w q) := inferInstanceAs (Decidable (∀ _ ∈ _, _))

instance (S : System) (k : ℕ) : Decidable (S.Holds k) := inferInstanceAs (Decidable (∃ _ ∈ _, _))

instance (S : System) (w q : ℕ) : Decidable (S.Shows e ps w q) :=
  inferInstanceAs (Decidable (∀ _ ∈ _, _))

instance decidableSettled (arrivals : List ℕ) (S : System) :
    ∀ ev, Decidable (Settled e ps arrivals S ev)
  | .call .dramDeliver => inferInstanceAs (Decidable (_ → _))
  | .call .arrive | .call .buffering | .call .parser | .call .allocAddress | .call
      .map | .call .access
  | .call .reply | .call .dramRdPipe | .call .dramWrPipe | .call .answerAlloc | .call
      .answerMap | .call .dramTake
  | .call (.rdStatus _) | .call (.wrStatus _) | .commit => isTrue trivial

end Visible

/-! ## The places of units -/

section Places

variable {e : Env} {ps : List Packet} {k j : ℕ} {p : Packet} {pa : BitVec 32}

theorem replies_split (hp : ps[k]? = some p) (nr : BitVec 64) (t : Turn) :
    (∃ nr' rest, (replies e nr t ps).flatten = ((replies e nr t ps).take k).flatten
      ++ (p.reply e nr' (p.serve e (t.after e (ps.take k))).1 ++ rest))
      ∧ ((replies e nr t ps).take k).flatten.length
        = (perPacket e (fun t p ↦ p.mask e t) t (ps.take k)).length := by
  induction ps generalizing nr t k with
  | nil => cases hp
  | cons p' ps ih =>
    cases k with
    | zero =>
      obtain rfl := Option.some.inj hp
      exact ⟨⟨nr, _, rfl⟩, rfl⟩
    | succ k =>
      obtain ⟨⟨nr', rest, hsplit⟩, hlen⟩ := ih hp (nr + 1) (p'.serve e t).2
      constructor
      · refine ⟨nr', rest, ?_⟩
        rw [replies, List.flatten_cons, hsplit, List.take_succ_cons, List.flatten_cons,
          List.append_assoc]
        rfl
      · rw [replies, List.take_succ_cons, List.flatten_cons, List.length_append, hlen,
          List.take_succ_cons, perPacket_cons, List.length_append, length_mask t p' nr]

theorem getElem?_replyAt (hp : ps[k]? = some p) :
    ∃ nr, ∀ i < (p.reply e nr (p.serve e (turnAt e ps k)).1).length,
    (replies e 1 .first ps).flatten[replyAt e ps k + i]?
      = (p.reply e nr (p.serve e (turnAt e ps k)).1)[i]? := by
  obtain ⟨⟨nr, rest, hsplit⟩, -⟩ := replies_split (e := e) hp 1 .first
  refine ⟨nr, fun i hi ↦ ?_⟩
  rw [hsplit, replyAt, List.getElem?_append_right (Nat.le_add_right _ _), Nat.add_sub_cancel_left]
  exact List.getElem?_append_left hi

theorem length_perPacket_readUnits (t : Turn) (ps : List Packet) :
    (perPacket e (fun t p ↦ p.readUnits e t) t ps).length
      = (perPacket e (fun t p ↦ p.readAddrs e t) t ps).length :=
  length_perPacket length_readUnits t ps

theorem getElem?_readAddrs (hp : ps[k]? = some p) (h : p.readAddress e (turnAt e ps k) = some pa)
    (hj : j < p.nrUnits) :
    (readAddrs e ps)[readsBefore e ps k + j]? = some (pa.toNat + 64 * j) := by
  have haddrs := readAddrs_of_some h
  have hplace := getElem?_perPacket (e := e) (f := fun t p ↦ p.readAddrs e t) hp .first (j := j)
    (by rw [turnAt] at haddrs; rwa [haddrs, List.length_map, List.length_range])
  rw [turnAt] at haddrs
  rw [readAddrs, readsBefore, readAddrs, hplace, haddrs, List.getElem?_map, List.getElem?_range hj]
  rfl

theorem getElem?_writeAddrs (hp : ps[k]? = some p) (h : p.writeAddress e (turnAt e ps k) = some pa)
    (hj : j < p.nrUnits) :
    (writeAddrs e ps)[writesBefore e ps k + j]? = some (pa.toNat + 64 * j) := by
  have haddrs := writeAddrs_of_some h
  have hplace := getElem?_perPacket (e := e) (f := fun t p ↦ p.writeAddrs e t) hp .first (j := j)
    (by rw [turnAt] at haddrs; rwa [haddrs, List.length_map, List.length_range])
  rw [turnAt] at haddrs
  rw [writeAddrs, writesBefore, writeAddrs, hplace, haddrs, List.getElem?_map,
    List.getElem?_range hj]
  rfl

theorem getElem?_readUnits (hp : ps[k]? = some p)
    (hj : j < (p.readUnits e (turnAt e ps k)).length) :
    (readUnits e ps)[readsBefore e ps k + j]? = (p.readUnits e (turnAt e ps k))[j]? := by
  rw [readUnits, readsBefore, readAddrs, ← length_perPacket_readUnits]
  exact getElem?_perPacket (f := fun t p ↦ p.readUnits e t) hp .first hj

end Places

/-! ## What has been sent has been delivered -/

section Delivered

variable {e : Env} {ps : List Packet} {m : ℕ → BitVec 8} {v : View} {S : System}

theorem count_replicate_true (b : Bool) (n : ℕ) :
    (if b then List.replicate n true else []).count true = if b then n else 0 := by
  cases b with
  | true => exact List.count_replicate_self
  | false => rfl

theorem count_shapeAll (pis : List PipelineInfo) : (shapeAll pis).count true = demandOf pis := by
  induction pis with
  | nil => rfl
  | cons pi pis ih =>
    rw [shapeAll, demandOf, List.count_cons_of_ne (by decide), List.count_cons_of_ne (by decide),
      List.count_append, count_replicate_true, ih]

/-- As many of the units that `access` will emit are read from memory as it waits for. -/
theorem count_shapeFrom (a : Access) (pis : List PipelineInfo) :
    (shapeFrom a pis).count true = demandOf pis + a.demand := by
  rw [shapeFrom, Access.demand]
  split
  · exact count_shapeAll pis
  · rw [List.count_cons_of_ne (by decide), List.count_append, count_replicate_true, count_shapeAll,
      Nat.add_comm]
  · rw [List.count_append, List.count_replicate_self, count_shapeAll, Nat.add_comm]

theorem count_masks (t : Turn) (ps : List Packet) :
    (perPacket e (fun t p ↦ p.mask e t) t ps).count true
      = (perPacket e (fun t p ↦ p.readAddrs e t) t ps).length := by
  induction ps generalizing t with
  | nil => rfl
  | cons p ps ih =>
    rw [perPacket_cons, perPacket_cons, List.count_append, List.length_append, ih, Packet.mask,
      List.count_cons_of_ne (by decide), List.count_cons_of_ne (by decide),
      List.count_replicate_self]

/-- **The units that have been emitted have been delivered.** -/
theorem System.Good.count_le (h : S.Good e ps m) {n : ℕ} (hn : n ≤ S.service.emitted) :
    ((perPacket e (fun t p ↦ p.mask e t) .first ps).take n).count true ≤ S.delivered := by
  obtain ⟨v, -, hinv, -, hfollows⟩ := h
  obtain ⟨bs, hmask, hlen⟩ := hfollows.mask
  have hall := @count_masks e .first ps
  have hunits := @length_perPacket_readUnits e .first ps
  have hbusy := congrArg List.length hfollows.busy
  have hdata := congrArg List.length hinv.rdData
  have hdemand := hinv.demand
  have hbegin : (bs.take n).count true ≤ bs.count true := (List.take_sublist n bs).count_le true
  rw [hmask, List.count_append, count_shapeFrom, ← hdemand] at hall
  rw [List.length_drop, readUnits, hunits, List.length_append] at hbusy
  simp only [List.length_append] at hdata
  rw [rdCmdsLeft] at hbusy
  rw [hmask, List.take_append_of_le_length (hlen ▸ hn)]
  omega

theorem System.Good.delivered (h : S.Good e ps m) {q j : ℕ} {r : Packet} (hr : ps[q]? = some r)
    (hj : j < (r.readAddrs e (turnAt e ps q)).length)
    (hsent : replyAt e ps q + (2 + j) < S.service.toNet.length) :
    readsBefore e ps q + j < S.delivered := by
  obtain ⟨rest, hsplit⟩ := perPacket_split (e := e) (f := fun t p ↦ p.mask e t) hr .first
  obtain ⟨-, hat⟩ := replies_split (e := e) hr 1 .first
  have hcount := h.count_le (n := replyAt e ps q + (2 + j) + 1) (by rw [Service.emitted]; omega)
  have hmask : ((r.mask e (turnAt e ps q) ++ rest).take (2 + j + 1)).count true = j + 1 := by
    have htake : (List.replicate (r.readAddrs e (turnAt e ps q)).length true ++ rest).take (j + 1)
        = List.replicate (j + 1) true := by
      rw [List.take_append_of_le_length (by rw [List.length_replicate]; exact hj),
        List.take_replicate, Nat.min_eq_left hj]
    have hplace : 2 + j + 1 = j + 1 + 1 + 1 := by omega
    rw [hplace, Packet.mask, List.cons_append, List.cons_append, List.take_succ_cons,
      List.take_succ_cons, htake, List.count_cons_of_ne (by decide),
      List.count_cons_of_ne (by decide), List.count_replicate_self]
  have hbefore := @count_masks e .first (ps.take q)
  rw [hsplit, replyAt, hat, Nat.add_assoc, List.take_length_add_append, List.count_append,
    hbefore] at hcount
  rw [readsBefore, readAddrs]
  rw [turnAt] at hmask
  omega

end Delivered

/-! ## What is delivered is what has been written -/

section Seen

variable {e : Env} {ps : List Packet} {m : ℕ → BitVec 8} {v : View} {S : System} {arrivals : List ℕ}

/-- What is read for unit `i` is what the latest acknowledged `WRITE` has there. -/
def Seen (e : Env) (ps : List Packet) (arrivals : List ℕ) (i : ℕ) : Prop :=
  ∀ w q, IsLatest e ps arrivals w q → ∀ p ∈ ps[w]?, ∀ r ∈ ps[q]?, ∀ j x, j < r.nrUnits →
    p.payload[j]? = some x →
    i = readsBefore e ps q + j → (readUnits e ps)[i]? = some x.data

theorem getElem?_of_isPrefix {α : Type*} {l l' : List α} (h : l <+: l') {i : ℕ} {x : α}
    (hx : l[i]? = some x) :
    l'[i]? = some x := by
  obtain ⟨rest, rfl⟩ := h
  rw [List.getElem?_append_left (List.getElem?_eq_some_iff.mp hx).1, hx]

theorem length_dramUnits_eq (n : ℕ) (cmds : List DmCmd) :
    (dramUnits e n cmds).length = (cmds.flatMap DmCmd.unitAddrs).length := by
  induction cmds generalizing n with
  | nil => rfl
  | cons cmd cmds ih =>
    rw [dramUnits, List.flatMap_cons, List.length_append, List.length_append, ih, dramBlock,
      DmCmd.unitAddrs, List.length_map, List.length_map]

theorem Follows.next_unit (h : Follows e ps m v S) {x : BitVec 512} {rest : List (BitVec 512)}
    (hx : S.service.dramBusy = x :: rest) : (readUnits e ps)[S.delivered]? = some x
      ∧ (S.taken.flatMap DmCmd.unitAddrs)[S.delivered]? = (readAddrs e ps)[S.delivered]? := by
  have hbusy := h.busy
  rw [hx] at hbusy
  constructor
  · have hhead := congrArg (·[0]?) hbusy
    rw [List.getElem?_drop] at hhead
    exact hhead.symm
  · have haddrs : readAddrs e ps = S.taken.flatMap DmCmd.unitAddrs
        ++ (rdCmdsLeft v S.service).flatMap DmCmd.unitAddrs := by
      rw [← List.flatMap_append, h.rdCmds]
      exact (flatMap_perPacket DmCmd.unitAddrs .first ps).symm
    have hunits := @length_perPacket_readUnits e .first ps
    have hlen := congrArg List.length hbusy
    have hlen' := congrArg List.length haddrs
    rw [List.cons_append, List.length_cons, List.length_append, length_dramUnits_eq,
      List.length_drop, readUnits, hunits] at hlen
    rw [readAddrs, List.length_append] at hlen'
    rw [haddrs, List.getElem?_append_left (by omega)]

theorem Follows.readUnit_of_holds (h : Follows e ps m v S) {k a : ℕ} {x : BitVec 512}
    (hholds : S.Holds k)
    (hlog : (writeLog e ps)[k]? = some (a, x)) : readUnit 512 S.memory a = x := by
  obtain ⟨u, hu, hapart⟩ := hholds
  obtain ⟨hk, hget⟩ := List.getElem?_eq_some_iff.mp hu
  obtain rfl : u = (a, x) := Option.some.inj ((getElem?_of_isPrefix h.commits hu).symm.trans hlog)
  have hsplit : S.commits = S.commits.take k ++ (a, x) :: S.commits.drop (k + 1) := by
    rw [← hget, List.getElem_cons_drop, List.take_append_drop]
  rw [h.memory, hsplit]
  exact readUnit_writeAll (by decide) hapart

theorem Follows.seen (h : Follows e ps m v S) {x : BitVec 512} {rest : List (BitVec 512)}
    (hx : S.service.dramBusy = x :: rest) (hfaithful : S.Faithful (.call .dramDeliver))
    (hsettled : Settled e ps arrivals S (.call .dramDeliver))
    (hpaired : ∀ w q, IsLatest e ps arrivals w q → Paired e ps w q) :
      Seen e ps arrivals S.delivered := by
  intro w q hlatest p hp r hr j d hj hd hi
  obtain ⟨hunit, haddr⟩ := h.next_unit hx
  obtain ⟨hsame, hown⟩ := hpaired w q hlatest p hp r hr
  obtain ⟨⟨hwq, p', hp', -, -, hmapped, -⟩, -⟩ := id hlatest
  obtain rfl : p' = p := Option.some.inj (hp'.symm.trans hp)
  obtain ⟨pa, hpa⟩ := Option.isSome_iff_exists.mp hmapped
  have hop : p'.app.opcode = opcodeWrite := by
    rw [Packet.writeAddress] at hpa
    split at hpa
    · next hwrite => exact hwrite.1
    · cases hpa
  have hjp : j < p'.nrUnits := length_payload hop ▸ (List.getElem?_eq_some_iff.mp hd).1
  have hq : q < ps.length := (List.getElem?_eq_some_iff.mp hr).1
  -- the unit of the `WRITE` is in memory
  have hholds := hsettled (List.ne_nil_of_mem (hx ▸ List.mem_cons_self)) q hq w hwq hlatest p' hp r
    hr j hj hjp hi
  have hlog : (writeLog e ps)[writesBefore e ps w + j]? = some (pa.toNat + 64 * j, d.data) := by
    have htake : ((p'.payload.map NetAxis.data).take r.nrUnits)[j]? = some d.data := by
      rw [List.getElem?_take_of_lt hj, List.getElem?_map, hd]
      rfl
    have hdata := getElem?_of_isPrefix hown htake
    rw [List.getElem?_drop] at hdata
    exact List.getElem?_zip_eq_some.mpr ⟨getElem?_writeAddrs hp hpa hjp, hdata⟩
  have hmem := h.readUnit_of_holds hholds hlog
  -- and this is where the `READ` looks
  rw [hi, getElem?_readAddrs hr (hsame.trans hpa) hj] at haddr
  have hnext : S.nextRead = some (x, pa.toNat + 64 * j) := by
    rw [System.nextRead, List.head?_eq_getElem?, List.getElem?_zip_eq_some,
      List.getElem?_drop, hx, hi]
    exact ⟨rfl, haddr⟩
  have hread : x = readUnit 512 S.memory (pa.toNat + 64 * j) := hfaithful _ hnext
  rw [hunit, hread, hmem]

/-- **The step lemma.** -/
theorem seen_step (hpaired : ∀ w q, IsLatest e ps arrivals w q → Paired e ps w q)
    (ev : System.Event) (h : S.Good e ps m ∧ ∀ i < S.delivered, Seen e ps arrivals i)
    (hguard : S.Faithful ev ∧ Settled e ps arrivals S ev) :
    (S.step e ev).Good e ps m ∧ ∀ i < (S.step e ev).delivered, Seen e ps arrivals i := by
  obtain ⟨hgood, hseen⟩ := h
  refine ⟨hgood.step ev, ?_⟩
  cases ev with
  | commit =>
    have hsame : S.commit.delivered = S.delivered := by
      rw [System.commit]
      split <;> rfl
    rw [System.step, hsame]
    exact hseen
  | call a =>
    -- only `dramDeliver` delivers a unit
    by_cases hdeliver : a = .dramDeliver
    · subst hdeliver
      obtain ⟨v, -, -, -, hfollows⟩ := hgood
      obtain ⟨x, rest, hx, hstep⟩ | hstep := @step_dramDeliver e S
      · rw [hstep]
        intro i hi
        rcases Nat.lt_succ_iff_lt_or_eq.mp hi with hlt | rfl
        · exact hseen i hlt
        · exact hfollows.seen hx hguard.1 hguard.2 hpaired
      · rw [hstep]
        exact hseen
    · have hsame : (S.step e (.call a)).delivered = S.delivered := by
        by_cases htake : a = .dramTake
        · rw [htake]
          rfl
        · exact congrArg (fun c ↦ c.2.2.2) (channels_record S htake hdeliver)
      rw [hsame]
      exact hseen

end Seen

/-! ## When acknowledged `WRITE`s are visible -/

section Result

variable {e : Env} {ps : List Packet} {m : ℕ → BitVec 8} {S : System}

theorem System.Good.getElem?_reply (h : S.Good e ps m) {q : ℕ} {r : Packet} (hr : ps[q]? = some r) :
    ∃ nr, ∀ i u, i < (r.reply e nr (r.serve e (turnAt e ps q)).1).length →
      S.service.toNet[replyAt e ps q + i]? = some u →
        (r.reply e nr (r.serve e (turnAt e ps q)).1)[i]? = some u := by
  obtain ⟨v, -, hinv, -⟩ := h
  obtain ⟨nr, hplace⟩ := getElem?_replyAt (e := e) hr
  refine ⟨nr, fun i u hi hu ↦ ?_⟩
  rw [← hplace i hi]
  exact getElem?_of_isPrefix ⟨_, hinv.output⟩ hu

theorem System.Good.returns (h : S.Good e ps m) (hseen : ∀ i < S.delivered, Seen e ps S.arrivals i)
    {w q : ℕ} (hlatest : IsLatest e ps S.arrivals w q) (hpaired : Paired e ps w q) {p r : Packet}
    (hp : ps[w]? = some p) (hr : ps[q]? = some r) : Returns e ps q p r S.service.toNet := by
  obtain ⟨hsame, -⟩ := hpaired p hp r hr
  obtain ⟨⟨-, p', hp', -, -, hmapped, -⟩, -⟩ := id hlatest
  obtain rfl : p' = p := Option.some.inj (hp'.symm.trans hp)
  obtain ⟨pa, hpa⟩ := Option.isSome_iff_exists.mp hmapped
  have hread := hsame.trans hpa
  obtain ⟨nr, hreply⟩ := h.getElem?_reply hr
  constructor
  · intro hdr hhdr
    have happ := hreply 1 hdr (Nat.succ_lt_succ (Nat.succ_pos _)) hhdr
    obtain rfl := Option.some.inj happ
    rw [opcode_replyHeader, (serve_of_some hread).1]
    rfl
  · intro j x u hj hx hu
    have hlen : (r.readUnits e (turnAt e ps q)).length = r.nrUnits := by
      rw [length_readUnits, readAddrs_of_some hread, List.length_map, List.length_range]
    have hlt : 2 + j < (r.reply e nr (r.serve e (turnAt e ps q)).1).length := by
      rw [Packet.readUnits, List.length_map] at hlen
      rw [Packet.reply, List.length_cons, List.length_cons, hlen]
      omega
    have hunit := hreply (2 + j) u hlt hu
    rw [Nat.add_comm 2 j] at hunit
    have hdata : (r.readUnits e (turnAt e ps q))[j]? = some u.data := by
      rw [Packet.readUnits, List.getElem?_map]
      exact congrArg (Option.map NetAxis.data) hunit
    have hdelivered := h.delivered hr (by rw [← length_readUnits, hlen]; exact hj)
      (List.getElem?_eq_some_iff.mp hu).1
    -- the unit has been delivered, so it was read when the write was in memory
    have hsaw := hseen _ hdelivered w q hlatest p' hp r hr j x hj hx rfl
    rw [getElem?_readUnits hr (by rw [hlen]; exact hj), hdata] at hsaw
    exact Option.some.inj hsaw

/-- **When acknowledged `WRITE`s are visible.** In every run in which a unit of a `READ` is
delivered only when the memory holds the unit of the `WRITE` that the `READ` is to return, it
returns the data of that `WRITE`. -/
theorem visible_of_settled (e : Env) (ps : List Packet) (m : ℕ → BitVec 8) (evs : List System.Event)
    (hfaithful : System.Along e ps m System.Faithful evs)
    (hpaired : ∀ w q, IsLatest e ps (System.after e ps m evs).arrivals w q → Paired e ps w q)
    (hsettled : System.Along e ps m (Settled e ps (System.after e ps m evs).arrivals) evs) :
    Visible e ps (System.after e ps m evs) := by
  have hinit : (System.init (ps.flatMap Packet.units) m).Good e ps m
      ∧ ∀ i < 0, Seen e ps (System.after e ps m evs).arrivals i :=
    ⟨good_init e ps m, fun i hi ↦ absurd hi (Nat.not_lt_zero i)⟩
  have hstep (S : System) (ev : System.Event)
      (h : S.Good e ps m ∧ ∀ i < S.delivered, Seen e ps (System.after e ps m evs).arrivals i)
      (hguard : S.Faithful ev ∧ Settled e ps (System.after e ps m evs).arrivals S ev) :=
    seen_step hpaired ev h hguard
  obtain ⟨hgood, hseen⟩ := Machine.Guarded.invariant hstep hinit (hfaithful.and hsettled)
  obtain ⟨v, -, hinv, -⟩ := id hgood
  exact ⟨fun w q hlatest p hp r hr ↦ hgood.returns hseen hlatest (hpaired w q hlatest) hp hr,
    Bound.toNet_of_drained ⟨v, hinv⟩, leads_drained ⟨v, hinv⟩⟩

end Result

/-! ### A `READ` that comes before the data of a `WRITE` -/

/-- The second header of a `READ` of one unit. -/
def readHeader (va : BitVec 64) : NetAxis := { header opcodeRead va 64 with last := 1 }

theorem opcode_readHeader (va : BitVec 64) : (readHeader va).opcode = opcodeRead :=
  opcode_header opcodeRead va 64

theorem toNat_length_readHeader (va : BitVec 64) : (readHeader va).length.toNat = 64 :=
  congrArg BitVec.toNat (length_header opcodeRead va 64)

theorem length_mem_readHeader (va : BitVec 64) :
    1 ≤ (readHeader va).length.toNat ∧ (readHeader va).length.toNat < 2 ^ 23 - 63 := by
  rw [toNat_length_readHeader]
  decide

theorem payload_readHeader (va : BitVec 64) : ([] : List NetAxis).length
    = if (readHeader va).opcode = opcodeWrite then unitsOf (readHeader va).length.toNat else 0 := by
  rw [opcode_readHeader, if_neg (by decide)]
  rfl

theorem last_readHeader (va : BitVec 64) (i : ℕ) (d : NetAxis)
    (hd : [({} : NetAxis), readHeader va][i]? = some d) :
    d.last = 1 ↔ i = 1 := by
  match i with
  | 0 =>
    rw [← Option.some.inj hd]
    exact iff_of_false (by decide : (0 : BitVec 1) ≠ 1) (by decide : 0 ≠ 1)
  | 1 =>
    rw [← Option.some.inj hd]
    exact iff_of_true rfl rfl

/-- A `READ` of one unit from address `va`. -/
def readOne (va : BitVec 64) : Packet where
  eth := {}
  app := readHeader va
  payload := []
  opcode_mem := .inl (opcode_readHeader va)
  length_pos := (length_mem_readHeader va).1
  length_lt := (length_mem_readHeader va).2
  payload_length := payload_readHeader va
  last_iff := last_readHeader va

/-- A `WRITE` and a `READ` of the same unit. -/
def writeThenRead : List Packet := [writeOne 0x1000 7, readOne 0x1000]

/-- `n` units arrive, and then everything else happens in turn, eight times. -/
def arriveThenServe (n : ℕ) : List System.Event :=
  List.replicate n (.call .arrive) ++ (List.replicate 8
    [.call .buffering, .call .parser, .call .allocAddress, .call .map, .call .answerMap,
      .call .access, .call .reply,
      .call .dramRdPipe, .call .dramTake, .call .dramDeliver, .call .dramWrPipe]).flatten

/-- The mapping has `0x1000`, and the data mover reads `x`. -/
def readsBack (x : BitVec 512) : Env := { oneMapping with dram := fun _ _ _ ↦ x }

/-- A run in which the `WRITE` has been written when the `READ` is delivered. -/
theorem visible_writeThenRead :
    Visible (readsBack 7) writeThenRead
      (System.after (readsBack 7) writeThenRead (fun _ ↦ 0)
        (arriveThenServe 3 ++ .commit :: arriveThenServe 2)) := by
  refine visible_of_settled _ _ _ _ ?_ ?_ ?_
  · decide +kernel
  · rintro w q ⟨⟨hwq, p, hp, r, hr, -⟩, -⟩
    have hq : q < 2 := (List.getElem?_eq_some_iff.mp hr).1
    obtain ⟨rfl, rfl⟩ : w = 0 ∧ q = 1 := by omega
    decide +kernel
  · decide +kernel

/-- The `READ` returns what the memory held before the `WRITE`. -/
theorem not_visible_writeThenRead :
    System.Along (readsBack 0) writeThenRead (fun _ ↦ 0) System.Faithful
      (arriveThenServe 3 ++ arriveThenServe 2)
      ∧ ¬Visible (readsBack 0) writeThenRead
        (System.after (readsBack 0) writeThenRead (fun _ ↦ 0)
          (arriveThenServe 3 ++ arriveThenServe 2)) := by
  constructor
  · decide +kernel
  · intro h
    have hlatest : IsLatest (readsBack 0) writeThenRead
      (System.after (readsBack 0) writeThenRead (fun _ ↦ 0)
        (arriveThenServe 3 ++ arriveThenServe 2)).arrivals 0 1 := by decide +kernel
    have hsent : ((System.after (readsBack 0) writeThenRead (fun _ ↦ 0)
        (arriveThenServe 3 ++ arriveThenServe 2)).service.toNet[replyAt
        (readsBack 0) writeThenRead 1 + (2 + 0)]?).map
          NetAxis.data = some 0 := by decide +kernel
    obtain ⟨u, hu, hdata⟩ := Option.map_eq_some_iff.mp hsent
    have hreturns := h.returns 0 1 hlatest (writeOne 0x1000 7) rfl (readOne 0x1000) rfl
    have hx : (writeOne 0x1000 7).payload[0]? = some { data := 7, last := 1 } := rfl
    have hseven := hreturns.data 0 _ u (nrUnits_pos _) hx hu
    have hne : (0 : BitVec 512) ≠ 7 := by decide +kernel
    exact hne (hdata.symm.trans hseven)

end FpgaOs.Rdm
