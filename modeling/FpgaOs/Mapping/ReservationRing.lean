import FpgaOs.Lib.Machine
import FpgaOs.Mapping.Reservation

/-!
# The words of the reservation table

`address_reservation_table` keeps its ring in sixteen words of seven bits, an index with a bit that
says whether the word is valid, and two counters that are masked after each step. A call serves a
pop request and then a reservation, when there are any.

The words are read as the ring of `ResvTable`, one call after the other. As long as nothing is
popped that has not been reserved, the words from the head to the rear are the indices that have
been reserved and not popped, in the order of their reservations.
-/

namespace FpgaOs.Mapping

/-- The static variables of `address_reservation_table`, as they are stored. -/
structure AddrResvTable where
  addrResvTable : Fin 16 → BitVec 7
  head : BitVec 32
  rear : BitVec 32

/-- What the streams hold when `address_reservation_table` is called. -/
structure ResvCall where
  popRequest : Option TableRequest
  resvRequest : Option TableRequest

namespace AddrResvTable

def tblIndexMask : BitVec 32 := 15

/-! ## Words and counters -/

/-- A valid word with the index. -/
def entry (index : BitVec 6) : BitVec 7 := 1#1 ++ index

/-- The index of a valid word. -/
def reserved (word : BitVec 7) : Option (BitVec 6) :=
  if word.getLsbD 6 then some (word.extractLsb' 0 6) else none

/-- The cell of the array that a counter selects. -/
def cell (i : BitVec 32) : Fin 16 := ⟨i.toNat % 16, Nat.mod_lt _ (by decide)⟩

theorem val_cell (i : BitVec 32) : (cell i : ℕ) = i.toNat % 16 := rfl

theorem reserved_entry : ∀ index : BitVec 6, reserved (entry index) = some index := by decide

theorem entry_of_valid :
    ∀ word : BitVec 7, word.getLsbD 6 = true → entry (word.extractLsb' 0 6) = word := by decide

theorem reserved_eq_some {word : BitVec 7} {index : BitVec 6} :
    reserved word = some index ↔ word = entry index := by
  constructor
  · intro h
    rw [reserved, Option.ite_none_right_eq_some, Option.some.injEq] at h
    rw [← h.2, entry_of_valid word h.1]
  · rintro rfl
    exact reserved_entry index

theorem reserved_eq_none {word : BitVec 7} : reserved word = none ↔ word.getLsbD 6 = false := by
  rw [reserved]
  cases word.getLsbD 6 <;> simp

theorem reserved_zero : reserved 0 = none := by decide

theorem toNat_and_mask (i : BitVec 32) : (i &&& tblIndexMask).toNat = i.toNat % 16 := by
  rw [BitVec.toNat_and]
  exact Nat.and_two_pow_sub_one_eq_mod i.toNat 4

theorem cell_and_mask (i : BitVec 32) : cell (i &&& tblIndexMask) = cell i := by
  apply Fin.ext
  rw [val_cell, val_cell, toNat_and_mask, Nat.mod_mod]

theorem cell_add (i j : BitVec 32) : cell (i + j) = cell i + cell j := by
  apply Fin.ext
  simp only [val_cell, Fin.val_add, BitVec.toNat_add]
  omega

theorem cell_inj {i j : BitVec 32} (hi : i.toNat < 16) (hj : j.toNat < 16) :
    cell i = cell j ↔ i = j := by
  rw [Fin.ext_iff, val_cell, val_cell, Nat.mod_eq_of_lt hi, Nat.mod_eq_of_lt hj,
    BitVec.toNat_inj]

/-! ## A call -/

/-- `addr_resv_table`, `head` and `rear` before the first call. -/
def init : AddrResvTable := ⟨fun _ ↦ 0, 0, 0⟩

/-- A pop request is served. -/
def servePop (t : AddrResvTable) : AddrResvTable :=
  { t with
    addrResvTable := Function.update t.addrResvTable (cell t.head) 0
    head := (t.head + 1) &&& tblIndexMask }

/-- `is_exist`. -/
def isExist (t : AddrResvTable) (index : BitVec 6) : Bool :=
  (List.finRange 16).any fun i ↦
    (t.addrResvTable i).getLsbD 6 && (t.addrResvTable i).extractLsb' 0 6 == index

/-- A reservation is served. -/
def serveResv (t : AddrResvTable) (req : TableRequest) : AddrResvTable × BitVec 2 :=
  if (t.rear + 1) &&& tblIndexMask = t.head then (t, tableFull)
  else if t.isExist req.index then (t, addrExist)
  else
    ({ t with
        addrResvTable := Function.update t.addrResvTable (cell t.rear) (entry req.index)
        rear := (t.rear + 1) &&& tblIndexMask },
      resvSuccess)

/-- `address_reservation_table`, with what it writes to `resv_result`. -/
def call (t : AddrResvTable) (c : ResvCall) : AddrResvTable × Option (BitVec 2) :=
  let t := if c.popRequest.isSome then t.servePop else t
  match c.resvRequest with
  | none => (t, none)
  | some req => ((t.serveResv req).1, some (t.serveResv req).2)

/-- How many words there are from the head to the rear. -/
def used (t : AddrResvTable) : ℕ := ((t.rear - t.head) &&& tblIndexMask).toNat

/-- The word at a distance from the head. -/
def word (t : AddrResvTable) (k : ℕ) : BitVec 7 :=
  t.addrResvTable (cell (t.head + BitVec.ofNat 32 k))

/-- The words from the head to the rear. -/
def words (t : AddrResvTable) : List (BitVec 7) := (List.range t.used).map t.word

/-! ## The words as a ring -/

/-- The counters stay inside the array. -/
structure Masked (t : AddrResvTable) : Prop where
  head_lt : t.head.toNat < 16
  rear_lt : t.rear.toNat < 16

/-- What the words say. -/
def view (t : AddrResvTable) : ResvTable :=
  ⟨fun i ↦ reserved (t.addrResvTable i), cell t.head, cell t.rear⟩

section View

variable {t : AddrResvTable}

theorem masked_init : Masked init := ⟨by decide, by decide⟩

theorem view_init : view init = .empty := by
  rw [view, init]
  simp only [reserved_zero]
  rfl

theorem Masked.servePop (h : Masked t) : Masked t.servePop := by
  refine ⟨?_, h.rear_lt⟩
  rw [AddrResvTable.servePop, toNat_and_mask]
  omega

theorem Masked.serveResv (h : Masked t) (req : TableRequest) : Masked (t.serveResv req).1 := by
  rw [AddrResvTable.serveResv]
  split_ifs
  · exact h
  · exact h
  · refine ⟨h.head_lt, ?_⟩
    rw [toNat_and_mask]
    omega

theorem view_update (t : AddrResvTable) (i : Fin 16) (word : BitVec 7) :
    (fun j ↦ reserved (Function.update t.addrResvTable i word j))
      = Function.update t.view.table i (reserved word) := by
  funext j
  by_cases hj : j = i
  · rw [hj, Function.update_self, Function.update_self]
  · rw [Function.update_of_ne hj, Function.update_of_ne hj]
    rfl

theorem view_servePop (t : AddrResvTable) : t.servePop.view = t.view.pop := by
  rw [view, servePop, ResvTable.pop, view_update, cell_and_mask, cell_add]
  rfl

theorem isExist_eq (t : AddrResvTable) (index : BitVec 6) : t.isExist index = t.view.has index := by
  rw [isExist, ResvTable.has]
  congr 1
  funext i
  rw [Bool.eq_iff_iff, Bool.and_eq_true, beq_iff_eq, beq_iff_eq]
  change _ ↔ reserved (t.addrResvTable i) = some index
  rw [reserved, Option.ite_none_right_eq_some, Option.some.injEq]

/-- The masked counters meet when the ring is full. -/
theorem Masked.full_iff (h : Masked t) :
    (t.rear + 1) &&& tblIndexMask = t.head ↔ t.view.rear + 1 = t.view.head := by
  have hlt : ((t.rear + 1) &&& tblIndexMask).toNat < 16 := by
    rw [toNat_and_mask]
    omega
  rw [← cell_inj hlt h.head_lt, cell_and_mask, cell_add]
  rfl

theorem Masked.view_serveResv (h : Masked t) (req : TableRequest) :
    ((t.serveResv req).1.view, (t.serveResv req).2) = t.view.resv req.index := by
  rw [AddrResvTable.serveResv, ResvTable.resv]
  by_cases hfull : (t.rear + 1) &&& tblIndexMask = t.head
  · rw [if_pos hfull, if_pos (h.full_iff.mp hfull)]
  rw [if_neg hfull, if_neg (mt h.full_iff.mpr hfull), ← isExist_eq]
  by_cases hexist : t.isExist req.index = true
  · rw [if_pos hexist, if_pos hexist]
  rw [if_neg hexist, if_neg hexist, view, view_update, reserved_entry, cell_and_mask, cell_add]
  rfl

theorem reserved_word (t : AddrResvTable) (k : ℕ) :
    reserved (t.word k) = t.view.table (t.view.head + Fin.ofNat 16 k) := by
  have hcell : cell (BitVec.ofNat 32 k) = Fin.ofNat 16 k := by
    apply Fin.ext
    rw [val_cell, Fin.val_ofNat, BitVec.toNat_ofNat]
    omega
  rw [word, cell_add, hcell]
  rfl

variable {l : List (BitVec 6)}

theorem Masked.used_eq (h : Masked t) (hring : t.view.Ring l) : t.used = l.length := by
  have hlt := hring.length_lt
  have hhead := h.head_lt
  have hrear := h.rear_lt
  have heq := congrArg Fin.val hring.rear_eq
  simp only [view, Fin.val_add, val_cell, Fin.val_ofNat] at heq
  rw [used, toNat_and_mask, BitVec.toNat_sub]
  omega

/-- The entry of the ring at a distance from the head. -/
theorem reserved_word_eq (hring : t.view.Ring l) {k : ℕ} (hk : k < 16) :
    reserved (t.word k) = l[k]? := by
  rw [reserved_word, hring.table_eq, ResvTable.add_sub_self, Fin.val_ofNat, Nat.mod_eq_of_lt hk]

/-- The words from the head to the rear are the entries of the ring. -/
theorem Masked.words_eq (h : Masked t) (hring : t.view.Ring l) : t.words = l.map entry := by
  have hlt := hring.length_lt
  apply List.ext_getElem
  · rw [words, List.length_map, List.length_map, List.length_range, h.used_eq hring]
  · intro k hk hk'
    rw [List.length_map] at hk'
    simp only [words, List.getElem_map, List.getElem_range]
    rw [← reserved_eq_some, reserved_word_eq hring (by omega), List.getElem?_eq_getElem hk']

theorem Masked.not_valid (h : Masked t) (hring : t.view.Ring l) {k : ℕ} (hk : t.used ≤ k)
    (hlt : k < 16) : (t.word k).getLsbD 6 = false := by
  rw [h.used_eq hring] at hk
  rw [← reserved_eq_none, reserved_word_eq hring hlt, List.getElem?_eq_none hk]

theorem serveResv_refused {req : TableRequest} (h : (t.serveResv req).2 ≠ resvSuccess) :
    (t.serveResv req).1 = t := by
  rw [serveResv] at h ⊢
  split_ifs with hfull hexist
  · rfl
  · rfl
  · rw [if_neg hfull, if_neg hexist] at h
    exact absurd rfl h

end View

/-! ## Runs -/

/-- The table beside the indices that have been reserved and not popped, oldest first. -/
structure Tracked where
  table : AddrResvTable
  inFlight : List (BitVec 6)

namespace Tracked

def init : Tracked := ⟨.init, []⟩

/-- What is in flight when the pop request of the call has been served. -/
def popped (s : Tracked) (c : ResvCall) : List (BitVec 6) :=
  if c.popRequest.isSome then s.inFlight.tail else s.inFlight

/-- The index that the call reserves. -/
def granted (s : Tracked) (c : ResvCall) : List (BitVec 6) :=
  if (s.table.call c).2 = some resvSuccess then (c.resvRequest.map (·.index)).toList else []

def step (s : Tracked) (c : ResvCall) : Tracked :=
  ⟨(s.table.call c).1, s.popped c ++ s.granted c⟩

/-- Only what has been reserved is popped. -/
def PopAllowed (s : Tracked) (c : ResvCall) : Prop := c.popRequest.isSome → s.inFlight ≠ []

/-! ## The invariant -/

/-- The ring holds what is in flight, and no index twice. -/
structure Inv (s : Tracked) : Prop where
  masked : s.table.Masked
  ring : s.table.view.Ring s.inFlight
  nodup : s.inFlight.Nodup

variable {s : Tracked} {c : ResvCall} {req : TableRequest}

theorem inv_init : Inv init := ⟨masked_init, view_init ▸ .empty, List.nodup_nil⟩

/-- The table after the pop request of the call. -/
def afterPop (s : Tracked) (c : ResvCall) : AddrResvTable :=
  if c.popRequest.isSome then s.table.servePop else s.table

theorem Inv.afterPop (h : s.Inv) (hc : s.PopAllowed c) :
    Inv ⟨s.afterPop c, s.popped c⟩ := by
  rw [Tracked.afterPop, popped]
  by_cases hpop : c.popRequest.isSome = true
  · rw [if_pos hpop, if_pos hpop]
    obtain ⟨x, l, hl⟩ := List.exists_cons_of_ne_nil (hc hpop)
    have hring := h.ring
    have hnodup := h.nodup
    rw [hl] at hring hnodup ⊢
    exact ⟨h.masked.servePop, view_servePop s.table ▸ hring.pop, hnodup.of_cons⟩
  · rw [if_neg hpop, if_neg hpop]
    exact h

theorem call_eq (s : Tracked) (c : ResvCall) :
    s.table.call c = match c.resvRequest with
      | none => (s.afterPop c, none)
      | some req => (((s.afterPop c).serveResv req).1, some ((s.afterPop c).serveResv req).2) := rfl

/-- A reservation succeeds when there is room and the index is not in flight; it is then the
youngest one in flight. -/
theorem Inv.serveResv (h : s.Inv) (req : TableRequest) :
    ((s.table.serveResv req).2 = resvSuccess ∧ s.inFlight.length < 15 ∧ req.index ∉ s.inFlight
        ∧ Inv ⟨(s.table.serveResv req).1, s.inFlight ++ [req.index]⟩)
      ∨ ((s.table.serveResv req).2 ≠ resvSuccess
        ∧ (s.inFlight.length = 15 ∨ req.index ∈ s.inFlight)) := by
  obtain ⟨hview, hres⟩ := Prod.mk.inj (h.masked.view_serveResv req)
  rcases h.ring.resv req.index with ⟨hok, hnew, hring⟩ | ⟨hno, -, hwhy⟩
  · have hlen := hring.length_lt
    rw [List.length_append, List.length_singleton] at hlen
    refine .inl ⟨hres ▸ hok, by omega, hnew, h.masked.serveResv req, hview ▸ hring, ?_⟩
    exact h.nodup.append (List.nodup_singleton _) (List.disjoint_singleton.mpr hnew)
  · exact .inr ⟨hres ▸ hno, hwhy⟩

theorem step_none (hc : c.resvRequest = none) : s.step c = ⟨s.afterPop c, s.popped c⟩ := by
  have hcall : s.table.call c = (s.afterPop c, none) := by rw [call_eq, hc]
  rw [step, granted, hcall, if_neg nofun, List.append_nil]

theorem Inv.step (h : s.Inv) (hc : s.PopAllowed c) : (s.step c).Inv := by
  have hpop := h.afterPop hc
  cases hreq : c.resvRequest with
  | none => rwa [step_none hreq]
  | some req =>
    have hcall := call_eq s c
    rw [hreq] at hcall
    simp only at hcall
    rw [Tracked.step, granted, hcall, hreq]
    rcases hpop.serveResv req with ⟨hok, -, -, hinv⟩ | ⟨hno, -⟩
    · rw [if_pos (congrArg some hok)]
      exact hinv
    · rw [if_neg (mt Option.some.inj hno), List.append_nil, serveResv_refused hno]
      exact hpop

/-- **The reservation ring** holds what is in flight, over any calls that pop only what has been
reserved: from the head to the rear the words are the indices in flight, oldest first, and no other
word is valid. A reservation succeeds exactly if fewer than fifteen indices are in flight and it is
for none of them, and one that is refused changes nothing. -/
theorem reservation_ring (cs : List ResvCall)
    (hpops : Machine.Guarded Tracked.step PopAllowed .init cs) :
    let s := Machine.run Tracked.step .init cs
    s.table.words = s.inFlight.map entry
      ∧ (∀ k, s.table.used ≤ k → k < 16 → (s.table.word k).getLsbD 6 = false)
      ∧ s.inFlight.Nodup ∧ s.inFlight.length ≤ 15
      ∧ ∀ (c : ResvCall) (req : TableRequest), s.PopAllowed c → c.resvRequest = some req →
        ((s.table.call c).2 = some resvSuccess
            ↔ (s.popped c).length < 15 ∧ req.index ∉ s.popped c)
          ∧ ((s.table.call c).2 = some tableFull ∨ (s.table.call c).2 = some addrExist →
            (s.table.call c).1 = (s.table.call { c with resvRequest := none }).1) := by
  have h : (Machine.run Tracked.step .init cs).Inv :=
    hpops.invariant (fun _ _ h hc ↦ h.step hc) inv_init
  have hlen := h.ring.length_lt
  refine ⟨h.masked.words_eq h.ring, fun k hk hlt ↦ h.masked.not_valid h.ring hk hlt, h.nodup,
    by omega, fun c req hc hreq ↦ ?_⟩
  have hpop := h.afterPop hc
  have hcall := call_eq (Machine.run Tracked.step .init cs) c
  rw [hreq] at hcall
  simp only at hcall
  rw [hcall]
  rcases hpop.serveResv req with ⟨hok, hroom, hnew, -⟩ | ⟨hno, hwhy⟩
  · refine ⟨⟨fun _ ↦ ⟨hroom, hnew⟩, fun _ ↦ congrArg some hok⟩, fun hrefused ↦ ?_⟩
    rw [hok] at hrefused
    rcases hrefused with hfull | hexist
    · exact absurd (Option.some.inj hfull) (by decide)
    · exact absurd (Option.some.inj hexist) (by decide)
  · refine ⟨⟨fun hok ↦ absurd (Option.some.inj hok) hno, fun hroom ↦ ?_⟩, fun _ ↦ ?_⟩
    · rcases hwhy with hfull | hmem
      · exact absurd hfull hroom.1.ne
      · exact absurd hmem hroom.2
    · exact serveResv_refused hno

/-- Three calls: a reservation, one of another index while the first one is released, and one of an
index that is in flight. -/
theorem reservation_ring_three :
    let s := Machine.run Tracked.step .init
      [⟨none, some ⟨.resv, 5⟩⟩, ⟨some ⟨.pop, 0⟩, some ⟨.resv, 7⟩⟩, ⟨none, some ⟨.resv, 7⟩⟩]
    s.table.words = s.inFlight.map entry
      ∧ (∀ k, s.table.used ≤ k → k < 16 → (s.table.word k).getLsbD 6 = false)
      ∧ s.inFlight.Nodup ∧ s.inFlight.length ≤ 15
      ∧ ∀ (c : ResvCall) (req : TableRequest), s.PopAllowed c → c.resvRequest = some req →
        ((s.table.call c).2 = some resvSuccess
            ↔ (s.popped c).length < 15 ∧ req.index ∉ s.popped c)
          ∧ ((s.table.call c).2 = some tableFull ∨ (s.table.call c).2 = some addrExist →
            (s.table.call c).1 = (s.table.call { c with resvRequest := none }).1) :=
  reservation_ring _ ⟨nofun, fun _ ↦ by decide, nofun, trivial⟩

end Tracked

end AddrResvTable

end FpgaOs.Mapping
