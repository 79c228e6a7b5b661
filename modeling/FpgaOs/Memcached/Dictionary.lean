import FpgaOs.Memcached.FrontEnd
import FpgaOs.Memcached.Served
import Mathlib.Data.Set.Card

/-!
# The dictionary

A client means bytes by a key. The table does not see them as such: it has the bucket, which is a
part of their hash, their number and words of 16 bytes, the last of which is filled up with
something. But keys that differ in their bytes differ in the table, too (`tableKey_injOn`), so the
map of the table is one from bytes to values. `Dictionary` is this map: a new key finds room in it
unless four others have the same bucket.
-/

namespace FpgaOs.Memcached

open BitField

/-! ## Keys -/

/-- The bucket of a key. -/
def bucketOf (key : List (BitVec 8)) : Fin 128 :=
  ((Lookup3.hash key hashFunctionSeed).setWidth 7).toFin

/-- The key as the table has it. -/
def tableKey (key : List (BitVec 8)) : Key := ⟨bucketOf key, .ofNat 8 key.length, lookupWords key⟩

theorem IsKey.eq_take {key : List (BitVec 8)} (h : IsKey key) :
    key = ((lookupWords key).flatMap (bytes 16)).take key.length := by
  rw [lookupWords, List.flatMap_map, List.flatMap_def]
  exact (spells_keyPieces 0 h.ne_nil).fills.eq_take_flatten

theorem tableKey_injOn : Set.InjOn tableKey {key | IsKey key} := by
  intro key hkey key' hkey' heq
  obtain ⟨-, hlen, hwords⟩ := (Key.mk.injEq ..).mp heq
  have hlength : key.length = key'.length := by
    have hmod := congrArg BitVec.toNat hlen
    rwa [BitVec.toNat_ofNat, BitVec.toNat_ofNat, Nat.mod_eq_of_lt hkey.length_lt,
      Nat.mod_eq_of_lt hkey'.length_lt] at hmod
  rw [hkey.eq_take, hkey'.eq_take, hwords, hlength]

/-! ## The map -/

/-- A request as a client means it. -/
structure ClientRequest where
  op : Operation
  key : List (BitVec 8)
  valueLength : BitVec 16

/-- The keys with their values, and the number of addresses that have been handed out. -/
structure Dictionary where
  map : List (BitVec 8) → Option Value
  nr : ℕ

namespace Dictionary

/-- There are four keys with this bucket. -/
def Full (d : Dictionary) (b : Fin 128) : Prop :=
  4 ≤ {key | bucketOf key = b ∧ (d.map key).isSome}.ncard

open Classical in
/-- What a request does, what is answered, and what the allocator is asked for. -/
noncomputable def apply (d : Dictionary) (q : ClientRequest) :
    Dictionary × DecideResult × Option BuddyRequest :=
  match q.op, d.map q.key with
  | .get, none => (d, { operation := Operation.get.code, status := 1 }, none)
  | .get, some (a, l) => (d, ⟨a, l, Operation.get.code, 0⟩, none)
  | .set, some (a, _) =>
    (⟨Function.update d.map q.key (some (a, q.valueLength)), d.nr⟩,
      { address := a, operation := Operation.set.code, status := 0 }, none)
  | .set, none =>
    if d.Full (bucketOf q.key) then (d, { operation := Operation.set.code, status := 1 }, none)
    else
      (⟨Function.update d.map q.key (some (dummyAllocator d.nr, q.valueLength)), d.nr + 1⟩,
        { address := dummyAllocator d.nr, operation := Operation.set.code, status := 0 },
        some (.alloc (orderOf q.valueLength)))
  | .delete, none => (d, { operation := Operation.delete.code, status := 1 }, none)
  | .delete, some (a, l) =>
    (⟨Function.update d.map q.key none, d.nr⟩,
      { operation := Operation.delete.code, status := 0 },
      some (.free ((a.setWidth 31).setWidth 32) (orderOf l)))

/-- No keys. -/
def empty : Dictionary := ⟨fun _ ↦ none, 0⟩

/-- What is answered along a sequence of requests. -/
noncomputable def answers : Dictionary → List ClientRequest →
    List (DecideResult × Option BuddyRequest)
  | _, [] => []
  | d, q :: qs => (d.apply q).2 :: answers (d.apply q).1 qs

/-- The map after a sequence of requests. -/
noncomputable def after (d : Dictionary) (qs : List ClientRequest) : Dictionary :=
  qs.foldl (fun d q ↦ (d.apply q).1) d

end Dictionary

/-! ## The map of the table -/

/-- The map of the table has the keys of the dictionary, with their values, and no others. -/
structure Store.Shows (s : Store) (d : Dictionary) : Prop where
  map : ∀ key, IsKey key → s.map (tableKey key) = d.map key
  only : ∀ k, (s.map k).isSome → ∃ key, IsKey key ∧ tableKey key = k
  isKey : ∀ key, (d.map key).isSome → IsKey key
  nr : s.nr = d.nr

namespace Store

variable {s : Store} {d : Dictionary}

theorem shows_empty : Store.empty.Shows .empty :=
  ⟨fun _ _ ↦ rfl, fun _ h ↦ absurd h Bool.false_ne_true, fun _ h ↦ absurd h Bool.false_ne_true, rfl⟩

theorem Shows.full_iff (h : s.Shows d) (b : Fin 128) : s.Full b ↔ d.Full b := by
  have himage : {k | k.bucket = b ∧ (s.map k).isSome}
      = tableKey '' {key | bucketOf key = b ∧ (d.map key).isSome} := by
    apply Set.ext
    intro k
    constructor
    · rintro ⟨hb, hk⟩
      obtain ⟨key, hkey, rfl⟩ := h.only k hk
      rw [h.map key hkey] at hk
      exact ⟨key, ⟨hb, hk⟩, rfl⟩
    · rintro ⟨key, ⟨hb, hk⟩, rfl⟩
      refine ⟨hb, ?_⟩
      rwa [h.map key (h.isKey key hk)]
  have hsub : {key | bucketOf key = b ∧ (d.map key).isSome} ⊆ {key | IsKey key} :=
    fun key hk ↦ h.isKey key hk.2
  rw [Store.Full, Dictionary.Full, himage, (tableKey_injOn.mono hsub).ncard_image]

theorem Shows.update (h : s.Shows d) {key : List (BitVec 8)} (hkey : IsKey key) (v : Option Value)
    (n : ℕ) : Store.Shows ⟨Function.update s.map (tableKey key) v, n⟩
      ⟨Function.update d.map key v, n⟩ where
  map key' hkey' := by
    dsimp only
    by_cases heq : key' = key
    · rw [heq, Function.update_self, Function.update_self]
    · rw [Function.update_of_ne (tableKey_injOn.ne hkey' hkey heq), Function.update_of_ne heq]
      exact h.map key' hkey'
  only k hk := by
    dsimp only at hk
    by_cases heq : k = tableKey key
    · exact ⟨key, hkey, heq.symm⟩
    · rw [Function.update_of_ne heq] at hk
      exact h.only k hk
  isKey key' hk := by
    dsimp only at hk
    by_cases heq : key' = key
    · rwa [heq]
    · rw [Function.update_of_ne heq] at hk
      exact h.isKey key' hk
  nr := rfl

/-- **A request.** -/
theorem Shows.apply (h : s.Shows d) {q : ClientRequest} {r : TableRequest} (hkey : IsKey q.key)
    (hop : r.op = q.op) (htable : r.toKey = tableKey q.key) (hlen : r.valueLength = q.valueLength) :
    (s.apply r).1.Shows (d.apply q).1 ∧ (s.apply r).2 = (d.apply q).2 := by
  have hbucket : r.bucket = bucketOf q.key := congrArg Key.bucket htable
  rw [Store.apply, Dictionary.apply, hop, htable, h.map _ hkey, hlen, hbucket, h.nr]
  cases q.op with
  | get =>
    cases d.map q.key with
    | none => exact ⟨h, rfl⟩
    | some v => exact ⟨h, rfl⟩
  | set =>
    cases d.map q.key with
    | none =>
      dsimp only
      by_cases hfull : d.Full (bucketOf q.key)
      · rw [if_pos ((h.full_iff _).mpr hfull), if_pos hfull]
        exact ⟨h, rfl⟩
      · rw [if_neg (mt (h.full_iff _).mp hfull), if_neg hfull]
        exact ⟨h.update hkey _ _, rfl⟩
    | some v => exact ⟨h.update hkey _ _, rfl⟩
  | delete =>
    cases d.map q.key with
    | none => exact ⟨h, rfl⟩
    | some v => exact ⟨h.update hkey _ _, rfl⟩

end Store

/-! ## Packets -/

/-- A packet with a request to the table. -/
structure ClientPacket extends RequestPacket where
  op : Operation
  code : op.code = first.operation

namespace ClientPacket

/-- The request that a client means by the packet. -/
def request (p : ClientPacket) : ClientRequest := ⟨p.op, p.key, p.md.valueLength⟩

/-- A request does not change the bucket of another one. -/
def Spares (p p' : ClientPacket) : Prop := p.op = .get ∨ bucketOf p.key ≠ bucketOf p'.key

instance (p p' : ClientPacket) : Decidable (p.Spares p') := inferInstanceAs (Decidable (_ ∨ _))

end ClientPacket

theorem Operation.code_injective : Function.Injective code := by
  intro op op'
  cases op <;> cases op' <;> decide

section Carries

open FrontEnd

variable {p p' : ClientPacket} {r r' : TableRequest}

theorem FrontEnd.Carries.op_eq (h : FrontEnd.Carries p.toRequestPacket r) : r.op = p.op :=
  Operation.code_injective (h.op.trans p.code.symm)

theorem FrontEnd.Carries.bucket_eq (h : FrontEnd.Carries p.toRequestPacket r) :
    r.bucket = bucketOf p.key := by
  rw [SetRequest.bucket, h.metadata]
  rfl

theorem FrontEnd.Carries.toKey_eq (h : FrontEnd.Carries p.toRequestPacket r) :
    r.toKey = tableKey p.key := by
  rw [SetRequest.toKey, h.bucket_eq, h.keyLength, h.words, p.keyLength_eq]
  rfl

theorem FrontEnd.Carries.short (h : FrontEnd.Carries p.toRequestPacket r)
    (hshort : p.key.length ≤ 112) : r.Short := by
  rwa [SetRequest.Short, h.keyLength, ← p.length_key]

theorem FrontEnd.Carries.spares (h : FrontEnd.Carries p.toRequestPacket r)
    (h' : FrontEnd.Carries p'.toRequestPacket r') (hspares : p.Spares p') : r.Spares r' := by
  rwa [TableRequest.Spares, h.op_eq, h.bucket_eq, h'.bucket_eq]

variable {s : Store} {d : Dictionary} {ps : List ClientPacket} {rs : List TableRequest}

/-- **A sequence of requests.** The map of the table answers what the dictionary answers, and goes
on being the dictionary. -/
theorem Store.Shows.answers_eq (h : s.Shows d)
    (hcarries : List.Forall₂ (fun p r ↦ FrontEnd.Carries p.toRequestPacket r) ps rs) :
    answers Store.apply s rs = d.answers (ps.map ClientPacket.request)
      ∧ (s.after rs).Shows (d.after (ps.map ClientPacket.request)) := by
  induction hcarries generalizing s d with
  | nil => exact ⟨rfl, h⟩
  | @cons p r ps rs hp _ ih =>
    obtain ⟨hshows, hanswer⟩ :=
      h.apply (q := p.request) p.isKey hp.op_eq hp.toKey_eq hp.valueLength
    obtain ⟨hanswers, hafter⟩ := ih hshows
    refine ⟨?_, hafter⟩
    rw [answers, hanswer, hanswers]
    rfl

end Carries

end FpgaOs.Memcached
