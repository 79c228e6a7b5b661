import FpgaOs.Lib.Accesses
import FpgaOs.Memcached.Stages
import Mathlib.Data.List.Flatten

/-!
# What the stages should do

Served one after another, each request finds the table that the ones before it have left. A `Job`
is a request with this table, and all that the stages are to send for it follows from it: the
command for the memory, the words that come back, the status of the bins, the answer and the words
that are written.

In the pipeline a request reads its bucket before the requests in front of it have written theirs.
It reads the right words all the same if they are requests that do not change its bucket
(`readWords_after`).
-/

namespace FpgaOs.Memcached

open BitField

/-! ## Jobs -/

/-- A request, and the table that it should find. -/
structure Job where
  req : TableRequest
  table : HashTable

namespace Job

variable (j : Job)

def md : InternalMd := j.req.toCc.sentMd

/-- The key, with the bits of a short key that do not belong to it reset. -/
def words : List KeyWord := keyWords j.req.words

def memCtrl : MemCtrlWord := ⟨tableAddress j.req.metadata, memCount j.req.keyLength⟩

/-- The words of the bucket. -/
def data : List Word :=
  j.table.readWords (headAddress j.req.bucket) (memCount j.req.keyLength).toNat

def status : Bin → BinStatus := j.table.binStatus j.req.toSetRequest

def answer : DecideResult × Option BuddyRequest := (j.table.apply j.req).2

end Job

/-- The requests with their tables. -/
def jobs : HashTable → List TableRequest → List Job
  | _, [] => []
  | h, r :: rs => ⟨r, h⟩ :: jobs (h.apply r).1 rs

/-- The table after the first `n` requests. -/
def after (h : HashTable) (rs : List TableRequest) (n : ℕ) : HashTable :=
  (rs.take n).foldl (fun h r ↦ (h.apply r).1) h

section Jobs

variable {h : HashTable} {rs : List TableRequest} {n : ℕ} {j : Job}

theorem map_req_jobs (h : HashTable) (rs : List TableRequest) : (jobs h rs).map Job.req = rs := by
  induction rs generalizing h with
  | nil => rfl
  | cons r rs ih => rw [jobs, List.map_cons, ih]

theorem answers_eq_map_jobs (h : HashTable) (rs : List TableRequest) :
    answers HashTable.apply h rs = (jobs h rs).map Job.answer := by
  induction rs generalizing h with
  | nil => rfl
  | cons r rs ih => rw [answers, jobs, List.map_cons, ih]; rfl

theorem table_eq_after (hj : (jobs h rs)[n]? = some j) :
    j.table = after h rs n ∧ after h rs (n + 1) = (j.table.apply j.req).1 := by
  induction rs generalizing h n with
  | nil => exact absurd hj nofun
  | cons r rs ih =>
    cases n with
    | zero =>
      obtain rfl := Option.some.inj hj
      exact ⟨rfl, rfl⟩
    | succ n => exact ih hj

theorem req_of_jobs (hj : (jobs h rs)[n]? = some j) : rs[n]? = some j.req := by
  rw [← map_req_jobs h rs, List.getElem?_map, hj]
  rfl

theorem mem_of_jobs (hj : (jobs h rs)[n]? = some j) : j.req ∈ rs :=
  List.mem_of_getElem? (req_of_jobs hj)

end Jobs

/-! ## The words of a bucket -/

section Words

variable {h : HashTable} {r : SetRequest} {i : Bin} {a : BitVec 32}

theorem toNat_tableAddress (metadata : BitVec 32) :
    (tableAddress metadata).toNat = 8 * (metadata.toNat % 128) := by
  have hlt := Nat.mod_lt metadata.toNat (show 0 < 128 by decide)
  rw [tableAddress, BitVec.toNat_shiftLeft, BitVec.toNat_setWidth, BitVec.toNat_setWidth,
    Nat.shiftLeft_eq]
  change metadata.toNat % 128 % 2 ^ 32 * 2 ^ 3 % 2 ^ 32 = _
  omega

theorem toNat_tableAddress_eq (r : SetRequest) :
    (tableAddress r.metadata).toNat = headAddress r.bucket := by
  rw [toNat_tableAddress, headAddress, SetRequest.bucket]
  simp

theorem readWords_eq_map (h : HashTable) (addr count : ℕ) :
    h.readWords addr count = (List.range' addr count).map h.mem := by
  rw [HashTable.readWords, List.range'_eq_map_range, List.map_map]
  rfl

theorem readWords_succ (h : HashTable) (addr count : ℕ) :
    h.readWords addr (count + 1) = h.mem addr :: h.readWords (addr + 1) count := by
  rw [readWords_eq_map, readWords_eq_map, List.range'_succ, List.map_cons]

/-- The head comes first, then what the key is compared with. -/
theorem Job.data_eq (j : Job) :
    j.data = j.table.mem (headAddress j.req.bucket) :: j.table.saved j.req.toSetRequest := by
  rw [Job.data, ← j.req.length_key, readWords_succ]
  rfl

theorem mem_writeWords_eq_store (h : HashTable) (addr : ℕ) (data : List Word) :
    (h.writeWords addr data).mem = Access.store h.mem (List.range' addr data.length) data := by
  induction data generalizing h addr with
  | nil =>
    funext x
    rw [HashTable.mem_writeWords, List.getD_nil, ite_self]
    rfl
  | cons d data ih =>
    have hstep : Access.store h.mem (List.range' addr (data.length + 1)) (d :: data)
        = (({ h with mem := Function.update h.mem addr d } : HashTable).writeWords (addr + 1)
          data).mem := by
      rw [ih, List.range'_succ]
      rfl
    rw [List.length_cons, hstep]
    funext x
    rw [HashTable.mem_writeWords, HashTable.mem_writeWords]
    dsimp only
    rw [Function.update_apply]
    rcases lt_trichotomy x addr with hlt | rfl | hlt
    · rw [if_neg (by omega), if_neg (by omega), if_neg (by omega)]
    · rw [if_pos le_rfl, if_neg (by omega), if_pos rfl, Nat.sub_self, List.getD_cons_zero]
    · obtain ⟨d', rfl⟩ := Nat.exists_eq_add_of_lt hlt
      rw [if_pos (by omega), if_pos (by omega), if_neg (by omega),
        show addr + d' + 1 - addr = d' + 1 by omega,
        show addr + d' + 1 - (addr + 1) = d' by omega, List.getD_cons_succ]

/-- A request changes its own bucket only. -/
theorem mem_apply_of_ne {r : TableRequest} (hshort : r.Short) {addr : ℕ}
    (haddr : addr / 8 ≠ r.bucket) : (h.apply r).1.mem addr = h.mem addr := by
  obtain ⟨r, op⟩ := r
  have hkeep : ∀ data : List Word, data.length ≤ 8 →
      (h.writeWords (headAddress r.bucket) data).mem addr = h.mem addr := by
    intro data hlen
    rw [HashTable.mem_writeWords]
    split
    · apply List.getD_eq_default
      simp only [headAddress] at *
      omega
    · rfl
  have hwrite : ∀ (i : Bin) (a : BitVec 32), (h.writeBin r i a).mem addr = h.mem addr := by
    intro i a
    refine hkeep _ ?_
    rw [List.length_cons, List.length_zipWith, length_saved]
    exact Nat.succ_le_succ ((Nat.min_le_left _ _).trans hshort.length_key)
  cases op with
  | get => rfl
  | set =>
    rw [HashTable.apply]
    dsimp only
    obtain ⟨-, hset⟩ | ⟨_, j, -, -, -, a, -, hset⟩ | ⟨i, -, -, -, hset⟩ := h.set_cases r
    · rw [hset]
    · rw [hset]
      exact hwrite j a
    · rw [hset]
      exact hwrite i _
  | delete =>
    rw [HashTable.apply]
    dsimp only
    rw [HashTable.delete]
    split
    · rfl
    · exact hkeep _ (Nat.succ_le_succ (Nat.zero_le _))

theorem readWords_apply_of_ne {r : TableRequest} (hshort : r.Short) {b : Fin 128}
    (hne : r.bucket ≠ b) {count : ℕ} (hcount : count ≤ 8) :
    (h.apply r).1.readWords (headAddress b) count = h.readWords (headAddress b) count := by
  refine List.map_congr_left fun k hk ↦ mem_apply_of_ne hshort fun heq ↦ hne (Fin.ext ?_)
  have hlt := List.mem_range.mp hk
  rw [← heq, headAddress]
  omega

end Words

/-! ## Keys -/

/-- A key of at most 16 bytes is one word. -/
theorem Job.words_of_key {j : Job} {w : KeyWord} {ws : List KeyWord}
    (hkey : j.req.toCc.words = w :: ws) :
    j.words = { w with data := resetHigh j.req.keyLength w.data } :: ws := by
  have hcount : ∀ k : BitVec 8, k ≤ 16 → (memCount k).toNat ≤ 2 := by decide +kernel
  have hlen := j.req.length_key
  have hkey' : keyWords j.req.key = w :: ws := hkey
  rw [Job.words, SetRequest.words, resetHigh]
  split
  · next hle =>
    obtain ⟨x, hx⟩ : ∃ x, j.req.key = [x] := by
      have hle' := hcount _ hle
      have hpos := List.length_pos_iff.mpr j.req.key_ne_nil
      exact List.length_eq_one_iff.mp (by omega)
    rw [hx] at hkey' ⊢
    obtain ⟨rfl, rfl⟩ := List.cons.inj hkey'
    rfl
  · exact hkey'

theorem Job.data_ne_nil (j : Job) : j.data ≠ [] := by
  rw [j.data_eq]
  exact List.cons_ne_nil _ _

theorem Job.map_data_words (j : Job) : j.words.map KeyWord.data = j.req.words :=
  map_data_keyWords _

theorem Job.marked_words (j : Job) : Marked (fun w : KeyWord ↦ w.eop = true) j.words := by
  refine marked_keyWords fun hnil ↦ j.req.key_ne_nil (List.length_eq_zero_iff.mp ?_)
  rw [← j.req.length_words, hnil]
  rfl

/-! ## Requests that spare each other -/

/-- The ring holds back more than it has to. -/
theorem TableRequest.spares_of_not_blocks {r r' : TableRequest}
    (h : ¬r.toCc.element.Blocks r'.toCc.element) : r.Spares r' := by
  by_contra hcon
  rw [Spares, not_or, not_not] at hcon
  obtain ⟨hop, hbucket⟩ := hcon
  refine h (.inl ⟨?_, ?_⟩)
  · have hseven : r.metadata.setWidth 7 = r'.metadata.setWidth 7 :=
      BitVec.toFin_inj.mp hbucket
    have hsix := congrArg (BitVec.setWidth 6) hseven
    rw [BitVec.setWidth_setWidth_of_le _ (by decide),
      BitVec.setWidth_setWidth_of_le _ (by decide)] at hsix
    exact hsix.symm
  · obtain ⟨r, op⟩ := r
    cases op with
    | get => exact absurd rfl hop
    | set => exact .inl rfl
    | delete => exact .inr rfl

/-- **What a request reads early.** The table may still lack the requests in front of it, as long
as they spare it. -/
theorem readWords_after {h : HashTable} {rs : List TableRequest} (hshort : ∀ r ∈ rs, r.Short)
    {w d : ℕ} {j : Job} (hj : (jobs h rs)[w + d]? = some j)
    (hspare : ∀ k r, w ≤ k → k < w + d → rs[k]? = some r → r.Spares j.req) {count : ℕ}
    (hcount : count ≤ 8) :
    (after h rs w).readWords (headAddress j.req.bucket) count
      = j.table.readWords (headAddress j.req.bucket) count := by
  induction d generalizing w with
  | zero => rw [(table_eq_after hj).1]; rfl
  | succ d ih =>
    have hlt : w < (jobs h rs).length := by
      have hlen := (List.getElem?_eq_some_iff.mp hj).1
      omega
    have hk : (jobs h rs)[w]? = some (jobs h rs)[w] := List.getElem?_eq_getElem hlt
    obtain ⟨htable, hnext⟩ := table_eq_after hk
    have hrest := ih (w := w + 1) (by rw [← hj]; congr 1; omega)
      fun k r hle hlt hr ↦ hspare k r (by omega) (by omega) hr
    rw [← hrest, hnext, ← htable]
    obtain hget | hne := hspare w _ le_rfl (by omega) (req_of_jobs hk)
    · rw [HashTable.apply, hget]
    · exact (readWords_apply_of_ne (hshort _ (mem_of_jobs hk)) hne hcount).symm

end FpgaOs.Memcached
