import FpgaOs.Lib.Inputs
import FpgaOs.RdmWorkload.Stream
import Mathlib.Algebra.BigOperators.Group.List.Basic
import Mathlib.Algebra.GroupWithZero.Nat
import Mathlib.Data.List.Nodup

/-!
# Cutting requests

What the two passes of `getWorkload` agree on. A request of `n` pages is cut into as many requests
of `s` pages as fit, and one for the rest; the first pass counts them by rounding up, the second one
stops when `n` pages are covered.

Both passes work on the same lines: those after the ignored ones, less the first of them. So a line
is cut as it should be exactly if it is not this one, or asks for no pages.
-/

namespace FpgaOs.RdmWorkload

open Inputs Loop

/-! ## What is asked for -/

/-- The requests ask in one mode for the given number of pages from an address on, one after
another, and for at most `s` pages each. -/
def Covers (s : ℕ) (mode : Char) : ℕ → ℕ → List WorkloadHeader → Prop
  | _, pages, [] => pages = 0
  | address, pages, h :: hs =>
    ∃ p, 0 < p ∧ p ≤ s ∧ p ≤ pages ∧ h.mode = mode ∧ h.offset.toNat = address
      ∧ h.size.toNat = p * defaultPageSize
      ∧ Covers s mode (address + p * defaultPageSize) (pages - p) hs

/-- The four numbers of a line. -/
def request (line : List Char) : Vars := (sscanf line {}).1

/-- The mode that the sign of the offset stands for. -/
def Vars.mode (v : Vars) : Char := if 0 ≤ v.requestOffset.toInt then 'w' else 'r'

/-- The absolute value of the offset. -/
def Vars.address (v : Vars) : ℕ := v.requestOffset.toInt.natAbs

/-- The number of pages. -/
def Vars.pages (v : Vars) : ℕ := v.requestSize.toNat

/-- The number of requests that it is cut into. -/
def Vars.pieces (v : Vars) (s : ℕ) : ℕ := (v.pages + s - 1) / s

/-- Nothing overflows in the request: not the sum in `ROUND_UP`, not its last byte as a
`long long int`, and not the `size` of an entry. -/
structure Vars.Fits (v : Vars) (s : ℕ) : Prop where
  roundUp_lt : v.pages + s - 1 < 2 ^ 64
  access_lt : v.address + v.pages * defaultPageSize < 2 ^ 63
  size_lt : min s v.pages * defaultPageSize < 2 ^ 32

instance (v : Vars) (s : ℕ) : Decidable (v.Fits s) :=
  decidable_of_iff ((v.pages + s - 1 < 2 ^ 64 ∧ v.address + v.pages * defaultPageSize < 2 ^ 63)
    ∧ min s v.pages * defaultPageSize < 2 ^ 32)
    ⟨fun h ↦ ⟨h.1.1, h.1.2, h.2⟩, fun h ↦ ⟨⟨h.roundUp_lt, h.access_lt⟩, h.size_lt⟩⟩

/-- The entries that have been written for a line, in order. -/
def Workload.produced (w : Workload) (lineNo : ℕ) : List WorkloadHeader :=
  (w.entryLines.zipIdx.filter (·.1 = lineNo)).map fun e ↦ w.headerArray e.2

/-- The lines that are not ignored and not too many. -/
def Options.Requested (o : Options) (lineNo : ℕ) : Prop :=
  o.ignoreRequest.toNat ≤ lineNo ∧ lineNo < o.ignoreRequest.toNat + o.maxRequest.toNat

/-- Each requested line has been cut into entries that ask for exactly what it asks for. -/
def Workload.Splits (w : Workload) (o : Options) (text : List Char) : Prop :=
  ∀ k line, (lines text)[k]? = some line → o.Requested k →
    Covers o.separateSize.toNat (request line).mode (request line).address (request line).pages
      (w.produced k)

/-- The lines that the two passes look at, with their numbers. -/
def Options.processed (o : Options) (text : List Char) : List (List Char × ℕ) :=
  ((lines text).zipIdx.drop (o.ignoreRequest.toNat + 1)).take o.maxRequest.toNat

/-- The number of requests that a line is cut into. -/
def Options.pieces (o : Options) (line : List Char × ℕ) : ℕ :=
  (request line.1).pieces o.separateSize.toNat

/-- All lines parse, and nothing overflows: neither a request nor the number of lines or of the
requests that are made of them. -/
structure Options.Fits (o : Options) (text : List Char) : Prop where
  parses : ∀ line ∈ lines text, (sscanf line {}).2 = 4
  fits : ∀ line ∈ lines text, (request line).Fits o.separateSize.toNat
  lines_lt : (lines text).length < 2 ^ 31
  pieces_lt : ((o.processed text).map o.pieces).sum < 2 ^ 31

/-! ## A request -/

section Request

variable {v : Vars} {s : BitVec 64}

/-- The `c`-th entry for a request. -/
def Vars.piece (v : Vars) (s : BitVec 64) (c : ℕ) : WorkloadHeader where
  mode := v.mode
  offset := BitVec.ofNat 64 v.address
    + BitVec.ofNat 64 c * s * BitVec.ofNat 64 defaultPageSize
  size := (if BitVec.ofNat 64 (c + 1) * s < v.requestSize then s
    else v.requestSize - BitVec.ofNat 64 c * s).setWidth 32 * BitVec.ofNat 32 defaultPageSize

theorem sscanf_eq {line : List Char} (h : (sscanf line {}).2 = 4) (v : Vars) :
    (sscanf line v).1 = request line := by
  rw [request]
  rw [sscanf] at h ⊢
  rw [sscanf]
  -- the first number that is missing would be the number of those found
  cases h₁ : scanNumber line with
  | none =>
    rw [h₁] at h
    exact absurd (show 0 = 4 from h) (by decide)
  | some r₁ =>
    rw [h₁] at h
    dsimp only at h ⊢
    cases h₂ : scanNumber r₁.2.2 with
    | none =>
      rw [h₂] at h
      exact absurd (show 1 = 4 from h) (by decide)
    | some r₂ =>
      rw [h₂] at h
      dsimp only at h ⊢
      cases h₃ : scanNumber r₂.2.2 with
      | none =>
        rw [h₃] at h
        exact absurd (show 2 = 4 from h) (by decide)
      | some r₃ =>
        rw [h₃] at h
        dsimp only at h ⊢
        cases h₄ : scanNumber r₃.2.2 with
        | none =>
          rw [h₄] at h
          exact absurd (show 3 = 4 from h) (by decide)
        | some r₄ => rfl

theorem access_eq (h : v.address < 2 ^ 63) :
    v.access = some (v.mode, BitVec.ofNat 64 v.address) := by
  rw [Vars.address] at h
  rw [Vars.access, Vars.mode, Vars.address, ← BitVec.ofInt_natCast]
  split
  · next hpos => rw [Int.natAbs_of_nonneg hpos, BitVec.ofInt_toInt]
  · next hneg =>
    rw [Int.ofNat_natAbs_of_nonpos (by omega), longLong, if_pos ⟨by omega, by omega⟩]
    rfl

theorem mul_lt_pages_iff (hs : 0 < s.toNat) (c : ℕ) :
    c * s.toNat < v.pages ↔ c < v.pieces s.toNat := by
  rw [Vars.pieces, Nat.lt_div_iff_mul_lt hs]
  omega

theorem ne_zero_of_toNat_pos (hs : 0 < s.toNat) : s ≠ 0 := by
  rintro rfl
  exact absurd hs (Nat.lt_irrefl _)

theorem toNat_ofNat_mul (hs : 0 < s.toNat) {c : ℕ} (h : c * s.toNat < 2 ^ 64) :
    (BitVec.ofNat 64 c * s).toNat = c * s.toNat := by
  have hc : c < 2 ^ 64 := Nat.lt_of_le_of_lt (Nat.le_mul_of_pos_right c hs) h
  rw [BitVec.toNat_mul, BitVec.toNat_ofNat, Nat.mod_eq_of_lt hc, Nat.mod_eq_of_lt h]

theorem Vars.Fits.address_lt {s : ℕ} (h : v.Fits s) : v.address < 2 ^ 63 :=
  Nat.lt_of_le_of_lt (Nat.le_add_right _ _) h.access_lt

end Request

/-! ## The filling pass -/

/-- What has been written so far: entries with their lines. -/
structure Written (f : Filling) (hs : List (ℕ × WorkloadHeader)) : Prop where
  entryLines : f.entryLines = hs.map Prod.fst
  currentRequest : f.currentRequest = hs.length
  entries : ∀ i (h : i < hs.length), (f.workloadArray i).toWorkloadHeader = hs[i].2

theorem inc_eq {n : ℕ} (h : n + 1 < 2 ^ 31) : inc n = some (n + 1) := if_pos h

section Filling

variable {f : Filling} {hs : List (ℕ × WorkloadHeader)} {o : Options} {n k : ℕ} {v : Vars}

theorem header_update (arr : ℕ → WorkloadStruct) (i j : ℕ) (t : BitVec 32) :
    (Function.update arr j { arr j with interarrivalTime := t } i).toWorkloadHeader
      = (arr i).toWorkloadHeader := by
  by_cases hij : i = j
  · rw [hij, Function.update_self]
  · rw [Function.update_of_ne hij]

theorem Written.put (h : Written f hs) (hn : hs.length < n) (hint : n < 2 ^ 31)
    (timeStamp : BitVec 64) (header : WorkloadHeader) :
    ∃ f', f.put n k timeStamp header = some f' ∧ Written f' (hs ++ [(k, header)]) := by
  have hinc : inc hs.length = some (hs.length + 1) := inc_eq (by omega)
  -- the entry, before the time of the one before it is set
  have hentries : ∀ (entry : WorkloadStruct) i (hi : i < (hs ++ [(k, header)]).length),
      (Function.update f.workloadArray hs.length
        { entry with toWorkloadHeader := header, timeStamp } i).toWorkloadHeader
      = (hs ++ [(k, header)])[i].2 := by
    intro entry i hi
    rw [List.length_append, List.length_singleton] at hi
    by_cases hlast : i = hs.length
    · subst hlast
      rw [Function.update_self, List.getElem_concat_length rfl]
    · have hlt : i < hs.length := by omega
      rw [Function.update_of_ne hlast, h.entries i hlt, List.getElem_append_left hlt]
  rw [Filling.put, h.currentRequest, load_bind _ _ hn, store_bind _ _ _ hn, hinc]
  rcases Nat.eq_zero_or_pos hs.length with hzero | hpos
  · rw [if_neg (by omega)]
    refine ⟨_, rfl, ?_, ?_, hentries _⟩
    · rw [List.map_append, h.entryLines]
      rfl
    · rw [List.length_append, List.length_singleton]
  · -- the time of the entry before is set as well
    have hprev : (hs.length : ℤ) - 1 = (hs.length - 1 : ℕ) := by omega
    rw [if_pos hpos, hprev, load_bind _ _ (by omega), store_bind _ _ _ (by omega)]
    refine ⟨_, rfl, ?_, ?_, ?_⟩
    · rw [List.map_append, h.entryLines]
      rfl
    · rw [List.length_append, List.length_singleton]
    · intro i hi
      rw [← hentries (f.workloadArray hs.length) i hi]
      exact header_update _ i _ _

/-- The entries for the first `c` pieces of a request. -/
def Vars.entries (v : Vars) (s : BitVec 64) (k c : ℕ) : List (ℕ × WorkloadHeader) :=
  ((List.range c).map (v.piece s)).map (Prod.mk k)

theorem length_entries (v : Vars) (s : BitVec 64) (k c : ℕ) : (v.entries s k c).length = c := by
  rw [Vars.entries, List.length_map, List.length_map, List.length_range]

theorem entries_succ (v : Vars) (s : BitVec 64) (k c : ℕ) :
    v.entries s k (c + 1) = v.entries s k c ++ [(k, v.piece s c)] := by
  rw [Vars.entries, List.range_succ, List.map_append, List.map_append]
  rfl

/-- The loop writes the pieces of a request, and there is room for them. -/
theorem Written.split (h : Written f hs) (hsep : 0 < o.separateSize.toNat)
    (hfits : v.Fits o.separateSize.toNat)
    (hn : hs.length + v.pieces o.separateSize.toNat ≤ n) (hint : n < 2 ^ 31) :
    ∃ f', fillRequest o n k v f = some f' ∧ Written f'
      (hs ++ v.entries o.separateSize k (v.pieces o.separateSize.toNat)) := by
  have hround := hfits.roundUp_lt
  have hcond : ∀ c ≤ v.pieces o.separateSize.toNat,
      BitVec.ofNat 64 c * o.separateSize < v.requestSize
        ↔ c < v.pieces o.separateSize.toNat := by
    intro c hc
    have hmul : c * o.separateSize.toNat ≤ v.pages + o.separateSize.toNat - 1 :=
      (Nat.le_div_iff_mul_le hsep).mp hc
    rw [BitVec.lt_def, toNat_ofNat_mul hsep (by omega)]
    exact mul_lt_pages_iff hsep c
  obtain ⟨s', hrun, ⟨hle, hwritten⟩, hend⟩ := whileLoop_total
    (fun s : Filling × ℕ ↦ BitVec.ofNat 64 s.2 * o.separateSize < v.requestSize)
    (splitBody o n k v)
    (fun s ↦ s.2 ≤ v.pieces o.separateSize.toNat
      ∧ Written s.1 (hs ++ v.entries o.separateSize k s.2))
    (fun s ↦ v.pieces o.separateSize.toNat - s.2) (2 ^ 31) (by
      rintro ⟨g, c⟩ ⟨hc, hg⟩ hlt
      have hmore : c < v.pieces o.separateSize.toNat := (hcond c hc).mp hlt
      obtain ⟨g', hput, hg'⟩ := hg.put (n := n) (k := k)
        (by rw [List.length_append, length_entries]; omega) hint v.timeStamp
        (v.piece o.separateSize c)
      refine ⟨(g', c + 1), ?_, ⟨hmore, ?_⟩, by dsimp only; omega⟩
      · rw [splitBody, access_eq hfits.address_lt, inc_eq (by dsimp only; omega)]
        exact congrArg (· >>= fun g ↦ some (g, c + 1)) hput
      · rw [entries_succ, ← List.append_assoc]
        exact hg')
    (s := (f, 0)) ⟨Nat.zero_le _, by rw [Vars.entries]; simpa using h⟩ (by dsimp only; omega)
  have hall : s'.2 = v.pieces o.separateSize.toNat :=
    Nat.le_antisymm hle (Nat.le_of_not_lt (mt (hcond _ hle).mpr hend))
  refine ⟨s'.1, ?_, hall ▸ hwritten⟩
  rw [fillRequest, if_pos (ne_zero_of_toNat_pos hsep), hrun]
  rfl

end Filling

/-! ## The lines that are read -/

section Counting

variable {o : Options} {v : Vars} {c : Counts}

end Counting

/-- The entries for a line. -/
def Options.entries (o : Options) (line : List Char × ℕ) : List (ℕ × WorkloadHeader) :=
  (request line.1).entries o.separateSize line.2 (o.pieces line)

/-- The filling loop writes the pieces of as many lines as have been counted. -/
theorem Written.fillLines {o : Options} {n numOfLines : ℕ} {f : Filling} {v : Vars}
    {hs : List (ℕ × WorkloadHeader)} (h : Written f hs) (hsep : 0 < o.separateSize.toNat)
    {ls : List (List Char × ℕ)} (hparse : ∀ line ∈ ls, (sscanf line.1 {}).2 = 4)
    (hfits : ∀ line ∈ ls, (request line.1).Fits o.separateSize.toNat) {j : ℕ}
    (hn : hs.length + ((ls.take (numOfLines - j)).map o.pieces).sum ≤ n) (hint : n < 2 ^ 31)
    (hj : j + ls.length < 2 ^ 31) :
    ∃ f', fillLines o n numOfLines ls j v f = some f'
      ∧ Written f' (hs ++ (ls.take (numOfLines - j)).flatMap o.entries) := by
  induction ls generalizing j v f hs with
  | nil =>
    rw [List.take_nil, List.flatMap_nil, List.append_nil]
    exact ⟨f, rfl, h⟩
  | cons line rest ih =>
    rw [List.length_cons] at hj
    rw [RdmWorkload.fillLines]
    by_cases hmore : j < numOfLines
    · have hleft : numOfLines - j = numOfLines - (j + 1) + 1 := by omega
      rw [hleft, List.take_succ_cons, List.map_cons, List.sum_cons, ← Nat.add_assoc] at hn
      rw [hleft, List.take_succ_cons, List.flatMap_cons, ← List.append_assoc]
      obtain ⟨f₁, hrun, hwritten⟩ := h.split (n := n) (k := line.2) hsep
        (hfits line List.mem_cons_self) (Nat.le_trans (Nat.le_add_right _ _) hn) hint
      obtain ⟨f', hrest, hwritten'⟩ := ih (v := request line.1) (j := j + 1) hwritten
        (fun l hl ↦ hparse l (List.mem_cons_of_mem _ hl))
        (fun l hl ↦ hfits l (List.mem_cons_of_mem _ hl))
        (by rw [List.length_append, length_entries]; exact hn) (by omega)
      refine ⟨f', ?_, hwritten'⟩
      rw [if_pos hmore, sscanf_eq (hparse line List.mem_cons_self)]
      dsimp only
      rw [hrun, inc_eq (by omega)]
      exact hrest
    · rw [if_neg hmore, Nat.sub_eq_zero_of_le (Nat.le_of_not_lt hmore), List.take_zero,
        List.flatMap_nil, List.append_nil]
      exact ⟨f, rfl, h⟩

/-! ## The entries for a line -/

section Produced

variable {o : Options} {text : List Char} {w : Workload} {k : ℕ} {line : List Char}

end Produced

/-! ## Both passes -/

section Passes

variable {o : Options} {text : List Char}

end Passes

end FpgaOs.RdmWorkload
