import FpgaOs.Lib.Loop
import Mathlib.Algebra.Group.Nat.Defs

/-!
# The workload generator

`getWorkload` reads a text file with a request on each line and cuts the requests into smaller ones.
It goes through the file twice: first it counts the small requests, for which it then allocates the
arrays, and the second time it fills them. Both times it skips the lines that are to be ignored;
since the next line has been read by the time this loop looks at its counter, that line is skipped
too.

Everything that can go wrong gives nothing here: an entry that is not in an array, an `int` or a
`long long int` that overflows. Arithmetic with `SEPARATE_SIZE` is unsigned and wraps. The lines
carry their number in the file, and the entries the number of the line they are made for; nothing is
computed from these.
-/

namespace FpgaOs.RdmWorkload

open Loop

/-! ## Reading a file -/

/-- The loop of `fgets`: at most `n` characters, up to the end of the line. -/
def takeLine : ℕ → List Char → List Char × List Char
  | 0, text => ([], text)
  | _ + 1, [] => ([], [])
  | n + 1, ch :: text =>
    if ch = '\n' then ([ch], text) else (ch :: (takeLine n text).1, (takeLine n text).2)

/-- What `fgets` returns with a buffer of 100 characters, call after call up to the end of the
file. -/
def fgetsAll : ℕ → List Char → List (List Char)
  | 0, _ => []
  | _ + 1, [] => []
  | fuel + 1, ch :: text =>
    (takeLine 99 (ch :: text)).1 :: fgetsAll fuel (takeLine 99 (ch :: text)).2

/-- The lines of a file, as they are read. -/
def lines (text : List Char) : List (List Char) := fgetsAll text.length text

theorem takeLine_append (n : ℕ) (text : List Char) :
    (takeLine n text).1 ++ (takeLine n text).2 = text := by
  induction n generalizing text with
  | zero => rfl
  | succ n ih =>
    cases text with
    | nil => rfl
    | cons ch text =>
      rw [takeLine]
      split
      · rfl
      · exact congrArg (ch :: ·) (ih text)

/-- The lines are the file. -/
theorem flatten_lines (text : List Char) : (lines text).flatten = text := by
  have hall : ∀ (fuel : ℕ) (text : List Char), text.length ≤ fuel →
      (fgetsAll fuel text).flatten = text := by
    intro fuel
    induction fuel with
    | zero => exact fun text h ↦ (List.eq_nil_of_length_eq_zero (Nat.le_zero.mp h)).symm
    | succ fuel ih =>
      intro text h
      cases text with
      | nil => rfl
      | cons ch text =>
        have happend := takeLine_append 99 (ch :: text)
        have hpos : 0 < (takeLine 99 (ch :: text)).1.length := by
          rw [takeLine]
          split <;> exact Nat.succ_pos _
        have hlen := congrArg List.length happend
        rw [List.length_append, List.length_cons] at hlen
        rw [List.length_cons] at h
        rw [fgetsAll, List.flatten_cons, ih _ (by omega), happend]
  exact hall text.length text (Nat.le_refl _)

/-- `isspace`. -/
def isSpace (ch : Char) : Bool := ch = ' ' || (9 ≤ ch.toNat && ch.toNat ≤ 13)

/-- A number at the beginning of a text: blanks, a sign, digits. -/
def scanNumber (text : List Char) : Option (Bool × ℕ × List Char) :=
  let signed := text.dropWhile isSpace
  let digits := if signed.head? = some '-' ∨ signed.head? = some '+' then signed.tail else signed
  if (digits.takeWhile Char.isDigit).isEmpty then none
  else some (signed.head? = some '-',
    (digits.takeWhile Char.isDigit).foldl (fun n ch ↦ 10 * n + (ch.toNat - 48)) 0,
    digits.dropWhile Char.isDigit)

/-- The value of `%llu`, in a `long long int`. -/
def unsignedValue (neg : Bool) (n : ℕ) : BitVec 64 :=
  if 2 ^ 64 ≤ n then BitVec.allOnes 64 else if neg then -BitVec.ofNat 64 n else BitVec.ofNat 64 n

/-- The value of `%lld`. -/
def signedValue (neg : Bool) (n : ℕ) : BitVec 64 :=
  if neg then BitVec.ofInt 64 (-min n (2 ^ 63)) else BitVec.ofNat 64 (min n (2 ^ 63 - 1))

/-- `_batch_id`, `_time_stamp`, `_request_offset` and `_request_size`. -/
structure Vars where
  batchId : BitVec 64 := 0
  timeStamp : BitVec 64 := 0
  requestOffset : BitVec 64 := 0
  requestSize : BitVec 64 := 0
  deriving DecidableEq

/-- `sscanf` with four numbers; it returns how many it has found. -/
def sscanf (line : List Char) (v : Vars) : Vars × ℕ :=
  match scanNumber line with
  | none => (v, 0)
  | some (neg, n, line) =>
    let v := { v with batchId := unsignedValue neg n }
    match scanNumber line with
    | none => (v, 1)
    | some (neg, n, line) =>
      let v := { v with timeStamp := unsignedValue neg n }
      match scanNumber line with
      | none => (v, 2)
      | some (neg, n, line) =>
        let v := { v with requestOffset := signedValue neg n }
        match scanNumber line with
        | none => (v, 3)
        | some (neg, n, _) => ({ v with requestSize := unsignedValue neg n }, 4)

/-! ## The first pass -/

/-- The options of the command line. -/
structure Options where
  maxRequest : BitVec 64 := BitVec.allOnes 64
  ignoreRequest : BitVec 64 := 0
  separateSize : BitVec 64 := 0
  padSize : BitVec 32

/-- `n++` for an `int` that is not negative. -/
def inc (n : ℕ) : Option ℕ := if n + 1 < 2 ^ 31 then some (n + 1) else none

/-- The value of an expression of type `long long int`. -/
def longLong (x : ℤ) : Option (BitVec 64) :=
  if -2 ^ 63 ≤ x ∧ x < 2 ^ 63 then some (BitVec.ofInt 64 x) else none

/-- `ROUND_UP`. -/
def roundUp (n s : BitVec 64) : BitVec 64 := (n + s - 1) / s * s

/-- `DEFAULT_PAGE_SIZE`. -/
def defaultPageSize : ℕ := 4096

/-- What the first pass computes. -/
structure Counts where
  numOfReqs : BitVec 32
  numOfLines : ℕ
  maxAccessOffset : BitVec 64

/-- `workload_header`. -/
structure WorkloadHeader where
  mode : Char
  offset : BitVec 64
  size : BitVec 32
  deriving DecidableEq

/-- `workload_struct`. -/
structure WorkloadStruct extends WorkloadHeader where
  timeStamp : BitVec 64
  interarrivalTime : BitVec 32

/-- `workload_array`, `current_request` and `_last_time`, with the numbers of the lines for which
the entries have been written. -/
structure Filling where
  workloadArray : ℕ → WorkloadStruct
  currentRequest : ℕ
  lastTime : BitVec 64
  entryLines : List ℕ

/-- Writing an entry, and the time between it and the entry before. -/
def Filling.put (f : Filling) (numOfReqs lineNo : ℕ) (timeStamp : BitVec 64)
    (header : WorkloadHeader) : Option Filling := do
  let entry ← load f.workloadArray numOfReqs f.currentRequest
  let workloadArray ← store f.workloadArray numOfReqs f.currentRequest
    { entry with toWorkloadHeader := header, timeStamp }
  let lastTime := if f.lastTime = 0 then timeStamp else f.lastTime
  let workloadArray ← if 0 < f.currentRequest then do
      let previous ← load workloadArray numOfReqs (f.currentRequest - 1)
      store workloadArray numOfReqs (f.currentRequest - 1)
        { previous with interarrivalTime := (timeStamp - lastTime).setWidth 32 }
    else pure workloadArray
  return ⟨workloadArray, ← inc f.currentRequest, timeStamp, f.entryLines ++ [lineNo]⟩

/-- The mode of a request, and the offset without its sign. -/
def Vars.access (v : Vars) : Option (Char × BitVec 64) :=
  if 0 ≤ v.requestOffset.toInt then some ('w', v.requestOffset)
  else do return ('r', ← longLong (-v.requestOffset.toInt))

section Code

variable (o : Options) (numOfReqs lineNo : ℕ) (v : Vars)

/-- A round of the loop that cuts a request; the second variable is `cumulate_request`. -/
def splitBody (s : Filling × ℕ) : Option (Filling × ℕ) := do
  let (mode, offset) ← v.access
  let next ← inc s.2
  let size := if BitVec.ofNat 64 next * o.separateSize < v.requestSize then o.separateSize
    else v.requestSize - BitVec.ofNat 64 s.2 * o.separateSize
  let f ← s.1.put numOfReqs lineNo v.timeStamp
    { mode
      offset := offset + BitVec.ofNat 64 s.2 * o.separateSize * BitVec.ofNat 64 defaultPageSize
      size := size.setWidth 32 * BitVec.ofNat 32 defaultPageSize }
  return (f, next)

/-- The body of the filling loop, after `sscanf`. -/
def fillRequest (f : Filling) : Option Filling :=
  if o.separateSize ≠ 0 then do
    let s ← whileLoop (fun s : Filling × ℕ ↦ BitVec.ofNat 64 s.2 * o.separateSize < v.requestSize)
      (splitBody o numOfReqs lineNo v) (2 ^ 31) (f, 0)
    return s.1
  else do
    let (mode, offset) ← v.access
    let size ← longLong (v.requestSize.toInt * defaultPageSize)
    f.put numOfReqs lineNo v.timeStamp { mode, offset, size := size.setWidth 32 }

end Code

/-- The filling loop. -/
def fillLines (o : Options) (numOfReqs numOfLines : ℕ) :
    List (List Char × ℕ) → ℕ → Vars → Filling → Option Filling
  | [], _, _, f => some f
  | line :: rest, currentLine, v, f =>
    if currentLine < numOfLines then do
      let v := (sscanf line.1 v).1
      let f ← fillRequest o numOfReqs line.2 v f
      fillLines o numOfReqs numOfLines rest (← inc currentLine) v f
    else some f

/-! ## `getWorkload` -/

/-- What `getWorkload` returns and the global variables it sets, with the number of entries that the
second pass has written and the lines that they are for. -/
structure Workload where
  numOfReqs : BitVec 32
  sizeArray : ℕ → BitVec 64
  interarrivalArray : ℕ → BitVec 32
  headerArray : ℕ → WorkloadHeader
  numOfLines : ℕ
  maxAccessOffset : BitVec 64
  written : ℕ
  entryLines : List ℕ

end FpgaOs.RdmWorkload
