import FpgaOs.Lib.Port

/-!
# A memory that gets addresses and data apart

The data of a write often come on a stream of their own: a command says which cells are to be
accessed, and the word that a write stores is the next one of the stream. As long as the data are
taken in order this is a `Port`: an access that writes is a command once it is paired with its word,
also if that word is yet to come. So reads and writes can be accounted for when their command is
issued, and executing them changes nothing.
-/

namespace FpgaOs

variable {α β : Type*}

/-- An access to a cell. -/
inductive Access (α : Type*)
  | read (a : α)
  | write (a : α)

namespace Access

/-- The number of words that accesses write. -/
def writes : List (Access α) → ℕ
  | [] => 0
  | .read _ :: as => writes as
  | .write _ :: as => writes as + 1

/-- The commands, when writes take their words from a stream. -/
def fill : List (Access α) → List β → List (Cmd α β)
  | [], _ => []
  | .read a :: as, ds => .read a :: fill as ds
  | .write a :: as, d :: ds => .write a d :: fill as ds
  | .write _ :: _, [] => []

/-- The memory with the accesses that it has been asked for. -/
def port (cells : α → β) (as : List (Access α)) (ds out : List β) : Port α β :=
  ⟨cells, fill as ds, out⟩

variable {as : List (Access α)} {ds : List β}

theorem writes_append (as as' : List (Access α)) : writes (as ++ as') = writes as + writes as' := by
  induction as with
  | nil => exact (Nat.zero_add _).symm
  | cons a as ih =>
    cases a with
    | read a => exact ih
    | write a => exact (congrArg (· + 1) ih).trans (Nat.succ_add ..).symm

theorem writes_map_read (l : List α) : writes (l.map .read) = 0 := by
  induction l with
  | nil => rfl
  | cons a l ih => exact ih

theorem writes_map_write (l : List α) : writes (l.map .write) = l.length := by
  induction l with
  | nil => rfl
  | cons a l ih => exact congrArg (· + 1) ih

/-- Accesses that are asked for later take their words behind those of the others. -/
theorem fill_append (h : ds.length = writes as) (as' : List (Access α)) (ds' : List β) :
    fill (as ++ as') (ds ++ ds') = fill as ds ++ fill as' ds' := by
  induction as generalizing ds with
  | nil => rw [List.length_eq_zero_iff.mp h]; rfl
  | cons a as ih =>
    cases a with
    | read a => exact congrArg (Cmd.read a :: ·) (ih h)
    | write a =>
      match ds, h with
      | d :: ds, h => exact congrArg (Cmd.write a d :: ·) (ih (Nat.succ.inj h))

theorem fill_map_read (l : List α) (ds : List β) : fill (l.map .read) ds = l.map .read := by
  induction l with
  | nil => rfl
  | cons a l ih => exact congrArg (Cmd.read a :: ·) ih

variable [DecidableEq α] (cells : α → β) (out : List β)

/-- The cells after words have been stored. -/
def store (cells : α → β) : List α → List β → α → β
  | a :: l, d :: ds => store (Function.update cells a d) l ds
  | _, _ => cells

theorem foldl_fill_write (cells : α → β) (l : List α) (ds : List β) :
    (fill (l.map .write) ds).foldl Port.applyCmd cells = store cells l ds := by
  induction l generalizing cells ds with
  | nil => rfl
  | cons a l ih =>
    cases ds with
    | nil => rfl
    | cons d ds => exact ih _ ds

theorem answers_fill_write (cells : α → β) (l : List α) (ds : List β) :
    Port.answers cells (fill (l.map .write) ds) = [] := by
  induction l generalizing cells ds with
  | nil => rfl
  | cons a l ih =>
    cases ds with
    | nil => rfl
    | cons d ds => exact ih _ ds

theorem answers_map_read (cells : α → β) (l : List α) :
    Port.answers cells (l.map .read) = l.map cells := by
  induction l with
  | nil => rfl
  | cons a l ih => exact congrArg (cells a :: ·) ih

theorem foldl_map_read (cells : α → β) (l : List α) :
    (l.map Cmd.read).foldl Port.applyCmd cells = cells := by
  induction l with
  | nil => rfl
  | cons a l ih => exact ih

section Issue

variable {cells out}

/-- **Asking for cells.** What is read is what is settled. -/
theorem stream_port_read (h : ds.length = writes as) (l : List α) :
    (port cells (as ++ l.map .read) ds out).stream
      = (port cells as ds out).stream ++ l.map (port cells as ds out).settled := by
  have hfill := fill_append h (l.map .read) []
  rw [List.append_nil, fill_map_read] at hfill
  rw [port, Port.stream, hfill, Port.answers_append, answers_map_read, ← List.append_assoc]
  rfl

theorem settled_port_read (h : ds.length = writes as) (l : List α) :
    (port cells (as ++ l.map .read) ds out).settled = (port cells as ds out).settled := by
  have hfill := fill_append h (l.map .read) []
  rw [List.append_nil, fill_map_read] at hfill
  rw [port, Port.settled, hfill, List.foldl_append, foldl_map_read]
  rfl

/-- **Asking for a write.** Its words may come later. -/
theorem stream_port_write (h : ds.length = writes as) (l : List α) (ds' : List β) :
    (port cells (as ++ l.map .write) (ds ++ ds') out).stream = (port cells as ds out).stream := by
  rw [port, Port.stream, fill_append h, Port.answers_append, answers_fill_write, List.append_nil]
  rfl

theorem settled_port_write (h : ds.length = writes as) (l : List α) (ds' : List β) :
    (port cells (as ++ l.map .write) (ds ++ ds') out).settled
      = store (port cells as ds out).settled l ds' := by
  rw [port, Port.settled, fill_append h, List.foldl_append, foldl_fill_write]
  rfl

end Issue

/-! ## Executing -/

theorem exec_port_read (a : α) :
    (port cells (.read a :: as) ds out).exec = port cells as ds (out ++ [cells a]) := rfl

theorem exec_port_write (a : α) (d : β) :
    (port cells (.write a :: as) (d :: ds) out).exec = port (Function.update cells a d) as ds out :=
  rfl

/-- The reader takes a word. -/
theorem stream_port_cons (d : β) :
    (port cells as ds (d :: out)).stream = d :: (port cells as ds out).stream := rfl

end Access

end FpgaOs
