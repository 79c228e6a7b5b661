import Mathlib.Data.List.Basic
import Mathlib.Logic.Function.Iterate

/-!
# A memory behind a queue of commands

A memory that executes the commands it is given in order, each some time after it was issued, and
puts what it reads into a queue. `settled` are the cells as they will be when all commands issued so
far have been executed, `stream` is what the reader will have got by then. Executing a command
changes neither, so to whoever issues commands and reads data the memory behaves as if commands were
executed at once.
-/

namespace FpgaOs

variable {α β : Type*}

/-- A memory command. -/
inductive Cmd (α β : Type*)
  | read (a : α)
  | write (a : α) (b : β)

/-- The cells, the commands that have not been executed, and the data read and not yet taken. -/
structure Port (α β : Type*) where
  cells : α → β
  cmds : List (Cmd α β)
  data : List β

namespace Port

variable [DecidableEq α]

/-- The effect of a command on the cells. -/
def applyCmd (cells : α → β) : Cmd α β → α → β
  | .read _ => cells
  | .write a b => Function.update cells a b

/-- The data that commands read. -/
def answers : (α → β) → List (Cmd α β) → List β
  | _, [] => []
  | cells, .read a :: cs => cells a :: answers cells cs
  | cells, .write a b :: cs => answers (Function.update cells a b) cs

def settled (p : Port α β) : α → β := p.cmds.foldl applyCmd p.cells

def stream (p : Port α β) : List β := p.data ++ answers p.cells p.cmds

def issue (p : Port α β) (c : Cmd α β) : Port α β := { p with cmds := p.cmds ++ [c] }

/-- The oldest command is executed. -/
def exec (p : Port α β) : Port α β :=
  match p.cmds with
  | [] => p
  | .read a :: cs => { p with cmds := cs, data := p.data ++ [p.cells a] }
  | .write a b :: cs => { p with cells := Function.update p.cells a b, cmds := cs }

variable (p : Port α β) (a : α) (b : β)

@[simp] theorem settled_issue_read : (p.issue (.read a)).settled = p.settled := by
  rw [settled, issue, List.foldl_append]
  rfl

@[simp] theorem settled_issue_write :
    (p.issue (.write a b)).settled = Function.update p.settled a b := by
  rw [settled, issue, List.foldl_append]
  rfl

theorem answers_append (cells : α → β) (cs cs' : List (Cmd α β)) :
    answers cells (cs ++ cs') = answers cells cs ++ answers (cs.foldl applyCmd cells) cs' := by
  induction cs generalizing cells with
  | nil => rfl
  | cons c cs ih =>
    cases c with
    | read a => exact congrArg (cells a :: ·) (ih cells)
    | write a b => exact ih _

/-- **A read returns what is settled when it is issued.** -/
@[simp] theorem stream_issue_read : (p.issue (.read a)).stream = p.stream ++ [p.settled a] := by
  rw [stream, issue, answers_append, ← List.append_assoc]
  rfl

@[simp] theorem stream_issue_write : (p.issue (.write a b)).stream = p.stream := by
  rw [stream, issue, answers_append, ← List.append_assoc]
  exact List.append_nil _

@[simp] theorem settled_exec : p.exec.settled = p.settled := by
  rw [exec]
  split
  · rfl
  · next h => rw [settled, settled, h]; rfl
  · next h => rw [settled, settled, h]; rfl

@[simp] theorem stream_exec : p.exec.stream = p.stream := by
  rw [exec]
  split
  · rfl
  · next h =>
    rw [stream, stream, h, List.append_assoc]
    rfl
  · next h => rw [stream, stream, h]; rfl

variable {p}

theorem stream_of_data {d : β} {ds : List β} (h : p.data = d :: ds) :
    p.stream = d :: ({ p with data := ds } : Port α β).stream := by
  rw [stream, stream, h]
  rfl

theorem settled_of_cmds_nil (h : p.cmds = []) : p.settled = p.cells := by rw [settled, h]; rfl

theorem stream_of_cmds_nil (h : p.cmds = []) : p.stream = p.data := by
  rw [stream, h]
  exact List.append_nil _

theorem cmds_exec (p : Port α β) : p.exec.cmds = p.cmds.tail := by
  rw [exec]
  split
  · next h => rw [h]; rfl
  · next h => rw [h]; rfl
  · next h => rw [h]; rfl

/-- All commands are executed. -/
def flush (p : Port α β) : Port α β := exec^[p.cmds.length] p

theorem cmds_iterate_exec (p : Port α β) (n : ℕ) : (exec^[n] p).cmds = p.cmds.drop n := by
  induction n with
  | zero => rfl
  | succ n ih => rw [Function.iterate_succ_apply', cmds_exec, ih, List.tail_drop]

@[simp] theorem cmds_flush (p : Port α β) : p.flush.cmds = [] := by
  rw [flush, cmds_iterate_exec, List.drop_length]

@[simp] theorem settled_flush (p : Port α β) : p.flush.settled = p.settled := by
  rw [flush]
  induction p.cmds.length with
  | zero => rfl
  | succ n ih => rw [Function.iterate_succ_apply', settled_exec, ih]

@[simp] theorem stream_flush (p : Port α β) : p.flush.stream = p.stream := by
  rw [flush]
  induction p.cmds.length with
  | zero => rfl
  | succ n ih => rw [Function.iterate_succ_apply', stream_exec, ih]

theorem data_flush (p : Port α β) : p.flush.data = p.stream := by
  rw [← stream_flush, stream_of_cmds_nil p.cmds_flush]

end Port

end FpgaOs
