import SysProgLab.Decimal
import SysProgLab.Machine

/-!
# The ptree module

A write to `input` puts one message for each process from the given one up to the
root at the head of `message_list` and adds its length to `total_len`. A read of
`ptree` copies the messages into an array of `total_len + 1` bytes, answers from
that array, and frees the messages. The processes are a forest: every chain of
parents ends at pid 0.
-/

namespace SysProgLab

/-- `MAXLEN` -/
abbrev maxLen : ℕ := 100

/-- `struct task_struct` -/
structure Task : Type where
  /-- `comm` -/
  comm : List UInt8
  /-- `parent->pid` -/
  parent : ℕ

/-- **The processes**, by pid. -/
structure Forest : Type where
  /-- `pid_task(find_get_pid(pid), PIDTYPE_PID)` -/
  task : ℕ → Option Task
  /-- the number of processes from a pid to the root -/
  depth : ℕ → ℕ
  idle : task 0 = none
  parent_live : ∀ pid t, task pid = some t → t.parent ≠ 0 → (task t.parent).isSome
  depth_parent : ∀ pid t, task pid = some t → depth pid = depth t.parent + 1
  comm_nul : ∀ pid t, task pid = some t → 0 ∉ t.comm
  comm_length : ∀ pid t, task pid = some t → t.comm.length < 16
  pid_lt : ∀ pid t, task pid = some t → pid < 2 ^ 22

/-- `"%s (%d)\n"` -/
def line (comm : List UInt8) (pid : ℕ) : List UInt8 := comm ++ [32, 40] ++ decimal pid ++ [41, 10]

/-- `struct message_node` -/
structure MessageNode : Type where
  /-- `message`, up to its NUL -/
  message : List UInt8
  /-- `length` -/
  length : ℕ

/-- `message_list` and `total_len` -/
structure Ptree : Type where
  /-- `message_list` -/
  messageList : List MessageNode
  /-- `total_len` -/
  totalLen : ℕ

namespace Ptree

/-- The state when the module is loaded. -/
def init : Ptree := ⟨[], 0⟩

/-- The node for one process goes to the head of the list. -/
def addNode (s : Ptree) (message : List UInt8) : Ptree :=
  ⟨⟨message, message.length⟩ :: s.messageList, s.totalLen + message.length⟩

/-- The loop of `write_pid_to_input`; `kmalloc k` tells whether the `k`-th call of
`kmalloc` succeeds. The first component is false if one fails. -/
def writeLoop (F : Forest) (kmalloc : ℕ → Bool) : ℕ → ℕ → ℕ → Ptree → Option (Bool × Ptree)
  | 0, _, _, _ => none
  | fuel + 1, k, curr, s =>
    if curr = 0 then some (true, s)
    else
      match F.task curr with
      | none => none
      | some t =>
        if kmalloc k then writeLoop F kmalloc fuel (k + 1) t.parent (s.addNode (line t.comm curr))
        else some (false, s)

/-- `write_pid_to_input`, where `inputPid` is the number that `sscanf` reads; the
first component is the result. When `pid_task` returns NULL, `curr->pid` is read
through it. -/
def writePidToInput (F : Forest) (s : Ptree) (inputPid length : ℕ) (kmalloc : ℕ → Bool) :
    Option (ℕ × Ptree) :=
  match F.task inputPid with
  | none => none
  | some _ =>
    (writeLoop F kmalloc (F.depth inputPid + 1) 0 inputPid s).map fun r =>
      (if r.1 then length else 0, r.2)

/-- `simple_read_from_buffer`: the bytes that are copied and the new position. -/
def simpleReadFromBuffer (length position : ℕ) (src : List UInt8) (available : ℕ) :
    List UInt8 × ℕ :=
  if available ≤ position ∨ length = 0 then ([], position)
  else ((src.drop position).take (min length (available - position)),
    position + min length (available - position))

/-- What the messages of the list are when they are put together. -/
def text (s : Ptree) : List UInt8 := s.messageList.foldl (fun temp node => temp ++ node.message) []

/-- `read_output`: the bytes that are copied, the new position and the state; `none`
when `strcat` runs over the end of `temp`. -/
def readOutput (s : Ptree) (length position : ℕ) : Option (List UInt8 × ℕ × Ptree) :=
  if s.text.length ≤ s.totalLen then
    let temp := s.text ++ List.replicate (s.totalLen + 1 - s.text.length) 0
    let r := simpleReadFromBuffer length position temp s.totalLen
    some (r.1, r.2, ⟨[], s.totalLen⟩)
  else none

end Ptree

/-! ## The chain of a process -/

namespace Forest

variable (F : Forest) {pid : ℕ} {t : Task}

/-- The lines of the last `n` processes of the chain that leads to `pid`. -/
def chain : ℕ → ℕ → List (List UInt8)
  | 0, _ => []
  | n + 1, pid =>
    match F.task pid with
    | none => []
    | some t => chain n t.parent ++ [line t.comm pid]

/-- **The ancestry** of a process: the lines from the process whose parent is pid 0
down to it. -/
def ancestry (pid : ℕ) : List (List UInt8) := F.chain (F.depth pid) pid

/-- The text that `ptree` should hold for a process. -/
def output (pid : ℕ) : List UInt8 := (F.ancestry pid).flatten

variable {F}

theorem ancestry_of_none (h : F.task pid = none) : F.ancestry pid = [] := by
  rw [ancestry]
  cases F.depth pid with
  | zero => rfl
  | succ n => rw [chain, h]

theorem ancestry_of_task (h : F.task pid = some t) :
    F.ancestry pid = F.ancestry t.parent ++ [line t.comm pid] := by
  rw [ancestry, ancestry, F.depth_parent pid t h, chain, h]

/-- A line holds no NUL and ends with a newline. -/
theorem line_nul (h : F.task pid = some t) : (0 : UInt8) ∉ line t.comm pid := by
  have hcomm := F.comm_nul pid t h
  have hdec := decimal_nul pid
  simp [line, hcomm, hdec]

theorem line_pos (comm : List UInt8) (pid : ℕ) : 0 < (line comm pid).length := by
  simp [line]

/-- A line fits in the array of its node, with its NUL. -/
theorem line_fits (h : F.task pid = some t) : (line t.comm pid).length < maxLen := by
  have hcomm := F.comm_length pid t h
  have hlen : (decimal pid).length ≤ 7 :=
    length_decimal_le ((F.pid_lt pid t h).trans (by decide)) (by decide)
  have hmax : maxLen = 100 := rfl
  simp only [line, List.length_append, List.length_cons, List.length_nil]
  omega

theorem output_of_task (h : F.task pid = some t) :
    F.output pid = F.output t.parent ++ line t.comm pid := by
  rw [output, output, ancestry_of_task h, List.flatten_append, List.flatten_singleton]

/-- No text of `ptree` holds a NUL. -/
theorem output_nul (F : Forest) (pid : ℕ) : (0 : UInt8) ∉ F.output pid := by
  have hchain : ∀ n pid, (0 : UInt8) ∉ (F.chain n pid).flatten := by
    intro n
    induction n with
    | zero => exact fun _ => List.not_mem_nil
    | succ n ih =>
      intro pid
      rw [chain]
      cases ht : F.task pid with
      | none => exact List.not_mem_nil
      | some t =>
        rw [List.flatten_append, List.flatten_singleton, List.mem_append, not_or]
        exact ⟨ih t.parent, line_nul ht⟩
  exact hchain _ pid

theorem output_idle : F.output 0 = [] := by
  rw [output, ancestry_of_none F.idle, List.flatten_nil]

theorem output_pos (h : F.task pid = some t) : 0 < (F.output pid).length := by
  rw [output_of_task h, List.length_append]
  have := line_pos t.comm pid
  omega

end Forest

end SysProgLab
