import SysProgLab.JobTable
import SysProgLab.Machine

/-!
# The shell and its children: `tsh.c`

`eval` runs an external command statement by statement; its children stop, go on,
exit or are killed at any moment; `SIGCHLD` is one pending bit, and
`sigchld_handler` runs between two statements of `eval` whenever the bit is set
and the signal is not blocked.
-/

namespace SysProgLab

namespace Shell

/-- What a child is doing, and whether `waitpid` has reported that it stopped. -/
inductive Status : Type where
  | running
  | stopped (reported : Bool)
  | exited
  | signaled
  deriving DecidableEq

/-- `WIFEXITED` or `WIFSIGNALED` -/
def Status.terminated : Status → Bool
  | .exited | .signaled => true
  | _ => false

/-- `waitpid(-1,&status,WNOHANG|WUNTRACED)` can report the child. -/
def Status.reportable : Status → Bool
  | .stopped false | .exited | .signaled => true
  | _ => false

/-- A child that has not been reaped. `registered` records that `addjob` returned 1
for it. -/
structure Child : Type where
  /-- its process id -/
  pid : ℤ
  /-- what it is doing -/
  status : Status
  /-- `addjob` returned 1 for it -/
  registered : Bool
  deriving DecidableEq

/-- The program points of `eval`: the statement to be executed next. -/
inductive Pc : Type where
  /-- `eval` has not been called -/
  | ready
  /-- `sigprocmask(SIG_SETMASK,&set,NULL)` -/
  | block (bg : Bool) (cmdline : List UInt8)
  /-- `fork()` -/
  | fork (bg : Bool) (cmdline : List UInt8)
  /-- `addjob(jobs, pid, state, cmdline)` -/
  | add (bg : Bool) (cmdline : List UInt8) (pid : ℤ)
  /-- `sigprocmask(SIG_UNBLOCK,&set,NULL)` -/
  | unblock (bg : Bool) (pid : ℤ)
  /-- the loop of `waitfg(pid)` -/
  | wait (pid : ℤ)
  /-- the log message of a background job -/
  | report (pid : ℤ)
  deriving DecidableEq

/-- The shell, its children and the signal between them. -/
structure State : Type where
  /-- `jobs` and `nextjid` -/
  table : JobTable
  /-- the children that have not been reaped -/
  children : List Child
  /-- `SIGCHLD` is pending -/
  pending : Bool
  /-- `SIGCHLD` is blocked -/
  blocked : Bool
  /-- where `eval` is -/
  pc : Pc
  deriving DecidableEq

/-- A step of the shell or of a child. -/
inductive Action : Type where
  /-- an external command is read -/
  | command (bg : Bool) (cmdline : List UInt8)
  /-- the next statement of `eval`; `fork` returns `forked` -/
  | main (forked : ℤ)
  /-- a child stops -/
  | stop (pid : ℤ)
  /-- a stopped child goes on -/
  | cont (pid : ℤ)
  /-- a child exits -/
  | exit (pid : ℤ)
  /-- a child is killed -/
  | kill (pid : ℤ)
  /-- `sigchld_handler` runs; `waitpid` reports the child, or nothing -/
  | handler (reported : Option ℤ)
  deriving DecidableEq

/-- Change the child `pid`. -/
def update (pid : ℤ) (f : Child → Child) (cs : List Child) : List Child :=
  cs.map fun c => if c.pid = pid then f c else c

/-- A child changes its status on its own, and the kernel sends `SIGCHLD`. -/
def State.childEvent (s : State) (pid : ℤ) (guard : Status → Bool) (status : Status) :
    Option State :=
  if s.children.any fun c => decide (c.pid = pid) && guard c.status then
    some { s with
      children := update pid (fun c => { c with status := status }) s.children
      pending := true }
  else none

/-- The body of `sigchld_handler` after `waitpid`. -/
def sigchldHandler (t : JobTable) (pid : ℤ) (status : Status) : JobTable :=
  if pid ≠ 0 ∧ t.pid2jid pid ≠ 0 then
    match status with
    | .exited | .signaled => (t.deletejob pid).2
    | .stopped _ =>
      match t.getjobpid pid with
      | none => t
      | some i => t.setState i .st
    | .running => t
  else t

/-- `sigchld_handler`: `waitpid` reports one child, or none can be reported. -/
def State.handle (s : State) : Option ℤ → Option State
  | none =>
    if s.children.any fun c => c.status.reportable then none
    else some { s with pending := false }
  | some pid =>
    match s.children.find? fun c => decide (c.pid = pid) && c.status.reportable with
    | none => none
    | some c =>
      some { s with
        pending := false
        table := sigchldHandler s.table pid c.status
        children :=
          if c.status.terminated then s.children.filter fun c => decide (c.pid ≠ pid)
          else update pid (fun c => { c with status := .stopped true }) s.children }

/-- The next statement of `eval`. A log message about a job that is gone follows
`NULL`. -/
def State.main (s : State) (forked : ℤ) : Option State :=
  match s.pc with
  | .ready => none
  | .block bg cmdline => some { s with blocked := true, pc := .fork bg cmdline }
  | .fork bg cmdline =>
    if forked < 0 then some { s with pc := .ready }
    else if forked = 0 ∨ s.children.any fun c => decide (c.pid = forked) then none
    else some { s with
      children := ⟨forked, .running, false⟩ :: s.children
      pc := .add bg cmdline forked }
  | .add bg cmdline pid =>
    let r := s.table.addjob pid (if bg then .bg else .fg) cmdline
    some { s with
      table := r.2
      children := update pid (fun c => { c with registered := r.1 }) s.children
      pc := .unblock bg pid }
  | .unblock bg pid => some { s with blocked := false, pc := if bg then .report pid else .wait pid }
  | .wait pid =>
    match s.table.getjobpid pid with
    | none => some { s with pc := .ready }
    | some i =>
      if (s.table.jobs[i]?.map Job.state) = some .fg then some s else some { s with pc := .ready }
  | .report pid =>
    match s.table.getjobpid pid with
    | none => none
    | some _ => some { s with pc := .ready }

/-- One step. -/
def State.next (s : State) : Action → Option State
  | .command bg cmdline =>
    if s.pc = .ready then some { s with pc := .block bg cmdline } else none
  | .main forked => s.main forked
  | .stop pid => s.childEvent pid (fun st => decide (st = .running)) (.stopped false)
  | .cont pid =>
    s.childEvent pid (fun st => decide (st = .stopped true ∨ st = .stopped false)) .running
  | .exit pid => s.childEvent pid (fun st => decide (st = .running)) .exited
  | .kill pid => s.childEvent pid (fun st => !st.terminated) .signaled
  | .handler reported => if s.pending = true ∧ s.blocked = false then s.handle reported else none

/-- The shell after `initjobs`. -/
def init : State := ⟨.initjobs, [], false, false, .ready⟩

/-- The runs of the shell. -/
def machine : Machine State Action where
  init s := s = init
  step s a s' := s.next a = some s'

end Shell

end SysProgLab
