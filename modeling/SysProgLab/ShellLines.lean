import SysProgLab.ParseLine
import SysProgLab.ShellBgfg

/-!
# Command lines at the prompt

`eval` from the line that `fgets` delivers to the command it starts. `parseline` has
room for `MAXARGS` entries and counts none of them, and `builtin_cmd` compares a
first argument that need not be there.
-/

namespace SysProgLab

namespace Shell

/-- A line that `fgets(cmdline, MAXLINE, stdin)` delivers. -/
structure IsLine (cmdline : CStr) : Prop where
  nonempty : cmdline ≠ []
  short : cmdline.length < maxLine
  zero : 0 ∉ cmdline
  newline : 10 ∉ cmdline.dropLast

/-- What `builtin_cmd` takes the command for. -/
inductive Command : Type where
  | quit
  | jobs
  | bgfg (fg : Bool) (arg : Option CStr)
  | external
  deriving DecidableEq

/-- `builtin_cmd`; `none` is a comparison with `NULL`. -/
def builtinCmd (argv : Argv) : Option Command := do
  let argv0 ← argv.slots[0]?.join
  if argv0 = ascii "quit" then some .quit
  else if argv0 = ascii "jobs" then some .jobs
  else if argv0 = ascii "bg" ∨ argv0 = ascii "fg" then
    some (.bgfg (decide (argv0 ≠ ascii "bg")) argv.slots[1]?.join)
  else some .external

/-- `eval` up to the first statement that concerns other processes or the table, where
`argv` is what the array holds at first. The shell is gone after `quit`. -/
def Session.eval (s : Session) (argv : Argv) (cmdline : CStr) : Option (Option Session) := do
  let (bg, argv) ← parseline argv cmdline
  match ← builtinCmd argv with
  | .quit => some none
  | .jobs => some (some s)
  | .bgfg fg arg => (s.next (.bgfg fg (parseArg arg))).map some
  | .external => (s.next (.shell (.command bg cmdline))).map some

/-- The command word and its arguments; there are none if the line is blank or an `&`. -/
def words (cmdline : CStr) : List CStr := kept (arguments cmdline)

/-- **What should become of a command line**: it fits into `argv`, `builtin_cmd` and
`execve` get a command, and nothing happens if there is none. -/
structure Handled (s : Session) (cmdline : CStr) : Prop where
  bounded : ∀ argv, parseline argv cmdline ≠ none
  command : ∀ argv bg argv', parseline argv cmdline = some (bg, argv') →
    argv'.slots[0]?.join ≠ none
  blank : words cmdline = [] → ∀ argv, s.eval argv cmdline = some (some s)

section Lines

variable {s : Session} {cmdline : CStr}

theorem IsLine.fits (h : IsLine cmdline) : Fits cmdline := ⟨h.nonempty, h.short⟩

/-- A line of too many arguments. -/
theorem not_handled_of_long (hfits : Fits cmdline) (h : maxArgs ≤ (arguments cmdline).length) :
    ¬Handled s cmdline := by
  intro hh
  let argv : Argv := ⟨List.replicate maxArgs none, List.length_replicate⟩
  exact hh.bounded argv ((parseline_spec argv hfits).2 h)

/-- A line without a command. -/
theorem not_handled_of_blank (hfits : Fits cmdline) (h : words cmdline = []) :
    ¬Handled s cmdline := by
  intro hh
  let argv : Argv := ⟨List.replicate maxArgs none, List.length_replicate⟩
  by_cases hroom : (arguments cmdline).length < maxArgs
  · obtain ⟨argv', junk, hparse, hslots⟩ := (parseline_spec argv hfits).1 hroom
    refine hh.command argv _ argv' hparse ?_
    rw [hslots, ← words, h]
    split <;> rfl
  · exact not_handled_of_long hfits (Nat.not_lt.mp hroom) hh

/-- **A command line is handled** exactly if it has at most 127 arguments, the first of
which is a command. -/
theorem handled_iff (s : Session) (h : IsLine cmdline) :
    Handled s cmdline ↔ (arguments cmdline).length ≤ 127 ∧ words cmdline ≠ [] := by
  constructor
  · intro hh
    refine ⟨Nat.not_lt.mp fun hlong => ?_, fun hblank => not_handled_of_blank h.fits hblank hh⟩
    exact not_handled_of_long h.fits hlong hh
  · rintro ⟨hroom, hne⟩
    have hparse := fun argv => (parseline_spec argv h.fits).1 (Nat.lt_succ_of_le hroom)
    refine ⟨fun argv hnone => ?_, fun argv bg argv' hsome => ?_, fun hblank => absurd hblank hne⟩
    · obtain ⟨argv', junk, hsome, -⟩ := hparse argv
      cases hnone.symm.trans hsome
    · obtain ⟨argv'', junk, hsome', hslots⟩ := hparse argv
      obtain ⟨-, rfl⟩ := Prod.mk.inj (Option.some.inj (hsome.symm.trans hsome'))
      obtain ⟨w, ws, hws⟩ := List.exists_cons_of_ne_nil hne
      rw [words] at hws
      simp [hslots, hws]

theorem handled_iff_ls : Handled ⟨init, none⟩ (ascii "ls -l &\n") :=
  (handled_iff ⟨init, none⟩ ⟨by decide, by decide, by decide, by decide⟩).mpr
    ⟨by decide, by decide⟩

/-- A line of 200 words of one letter. -/
def longLine : CStr := (List.replicate 200 (ascii "a ")).flatten ++ [10]

/-- **`NULL` is compared** for a blank line, for a line of spaces and for an `&`, and
`argv` overflows for a line of 200 words. -/
theorem lines_unchecked :
    (IsLine (ascii "\n") ∧ ¬Handled ⟨init, none⟩ (ascii "\n")) ∧
    (IsLine (ascii "  \n") ∧ ¬Handled ⟨init, none⟩ (ascii "  \n")) ∧
    (IsLine (ascii "&\n") ∧ ¬Handled ⟨init, none⟩ (ascii "&\n")) ∧
    IsLine longLine ∧ ¬Handled ⟨init, none⟩ longLine := by
  have hline : ∀ {l : CStr}, IsLine l → words l = [] → IsLine l ∧ ¬Handled ⟨init, none⟩ l :=
    fun h hblank => ⟨h, not_handled_of_blank h.fits hblank⟩
  have hlong : IsLine longLine :=
    ⟨by decide +kernel, by decide +kernel, by decide +kernel, by decide +kernel⟩
  refine ⟨hline ⟨by decide, by decide, by decide, by decide⟩ (by decide),
    hline ⟨by decide, by decide, by decide, by decide⟩ (by decide),
    hline ⟨by decide, by decide, by decide, by decide⟩ (by decide), hlong, ?_⟩
  exact not_handled_of_long hlong.fits (by decide +kernel)

end Lines

end Shell

end SysProgLab
