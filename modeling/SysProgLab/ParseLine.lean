import SysProgLab.Decimal

/-!
# Command lines: `parseline`

`parseline` cuts its copy of the line into arguments, in place, and stores pointers
to them into `argv`. The pointers are modelled by the strings they point to, which
nothing changes later. What the loop stores is what one pass over the characters
finds (`arguments`), and the arguments of a rendered command line are read back.
-/

namespace SysProgLab

namespace Shell

/-- `MAXLINE` -/
def maxLine : ℕ := 1024

/-- `MAXARGS` -/
def maxArgs : ℕ := 128

/-- `char *argv[MAXARGS]`; `none` is `NULL`. -/
structure Argv : Type where
  /-- the entries -/
  slots : List (Option CStr)
  /-- there are `MAXARGS` of them -/
  length_slots : slots.length = maxArgs

/-- `argv[i] = v`; `none` is a store outside the array. -/
def Argv.store (argv : Argv) (i : ℕ) (v : Option CStr) : Option Argv :=
  if i < maxArgs then some ⟨argv.slots.set i v, by rw [List.length_set, argv.length_slots]⟩
  else none

/-- `strchr(buf, c)`: what stands before the first `c`, and behind it. -/
def strchr (c : UInt8) : CStr → Option (CStr × CStr)
  | [] => none
  | b :: buf => if b = c then some ([], buf) else (strchr c buf).map fun r => (b :: r.1, r.2)

/-- `while (*buf && (*buf == ' ')) buf++` -/
def skipSpaces (buf : CStr) : CStr := buf.dropWhile fun b => decide (b = 32)

/-- The search for `delim`: the argument that starts at `buf`, and what follows it. -/
def delim : CStr → Option (CStr × CStr)
  | 39 :: buf => strchr 39 buf
  | buf => strchr 32 buf

/-- The loop of `parseline`, from `argv`, `argc` and `buf`. -/
def parseLoop : ℕ → Argv → ℕ → CStr → Option (Argv × ℕ)
  | 0, argv, argc, _ => some (argv, argc)
  | fuel + 1, argv, argc, buf =>
    match delim buf with
    | none => some (argv, argc)
    | some (arg, rest) =>
      (argv.store argc (some arg)).bind fun argv =>
        parseLoop fuel argv (argc + 1) (skipSpaces rest)

/-- `parseline`, where `argv` is what the array holds at first; `none` is an access
outside `array` or `argv`. -/
def parseline (argv : Argv) (cmdline : CStr) : Option (Bool × Argv) :=
  if cmdline = [] ∨ maxLine ≤ cmdline.length then none
  else do
    let buf := skipSpaces (cmdline.dropLast ++ [32])
    let (argv, argc) ← parseLoop buf.length argv 0 buf
    let argv ← argv.store argc none
    if argc = 0 then some (true, argv)
    else if (argv.slots[argc - 1]?.join.bind List.head?) = some 38 then do
      let argv ← argv.store (argc - 1) none
      some (true, argv)
    else some (false, argv)

/-! ## What a line consists of -/

/-- One pass over the characters. Inside an argument, `some` holds the character that
ends it and what has been read of it. -/
def scan : Option (UInt8 × CStr) → CStr → List CStr
  | _, [] => []
  | none, b :: buf =>
    if b = 32 then scan none buf
    else if b = 39 then scan (some (39, [])) buf
    else scan (some (32, [b])) buf
  | some (c, arg), b :: buf =>
    if b = c then arg :: scan none buf else scan (some (c, arg ++ [b])) buf

/-- **The arguments of a command line**: an argument reaches to the next space, or
from a single quote to the next one. The newline is a space. -/
def arguments (cmdline : CStr) : List CStr := scan none (cmdline.dropLast ++ [32])

section Scan

variable {c : UInt8} {arg rest buf : CStr}

/-- An argument that has begun is what `strchr` finds. -/
theorem scan_some (c : UInt8) (arg buf : CStr) : scan (some (c, arg)) buf =
    match strchr c buf with
    | none => []
    | some (more, rest) => (arg ++ more) :: scan none rest := by
  induction buf generalizing arg with
  | nil => rfl
  | cons b buf ih =>
    rw [scan, strchr]
    by_cases hb : b = c
    · rw [if_pos hb, if_pos hb]
      simp
    · rw [if_neg hb, if_neg hb, ih]
      cases strchr c buf with
      | none => rfl
      | some r => simp

theorem scan_skipSpaces (buf : CStr) : scan none (skipSpaces buf) = scan none buf := by
  induction buf with
  | nil => rfl
  | cons b buf ih =>
    rw [skipSpaces, List.dropWhile_cons]
    by_cases hb : b = 32
    · rw [if_pos (decide_eq_true hb), scan, if_pos hb]
      exact ih
    · rw [if_neg (by simpa using hb)]

/-- A search for `delim` past the spaces finds the next argument. -/
theorem scan_delim (h : buf.head? ≠ some 32) : scan none buf =
    match delim buf with
    | none => []
    | some (arg, rest) => arg :: scan none rest := by
  match buf, h with
  | [], _ => rfl
  | b :: buf, h =>
    have hb : b ≠ 32 := fun he => h (congrArg some he)
    rw [scan, if_neg hb]
    by_cases hq : b = 39
    · subst hq
      rw [if_pos rfl, scan_some, delim]
      simp
    · have hdelim : delim (b :: buf) = (strchr 32 buf).map fun r => (b :: r.1, r.2) := by
        rw [delim, strchr, if_neg hb]
        exact fun buf' he => hq (List.cons.inj he).1
      rw [if_neg hq, scan_some, hdelim]
      cases strchr 32 buf <;> rfl

theorem length_strchr (h : strchr c buf = some (arg, rest)) : rest.length < buf.length := by
  induction buf generalizing arg with
  | nil => cases h
  | cons b buf ih =>
    rw [strchr] at h
    split at h
    · cases h
      exact Nat.lt_succ_self _
    · obtain ⟨r, hr, heq⟩ := Option.map_eq_some_iff.mp h
      obtain ⟨-, rfl⟩ := Prod.mk.inj heq
      exact (ih hr).trans (Nat.lt_succ_self _)

theorem length_delim (h : delim buf = some (arg, rest)) : rest.length < buf.length := by
  rw [delim.eq_def] at h
  split at h
  · exact (length_strchr h).trans (Nat.lt_succ_self _)
  · exact length_strchr h

theorem length_skipSpaces (buf : CStr) : (skipSpaces buf).length ≤ buf.length :=
  (List.dropWhile_sublist _).length_le

theorem head_skipSpaces (buf : CStr) : (skipSpaces buf).head? ≠ some 32 := by
  intro h
  have hnot := List.head?_dropWhile_not (fun b => decide (b = 32)) buf
  rw [← skipSpaces, h] at hnot
  cases hnot

end Scan

/-! ## What is stored -/

section Store

variable {argv : Argv} {ws : List CStr} {junk : List (Option CStr)} {v : Option CStr} {w : CStr}
  {buf cmdline : CStr}

theorem store_none (argv : Argv) {i : ℕ} (h : maxArgs ≤ i) (v : Option CStr) :
    argv.store i v = none := if_neg (Nat.not_lt.mpr h)

/-- A store behind the arguments stored so far. -/
theorem store_next (hslots : argv.slots = ws.map some ++ junk) (h : ws.length < maxArgs)
    (v : Option CStr) :
    ∃ argv', argv.store ws.length v = some argv' ∧
      argv'.slots = ws.map some ++ v :: junk.tail := by
  refine ⟨_, if_pos h, ?_⟩
  have hlen := argv.length_slots
  rw [hslots, List.length_append, List.length_map] at hlen
  cases junk with
  | nil =>
    rw [List.length_nil] at hlen
    omega
  | cons x junk =>
    dsimp only
    rw [hslots, List.set_append_right _ _ (by rw [List.length_map]), List.length_map, Nat.sub_self]
    rfl

/-- **The loop** stores what one pass over the characters finds, if there is room. -/
theorem parseLoop_spec {fuel : ℕ} (hslots : argv.slots = ws.map some ++ junk)
    (hbuf : buf.head? ≠ some 32) (hfuel : buf.length ≤ fuel) (hws : ws.length ≤ maxArgs) :
    ((ws ++ scan none buf).length ≤ maxArgs → ∃ argv' junk',
      parseLoop fuel argv ws.length buf = some (argv', (ws ++ scan none buf).length) ∧
      argv'.slots = (ws ++ scan none buf).map some ++ junk') ∧
    (maxArgs < (ws ++ scan none buf).length → parseLoop fuel argv ws.length buf = none) := by
  induction fuel generalizing argv ws junk buf with
  | zero =>
    obtain rfl : buf = [] := List.eq_nil_of_length_eq_zero (Nat.le_zero.mp hfuel)
    rw [scan, List.append_nil]
    exact ⟨fun _ => ⟨argv, junk, rfl, hslots⟩, fun hlt => absurd hws (Nat.not_le.mpr hlt)⟩
  | succ fuel ih =>
    rw [scan_delim hbuf, parseLoop]
    cases hdelim : delim buf with
    | none =>
      dsimp only
      rw [List.append_nil]
      exact ⟨fun _ => ⟨argv, junk, rfl, hslots⟩, fun hlt => absurd hws (Nat.not_le.mpr hlt)⟩
    | some r =>
      obtain ⟨arg, rest⟩ := r
      have hshort : (skipSpaces rest).length ≤ fuel := by
        have h₁ := length_delim hdelim
        have h₂ := length_skipSpaces rest
        omega
      have happ : ws ++ arg :: scan none rest =
          (ws ++ [arg]) ++ scan none (skipSpaces rest) := by
        rw [scan_skipSpaces, List.append_assoc]
        rfl
      dsimp only
      rw [happ]
      rcases hws.lt_or_eq with hlt | heq
      · obtain ⟨argv₁, hstore, hslots₁⟩ := store_next hslots hlt (some arg)
        rw [hstore, Option.bind_some]
        have hlen : ws.length + 1 = (ws ++ [arg]).length := by rw [List.length_append]; rfl
        rw [hlen]
        have hslots₂ : argv₁.slots = (ws ++ [arg]).map some ++ junk.tail := by
          rw [hslots₁, List.map_append, List.append_assoc]
          rfl
        exact ih hslots₂ (head_skipSpaces rest) hshort (hlen ▸ hlt)
      · rw [store_none argv heq.ge, Option.bind_none]
        refine ⟨fun hle => ?_, fun _ => rfl⟩
        rw [List.length_append, List.length_append, List.length_singleton] at hle
        omega

end Store

/-- The last argument begins with `&`. -/
def background (ws : List CStr) : Bool := decide (ws.getLast?.bind List.head? = some 38)

/-- The arguments without a last one that begins with `&`. -/
def kept (ws : List CStr) : List CStr := if background ws = true then ws.dropLast else ws

/-- The line fits into `array`, and is not empty. -/
def Fits (cmdline : CStr) : Prop := cmdline ≠ [] ∧ cmdline.length < maxLine

section Parse

variable {cmdline : CStr}

/-- The end of `parseline`, after `NULL` has been stored behind the arguments. -/
theorem endParse_spec {argv : Argv} {ws : List CStr} {junk : List (Option CStr)}
    (hslots : argv.slots = ws.map some ++ none :: junk) :
    ∃ argv',
      (if ws.length = 0 then some (true, argv)
      else if (argv.slots[ws.length - 1]?.join.bind List.head?) = some 38 then do
        let argv ← argv.store (ws.length - 1) none
        some (true, argv)
      else some (false, argv)) = some (decide (ws = []) || background ws, argv') ∧
      argv'.slots = (kept ws).map some ++
        (if background ws = true then [none, none] else [none]) ++ junk := by
  rcases List.eq_nil_or_concat ws with rfl | ⟨front, last, rfl⟩
  · exact ⟨argv, rfl, by rw [hslots]; rfl⟩
  · rw [List.concat_eq_append] at hslots ⊢
    have hlast : argv.slots[(front ++ [last]).length - 1]?.join.bind List.head? =
        last.head? := by
      rw [hslots]
      simp
    have hback : background (front ++ [last]) = decide (last.head? = some 38) := by
      simp [background]
    rw [if_neg (by simp), hlast, hback]
    by_cases hamp : last.head? = some 38
    · have hfront : argv.slots = front.map some ++ some last :: none :: junk := by
        rw [hslots, List.map_append, List.append_assoc]
        rfl
      have hlt : front.length < maxArgs := by
        have hlen := argv.length_slots
        rw [hfront, List.length_append, List.length_map, List.length_cons] at hlen
        omega
      obtain ⟨argv', hstore, hslots'⟩ := store_next hfront hlt none
      have hindex : (front ++ [last]).length - 1 = front.length := by simp
      refine ⟨argv', ?_, ?_⟩
      · rw [if_pos hamp, hindex, hstore]
        simp [hamp]
      · rw [hslots', kept, hback, if_pos (decide_eq_true hamp), if_pos (decide_eq_true hamp),
          List.dropLast_concat, List.append_assoc]
        rfl
    · refine ⟨argv, ?_, ?_⟩
      · rw [if_neg hamp]
        simp [hamp]
      · rw [hslots, kept, hback, if_neg (by simpa using hamp), if_neg (by simpa using hamp),
          List.append_assoc]
        rfl

/-- **`parseline`** stores the arguments and `NULL`, if there is room for both. -/
theorem parseline_spec (argv : Argv) (hfits : Fits cmdline) :
    ((arguments cmdline).length < maxArgs → ∃ argv' junk,
      parseline argv cmdline = some (decide (arguments cmdline = []) ||
        background (arguments cmdline), argv') ∧
      argv'.slots = (kept (arguments cmdline)).map some ++
        (if background (arguments cmdline) = true then [none, none] else [none]) ++ junk) ∧
    (maxArgs ≤ (arguments cmdline).length → parseline argv cmdline = none) := by
  have hguard : ¬(cmdline = [] ∨ maxLine ≤ cmdline.length) := by
    rw [not_or, Nat.not_le]
    exact hfits
  have hinit : argv.slots = ([] : List CStr).map some ++ argv.slots := rfl
  have hloop := parseLoop_spec hinit (head_skipSpaces (cmdline.dropLast ++ [32])) le_rfl
    (Nat.zero_le _)
  rw [List.nil_append, scan_skipSpaces, ← arguments] at hloop
  obtain ⟨hroom, hfull⟩ := hloop
  refine ⟨fun hlt => ?_, fun hle => ?_⟩
  · obtain ⟨argv₁, junk, hloop, hslots⟩ := hroom hlt.le
    obtain ⟨argv₂, hstore, hslots₂⟩ := store_next hslots hlt none
    obtain ⟨argv₃, hend, hslots₃⟩ := endParse_spec hslots₂
    refine ⟨argv₃, junk.tail, ?_, hslots₃⟩
    rw [parseline, if_neg hguard]
    exact Option.bind_eq_some_iff.mpr ⟨_, hloop, Option.bind_eq_some_iff.mpr ⟨_, hstore, hend⟩⟩
  · rw [parseline, if_neg hguard]
    rcases hle.lt_or_eq with hlt | heq
    · exact (congrArg (Option.bind · _) (hfull hlt)).trans rfl
    · obtain ⟨argv₁, junk, hloop, -⟩ := hroom heq.ge
      refine (congrArg (Option.bind · _) hloop).trans ?_
      exact (congrArg (Option.bind · _) (store_none argv₁ hle none)).trans rfl

end Parse

/-! ## Rendered command lines -/

/-- An argument as it is written: as it is, or between single quotes. -/
structure Written : Type where
  /-- the argument -/
  text : CStr
  /-- it stands between single quotes -/
  quoted : Bool
  /-- no character of it is taken for something else -/
  plain : 10 ∉ text ∧ 0 ∉ text ∧
    if quoted = true then 39 ∉ text else text ≠ [] ∧ 32 ∉ text ∧ text.head? ≠ some 39

/-- The characters of an argument. -/
def Written.render (a : Written) : CStr := if a.quoted = true then 39 :: a.text ++ [39] else a.text

/-- Arguments, each with a number of spaces: those behind the last one, and those
behind another one beyond the first. -/
def renderArgs : List (Written × ℕ) → CStr
  | [] => [10]
  | [(a, k)] => a.render ++ List.replicate k 32 ++ [10]
  | (a, k) :: as => a.render ++ List.replicate (k + 1) 32 ++ renderArgs as

/-- A command line with `lead` leading spaces. -/
def renderLine (lead : ℕ) (as : List (Written × ℕ)) : CStr :=
  List.replicate lead 32 ++ renderArgs as

section Render

variable {c : UInt8} {arg rest : CStr}

theorem scan_replicate (k : ℕ) (rest : CStr) :
    scan none (List.replicate k 32 ++ rest) = scan none rest := by
  induction k with
  | zero => rfl
  | succ k ih =>
    rw [List.replicate_succ, List.cons_append, scan, if_pos rfl]
    exact ih

/-- An argument reaches to the next `c`. -/
theorem scan_append {more : CStr} (h : c ∉ more) :
    scan (some (c, arg)) (more ++ c :: rest) = (arg ++ more) :: scan none rest := by
  induction more generalizing arg with
  | nil => rw [List.nil_append, scan, if_pos rfl, List.append_nil]
  | cons b more ih =>
    obtain ⟨hb, hmore⟩ := not_or.mp (mt List.mem_cons.mpr h)
    rw [List.cons_append, scan, if_neg (Ne.symm hb), ih hmore, List.append_assoc]
    rfl

/-- A written argument is read back. -/
theorem scan_render (a : Written) (rest : CStr) :
    scan none (a.render ++ 32 :: rest) = a.text :: scan none rest := by
  obtain ⟨text, quoted, -, -, h⟩ := a
  cases quoted with
  | true =>
    rw [Written.render, if_pos rfl, List.cons_append, List.cons_append, scan, if_neg (by decide),
      if_pos rfl, List.append_assoc]
    exact (scan_append h).trans rfl
  | false =>
    obtain ⟨hne, hspace, hquote⟩ := h
    rw [Written.render, if_neg Bool.false_ne_true]
    cases text with
    | nil => exact absurd rfl hne
    | cons b text =>
      obtain ⟨hb, hspace⟩ := not_or.mp (mt List.mem_cons.mpr hspace)
      have hb' : b ≠ 39 := fun he => hquote (congrArg some he)
      rw [List.cons_append, scan, if_neg (Ne.symm hb), if_neg hb']
      exact scan_append hspace

theorem renderArgs_ne_nil (as : List (Written × ℕ)) : renderArgs as ≠ [] := by
  match as with
  | [] => exact List.cons_ne_nil _ _
  | [(a, k)] => simp [renderArgs]
  | (a, k) :: b :: as => simp [renderArgs]

theorem scan_renderArgs (as : List (Written × ℕ)) :
    scan none ((renderArgs as).dropLast ++ [32]) = as.map fun a => a.1.text := by
  match as with
  | [] => rfl
  | [(a, k)] =>
    have hspaces : List.replicate k 32 ++ [32] = 32 :: List.replicate k (32 : UInt8) :=
      List.replicate_succ'.symm.trans List.replicate_succ
    rw [renderArgs, List.dropLast_concat, List.append_assoc, hspaces, scan_render,
      ← List.append_nil (List.replicate k 32), scan_replicate]
    rfl
  | (a, k) :: b :: as =>
    have ih := scan_renderArgs (b :: as)
    rw [renderArgs, List.dropLast_append_of_ne_nil (renderArgs_ne_nil _), List.append_assoc,
      List.append_assoc, List.replicate_succ, List.cons_append, scan_render, scan_replicate, ih]
    rfl
    exact fun h => List.cons_ne_nil _ _ h

/-- The arguments of a rendered line. -/
theorem arguments_renderLine (lead : ℕ) (as : List (Written × ℕ)) :
    arguments (renderLine lead as) = as.map fun a => a.1.text := by
  rw [arguments, renderLine, List.dropLast_append_of_ne_nil (renderArgs_ne_nil _),
    List.append_assoc, scan_replicate, scan_renderArgs]

end Render

/-- **`parseline` recovers the arguments** of a rendered line, and leaves the last one
out if it begins with `&`. -/
theorem parseline_renderLine (argv : Argv) (lead : ℕ) (as : List (Written × ℕ)) (hne : as ≠ [])
    (hargs : as.length ≤ 127) (hlen : (renderLine lead as).length < maxLine) :
    ∃ argv' junk, parseline argv (renderLine lead as) =
        some (background (as.map fun a => a.1.text), argv') ∧
      argv'.slots = (if background (as.map fun a => a.1.text) = true then
          (as.map fun a => some a.1.text).dropLast ++ [none, none]
        else (as.map fun a => some a.1.text) ++ [none]) ++ junk := by
  have hfits : Fits (renderLine lead as) :=
    ⟨List.append_ne_nil_of_right_ne_nil _ (renderArgs_ne_nil as), hlen⟩
  have hroom : (arguments (renderLine lead as)).length < maxArgs := by
    rw [arguments_renderLine, List.length_map]
    exact Nat.lt_succ_of_le hargs
  obtain ⟨argv', junk, hparse, hslots⟩ := (parseline_spec argv hfits).1 hroom
  rw [arguments_renderLine] at hparse hslots
  refine ⟨argv', junk, ?_, ?_⟩
  · rw [hparse, decide_eq_false (by simpa using hne), Bool.false_or]
  · rw [hslots, kept]
    cases background (as.map fun a => a.1.text) with
    | true => simp [List.map_dropLast, Function.comp_def]
    | false => simp [Function.comp_def]

/-- An argument in quotes, and one that puts the job into the background. -/
theorem parseline_renderLine_amp : ∃ argv' junk,
    parseline ⟨List.replicate maxArgs none, List.length_replicate⟩
        (ascii " echo 'a b' &\n") = some (true, argv') ∧
      argv'.slots = [some (ascii "echo"), some (ascii "a b"), none, none] ++ junk :=
  parseline_renderLine ⟨List.replicate maxArgs none, List.length_replicate⟩ 1
    [(⟨ascii "echo", false, by decide⟩, 0), (⟨ascii "a b", true, by decide⟩, 0),
      (⟨ascii "&", false, by decide⟩, 0)] (by decide) (by decide) (by decide)

end Shell

end SysProgLab
