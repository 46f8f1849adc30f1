import SysProgLab.PtreeRuns

/-!
# The second ptree module: `.dbfs_ptree_2.c`

Here the text is kept in one array of `LENGTH_MAX` bytes. Each line is put in front of what
the array holds by printing the array as a format, and `length_total` counts the lines. A
write copies its bytes over an array of the stack, and reads the pid there. Where the digits of
the pid end with another byte of the write, what the stack holds makes no difference, nor what
was written and read before: `ptree` then holds the ancestry of the last pid exactly if it is
shorter than the array and no command below the root has a `%` (`served_iff`).
-/

namespace SysProgLab

/-- `LENGTH_MAX` -/
abbrev lengthMax : ℕ := 1000

/-- What `snprintf` makes of a string as its own format, without arguments; what follows a
`%` other than a second one takes an argument that is not there, or is no directive. -/
def formatted : CStr → Option CStr
  | [] => some []
  | 37 :: 37 :: s => (formatted s).map (37 :: ·)
  | b :: s => if b = 37 then none else (formatted s).map (b :: ·)

/-- `isspace` of the kernel, for which a no-break space is one. -/
def isBlank (b : UInt8) : Bool := isSpace b || b = 160

/-- `sscanf(s, "%u", &input_pid)`: the number behind the blanks, whose low 32 bits are stored, or
the `old` value of `input_pid` when there is none; `none` when `s` ends before the number does. -/
def sscanfPid (s : List UInt8) (old : ℤ) : Option ℤ :=
  match s.dropWhile isBlank with
  | [] => none
  | b :: s =>
    if isDigit b = false then some old
    else if s.all isDigit then none
    else some ((atoiDigits 0 (b :: s)).bmod (2 ^ 32))

/-- `pid_task(find_get_pid(pid), PIDTYPE_PID)` -/
def Forest.pidTask (F : Forest) (pid : ℤ) : Option Task := if pid < 0 then none else F.task pid.toNat

/-- `out_str` and `length_total` -/
structure Ptree2 : Type where
  /-- `out_str` -/
  outStr : List UInt8
  /-- `length_total` -/
  lengthTotal : ℕ

namespace Ptree2

/-- What the variables of a call hold before anything is stored in them. -/
structure Stack : Type where
  /-- `temp_str` -/
  tempStr : List UInt8
  /-- `input_pid` -/
  inputPid : ℤ
  size : tempStr.length = lengthMax

/-- The string in `out_str`. -/
def text (s : Ptree2) : CStr := s.outStr.takeWhile fun b => decide (b ≠ 0)

/-- `strcpy(out_str, temp_str)` -/
def store (outStr : List UInt8) (temp : CStr) : List UInt8 := temp ++ 0 :: outStr.drop (temp.length + 1)

/-- The loop of `write_pid_to_input`. -/
def writeLoop (F : Forest) : ℕ → ℕ → Ptree2 → Option Ptree2
  | 0, _, _ => none
  | fuel + 1, curr, s =>
    if curr = 0 then some s
    else do
      let t ← F.task curr
      let new := line t.comm curr
      let old ← formatted s.text
      let temp := new ++ old.take (lengthMax - new.length - 1)
      writeLoop F fuel t.parent ⟨store s.outStr temp, s.lengthTotal + new.length⟩

/-- The state that every write starts from. -/
def cleared : Ptree2 := ⟨List.replicate lengthMax 0, 0⟩

/-- `write_pid_to_input` of the bytes `userBuffer`, where `copies` tells whether
`copy_from_user` succeeds; -14 and -22 are `-EFAULT` and `-EINVAL`. A buffer longer than
`temp_str` is written over its end. -/
def writePidToInput (F : Forest) (stack : Stack) (s : Ptree2) (userBuffer : List UInt8)
    (copies : Bool) : Option (ℤ × Ptree2) :=
  let s := { s with lengthTotal := 0 }
  let s := { s with outStr := List.replicate lengthMax 0 }
  if lengthMax < userBuffer.length then none
  else if copies = false then some (-14, s)
  else do
    let tempStr := userBuffer ++ stack.tempStr.drop userBuffer.length
    let inputPid ← sscanfPid tempStr stack.inputPid
    match F.pidTask inputPid with
    | none => some (-22, s)
    | some _ =>
      (writeLoop F (F.depth inputPid.toNat + 1) inputPid.toNat s).map fun s =>
        ((userBuffer.length : ℤ), s)

/-- `read_output`: the bytes that are copied and the new position; `none` when they are
taken from behind the array. -/
def readOutput (s : Ptree2) (length position : ℕ) : Option (List UInt8 × ℕ) :=
  let r := Ptree.simpleReadFromBuffer length position s.outStr s.lengthTotal
  if r.2 = position ∨ r.2 ≤ s.outStr.length then some r else none

end Ptree2

/-! ## A string as its own format -/

section

variable {s t : CStr}

theorem formatted_cons {b : UInt8} (hb : b ≠ 37) (s : CStr) :
    formatted (b :: s) = (formatted s).map (b :: ·) := by
  rw [formatted, if_neg hb]
  exact fun s' h _ => hb h

theorem formatted_eq (h : 37 ∉ s) : formatted s = some s := by
  induction s with
  | nil => rfl
  | cons b s ih =>
    rw [List.mem_cons, not_or] at h
    rw [formatted_cons (Ne.symm h.1), ih h.2, Option.map_some]

/-- **A directive** makes the text shorter. -/
theorem length_formatted (h : formatted s = some t) :
    t.length ≤ s.length ∧ (s.length ≤ t.length → 37 ∉ s ∧ t = s) := by
  induction s using formatted.induct generalizing t with
  | case1 =>
    cases h
    exact ⟨le_rfl, fun _ => ⟨List.not_mem_nil, rfl⟩⟩
  | case2 s ih =>
    rw [formatted] at h
    obtain ⟨u, hu, rfl⟩ := Option.map_eq_some_iff.mp h
    have hle := (ih hu).1
    rw [List.length_cons, List.length_cons, List.length_cons]
    exact ⟨by omega, fun he => by omega⟩
  | case3 s hnot =>
    rw [formatted, if_pos rfl] at h
    · cases h
    · exact hnot
  | case4 b s _ hb ih =>
    rw [formatted_cons hb] at h
    obtain ⟨u, hu, rfl⟩ := Option.map_eq_some_iff.mp h
    obtain ⟨hle, heq⟩ := ih hu
    rw [List.length_cons, List.length_cons]
    refine ⟨Nat.succ_le_succ hle, fun he => ?_⟩
    obtain ⟨hnone, rfl⟩ := heq (Nat.le_of_succ_le_succ he)
    exact ⟨List.not_mem_cons_of_ne_of_not_mem (Ne.symm hb) hnone, rfl⟩

theorem mem_of_formatted {b : UInt8} (h : formatted s = some t) (hb : b ∈ t) : b ∈ s := by
  induction s using formatted.induct generalizing t with
  | case1 =>
    cases h
    exact hb
  | case2 s ih =>
    rw [formatted] at h
    obtain ⟨u, hu, rfl⟩ := Option.map_eq_some_iff.mp h
    rcases List.mem_cons.mp hb with rfl | hb
    · exact List.mem_cons_self
    · exact List.mem_cons_of_mem _ (List.mem_cons_of_mem _ (ih hu hb))
  | case3 s hnot =>
    rw [formatted, if_pos rfl] at h
    · cases h
    · exact hnot
  | case4 c s _ hc ih =>
    rw [formatted_cons hc] at h
    obtain ⟨u, hu, rfl⟩ := Option.map_eq_some_iff.mp h
    rcases List.mem_cons.mp hb with rfl | hb
    · exact List.mem_cons_self
    · exact List.mem_cons_of_mem _ (ih hu hb)

end

/-! ## The array -/

namespace Ptree2

variable {F : Forest} {s s' : Ptree2} {pid : ℕ} {t : Task} {T out : List UInt8}

/-- The array holds the string, and zeros after it. -/
def Holds (s : Ptree2) (T : List UInt8) : Prop :=
  s.outStr = T ++ List.replicate (lengthMax - T.length) 0 ∧ s.lengthTotal = T.length

/-- The string ends inside the array. -/
structure Bounded (s : Ptree2) : Prop where
  size : s.outStr.length = lengthMax
  text : s.text.length < lengthMax

theorem text_append (hT : 0 ∉ T) (out : List UInt8) :
    (T ++ 0 :: out).takeWhile (fun b => decide (b ≠ 0)) = T := by
  have hne : ∀ b ∈ T, decide (b ≠ 0) = true := fun b hb => decide_eq_true fun e => hT (e ▸ hb)
  rw [List.takeWhile_append_of_pos hne]
  simp

theorem length_store (h : T.length < out.length) : (store out T).length = out.length := by
  rw [store, List.length_append, List.length_cons, List.length_drop]
  omega

/-- A string with zeros after it is overwritten by a longer one. -/
theorem Holds.store (h : s.Holds T) (new : CStr) (hlt : (new ++ T).length < lengthMax) :
    Holds ⟨store s.outStr (new ++ T), s.lengthTotal + new.length⟩ (new ++ T) := by
  rw [List.length_append] at hlt
  refine ⟨?_, ?_⟩
  · dsimp only
    rw [Ptree2.store, h.1, List.drop_append, List.drop_of_length_le (by
      rw [List.length_append]; omega), List.nil_append, List.drop_replicate,
      ← List.replicate_succ]
    congr 2
    rw [List.length_append]
    omega
  · dsimp only
    rw [h.2, List.length_append, Nat.add_comm]

theorem Holds.text_eq (h : s.Holds T) (hT : 0 ∉ T) (hlt : T.length < lengthMax) : s.text = T := by
  obtain ⟨n, hn⟩ := Nat.exists_eq_add_one.mpr (Nat.sub_pos_of_lt hlt)
  rw [Ptree2.text, h.1, hn, List.replicate_succ, text_append hT]

end Ptree2

/-! ## The lines of a process -/

namespace Forest

variable {F : Forest} {pid : ℕ} {t : Task}

/-- **The text fits** in the array, and only the line of the root may have a `%`. -/
structure Plain (F : Forest) (pid : ℕ) : Prop where
  short : (F.output pid).length < lengthMax
  percent : ∀ l ∈ (F.ancestry pid).tail, 37 ∉ l

/-- The lines below the root: all of them but that of a process whose parent is pid 0. -/
theorem tail_ancestry (ht : F.task pid = some t) :
    (F.ancestry pid).tail = if t.parent = 0 then [] else
      (F.ancestry t.parent).tail ++ [line t.comm pid] := by
  rw [ancestry_of_task ht]
  split
  · next h0 =>
    rw [h0, ancestry_of_none F.idle]
    rfl
  · next h0 =>
    obtain ⟨u, hu⟩ := Option.isSome_iff_exists.mp (F.parent_live pid t ht h0)
    have hne : F.ancestry t.parent ≠ [] := by
      rw [ancestry_of_task hu]
      exact List.append_ne_nil_of_right_ne_nil _ (List.cons_ne_nil _ _)
    rw [List.tail_append_of_ne_nil hne]

end Forest

namespace Ptree2

variable {F : Forest} {s s' : Ptree2} {pid : ℕ} {t : Task} {T : List UInt8}

/-- The loop puts the lines of a plain process in front of the text. -/
theorem writeLoop_plain {n : ℕ} : ∀ {pid : ℕ} {s : Ptree2} {T : List UInt8}, F.depth pid = n →
    (pid ≠ 0 → ∃ t, F.task pid = some t) → s.Holds T → 0 ∉ T →
    (F.output pid ++ T).length < lengthMax → (∀ l ∈ (F.ancestry pid).tail, 37 ∉ l) →
    (pid ≠ 0 → 37 ∉ T) →
    ∃ s', writeLoop F (n + 1) pid s = some s' ∧ s'.Holds (F.output pid ++ T) := by
  induction n with
  | zero =>
    intro pid s T hn hpid hs _ _ _ _
    by_cases h0 : pid = 0
    · subst h0
      rw [Forest.output_idle]
      exact ⟨s, rfl, hs⟩
    · obtain ⟨t, ht⟩ := hpid h0
      have := F.depth_parent pid t ht
      omega
  | succ n ih =>
    intro pid s T hn hpid hs hT hlt hpercent hT37
    by_cases h0 : pid = 0
    · subst h0
      rw [Forest.output_idle]
      exact ⟨s, rfl, hs⟩
    obtain ⟨t, ht⟩ := hpid h0
    rw [Forest.output_of_task ht, List.append_assoc] at hlt ⊢
    have hroom : (line t.comm pid ++ T).length < lengthMax := by
      rw [List.length_append] at hlt
      omega
    have hshort : T.length < lengthMax := by
      rw [List.length_append] at hroom
      omega
    have htemp : T.take (lengthMax - (line t.comm pid).length - 1) = T := by
      rw [List.length_append] at hroom
      exact List.take_of_length_le (by omega)
    rw [writeLoop, if_neg h0, ht, Option.bind_eq_bind, Option.bind_some, hs.text_eq hT hshort,
      formatted_eq (hT37 h0), Option.bind_eq_bind, Option.bind_some, htemp]
    rw [Forest.tail_ancestry ht] at hpercent
    have hdepth : F.depth t.parent = n := by
      have := F.depth_parent pid t ht
      omega
    refine ih hdepth (fun hne => Option.isSome_iff_exists.mp (F.parent_live pid t ht hne))
      (hs.store _ hroom) ?_ hlt ?_ ?_
    · rw [List.mem_append, not_or]
      exact ⟨Forest.line_nul ht, hT⟩
    · intro l hl
      by_cases hp : t.parent = 0
      · rw [hp, Forest.ancestry_of_none F.idle] at hl
        cases hl
      · rw [if_neg hp] at hpercent
        exact hpercent l (List.mem_append_left _ hl)
    · intro hp
      rw [if_neg hp] at hpercent
      rw [List.mem_append, not_or]
      exact ⟨hpercent _ (List.mem_append_right _ (List.mem_singleton_self _)), hT37 h0⟩

theorem text_nul (s : Ptree2) : 0 ∉ s.text := fun h => by
  have hall := List.all_takeWhile (l := s.outStr) (p := fun b => decide (b ≠ 0))
  exact of_decide_eq_true (List.all_eq_true.mp hall 0 h) rfl

/-- **The loop counts every line**, but no byte that a directive or the end of the array
takes away comes back. -/
theorem writeLoop_counts {n : ℕ} : ∀ {pid : ℕ} {s : Ptree2}, F.depth pid = n →
    (pid ≠ 0 → ∃ t, F.task pid = some t) → s.Bounded → s.text.length ≤ s.lengthTotal →
    writeLoop F (n + 1) pid s = some s' →
    s'.Bounded ∧ s'.lengthTotal = s.lengthTotal + (F.output pid).length ∧
      s'.text.length ≤ s'.lengthTotal ∧ (s'.lengthTotal ≤ s'.text.length →
        s.lengthTotal ≤ s.text.length ∧ (pid ≠ 0 → 37 ∉ s.text) ∧
          ∀ l ∈ (F.ancestry pid).tail, 37 ∉ l) := by
  induction n with
  | zero =>
    intro pid s hn hpid hs hle h
    by_cases h0 : pid = 0
    · subst h0
      cases h
      rw [Forest.output_idle, Forest.ancestry_of_none F.idle]
      exact ⟨hs, rfl, hle, fun hge => ⟨hge, fun h0 => absurd rfl h0, fun _ hl => by cases hl⟩⟩
    · obtain ⟨t, ht⟩ := hpid h0
      have := F.depth_parent pid t ht
      omega
  | succ n ih =>
    intro pid s hn hpid hs hle h
    by_cases h0 : pid = 0
    · subst h0
      cases h
      rw [Forest.output_idle, Forest.ancestry_of_none F.idle]
      exact ⟨hs, rfl, hle, fun hge => ⟨hge, fun h0 => absurd rfl h0, fun _ hl => by cases hl⟩⟩
    obtain ⟨t, ht⟩ := hpid h0
    rw [writeLoop, if_neg h0, ht, Option.bind_eq_bind, Option.bind_some] at h
    obtain ⟨old, hold, h⟩ := Option.bind_eq_some_iff.mp h
    have hfit := Forest.line_fits ht
    obtain ⟨new, hnew⟩ : ∃ new, new = line t.comm pid := ⟨_, rfl⟩
    obtain ⟨temp, htemp⟩ : ∃ temp, temp = new ++ old.take (lengthMax - new.length - 1) := ⟨_, rfl⟩
    rw [← hnew] at h hfit
    dsimp only at h
    rw [← htemp] at h
    have hnul : 0 ∉ temp := by
      rw [htemp, hnew, List.mem_append, not_or]
      exact ⟨Forest.line_nul ht, fun hmem =>
        s.text_nul (mem_of_formatted hold (List.mem_of_mem_take hmem))⟩
    have hlen : temp.length < lengthMax := by
      have hroom : maxLen ≤ lengthMax := by decide
      rw [htemp, List.length_append, List.length_take]
      omega
    obtain ⟨s₁, hs₁⟩ : ∃ s₁ : Ptree2, s₁ = ⟨store s.outStr temp, s.lengthTotal + new.length⟩ :=
      ⟨_, rfl⟩
    have htext : s₁.text = temp := by rw [hs₁, text, store, text_append hnul]
    have hbounded : s₁.Bounded := by
      refine ⟨?_, by rw [htext]; exact hlen⟩
      rw [hs₁]
      exact (length_store (by rw [hs.size]; exact hlen)).trans hs.size
    obtain ⟨hshrink, hsame⟩ := length_formatted hold
    have htake : (old.take (lengthMax - new.length - 1)).length ≤ old.length := by
      rw [List.length_take]
      exact Nat.min_le_right ..
    have hdepth : F.depth t.parent = n := by
      have := F.depth_parent pid t ht
      omega
    rw [← hs₁] at h
    have htotal : s₁.lengthTotal = s.lengthTotal + new.length := by rw [hs₁]
    have htemplen : temp.length = new.length + (old.take (lengthMax - new.length - 1)).length := by
      rw [htemp, List.length_append]
    obtain ⟨hb, hsum, hle', hfull⟩ := ih hdepth
      (fun hne => Option.isSome_iff_exists.mp (F.parent_live pid t ht hne)) hbounded
      (by rw [htext, htotal]; omega) h
    refine ⟨hb, ?_, hle', fun hge => ?_⟩
    · rw [hsum, htotal, Forest.output_of_task ht, List.length_append, ← hnew]
      omega
    · obtain ⟨hge₁, hparent, htail⟩ := hfull hge
      rw [htext, htotal] at hge₁
      obtain ⟨hnone, -⟩ := hsame (by omega)
      refine ⟨by omega, fun _ => hnone, ?_⟩
      rw [Forest.tail_ancestry ht]
      split
      · exact fun _ hl => by cases hl
      · next hp =>
        intro l hl
        rcases List.mem_append.mp hl with hl | hl
        · exact htail l hl
        · rw [List.mem_singleton.mp hl, ← hnew]
          have h37 := hparent hp
          rw [htext, htemp, List.mem_append, not_or] at h37
          exact h37.1

/-! ## Reads -/

/-- **`ptree` reads as the text `T`**, wherever and as much as is read. -/
def Serves (s : Ptree2) (T : List UInt8) : Prop :=
  ∀ length position, s.readOutput length position =
    some ((T.drop position).take length, position + ((T.drop position).take length).length)

theorem Holds.serves (h : s.Holds T) (hlt : T.length ≤ lengthMax) : s.Serves T := by
  intro length position
  rw [readOutput, Ptree.simpleReadFromBuffer, h.2]
  split
  · next hend =>
    have hnil : (T.drop position).take length = [] := by
      rcases hend with hend | rfl
      · rw [List.drop_eq_nil_of_le hend, List.take_nil]
      · exact List.take_zero
    rw [if_pos (.inl rfl), hnil]
    rfl
  · next hend =>
    rw [not_or, Nat.not_le] at hend
    have hsize : s.outStr.length = lengthMax := by
      rw [h.1, List.length_append, List.length_replicate]
      omega
    have hcopy : (s.outStr.drop position).take (min length (T.length - position)) =
        (T.drop position).take length := by
      rw [h.1, List.drop_append_of_le_length (by omega), List.take_append_of_le_length (by
        rw [List.length_drop]
        omega), ← List.length_drop, ← List.take_eq_take_min]
    rw [if_pos (.inr (by dsimp only; omega)), hcopy, List.length_take, List.length_drop]

/-- What is read is in the array. -/
theorem Serves.take (h : s.Serves T) (htotal : s.lengthTotal = T.length) (hpos : 0 < T.length) :
    s.outStr.take T.length = T := by
  have hbuf : Ptree.simpleReadFromBuffer T.length 0 s.outStr s.lengthTotal =
      (s.outStr.take T.length, T.length) := by
    rw [Ptree.simpleReadFromBuffer, htotal, if_neg (by omega), List.drop_zero, Nat.sub_zero,
      Nat.min_self, Nat.zero_add]
  have hread := h T.length 0
  rw [readOutput, hbuf] at hread
  obtain ⟨-, hread⟩ := Option.ite_none_right_eq_some.mp hread
  rw [List.drop_zero, List.take_length] at hread
  exact congrArg Prod.fst (Option.some.inj hread)

theorem text_cleared : text cleared = [] := by
  rw [text, cleared, lengthMax, List.replicate_succ]
  rfl

theorem bounded_cleared : Bounded cleared where
  size := List.length_replicate
  text := by
    rw [text_cleared]
    decide

theorem holds_cleared : Holds cleared [] := ⟨rfl, rfl⟩

/-! ## Writes -/

/-- What follows the digits of a pid begins with a byte that is none. -/
def Ended (rest : List UInt8) : Prop := ∃ b s, rest = b :: s ∧ isDigit b = false

/-- A pid is read up to the byte after its digits. -/
theorem sscanfPid_decimal (n : ℕ) {rest : List UInt8} (hrest : Ended rest) (s : List UInt8)
    (old : ℤ) : sscanfPid (decimal n ++ rest ++ s) old = some ((n : ℤ).bmod (2 ^ 32)) := by
  obtain ⟨b, rest, rfl, hb⟩ := hrest
  obtain ⟨c, ds, hcons, hc⟩ := decimal_eq_cons n
  have hblank : isBlank c = false := by
    have h160 : c ≠ 160 := by rintro rfl; cases hc
    rw [isBlank, isSpace_of_isDigit hc, Bool.false_or]
    exact decide_eq_false h160
  have hvalue : atoiDigits 0 (decimal n ++ b :: (rest ++ s)) = n := by
    rw [atoiDigits_append hb, atoiDigits_decimal]
  have hall : (ds ++ b :: (rest ++ s)).all isDigit = false := by simp [hb]
  rw [List.append_assoc, List.cons_append, ← hvalue, hcons, List.cons_append, sscanfPid,
    List.dropWhile_cons_of_neg (by simp [hblank])]
  dsimp only
  rw [if_neg (by simp [hc]), if_neg (by simp [hall])]

/-- The number that is stored names the process, or none. -/
theorem pidTask_bmod (F : Forest) (hpid : pid < 2 ^ 32) :
    F.pidTask ((pid : ℤ).bmod (2 ^ 32)) = F.task pid ∧
      ∀ t, F.task pid = some t → ((pid : ℤ).bmod (2 ^ 32)).toNat = pid := by
  have hlow : pid < 2 ^ 31 → (pid : ℤ).bmod (2 ^ 32) = pid := fun h =>
    Int.bmod_eq_of_le (by omega) (by omega)
  refine ⟨?_, fun t ht => ?_⟩
  · by_cases hint : pid < 2 ^ 31
    · rw [hlow hint, Forest.pidTask, if_neg (by omega), Int.toNat_natCast]
    · have hnone : F.task pid = none := by
        by_contra hne
        obtain ⟨t, ht⟩ := Option.ne_none_iff_exists'.mp hne
        have := F.pid_lt pid t ht
        omega
      have hneg : (pid : ℤ).bmod (2 ^ 32) < 0 := by
        rw [Int.bmod_def]
        omega
      rw [Forest.pidTask, if_pos hneg, hnone]
  · have := F.pid_lt pid t ht
    rw [hlow (by omega), Int.toNat_natCast]

/-- A buffer that holds a pid and the byte after it, and fits. -/
structure Written (pid : ℕ) (rest : List UInt8) : Prop where
  ended : Ended rest
  small : pid < 2 ^ 32
  fits : (decimal pid ++ rest).length ≤ lengthMax

/-- **A write** of a pid: neither the stack nor the state before it makes a difference. -/
theorem writePidToInput_pid {rest : List UInt8} (h : Written pid rest) (stack : Stack)
    (s : Ptree2) :
    writePidToInput F stack s (decimal pid ++ rest) true =
      match F.task pid with
      | none => some (-22, cleared)
      | some _ => (writeLoop F (F.depth pid + 1) pid cleared).map fun s =>
          (((decimal pid ++ rest).length : ℤ), s) := by
  obtain ⟨hlook, hpid⟩ := pidTask_bmod F h.small
  rw [writePidToInput, if_neg (Nat.not_lt.mpr h.fits), if_neg (by decide)]
  dsimp only
  rw [sscanfPid_decimal pid h.ended, Option.bind_eq_bind, Option.bind_some, hlook]
  cases ht : F.task pid with
  | none => rfl
  | some t =>
    dsimp only
    rw [hpid t ht]
    rfl

/-- After a write of a plain process, `ptree` reads as its text. -/
theorem served_of_plain {rest : List UInt8} (ht : F.task pid = some t) (hw : Written pid rest)
    (h : F.Plain pid) (stack : Stack) (s : Ptree2) :
    ∃ s', writePidToInput F stack s (decimal pid ++ rest) true =
        some (((decimal pid ++ rest).length : ℤ), s') ∧ s'.Serves (F.output pid) := by
  obtain ⟨s', hloop, hs⟩ := writeLoop_plain rfl (fun _ => ⟨t, ht⟩) holds_cleared List.not_mem_nil
    (by rw [List.append_nil]; exact h.short) h.percent fun _ => List.not_mem_nil
  rw [List.append_nil] at hs
  exact ⟨s', by rw [writePidToInput_pid hw, ht, hloop]; rfl, hs.serves h.short.le⟩

/-- **The second module is exact** for the pids whose text fits into the array and where no
command below the root has a `%`, and for no others. The digits of the pid end inside the
buffer that is written; then what was written before, and what the stack holds, makes no
difference. -/
theorem served_iff {rest : List UInt8} (ht : F.task pid = some t) (hrest : Ended rest)
    (hfits : (decimal pid ++ rest).length ≤ lengthMax) (stack : Stack) (s : Ptree2) :
    (∃ s', writePidToInput F stack s (decimal pid ++ rest) true =
        some (((decimal pid ++ rest).length : ℤ), s') ∧ s'.Serves (F.output pid)) ↔
      F.Plain pid := by
  have hw : Written pid rest := ⟨hrest, by have := F.pid_lt pid t ht; omega, hfits⟩
  refine ⟨?_, fun h => served_of_plain ht hw h stack s⟩
  · rintro ⟨s, hs, hserves⟩
    rw [writePidToInput_pid hw, ht] at hs
    obtain ⟨s', hloop, e⟩ := Option.map_eq_some_iff.mp hs
    cases e
    obtain ⟨hb, htotal, -, hfull⟩ := writeLoop_counts rfl (fun _ => ⟨t, ht⟩) bounded_cleared
      (by rw [text_cleared]; exact le_rfl) hloop
    rw [cleared, Nat.zero_add] at htotal
    have htake := hserves.take htotal (Forest.output_pos ht)
    -- the text has no NUL, so all of it is in the string of the array
    have hfits : (F.output pid).length ≤ s.text.length := by
      have hne : ∀ b ∈ F.output pid, decide (b ≠ 0) = true := fun b hb =>
        decide_eq_true fun e => F.output_nul pid (e ▸ hb)
      rw [text, ← List.take_append_drop (F.output pid).length s.outStr, htake,
        List.takeWhile_append_of_pos hne, List.length_append]
      exact Nat.le_add_right ..
    obtain ⟨-, -, hpercent⟩ := hfull (by rw [htotal]; exact hfits)
    exact ⟨hfits.trans_lt hb.text, hpercent⟩

theorem plain_init : Ptree.initForest.Plain 1 := by
  have ht : Ptree.initForest.task 1 = some Ptree.initTask := rfl
  have hlines : Ptree.initForest.ancestry 1 = [line Ptree.initTask.comm 1] := by
    rw [Forest.ancestry_of_task ht, Ptree.initTask, Forest.ancestry_of_none Ptree.initForest.idle]
    rfl
  refine ⟨?_, ?_⟩
  · rw [Forest.output, hlines]
    decide +kernel
  · rw [hlines]
    exact fun _ hl => by cases hl

/-- A stack that still holds `77` from an earlier write. -/
def staleStack : Stack where
  tempStr := ascii "77\n" ++ List.replicate (lengthMax - 3) 0
  inputPid := -1
  size := by decide +kernel

/-- The bytes `1` and a newline are written. -/
theorem served_iff_init :
    ∃ s', writePidToInput Ptree.initForest staleStack ⟨List.replicate lengthMax 65, 12⟩
        (decimal 1 ++ [10]) true = some (((decimal 1 ++ [10]).length : ℤ), s') ∧
      s'.Serves (Ptree.initForest.output 1) :=
  (served_iff rfl ⟨10, [], rfl, rfl⟩ (by decide) staleStack _).mpr plain_init

-- without the newline, the digits go on in the stack
example : sscanfPid (decimal 1 ++ staleStack.tempStr.drop 1) (-1) = some 17 := by decide +kernel

/-! ## Runs -/

/-- A call on the files of the module. -/
inductive Call : Type where
  /-- a write of a pid and the bytes `rest` -/
  | write (stack : Stack) (inputPid : ℕ) (rest : List UInt8)
  /-- a read -/
  | read (length position : ℕ)

/-- The bytes that the reads of a run return. -/
def replay (F : Forest) : Ptree2 → List Call → Option (List (List UInt8))
  | _, [] => some []
  | s, .write stack inputPid rest :: calls => do
    let r ← writePidToInput F stack s (decimal inputPid ++ rest) true
    replay F r.2 calls
  | s, .read length position :: calls => do
    let r ← s.readOutput length position
    let outs ← replay F s calls
    some (r.1 :: outs)

/-- What they should return while `ptree` holds the text `T`; a pid that no process has
leaves nothing. -/
def expected (F : Forest) : List UInt8 → List Call → List (List UInt8)
  | _, [] => []
  | _, .write _ inputPid _ :: calls => expected F (F.output inputPid) calls
  | T, .read length position :: calls => (T.drop position).take length :: expected F T calls

/-- The buffer of a write fits, its pid ends inside it, and has a plain text or no process. -/
def Call.Fine (F : Forest) : Call → Prop
  | .write _ inputPid rest => Written inputPid rest ∧ F.Plain inputPid
  | .read _ _ => True

/-- A pid that no process has empties the file. -/
theorem writePidToInput_none {rest : List UInt8} (ht : F.task pid = none) (hw : Written pid rest)
    (stack : Stack) (s : Ptree2) :
    ∃ s', writePidToInput F stack s (decimal pid ++ rest) true = some (-22, s') ∧
      s'.Serves (F.output pid) := by
  refine ⟨cleared, by rw [writePidToInput_pid hw, ht], ?_⟩
  rw [Forest.output, Forest.ancestry_of_none ht]
  exact holds_cleared.serves (Nat.zero_le _)

/-- **Every read returns the text of the last write**, in any run of writes and reads of a
module just loaded. -/
theorem replay_expected {calls : List Call} (h : ∀ c ∈ calls, c.Fine F) :
    replay F cleared calls = some (expected F [] calls) := by
  have hall : ∀ (calls : List Call) (s : Ptree2) (T : List UInt8), s.Serves T →
      (∀ c ∈ calls, c.Fine F) → replay F s calls = some (expected F T calls) := by
    intro calls
    induction calls with
    | nil => exact fun _ _ _ _ => rfl
    | cons c calls ih =>
      intro s T hs h
      have hrest := fun c hc => h c (List.mem_cons_of_mem _ hc)
      cases c with
      | write stack inputPid rest =>
        obtain ⟨hw, hplain⟩ := h _ List.mem_cons_self
        obtain ⟨r, s', hwrite, hserves⟩ : ∃ r s',
            writePidToInput F stack s (decimal inputPid ++ rest) true = some (r, s') ∧
              s'.Serves (F.output inputPid) := by
          cases ht : F.task inputPid with
          | none =>
            obtain ⟨s', hwrite, hserves⟩ := writePidToInput_none ht hw stack s
            exact ⟨_, s', hwrite, hserves⟩
          | some t =>
            obtain ⟨s', hwrite, hserves⟩ := served_of_plain ht hw hplain stack s
            exact ⟨_, s', hwrite, hserves⟩
        rw [replay, hwrite]
        exact ih s' _ hserves hrest
      | read length position =>
        rw [replay, hs length position, Option.bind_eq_bind, Option.bind_some, ih s T hs hrest]
        rfl
  exact hall calls _ [] (holds_cleared.serves (Nat.zero_le _)) h

/-- Two writes of pid 1, the first of them read in two parts, and one of a pid without a
process. -/
def twoWrites : List Call :=
  [.write staleStack 1 [10], .read 3 0, .read 50 3, .write staleStack 1 [0], .read 50 0,
    .write staleStack 7 [10], .read 50 0]

theorem replay_expected_two : replay Ptree.initForest cleared twoWrites =
    some [[105, 32, 40], [49, 41, 10], [105, 32, 40, 49, 41, 10], []] := by
  have hnone : Ptree.initForest.Plain 7 := by
    have hlines : Ptree.initForest.ancestry 7 = [] := Forest.ancestry_of_none rfl
    refine ⟨?_, ?_⟩
    · rw [Forest.output, hlines]
      decide
    · rw [hlines]
      exact fun _ hl => by cases hl
  have hfine : ∀ c ∈ twoWrites, c.Fine Ptree.initForest := by
    intro c hc
    cases c with
    | read => exact trivial
    | write stack inputPid rest =>
      simp only [twoWrites, List.mem_cons, Call.write.injEq, reduceCtorEq, List.not_mem_nil,
        false_or, or_false] at hc
      rcases hc with ⟨-, rfl, rfl⟩ | ⟨-, rfl, rfl⟩ | ⟨-, rfl, rfl⟩
      · exact ⟨⟨⟨10, [], rfl, rfl⟩, by decide, by decide⟩, plain_init⟩
      · exact ⟨⟨⟨0, [], rfl, rfl⟩, by decide, by decide⟩, plain_init⟩
      · exact ⟨⟨⟨10, [], rfl, rfl⟩, by decide, by decide⟩, hnone⟩
  rw [replay_expected hfine]
  decide +kernel

end Ptree2

end SysProgLab
