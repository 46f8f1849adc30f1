import SysProgLab.Ptree

/-!
# What a reader of ptree gets

The messages are gone after one read call, and `total_len` never shrinks. So the
text is read exactly when it was written by the only write so far, no read came
in between, and the first buffer takes all of it.
-/

namespace SysProgLab

/-- A call on the files of the module. -/
inductive PtreeCall : Type where
  | write (inputPid length : ℕ) (kmalloc : ℕ → Bool)
  | read (length position : ℕ)

namespace PtreeCall

/-- The pid that a call writes. -/
def written : PtreeCall → Option ℕ
  | .write inputPid _ _ => some inputPid
  | .read _ _ => none

/-- Every call of `kmalloc` succeeds. -/
def Allocates (F : Forest) : PtreeCall → Prop
  | .write inputPid _ kmalloc => ∀ i < F.depth inputPid, kmalloc i = true
  | .read _ _ => True

/-- The pid written by the last write. -/
def lastWritten (hist : List PtreeCall) : Option ℕ := (hist.filterMap written).getLast?

/-- **What `ptree` should hold**: the ancestry of the pid that was written last. -/
def expected (F : Forest) (hist : List PtreeCall) : List UInt8 :=
  (lastWritten hist).elim [] F.output

/-- Nothing was written, or the only write is the last call. -/
def OnlyWriteLast (hist : List PtreeCall) : Prop :=
  lastWritten hist = none ∨
    ∃ pre c, hist = pre ++ [c] ∧ lastWritten pre = none ∧ (written c).isSome

end PtreeCall

namespace Ptree

open PtreeCall

variable {F : Forest} {s s' : Ptree} {pid k : ℕ} {kmalloc : ℕ → Bool} {hist : List PtreeCall}
  {out T : List UInt8}

/-- The state after a call. -/
def call (F : Forest) (s : Ptree) : PtreeCall → Option Ptree
  | .write inputPid length kmalloc => (s.writePidToInput F inputPid length kmalloc).map Prod.snd
  | .read length position => (s.readOutput length position).map fun r => r.2.2

/-- The state after a sequence of calls. -/
def run (F : Forest) (hist : List PtreeCall) : Option Ptree := Machine.exec (call F) init hist

/-- Consecutive reads from a position until one returns 0, and the bytes they return;
`none` when there are too few of them. -/
def session (s : Ptree) : List ℕ → ℕ → Option (List UInt8)
  | [], _ => none
  | length :: rest, position =>
    (s.readOutput length position).bind fun r =>
      if r.1 = [] then some [] else (session r.2.2 rest r.2.1).map fun out => r.1 ++ out

/-- The list holds the text `T`, and `total_len` is its length. -/
def Holds (s : Ptree) (T : List UInt8) : Prop := s.text = T ∧ s.totalLen = T.length

/-! ## Writes -/

theorem text_eq (s : Ptree) : s.text = (s.messageList.map MessageNode.message).flatten := by
  rw [text, List.foldl_append_eq_append, List.nil_append]

@[simp] theorem text_addNode (s : Ptree) (message : List UInt8) :
    (s.addNode message).text = message ++ s.text := by
  simp [text_eq, addNode]

@[simp] theorem totalLen_addNode (s : Ptree) (message : List UInt8) :
    (s.addNode message).totalLen = s.totalLen + message.length := rfl

@[simp] theorem text_nil (n : ℕ) : text ⟨[], n⟩ = [] := rfl

/-- The loop puts the last lines of the chain in front, all of them unless memory
runs out, and counts their bytes. -/
theorem writeLoop_spec (kmalloc : ℕ → Bool) {n : ℕ} : ∀ {pid : ℕ} (k : ℕ) (s : Ptree),
    F.depth pid = n → (pid ≠ 0 → ∃ t, F.task pid = some t) →
    ∃ b s' U W, writeLoop F kmalloc (n + 1) k pid s = some (b, s') ∧
      F.output pid = U ++ W ∧ s'.text = W ++ s.text ∧ s'.totalLen = s.totalLen + W.length ∧
      ((∀ i < n, kmalloc (k + i) = true) → U = []) := by
  induction n with
  | zero =>
    intro pid k s hn hpid
    by_cases h0 : pid = 0
    · subst h0
      exact ⟨true, s, [], [], rfl, Forest.output_idle, rfl, rfl, fun _ => rfl⟩
    · obtain ⟨t, ht⟩ := hpid h0
      have := F.depth_parent pid t ht
      omega
  | succ n ih =>
    intro pid k s hn hpid
    by_cases h0 : pid = 0
    · subst h0
      exact ⟨true, s, [], [], rfl, Forest.output_idle, rfl, rfl, fun _ => rfl⟩
    obtain ⟨t, ht⟩ := hpid h0
    rw [writeLoop, if_neg h0, ht]
    cases hk : kmalloc k with
    | false =>
      refine ⟨false, s, F.output pid, [], by simp, by simp, rfl, rfl, fun hall => ?_⟩
      have := hall 0 (Nat.succ_pos n)
      rw [Nat.add_zero, hk] at this
      cases this
    | true =>
      have hdepth : F.depth t.parent = n := by
        have := F.depth_parent pid t ht
        omega
      obtain ⟨b, s', U, W, e, hout, htext, hlen, hU⟩ := ih (k + 1) (s.addNode (line t.comm pid))
        hdepth fun hne => Option.isSome_iff_exists.mp (F.parent_live pid t ht hne)
      refine ⟨b, s', U, W ++ line t.comm pid, by simpa using e, ?_, ?_, ?_, fun hall => hU ?_⟩
      · rw [Forest.output_of_task ht, hout, List.append_assoc]
      · rw [htext, text_addNode, List.append_assoc]
      · rw [hlen, totalLen_addNode, List.length_append]
        omega
      · intro i hi
        have := hall (i + 1) (by omega)
        rwa [show k + (i + 1) = k + 1 + i by omega] at this

theorem writePidToInput_null (s : Ptree) (length : ℕ) (kmalloc : ℕ → Bool)
    (h : F.task pid = none) : s.writePidToInput F pid length kmalloc = none := by
  rw [writePidToInput, h]

/-- **A write** puts text of the ancestry in front of what the list holds. -/
theorem writePidToInput_spec (s : Ptree) (length : ℕ) (kmalloc : ℕ → Bool) {t : Task}
    (ht : F.task pid = some t) :
    ∃ r s' U W, s.writePidToInput F pid length kmalloc = some (r, s') ∧
      F.output pid = U ++ W ∧ s'.text = W ++ s.text ∧ s'.totalLen = s.totalLen + W.length ∧
      (Allocates F (.write pid length kmalloc) → U = []) := by
  obtain ⟨b, s', U, W, e, hout, htext, hlen, hU⟩ :=
    writeLoop_spec kmalloc 0 s rfl fun _ => ⟨t, ht⟩
  refine ⟨if b then length else 0, s', U, W, ?_, hout, htext, hlen, fun hall => hU fun i hi => ?_⟩
  · rw [writePidToInput, ht]
    simp only [e, Option.map_some]
  · rw [Nat.zero_add]
    exact hall i hi

/-! ## Reads -/

/-- The bytes before `total_len` of the array that a read answers from. -/
def content (s : Ptree) : List UInt8 := s.text ++ List.replicate (s.totalLen - s.text.length) 0

theorem length_content (h : s.text.length ≤ s.totalLen) : s.content.length = s.totalLen := by
  rw [content, List.length_append, List.length_replicate]
  omega

@[simp] theorem content_nil (n : ℕ) : content ⟨[], n⟩ = List.replicate n 0 := by
  rw [content, text_nil, List.nil_append, List.length_nil, Nat.sub_zero]

/-- **A read** copies from the content, and leaves no message. -/
theorem readOutput_spec (h : s.text.length ≤ s.totalLen) (length position : ℕ) :
    s.readOutput length position = some ((s.content.drop position).take length,
      position + ((s.content.drop position).take length).length, ⟨[], s.totalLen⟩) := by
  have htemp : s.text ++ List.replicate (s.totalLen + 1 - s.text.length) 0 = s.content ++ [0] := by
    rw [content, List.append_assoc, Nat.sub_add_comm h, List.replicate_succ']
  have hlen := length_content h
  simp only [readOutput, if_pos h, htemp, simpleReadFromBuffer]
  split
  · rename_i hend
    have hnil : (s.content.drop position).take length = [] := by
      rcases hend with hend | rfl
      · rw [List.drop_eq_nil_of_le (hlen ▸ hend), List.take_nil]
      · exact List.take_zero
    simp [hnil]
  · have hcopy : ((s.content ++ [0]).drop position).take (min length (s.totalLen - position)) =
        (s.content.drop position).take length := by
      rw [List.drop_append_of_le_length (by omega), List.take_append_of_le_length (by
        rw [List.length_drop]
        omega), ← hlen, ← List.length_drop, ← List.take_eq_take_min]
    simp [hcopy, hlen]

/-- Without messages a session returns NULs. -/
theorem session_nil {n : ℕ} : ∀ {ns : List ℕ} {position : ℕ} {out : List UInt8},
    (∀ m ∈ ns, 0 < m) → session ⟨[], n⟩ ns position = some out →
    out = List.replicate (n - position) 0 := by
  intro ns
  induction ns with
  | nil =>
    intro position out _ h
    cases h
  | cons m ns ih =>
    intro position out hpos h
    have hm : 0 < m := hpos m List.mem_cons_self
    have h0 : (text ⟨[], n⟩).length ≤ n := Nat.zero_le n
    simp only [session, readOutput_spec h0, Option.bind_some, content_nil, List.drop_replicate,
      List.take_replicate, List.length_replicate] at h
    by_cases hend : n ≤ position
    · rw [Nat.sub_eq_zero_of_le hend, Nat.min_zero, List.replicate_zero] at h
      rw [Nat.sub_eq_zero_of_le hend]
      exact (Option.some.inj h).symm
    · rw [if_neg (by simp; omega)] at h
      obtain ⟨rest, hrest, rfl⟩ := Option.map_eq_some_iff.mp h
      rw [ih (fun m hm => hpos m (List.mem_cons_of_mem _ hm)) hrest, ← List.replicate_add]
      congr 1
      omega

/-- **A session** returns what the first read takes of the content, and then NULs. -/
theorem session_eq (h : s.text.length ≤ s.totalLen) {n : ℕ} {ns : List ℕ} (hn : 0 < n)
    (hns : ∀ m ∈ ns, 0 < m) (hout : session s (n :: ns) 0 = some out) :
    out = s.content.take n ++ List.replicate (s.totalLen - n) 0 := by
  have hlen := length_content h
  simp only [session, readOutput_spec h, Option.bind_some, List.drop_zero, Nat.zero_add] at hout
  split at hout
  · rename_i hnil
    have h0 : s.totalLen = 0 := by
      have := congrArg List.length hnil
      rw [List.length_take, List.length_nil] at this
      omega
    rw [hnil, h0, Nat.zero_sub]
    exact (Option.some.inj hout).symm
  · obtain ⟨rest, hrest, rfl⟩ := Option.map_eq_some_iff.mp hout
    rw [session_nil hns hrest, List.length_take, hlen]
    congr 2
    omega

/-- Enough reads come to an end. -/
theorem session_isSome : ∀ {ns : List ℕ} {s : Ptree} {position : ℕ},
    s.text.length ≤ s.totalLen → (∀ n ∈ ns, 0 < n) → s.totalLen - position < ns.length →
    (session s ns position).isSome := by
  intro ns
  induction ns with
  | nil =>
    intro s position _ _ hlong
    exact absurd hlong (Nat.not_lt_zero _)
  | cons n ns ih =>
    intro s position h hpos hlong
    have hn : 0 < n := hpos n List.mem_cons_self
    have hlen := length_content h
    simp only [session, readOutput_spec h, Option.bind_some]
    split
    · rfl
    · rename_i hne
      have hread : 0 < ((s.content.drop position).take n).length := List.length_pos_of_ne_nil hne
      have hrest := hread
      rw [List.length_take, List.length_drop] at hrest
      rw [Option.isSome_map]
      refine ih (Nat.zero_le _) (fun m hm => hpos m (List.mem_cons_of_mem _ hm)) ?_
      rw [List.length_cons] at hlong
      dsimp only
      omega

/-- **A session returns the text exactly** when the list holds it, `total_len` is its
length and the first read takes all of it. -/
theorem session_iff (h : s.text.length ≤ s.totalLen) (hT : (0 : UInt8) ∉ T) {n : ℕ} {ns : List ℕ}
    (hn : 0 < n) (hns : ∀ m ∈ ns, 0 < m) (hout : session s (n :: ns) 0 = some out) :
    out = T ↔ s.Holds T ∧ T.length ≤ n := by
  have hlen := length_content h
  rw [session_eq h hn hns hout]
  constructor
  · rintro rfl
    have hle : s.totalLen ≤ n := by
      by_contra hlt
      refine hT (List.mem_append_right _ ?_)
      rw [List.mem_replicate]
      exact ⟨by omega, rfl⟩
    rw [Nat.sub_eq_zero_of_le hle, List.replicate_zero, List.append_nil,
      List.take_of_length_le (hlen.trans_le hle)] at hT ⊢
    have hfull : s.totalLen - s.text.length = 0 := by
      by_contra hlt
      refine hT (List.mem_append_right _ ?_)
      rw [List.mem_replicate]
      exact ⟨hlt, rfl⟩
    refine ⟨⟨?_, hlen.symm⟩, hlen.trans_le hle⟩
    rw [content, hfull, List.replicate_zero, List.append_nil]
  · rintro ⟨⟨rfl, htotal⟩, hle⟩
    rw [content, htotal, Nat.sub_self, Nat.sub_eq_zero_of_le hle, List.replicate_zero,
      List.append_nil, List.append_nil, List.take_of_length_le hle]

/-! ## Runs -/

theorem run_append (F : Forest) (hist : List PtreeCall) (c : PtreeCall) :
    run F (hist ++ [c]) = (run F hist).bind fun s => call F s c := by
  rw [run, Machine.exec_append]
  simp [Machine.exec, run]

theorem call_read (h : s.text.length ≤ s.totalLen) (length position : ℕ) :
    call F s (.read length position) = some ⟨[], s.totalLen⟩ := by
  rw [call, readOutput_spec h, Option.map_some]

/-- What a write that returns has done. -/
theorem call_write {length : ℕ} (h : call F s (.write pid length kmalloc) = some s') :
    ∃ t U W, F.task pid = some t ∧ F.output pid = U ++ W ∧ s'.text = W ++ s.text ∧
      s'.totalLen = s.totalLen + W.length ∧
      (Allocates F (.write pid length kmalloc) → U = []) := by
  cases ht : F.task pid with
  | none =>
    rw [call, writePidToInput_null s length kmalloc ht] at h
    cases h
  | some t =>
    obtain ⟨r, s₁, U, W, e, hspec⟩ := writePidToInput_spec s length kmalloc ht
    rw [call, e] at h
    obtain rfl : s₁ = s' := Option.some.inj h
    exact ⟨t, U, W, rfl, hspec⟩

/-- The messages always fit in the array of a read. -/
theorem run_fits (h : run F hist = some s) : s.text.length ≤ s.totalLen := by
  induction hist using List.reverseRecOn generalizing s with
  | nil =>
    obtain rfl : init = s := Option.some.inj h
    exact le_rfl
  | append_singleton hist c ih =>
    rw [run_append] at h
    obtain ⟨s₀, h₀, hc⟩ := Option.bind_eq_some_iff.mp h
    have hfits := ih h₀
    cases c with
    | read length position =>
      obtain rfl := Option.some.inj ((call_read hfits length position).symm.trans hc)
      exact Nat.zero_le _
    | write inputPid length kmalloc =>
      obtain ⟨t, U, W, -, -, htext, hlen, -⟩ := call_write hc
      rw [htext, hlen, List.length_append]
      omega

theorem lastWritten_read (hist : List PtreeCall) (length position : ℕ) :
    lastWritten (hist ++ [.read length position]) = lastWritten hist := by
  simp [lastWritten, written]

theorem lastWritten_write (hist : List PtreeCall) (pid length : ℕ) (kmalloc : ℕ → Bool) :
    lastWritten (hist ++ [.write pid length kmalloc]) = some pid := by
  simp [lastWritten, written]

/-- `total_len` is 0 exactly as long as nothing was written. -/
theorem run_totalLen (h : run F hist = some s) (hall : ∀ c ∈ hist, Allocates F c) :
    s.totalLen = 0 ↔ lastWritten hist = none := by
  induction hist using List.reverseRecOn generalizing s with
  | nil =>
    obtain rfl : init = s := Option.some.inj h
    exact iff_of_true rfl rfl
  | append_singleton hist c ih =>
    rw [run_append] at h
    obtain ⟨s₀, h₀, hc⟩ := Option.bind_eq_some_iff.mp h
    cases c with
    | read length position =>
      obtain rfl := Option.some.inj ((call_read (run_fits h₀) length position).symm.trans hc)
      have hiff := ih h₀ fun c hc => hall c (List.mem_append_left _ hc)
      rw [lastWritten_read]
      exact hiff
    | write inputPid length kmalloc =>
      obtain ⟨t, U, W, ht, hout, -, hlen, hU⟩ := call_write hc
      obtain rfl := hU (hall _ (by simp))
      have hpos := Forest.output_pos ht
      rw [hout, List.nil_append] at hpos
      rw [lastWritten_write, hlen]
      exact iff_of_false (by omega) (by simp)

/-- **The list holds the expected text** if the only write is the last call. -/
theorem run_holds_iff (h : run F hist = some s) (hall : ∀ c ∈ hist, Allocates F c) :
    s.Holds (expected F hist) ↔ OnlyWriteLast hist := by
  rcases List.eq_nil_or_concat hist with rfl | ⟨pre, c, rfl⟩
  · obtain rfl : init = s := Option.some.inj h
    exact iff_of_true ⟨rfl, rfl⟩ (.inl rfl)
  have htotal := run_totalLen h hall
  rw [List.concat_eq_append] at *
  rw [run_append] at h
  obtain ⟨s₀, h₀, hc⟩ := Option.bind_eq_some_iff.mp h
  have hfits := run_fits h₀
  cases c with
  | read length position =>
    obtain rfl := Option.some.inj ((call_read hfits length position).symm.trans hc)
    constructor
    · rintro ⟨htext, hlen⟩
      rw [← htext, text_nil] at hlen
      exact .inl (htotal.mp hlen)
    · rintro (hnone | ⟨pre', c, he, -, hc⟩)
      · rw [expected, hnone]
        exact ⟨rfl, htotal.mpr hnone⟩
      · obtain rfl : PtreeCall.read length position = c := by simpa using (List.append_inj' he rfl).2
        cases hc
  | write inputPid length kmalloc =>
    obtain ⟨t, U, W, ht, hout, htext, hlen, hU⟩ := call_write hc
    obtain rfl := hU (hall _ (by simp))
    rw [List.nil_append] at hout
    have htotal₀ := run_totalLen h₀ fun c hc => hall c (List.mem_append_left _ hc)
    rw [expected, lastWritten_write, Option.elim_some, hout]
    constructor
    · rintro ⟨-, hlen'⟩
      exact .inr ⟨pre, _, rfl, htotal₀.mp (by omega), rfl⟩
    · rintro (hnone | ⟨pre', c, he, hnone, -⟩)
      · rw [lastWritten_write] at hnone
        cases hnone
      · obtain rfl := (List.append_inj' he rfl).1
        have h0 := htotal₀.mpr hnone
        have hnil : s₀.text = [] := List.eq_nil_of_length_eq_zero (by omega)
        exact ⟨by rw [htext, hnil, List.append_nil], by omega⟩

theorem expected_nul (F : Forest) (hist : List PtreeCall) : (0 : UInt8) ∉ expected F hist := by
  rw [expected]
  cases lastWritten hist with
  | none => exact List.not_mem_nil
  | some pid => exact Forest.output_nul F pid

/-- **Sessions** after any run: they come to an end, and what they return is the
ancestry of the last written pid exactly if the list holds it and the first read
takes all of it. When no allocation fails, the list holds it exactly if nothing
was written or the only write is the last call. A write fails to return exactly
if the pid has no process. -/
theorem ancestry_exact_iff (F : Forest) {hist : List PtreeCall} {s : Ptree}
    (h : run F hist = some s) :
    (∀ ns, (∀ n ∈ ns, 0 < n) → s.totalLen < ns.length → (session s ns 0).isSome) ∧
    (∀ n ns out, 0 < n → (∀ m ∈ ns, 0 < m) → session s (n :: ns) 0 = some out →
      (out = expected F hist ↔ s.Holds (expected F hist) ∧ (expected F hist).length ≤ n)) ∧
    ((∀ c ∈ hist, Allocates F c) → (s.Holds (expected F hist) ↔ OnlyWriteLast hist)) ∧
    ∀ pid length kmalloc, s.writePidToInput F pid length kmalloc = none ↔ F.task pid = none := by
  have hfits := run_fits h
  refine ⟨fun ns hns hlong => session_isSome hfits hns hlong, ?_, run_holds_iff h, ?_⟩
  · intro n ns out hn hns hout
    exact session_iff hfits (expected_nul F hist) hn hns hout
  · intro pid length kmalloc
    refine ⟨fun hnone => ?_, writePidToInput_null s length kmalloc⟩
    cases ht : F.task pid with
    | none => rfl
    | some t =>
      obtain ⟨r, s', U, W, e, -⟩ := writePidToInput_spec s length kmalloc ht
      rw [e] at hnone
      cases hnone

/-- The process `i`, a child of pid 0. -/
def initTask : Task := ⟨[105], 0⟩

theorem eq_initTask {t : Task} (h : (if pid = 1 then some initTask else none) = some t) :
    pid = 1 ∧ initTask = t := by
  obtain ⟨h1, e⟩ := Option.ite_none_right_eq_some.mp h
  exact ⟨h1, Option.some.inj e⟩

/-- A forest of one process, with pid 1. -/
def initForest : Forest where
  task pid := if pid = 1 then some initTask else none
  depth pid := if pid = 1 then 1 else 0
  idle := rfl
  parent_live := by
    intro pid t ht
    obtain ⟨rfl, rfl⟩ := eq_initTask ht
    decide
  depth_parent := by
    intro pid t ht
    obtain ⟨rfl, rfl⟩ := eq_initTask ht
    decide
  comm_nul := by
    intro pid t ht
    obtain ⟨rfl, rfl⟩ := eq_initTask ht
    decide
  comm_length := by
    intro pid t ht
    obtain ⟨rfl, rfl⟩ := eq_initTask ht
    decide
  pid_lt := by
    intro pid t ht
    obtain ⟨rfl, rfl⟩ := eq_initTask ht
    decide

/-- `1` is written. -/
def writeInit : PtreeCall := .write 1 2 fun _ => true

/-- A shell that was started by process 1, and its child. -/
def chainTask : ℕ → Option Task
  | 1 => some ⟨ascii "init", 0⟩
  | 20 => some ⟨ascii "sh", 1⟩
  | 300 => some ⟨ascii "ps", 20⟩
  | _ => none

theorem chainTask_cases {t : Task} (h : chainTask pid = some t) :
    (pid = 1 ∧ t = ⟨ascii "init", 0⟩) ∨ (pid = 20 ∧ t = ⟨ascii "sh", 1⟩) ∨
      (pid = 300 ∧ t = ⟨ascii "ps", 20⟩) := by
  rw [chainTask.eq_def] at h
  split at h <;> cases h
  · exact .inl ⟨rfl, rfl⟩
  · exact .inr (.inl ⟨rfl, rfl⟩)
  · exact .inr (.inr ⟨rfl, rfl⟩)

/-- A forest of three processes, each the parent of the next one. -/
def chainForest : Forest where
  task := chainTask
  depth pid := if pid = 1 then 1 else if pid = 20 then 2 else if pid = 300 then 3 else 0
  idle := rfl
  parent_live := by
    intro pid t ht
    obtain ⟨rfl, rfl⟩ | ⟨rfl, rfl⟩ | ⟨rfl, rfl⟩ := chainTask_cases ht <;> decide
  depth_parent := by
    intro pid t ht
    obtain ⟨rfl, rfl⟩ | ⟨rfl, rfl⟩ | ⟨rfl, rfl⟩ := chainTask_cases ht <;> decide
  comm_nul := by
    intro pid t ht
    obtain ⟨rfl, rfl⟩ | ⟨rfl, rfl⟩ | ⟨rfl, rfl⟩ := chainTask_cases ht <;> decide
  comm_length := by
    intro pid t ht
    obtain ⟨rfl, rfl⟩ | ⟨rfl, rfl⟩ | ⟨rfl, rfl⟩ := chainTask_cases ht <;> decide
  pid_lt := by
    intro pid t ht
    obtain ⟨rfl, rfl⟩ | ⟨rfl, rfl⟩ | ⟨rfl, rfl⟩ := chainTask_cases ht <;> decide

/-- The file is read while it is empty, and then `300` is written. -/
def writeChain : List PtreeCall := [.read 50 0, .write 300 4 fun _ => true]

/-- The first read takes exactly the text, and the next one finds its end. -/
theorem ancestry_exact_run : ∃ s, run chainForest writeChain = some s ∧
    expected chainForest writeChain = ascii "init (1)\nsh (20)\nps (300)\n" ∧
    session s [26, 5] 0 = some (expected chainForest writeChain) := by
  have hrun : (run chainForest writeChain).any (fun s => (session s [26, 5] 0).isSome) = true := by
    decide +kernel
  obtain ⟨s, h, hs⟩ := (Option.any_eq_true _ _).mp hrun
  obtain ⟨out, hout⟩ := Option.isSome_iff_exists.mp hs
  obtain ⟨-, hiff, hholds, -⟩ := ancestry_exact_iff chainForest h
  have hlast : OnlyWriteLast writeChain := .inr ⟨[.read 50 0], _, rfl, rfl, rfl⟩
  have hall : ∀ c ∈ writeChain, Allocates chainForest c := by
    refine List.forall_mem_cons.mpr ⟨trivial, List.forall_mem_singleton.mpr ?_⟩
    exact fun _ _ => rfl
  have htext : expected chainForest writeChain = ascii "init (1)\nsh (20)\nps (300)\n" := by
    decide +kernel
  have hlen : (expected chainForest writeChain).length ≤ 26 := by
    rw [htext]
    decide
  refine ⟨s, h, htext, hout.trans (congrArg some ?_)⟩
  exact (hiff 26 [5] out (by decide) (by decide) hout).mpr ⟨(hholds hall).mpr hlast, hlen⟩

/-- The text `i (1)` read in chunks of three bytes turns into NULs after the first
one; a second write adds to the text of the first; a pid without a process is
looked up through a null pointer. -/
theorem ancestry_differs :
    expected initForest [writeInit] = [105, 32, 40, 49, 41, 10] ∧
    (run initForest [writeInit]).bind (fun s => session s [3, 3, 3] 0) =
      some [105, 32, 40, 0, 0, 0] ∧
    expected initForest [writeInit, writeInit] = [105, 32, 40, 49, 41, 10] ∧
    (run initForest [writeInit, writeInit]).bind (fun s => session s [50, 50] 0) =
      some [105, 32, 40, 49, 41, 10, 105, 32, 40, 49, 41, 10] ∧
    initForest.task 2 = none ∧ run initForest [.write 2 2 fun _ => true] = none := by
  refine ⟨?_, ?_, ?_, ?_, rfl, rfl⟩ <;> decide +kernel

end Ptree

end SysProgLab
