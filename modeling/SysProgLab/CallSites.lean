import SysProgLab.TracerSites
import SysProgLab.Decimal

/-!
# Where a call comes from: `get_callinfo`

`get_callinfo` walks the stack outwards to the first procedure named `main`, or to the last
one, and gives its name and the offset of the call in it. The unwinder itself is left open; of
`unw_get_proc_name` it is used that a known name which fits into the buffer is found
(`FindsNames`). The buffer of `alloc` has 32 bytes, that of `mlog` 16. So, as long as the unwinder
can be set up, the leak report names call sites in `main` and no others, whatever is freed and
reallocated (`report_in_main`).
-/

namespace SysProgLab

/-- What the unwinder knows of a procedure on the stack. -/
structure Frame : Type where
  /-- its name -/
  name : CStr
  /-- how far the instruction to return to is into it -/
  ofs : ℕ
  /-- whether it has a symbol -/
  named : Bool

/-- What `get_callinfo` finds when it is called. -/
structure Stack : Type where
  /-- `unw_getcontext` returns 0 -/
  getcontext : Bool
  /-- `unw_init_local` returns 0 -/
  initLocal : Bool
  /-- `get_callinfo` itself -/
  own : Frame
  /-- the procedures that `unw_step` gets to -/
  callers : List Frame

/-- `unw_get_proc_name` with a buffer of some length -/
abbrev ProcName := Frame → ℕ → Option (CStr × ℕ)

/-- **A name that is known** and fits into the buffer, with its NUL, is found. -/
def FindsNames (procName : ProcName) : Prop :=
  ∀ (f : Frame) (fnlen : ℕ), f.named = true → f.name.length < fnlen →
    procName f fnlen = some (f.name, f.ofs)

/-- **What fits into a buffer** fits into a longer one. -/
def LongerBuffers (procName : ProcName) : Prop :=
  ∀ (f : Frame) (fnlen fnlen' : ℕ) (r : CStr × ℕ), fnlen ≤ fnlen' →
    procName f fnlen = some r → procName f fnlen' = some r

/-- `main` -/
def mainName : CStr := ascii "main"

/-- The loop of `get_callinfo`, at the procedure `f` with the callers that `unw_step` gets
to: the procedure at which it stops. -/
def unwind (procName : ProcName) (fnlen : ℕ) : Frame → List Frame → Option Frame
  | f, [] => some f
  | _, g :: callers => do
    let (fname, _) ← procName g fnlen
    if fname = mainName then some g else unwind procName fnlen g callers

/-- `*ofs = (*ofs) - 5`, the offset of the call itself -/
def callOffset (ofs : ℕ) : ℕ := (ofs + (2 ^ 64 - 5)) % 2 ^ 64

/-- `get_callinfo` -/
def getCallinfo (procName : ProcName) (fnlen : ℕ) (s : Stack) : CallInfo :=
  if s.getcontext = false then none
  else if s.initLocal = false then none
  else do
    let g ← unwind procName fnlen s.own s.callers
    let (fname, ofs) ← procName g fnlen
    some (fname, callOffset ofs)

/-- The size of `fname` in `item`. -/
abbrev itemName : ℕ := 32

/-- The size of `buf` in `mlog`. -/
abbrev logName : ℕ := 16

/-- The name is known, fits into the buffer, and is not `main`. -/
def Frame.Passed (f : Frame) (fnlen : ℕ) : Prop :=
  f.named = true ∧ f.name.length < fnlen ∧ f.name ≠ mainName

/-! ## The walk -/

section Unwind

variable {procName : ProcName} {n n' : ℕ} {f g m : Frame} {pre post callers : List Frame}
  {s s' : Stack} {site : CStr × ℕ}

/-- `get_callinfo` with an unwinder that is set up. -/
theorem getCallinfo_eq_some : getCallinfo procName n s = some site ↔
    (s.getcontext = true ∧ s.initLocal = true) ∧ ∃ g r, unwind procName n s.own s.callers = some g ∧
      procName g n = some r ∧ site = (r.1, callOffset r.2) := by
  rw [getCallinfo, Option.ite_none_left_eq_some, Option.ite_none_left_eq_some, and_assoc,
    Bool.not_eq_false, Bool.not_eq_false]
  simp only [Option.bind_eq_bind, Option.bind_eq_some_iff, Option.some.injEq, exists_and_left,
    eq_comm (a := site)]

theorem unwind_passed (hfind : FindsNames procName) (h : g.Passed n) :
    unwind procName n f (g :: callers) = unwind procName n g callers := by
  rw [unwind, hfind g n h.1 h.2.1, Option.bind_eq_bind, Option.bind_some]
  exact if_neg h.2.2

/-- The walk goes past procedures other than `main`. -/
theorem unwind_append (hfind : FindsNames procName) (h : ∀ g ∈ pre, g.Passed n) :
    unwind procName n f (pre ++ callers) = unwind procName n (pre.getLast?.getD f) callers := by
  induction pre generalizing f with
  | nil => rfl
  | cons g pre ih =>
    rw [List.cons_append, unwind_passed hfind (h g List.mem_cons_self),
      ih fun k hk => h k (List.mem_cons_of_mem g hk), List.getLast?_cons]
    rfl

/-- **The innermost `main`** is where the walk stops. -/
theorem getCallinfo_main (hfind : FindsNames procName) (hready : s.getcontext = true)
    (hlocal : s.initLocal = true) (hcallers : s.callers = pre ++ m :: post)
    (hpre : ∀ g ∈ pre, g.Passed n) (hname : m.name = mainName) (hnamed : m.named = true)
    (hn : 4 < n) : getCallinfo procName n s = some (mainName, callOffset m.ofs) := by
  have hproc : procName m n = some (mainName, m.ofs) := by
    rw [hfind m n hnamed (by rw [hname]; exact hn), hname]
  refine getCallinfo_eq_some.mpr ⟨⟨hready, hlocal⟩, m, _, ?_, hproc, rfl⟩
  rw [hcallers, unwind_append hfind hpre, unwind, hproc]
  rfl

/-- The walk that succeeds with a smaller buffer is the same with a larger one. -/
theorem unwind_mono (hlonger : LongerBuffers procName) (hn : n ≤ n')
    (h : unwind procName n f callers = some g) : unwind procName n' f callers = some g := by
  induction callers generalizing f with
  | nil => exact h
  | cons k callers ih =>
    obtain ⟨⟨fname, ofs⟩, hproc, h⟩ := Option.bind_eq_some_iff.mp h
    rw [unwind, hlonger k n n' _ hn hproc, Option.bind_eq_bind, Option.bind_some]
    dsimp only at h ⊢
    split
    · next hmain => rwa [if_pos hmain] at h
    · next hmain => exact ih (by rwa [if_neg hmain] at h)

theorem getCallinfo_mono (hlonger : LongerBuffers procName) (hn : n ≤ n')
    (h : getCallinfo procName n s = some site) : getCallinfo procName n' s = some site := by
  obtain ⟨hready, g, r, hwalk, hproc, hsite⟩ := getCallinfo_eq_some.mp h
  exact getCallinfo_eq_some.mpr
    ⟨hready, g, r, unwind_mono hlonger hn hwalk, hlonger g n n' r hn hproc, hsite⟩

/-- **A call site that `mlog` finds** for a wrapper is found by `alloc` as well; the wrapper calls
the one and the other. -/
theorem alloc_of_mlog (hfind : FindsNames procName) (hlonger : LongerBuffers procName)
    {mlog alloc wrapper : Frame} (hmlog : mlog.Passed logName) (halloc : alloc.Passed itemName)
    (hs : s.callers = mlog :: wrapper :: callers)
    (h : getCallinfo procName logName s = some site) :
    getCallinfo procName itemName { s with callers := alloc :: wrapper :: callers } =
      some site := by
  have hfit : logName ≤ itemName := by decide
  obtain ⟨hready, g, r, hwalk, hproc, hsite⟩ :=
    getCallinfo_eq_some.mp (getCallinfo_mono hlonger hfit h)
  rw [hs, unwind_passed hfind ⟨hmlog.1, hmlog.2.1.trans_le hfit, hmlog.2.2⟩] at hwalk
  refine getCallinfo_eq_some.mpr ⟨hready, g, r, ?_, hproc, hsite⟩
  rw [unwind_passed hfind halloc]
  exact hwalk

end Unwind

/-! ## The report -/

namespace MemList

variable {l : List Item} {i j : Item} {ptr : ℕ}

theorem site_of_mem_insert (hj : j ∈ insert i l) : j.site = i.site ∨ ∃ k ∈ l, j.site = k.site := by
  induction l with
  | nil => exact .inl (congrArg Item.site (List.mem_singleton.mp hj))
  | cons cur l ih =>
    rw [insert] at hj
    split at hj
    · rcases List.mem_cons.mp hj with rfl | hj
      · exact .inr ⟨j, List.mem_cons_self, rfl⟩
      · rcases ih hj with h | ⟨k, hk, h⟩
        · exact .inl h
        · exact .inr ⟨k, List.mem_cons_of_mem _ hk, h⟩
    split at hj
    · rcases List.mem_cons.mp hj with rfl | hj
      · exact .inr ⟨cur, List.mem_cons_self, rfl⟩
      · exact .inr ⟨j, List.mem_cons_of_mem _ hj, rfl⟩
    · rcases List.mem_cons.mp hj with rfl | hj
      · exact .inl rfl
      · exact .inr ⟨j, hj, rfl⟩

theorem site_of_mem_dealloc (hj : j ∈ (dealloc l ptr).2) : ∃ k ∈ l, j.site = k.site := by
  induction l with
  | nil => cases hj
  | cons cur l ih =>
    rw [dealloc] at hj
    split at hj
    · rcases List.mem_cons.mp hj with rfl | hj
      · exact ⟨j, List.mem_cons_self, rfl⟩
      · obtain ⟨k, hk, h⟩ := ih hj
        exact ⟨k, List.mem_cons_of_mem _ hk, h⟩
    · rcases List.mem_cons.mp hj with rfl | hj
      · exact ⟨cur, List.mem_cons_self, rfl⟩
      · exact ⟨j, List.mem_cons_of_mem _ hj, rfl⟩

end MemList

namespace Tracer

variable {v : Version} {t t' : Tracer} {c : Call} {env : Env} {e : Effect} {l : List Item}
  {size : Size} {j : Item} {ptr : ℕ}

/-- The call sites after `alloc` on a list. -/
theorem site_of_alloc {f : List Item → Tracer × Effect} (hf : ∀ l, (f l).1.list = l)
    (hcall : ((Tracer.alloc l size env).bind fun l => some (f l)) = some (t', e))
    (hj : j ∈ t'.list) : j.site = siteOf env.info ∨ ∃ k ∈ l, j.site = k.site := by
  obtain ⟨-, heq⟩ := Option.ite_none_right_eq_some.mp ((alloc_bind f).symm.trans hcall)
  obtain rfl : (f (MemList.alloc l env.res size env.info)).1 = t' :=
    congrArg Prod.fst (Option.some.inj heq)
  rw [hf] at hj
  rcases MemList.site_of_mem_insert hj with h | h
  · exact .inl (h.trans MemList.newItem_site)
  · exact .inr h

/-- The same after a `dealloc`. -/
theorem site_of_realloc {f : List Item → Tracer × Effect} (hf : ∀ l, (f l).1.list = l)
    (hcall : ((Tracer.alloc (MemList.dealloc l ptr).2 size env).bind fun l => some (f l)) =
      some (t', e)) (hj : j ∈ t'.list) : j.site = siteOf env.info ∨ ∃ k ∈ l, j.site = k.site := by
  rcases site_of_alloc hf hcall hj with h | ⟨k, hk, h⟩
  · exact .inl h
  · obtain ⟨k', hk', h'⟩ := MemList.site_of_mem_dealloc hk
    exact .inr ⟨k', hk', h.trans h'⟩

/-- **The call sites after a call** are those before it, and its own if it allocates. -/
theorem site_of_call (hcall : t.call v c env = some (t', e)) (hj : j ∈ t'.list) :
    (c.Allocates ∧ j.site = siteOf env.info) ∨ ∃ k ∈ t.list, j.site = k.site := by
  cases c with
  | malloc size => exact (site_of_alloc (fun l => rfl) hcall hj).imp (.intro trivial) id
  | calloc nmemb size => exact (site_of_alloc (fun l => rfl) hcall hj).imp (.intro trivial) id
  | realloc ptr size =>
    cases v with
    | part3 => exact (site_of_realloc (fun l => rfl) hcall hj).imp (.intro trivial) id
    | bonus =>
      rw [Tracer.call, reallocBonus] at hcall
      split at hcall
      · split at hcall
        · exact (site_of_realloc (fun l => rfl) hcall hj).imp (.intro trivial) id
        split at hcall
        · exact (site_of_alloc (fun l => rfl) hcall hj).imp (.intro trivial) id
        · cases hcall
      · exact (site_of_alloc (fun l => rfl) hcall hj).imp (.intro trivial) id
  | free ptr =>
    cases v with
    | part3 =>
      obtain ⟨i, -, heq⟩ := Option.bind_eq_some_iff.mp hcall
      cases heq
      exact .inr (MemList.site_of_mem_dealloc hj)
    | bonus =>
      rw [Tracer.call, freeBonus] at hcall
      split at hcall
      · cases hcall
        exact .inr ⟨j, hj, rfl⟩
      split at hcall
      · cases hcall
        exact .inr ⟨j, hj, rfl⟩
      · obtain ⟨i, -, heq⟩ := Option.bind_eq_some_iff.mp hcall
        cases heq
        exact .inr (MemList.site_of_mem_dealloc hj)

/-- **The report names no other call sites** than those of the calls that allocate. -/
theorem report_sites {P : Site → Prop}
    (h : (traced v).ReachWhen (fun _ a => a.1.Allocates → P (siteOf a.2.info)) t)
    {cnt : ℤ} {fname : List UInt8} {ofs : ℕ}
    (hmem : .block ptr size cnt fname ofs ∈ t.fini.getD []) : P (fname, ofs) := by
  have hinductive : (traced v).Inductive (fun _ a => a.1.Allocates → P (siteOf a.2.info))
      fun t => ∀ j ∈ t.list, P j.site := by
    constructor
    · rintro t rfl
      exact fun j hj => by cases hj
    · rintro t ⟨c, env⟩ t' hl hc ⟨e, hcall⟩ j hj
      rcases site_of_call hcall hj with ⟨halloc, heq⟩ | ⟨k, hk, heq⟩
      · exact heq ▸ hc halloc
      · exact heq ▸ hl k hk
  obtain ⟨i, hi, -, heq⟩ := mem_fini_block hmem
  obtain ⟨-, -, -, rfl, rfl⟩ := Log.block.inj heq
  exact hinductive.holds h i hi

/-- The unwinder is set up, and the call is made in `main` or below it, at the offset `ofs` of the
innermost one, through procedures whose names are known and have less than 32 characters. -/
def FromMain (procName : ProcName) (ofs : ℕ) (info : CallInfo) : Prop :=
  ∃ s : Stack, s.getcontext = true ∧ s.initLocal = true ∧ info = getCallinfo procName itemName s ∧
    ∃ pre m post, s.callers = pre ++ m :: post ∧ (∀ g ∈ pre, Frame.Passed g itemName) ∧
      m.name = mainName ∧ m.named = true ∧ ofs = callOffset m.ofs

/-- **The leak report names `main`**: if every allocating call of a program is made in `main`
or below it, each line of the report gives `main` and the offset that the innermost `main` was
at in one of these calls, whatever the program frees and reallocates. -/
theorem report_in_main {procName : ProcName} (hfind : FindsNames procName) {ofss : Set ℕ}
    (h : (traced v).ReachWhen
      (fun _ a => a.1.Allocates → ∃ ofs ∈ ofss, FromMain procName ofs a.2.info) t)
    {cnt : ℤ} {fname : List UInt8} {ofs : ℕ}
    (hmem : .block ptr size cnt fname ofs ∈ t.fini.getD []) : fname = mainName ∧ ofs ∈ ofss := by
  have hsite : ∀ (c : Call) (env : Env),
      (c.Allocates → ∃ ofs ∈ ofss, FromMain procName ofs env.info) → c.Allocates →
        (siteOf env.info).1 = mainName ∧ (siteOf env.info).2 ∈ ofss := by
    intro c env hc halloc
    obtain ⟨ofs, hofs, s, hready, hlocal, hinfo, pre, m, post, hcallers, hpre, hname, hnamed,
      heq⟩ := hc halloc
    rw [heq] at hofs
    rw [hinfo, getCallinfo_main hfind hready hlocal hcallers hpre hname hnamed (by decide), siteOf]
    exact ⟨rfl, hofs⟩
  have hreach := h.mono fun _ a => hsite a.1 a.2
  exact report_sites (P := fun site => site.1 = mainName ∧ site.2 ∈ ofss) hreach hmem

/-- The procedures of the tracer on the stack. -/
def tracerFrames : List Frame := [⟨ascii "alloc", 30, true⟩, ⟨ascii "malloc", 60, true⟩]

/-- The names that fit are found, and no others. -/
def exactNames : ProcName := fun f fnlen =>
  if f.named = true ∧ f.name.length < fnlen then some (f.name, f.ofs) else none

theorem exactNames_finds : FindsNames exactNames := fun _ _ hnamed hlt => if_pos ⟨hnamed, hlt⟩

/-- `main` calls a wrapper, and is to go on at the offset `ofs`. -/
def mainStack (ofs : ℕ) : Stack :=
  ⟨true, true, ⟨ascii "get_callinfo", 20, true⟩,
    tracerFrames ++ [⟨mainName, ofs, true⟩, ⟨ascii "_start", 46, true⟩]⟩

/-- The call is made by `main` itself. -/
def calledFrom (ofs res : ℕ) : Env :=
  ⟨res, getCallinfo exactNames itemName (mainStack ofs), true⟩

theorem fromMain_calledFrom (ofs res : ℕ) :
    FromMain exactNames (callOffset ofs) (calledFrom ofs res).info := by
  refine ⟨mainStack ofs, rfl, rfl, rfl, tracerFrames, ⟨mainName, ofs, true⟩,
    [⟨ascii "_start", 46, true⟩], rfl, ?_, rfl, rfl, rfl⟩
  rw [tracerFrames]
  refine List.forall_mem_cons.mpr ⟨⟨rfl, by decide, by decide⟩, ?_⟩
  exact List.forall_mem_singleton.mpr ⟨rfl, by decide, by decide⟩

/-- Two places in `main`. -/
def twoPlaces : Set ℕ := {callOffset 25, callOffset 40}

/-- A block is not freed, and another one is freed twice. -/
theorem report_in_main_run : ∃ t : Tracer,
    .block 16 8 1 (ascii "main") 20 ∈ t.fini.getD [] ∧ 20 ∈ twoPlaces := by
  have h₁ : (traced .bonus).ReachWhen
      (fun _ a => a.1.Allocates → ∃ ofs ∈ twoPlaces, FromMain exactNames ofs a.2.info) _ :=
    .step (a := (.malloc 8, calledFrom 25 16)) (.init rfl)
      (fun _ => ⟨_, .inl rfl, fromMain_calledFrom 25 16⟩) ⟨_, rfl⟩
  have h₂ := h₁.step (a := (.malloc 24, calledFrom 40 32))
    (fun _ => ⟨_, .inr rfl, fromMain_calledFrom 40 32⟩) ⟨_, rfl⟩
  have h₃ := h₂.step (a := (.free 32, returning 0)) False.elim ⟨_, rfl⟩
  have h₄ := h₃.step (a := (.free 32, returning 0)) False.elim ⟨_, rfl⟩
  have hreport : ∀ t, (traced .bonus).ReachWhen
      (fun _ a => a.1.Allocates → ∃ ofs ∈ twoPlaces, FromMain exactNames ofs a.2.info) t →
      .block 16 8 1 (ascii "main") 20 ∈ t.fini.getD [] →
      ∃ t : Tracer, .block 16 8 1 (ascii "main") 20 ∈ t.fini.getD [] ∧ 20 ∈ twoPlaces :=
    fun t h hline => ⟨t, hline, (report_in_main exactNames_finds h hline).2⟩
  exact hreport _ h₄ (by decide +kernel)

end Tracer

end SysProgLab
