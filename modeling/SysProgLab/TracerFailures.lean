import SysProgLab.TracerRuns

/-!
# Failing calls of the tracer

Both versions over an allocator that answers anything, `NULL` included. A wrapper
takes every pointer for a new block, so a failed allocation puts `NULL` on the
list; `part3` reads the item of a pointer it frees without a look, and `bonus`
takes `NULL` for a pointer that was never allocated.
-/

namespace SysProgLab

namespace Call

/-- The call asks for a block. -/
def Allocates : Call → Prop
  | .free _ => False
  | _ => True

/-- The call is `free(NULL)` or `realloc(NULL, size)`. -/
def OnNull : Call → Prop
  | .realloc ptr _ | .free ptr => ptr = 0
  | _ => False

/-- The call asks for a block and gets `NULL`; `realloc(ptr, 0)` asks for none. -/
def Fails (c : Call) (env : Env) : Prop :=
  env.res = 0 ∧
    match c with
    | .malloc _ | .calloc _ _ => True
    | .realloc _ size => size ≠ 0
    | .free _ => False

end Call

namespace Tracer

/-- The log reports an illegal or a double free. -/
def Flagged (log : List Log) : Prop := .illFree ∈ log ∨ .doubleFree ∈ log

/-- The items of `l` and `l'` are of the same pointers, and the same are live. -/
def SameBlocks (l l' : List Item) : Prop :=
  l'.map Item.ptr = l.map Item.ptr ∧
    ∀ ptr, (∃ i ∈ l', i.ptr = ptr ∧ 0 < i.cnt) ↔ ∃ i ∈ l, i.ptr = ptr ∧ 0 < i.cnt

/-- `NULL` is not reported as a block that was not deallocated. -/
def NullUnreported (l : List Item) : Prop := ∀ i ∈ l, i.ptr = 0 → i.cnt = 0

/-- **What a call should do** about `NULL` and about failure: it does not crash,
`NULL` is not flagged, a failure changes no blocks and `NULL` is not a block. -/
def Exact (v : Version) (t : Tracer) (c : Call) (env : Env) : Prop :=
  ∃ t' e, t.call v c env = some (t', e) ∧ (c.OnNull → ¬Flagged e.log) ∧
    (c.Fails env → SameBlocks t.list t'.list) ∧ NullUnreported t'.list

/-- **When a call does**: the allocations succeed, `part3` frees pointers with an
item only, and `bonus` is not handed `NULL`. -/
def Succeeds (v : Version) (t : Tracer) (c : Call) (env : Env) : Prop :=
  (c.Allocates → env.res ≠ 0 ∧ env.item = true) ∧
    match v, c with
    | .bonus, c => ¬c.OnNull
    | .part3, .free ptr => MemList.find t.list ptr ≠ none
    | .part3, _ => True

/-- The invariant of the list while every call succeeds. -/
structure Safe (v : Version) (l : List Item) : Prop where
  sorted : MemList.Sorted l
  null : MemList.find l 0 = none
  counts : v = .bonus → ∀ ptr i, MemList.find l ptr = some i → 0 ≤ i.cnt

namespace Safe

variable {v : Version} {l : List Item} {ptr res : ℕ}

theorem nil : Safe v [] := ⟨List.Pairwise.nil, rfl, fun _ _ _ h => by cases h⟩

theorem nullUnreported (hs : Safe v l) : NullUnreported l := by
  intro i hi hp
  have hfind := MemList.find_of_mem hs.sorted hi
  rw [hp, hs.null] at hfind
  cases hfind

/-- `alloc` of a pointer that is not `NULL`. -/
theorem alloc (hs : Safe v l) (hres : res ≠ 0) (size : Size) (info : CallInfo) :
    Safe v (MemList.alloc l res size info) := by
  refine ⟨hs.sorted.insert _, ?_, fun hv ptr i hfind => ?_⟩
  · rw [MemList.alloc, MemList.find_insert hs.sorted, MemList.newItem_ptr, if_neg hres.symm, hs.null]
  · rw [MemList.alloc, MemList.find_insert hs.sorted, MemList.newItem_ptr] at hfind
    split at hfind
    · obtain rfl := Option.some.inj hfind
      cases hold : MemList.find l ptr with
      | none => simp [MemList.allocated]
      | some j =>
        have hj := hs.counts hv ptr j hold
        simp only [MemList.allocated]
        omega
    · exact hs.counts hv ptr i hfind

/-- `dealloc`, in `bonus` of a pointer that is allocated. -/
theorem dealloc (hs : Safe v l) (ptr : ℕ)
    (hpos : v = .bonus → ∀ i, MemList.find l ptr = some i → 0 < i.cnt) :
    Safe v (MemList.dealloc l ptr).2 := by
  refine ⟨hs.sorted.dealloc, ?_, fun hv q i hfind => ?_⟩
  · rw [MemList.find_dealloc hs.sorted, hs.null]
    split <;> rfl
  · rw [MemList.find_dealloc hs.sorted] at hfind
    split at hfind
    · rename_i hq
      obtain ⟨j, hj, rfl⟩ := Option.map_eq_some_iff.mp hfind
      have hcnt := hpos hv j (hq ▸ hj)
      dsimp only
      omega
    · exact hs.counts hv q i hfind

/-- `alloc` of `NULL` puts it on the list. -/
theorem not_nullUnreported_alloc (hs : Safe v l) (size : Size) (info : CallInfo) :
    ¬NullUnreported (MemList.alloc l 0 size info) := by
  intro hnull
  have hfind : MemList.find (MemList.alloc l 0 size info) 0 =
      some (MemList.newItem 0 size info) := by
    rw [MemList.alloc, MemList.find_insert hs.sorted, MemList.newItem_ptr, if_pos rfl, hs.null]
    rfl
  have hcnt := hnull _ (MemList.mem_of_find hfind) MemList.newItem_ptr
  rw [MemList.newItem_cnt] at hcnt
  exact absurd hcnt one_ne_zero

end Safe

/-! ## One call -/

section Calls

variable {v : Version} {t : Tracer} {c : Call} {env : Env}

theorem alloc_bind {l : List Item} {size : Size} (f : List Item → Tracer × Effect) :
    ((Tracer.alloc l size env).bind fun l => some (f l)) =
      if env.item = true then some (f (MemList.alloc l env.res size env.info)) else none := by
  rw [Tracer.alloc]
  split <;> rfl

/-- **A call that asks for a block** allocates what it gets on a list that is safe. -/
theorem Safe.call_alloc (env : Env) (hs : Safe v t.list) (hc : c.Allocates) :
    ∃ l size t' e, Safe v l ∧ t'.list = MemList.alloc l env.res size env.info ∧
      (t.call v c env = if env.item = true then some (t', e) else none) ∧
      (c.OnNull → (Flagged e.log ↔ v = .bonus)) := by
  cases c with
  | malloc size => exact ⟨_, _, _, _, hs, rfl, alloc_bind _, False.elim⟩
  | calloc nmemb size => exact ⟨_, _, _, _, hs, rfl, alloc_bind _, False.elim⟩
  | realloc ptr size =>
    cases v with
    | part3 =>
      refine ⟨_, _, _, _, hs.dealloc ptr (fun hv => by cases hv), rfl, alloc_bind _, ?_⟩
      simp [Flagged]
    | bonus =>
      have hnot : ∀ i, MemList.find t.list ptr = some i → ¬(Call.realloc ptr size).OnNull := by
        rintro i hfind rfl
        rw [hs.null] at hfind
        cases hfind
      cases hfind : MemList.find t.list ptr with
      | none =>
        have hcall : t.reallocBonus ptr size env = (Tracer.alloc t.list size env).bind fun l =>
            some (t.endRealloc size l 0,
              ⟨[.realloc 0 size], [.realloc ptr size env.res, .illFree], env.res⟩) := by
          rw [reallocBonus, hfind]
          rfl
        exact ⟨_, _, _, _, hs, rfl, hcall.trans (alloc_bind _),
          fun _ => iff_of_true (.inl (by simp)) rfl⟩
      | some i =>
        rcases (hs.counts rfl ptr i hfind).eq_or_lt with hcnt | hcnt
        · have hcall : t.reallocBonus ptr size env = (Tracer.alloc t.list size env).bind fun l =>
              some (t.endRealloc size l 0,
                ⟨[.realloc 0 size], [.realloc ptr size env.res, .doubleFree], env.res⟩) := by
            rw [reallocBonus, hfind]
            exact (if_neg hcnt.not_lt).trans (if_pos hcnt.symm)
          exact ⟨_, _, _, _, hs, rfl, hcall.trans (alloc_bind _),
            fun h => absurd h (hnot i hfind)⟩
        · have hpos : ∀ j, MemList.find t.list ptr = some j → 0 < j.cnt := fun j hj =>
            Option.some.inj (hfind.symm.trans hj) ▸ hcnt
          have hcall : t.reallocBonus ptr size env =
              (Tracer.alloc (MemList.dealloc t.list ptr).2 size env).bind fun l =>
                some (t.endRealloc size l i.size,
                  ⟨[.realloc ptr size], [.realloc ptr size env.res], env.res⟩) := by
            rw [reallocBonus, hfind]
            exact if_pos hcnt
          exact ⟨_, _, _, _, hs.dealloc ptr fun _ => hpos, rfl, hcall.trans (alloc_bind _),
            fun h => absurd h (hnot i hfind)⟩
  | free ptr => exact hc.elim

/-- **A call of `free` that succeeds.** -/
theorem Safe.call_free (hs : Safe v t.list) {ptr : ℕ} (hc : Succeeds v t (.free ptr) env) :
    ∃ t' e, t.call v (.free ptr) env = some (t', e) ∧ Safe v t'.list ∧
      ((Call.free ptr).OnNull → ¬Flagged e.log) := by
  cases v with
  | part3 =>
    obtain ⟨i, hi⟩ := Option.ne_none_iff_exists'.mp hc.2
    have hcall : t.freePart3 ptr = some ({ t with
          list := (MemList.dealloc t.list ptr).2
          nFreeb := t.nFreeb + i.size },
        ⟨[.free ptr], [.free ptr], 0⟩) := by
      rw [freePart3, MemList.dealloc_fst hs.sorted, hi]
      rfl
    exact ⟨_, _, hcall, hs.dealloc ptr (fun hv => by cases hv), fun _ => by simp [Flagged]⟩
  | bonus =>
    have hnot : ¬(Call.free ptr).OnNull := hc.2
    cases hfind : MemList.find t.list ptr with
    | none => exact ⟨_, _, freeBonus_never hfind, hs, fun h => absurd h hnot⟩
    | some i =>
      by_cases hcnt : i.cnt = 0
      · exact ⟨_, _, freeBonus_freed hfind hcnt, hs, fun h => absurd h hnot⟩
      · have hpos : ∀ j, MemList.find t.list ptr = some j → 0 < j.cnt := by
          intro j hj
          obtain rfl : i = j := Option.some.inj (hfind.symm.trans hj)
          exact (hs.counts rfl ptr i hfind).lt_of_ne (Ne.symm hcnt)
        exact ⟨_, _, freeBonus_live hs.sorted hfind hcnt, hs.dealloc ptr fun _ => hpos,
          fun h => absurd h hnot⟩

/-- A call of `free` that does not succeed crashes, or flags `NULL`. -/
theorem Safe.succeeds_free (hs : Safe v t.list) {ptr : ℕ} (hc : Exact v t (.free ptr) env) :
    Succeeds v t (.free ptr) env := by
  obtain ⟨t', e, hcall, hflag, -⟩ := hc
  refine ⟨False.elim, ?_⟩
  cases v with
  | part3 =>
    intro hnone
    have hcrash : t.freePart3 ptr = none := by
      rw [freePart3, MemList.dealloc_fst hs.sorted, hnone]
      rfl
    cases hcrash.symm.trans hcall
  | bonus =>
    rintro rfl
    cases (freeBonus_never hs.null).symm.trans hcall
    exact hflag rfl (.inl (by simp))

/-- **A call does what it should exactly when it succeeds**, on a list that is safe. -/
theorem Safe.exact_iff (hs : Safe v t.list) : Exact v t c env ↔ Succeeds v t c env := by
  by_cases hc : c.Allocates
  · obtain ⟨l, size, t₁, e₁, hl, hlist, hcall, hflag⟩ := hs.call_alloc env hc
    constructor
    · rintro ⟨t', e, hsome, hnull, -, hunreported⟩
      obtain ⟨hitem, heq⟩ := Option.ite_none_right_eq_some.mp (hcall.symm.trans hsome)
      cases heq
      refine ⟨fun _ => ⟨?_, hitem⟩, ?_⟩
      · intro hres
        rw [hlist, hres] at hunreported
        exact hl.not_nullUnreported_alloc size env.info hunreported
      · cases v with
        | part3 =>
          cases c with
          | free ptr => exact hc.elim
          | _ => trivial
        | bonus => exact fun h => hnull h ((hflag h).mpr rfl)
    · rintro ⟨hmem, hv⟩
      obtain ⟨hres, hitem⟩ := hmem hc
      refine ⟨t₁, e₁, hcall.trans (if_pos hitem), ?_, fun h => absurd h.1 hres, ?_⟩
      · intro hnull hflagged
        obtain rfl := (hflag hnull).mp hflagged
        exact hv hnull
      · rw [hlist]
        exact (hl.alloc hres size env.info).nullUnreported
  · cases c with
    | free ptr =>
      refine ⟨hs.succeeds_free, fun hfree => ?_⟩
      obtain ⟨t', e, hcall, hs', hflag⟩ := hs.call_free hfree
      exact ⟨t', e, hcall, hflag, fun h => h.2.elim, hs'.nullUnreported⟩
    | _ => exact absurd trivial hc

/-- **A call that succeeds** leaves a safe list. -/
theorem Safe.call {t' : Tracer} {e : Effect} (hs : Safe v t.list) (hc : Succeeds v t c env)
    (hcall : t.call v c env = some (t', e)) : Safe v t'.list := by
  by_cases halloc : c.Allocates
  · obtain ⟨l, size, t₁, e₁, hl, hlist, hcall₁, -⟩ := hs.call_alloc env halloc
    obtain ⟨-, heq⟩ := Option.ite_none_right_eq_some.mp (hcall₁.symm.trans hcall)
    cases heq
    rw [hlist]
    exact hl.alloc (hc.1 halloc).1 size env.info
  · cases c with
    | free ptr =>
      obtain ⟨t₁, e₁, hcall₁, hs₁, -⟩ := hs.call_free hc
      cases hcall₁.symm.trans hcall
      exact hs₁
    | _ => exact absurd trivial halloc

end Calls

/-! ## Runs -/

/-- The tracer over an allocator that answers anything. -/
def traced (v : Version) : Machine Tracer (Call × Env) where
  init t := t = Tracer.init
  step t a t' := ∃ e, t.call v a.1 a.2 = some (t', e)

/-- The run so far consists of calls that succeed. -/
def Undisturbed (v : Version) : Tracer → Prop :=
  (traced v).ReachWhen fun t a => Succeeds v t a.1 a.2

theorem traced_inductive (v : Version) :
    (traced v).Inductive (fun t a => Succeeds v t a.1 a.2) fun t => Safe v t.list where
  init := by
    rintro t rfl
    exact .nil
  step := by
    rintro t ⟨c, env⟩ t' hs hc ⟨e, hcall⟩
    exact hs.call hc hcall

/-- `fini` does not divide by zero, and does not report `NULL`. -/
def FiniExact (t : Tracer) : Prop :=
  ∃ log, t.fini = some log ∧ ∀ size cnt fname ofs, .block 0 size cnt fname ofs ∉ log

theorem Safe.finiExact_iff {v : Version} {t : Tracer} (hs : Safe v t.list) :
    FiniExact t ↔ t.allocCalls ≠ 0 := by
  by_cases ht : t.allocCalls = 0
  · refine iff_of_false ?_ (not_not.mpr ht)
    rintro ⟨log, hlog, -⟩
    cases (if_pos ht).symm.trans hlog
  · refine iff_of_true ⟨_, if_neg ht, fun size cnt fname ofs hmem => ?_⟩ ht
    have hfini : .block 0 size cnt fname ofs ∈ t.fini.getD [] := by
      rw [Tracer.fini, if_neg ht]
      exact hmem
    obtain ⟨i, hi, hcnt, heq⟩ := mem_fini_block hfini
    have hptr : i.ptr = 0 := (Log.block.inj heq).1
    exact hcnt (hs.nullUnreported i hi hptr)

/-- **The first thing to go wrong**: in every run of calls that succeed, the next
call does what it should exactly when it succeeds, and `fini` does exactly when
the number of allocating calls is not 0. -/
theorem exact_iff_succeeds (v : Version) {t : Tracer} (h : Undisturbed v t) :
    (∀ c env, Exact v t c env ↔ Succeeds v t c env) ∧ (FiniExact t ↔ t.allocCalls ≠ 0) := by
  have hs := (traced_inductive v).holds h
  exact ⟨fun c env => hs.exact_iff, hs.finiExact_iff⟩

theorem exact_iff_succeeds_run : ∃ t, Undisturbed .part3 t ∧ FiniExact t ∧
    Exact .part3 t (.free 16) (returning 0) ∧ ¬Exact .part3 t (.free 32) (returning 0) := by
  have hcall := malloc_of_item Tracer.init 8 (rfl : (returning 16).item = true)
  have hsucc : Succeeds .part3 .init (.malloc 8) (returning 16) :=
    ⟨fun _ => ⟨by decide, rfl⟩, trivial⟩
  have hstep : (traced .part3).step .init (.malloc 8, returning 16) _ := ⟨_, hcall⟩
  have h : Undisturbed .part3 _ := .step (.init rfl) hsucc hstep
  obtain ⟨hexact, hfini⟩ := exact_iff_succeeds .part3 h
  refine ⟨_, h, hfini.mpr (by decide), (hexact _ _).mpr ⟨False.elim, by decide⟩, fun hbad => ?_⟩
  exact ((hexact _ _).mp hbad).2 (by decide)

/-- **`NULL` and failure are mistreated from the start**: `fini` divides by zero when
nothing was allocated, `free(NULL)` crashes `part3` and is flagged by `bonus`, and a
failed allocation makes `NULL` a block. -/
theorem null_mistreated :
    Tracer.init.fini = none ∧
    Tracer.init.call .part3 (.free 0) (returning 0) = none ∧
    (Tracer.init.call .bonus (.free 0) (returning 0)).any
      (fun r => decide (.illFree ∈ r.2.log)) = true ∧
    (Tracer.init.call .bonus (.malloc 8) (returning 0)).any
      (fun r => decide (r.1.list.map Item.ptr = [0] ∧ r.1.list.map Item.cnt = [1])) = true := by
  decide

end Tracer

end SysProgLab
