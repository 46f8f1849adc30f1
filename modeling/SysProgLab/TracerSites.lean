import SysProgLab.TracerFailures
import SysProgLab.MemListRuns

/-!
# Call sites in the report

Both versions over an allocator that succeeds and reuses addresses, beside the call
site of the call that allocated each live block. `alloc` leaves the call site of an
item it finds as it is: the report names the right one as long as an address is
returned again only to a call from the call site on record.
-/

namespace SysProgLab

/-- The function and the offset in it. -/
abbrev Site := List UInt8 × ℕ

/-- The call site that `alloc` records. -/
def siteOf : CallInfo → Site
  | none => ([63, 63, 63], 0)
  | some site => site

/-- The call site on record. -/
def Item.site (i : Item) : Site := (i.fname, i.ofs)

@[simp] theorem MemList.newItem_site {ptr : ℕ} {size : Size} {info : CallInfo} :
    (MemList.newItem ptr size info).site = siteOf info := by
  cases info <;> rfl

/-- The call sites of the live blocks. -/
abbrev Sites := ℕ → Option Site

namespace Sites

/-- What a call that returns means. -/
def after (g : Sites) (c : Call) (env : Env) : Sites :=
  match c with
  | .malloc _ | .calloc _ _ => Function.update g env.res (some (siteOf env.info))
  | .realloc ptr _ =>
    Function.update (Function.update g ptr none) env.res (some (siteOf env.info))
  | .free ptr => Function.update g ptr none

/-- The allocator succeeds, with an address that is not live; a `realloc` may
return the block it has just released. -/
def Gets (g : Sites) (c : Call) (env : Env) : Prop :=
  match c with
  | .malloc _ | .calloc _ _ => env.res ≠ 0 ∧ g env.res = none
  | .realloc ptr _ => env.res ≠ 0 ∧ Function.update g ptr none env.res = none
  | .free _ => True

instance (g : Sites) (c : Call) (env : Env) : Decidable (g.Gets c env) :=
  match c with
  | .malloc _ | .calloc _ _ => inferInstanceAs (Decidable (env.res ≠ 0 ∧ g env.res = none))
  | .realloc ptr _ =>
    inferInstanceAs (Decidable (env.res ≠ 0 ∧ Function.update g ptr none env.res = none))
  | .free _ => inferInstanceAs (Decidable True)

theorem update_dead {g : Sites} {ptr : ℕ} (hdead : g ptr = none) :
    Function.update g ptr none = g := by
  rw [← hdead, Function.update_eq_self]

end Sites

namespace Tracer

/-- The tracer and the call sites of the live blocks. -/
def sited (v : Version) : Machine (Tracer × Sites) (Call × Env) where
  init st := st = (Tracer.init, fun _ => none)
  step st a st' := st.2.Gets a.1 a.2 ∧ (∃ e, st.1.call v a.1 a.2 = some (st'.1, e)) ∧
    st'.2 = st.2.after a.1 a.2

/-- **What the report should say** about a block: the call site of the call that
allocated the live block at its address. -/
def NamesSites (t : Tracer) (g : Sites) : Prop :=
  ∀ ptr size cnt fname ofs, .block ptr size cnt fname ofs ∈ t.fini.getD [] →
    g ptr = some (fname, ofs)

/-- **When it does**: an address on the list is returned to a call from the call site
on record only, and `part3` frees and reallocates no pointer whose block was freed. -/
def Attributed (v : Version) (t : Tracer) (g : Sites) (c : Call) (env : Env) : Prop :=
  (c.Allocates → ∀ i, MemList.find t.list env.res = some i → i.site = siteOf env.info) ∧
    match v, c with
    | .part3, .realloc ptr _ | .part3, .free ptr => g ptr = none → MemList.find t.list ptr = none
    | _, _ => True

/-- The list has the call sites of the live blocks, and nothing else is allocated. -/
structure Sited (l : List Item) (g : Sites) : Prop where
  sorted : MemList.Sorted l
  live : ∀ {ptr : ℕ} {site : Site}, g ptr = some site →
    ∃ i, MemList.find l ptr = some i ∧ i.cnt = 1 ∧ i.site = site
  dead : ∀ {ptr : ℕ} {i : Item}, g ptr = none → MemList.find l ptr = some i → i.cnt = 0

namespace Sited

variable {v : Version} {t t' : Tracer} {l : List Item} {g : Sites} {ptr res : ℕ} {size : Size}
  {info : CallInfo} {env : Env} {e : Effect} {i : Item}

theorem init : Sited [] fun _ => none where
  sorted := List.Pairwise.nil
  live := fun h => by cases h
  dead := fun _ h => by cases h

/-- `alloc` of an address that is not live, whose item has the call site. -/
theorem alloc (hs : Sited l g) (hdead : g res = none)
    (hsite : ∀ i, MemList.find l res = some i → i.site = siteOf info) :
    Sited (MemList.alloc l res size info) (Function.update g res (some (siteOf info))) := by
  have hfind : ∀ q, MemList.find (MemList.alloc l res size info) q = if q = res then
      some (MemList.allocated (MemList.newItem res size info) (MemList.find l q))
      else MemList.find l q := fun q => by
    rw [MemList.alloc, MemList.find_insert hs.sorted, MemList.newItem_ptr]
  refine ⟨hs.sorted.insert _, fun {q site} hq => ?_, fun {q i} hq hi => ?_⟩
  · rw [hfind]
    by_cases hqr : q = res
    · subst hqr
      obtain rfl : siteOf info = site := by simpa using hq
      refine ⟨_, if_pos rfl, ?_⟩
      cases hold : MemList.find l q with
      | none => exact ⟨MemList.newItem_cnt, MemList.newItem_site⟩
      | some i =>
        have hcnt := hs.dead hdead hold
        exact ⟨by simp [MemList.allocated, hcnt], hsite i hold⟩
    · rw [if_neg hqr]
      exact hs.live (by rwa [Function.update_of_ne hqr] at hq)
  · have hqr : q ≠ res := by
      rintro rfl
      rw [Function.update_self] at hq
      cases hq
    rw [hfind, if_neg hqr] at hi
    exact hs.dead (by rwa [Function.update_of_ne hqr] at hq) hi

/-- `dealloc` of a live pointer. -/
theorem dealloc (hs : Sited l g) (hlive : g ptr ≠ none) :
    Sited (MemList.dealloc l ptr).2 (Function.update g ptr none) := by
  refine ⟨hs.sorted.dealloc, fun {q site} hq => ?_, fun {q i} hq hi => ?_⟩
  · have hqp : q ≠ ptr := by
      rintro rfl
      rw [Function.update_self] at hq
      cases hq
    rw [MemList.find_dealloc hs.sorted, if_neg hqp]
    exact hs.live (by rwa [Function.update_of_ne hqp] at hq)
  · rw [MemList.find_dealloc hs.sorted] at hi
    by_cases hqp : q = ptr
    · subst hqp
      obtain ⟨site, hsite⟩ := Option.ne_none_iff_exists'.mp hlive
      obtain ⟨j, hj, hcnt, -⟩ := hs.live hsite
      rw [if_pos rfl, hj] at hi
      obtain rfl := Option.some.inj hi
      simp [hcnt]
    · rw [if_neg hqp] at hi
      exact hs.dead (by rwa [Function.update_of_ne hqp] at hq) hi

/-- A pointer with a count is live. -/
theorem ne_none (hs : Sited l g) (hi : MemList.find l ptr = some i) (hcnt : i.cnt ≠ 0) :
    g ptr ≠ none := fun hdead => hcnt (hs.dead hdead hi)

/-- A pointer without a count is not live. -/
theorem eq_none (hs : Sited l g) (h : ∀ i, MemList.find l ptr = some i → i.cnt = 0) :
    g ptr = none := by
  cases hg : g ptr with
  | none => rfl
  | some site =>
    obtain ⟨i, hi, hcnt, -⟩ := hs.live hg
    rw [h i hi] at hcnt
    cases hcnt

/-- `dealloc` of a pointer that is live or has no item. -/
theorem dealloc_of (hs : Sited l g) (h : g ptr = none → MemList.find l ptr = none) :
    Sited (MemList.dealloc l ptr).2 (Function.update g ptr none) := by
  by_cases hdead : g ptr = none
  · have hnot : ptr ∉ l.map Item.ptr := by
      intro hmem
      obtain ⟨i, hi, rfl⟩ := List.mem_map.mp hmem
      cases (h hdead).symm.trans (MemList.find_of_mem hs.sorted hi)
    rw [MemList.dealloc_of_missing hnot, Sites.update_dead hdead]
    exact hs
  · exact hs.dealloc hdead

/-- The items after `dealloc` have the same call sites. -/
theorem site_dealloc (hs : Sited l g) (hi : MemList.find (MemList.dealloc l ptr).2 res = some i) :
    ∃ j, MemList.find l res = some j ∧ i.site = j.site := by
  rw [MemList.find_dealloc hs.sorted] at hi
  split at hi
  · obtain ⟨j, hj, rfl⟩ := Option.map_eq_some_iff.mp hi
    exact ⟨j, hj, rfl⟩
  · exact ⟨i, hi, rfl⟩

/-! ## One call -/

/-- A call that asks for a block, on the list `l` that it frees on first. -/
theorem alloc_call (hs : Sited l g) (hdead : g env.res = none)
    (hsite : ∀ i, MemList.find l env.res = some i → i.site = siteOf env.info)
    {f : List Item → Tracer × Effect} (hf : ∀ l, (f l).1.list = l)
    (hcall : ((Tracer.alloc l size env).bind fun l => some (f l)) = some (t', e)) :
    Sited t'.list (Function.update g env.res (some (siteOf env.info))) := by
  obtain ⟨-, heq⟩ := Option.ite_none_right_eq_some.mp ((alloc_bind f).symm.trans hcall)
  obtain rfl : (f (MemList.alloc l env.res size env.info)).1 = t' :=
    congrArg Prod.fst (Option.some.inj heq)
  rw [hf]
  exact hs.alloc hdead hsite

/-- A `realloc` that frees nothing first. -/
theorem realloc_dead (hs : Sited l g) (hdead : g ptr = none)
    (hgets : g.Gets (.realloc ptr size) env)
    (hsite : ∀ i, MemList.find l env.res = some i → i.site = siteOf env.info)
    {f : List Item → Tracer × Effect} (hf : ∀ l, (f l).1.list = l)
    (hcall : ((Tracer.alloc l size env).bind fun l => some (f l)) = some (t', e)) :
    Sited t'.list (g.after (.realloc ptr size) env) := by
  have hres := hgets.2
  rw [Sites.update_dead hdead] at hres
  rw [Sites.after, Sites.update_dead hdead]
  exact hs.alloc_call hres hsite hf hcall

/-- `realloc` of either version. -/
theorem realloc_call (hs : Sited t.list g) (hgets : g.Gets (.realloc ptr size) env)
    (hat : Attributed v t g (.realloc ptr size) env)
    (hcall : t.call v (.realloc ptr size) env = some (t', e)) :
    Sited t'.list (g.after (.realloc ptr size) env) := by
  have hsite := hat.1 trivial
  have hsite' : ∀ i, MemList.find (MemList.dealloc t.list ptr).2 env.res = some i →
      i.site = siteOf env.info := by
    intro i hi
    obtain ⟨j, hj, heq⟩ := hs.site_dealloc hi
    exact heq.trans (hsite j hj)
  cases v with
  | part3 => exact (hs.dealloc_of hat.2).alloc_call hgets.2 hsite' (fun l => rfl) hcall
  | bonus =>
    rw [Tracer.call, reallocBonus] at hcall
    cases hfind : MemList.find t.list ptr with
    | none =>
      have hdead : g ptr = none := hs.eq_none fun i hi => by cases hfind.symm.trans hi
      rw [hfind] at hcall
      exact hs.realloc_dead hdead hgets hsite (fun l => rfl) hcall
    | some i =>
      rw [hfind] at hcall
      dsimp only at hcall
      split at hcall
      · rename_i hpos
        have hlive : g ptr ≠ none := hs.ne_none hfind hpos.ne'
        exact (hs.dealloc hlive).alloc_call hgets.2 hsite' (fun l => rfl) hcall
      split at hcall
      · rename_i hzero
        have hdead : g ptr = none := hs.eq_none fun j hj =>
          Option.some.inj (hfind.symm.trans hj) ▸ hzero
        exact hs.realloc_dead hdead hgets hsite (fun l => rfl) hcall
      · cases hcall

/-- `free` of either version. -/
theorem free_call (hs : Sited t.list g) (hat : Attributed v t g (.free ptr) env)
    (hcall : t.call v (.free ptr) env = some (t', e)) :
    Sited t'.list (Function.update g ptr none) := by
  cases v with
  | part3 =>
    obtain ⟨i, -, heq⟩ := Option.bind_eq_some_iff.mp hcall
    cases heq
    exact hs.dealloc_of hat.2
  | bonus =>
    cases hfind : MemList.find t.list ptr with
    | none =>
      have hdead : g ptr = none := hs.eq_none fun i hi => by cases hfind.symm.trans hi
      cases (freeBonus_never hfind).symm.trans hcall
      rw [Sites.update_dead hdead]
      exact hs
    | some i =>
      by_cases hcnt : i.cnt = 0
      · have hdead : g ptr = none := hs.eq_none fun j hj =>
          Option.some.inj (hfind.symm.trans hj) ▸ hcnt
        cases (freeBonus_freed hfind hcnt).symm.trans hcall
        rw [Sites.update_dead hdead]
        exact hs
      · cases (freeBonus_live hs.sorted hfind hcnt).symm.trans hcall
        exact hs.dealloc (hs.ne_none hfind hcnt)

/-- **One call** of either version. -/
theorem call {c : Call} (hs : Sited t.list g) (hgets : g.Gets c env)
    (hat : Attributed v t g c env) (hcall : t.call v c env = some (t', e)) :
    Sited t'.list (g.after c env) := by
  cases c with
  | malloc size => exact hs.alloc_call hgets.2 (hat.1 trivial) (fun l => rfl) hcall
  | calloc nmemb size => exact hs.alloc_call hgets.2 (hat.1 trivial) (fun l => rfl) hcall
  | realloc ptr size => exact hs.realloc_call hgets hat hcall
  | free ptr => exact hs.free_call hat hcall

/-- The report names the call sites of the live blocks. -/
theorem namesSites (hs : Sited t.list g) : NamesSites t g := by
  intro ptr size cnt fname ofs hmem
  obtain ⟨i, hi, hcnt, heq⟩ := mem_fini_block hmem
  obtain ⟨rfl, -, -, rfl, rfl⟩ := Log.block.inj heq
  have hfind := MemList.find_of_mem hs.sorted hi
  obtain ⟨site, hsite⟩ := Option.ne_none_iff_exists'.mp (hs.ne_none hfind hcnt)
  obtain ⟨j, hj, -, rfl⟩ := hs.live hsite
  obtain rfl := Option.some.inj (hfind.symm.trans hj)
  exact hsite

end Sited

/-! ## Runs -/

theorem sited_inductive (v : Version) :
    (sited v).Inductive (fun st a => Attributed v st.1 st.2 a.1 a.2) fun st =>
      Sited st.1.list st.2 where
  init := by
    rintro st rfl
    exact .init
  step := by
    rintro ⟨t, g⟩ ⟨c, env⟩ ⟨t', g'⟩ hs hat ⟨hgets, ⟨e, hcall⟩, hg⟩
    exact hg ▸ hs.call hgets hat hcall

/-- A run goes on with a call that returns. -/
theorem reach_attributed {v : Version} {t t' : Tracer} {g : Sites} {e : Effect}
    (h : (sited v).ReachWhen (fun st a => Attributed v st.1 st.2 a.1 a.2) (t, g)) (c : Call)
    (env : Env) (hcall : t.call v c env = some (t', e)) (hgets : g.Gets c env)
    (hat : Attributed v t g c env) :
    (sited v).ReachWhen (fun st a => Attributed v st.1 st.2 a.1 a.2) (t', g.after c env) :=
  h.step (a := (c, env)) hat ⟨hgets, ⟨e, hcall⟩, rfl⟩

/-- **The report names the right call sites** as long as an address is returned to
calls from one call site only, and `part3` frees no pointer twice. -/
theorem report_names_sites (v : Version) {t : Tracer} {g : Sites}
    (h : (sited v).ReachWhen (fun st a => Attributed v st.1 st.2 a.1 a.2) (t, g)) :
    NamesSites t g :=
  ((sited_inductive v).holds h).namesSites

/-- The allocator returns the address `res` to a call from `f`, with an offset. -/
def returningTo (res ofs : ℕ) : Env := ⟨res, some ([102], ofs), true⟩

/-- A block is freed, and its address is returned to a call from the same place. -/
theorem report_names_sites_run : ∃ t g, (sited .part3).Reach (t, g) ∧
    g 16 = some ([102], 1) ∧ .block 16 24 1 [102] 1 ∈ t.fini.getD [] ∧ NamesSites t g := by
  have h₁ : (sited .part3).ReachWhen _ (_, _) := reach_attributed (.init rfl) (.malloc 8)
    (returningTo 16 1) rfl ⟨by decide, rfl⟩ ⟨fun _ i hi => (by cases hi), trivial⟩
  have h₂ : (sited .part3).ReachWhen _ (_, _) := reach_attributed h₁ (.free 16) (returning 0)
    rfl trivial ⟨False.elim, fun hdead => by cases hdead⟩
  have h₃ : (sited .part3).ReachWhen _ (_, _) := reach_attributed h₂ (.malloc 24)
    (returningTo 16 1) rfl ⟨by decide, rfl⟩ ⟨fun _ i hi => by cases hi; rfl, trivial⟩
  exact ⟨_, _, h₃.reach, rfl, by decide, report_names_sites .part3 h₃⟩

/-- A call of version `v`, as a function. -/
def sitedNext (v : Version) (st : Tracer × Sites) (a : Call × Env) : Option (Tracer × Sites) :=
  if st.2.Gets a.1 a.2 then (st.1.call v a.1 a.2).map fun r => (r.1, st.2.after a.1 a.2) else none

theorem sitedNext_step {v : Version} {st st' : Tracer × Sites} {a : Call × Env}
    (hnext : sitedNext v st a = some st') : True ∧ (sited v).step st a st' := by
  obtain ⟨hgets, hmap⟩ := Option.ite_none_right_eq_some.mp hnext
  obtain ⟨r, hr, rfl⟩ := Option.map_eq_some_iff.mp hmap
  exact ⟨trivial, hgets, ⟨r.2, hr⟩, rfl⟩

/-- A block is freed, and its address is returned to a call from elsewhere. -/
def reuse : List (Call × Env) :=
  [(.malloc 8, returningTo 16 1), (.free 16, returning 0), (.malloc 8, returningTo 16 2)]

/-- A run after which the report names another call site. -/
theorem misnamed {v : Version}
    (hrun : (Machine.exec (sitedNext v) (Tracer.init, fun _ => none) reuse).any (fun st => decide
      (.block 16 8 1 [102] 1 ∈ st.1.fini.getD [] ∧ st.2 16 = some ([102], 2))) = true) :
    ∃ t g, (sited v).Reach (t, g) ∧ ¬NamesSites t g := by
  obtain ⟨⟨t, g⟩, hexec, hst⟩ := (Option.any_eq_true ..).mp hrun
  obtain ⟨hline, hsite⟩ := of_decide_eq_true hst
  refine ⟨t, g, Machine.ReachWhen.exec (fun _ _ _ => sitedNext_step) (.init rfl) hexec, ?_⟩
  intro hnames
  cases (hnames 16 8 1 [102] 1 hline).symm.trans hsite

/-- **A revived item keeps its call site**, in both versions. -/
theorem revived_keeps_site : (∃ t g, (sited .part3).Reach (t, g) ∧ ¬NamesSites t g) ∧
    ∃ t g, (sited .bonus).Reach (t, g) ∧ ¬NamesSites t g :=
  ⟨misnamed (by decide), misnamed (by decide)⟩

end Tracer

end SysProgLab
