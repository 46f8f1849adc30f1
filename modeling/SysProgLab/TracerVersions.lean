import SysProgLab.TracerFailures

/-!
# The two versions of the tracer

On a program that frees and reallocates live pointers only, `part3` and `bonus` do
the same. The call sites, which each version asks `get_callinfo` for, may differ;
no wrapper reads them, so both versions are compared without them.
-/

namespace SysProgLab

/-! ## Without call sites -/

/-- The item without its call site. -/
def Item.bare (i : Item) : Item := { i with fname := [], ofs := 0 }

/-- The answers without the call site. -/
def Env.bare (env : Env) : Env := { env with info := some ([], 0) }

/-- The globals without the call sites. -/
def Tracer.bare (t : Tracer) : Tracer := { t with list := t.list.map Item.bare }

namespace MemList

variable {l : List Item} {ptr : ℕ} {size : Size} {i : Item}

theorem newItem_bare (ptr : ℕ) (size : Size) (info : CallInfo) :
    (newItem ptr size info).bare = newItem ptr size (some ([], 0)) := by
  cases info <;> rfl

theorem insert_bare (i : Item) (l : List Item) :
    (insert i l).map Item.bare = insert i.bare (l.map Item.bare) := by
  induction l with
  | nil => rfl
  | cons cur l ih =>
    rw [insert, List.map_cons, insert]
    by_cases hlt : cur.ptr < i.ptr
    · rw [if_pos hlt, if_pos (show cur.bare.ptr < i.bare.ptr from hlt), List.map_cons, ih]
    by_cases heq : cur.ptr = i.ptr
    · rw [if_neg hlt, if_neg (show ¬cur.bare.ptr < i.bare.ptr from hlt), if_pos heq,
        if_pos (show cur.bare.ptr = i.bare.ptr from heq)]
      rfl
    · rw [if_neg hlt, if_neg (show ¬cur.bare.ptr < i.bare.ptr from hlt), if_neg heq,
        if_neg (show ¬cur.bare.ptr = i.bare.ptr from heq)]
      rfl

theorem dealloc_bare (l : List Item) (ptr : ℕ) :
    dealloc (l.map Item.bare) ptr =
      ((dealloc l ptr).1.map Item.bare, (dealloc l ptr).2.map Item.bare) := by
  induction l with
  | nil => rfl
  | cons cur l ih =>
    rw [dealloc, List.map_cons, dealloc, ih]
    by_cases heq : cur.ptr = ptr
    · rw [if_neg (not_not.mpr heq), if_neg (not_not.mpr (show cur.bare.ptr = ptr from heq))]
      rfl
    · rw [if_pos heq, if_pos (show ¬cur.bare.ptr = ptr from heq)]
      rfl

theorem find_bare (l : List Item) (ptr : ℕ) :
    find (l.map Item.bare) ptr = (find l ptr).map Item.bare := by
  induction l with
  | nil => rfl
  | cons cur l ih =>
    rw [find, List.map_cons, find, ih]
    by_cases hlt : cur.ptr < ptr
    · rw [if_pos hlt, if_pos (show cur.bare.ptr < ptr from hlt)]
    by_cases heq : cur.ptr = ptr
    · rw [if_neg hlt, if_neg (show ¬cur.bare.ptr < ptr from hlt), if_pos heq,
        if_pos (show cur.bare.ptr = ptr from heq)]
      rfl
    · rw [if_neg hlt, if_neg (show ¬cur.bare.ptr < ptr from hlt), if_neg heq,
        if_neg (show ¬cur.bare.ptr = ptr from heq)]
      rfl

end MemList

namespace Tracer

section Bare

variable {t : Tracer} {c : Call} {env : Env}

theorem alloc_bare (l : List Item) (size : Size) (env : Env) :
    Tracer.alloc (l.map Item.bare) size env.bare =
      (Tracer.alloc l size env).map (List.map Item.bare) := by
  rw [Tracer.alloc, Tracer.alloc]
  by_cases hitem : env.item = true
  · rw [if_pos hitem, if_pos (show env.bare.item = true from hitem), Option.map_some,
      MemList.alloc, MemList.alloc, MemList.insert_bare, MemList.newItem_bare]
    rfl
  · rw [if_neg hitem, if_neg (show ¬env.bare.item = true from hitem), Option.map_none]

/-- What a wrapper does with the list it gets from `alloc`. -/
theorem bind_alloc_bare {l : List Item} {size : Size} {f g : List Item → Tracer × Effect}
    (hfg : ∀ l, g (l.map Item.bare) = ((f l).1.bare, (f l).2)) :
    ((Tracer.alloc (l.map Item.bare) size env.bare).bind fun l => some (g l)) =
      ((Tracer.alloc l size env).bind fun l => some (f l)).map fun r => (r.1.bare, r.2) := by
  rw [alloc_bare]
  cases Tracer.alloc l size env with
  | none => rfl
  | some l => exact congrArg some (hfg l)

/-- **No wrapper of `part3` reads a call site.** -/
theorem call_bare (t : Tracer) (c : Call) (env : Env) :
    t.bare.call .part3 c env.bare = (t.call .part3 c env).map fun r => (r.1.bare, r.2) := by
  cases c with
  | malloc size => exact bind_alloc_bare fun l => rfl
  | calloc nmemb size => exact bind_alloc_bare fun l => rfl
  | realloc ptr size =>
    have hlist : (MemList.dealloc t.bare.list ptr).2 =
        (MemList.dealloc t.list ptr).2.map Item.bare :=
      congrArg Prod.snd (MemList.dealloc_bare t.list ptr)
    have hfind : MemList.find t.bare.list ptr = (MemList.find t.list ptr).map Item.bare :=
      MemList.find_bare t.list ptr
    rw [Tracer.call, Tracer.call, reallocPart3, reallocPart3, hlist, hfind]
    cases MemList.find t.list ptr with
    | none => exact bind_alloc_bare fun l => rfl
    | some i => exact bind_alloc_bare fun l => rfl
  | free ptr =>
    have hdealloc : MemList.dealloc t.bare.list ptr = _ := MemList.dealloc_bare t.list ptr
    rw [Tracer.call, Tracer.call, freePart3, freePart3, hdealloc]
    cases (MemList.dealloc t.list ptr).1 with
    | none => rfl
    | some i => rfl

end Bare

/-! ## Legal programs -/

/-- The program frees and reallocates live pointers only. -/
def Proper (h : History) (c : Call) (env : Env) : Prop :=
  h.Legal c env ∧
    match c with
    | .realloc ptr _ | .free ptr => (h.status ptr).isLive = true
    | .malloc _ | .calloc _ _ => True

/-- All calls of a program are legal. -/
def ProperRun : History → List (Call × Env) → Prop
  | _, [] => True
  | h, (c, env) :: as => Proper h c env ∧ ProperRun (h.after c env.res) as

instance (h : History) (c : Call) (env : Env) : Decidable (Proper h c env) :=
  match c with
  | .realloc ptr _ | .free ptr =>
    inferInstanceAs (Decidable (_ ∧ (h.status ptr).isLive = true))
  | .malloc _ | .calloc _ _ => inferInstanceAs (Decidable (_ ∧ True))

/-- The same call, which is answered with the same address. -/
def SameAnswer (a b : Call × Env) : Prop :=
  a.1 = b.1 ∧ a.2.res = b.2.res ∧ a.2.item = b.2.item

/-- The wrappers of a version run through the calls of a program. -/
def play (v : Version) : Tracer → List (Call × Env) → Option (Tracer × List Effect)
  | t, [] => some (t, [])
  | t, (c, env) :: as => do
    let (t', e) ← t.call v c env
    let (t'', es) ← play v t' as
    some (t'', e :: es)

/-- The lists hold the same blocks, and the counters are the same. -/
structure SameGlobals (t t' : Tracer) : Prop where
  list : t.list.map (fun i => (i.ptr, i.size, i.cnt)) =
    t'.list.map fun i => (i.ptr, i.size, i.cnt)
  nMalloc : t.nMalloc = t'.nMalloc
  nCalloc : t.nCalloc = t'.nCalloc
  nRealloc : t.nRealloc = t'.nRealloc
  nAllocb : t.nAllocb = t'.nAllocb
  nFreeb : t.nFreeb = t'.nFreeb

section Legal

variable {t t' : Tracer} {h : History} {c : Call} {env : Env} {a b : Call × Env}

theorem sameGlobals (heq : t.bare = t'.bare) : SameGlobals t t' := by
  have hlist : ∀ l : List Item, l.map (fun i => (i.ptr, i.size, i.cnt)) =
      (l.map Item.bare).map fun i => (i.ptr, i.size, i.cnt) := fun l => by
    rw [List.map_map]
    rfl
  rw [bare, bare, Tracer.mk.injEq] at heq
  obtain ⟨h₁, h₂, h₃, h₄, h₅, h₆⟩ := heq
  exact ⟨by rw [hlist, h₁, ← hlist], h₂, h₃, h₄, h₅, h₆⟩

/-- The same answers are the same without the call site. -/
theorem SameAnswer.bare (hab : SameAnswer a b) : a.2.bare = b.2.bare := by
  obtain ⟨-, hres, hitem⟩ := hab
  rw [Env.bare, Env.bare, hres, hitem]

theorem SameAnswer.proper (hab : SameAnswer a b) (hp : Proper h a.1 a.2) : Proper h b.1 b.2 := by
  obtain ⟨c, res, info, item⟩ := a
  obtain ⟨c', res', info', item'⟩ := b
  obtain ⟨rfl, rfl, rfl⟩ := hab
  cases c <;> exact hp

/-- **One legal call** does the same in both versions. -/
theorem call_versions (ha : Agrees t.list h) (hp : Proper h c env) :
    t.call .part3 c env = t.call .bonus c env := by
  have hlive : ∀ ptr, (h.status ptr).isLive = true →
      ∃ i, MemList.find t.list ptr = some i ∧ 0 < i.cnt := by
    intro ptr hptr
    cases hg : h.status ptr with
    | live size =>
      obtain ⟨i, hi, hcnt, -⟩ := ha.find_live hg
      exact ⟨i, hi, by omega⟩
    | never =>
      rw [hg] at hptr
      cases hptr
    | freed =>
      rw [hg] at hptr
      cases hptr
  cases c with
  | malloc size => rfl
  | calloc nmemb size => rfl
  | realloc ptr size =>
    obtain ⟨i, hi, hcnt⟩ := hlive ptr hp.2
    rw [Tracer.call, Tracer.call, reallocPart3, reallocBonus, hi]
    dsimp only
    rw [if_pos hcnt, if_pos hcnt]
  | free ptr =>
    obtain ⟨i, hi, hcnt⟩ := hlive ptr hp.2
    rw [Tracer.call, Tracer.call, freePart3, freeBonus, hi]
    dsimp only
    rw [if_neg hcnt.ne']

/-- A legal call is not flagged. -/
theorem Classified.not_flagged {e : Effect} (hc : Classified h c env e) (hp : Proper h c env) :
    ¬Flagged e.log := by
  have hnot : ∀ ptr, (h.status ptr).isLive = true → Flags (h.status ptr) e.log →
      ¬Flagged e.log := by
    intro ptr hptr hflags
    rintro (hill | hdouble)
    · rw [hflags.1.mp hill] at hptr
      cases hptr
    · rw [hflags.2.mp hdouble] at hptr
      cases hptr
  cases c with
  | malloc size => exact not_or.mpr ⟨hc.1, hc.2.1⟩
  | calloc nmemb size => exact not_or.mpr ⟨hc.1, hc.2.1⟩
  | realloc ptr size => exact hnot ptr hp.2 hc.1
  | free ptr => exact hnot ptr hp.2 hc.1

end Legal

/-! ## Both versions, side by side -/

section Play

variable {t tb : Tracer} {h : History} {c c' : Call} {env env' : Env}

/-- **One legal call**, made of both versions. -/
theorem call_both (hbare : t.bare = tb.bare) (ha : Accounts tb h) (hp : Proper h c env)
    (hsame : SameAnswer (c, env) (c', env')) :
    ∃ t' tb' e, t.call .part3 c env = some (t', e) ∧ tb.call .bonus c' env' = some (tb', e) ∧
      t'.bare = tb'.bare ∧ Accounts tb' (h.after c env.res) ∧ ¬Flagged e.log := by
  have hp' : Proper h c' env' := hsame.proper hp
  have henv : env.bare = env'.bare := hsame.bare
  obtain ⟨rfl, hres, -⟩ := hsame
  dsimp only at hres
  obtain ⟨tb', e, hcall, ha', hc⟩ := ha.call hp'.1
  have hbonus : (t.call .part3 c env).map (fun r => (r.1.bare, r.2)) = some (tb'.bare, e) :=
    calc (t.call .part3 c env).map (fun r => (r.1.bare, r.2))
        = t.bare.call .part3 c env.bare := (call_bare t c env).symm
      _ = tb.bare.call .part3 c env'.bare := by rw [hbare, henv]
      _ = (tb.call .part3 c env').map fun r => (r.1.bare, r.2) := call_bare tb c env'
      _ = some (tb'.bare, e) := by rw [call_versions ha.agrees hp', hcall, Option.map_some]
  obtain ⟨⟨t', e'⟩, hpart3, heq⟩ := Option.map_eq_some_iff.mp hbonus
  obtain ⟨hb, rfl⟩ := Prod.mk.inj heq
  exact ⟨t', tb', e', hpart3, hcall, hb, hres ▸ ha', hc.not_flagged hp'⟩

theorem play_cons {v : Version} {t' t'' : Tracer} {e : Effect} {es : List Effect}
    {as : List (Call × Env)} (hcall : t.call v c env = some (t', e))
    (hplay : play v t' as = some (t'', es)) :
    play v t ((c, env) :: as) = some (t'', e :: es) := by
  simp [play, hcall, hplay]

/-- **A legal program**, run through both versions. -/
theorem play_both {p q : List (Call × Env)} (hbare : t.bare = tb.bare) (ha : Accounts tb h)
    (hp : ProperRun h p) (hsame : List.Forall₂ SameAnswer p q) :
    ∃ t' tb' es, play .part3 t p = some (t', es) ∧ play .bonus tb q = some (tb', es) ∧
      t'.bare = tb'.bare ∧ ∀ e ∈ es, ¬Flagged e.log := by
  induction hsame generalizing t tb h with
  | nil => exact ⟨t, tb, [], rfl, rfl, hbare, fun e he => by cases he⟩
  | @cons a b as bs hab hsame ih =>
    obtain ⟨c, env⟩ := a
    obtain ⟨c', env'⟩ := b
    obtain ⟨hproper, hrest⟩ := hp
    obtain ⟨t₁, tb₁, e, hcall, hcallb, hbare₁, ha₁, hflag⟩ := call_both hbare ha hproper hab
    obtain ⟨t₂, tb₂, es, hplay, hplayb, hbare₂, hflags⟩ := ih hbare₁ ha₁ hrest
    refine ⟨t₂, tb₂, e :: es, ?_, ?_, hbare₂, List.forall_mem_cons.mpr ⟨hflag, hflags⟩⟩
    · exact play_cons hcall hplay
    · exact play_cons hcallb hplayb

end Play

/-- **Both versions do the same on legal programs**: they make the same underlying
calls, return the same pointers and log the same lines, none of which flags a free,
and their globals agree in the end. -/
theorem versions_agree {p q : List (Call × Env)} (hp : ProperRun .init p)
    (hsame : List.Forall₂ SameAnswer p q) :
    ∃ t tb es, play .part3 .init p = some (t, es) ∧ play .bonus .init q = some (tb, es) ∧
      SameGlobals t tb ∧ ∀ e ∈ es, ¬Flagged e.log := by
  obtain ⟨t, tb, es, hplay, hplayb, hbare, hflags⟩ := play_both rfl Accounts.init hp hsame
  exact ⟨t, tb, es, hplay, hplayb, sameGlobals hbare, hflags⟩

/-- An address is reused, and a block is resized in place. -/
theorem versions_agree_reuse :
    ∃ t tb es, play .part3 .init [(.malloc 8, returning 16), (.free 16, returning 0),
        (.calloc 2 4, returning 16), (.realloc 16 24, returning 16),
        (.realloc 16 32, returning 48)] = some (t, es) ∧
      play .bonus .init [(.malloc 8, ⟨16, some ([102], 1), true⟩), (.free 16, returning 0),
        (.calloc 2 4, returning 16), (.realloc 16 24, returning 16),
        (.realloc 16 32, returning 48)] = some (tb, es) ∧
      SameGlobals t tb ∧ ∀ e ∈ es, ¬Flagged e.log :=
  versions_agree ⟨by decide, by decide, by decide, by decide, by decide, trivial⟩
    (.cons ⟨rfl, rfl, rfl⟩ (.cons ⟨rfl, rfl, rfl⟩ (.cons ⟨rfl, rfl, rfl⟩ (.cons ⟨rfl, rfl, rfl⟩
      (.cons ⟨rfl, rfl, rfl⟩ .nil)))))

end Tracer

end SysProgLab
