import SysProgLab.Tracer
import SysProgLab.Machine

/-!
# Runs of the tracer

The `bonus` tracer over an allocator that always succeeds, beside what is true of
each address: never returned, live with a size, or freed. The list classifies
every pointer by that, so the wrappers flag and forward what they should, and the
byte counters account for the live blocks.
-/

namespace SysProgLab

/-- What is true of an address. -/
inductive Ghost : Type where
  /-- never returned -/
  | never
  /-- live, with its latest size -/
  | live (size : Size)
  /-- returned, and freed since -/
  | freed
  deriving DecidableEq

/-- The address is live. -/
def Ghost.isLive : Ghost → Bool
  | .live _ => true
  | _ => false

/-- What is true of every address, and the sum of all requested sizes. -/
structure History : Type where
  /-- what is true of an address -/
  status : ℕ → Ghost
  /-- the sum of the requested sizes, in full -/
  requested : ℕ

namespace History

/-- Before the first call. -/
def init : History := ⟨fun _ => .never, 0⟩

/-- The address `p` is no longer live. -/
def release (h : History) (p : ℕ) : History :=
  if (h.status p).isLive = true then { h with status := Function.update h.status p .freed } else h

/-- A block of `size` bytes at `p` is returned, for a request of `bytes`. -/
def grant (h : History) (p : ℕ) (size : Size) (bytes : ℕ) : History :=
  ⟨Function.update h.status p (.live size), h.requested + bytes⟩

theorem grant_status {h : History} {p : ℕ} {size : Size} {bytes : ℕ} :
    (h.grant p size bytes).status p = .live size :=
  show Function.update h.status p (Ghost.live size) p = _ from Function.update_self p _ _

theorem release_live {h : History} {p : ℕ} {size : Size} (hp : h.status p = .live size) :
    h.release p = { h with status := Function.update h.status p .freed } :=
  if_pos (by rw [hp]; rfl)

theorem release_dead {h : History} {p : ℕ} (hp : (h.status p).isLive = false) :
    h.release p = h :=
  if_neg (by rw [hp]; decide)

/-- What a call that returns `res` means. -/
def after (h : History) (c : Call) (res : ℕ) : History :=
  match c with
  | .malloc size => h.grant res size size.toNat
  | .calloc nmemb size => h.grant res (nmemb * size) (nmemb.toNat * size.toNat)
  | .realloc ptr size => (h.release ptr).grant res size size.toNat
  | .free ptr => h.release ptr

/-- The allocator succeeds, with an address that is not live; a `realloc` may
return the block it has just released. -/
def Legal (h : History) (c : Call) (env : Env) : Prop :=
  match c with
  | .malloc _ | .calloc _ _ => env.item = true ∧ env.res ≠ 0 ∧ (h.status env.res).isLive = false
  | .realloc ptr size => size ≠ 0 ∧ env.item = true ∧ env.res ≠ 0 ∧
      ((h.release ptr).status env.res).isLive = false
  | .free _ => True

instance (h : History) (c : Call) (env : Env) : Decidable (h.Legal c env) :=
  match c with
  | .malloc _ | .calloc _ _ =>
    inferInstanceAs (Decidable (env.item = true ∧ env.res ≠ 0 ∧ (h.status env.res).isLive = false))
  | .realloc ptr size =>
    inferInstanceAs (Decidable (size ≠ 0 ∧ env.item = true ∧ env.res ≠ 0 ∧
      ((h.release ptr).status env.res).isLive = false))
  | .free _ => inferInstanceAs (Decidable True)

end History

namespace Tracer

/-- The `bonus` tracer and the history of the addresses. -/
def tracing : Machine (Tracer × History) (Call × Env) where
  init st := st = (Tracer.init, .init)
  step st a st' := st.2.Legal a.1 a.2 ∧ (∃ e, st.1.call .bonus a.1 a.2 = some (st'.1, e)) ∧
    st'.2 = st.2.after a.1 a.2.res

/-- What the list has to say about an address. -/
def Matches : Ghost → Option Item → Prop
  | .never, i => i = none
  | .live size, i => ∃ j, i = some j ∧ j.cnt = 1 ∧ j.size = size
  | .freed, i => ∃ j, i = some j ∧ j.cnt = 0

/-- The list agrees with the history. -/
structure Agrees (l : List Item) (h : History) : Prop where
  sorted : MemList.Sorted l
  matches' : ∀ p, Matches (h.status p) (MemList.find l p)

namespace Agrees

variable {l : List Item} {h : History} {ptr : ℕ}

theorem init : Agrees [] .init := ⟨List.Pairwise.nil, fun _ => rfl⟩

theorem find_live (ha : Agrees l h) {size : Size} (hp : h.status ptr = .live size) :
    ∃ i, MemList.find l ptr = some i ∧ i.cnt = 1 ∧ i.size = size := by
  have hm := ha.matches' ptr
  rw [hp] at hm
  exact hm

theorem find_freed (ha : Agrees l h) (hp : h.status ptr = .freed) :
    ∃ i, MemList.find l ptr = some i ∧ i.cnt = 0 := by
  have hm := ha.matches' ptr
  rw [hp] at hm
  exact hm

theorem find_never (ha : Agrees l h) (hp : h.status ptr = .never) :
    MemList.find l ptr = none := by
  have hm := ha.matches' ptr
  rw [hp] at hm
  exact hm

theorem cnt_of_dead (ha : Agrees l h) (hdead : (h.status ptr).isLive = false) {i : Item}
    (hi : MemList.find l ptr = some i) : i.cnt = 0 := by
  cases hg : h.status ptr with
  | never =>
    rw [ha.find_never hg] at hi
    cases hi
  | live size =>
    rw [hg] at hdead
    cases hdead
  | freed =>
    obtain ⟨j, hj, hjc⟩ := ha.find_freed hg
    rw [hj] at hi
    exact Option.some.inj hi ▸ hjc

/-- `alloc` on an address that is not live. -/
theorem alloc (ha : Agrees l h) (hdead : (h.status ptr).isLive = false) (size : Size)
    (info : CallInfo) (bytes : ℕ) :
    Agrees (MemList.alloc l ptr size info) (h.grant ptr size bytes) := by
  refine ⟨ha.sorted.insert _, fun p => ?_⟩
  rw [MemList.alloc, MemList.find_insert ha.sorted, MemList.newItem_ptr, History.grant]
  dsimp only
  by_cases hp : p = ptr
  · subst hp
    rw [Function.update_self, if_pos rfl]
    refine ⟨_, rfl, ?_⟩
    cases hg : h.status p with
    | never =>
      rw [ha.find_never hg]
      exact ⟨MemList.newItem_cnt, MemList.newItem_size⟩
    | live size =>
      rw [hg] at hdead
      cases hdead
    | freed =>
      obtain ⟨k, hk, hkc⟩ := ha.find_freed hg
      rw [hk]
      exact ⟨(congrArg (· + 1) hkc).trans rfl, MemList.newItem_size⟩
  · rw [Function.update_of_ne hp, if_neg hp]
    exact ha.matches' p

/-- `dealloc` on a live address. -/
theorem dealloc (ha : Agrees l h) {size : Size} (hlive : h.status ptr = .live size) :
    Agrees (MemList.dealloc l ptr).2 (h.release ptr) := by
  refine ⟨ha.sorted.dealloc, fun p => ?_⟩
  rw [MemList.find_dealloc ha.sorted, History.release_live hlive]
  dsimp only
  by_cases hp : p = ptr
  · subst hp
    have hm := ha.matches' p
    rw [hlive] at hm
    obtain ⟨j, hj, hjc, -⟩ := hm
    rw [Function.update_self, if_pos rfl, hj]
    exact ⟨_, rfl, by simp [hjc]⟩
  · rw [Function.update_of_ne hp, if_neg hp]
    exact ha.matches' p

end Agrees

/-! ## Live bytes -/

/-- The sum of the sizes of the items that are allocated. -/
def liveSum (l : List Item) : Size := ((l.filter fun i => decide (0 < i.cnt)).map Item.size).sum

theorem liveSum_cons (i : Item) (l : List Item) :
    liveSum (i :: l) = (if 0 < i.cnt then i.size else 0) + liveSum l := by
  by_cases hi : 0 < i.cnt <;> simp [liveSum, hi]

/-- Allocating a pointer whose item is not allocated adds the size. -/
theorem liveSum_insert {l : List Item} {i : Item} (hi : i.cnt = 1)
    (hdead : ∀ j, MemList.find l i.ptr = some j → j.cnt = 0) :
    liveSum (MemList.insert i l) = liveSum l + i.size := by
  induction l with
  | nil =>
    rw [MemList.insert, liveSum_cons, if_pos (by omega), add_comm]
  | cons cur l ih =>
    rw [MemList.find] at hdead
    rw [MemList.insert]
    split
    · rename_i hlt
      rw [if_pos hlt] at hdead
      rw [liveSum_cons, liveSum_cons, ih hdead, add_assoc]
    rename_i hle
    rw [if_neg hle] at hdead
    split
    · rename_i heq
      rw [if_pos heq] at hdead
      have hcur := hdead cur rfl
      rw [liveSum_cons, liveSum_cons, if_pos (by dsimp only; omega), if_neg (by omega), zero_add,
        add_comm]
    · rw [liveSum_cons, if_pos (by omega), add_comm]

/-- Deallocating a pointer whose item is allocated once takes the size off. -/
theorem liveSum_dealloc {l : List Item} {ptr : ℕ} {i : Item} (hl : MemList.Sorted l)
    (hfind : MemList.find l ptr = some i) (hi : i.cnt = 1) :
    liveSum (MemList.dealloc l ptr).2 + i.size = liveSum l := by
  induction l with
  | nil => cases hfind
  | cons cur l ih =>
    obtain ⟨hcur, htail⟩ := List.pairwise_cons.mp hl
    rw [MemList.find] at hfind
    rw [MemList.dealloc]
    by_cases hp : cur.ptr = ptr
    · rw [if_neg hp.not_lt, if_pos hp] at hfind
      obtain rfl : cur = i := Option.some.inj hfind
      rw [if_neg (not_not.mpr hp), liveSum_cons, liveSum_cons, if_neg (by dsimp only; omega),
        if_pos (by omega), zero_add, add_comm]
    · rw [if_neg hp] at hfind
      rw [if_pos hp, liveSum_cons, liveSum_cons, add_assoc]
      split at hfind
      · rw [ih htail hfind]
      · cases hfind

/-! ## The calls that succeed -/

section Calls

variable {t : Tracer} {nmemb size : Size} {ptr : ℕ} {env : Env} {i : Item}

theorem alloc_of_item {l : List Item} (hitem : env.item = true) :
    Tracer.alloc l size env = some (MemList.alloc l env.res size env.info) := if_pos hitem

theorem malloc_of_item (t : Tracer) (size : Size) (hitem : env.item = true) :
    t.malloc size env = some ({ t with
        list := MemList.alloc t.list env.res size env.info
        nMalloc := t.nMalloc + 1
        nAllocb := t.nAllocb + size },
      ⟨[.malloc size], [.malloc size env.res], env.res⟩) := by
  rw [Tracer.malloc, alloc_of_item hitem]
  rfl

theorem calloc_of_item (hitem : env.item = true) :
    t.calloc nmemb size env = some ({ t with
        list := MemList.alloc t.list env.res (nmemb * size) env.info
        nCalloc := t.nCalloc + 1
        nAllocb := t.nAllocb + nmemb * size },
      ⟨[.calloc nmemb size], [.calloc nmemb size env.res], env.res⟩) := by
  rw [Tracer.calloc, alloc_of_item hitem]
  rfl

theorem reallocBonus_live (hitem : env.item = true) (hfind : MemList.find t.list ptr = some i)
    (hcnt : 0 < i.cnt) :
    t.reallocBonus ptr size env =
      some (t.endRealloc size
          (MemList.alloc (MemList.dealloc t.list ptr).2 env.res size env.info) i.size,
        ⟨[.realloc ptr size], [.realloc ptr size env.res], env.res⟩) := by
  rw [Tracer.reallocBonus, hfind]
  dsimp only
  rw [if_pos hcnt, alloc_of_item hitem]
  rfl

theorem reallocBonus_freed (hitem : env.item = true) (hfind : MemList.find t.list ptr = some i)
    (hcnt : i.cnt = 0) :
    t.reallocBonus ptr size env =
      some (t.endRealloc size (MemList.alloc t.list env.res size env.info) 0,
        ⟨[.realloc 0 size], [.realloc ptr size env.res, .doubleFree], env.res⟩) := by
  rw [Tracer.reallocBonus, hfind]
  dsimp only
  rw [if_neg (by omega), if_pos hcnt, alloc_of_item hitem]
  rfl

theorem reallocBonus_never (hitem : env.item = true) (hfind : MemList.find t.list ptr = none) :
    t.reallocBonus ptr size env =
      some (t.endRealloc size (MemList.alloc t.list env.res size env.info) 0,
        ⟨[.realloc 0 size], [.realloc ptr size env.res, .illFree], env.res⟩) := by
  rw [Tracer.reallocBonus, hfind]
  dsimp only
  rw [alloc_of_item hitem]
  rfl

theorem freeBonus_live (hl : MemList.Sorted t.list) (hfind : MemList.find t.list ptr = some i)
    (hcnt : i.cnt ≠ 0) :
    t.freeBonus ptr = some ({ t with
        list := (MemList.dealloc t.list ptr).2
        nFreeb := t.nFreeb + i.size },
      ⟨[.free ptr], [.free ptr], 0⟩) := by
  rw [Tracer.freeBonus, hfind, MemList.dealloc_fst hl, hfind]
  exact if_neg hcnt

theorem freeBonus_freed (hfind : MemList.find t.list ptr = some i) (hcnt : i.cnt = 0) :
    t.freeBonus ptr = some (t, ⟨[], [.free ptr, .doubleFree], 0⟩) := by
  rw [Tracer.freeBonus, hfind]
  exact if_pos hcnt

theorem freeBonus_never (hfind : MemList.find t.list ptr = none) :
    t.freeBonus ptr = some (t, ⟨[], [.free ptr, .illFree], 0⟩) := by
  rw [Tracer.freeBonus, hfind]

end Calls

/-! ## Classification -/

/-- The flags in the log tell what is true of the pointer. -/
def Flags (g : Ghost) (log : List Log) : Prop :=
  (.illFree ∈ log ↔ g = .never) ∧ (.doubleFree ∈ log ↔ g = .freed)

/-- What a call must log and hand on, given what is true of the addresses. -/
def Classified (h : History) (c : Call) (env : Env) (e : Effect) : Prop :=
  match c with
  | .malloc size =>
    .illFree ∉ e.log ∧ .doubleFree ∉ e.log ∧ e.sys = [.malloc size] ∧ e.ret = env.res
  | .calloc nmemb size =>
    .illFree ∉ e.log ∧ .doubleFree ∉ e.log ∧ e.sys = [.calloc nmemb size] ∧ e.ret = env.res
  | .realloc ptr size =>
    Flags (h.status ptr) e.log ∧ e.ret = env.res ∧
      e.sys = [.realloc (if (h.status ptr).isLive = true then ptr else 0) size]
  | .free ptr =>
    Flags (h.status ptr) e.log ∧
      e.sys = if (h.status ptr).isLive = true then [.free ptr] else []

/-- The underlying functions are handed live pointers only, apart from `NULL`. -/
def HandsLive (h : History) (e : Effect) : Prop :=
  ∀ ptr, (.free ptr ∈ e.sys ∨ ptr ≠ 0 ∧ ∃ size, .realloc ptr size ∈ e.sys) →
    (h.status ptr).isLive = true

theorem Classified.handsLive {h : History} {c : Call} {env : Env} {e : Effect}
    (hc : Classified h c env e) : HandsLive h e := by
  intro q hq
  cases c with
  | malloc size => simp [hc.2.2.1] at hq
  | calloc nmemb size => simp [hc.2.2.1] at hq
  | realloc ptr size =>
    rw [hc.2.2] at hq
    by_cases hlive : (h.status ptr).isLive = true
    · simp only [if_pos hlive, List.mem_singleton, reduceCtorEq, Sys.realloc.injEq,
        false_or] at hq
      obtain ⟨-, -, rfl, -⟩ := hq
      exact hlive
    · simp only [if_neg hlive, List.mem_singleton, reduceCtorEq, Sys.realloc.injEq,
        false_or] at hq
      obtain ⟨hq, -, rfl, -⟩ := hq
      exact absurd rfl hq
  | free ptr =>
    rw [hc.2] at hq
    by_cases hlive : (h.status ptr).isLive = true
    · simp only [if_pos hlive, List.mem_singleton, reduceCtorEq, Sys.free.injEq, exists_false,
        and_false, or_false] at hq
      exact hq ▸ hlive
    · simp [if_neg hlive] at hq

/-- The list agrees with the history, and the counters account for it. -/
structure Accounts (t : Tracer) (h : History) : Prop where
  agrees : Agrees t.list h
  allocb : t.nAllocb = BitVec.ofNat 64 h.requested
  liveb : t.nAllocb - t.nFreeb = liveSum t.list

namespace Accounts

variable {t : Tracer} {h : History} {c : Call} {env : Env} {ptr : ℕ} {size : Size}

theorem init : Accounts .init .init := ⟨.init, rfl, rfl⟩

theorem ofNat_size (size : Size) : BitVec.ofNat 64 size.toNat = size := by simp

/-- An allocation beside the counter of freed bytes. -/
theorem alloc (ha : Agrees t.list h) (hb : t.nAllocb = BitVec.ofNat 64 h.requested)
    {freed : Size} (hlive : t.nAllocb - freed = liveSum t.list)
    (hdead : (h.status ptr).isLive = false)
    (size : Size) (info : CallInfo) {bytes : ℕ} (hbytes : BitVec.ofNat 64 bytes = size)
    {t' : Tracer} (hl : t'.list = MemList.alloc t.list ptr size info)
    (hA : t'.nAllocb = t.nAllocb + size)
    (hF : t'.nFreeb = freed) : Accounts t' (h.grant ptr size bytes) := by
  refine ⟨hl ▸ ha.alloc hdead size info bytes, ?_, ?_⟩
  · rw [hA, hb, History.grant, BitVec.ofNat_add, hbytes]
  · have hnot : ∀ j, MemList.find t.list (MemList.newItem ptr size info).ptr = some j →
        j.cnt = 0 := by
      rw [MemList.newItem_ptr]
      exact fun j => ha.cnt_of_dead hdead
    rw [hA, hF, hl, MemList.alloc, liveSum_insert MemList.newItem_cnt hnot, ← hlive,
      MemList.newItem_size, add_sub_right_comm]

/-- The globals after a live block is freed. -/
theorem freed (ha : Agrees t.list h) (hb : t.nAllocb = BitVec.ofNat 64 h.requested)
    (hlive : t.nAllocb - t.nFreeb = liveSum t.list) (hp : h.status ptr = .live size) :
    Accounts { t with list := (MemList.dealloc t.list ptr).2, nFreeb := t.nFreeb + size }
      (h.release ptr) := by
  obtain ⟨i, hfind, hcnt, hsize⟩ := ha.find_live hp
  refine ⟨ha.dealloc hp, ?_, ?_⟩
  · rw [History.release_live hp]
    exact hb
  · dsimp only
    rw [← sub_sub, hlive, ← liveSum_dealloc ha.sorted hfind hcnt, hsize, add_sub_cancel_right]

/-- **One call** is classified and handed on as it should be, and is accounted for. -/
theorem call (ha : Accounts t h) (hlegal : h.Legal c env) :
    ∃ t' e, t.call .bonus c env = some (t', e) ∧ Accounts t' (h.after c env.res) ∧
      Classified h c env e := by
  obtain ⟨hl, hb, hlive⟩ := ha
  cases c with
  | malloc size =>
    obtain ⟨hitem, -, hdead⟩ := hlegal
    exact ⟨_, _, malloc_of_item _ _ hitem,
      alloc hl hb hlive hdead size env.info (ofNat_size size) rfl rfl rfl, by simp [Classified]⟩
  | calloc nmemb size =>
    obtain ⟨hitem, -, hdead⟩ := hlegal
    have hbytes : BitVec.ofNat 64 (nmemb.toNat * size.toNat) = nmemb * size := by
      rw [BitVec.ofNat_mul, ofNat_size, ofNat_size]
    exact ⟨_, _, calloc_of_item hitem,
      alloc hl hb hlive hdead (nmemb * size) env.info hbytes rfl rfl rfl, by simp [Classified]⟩
  | realloc ptr size =>
    obtain ⟨-, hitem, -, hdead⟩ := hlegal
    cases hp : h.status ptr with
    | never =>
      rw [History.release_dead (by rw [hp]; rfl)] at hdead
      refine ⟨_, _, reallocBonus_never hitem (hl.find_never hp), ?_, ?_⟩
      · rw [History.after, History.release_dead (by rw [hp]; rfl)]
        exact alloc hl hb hlive hdead size env.info (ofNat_size size) rfl rfl (add_zero _)
      · simp [Classified, Flags, hp, Ghost.isLive]
    | freed =>
      rw [History.release_dead (by rw [hp]; rfl)] at hdead
      obtain ⟨i, hfind, hcnt⟩ := hl.find_freed hp
      refine ⟨_, _, reallocBonus_freed hitem hfind hcnt, ?_, ?_⟩
      · rw [History.after, History.release_dead (by rw [hp]; rfl)]
        exact alloc hl hb hlive hdead size env.info (ofNat_size size) rfl rfl (add_zero _)
      · simp [Classified, Flags, hp, Ghost.isLive]
    | live old =>
      obtain ⟨i, hfind, hcnt, hsize⟩ := hl.find_live hp
      have hfree := freed hl hb hlive hp
      refine ⟨_, _, reallocBonus_live hitem hfind (by omega), ?_, ?_⟩
      · exact alloc hfree.agrees hfree.allocb hfree.liveb hdead size env.info (ofNat_size size)
          rfl rfl (by rw [hsize]; rfl)
      · simp [Classified, Flags, hp, Ghost.isLive]
  | free ptr =>
    cases hp : h.status ptr with
    | never =>
      refine ⟨_, _, freeBonus_never (hl.find_never hp), ?_, ?_⟩
      · rw [History.after, History.release_dead (by rw [hp]; rfl)]
        exact ⟨hl, hb, hlive⟩
      · simp [Classified, Flags, hp, Ghost.isLive]
    | freed =>
      obtain ⟨i, hfind, hcnt⟩ := hl.find_freed hp
      refine ⟨_, _, freeBonus_freed hfind hcnt, ?_, ?_⟩
      · rw [History.after, History.release_dead (by rw [hp]; rfl)]
        exact ⟨hl, hb, hlive⟩
      · simp [Classified, Flags, hp, Ghost.isLive]
    | live old =>
      obtain ⟨i, hfind, hcnt, hsize⟩ := hl.find_live hp
      refine ⟨_, _, freeBonus_live hl.sorted hfind (by omega), ?_, ?_⟩
      · rw [hsize]
        exact freed hl hb hlive hp
      · simp [Classified, Flags, hp, Ghost.isLive]

end Accounts

/-! ## The final report -/

/-- The blocks reported, with their sizes. -/
def reported (log : List Log) : List (ℕ × Size) :=
  log.filterMap fun
    | .block ptr size _ _ _ => some (ptr, size)
    | _ => none

/-- **What `fini` should report**: every live address once, with its latest size,
in ascending order. -/
def Reports (t : Tracer) (h : History) : Prop :=
  ((reported (t.fini.getD [])).Pairwise fun b c => b.1 < c.1) ∧
    ∀ ptr size, (ptr, size) ∈ reported (t.fini.getD []) ↔ h.status ptr = .live size

section Report

variable {t : Tracer} {h : History}

theorem reported_blocks (l : List Item) :
    reported (blocks l) =
      (l.filter fun i => decide (i.cnt ≠ 0)).map fun i => (i.ptr, i.size) := by
  rw [reported, blocks, List.filterMap_map]
  exact List.filterMap_eq_map_iff_forall_eq_some.mpr fun i _ => rfl

theorem reported_fini (ht : t.allocCalls ≠ 0) :
    reported (t.fini.getD []) = reported (blocks t.list) := by
  rw [Tracer.fini, if_neg ht, Option.getD_some]
  by_cases hany : t.list.any (fun i => decide (i.cnt ≠ 0)) = true
  · rw [if_pos hany]
    simp [reported]
  · have hnil : t.list.filter (fun i => decide (i.cnt ≠ 0)) = [] := by
      simpa [List.any_eq_true, List.filter_eq_nil_iff] using hany
    rw [if_neg hany, reported_blocks, hnil]
    rfl

/-- The lines of the report are about items with a count. -/
theorem mem_fini_block {ptr ofs : ℕ} {size : Size} {cnt : ℤ} {fname : List UInt8}
    (hmem : .block ptr size cnt fname ofs ∈ t.fini.getD []) :
    ∃ i ∈ t.list, i.cnt ≠ 0 ∧
      Log.block i.ptr i.size i.cnt i.fname i.ofs = .block ptr size cnt fname ofs := by
  have hblock : .block ptr size cnt fname ofs ∈ blocks t.list := by
    rw [Tracer.fini] at hmem
    by_cases ht : t.allocCalls = 0
    · rw [if_pos ht] at hmem
      cases hmem
    rw [if_neg ht] at hmem
    by_cases hany : t.list.any (fun i => decide (i.cnt ≠ 0)) = true
    · rw [if_pos hany] at hmem
      simpa using hmem
    · rw [if_neg hany] at hmem
      simp at hmem
  obtain ⟨i, hi, heq⟩ := List.mem_map.mp hblock
  obtain ⟨hmem', hcnt⟩ := List.mem_filter.mp hi
  exact ⟨i, hmem', of_decide_eq_true hcnt, heq⟩

theorem mem_reported (ha : Agrees t.list h) {ptr : ℕ} {size : Size} :
    (ptr, size) ∈ reported (blocks t.list) ↔ h.status ptr = .live size := by
  simp only [reported_blocks, List.mem_map, List.mem_filter, decide_eq_true_eq, Prod.mk.injEq]
  constructor
  · rintro ⟨i, ⟨hi, hcnt⟩, rfl, rfl⟩
    have hfind := MemList.find_of_mem ha.sorted hi
    cases hg : h.status i.ptr with
    | live size =>
      obtain ⟨j, hj, -, hsize⟩ := ha.find_live hg
      obtain rfl : i = j := Option.some.inj (hfind.symm.trans hj)
      rw [hsize]
    | never => exact absurd (ha.cnt_of_dead (by rw [hg]; rfl) hfind) hcnt
    | freed => exact absurd (ha.cnt_of_dead (by rw [hg]; rfl) hfind) hcnt
  · intro hp
    obtain ⟨i, hfind, hcnt, hsize⟩ := ha.find_live hp
    exact ⟨i, ⟨MemList.mem_of_find hfind, by omega⟩, MemList.ptr_of_find hfind, hsize⟩

/-- **`fini` reports what it should** unless it divides by zero while a block is
live. -/
theorem reports_iff (ha : Agrees t.list h) :
    Reports t h ↔ t.allocCalls ≠ 0 ∨ ∀ ptr, (h.status ptr).isLive = false := by
  by_cases ht : t.allocCalls = 0
  · have hfini : t.fini = none := if_pos ht
    have hlive : (∀ ptr, (h.status ptr).isLive = false) ↔
        ∀ ptr size, ¬h.status ptr = .live size := by
      refine forall_congr' fun ptr => ?_
      cases h.status ptr <;> simp [Ghost.isLive]
    rw [Reports, hfini, Option.getD_none, hlive]
    simp [reported, ht]
  · refine iff_of_true ?_ (.inl ht)
    rw [Reports, reported_fini ht]
    refine ⟨?_, fun ptr size => mem_reported ha⟩
    rw [reported_blocks]
    exact List.pairwise_map.mpr (ha.sorted.filter _)

end Report

/-! ## Runs -/

theorem tracing_inductive : tracing.Inductive (fun _ _ => True) fun st => Accounts st.1 st.2 where
  init := by
    rintro st rfl
    exact .init
  step := by
    rintro ⟨t, h⟩ ⟨c, env⟩ ⟨t', h'⟩ ha - ⟨hlegal, ⟨e, hcall⟩, hh⟩
    obtain ⟨t₁, e₁, hcall₁, ha₁, -⟩ := ha.call hlegal
    obtain ⟨rfl, rfl⟩ : t₁ = t' ∧ e₁ = e := by
      simpa using hcall₁.symm.trans hcall
    exact hh ▸ ha₁

theorem reach_call {t t' : Tracer} {h : History} {c : Call} {env : Env} {e : Effect}
    (hreach : tracing.Reach (t, h)) (hlegal : h.Legal c env)
    (hcall : t.call .bonus c env = some (t', e)) : tracing.Reach (t', h.after c env.res) :=
  hreach.step (a := (c, env)) trivial ⟨hlegal, ⟨e, hcall⟩, rfl⟩

/-- **Every call is classified and forwarded**, and live pointers only are handed
on. The final report is right unless the number of allocating calls is a multiple
of `2 ^ 64` while a block is live: that number is the divisor of the average. -/
theorem bonus_classifies {t : Tracer} {h : History} (hreach : tracing.Reach (t, h)) :
    (∀ c env, h.Legal c env → ∃ t' e, t.call .bonus c env = some (t', e) ∧
      Classified h c env e ∧ HandsLive h e) ∧
    (Reports t h ↔ t.allocCalls ≠ 0 ∨ ∀ ptr, (h.status ptr).isLive = false) := by
  have ha := tracing_inductive.holds hreach
  refine ⟨fun c env hlegal => ?_, reports_iff ha.agrees⟩
  obtain ⟨t', e, hcall, -, hc⟩ := ha.call hlegal
  exact ⟨t', e, hcall, hc, hc.handsLive⟩

/-- A legal call of the `bonus` tracer, as a function. -/
def traceNext (st : Tracer × History) (a : Call × Env) : Option (Tracer × History) :=
  if st.2.Legal a.1 a.2 then
    (st.1.call .bonus a.1 a.2).map fun r => (r.1, st.2.after a.1 a.2.res)
  else none

theorem traceNext_step {st st' : Tracer × History} {a : Call × Env}
    (hnext : traceNext st a = some st') : True ∧ tracing.step st a st' := by
  obtain ⟨hlegal, hmap⟩ := Option.ite_none_right_eq_some.mp hnext
  obtain ⟨r, hr, rfl⟩ := Option.map_eq_some_iff.mp hmap
  exact ⟨trivial, hlegal, ⟨r.2, hr⟩, rfl⟩

/-- The allocator returns the address `res`. -/
def returning (res : ℕ) : Env := ⟨res, none, true⟩

theorem bonus_classifies_run : ∃ t h, tracing.Reach (t, h) ∧ h.status 16 = .freed ∧
    (∃ t' e, t.call .bonus (.free 16) (returning 0) = some (t', e) ∧ .doubleFree ∈ e.log ∧
      e.sys = []) ∧ Reports t h := by
  have hrun : (Machine.exec traceNext (Tracer.init, .init)
      [(.malloc 8, returning 16), (.calloc 2 4, returning 48), (.realloc 16 24, returning 80),
        (.free 16, returning 0), (.free 99, returning 0)]).any
      (fun st => decide (st.2.status 16 = .freed ∧ st.1.allocCalls ≠ 0)) = true := by decide
  obtain ⟨⟨t, h⟩, hexec, hst⟩ := (Option.any_eq_true ..).mp hrun
  obtain ⟨hfreed, hcalls⟩ := of_decide_eq_true hst
  have hreach : tracing.Reach (t, h) :=
    Machine.ReachWhen.exec (fun _ _ _ => traceNext_step) (.init rfl) hexec
  obtain ⟨hcall, hreport⟩ := bonus_classifies hreach
  obtain ⟨t', e, he, hc, -⟩ := hcall (.free 16) (returning 0) trivial
  refine ⟨t, h, hreach, hfreed, ⟨t', e, he, hc.1.2.mpr hfreed, ?_⟩, hreport.mpr (.inl hcalls)⟩
  rw [hc.2, hfreed]
  rfl

/-! ### `2 ^ 64` allocating calls -/

/-- A `malloc` that returns 16. -/
theorem malloc_round {t : Tracer} {h : History} (hreach : tracing.Reach (t, h))
    (hdead : (h.status 16).isLive = false) :
    ∃ t', tracing.Reach (t', h.grant 16 1 1) ∧ t'.allocCalls = t.allocCalls + 1 := by
  have hlegal : h.Legal (.malloc 1) (returning 16) := ⟨rfl, by decide, hdead⟩
  have hcall := malloc_of_item t 1 (rfl : (returning 16).item = true)
  refine ⟨_, reach_call hreach hlegal hcall, ?_⟩
  rw [allocCalls, add_right_comm t.nMalloc, add_right_comm (t.nMalloc + t.nCalloc)]
  rfl

/-- A `free` of 16. -/
theorem free_round {t : Tracer} {h : History} (hreach : tracing.Reach (t, h))
    (hlive : h.status 16 = .live 1) :
    ∃ t', tracing.Reach (t', h.release 16) ∧ t'.allocCalls = t.allocCalls := by
  have ha := tracing_inductive.holds hreach
  obtain ⟨i, hfind, hcnt, -⟩ := ha.agrees.find_live hlive
  have hcall := freeBonus_live ha.agrees.sorted hfind (by omega)
  have hlegal : h.Legal (.free 16) (returning 0) := trivial
  exact ⟨_, reach_call hreach hlegal hcall, rfl⟩

/-- Any number of rounds. -/
theorem rounds (n : ℕ) : ∃ t h, tracing.Reach (t, h) ∧ (h.status 16).isLive = false ∧
    t.allocCalls = BitVec.ofNat 64 n := by
  induction n with
  | zero => exact ⟨_, _, .init rfl, rfl, rfl⟩
  | succ n ih =>
    obtain ⟨t, h, hreach, hdead, hcalls⟩ := ih
    obtain ⟨t₁, hreach₁, hcalls₁⟩ := malloc_round hreach hdead
    have hlive : (h.grant 16 1 1).status 16 = .live 1 := History.grant_status
    obtain ⟨t₂, hreach₂, hcalls₂⟩ := free_round hreach₁ hlive
    refine ⟨t₂, _, hreach₂, ?_, ?_⟩
    · rw [History.release_live hlive]
      simp [Ghost.isLive]
    · rw [hcalls₂, hcalls₁, hcalls, BitVec.ofNat_add]
      rfl

/-- **The divisor of the average wraps around**: nothing is reported after `2 ^ 64`
calls of `malloc`, all but the last of which were freed. -/
theorem fini_divides_by_zero : ∃ t h, tracing.Reach (t, h) ∧ t.fini = none ∧ ¬Reports t h := by
  obtain ⟨t, h, hreach, hdead, hcalls⟩ := rounds (2 ^ 64 - 1)
  obtain ⟨t₁, hreach₁, hcalls₁⟩ := malloc_round hreach hdead
  have hzero : t₁.allocCalls = 0 := by
    rw [hcalls₁, hcalls]
    decide
  have hfini : t₁.fini = none := if_pos hzero
  refine ⟨t₁, _, hreach₁, hfini, fun hrep => ?_⟩
  have hlive : (h.grant 16 1 1).status 16 = .live 1 := History.grant_status
  have hmem := (hrep.2 16 1).mpr hlive
  rw [hfini] at hmem
  exact List.not_mem_nil hmem

/-! ### Accounting -/

/-- **The byte counters account for the live blocks**: their difference is the sum
of the sizes of the items that are allocated, each of which is counted once; the
sizes requested are counted in full modulo `2 ^ 64`, and only a pointer that was
live adds to the freed bytes. -/
theorem bonus_accounts {t : Tracer} {h : History} (hreach : tracing.Reach (t, h)) :
    t.nAllocb - t.nFreeb = liveSum t.list ∧
    (∀ i ∈ t.list, i.cnt = 0 ∨ i.cnt = 1) ∧
    t.nAllocb = BitVec.ofNat 64 h.requested ∧
    ∀ c env ptr t' e, (c = .free ptr ∨ ∃ size, c = .realloc ptr size) → h.Legal c env →
      (h.status ptr).isLive = false → t.call .bonus c env = some (t', e) →
        t'.nFreeb = t.nFreeb := by
  have ha := tracing_inductive.holds hreach
  refine ⟨ha.liveb, fun i hi => ?_, ha.allocb, ?_⟩
  · have hfind := MemList.find_of_mem ha.agrees.sorted hi
    cases hp : (h.status i.ptr) with
    | live size =>
      obtain ⟨j, hj, hcnt, -⟩ := ha.agrees.find_live hp
      exact .inr (Option.some.inj (hfind.symm.trans hj) ▸ hcnt)
    | never => exact .inl (ha.agrees.cnt_of_dead (by rw [hp]; rfl) hfind)
    | freed => exact .inl (ha.agrees.cnt_of_dead (by rw [hp]; rfl) hfind)
  · rintro c env ptr t' e (rfl | ⟨size, rfl⟩) hlegal hdead hcall
    · have hnot : ∀ i, MemList.find t.list ptr = some i → i.cnt = 0 := fun i =>
        ha.agrees.cnt_of_dead hdead
      cases hfind : MemList.find t.list ptr with
      | none =>
        cases (freeBonus_never hfind).symm.trans hcall
        rfl
      | some i =>
        cases (freeBonus_freed hfind (hnot i hfind)).symm.trans hcall
        rfl
    · have hnot : ∀ i, MemList.find t.list ptr = some i → i.cnt = 0 := fun i =>
        ha.agrees.cnt_of_dead hdead
      obtain ⟨-, hitem, -⟩ := hlegal
      cases hfind : MemList.find t.list ptr with
      | none =>
        cases (reallocBonus_never hitem hfind).symm.trans hcall
        exact add_zero _
      | some i =>
        cases (reallocBonus_freed hitem hfind (hnot i hfind)).symm.trans hcall
        exact add_zero _

theorem bonus_accounts_run : ∃ t h, tracing.Reach (t, h) ∧
    t.nAllocb - t.nFreeb = 24 ∧ liveSum t.list = 24 ∧ h.requested = 36 := by
  have hrun : (Machine.exec traceNext (Tracer.init, .init)
      [(.malloc 4, returning 16), (.realloc 16 8, returning 16), (.free 16, returning 0),
        (.free 16, returning 0), (.realloc 16 24, returning 16)]).any
      (fun st => decide (st.1.nAllocb - st.1.nFreeb = 24 ∧ st.2.requested = 36)) = true := by
    decide
  obtain ⟨⟨t, h⟩, hexec, hst⟩ := (Option.any_eq_true ..).mp hrun
  obtain ⟨hlive, hrequested⟩ := of_decide_eq_true hst
  have hreach : tracing.Reach (t, h) :=
    Machine.ReachWhen.exec (fun _ _ _ => traceNext_step) (.init rfl) hexec
  exact ⟨t, h, hreach, hlive, (bonus_accounts hreach).1.symm.trans hlive, hrequested⟩

end Tracer

end SysProgLab
