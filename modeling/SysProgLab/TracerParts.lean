import SysProgLab.TracerVersions

/-!
# The first version of the tracer

`part1` only counts and logs; it has no list of blocks. On every program that `part3` gets
through, it makes the same underlying calls and returns the same pointers, and its log is
that of `part3` with four differences: no call has a place, since `get_callinfo` of `part1` finds
none; `realloc` is logged with the pointer it was given in the place of the one it returns;
nothing is ever freed according to the statistics; and no blocks are reported, so that the lines
after them have other numbers (`part1_projects`).
-/

namespace SysProgLab

namespace Tracer

/-- A call of the traced program, in `part1`. -/
def callPart1 (t : Tracer) (c : Call) (env : Env) : Tracer × Effect :=
  match c with
  | .malloc size =>
    ({ t with nMalloc := t.nMalloc + 1, nAllocb := t.nAllocb + size },
      ⟨[.malloc size], [.malloc size env.res], env.res⟩)
  | .calloc nmemb size =>
    ({ t with nCalloc := t.nCalloc + 1, nAllocb := t.nAllocb + nmemb * size },
      ⟨[.calloc nmemb size], [.calloc nmemb size env.res], env.res⟩)
  | .realloc ptr size =>
    ({ t with nRealloc := t.nRealloc + 1, nAllocb := t.nAllocb + size },
      ⟨[.realloc ptr size], [.realloc ptr size ptr], env.res⟩)
  | .free ptr => (t, ⟨[.free ptr], [.free ptr], 0⟩)

/-- `fini` of `part1` -/
def finiPart1 (t : Tracer) : Option (List Log) :=
  if t.allocCalls = 0 then none
  else some [.statistics t.nAllocb (t.nAllocb / t.allocCalls) 0, .stop]

/-- The wrappers of `part1` run through the calls of a program. -/
def playPart1 : Tracer → List (Call × Env) → Tracer × List Effect
  | t, [] => (t, [])
  | t, (c, env) :: as =>
    let r := t.callPart1 c env
    let rest := playPart1 r.1 as
    (rest.1, r.2 :: rest.2)

end Tracer

/-! ## The log -/

/-- The calls of `mlog` in a macro of `memlog.h`. -/
def Log.count : Log → ℕ
  | .statistics .. => 5
  | .nonfreedStart => 3
  | .stop => 2
  | _ => 1

/-- The macro calls `mlog` with the `pc` 1. -/
def Log.pc : Log → Bool
  | .malloc .. | .calloc .. | .realloc .. | .free _ => true
  | _ => false

/-- What `mlog` writes for a macro. -/
structure Line : Type where
  /-- `id` in its first line -/
  id : ℕ
  /-- what `get_callinfo` answers, when `pc` is 1 -/
  site : Option CallInfo
  /-- the text -/
  text : Log
  deriving DecidableEq

/-- The lines get their numbers, an `unsigned int`. -/
def numbered : ℕ → List (Option CallInfo × Log) → List Line
  | _, [] => []
  | id, (site, text) :: ls => ⟨id % 2 ^ 32, site, text⟩ :: numbered (id + text.count) ls

namespace Tracer

/-- What is logged by a program, with the places of its calls: `sites k` is what `get_callinfo`
answers to `mlog` in the `k`-th call. -/
def contents (sites : ℕ → CallInfo) (es : List Effect) (fini : List Log) :
    List (Option CallInfo × Log) :=
  (es.zipIdx.map fun x =>
    x.1.log.map fun text => (if text.pc then some (sites x.2) else none, text)).flatten ++
      fini.map fun text => (none, text)

/-- **The whole log** of a program behind the line of `LOG_START`, which has the number 1. -/
def wholeLog (sites : ℕ → CallInfo) (es : List Effect) (fini : List Log) : List Line :=
  numbered 2 (contents sites es fini)

/-- `get_callinfo` of `part1` -/
def getCallinfoPart1 : CallInfo := none

end Tracer

/-- The text of `part1` for a text of `part3`. -/
def Log.part1 : Log → Option Log
  | .realloc ptr size _ => some (.realloc ptr size ptr)
  | .statistics total avg _ => some (.statistics total avg 0)
  | .nonfreedStart | .block .. => none
  | line => some line

/-- What `part1` logs where `part3` logs this. -/
def part1Content (x : Option CallInfo × Log) : Option (Option CallInfo × Log) :=
  x.2.part1.map fun text => (x.1.map fun _ => Tracer.getCallinfoPart1, text)

/-- The text is the same in both: `realloc` returned what it was given, nothing was freed. -/
def Log.Plain : Log → Prop
  | .realloc ptr _ res => res = ptr
  | .statistics _ _ freed => freed = 0
  | .nonfreedStart | .block .. => False
  | _ => True

/-- The line is the same in both: no place is found, and the text is the same. -/
def Line.Plain (line : Line) : Prop := (∀ site, line.site ≠ some (some site)) ∧ line.text.Plain

/-- A number takes nothing from a line. -/
theorem map_numbered (n : ℕ) (ls : List (Option CallInfo × Log)) :
    (numbered n ls).map (fun line => (line.site, line.text)) = ls := by
  induction ls generalizing n with
  | nil => rfl
  | cons x ls ih => rw [numbered, List.map_cons, ih]

theorem numbered_inj {n : ℕ} {ls ls' : List (Option CallInfo × Log)} :
    numbered n ls = numbered n ls' ↔ ls = ls' := by
  refine ⟨fun h => ?_, congrArg _⟩
  rw [← map_numbered n ls, h, map_numbered]

theorem Log.part1_pc {text text' : Log} (h : text.part1 = some text') : text'.pc = text.pc := by
  cases text with
  | nonfreedStart | block => cases h
  | malloc | calloc | realloc | free | doubleFree | illFree | statistics | stop =>
    cases h
    rfl

theorem Log.part1_eq_self {line : Log} : line.part1 = some line ↔ line.Plain := by
  cases line with
  | realloc ptr size res =>
    refine ⟨fun h => ?_, fun h => ?_⟩
    · exact (realloc.inj (Option.some.inj h)).2.2.symm
    · exact congrArg (fun q => some (Log.realloc ptr size q)) (Eq.symm h)
  | statistics total avg freed =>
    refine ⟨fun h => ?_, fun h => ?_⟩
    · exact (statistics.inj (Option.some.inj h)).2.2.symm
    · exact congrArg (fun n => some (Log.statistics total avg n)) (Eq.symm h)
  | nonfreedStart | block =>
    refine ⟨fun h => ?_, False.elim⟩
    cases h
  | malloc | calloc | free | doubleFree | illFree | stop => exact ⟨fun _ => trivial, fun _ => rfl⟩

theorem part1Content_eq_self {x : Option CallInfo × Log} :
    part1Content x = some x ↔ (∀ site, x.1 ≠ some (some site)) ∧ x.2.Plain := by
  obtain ⟨place, text⟩ := x
  have hplace : (place.map fun _ => Tracer.getCallinfoPart1) = place ↔
      ∀ site, place ≠ some (some site) := by
    cases place with
    | none => simp
    | some info =>
      cases info <;> simp [Tracer.getCallinfoPart1]
  rw [← Log.part1_eq_self, ← hplace, part1Content, Option.map_eq_some_iff]
  constructor
  · rintro ⟨text', htext, heq⟩
    obtain ⟨h, rfl⟩ := Prod.mk.inj heq
    exact ⟨h, htext⟩
  · rintro ⟨h, htext⟩
    exact ⟨text, htext, Prod.ext h rfl⟩

/-- What `part1` does where `part3` does this. -/
def Effect.part1 (e : Effect) : Effect := { e with log := e.log.filterMap Log.part1 }

/-- The globals that `part1` has. -/
def Tracer.part1 (t : Tracer) : Tracer := { t with list := [], nFreeb := 0 }

namespace Tracer

variable {t t' : Tracer} {c : Call} {env : Env} {e : Effect} {es : List Effect}

/-- **One call** of `part3`, seen by `part1`. -/
theorem callPart1_eq (h : t.call .part3 c env = some (t', e)) :
    t.part1.callPart1 c env = (t'.part1, e.part1) := by
  cases c with
  | malloc size =>
    obtain ⟨l, -, h⟩ := Option.bind_eq_some_iff.mp h
    cases h
    rfl
  | calloc nmemb size =>
    obtain ⟨l, -, h⟩ := Option.bind_eq_some_iff.mp h
    cases h
    rfl
  | realloc ptr size =>
    obtain ⟨l, -, h⟩ := Option.bind_eq_some_iff.mp h
    cases h
    rfl
  | free ptr =>
    obtain ⟨i, -, h⟩ := Option.bind_eq_some_iff.mp h
    cases h
    rfl

/-- **A program** that `part3` gets through, in `part1`. -/
theorem playPart1_eq {as : List (Call × Env)} (h : play .part3 t as = some (t', es)) :
    playPart1 t.part1 as = (t'.part1, es.map Effect.part1) := by
  induction as generalizing t es with
  | nil =>
    cases h
    rfl
  | cons a as ih =>
    obtain ⟨c, env⟩ := a
    obtain ⟨⟨t₁, e⟩, hcall, h⟩ := Option.bind_eq_some_iff.mp h
    obtain ⟨⟨t₂, es'⟩, hplay, h⟩ := Option.bind_eq_some_iff.mp h
    cases h
    rw [playPart1, callPart1_eq hcall]
    dsimp only
    rw [ih hplay]
    rfl

theorem filterMap_blocks (l : List Item) : (blocks l).filterMap Log.part1 = [] := by
  rw [blocks, List.filterMap_map, List.filterMap_eq_nil_iff]
  exact fun _ _ => rfl

theorem finiPart1_eq (t : Tracer) :
    t.part1.finiPart1 = t.fini.map (List.filterMap Log.part1) := by
  have hcalls : t.part1.allocCalls = t.allocCalls := rfl
  rw [finiPart1, fini, hcalls]
  split
  · rfl
  · rw [Option.map_some, List.filterMap_cons_some (show Log.part1 _ = some _ from rfl),
      List.filterMap_append]
    congr 2
    split
    · rw [List.filterMap_cons_none (show Log.part1 _ = none from rfl), filterMap_blocks]
      rfl
    · rfl

/-- The texts of `part1`, with its places. -/
theorem filterMap_content (info : CallInfo) (log : List Log) :
    ((log.filterMap Log.part1).map fun text =>
        (if text.pc then some getCallinfoPart1 else none, text)) =
      (log.map fun text => (if text.pc then some info else none, text)).filterMap part1Content := by
  rw [List.map_filterMap, List.filterMap_map]
  refine List.filterMap_congr fun text _ => ?_
  rw [Function.comp_apply, part1Content]
  refine Option.map_congr fun text' h => ?_
  rw [Log.part1_pc h]
  cases text.pc <;> rfl

theorem contents_part1 (sites : ℕ → CallInfo) (es : List Effect) (fini : List Log) :
    contents (fun _ => getCallinfoPart1) (es.map Effect.part1) (fini.filterMap Log.part1) =
      (contents sites es fini).filterMap part1Content := by
  rw [contents, contents, List.filterMap_append, List.zipIdx_map, List.map_map,
    List.filterMap_flatten, List.map_map]
  congr 1
  · exact congrArg List.flatten (List.map_congr_left fun x _ => filterMap_content _ _)
  · rw [List.map_filterMap, List.filterMap_map]
    rfl

/-- **What `part1` shows of a program** that `part3` gets through: the same underlying calls
are made and the same pointers are returned; its log is the one of `part3` with each line
replaced or left out by itself, and the lines numbered anew; it is the same log exactly if each
line is. -/
theorem part1_projects {as : List (Call × Env)} {log : List Log}
    (h : play .part3 .init as = some (t, es)) (hfini : t.fini = some log) (sites : ℕ → CallInfo) :
    ∃ t' es' log', playPart1 .init as = (t', es') ∧ t'.finiPart1 = some log' ∧
      es'.map Effect.sys = es.map Effect.sys ∧ es'.map Effect.ret = es.map Effect.ret ∧
      wholeLog (fun _ => getCallinfoPart1) es' log' =
        numbered 2 ((contents sites es log).filterMap part1Content) ∧
      (wholeLog (fun _ => getCallinfoPart1) es' log' = wholeLog sites es log ↔
        ∀ line ∈ wholeLog sites es log, line.Plain) := by
  have hcontents := contents_part1 sites es log
  refine ⟨t.part1, es.map Effect.part1, log.filterMap Log.part1, playPart1_eq h, ?_, ?_, ?_,
    congrArg _ hcontents, ?_⟩
  · rw [finiPart1_eq, hfini, Option.map_some]
  · rw [List.map_map]
    rfl
  · rw [List.map_map]
    rfl
  · have hself := List.filterMap_eq_map_iff_forall_eq_some (f := part1Content) (g := id)
      (l := contents sites es log)
    rw [List.map_id] at hself
    rw [wholeLog, wholeLog, numbered_inj, hcontents, hself]
    have hlines := List.forall_mem_map (f := fun line : Line => (line.site, line.text))
      (l := numbered 2 (contents sites es log)) (P := fun x => part1Content x = some (id x))
    rw [map_numbered] at hlines
    rw [hlines]
    exact forall₂_congr fun line _ => part1Content_eq_self

/-- A block is moved by `realloc`, and is never freed; `part3` finds the first call in `f`. -/
theorem part1_projects_moved : ∃ t' es' log',
    playPart1 .init [(.malloc 8, returning 16), (.realloc 16 24, returning 48)] = (t', es') ∧
      t'.finiPart1 = some log' ∧
      wholeLog (fun _ => getCallinfoPart1) es' log' =
        [⟨2, some none, .malloc 8 16⟩, ⟨3, some none, .realloc 16 24 16⟩,
          ⟨4, none, .statistics 32 16 0⟩, ⟨9, none, .stop⟩] := by
  have hpart3 : play .part3 .init [(.malloc 8, returning 16), (.realloc 16 24, returning 48)] =
      some (_, _) := rfl
  obtain ⟨t', es', log', hplay, hfini, -, -, hlog, -⟩ := part1_projects hpart3 rfl
    fun k => if k = 0 then some ([102], 5) else none
  exact ⟨t', es', log', hplay, hfini, hlog.trans (by decide)⟩

end Tracer

end SysProgLab
