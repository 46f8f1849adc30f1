import SysProgLab.CacheRuns
import Mathlib.Data.List.TakeWhile

/-!
# Serving a request: `proxy.c`

`get_from_server` copies the response to the client chunk by chunk and gathers it
in an array on its stack, which `create_CI` then reads as a C string;
`get_from_cache` answers from the cached copy. An access outside an array gives
`none`. The locks are left to `SysProgLab.ReadersWriter`.
-/

namespace SysProgLab

/-- `MAXLINE` -/
abbrev maxLine : ℕ := 8192

/-- The fields of `Request` that name a resource. -/
structure Proxy.Request : Type where
  /-- `hostname` -/
  hostname : CStr
  /-- `pathname` -/
  pathname : CStr
  /-- `port` -/
  port : CStr

/-- `memcpy(data + off, buf, len)` where `buf` holds `len` bytes. -/
def memcpy (data : List UInt8) (off : ℕ) (buf : List UInt8) : Option (List UInt8) :=
  if off + buf.length ≤ data.length then
    some (data.take off ++ buf ++ data.drop (off + buf.length))
  else none

/-- The C string at the start of an array. -/
def cString (data : List UInt8) : Option CStr :=
  if 0 ∈ data then some (data.takeWhile (· ≠ 0)) else none

namespace Cache

open Proxy

/-- `create_CI`, up to the links, which it leaves alone. -/
def createCI (hostname port pathname : CStr) (data : List UInt8) : Option Object :=
  (cString data).map fun str => ⟨hostname, pathname, str ++ [0], str.length + 1, atoi port⟩

/-- `get_from_cache`; the bytes written to the client, if the item is found. -/
def getFromCache (s : Cache) (req : Request) : Option (Option (List UInt8) × Cache) := do
  let (c, s) ← s.findCache req.hostname (atoi req.port) req.pathname
  if c = 0 then some (none, s)
  else do
    let x ← s.nodes.deref c
    if x.val.size.toNat ≤ x.val.data.length then
      some (some (x.val.data.take x.val.size.toNat), s)
    else none

/-- The loop of `get_from_server`: `rest` is what the server has yet to send,
`cnt` bytes are in `data`, and `readcnt k` is the value that the guard of round
`k` reads. Also returns the bytes written to the client. -/
def recvLoop (readcnt : ℕ → ℕ) :
    ℕ → ℕ → List UInt8 → List UInt8 → ℕ → Option (List UInt8 × ℕ × List UInt8)
  | 0, _, _, _, _ => none
  | fuel + 1, k, rest, data, cnt =>
    let buf := rest.take maxLine
    if buf = [] then some (data, cnt, [])
    else do
      let (data, cnt) ←
        if cnt + readcnt k ≤ maxObjectSize then
          (memcpy data cnt buf).map fun data => (data, cnt + buf.length)
        else some (data, cnt)
      let (data, cnt, sent) ← recvLoop readcnt fuel (k + 1) (rest.drop maxLine) data cnt
      some (data, cnt, buf ++ sent)

/-- `get_from_server` on the response `R`: `data` holds what is on the stack, and
`Malloc` gives the node `c` with some links. -/
def getFromServer (s : Cache) (req : Request) (R : List UInt8) (readcnt : ℕ → ℕ)
    (data : List UInt8) (c prev next : ℕ) : Option (List UInt8 × Cache) := do
  let (data, _, sent) ← recvLoop readcnt (R.length + 1) 0 R data 0
  let o ← createCI req.hostname req.port req.pathname data
  let (_, s) ← insertCache { s with nodes := Function.update s.nodes c (some ⟨o, prev, next⟩) } c
  some (sent, s)

/-! ## The loop -/

/-- The bytes that the loop stores: the chunks whose guard passes. -/
def stored (readcnt : ℕ → ℕ) : ℕ → ℕ → List UInt8 → ℕ → List UInt8
  | 0, _, _, _ => []
  | fuel + 1, k, rest, cnt =>
    if cnt + readcnt k ≤ maxObjectSize then
      rest.take maxLine ++
        stored readcnt fuel (k + 1) (rest.drop maxLine) (cnt + (rest.take maxLine).length)
    else stored readcnt fuel (k + 1) (rest.drop maxLine) cnt

variable {readcnt : ℕ → ℕ}

theorem memcpy_append (pre old buf : List UInt8) :
    memcpy (pre ++ old) pre.length buf =
      if buf.length ≤ old.length then some (pre ++ buf ++ old.drop buf.length) else none := by
  simp [memcpy, List.drop_append, List.drop_eq_nil_of_le]

theorem stored_nil (fuel k cnt : ℕ) : stored readcnt fuel k [] cnt = [] := by
  induction fuel generalizing k cnt with
  | zero => rfl
  | succ fuel ih => simp [stored, ih]

theorem length_stored_le (readcnt : ℕ → ℕ) (fuel k cnt : ℕ) (rest : List UInt8) :
    (stored readcnt fuel k rest cnt).length ≤ rest.length := by
  induction fuel generalizing k cnt rest with
  | zero => simp [stored]
  | succ fuel ih =>
    rw [stored]
    have hsplit := congrArg List.length (List.take_append_drop maxLine rest)
    rw [List.length_append] at hsplit
    split
    · have := ih (k + 1) (cnt + (rest.take maxLine).length) (rest.drop maxLine)
      rw [List.length_append]
      omega
    · have := ih (k + 1) cnt (rest.drop maxLine)
      omega

/-- **The loop** stores the chunks whose guard passes one after the other, unless
they do not fit in the array, and sends everything on. -/
theorem recvLoop_eq (readcnt : ℕ → ℕ) : ∀ {fuel : ℕ} (k : ℕ) {rest : List UInt8}
    (pre old : List UInt8), rest.length < fuel →
    recvLoop readcnt fuel k rest (pre ++ old) pre.length =
      if (stored readcnt fuel k rest pre.length).length ≤ old.length then
        some (pre ++ stored readcnt fuel k rest pre.length ++
            old.drop (stored readcnt fuel k rest pre.length).length,
          pre.length + (stored readcnt fuel k rest pre.length).length, rest)
      else none := by
  intro fuel
  induction fuel with
  | zero =>
    intro k rest pre old hf
    exact absurd hf (Nat.not_lt_zero _)
  | succ fuel ih =>
    intro k rest pre old hf
    rw [recvLoop, stored]
    by_cases hbuf : rest.take maxLine = []
    · obtain rfl : rest = [] := by simpa using hbuf
      simp [stored_nil]
    have hpos : 0 < (rest.take maxLine).length := List.length_pos_of_ne_nil hbuf
    have hrest : (rest.drop maxLine).length < fuel := by
      rw [List.length_take] at hpos
      rw [List.length_drop]
      omega
    by_cases hguard : pre.length + readcnt k ≤ maxObjectSize
    · simp only [hbuf, hguard, if_true, if_false, memcpy_append]
      by_cases hfit : (rest.take maxLine).length ≤ old.length
      · have hrec := ih (k + 1) (pre ++ rest.take maxLine)
          (old.drop (rest.take maxLine).length) hrest
        rw [List.length_append] at hrec
        simp only [hfit, if_true, Option.map_some, Option.bind_eq_bind, Option.bind_some, hrec,
          List.length_append, List.length_drop, List.drop_drop]
        by_cases hroom : (rest.take maxLine).length + (stored readcnt fuel (k + 1)
            (rest.drop maxLine) (pre.length + (rest.take maxLine).length)).length ≤ old.length
        · rw [if_pos (by omega), if_pos hroom]
          simp [Nat.add_assoc]
        · rw [if_neg (by omega), if_neg hroom]
          rfl
      · rw [if_neg hfit, if_neg (by rw [List.length_append]; omega)]
        rfl
    · have hrec := ih (k + 1) pre old hrest
      simp only [hbuf, hguard, if_false, Option.bind_eq_bind, Option.bind_some, hrec]
      split
      · simp
      · rfl

/-- The guards of the rounds that have something to store pass. -/
def GuardsPass (readcnt : ℕ → ℕ) (k cnt len : ℕ) : Prop :=
  ∀ j, maxLine * j < len → cnt + maxLine * j + readcnt (k + j) ≤ maxObjectSize

theorem stored_eq {fuel : ℕ} : ∀ {k cnt : ℕ} {rest : List UInt8}, rest.length < fuel →
    GuardsPass readcnt k cnt rest.length → stored readcnt fuel k rest cnt = rest := by
  induction fuel with
  | zero =>
    intro k cnt rest hf
    exact absurd hf (Nat.not_lt_zero _)
  | succ fuel ih =>
    intro k cnt rest hf hg
    rcases List.eq_nil_or_concat rest with rfl | ⟨l, x, hl⟩
    · exact stored_nil _ _ _
    have hpos : 0 < rest.length := by simp [hl]
    have hline : 0 < maxLine := by decide
    rw [stored, if_pos (by simpa using hg 0 (by simpa using hpos))]
    rw [ih (by rw [List.length_drop]; omega) ?_, List.take_append_drop]
    intro j hj
    have hmul := Nat.mul_add_one maxLine j
    rw [List.length_drop] at hj
    have hlen : (rest.take maxLine).length = maxLine := by
      rw [List.length_take]
      omega
    have hj' := hg (j + 1) (by omega)
    rw [hlen, show k + 1 + j = k + (j + 1) by omega]
    omega

theorem guardsPass (readcnt : ℕ → ℕ) {fuel : ℕ} : ∀ (k cnt : ℕ) (rest : List UInt8),
    rest.length < fuel →
    rest.length ≤ (stored readcnt fuel k rest cnt).length →
    GuardsPass readcnt k cnt rest.length := by
  induction fuel with
  | zero =>
    intro k cnt rest hf
    exact absurd hf (Nat.not_lt_zero _)
  | succ fuel ih =>
    intro k cnt rest hf hle j hj
    have hsplit := congrArg List.length (List.take_append_drop maxLine rest)
    rw [List.length_append] at hsplit
    have htake := List.length_take (i := maxLine) (l := rest)
    have hline : 0 < maxLine := by decide
    rw [stored] at hle
    split at hle
    · rename_i hguard
      rw [List.length_append] at hle
      cases j with
      | zero => simpa using hguard
      | succ j =>
        have hmul := Nat.mul_add_one maxLine j
        have hlen : (rest.take maxLine).length = maxLine := by omega
        have hj' := ih (k + 1) (cnt + (rest.take maxLine).length)
          (rest.drop maxLine) (by omega) (by omega) j (by omega)
        rw [hlen, show k + 1 + j = k + (j + 1) by omega] at hj'
        omega
    · -- a chunk that is skipped is missing for good
      have hshort := length_stored_le readcnt fuel (k + 1) cnt (rest.drop maxLine)
      omega

/-! ## Transparency -/

/-- A later state; the item `c` has not been freed meanwhile. -/
inductive Later (c : ℕ) : Cache → Cache → Prop where
  | refl {s : Cache} : s.nodes c ≠ none → Later c s s
  | call {s s₁ s₂ : Cache} {op : Call} {out : Reply} : Later c s s₁ → op.Legal s₁ →
      s₁.perform op = some (out, s₂) → s₂.nodes c ≠ none → Later c s s₂

theorem Later.allocated {c : ℕ} {s s' : Cache} (h : Later c s s') : s.nodes c ≠ none := by
  induction h with
  | refl hc => exact hc
  | call _ _ _ _ ih => exact ih

/-- **An item keeps its contents** while it is not freed. -/
theorem Later.vals {c : ℕ} {s s' : Cache} (h : Later c s s') :
    s'.nodes c ≠ none ∧ s'.nodes.vals c = s.nodes.vals c := by
  induction h with
  | refl hc => exact ⟨hc, rfl⟩
  | call _ hlegal e hne ih =>
    refine ⟨hne, ?_⟩
    rcases perform_keeps ih.1 hlegal e with h' | h'
    · exact absurd (Option.map_eq_none_iff.mp h') hne
    · exact h'.trans ih.2

/-- `find_cache` accepts the object for the request. -/
def accepts (req : Request) (o : Object) : Bool :=
  isSame o req.hostname (atoi req.port) req.pathname

/-- **No other item is taken for the request**: those that `find_cache` accepts for it, whatever
their port, are the one at `c`. -/
def Unconfused (s : Cache) (req : Request) (c : ℕ) : Prop :=
  ∀ a x, s.nodes a = some x → accepts req x.val = true → a = c

/-- The response `R` is cached faithfully: on a well-formed cache without the
item, nothing outside an array is accessed; and whatever the cache, a request
that is answered later, from whichever item `a`, is answered with `R`, as long as
no other item is taken for it. -/
structure Transparent (req : Request) (R : List UInt8) (readcnt : ℕ → ℕ) : Prop where
  returns : ∀ (s : Cache) (l : List (ℕ × Object)), s.Represents l →
    s.findCache req.hostname (atoi req.port) req.pathname = some (0, s) →
    ∀ data : List UInt8, data.length = maxObjectSize →
    ∀ c prev next, c ≠ 0 → s.nodes c = none →
    (s.getFromServer req R readcnt data c prev next).isSome
  answers : ∀ s : Cache, s.findCache req.hostname (atoi req.port) req.pathname = some (0, s) →
    ∀ data : List UInt8, data.length = maxObjectSize →
    ∀ c prev next, c ≠ 0 → s.nodes c = none →
    ∀ sent s', s.getFromServer req R readcnt data c prev next = some (sent, s') →
    ∀ s₁ s₂ a, Later c s' s₁ → s₁.Unconfused req c →
      s₁.findCache req.hostname (atoi req.port) req.pathname = some (a, s₂) → a ≠ 0 →
      s₁.getFromCache req = some (some R, s₂)

/-- The response is a C string with its NUL that fits in the array, and no guard
of the loop fails. -/
def Storable (R : List UInt8) (readcnt : ℕ → ℕ) : Prop :=
  (∃ s : CStr, 0 ∉ s ∧ R = s ++ [0]) ∧ R.length ≤ maxObjectSize ∧
    GuardsPass readcnt 0 0 R.length

theorem cString_append {a b : List UInt8} (ha : 0 ∉ a) : cString (a ++ 0 :: b) = some a := by
  have hpos : ∀ x ∈ a, decide (x ≠ 0) = true := by
    intro x hx
    refine decide_eq_true ?_
    rintro rfl
    exact ha hx
  rw [cString, if_pos (by simp), List.takeWhile_append_of_pos hpos,
    List.takeWhile_cons_of_neg (by simp), List.append_nil]

theorem createCI_pos {hostname port pathname : CStr} {data : List UInt8} {o : Object}
    (h : createCI hostname port pathname data = some o) : 0 < o.size := by
  obtain ⟨str, -, rfl⟩ := Option.map_eq_some_iff.mp h
  exact Int.lt_add_one_of_le (Int.natCast_nonneg _)

/-- The answer from an item whose copy has the size recorded. -/
theorem getFromCache_eq {s t : Cache} {req : Request} {c : ℕ} {o : Object}
    (h : s.findCache req.hostname (atoi req.port) req.pathname = some (c, t)) (hc : c ≠ 0)
    (ho : t.nodes.vals c = some o) (hsize : o.size = o.data.length) :
    s.getFromCache req = some (some o.data, t) := by
  obtain ⟨x, hx, rfl⟩ := Option.map_eq_some_iff.mp ho
  simp [getFromCache, h, hc, Nodes.deref_of_some hc hx, hsize]

/-- What the search returns is an allocated item that it accepts. -/
theorem accepts_of_findLoop {n : Nodes Object} {req : Request} {a : ℕ} (ha : a ≠ 0) :
    ∀ {fuel curr : ℕ},
      findLoop n req.hostname (atoi req.port) req.pathname fuel curr = some a →
      ∃ x, n a = some x ∧ accepts req x.val = true := by
  intro fuel
  induction fuel with
  | zero =>
    intro curr h
    cases h
  | succ fuel ih =>
    intro curr h
    rw [findLoop] at h
    split at h
    · exact absurd (Option.some.inj h).symm ha
    obtain ⟨x, hx, h⟩ := Option.bind_eq_some_iff.mp h
    split at h
    · next hsame =>
      obtain rfl := Option.some.inj h
      exact ⟨x, (Nodes.deref_eq_some hx).2, hsame⟩
    · exact ih h

theorem accepts_of_findCache {s s' : Cache} {req : Request} {a : ℕ} (ha : a ≠ 0)
    (h : s.findCache req.hostname (atoi req.port) req.pathname = some (a, s')) :
    ∃ x, s.nodes a = some x ∧ accepts req x.val = true := by
  obtain ⟨curr, hloop, h⟩ := Option.bind_eq_some_iff.mp h
  have hcurr : curr = a := by
    split at h
    · next h0 => exact h0.trans (Prod.mk.inj (Option.some.inj h)).1
    · obtain ⟨s₁, -, h⟩ := Option.bind_eq_some_iff.mp h
      exact (Prod.mk.inj (Option.some.inj h)).1
  exact accepts_of_findLoop ha (hcurr ▸ hloop)

section

variable {req : Request} {R : List UInt8} {s : Cache} {l : List (ℕ × Object)} {c : ℕ}
  {data a b sent : List UInt8} {cnt : ℕ}

/-- What is served after the array held `a` and a NUL: `a` and the NUL. -/
theorem Represents.serve (req : Request) (h : s.Represents l) (hc0 : c ≠ 0) (hfresh : s.nodes c = none)
    (hloop : recvLoop readcnt (R.length + 1) 0 R data 0 = some (a ++ 0 :: b, cnt, sent))
    (ha : 0 ∉ a) (hlen : a.length + 1 ≤ maxObjectSize) (prev next : ℕ) :
    ∃ s', s.getFromServer req R readcnt data c prev next = some (sent, s') ∧ Later c s' s' ∧
      s'.findCache req.hostname (atoi req.port) req.pathname = some (c, s') ∧
      s'.getFromCache req = some (some (a ++ [0]), s') := by
  have hcreate : createCI req.hostname req.port req.pathname (a ++ 0 :: b) =
      some ⟨req.hostname, req.pathname, a ++ [0], a.length + 1, atoi req.port⟩ := by
    rw [createCI, cString_append ha, Option.map_some]
  set o : Object := ⟨req.hostname, req.pathname, a ++ [0], a.length + 1, atoi req.port⟩ with ho
  obtain ⟨s', e, hs'⟩ := h.perform_insert (c := c) (y := ⟨o, prev, next⟩)
    ⟨hc0, hfresh, by simp only [ho]; omega, by simp only [ho]; omega⟩
  obtain ⟨⟨evicted, s₁⟩, hins, e⟩ := Option.map_eq_some_iff.mp e
  obtain rfl : s₁ = s' := congrArg Prod.snd e
  have hsame : isSame o req.hostname (atoi req.port) req.pathname = true := by
    simp [ho, isSame, strcaseEq]
  -- the item is the last one, so it answers at once
  have hlast := hs'.findCache_last hsame
  obtain ⟨y, hy, hval⟩ := hs'.seg.val_of_mem (List.mem_append_right _ (List.mem_singleton_self _))
  have hvals : s₁.nodes.vals c = some o := by
    rw [Nodes.vals, hy, Option.map_some, hval]
  refine ⟨s₁, ?_, .refl (by simp [hy]), hlast, getFromCache_eq hlast hc0 hvals (by simp [ho])⟩
  simp [getFromServer, hloop, hcreate, hins]

/-- The loop on a response that can be stored. -/
theorem Storable.recvLoop (h : Storable R readcnt) (hdata : data.length = maxObjectSize) :
    Cache.recvLoop readcnt (R.length + 1) 0 R data 0 =
      some (R ++ data.drop R.length, R.length, R) := by
  have hloop := recvLoop_eq readcnt 0 [] data
    (Nat.lt_succ_self R.length)
  rw [List.length_nil, stored_eq (Nat.lt_succ_self R.length) h.2.2,
    if_pos (hdata.symm ▸ h.2.1)] at hloop
  simpa using hloop

/-- **A response that can be stored is cached faithfully.** -/
theorem Storable.transparent (h : Storable R readcnt) : Transparent req R readcnt where
  returns := by
    intro s l hs _ data hdata c prev next hc0 hfresh
    have hloop := h.recvLoop hdata
    obtain ⟨⟨a, ha, rfl⟩, hlen, -⟩ := h
    rw [List.append_assoc, List.singleton_append] at hloop
    obtain ⟨s', e, -⟩ := hs.serve req hc0 hfresh hloop ha (by simpa using hlen) prev next
    rw [e]
    rfl
  answers := by
    intro s _ data hdata c prev next hc0 _ sent s' hget s₁ s₂ a hlater hun hfind ha0
    -- the item that answers is the one made for the response
    obtain ⟨x, hx, haccepts⟩ := accepts_of_findCache ha0 hfind
    obtain rfl : a = c := hun a x hx haccepts
    have hloop := h.recvLoop hdata
    obtain ⟨⟨str, ha, rfl⟩, -, -⟩ := h
    rw [List.append_assoc, List.singleton_append] at hloop
    simp only [getFromServer, hloop, createCI, cString_append ha, Option.bind_eq_bind,
      Option.bind_some, Option.map_some] at hget
    obtain ⟨⟨e, s₃⟩, hins, hget⟩ := Option.bind_eq_some_iff.mp hget
    cases hget
    have hval : s₁.nodes.vals a =
        some ⟨req.hostname, req.pathname, str ++ [0], str.length + 1, atoi req.port⟩ := by
      rw [hlater.vals.2]
      rcases insertCache_keeps hins a with hnone | hkeep
      · exact absurd (Option.map_eq_none_iff.mp hnone) hlater.allocated
      · dsimp only at hkeep
        rw [hkeep, Nodes.vals, Function.update_self, Option.map_some]
    exact getFromCache_eq hfind hc0 ((congrFun (findCache_vals hfind) a).trans hval) (by simp)

/-- In an empty cache no other item is taken for the request. -/
theorem unconfused_first {s' : Cache} {prev next : ℕ}
    (hget : cacheInit.getFromServer req R readcnt data c prev next = some (sent, s')) :
    s'.Unconfused req c := by
  intro b x hx _
  obtain ⟨⟨d, cnt, sent'⟩, -, hget⟩ := Option.bind_eq_some_iff.mp hget
  obtain ⟨o, -, hget⟩ := Option.bind_eq_some_iff.mp hget
  obtain ⟨⟨e, s₁⟩, hins, hget⟩ := Option.bind_eq_some_iff.mp hget
  cases hget
  by_contra hne
  rcases insertCache_keeps hins b with hnone | hkeep
  · rw [Nodes.vals, hx] at hnone
    cases hnone
  · dsimp only at hkeep
    rw [Nodes.vals, Nodes.vals, hx, Function.update_of_ne hne] at hkeep
    cases hkeep

/-- **Only such a response is.** The array holds no NUL beyond what is stored, and
the copy ends with the first one. -/
theorem Transparent.storable (h : Transparent req R readcnt) : Storable R readcnt := by
  have hfind := Represents.init.findCache_nil req.hostname (atoi req.port) req.pathname
  have hdata : (List.replicate maxObjectSize (1 : UInt8)).length = maxObjectSize :=
    List.length_replicate ..
  obtain ⟨⟨sent, s'⟩, hget⟩ := Option.isSome_iff_exists.mp
    (h.returns cacheInit [] .init hfind _ hdata 1 0 0 one_ne_zero rfl)
  have hanswer := h.answers cacheInit hfind _ hdata 1 0 0 one_ne_zero rfl sent s' hget
  have hloop := recvLoop_eq readcnt 0 []
    (List.replicate maxObjectSize 1) (Nat.lt_succ_self R.length)
  have hguards := guardsPass readcnt 0 0 R (Nat.lt_succ_self R.length)
  simp only [List.nil_append, List.length_nil] at hloop
  generalize stored readcnt (R.length + 1) 0 R 0 = D at *
  split at hloop
  · rename_i hfit
    rw [hdata] at hfit
    have hmem : (0 : UInt8) ∈ D := by
      obtain ⟨⟨d, cnt, sent⟩, e, hrest⟩ := Option.bind_eq_some_iff.mp hget
      rw [hloop] at e
      cases e
      obtain ⟨o, ho, -⟩ := Option.bind_eq_some_iff.mp hrest
      obtain ⟨str, hstr, -⟩ := Option.map_eq_some_iff.mp ho
      rw [cString] at hstr
      split at hstr
      · rename_i hmem
        refine (List.mem_append.mp hmem).resolve_right fun hmem => ?_
        exact absurd (List.eq_of_mem_replicate (List.mem_of_mem_drop hmem)) (by decide)
      · cases hstr
    obtain ⟨a, b, rfl, ha⟩ := List.eq_append_cons_of_mem hmem
    have hshort : a.length + 1 ≤ (a ++ 0 :: b).length := by simp
    rw [List.append_assoc, List.cons_append] at hloop
    obtain ⟨s₁, e₁, hlater, hfind₁, hans⟩ := Represents.init.serve req one_ne_zero rfl
      hloop ha (hshort.trans hfit) 0 0
    obtain rfl : s₁ = s' := congrArg Prod.snd (Option.some.inj (e₁.symm.trans hget))
    have hans' := hanswer s₁ s₁ 1 hlater (unconfused_first hget) hfind₁ one_ne_zero
    rw [hans] at hans'
    obtain rfl : a ++ [0] = R := by simpa using hans'
    rw [List.length_append] at hguards
    refine ⟨⟨a, ha, rfl⟩, ?_, ?_⟩
    · rw [List.length_append]
      exact hshort.trans hfit
    · rw [List.length_append]
      exact hguards hshort
  · rw [getFromServer, hloop] at hget
    cases hget

/-- **What is answered** are the bytes of the last item that is accepted. -/
theorem Represents.answer {l r : List (ℕ × Object)} {x : ℕ × Object}
    (h : s.Represents (l ++ x :: r)) (hx : accepts req x.2 = true)
    (hr : ∀ y ∈ r, accepts req y.2 = false) (hsize : x.2.size = x.2.data.length) :
    ∃ s', s.getFromCache req = some (some x.2.data, s') := by
  have hmem : x ∈ l ++ x :: r := List.mem_append_right _ List.mem_cons_self
  have hnone : (r.reverse.find? fun y => accepts req y.2) = none := by
    rw [List.find?_eq_none]
    intro y hy
    rw [hr y (List.mem_reverse.mp hy)]
    exact Bool.false_ne_true
  have hlast : ((l ++ x :: r).reverse.find? fun y => accepts req y.2) = some x := by
    rw [List.reverse_append, List.reverse_cons, List.append_assoc, List.find?_append, hnone,
      Option.none_or, List.singleton_append]
    exact List.find?_cons_of_pos hx
  obtain ⟨s', e, -⟩ := h.perform_find req.hostname (atoi req.port) req.pathname
  obtain ⟨⟨c', s₁⟩, hfind, heq⟩ := Option.map_eq_some_iff.mp e
  obtain ⟨a', b', -, -, -, htouch⟩ := Lru.touch_some h.nodup.of_map hlast
  have hc : c' = x.1 := by
    have hreply : c' = (Lru.touch (fun y => accepts req y.2) (l ++ x :: r)).1.elim 0 Prod.fst :=
      Reply.found.inj (congrArg Prod.fst heq)
    rwa [htouch] at hreply
  subst hc
  obtain ⟨v, hv, hval⟩ := h.seg.val_of_mem hmem
  refine ⟨s₁, getFromCache_eq hfind (h.ne_zero x hmem) ?_ hsize⟩
  rw [congrFun (findCache_vals hfind) x.1, Nodes.vals, hv, Option.map_some, hval]

/-- **Cached copies are faithful exactly for the responses that can be stored**, as long as
no other item is taken for the request; if one is, a request is answered with `R` exactly if
the last such item holds `R`. -/
theorem transparent_iff (req : Request) (R : List UInt8) (readcnt : ℕ → ℕ) :
    (Transparent req R readcnt ↔ Storable R readcnt) ∧
    ∀ (s : Cache) (l r : List (ℕ × Object)) (x : ℕ × Object), s.Represents (l ++ x :: r) →
      accepts req x.2 = true → (∀ y ∈ r, accepts req y.2 = false) →
      x.2.size = x.2.data.length →
      ((∃ s', s.getFromCache req = some (some R, s')) ↔ x.2.data = R) := by
  refine ⟨⟨Transparent.storable, Storable.transparent⟩, fun s l r x h hx hr hsize => ?_⟩
  obtain ⟨s₁, e⟩ := h.answer hx hr hsize
  constructor
  · rintro ⟨s₂, e₂⟩
    obtain ⟨he, -⟩ := Prod.mk.inj (Option.some.inj (e.symm.trans e₂))
    exact Option.some.inj he
  · rintro rfl
    exact ⟨s₁, e⟩

/-- The two bytes of a response, received over a stack of zeros, are answered with
a third one. -/
theorem transparent_extra_nul :
    (∃ s', cacheInit.getFromServer ⟨[104], [112], [56, 48]⟩ [104, 105] (fun _ => 0)
        (List.replicate maxObjectSize 0) 1 0 0 = some ([104, 105], s') ∧
      s'.getFromCache ⟨[104], [112], [56, 48]⟩ = some (some [104, 105, 0], s')) ∧
    ¬Transparent ⟨[104], [112], [56, 48]⟩ [104, 105] fun _ => 0 := by
  refine ⟨?_, fun h => ?_⟩
  · have hg : GuardsPass (fun _ => 0) 0 0 2 := by
      intro j hj
      have hj0 : j = 0 := by
        simp only [maxLine] at hj
        omega
      subst hj0
      decide
    have hloop := recvLoop_eq (fun _ => 0) 0 []
      (List.replicate maxObjectSize 0) (Nat.lt_succ_self [(104 : UInt8), 105].length)
    have hfit : [(104 : UInt8), 105].length ≤ (List.replicate maxObjectSize (0 : UInt8)).length := by
      rw [List.length_replicate]
      decide
    rw [List.length_nil, stored_eq (Nat.lt_succ_self _) hg, if_pos hfit, List.nil_append,
      List.nil_append, List.drop_replicate, show maxObjectSize - [(104 : UInt8), 105].length =
        102397 + 1 from rfl, List.replicate_succ] at hloop
    obtain ⟨s', e, -, -, hans⟩ := Represents.init.serve ⟨[104], [112], [56, 48]⟩
      one_ne_zero rfl hloop (by decide) (by decide) 0 0
    exact ⟨s', e, hans⟩
  · obtain ⟨⟨s, -, hs⟩, -⟩ := h.storable
    have hlast := congrArg List.getLast? hs
    rw [List.getLast?_concat] at hlast
    exact absurd hlast (by decide)

end

end Cache

end SysProgLab
