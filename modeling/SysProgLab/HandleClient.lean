import SysProgLab.ReadersWriter
import SysProgLab.RequestText

/-!
# Failure isolation: `handle_client`

One thread serves one client, by itself: what the calls of the I/O routines bring
about is given by a `World`. The thread counts how often it closes `connfd`, frees
the `Request` and opens and closes a connection to the origin server, and moves
the semaphores. It leaves all of them as it should exactly when the request is a
GET for a well-formed URI, the header lines end and every call succeeds.
-/

namespace SysProgLab

namespace Proxy

/-- **What a client and an origin server do**, what is left in memory that nobody has
written yet, and what other threads let this one see. -/
structure World : Type where
  /-- what the client sends -/
  client : Stream
  /-- the `k`-th `Rio_writen` to the client succeeds -/
  sends : ℕ → Bool
  /-- `open_clientfd` succeeds -/
  connects : Bool
  /-- the first and the second `Rio_writen` to the origin server succeed -/
  asks : Bool × Bool
  /-- what the origin server sends -/
  response : Stream
  /-- `close(clientfd)` and `close(connfd)` succeed -/
  closes : Bool × Bool
  /-- `buf` of `handle_client` -/
  line : CStr
  /-- `buf` of `parse_header` -/
  header : CStr
  /-- `req` -/
  req : ClientRequest
  /-- `data` -/
  data : List UInt8
  data_length : data.length = maxObjectSize
  /-- the value of `readcnt` in round `k` of the loop of `get_from_server` -/
  readcnt : ℕ → ℕ
  /-- the node from `Malloc`, and the links that it holds -/
  node : ℕ × ℕ × ℕ

/-- What the thread changes. -/
structure Held : Type where
  /-- `mutex`, `w` and `readcnt` -/
  shared : Shared
  /-- the cache -/
  cache : Cache
  /-- how often `connfd` was closed -/
  connClosed : ℕ
  /-- how often `req` was freed -/
  reqFreed : ℕ
  /-- how many connections to the origin server were opened -/
  originOpened : ℕ
  /-- how many of them were closed -/
  originClosed : ℕ

/-- When `handle_client` starts. -/
def Held.start (v : Shared) (cache : Cache) : Held := ⟨v, cache, 0, 0, 0, 0⟩

variable (w : World)

/-! ## The locks -/

/-- `P(&mutex)` -/
def pMutex (v : Shared) : Except Stop Shared := do
  ensure (0 < v.mutex) .hang
  pure { v with mutex := v.mutex - 1 }

/-- `V(&mutex)` -/
def vMutex (v : Shared) : Shared := { v with mutex := v.mutex + 1 }

/-- `P(&w)` -/
def pW (v : Shared) : Except Stop Shared := do
  ensure (0 < v.w) .hang
  pure { v with w := v.w - 1 }

/-- `V(&w)` -/
def vW (v : Shared) : Shared := { v with w := v.w + 1 }

/-- The start of `get_from_cache`. -/
def startRead (v : Shared) : Except Stop Shared := do
  let v ← pMutex v
  let v := { v with readcnt := v.readcnt + 1 }
  let v ← if v.readcnt = 1 then pW v else pure v
  pure (vMutex v)

/-- The end of `get_from_cache`. -/
def endRead (v : Shared) : Except Stop Shared := do
  let v ← pMutex v
  let v := { v with readcnt := v.readcnt - 1 }
  let v := if v.readcnt = 0 then vW v else v
  pure (vMutex v)

/-! ## The functions of `proxy.c` -/

/-- What `get_from_cache` does with the item that it finds; 0 is NULL. -/
def answer (cache : Cache) (c : ℕ) : Except Stop Bool :=
  if c = 0 then pure false
  else do
    let x ← orStop (cache.nodes.deref c) .fault
    ensure (x.val.size.toNat ≤ x.val.data.length) .fault
    ensure (w.sends 0 = true) .exit
    pure true

/-- `get_from_cache` -/
def getFromCache (req : ClientRequest) (t : Held) : Except Stop (Bool × Held) := do
  let v ← startRead t.shared
  let (c, cache) ← orStop (t.cache.findCache req.hostname (atoi req.port) req.pathname) .fault
  let found ← answer w cache c
  let v ← endRead v
  pure (found, { t with shared := v, cache := cache })

/-- What round `k` stores of the chunk `buf`: `data` and `cnt` afterwards. -/
def storeChunk (k : ℕ) (data : List UInt8) (cnt : ℕ) (buf : List UInt8) :
    Option (List UInt8 × ℕ) :=
  if cnt + w.readcnt k ≤ maxObjectSize then
    (memcpy data cnt buf).map fun data => (data, cnt + buf.length)
  else some (data, cnt)

/-- The loop of `get_from_server`; `s` is what the origin server has yet to send. -/
def recvLoop : ℕ → ℕ → Stream → List UInt8 → ℕ → Except Stop (List UInt8 × ℕ)
  | 0, _, _, _, _ => .error .hang
  | fuel + 1, k, s, data, cnt => do
    let (buf, s) ← rioReadn s maxLine
    if buf = [] then pure (data, cnt)
    else do
      let (data, cnt) ← orStop (storeChunk w k data cnt buf) .fault
      ensure (w.sends k = true) .exit
      recvLoop fuel (k + 1) s data cnt

/-- `"%s /%s HTTP/1.0\r\n"` -/
def requestLine (req : ClientRequest) : CStr :=
  req.method ++ ascii " /" ++ req.pathname ++ ascii " HTTP/1.0\r\n"

/-- `get_from_server`, where the client has yet to send `s`. -/
def getFromServer (fuel : ℕ) (s : Stream) (req : ClientRequest) (t : Held) :
    Except Stop Held := do
  let _ ← parseHeader fuel s w.header req.hostname
  ensure (w.connects = true) .exit
  ensure ((requestLine req).length < maxLine) .fault
  ensure (w.asks.1 = true) .exit
  ensure (w.asks.2 = true) .exit
  let (data, _) ← recvLoop w (w.response.bytes.length + 1) 0 w.response w.data 0
  let v ← pW t.shared
  let o ← orStop (Cache.createCI req.hostname req.port req.pathname data) .fault
  let nodes := Function.update t.cache.nodes w.node.1 (some ⟨o, w.node.2.1, w.node.2.2⟩)
  let (_, cache) ← orStop (Cache.insertCache { t.cache with nodes := nodes } w.node.1) .fault
  ensure (w.closes.1 = true) .exit
  pure { t with
    shared := vW v
    cache := cache
    originOpened := t.originOpened + 1
    originClosed := t.originClosed + 1 }

/-- `handle_client` -/
def handleClient (fuel : ℕ) (t : Held) : Except Stop Held := do
  let (buf, s) ← rioReadlineb w.client w.line maxLine
  let req := parseRequest buf w.req
  if strcaseEq req.method (ascii "GET") = false then
    ensure (w.sends 0 = true) .exit
    pure t
  else
    let req ← parseUri req
    let (found, t) ← getFromCache w req t
    let t ← (if found then pure t else getFromServer w fuel s req t : Except Stop Held)
    ensure (w.closes.2 = true) .exit
    pure { t with connClosed := t.connClosed + 1, reqFreed := t.reqFreed + 1 }

/-! ## When the thread leaves things as it should -/

/-- **The thread is done with its client**: it has closed `connfd` and freed `req`
once, has closed what it opened, and the semaphores are as before. -/
def Isolated (v : Shared) (cache : Cache) : Prop :=
  ∃ fuel t, handleClient w fuel (Held.start v cache) = .ok t ∧ t.connClosed = 1 ∧
    t.reqFreed = 1 ∧ t.originOpened = t.originClosed ∧ t.shared = v

/-- The array of `get_from_server` after its loop. -/
def gathered : List UInt8 :=
  let got := Cache.stored w.readcnt (w.response.bytes.length + 1) 0 w.response.bytes 0
  got ++ w.data.drop got.length

/-- The cached item is written to the client. -/
def Answered (cache : Cache) (c : ℕ) : Prop :=
  ∃ x, cache.nodes.deref c = some x ∧ x.val.size.toNat ≤ x.val.data.length ∧ w.sends 0 = true

/-- **The origin server is asked and answers**, when the client has yet to send `s`. -/
structure Fetched (s : Stream) (req : ClientRequest) (cache : Cache) : Prop where
  /-- the header lines end, and what is made of them fits in the array -/
  headers : ∃ buf s₁ ls s', rioReadlineb s w.header maxLine = .ok (buf, s₁) ∧
    Headers s₁ buf ls s' ∧ (headerText ls req.hostname).length < maxLine
  line : (requestLine req).length < maxLine
  connects : w.connects = true
  asks : w.asks = (true, true)
  /-- the response ends, and is passed on -/
  ends : w.response.fails = false
  sends : ∀ k, k * maxLine < w.response.bytes.length → w.sends k = true
  /-- the response fits in the array, which holds a NUL -/
  fits : (Cache.stored w.readcnt (w.response.bytes.length + 1) 0 w.response.bytes 0).length ≤
    maxObjectSize
  insert : ∃ o r, Cache.createCI req.hostname req.port req.pathname (gathered w) = some o ∧
    Cache.insertCache { cache with
      nodes := Function.update cache.nodes w.node.1 (some ⟨o, w.node.2.1, w.node.2.2⟩) }
      w.node.1 = some r
  closes : w.closes.1 = true

/-- **The client is served**: a GET for a URI that `parse_uri` takes, answered from the
cache or by the origin server. -/
def Served (cache : Cache) : Prop :=
  ∃ buf s req c cache', rioReadlineb w.client w.line maxLine = .ok (buf, s) ∧
    strcaseEq (parseRequest buf w.req).method (ascii "GET") = true ∧
    parseUri (parseRequest buf w.req) = .ok req ∧
    cache.findCache req.hostname (atoi req.port) req.pathname = some (c, cache') ∧
    (if c ≠ 0 then Answered w cache' c else Fetched w s req cache') ∧ w.closes.2 = true

variable {w} {v v' : Shared} {t t' : Held} {s : Stream} {req : ClientRequest} {fuel : ℕ}
  {found : Bool}

/-- While the thread reads. -/
def Shared.inside (v : Shared) : Shared :=
  ⟨v.mutex, if v.readcnt = 0 then v.w - 1 else v.w, v.readcnt + 1⟩

theorem pMutex_eq (hm : 0 < v.mutex) : pMutex v = .ok { v with mutex := v.mutex - 1 } := by
  rw [pMutex, ensure, if_pos hm]
  rfl

theorem pW_eq (hw : 0 < v.w) : pW v = .ok { v with w := v.w - 1 } := by
  rw [pW, ensure, if_pos hw]
  rfl

theorem startRead_eq (hm : 0 < v.mutex) (hw : 0 < v.w) : startRead v = .ok v.inside := by
  have hm' : v.mutex - 1 + 1 = v.mutex := by omega
  rw [startRead, pMutex_eq hm, Shared.inside]
  by_cases h0 : v.readcnt = 0
  · simp [h0, bind, Except.bind, pure, Except.pure, pW, ensure, hw, vMutex, hm']
  · simp [h0, bind, Except.bind, pure, Except.pure, vMutex, hm']

theorem endRead_eq (hm : 0 < v.mutex) (hw : 0 < v.w) : endRead v.inside = .ok v := by
  have hm' : v.mutex - 1 + 1 = v.mutex := by omega
  have hw' : v.w - 1 + 1 = v.w := by omega
  obtain ⟨m, k, n⟩ := v
  rw [endRead, pMutex_eq (v := Shared.inside ⟨m, k, n⟩) hm, Shared.inside]
  by_cases h0 : n = 0
  · subst h0
    simp only [bind, Except.bind, pure, Except.pure, vMutex, vW]
    simp [hm', hw']
  · simp only [bind, Except.bind, pure, Except.pure, vMutex, vW]
    simp [h0, hm']

theorem answer_ok_iff {cache : Cache} {c : ℕ} :
    answer w cache c = .ok found ↔ found = decide (c ≠ 0) ∧ (c ≠ 0 → Answered w cache c) := by
  rw [answer]
  by_cases hc : c = 0
  · rw [if_pos hc, pure_eq_ok]
    simp [hc, eq_comm]
  · rw [if_neg hc]
    simp only [bind_eq_ok, orStop_eq_ok, ensure_eq_ok, pure_eq_ok, Answered]
    constructor
    · rintro ⟨x, hx, -, hsize, -, hsend, rfl⟩
      exact ⟨by simp [hc], fun _ => ⟨x, hx, hsize, hsend⟩⟩
    · rintro ⟨rfl, hans⟩
      obtain ⟨x, hx, hsize, hsend⟩ := hans hc
      exact ⟨x, hx, ⟨⟩, hsize, ⟨⟩, hsend, by simp [hc]⟩

/-- The look-up leaves the semaphores as they were. -/
theorem getFromCache_ok_iff (hm : 0 < t.shared.mutex) (hw : 0 < t.shared.w) :
    getFromCache w req t = .ok (found, t') ↔
      ∃ c cache, t.cache.findCache req.hostname (atoi req.port) req.pathname = some (c, cache) ∧
        found = decide (c ≠ 0) ∧ (c ≠ 0 → Answered w cache c) ∧
        t' = { t with cache := cache } := by
  rw [getFromCache, startRead_eq hm hw]
  constructor
  · intro h
    obtain ⟨_, e, h⟩ := bind_eq_ok.mp h
    cases e
    obtain ⟨⟨c, cache⟩, hfind, h⟩ := bind_eq_ok.mp h
    obtain ⟨b, hans, h⟩ := bind_eq_ok.mp h
    rw [endRead_eq hm hw] at h
    cases h
    obtain ⟨hb, hans⟩ := answer_ok_iff.mp hans
    exact ⟨c, cache, orStop_eq_ok.mp hfind, hb, hans, rfl⟩
  · rintro ⟨c, cache, hfind, hfound, hans, rfl⟩
    refine bind_eq_ok.mpr ⟨_, rfl, bind_eq_ok.mpr ⟨(c, cache), orStop_eq_ok.mpr hfind,
      bind_eq_ok.mpr ⟨found, answer_ok_iff.mpr ⟨hfound, hans⟩, ?_⟩⟩⟩
    rw [endRead_eq hm hw]
    rfl

/-! ## The origin server -/

/-- The chunks of a response: the first one, and those of the rest. -/
theorem chunks_iff {P : ℕ → Prop} {k n m : ℕ} (hn : 0 < n) :
    (∀ j, j * m < n → P (k + j)) ↔ P k ∧ ∀ j, j * m < n - m → P (k + 1 + j) := by
  constructor
  · intro h
    refine ⟨h 0 (by rwa [Nat.zero_mul]), fun j hj => ?_⟩
    rw [Nat.add_assoc, Nat.add_comm 1 j]
    refine h (j + 1) ?_
    rw [Nat.succ_mul]
    exact Nat.add_lt_of_lt_sub hj
  · rintro ⟨h0, h⟩ j hj
    cases j with
    | zero => exact h0
    | succ j =>
      rw [Nat.succ_mul] at hj
      have := h j (Nat.lt_sub_of_add_lt hj)
      rwa [Nat.add_assoc, Nat.add_comm 1 j] at this

/-- A round of the loop without the client. -/
theorem cacheLoop_succ {k cnt : ℕ} {rest data : List UInt8} (hne : rest.take maxLine ≠ []) :
    Cache.recvLoop w.readcnt (fuel + 1) k rest data cnt =
      (storeChunk w k data cnt (rest.take maxLine)).bind fun p =>
        (Cache.recvLoop w.readcnt fuel (k + 1) (rest.drop maxLine) p.1 p.2).map fun r =>
          (r.1, r.2.1, rest.take maxLine ++ r.2.2) := by
  rw [Cache.recvLoop, if_neg hne, storeChunk]
  split
  · cases memcpy data cnt (rest.take maxLine) with
    | none => rfl
    | some d =>
      simp only [Option.map_some, Option.bind_some, Option.bind_eq_bind]
      cases Cache.recvLoop w.readcnt fuel (k + 1) (rest.drop maxLine) d
        (cnt + (rest.take maxLine).length) <;> rfl
  · simp only [Option.bind_some, Option.bind_eq_bind]
    cases Cache.recvLoop w.readcnt fuel (k + 1) (rest.drop maxLine) data cnt <;> rfl

/-- **The loop** goes on to the end of the response exactly if every chunk can be
stored and is passed on. -/
theorem recvLoop_ok_iff {d : List UInt8} {n : ℕ} : ∀ {fuel : ℕ} (k : ℕ) (s : Stream)
    (data : List UInt8) (cnt : ℕ), s.bytes.length < fuel →
    (recvLoop w fuel k s data cnt = .ok (d, n) ↔
      s.fails = false ∧ (∀ j, j * maxLine < s.bytes.length → w.sends (k + j) = true) ∧
      ∃ sent, Cache.recvLoop w.readcnt fuel k s.bytes data cnt = some (d, n, sent)) := by
  intro fuel
  induction fuel with
  | zero =>
    intro k s data cnt hf
    exact absurd hf (Nat.not_lt_zero _)
  | succ fuel ih =>
    intro k s data cnt hf
    have hline : 0 < maxLine := by decide
    rw [recvLoop]
    by_cases hread : maxLine ≤ s.bytes.length ∨ s.fails = false
    case neg =>
      rw [rioReadn, if_neg hread]
      exact iff_of_false (fun h => by cases h) fun h => hread (.inr h.1)
    rw [rioReadn, if_pos hread]
    by_cases hend : s.bytes = []
    · obtain ⟨bytes, fails⟩ := s
      obtain rfl : bytes = [] := hend
      have hfails : fails = false := hread.resolve_left (Nat.not_le.mpr hline)
      simp [bind, Except.bind, pure, Except.pure, hfails, Cache.recvLoop]
    have hpos : 0 < s.bytes.length := List.length_pos_of_ne_nil hend
    have hbuf : s.bytes.take maxLine ≠ [] := by simpa using hend
    have hrest : (s.bytes.drop maxLine).length < fuel := by
      rw [List.length_drop]
      omega
    rw [chunks_iff (P := fun j => w.sends j = true) hpos, cacheLoop_succ hbuf]
    have hround := fun data cnt => ih (k + 1) { s with bytes := s.bytes.drop maxLine } data cnt hrest
    simp only [List.length_drop] at hround
    constructor
    · intro h
      obtain ⟨_, e, h⟩ := bind_eq_ok.mp h
      cases e
      dsimp only at h
      rw [if_neg hbuf] at h
      obtain ⟨⟨data', cnt'⟩, hstore, h⟩ := bind_eq_ok.mp h
      obtain ⟨_, hsend, h⟩ := bind_eq_ok.mp h
      obtain ⟨hfails, hsends, sent, hloop⟩ := (hround data' cnt').mp h
      refine ⟨hfails, ⟨ensure_eq_ok.mp hsend, hsends⟩, s.bytes.take maxLine ++ sent, ?_⟩
      rw [orStop_eq_ok.mp hstore, Option.bind_some, hloop]
      rfl
    · rintro ⟨hfails, ⟨hsend, hsends⟩, sent, h⟩
      obtain ⟨p, hstore, h⟩ := Option.bind_eq_some_iff.mp h
      obtain ⟨⟨d', n', sent'⟩, hloop, e⟩ := Option.map_eq_some_iff.mp h
      cases e
      refine bind_eq_ok.mpr ⟨_, rfl, ?_⟩
      dsimp only
      rw [if_neg hbuf]
      exact bind_eq_ok.mpr ⟨p, orStop_eq_ok.mpr hstore, bind_eq_ok.mpr ⟨⟨⟩, ensure_eq_ok.mpr hsend,
        (hround p.1 p.2).mpr ⟨hfails, hsends, sent', hloop⟩⟩⟩

/-- What is in the array after the whole response. -/
theorem recvLoop_all {d : List UInt8} :
    (∃ n, recvLoop w (w.response.bytes.length + 1) 0 w.response w.data 0 = .ok (d, n)) ↔
      w.response.fails = false ∧
      (∀ k, k * maxLine < w.response.bytes.length → w.sends k = true) ∧
      (Cache.stored w.readcnt (w.response.bytes.length + 1) 0 w.response.bytes 0).length ≤
        maxObjectSize ∧ d = gathered w := by
  have hlen := Nat.lt_succ_self w.response.bytes.length
  have hloop := Cache.recvLoop_eq w.readcnt 0 [] w.data hlen
  simp only [List.nil_append, List.length_nil, Nat.zero_add, w.data_length] at hloop
  simp only [recvLoop_ok_iff 0 w.response w.data 0 hlen, hloop, Nat.zero_add]
  constructor
  · rintro ⟨n, hfails, hsends, sent, h⟩
    obtain ⟨hfits, e⟩ := Option.ite_none_right_eq_some.mp h
    cases e
    exact ⟨hfails, hsends, hfits, rfl⟩
  · rintro ⟨hfails, hsends, hfits, rfl⟩
    exact ⟨_, hfails, hsends, _, if_pos hfits⟩

theorem pW_ok (h : pW v = .ok v') : 0 < v.w ∧ vW v' = v := by
  obtain ⟨_, e, h⟩ := bind_eq_ok.mp h
  have hw := ensure_eq_ok.mp e
  cases pure_eq_ok.mp h
  refine ⟨hw, ?_⟩
  rw [vW]
  simp only [Nat.sub_add_cancel hw]

/-- **A fetch** that returns has closed what it opened, and has left the semaphores as
they were. -/
theorem getFromServer_ok (h : getFromServer w fuel s req t = .ok t') :
    Fetched w s req t.cache ∧ ∃ cache, t' = { t with
      cache := cache
      originOpened := t.originOpened + 1
      originClosed := t.originClosed + 1 } := by
  obtain ⟨⟨text, s'⟩, htext, h⟩ := bind_eq_ok.mp h
  obtain ⟨_, hconnects, h⟩ := bind_eq_ok.mp h
  obtain ⟨_, hline, h⟩ := bind_eq_ok.mp h
  obtain ⟨_, hask₁, h⟩ := bind_eq_ok.mp h
  obtain ⟨_, hask₂, h⟩ := bind_eq_ok.mp h
  obtain ⟨⟨data, n⟩, hloop, h⟩ := bind_eq_ok.mp h
  obtain ⟨v, hv, h⟩ := bind_eq_ok.mp h
  obtain ⟨o, ho, h⟩ := bind_eq_ok.mp h
  obtain ⟨⟨evicted, cache⟩, hins, h⟩ := bind_eq_ok.mp h
  obtain ⟨_, hclose, h⟩ := bind_eq_ok.mp h
  cases pure_eq_ok.mp h
  obtain ⟨buf, s₁, ls, hread, hls, rfl, hlen⟩ := parseHeader_ok_iff.mp ⟨fuel, htext⟩
  obtain ⟨hends, hsends, hfits, rfl⟩ := recvLoop_all.mp ⟨n, hloop⟩
  refine ⟨⟨⟨buf, s₁, ls, s', hread, hls, hlen⟩, ensure_eq_ok.mp hline, ensure_eq_ok.mp hconnects,
    Prod.ext (ensure_eq_ok.mp hask₁) (ensure_eq_ok.mp hask₂), hends, hsends, hfits,
    ⟨o, _, orStop_eq_ok.mp ho, orStop_eq_ok.mp hins⟩, ensure_eq_ok.mp hclose⟩, cache, ?_⟩
  rw [(pW_ok hv).2]

/-- When the origin server is asked and answers, the fetch returns. -/
theorem Fetched.returns (h : Fetched w s req t.cache) (hw : 0 < t.shared.w) :
    ∃ fuel t', getFromServer w fuel s req t = .ok t' := by
  obtain ⟨buf, s₁, ls, s', hread, hls, hlen⟩ := h.headers
  obtain ⟨fuel, htext⟩ := parseHeader_ok_iff.mpr ⟨buf, s₁, ls, hread, hls, rfl, hlen⟩
  obtain ⟨n, hloop⟩ := recvLoop_all.mpr ⟨h.ends, h.sends, h.fits, rfl⟩
  obtain ⟨o, r, ho, hins⟩ := h.insert
  have hask₁ : w.asks.1 = true := congrArg Prod.fst h.asks
  have hask₂ : w.asks.2 = true := congrArg Prod.snd h.asks
  refine ⟨fuel, _, bind_eq_ok.mpr ⟨_, htext, bind_eq_ok.mpr ⟨⟨⟩, ensure_eq_ok.mpr h.connects,
    bind_eq_ok.mpr ⟨⟨⟩, ensure_eq_ok.mpr h.line, bind_eq_ok.mpr ⟨⟨⟩, ensure_eq_ok.mpr hask₁,
    bind_eq_ok.mpr ⟨⟨⟩, ensure_eq_ok.mpr hask₂, bind_eq_ok.mpr ⟨_, hloop, bind_eq_ok.mpr ⟨_, pW_eq hw,
    bind_eq_ok.mpr ⟨o, orStop_eq_ok.mpr ho, bind_eq_ok.mpr ⟨r, orStop_eq_ok.mpr hins,
    bind_eq_ok.mpr ⟨⟨⟩, ensure_eq_ok.mpr h.closes, rfl⟩⟩⟩⟩⟩⟩⟩⟩⟩⟩⟩

/-- The early return leaves `connfd` open, so a thread that has closed it has served its
client. -/
theorem Isolated.served {cache : Cache} (hm : 0 < v.mutex) (hw : 0 < v.w)
    (h : Isolated w v cache) : Served w cache := by
  obtain ⟨fuel, t, h, hconn, -⟩ := h
  obtain ⟨⟨buf, s⟩, hread, h⟩ := bind_eq_ok.mp h
  dsimp only at h
  split at h
  · -- the early return
    obtain ⟨_, -, h⟩ := bind_eq_ok.mp h
    cases pure_eq_ok.mp h
    cases hconn
  rename_i hmethod
  rw [Bool.not_eq_false] at hmethod
  obtain ⟨req, huri, h⟩ := bind_eq_ok.mp h
  obtain ⟨⟨found, t₁⟩, hcache, h⟩ := bind_eq_ok.mp h
  obtain ⟨c, cache', hfind, rfl, hans, rfl⟩ := (getFromCache_ok_iff hm hw).mp hcache
  obtain ⟨t₂, hserver, h⟩ := bind_eq_ok.mp h
  obtain ⟨_, hclose, h⟩ := bind_eq_ok.mp h
  refine ⟨buf, s, req, c, cache', hread, hmethod, huri, hfind, ?_, ensure_eq_ok.mp hclose⟩
  split
  · exact hans ‹_›
  · rename_i hc
    simp only [hc, decide_false] at hserver
    exact (getFromServer_ok hserver).1

theorem Served.isolated {cache : Cache} (hm : 0 < v.mutex) (hw : 0 < v.w)
    (h : Served w cache) : Isolated w v cache := by
  obtain ⟨buf, s, req, c, cache', hread, hmethod, huri, hfind, hc, hclose⟩ := h
  have hcache := (getFromCache_ok_iff (w := w) (t := Held.start v cache) hm hw).mpr
    ⟨c, cache', hfind, rfl, fun hne => by rwa [if_pos hne] at hc, rfl⟩
  -- what is left to do, and what it leaves
  have hrest : ∃ fuel t, (if decide (c ≠ 0) then pure { Held.start v cache with cache := cache' }
      else getFromServer w fuel s req { Held.start v cache with cache := cache' }) =
        Except.ok t ∧ t.connClosed = 0 ∧ t.reqFreed = 0 ∧ t.originOpened = t.originClosed ∧
          t.shared = v := by
    by_cases hc0 : c ≠ 0
    · exact ⟨0, _, by rw [if_pos (decide_eq_true hc0)]; rfl, rfl, rfl, rfl, rfl⟩
    · rw [if_neg hc0] at hc
      obtain ⟨fuel, t, hserver⟩ :=
        Fetched.returns (t := { Held.start v cache with cache := cache' }) hc hw
      obtain ⟨-, cache'', rfl⟩ := getFromServer_ok hserver
      exact ⟨fuel, _, by simpa [hc0] using hserver, rfl, rfl, rfl, rfl⟩
  obtain ⟨fuel, t, hserver, hconn, hreq, horigin, hshared⟩ := hrest
  refine ⟨fuel, { t with connClosed := t.connClosed + 1, reqFreed := t.reqFreed + 1 }, ?_,
    by simp [hconn], by simp [hreq], horigin, hshared⟩
  refine bind_eq_ok.mpr ⟨_, hread, ?_⟩
  dsimp only
  rw [if_neg (by rw [hmethod]; decide)]
  exact bind_eq_ok.mpr ⟨_, huri, bind_eq_ok.mpr ⟨_, hcache, bind_eq_ok.mpr ⟨_, hserver,
    bind_eq_ok.mpr ⟨⟨⟩, ensure_eq_ok.mpr hclose, rfl⟩⟩⟩⟩

/-- **The thread is done with its client exactly if the client is served.** -/
theorem isolated_iff_served (w : World) {v : Shared} (cache : Cache) (hm : 0 < v.mutex)
    (hw : 0 < v.w) : Isolated w v cache ↔ Served w cache :=
  ⟨fun h => h.served hm hw, fun h => h.isolated hm hw⟩

/-! ## Three clients -/

/-- The semaphores when no other thread is at work. -/
def idle : Shared := ⟨1, 1, 0⟩

/-- A client sends `text` to an origin server that closes the connection at once;
every call succeeds if `connects` holds. -/
def demo (text : CStr) (connects : Bool) : World where
  client := ⟨text, false⟩
  sends _ := true
  connects := connects
  asks := (true, true)
  response := ⟨[], false⟩
  closes := (true, true)
  line := []
  header := []
  req := ⟨⟨[], [], []⟩, [], [], []⟩
  data := List.replicate maxObjectSize 0
  data_length := List.length_replicate
  readcnt _ := 0
  node := (8, 0, 0)

/-- A whole request. -/
def getText : CStr := ascii "GET http://a/ HTTP/1.0\r\n\r\n"

/-- A request line alone. -/
def earlyText : CStr := ascii "GET http://a/ HTTP/1.0\r\n"

theorem earlyText_line : rioReadlineb ⟨earlyText, false⟩ [] maxLine =
    .ok (earlyText, ⟨[], false⟩) := by decide +kernel

theorem served_demo : Isolated (demo getText true) idle cacheInit := by
  refine (isolated_iff_served _ _ (by decide) (by decide)).mpr ?_
  have hgathered : gathered (demo getText true) =
      [] ++ 0 :: List.replicate (maxObjectSize - 1) 0 := by
    rw [← List.replicate_succ]
    rfl
  refine ⟨earlyText, ⟨crlf, false⟩, ⟨⟨ascii "a", [], ascii "80"⟩, ascii "GET", ascii "http://a/",
    ascii "HTTP/1.0"⟩, 0, cacheInit, by decide +kernel, by decide +kernel, by decide +kernel, rfl,
    ?_, rfl⟩
  refine ⟨⟨crlf, ⟨[], false⟩, [], _, by decide +kernel, .done, by decide +kernel⟩,
    by decide +kernel, rfl, rfl, rfl, fun _ _ => rfl, Nat.zero_le _, ?_, rfl⟩
  rw [hgathered, Cache.createCI, Cache.cString_append List.not_mem_nil]
  exact ⟨_, _, rfl, rfl⟩

/-- A request that is not a GET: nothing is closed or freed. An origin server that
cannot be reached: the process ends. A client that closes the connection before the
empty line. -/
theorem not_isolated :
    ((handleClient (demo (ascii "POST http://a/ HTTP/1.0\r\n\r\n") true) 1
      (Held.start idle cacheInit)).toOption.map fun t => (t.connClosed, t.reqFreed)) =
        some (0, 0) ∧
    (match handleClient (demo getText false) 1 (Held.start idle cacheInit) with
      | .ok _ => none
      | .error e => some e) = some .exit ∧
    ¬Isolated (demo earlyText true) idle cacheInit := by
  refine ⟨by decide +kernel, by decide +kernel, fun h => ?_⟩
  obtain ⟨buf, s, req, c, cache', hread, -, -, hfind, hc, -⟩ := h.served (by decide) (by decide)
  cases earlyText_line.symm.trans hread
  have hnone : cacheInit.findCache req.hostname (atoi req.port) req.pathname =
    some (0, cacheInit) := rfl
  cases hnone.symm.trans hfind
  rw [if_neg (by decide)] at hc
  obtain ⟨buf, s₁, ls, s', hread, hls, -⟩ := hc.headers
  cases (rioReadlineb_end rfl rfl).symm.trans hread
  exact not_headers_end rfl rfl (by decide) hls

end Proxy

end SysProgLab
