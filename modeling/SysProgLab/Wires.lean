import SysProgLab.HandleClient
import SysProgLab.RioBuffer

/-!
# From byte to byte: `handle_client` over descriptors

Here `handle_client` runs over the descriptors themselves: the request is read through a
`rio_t`, the response comes through `rio_readn`, and every answer goes through
`rio_writen`. Whatever the kernel makes of each call, the thread returns exactly if the
thread that reads whole streams does and what is sent finds room (`served_exactly`); then
the client has been sent the reply, and the origin server the request, byte by byte.
-/

namespace SysProgLab

namespace Proxy

/-- The world in which no write fails. -/
def World.sending (w : World) : World :=
  { w with sends := fun _ => true, asks := (true, true) }

/-- **The descriptors that are read**, in a world. -/
structure Wires (w : World) : Type where
  /-- `connfd` -/
  client : Source
  client_stream : client.stream = w.client
  /-- `rio.rio_buf` -/
  buf : List UInt8
  buf_size : buf.length = rioBufsize
  /-- `clientfd` -/
  origin : Source
  origin_stream : origin.stream = w.response

/-- The descriptors that are written. -/
structure Sent : Type where
  /-- `connfd` -/
  toClient : Sink
  /-- `clientfd` -/
  toOrigin : Sink

/-- `"%s\n"` of `handle_client` -/
def errormsg : CStr := ascii "only method GET allowed\n"

namespace Wires

variable (w : World)

/-! ## The functions of `proxy.c` -/

/-- What `get_from_cache` does with the item that it finds; 0 is NULL. -/
def answer (cache : Cache) (c : ℕ) (e : Sink) : Except Stop (Bool × Sink) :=
  if c = 0 then pure (false, e)
  else do
    let x ← orStop (cache.nodes.deref c) .fault
    ensure (x.val.size.toNat ≤ x.val.data.length) .fault
    let e ← rioWritenOrExit e (x.val.data.take x.val.size.toNat)
    pure (true, e)

/-- `get_from_cache` -/
def getFromCache (req : ClientRequest) (t : Held) (e : Sink) :
    Except Stop (Bool × Held × Sink) := do
  let v ← startRead t.shared
  let (c, cache) ← orStop (t.cache.findCache req.hostname (atoi req.port) req.pathname) .fault
  let (found, e) ← answer cache c e
  let v ← endRead v
  pure (found, { t with shared := v, cache := cache }, e)

/-- The loop of `parse_header`. -/
def headerLoop : ℕ → RioT → CStr → CStr → Bool → Except Stop (CStr × Bool × RioT)
  | 0, _, _, _, _ => .error .hang
  | fuel + 1, rp, buf, header, isHost =>
    if buf = crlf then .ok (header, isHost, rp)
    else do
      let (header, isHost) ←
        if forwarded buf then do
          let header ← strcat header buf
          pure (header, isHost || strstr buf (ascii "Host"))
        else pure (header, isHost)
      let (buf, rp) ← rioReadlinebOrExit rp buf maxLine
      headerLoop fuel rp buf header isHost

/-- `parse_header` -/
def parseHeader (fuel : ℕ) (rp : RioT) (buf hostname : CStr) : Except Stop (CStr × RioT) := do
  let (buf, rp) ← rioReadlinebOrExit rp buf maxLine
  let (header, isHost, rp) ← headerLoop fuel rp buf fixedHdr false
  let header ← endHeader header isHost hostname
  pure (header, rp)

/-- The loop of `get_from_server` -/
def recvLoop : ℕ → ℕ → Source → List UInt8 → ℕ → Sink → Except Stop ((List UInt8 × ℕ) × Sink)
  | 0, _, _, _, _, _ => .error .hang
  | fuel + 1, k, d, data, cnt, e => do
    let (buf, d) ← rioReadnUnix d maxLine >>= orExit
    if buf = [] then pure ((data, cnt), e)
    else do
      let (data, cnt) ← orStop (storeChunk w k data cnt buf) .fault
      let e ← rioWritenOrExit e buf
      recvLoop fuel (k + 1) d data cnt e

variable {w}

/-- `get_from_server` -/
def getFromServer (p : Wires w) (fuel : ℕ) (rp : RioT) (req : ClientRequest) (t : Held)
    (o : Sent) : Except Stop (Held × Sent) := do
  let (header, _) ← parseHeader fuel rp w.header req.hostname
  ensure (w.connects = true) .exit
  ensure ((requestLine req).length < maxLine) .fault
  let e ← rioWritenOrExit o.toOrigin (requestLine req)
  let e ← rioWritenOrExit e header
  let ((data, _), c) ← recvLoop w (w.response.bytes.length + 1) 0 p.origin w.data 0 o.toClient
  let v ← pW t.shared
  let obj ← orStop (Cache.createCI req.hostname req.port req.pathname data) .fault
  let nodes := Function.update t.cache.nodes w.node.1 (some ⟨obj, w.node.2.1, w.node.2.2⟩)
  let (_, cache) ← orStop (Cache.insertCache { t.cache with nodes := nodes } w.node.1) .fault
  ensure (w.closes.1 = true) .exit
  pure ({ t with
    shared := vW v
    cache := cache
    originOpened := t.originOpened + 1
    originClosed := t.originClosed + 1 }, ⟨c, e⟩)

/-- `handle_client` -/
def handleClient (p : Wires w) (fuel : ℕ) (t : Held) (o : Sent) : Except Stop (Held × Sent) := do
  let (buf, rp) ← rioReadlinebOrExit (rioReadinitb p.client p.buf) w.line maxLine
  let req := parseRequest buf w.req
  if strcaseEq req.method (ascii "GET") = false then
    let c ← rioWritenOrExit o.toClient errormsg
    pure (t, { o with toClient := c })
  else
    let req ← parseUri req
    let (found, t, c) ← getFromCache req t o.toClient
    let o := { o with toClient := c }
    let (t, o) ← (if found then pure (t, o) else getFromServer p fuel rp req t o)
    ensure (w.closes.2 = true) .exit
    pure ({ t with connClosed := t.connClosed + 1, reqFreed := t.reqFreed + 1 }, o)

/-! ## What is sent -/

end Wires

/-- The bytes of a cached item; 0 is NULL. -/
def itemBytes (cache : Cache) (c : ℕ) : List UInt8 :=
  if c = 0 then []
  else (cache.nodes.deref c).elim [] fun x => x.val.data.take x.val.size.toNat

/-- **The exchange**: the reply to the client, and the request to the origin server. -/
def exchange (w : World) (fuel : ℕ) (cache : Cache) :
    Except Stop (List UInt8 × List UInt8) := do
  let (buf, s) ← rioReadlineb w.client w.line maxLine
  let req := parseRequest buf w.req
  if strcaseEq req.method (ascii "GET") = false then pure (errormsg, [])
  else
    let req ← parseUri req
    let (c, cache) ← orStop (cache.findCache req.hostname (atoi req.port) req.pathname) .fault
    if c ≠ 0 then pure (itemBytes cache c, [])
    else
      let (header, _) ← parseHeader fuel s w.header req.hostname
      pure (w.response.bytes, requestLine req ++ header)

/-- **What has been sent** on both descriptors. -/
structure Sent.Took (reply asked : List UInt8) (o o' : Sent) : Prop where
  reply : o.toClient.Took reply o'.toClient
  asked : o.toOrigin.Took asked o'.toOrigin

namespace Wires

variable {rp rp' : RioT} {d : Source} {e e' : Sink} {o o' : Sent} {t t' : Held} {found : Bool}
  {cache : Cache} {c fuel k cnt : ℕ} {req : ClientRequest} {buf header hostname text : CStr}
  {isHost : Bool} {data : List UInt8} {r : List UInt8 × ℕ}

theorem answer_took (w : World) (h : answer cache c e = .ok (found, e')) :
    Proxy.answer w.sending cache c = .ok found ∧ found = decide (c ≠ 0) ∧
      e.Took (itemBytes cache c) e' := by
  rw [answer] at h
  rw [Proxy.answer, itemBytes]
  split at h
  · next hc =>
    rw [if_pos hc, if_pos hc]
    cases pure_eq_ok.mp h
    exact ⟨rfl, by simp [hc], .nil e⟩
  · next hc =>
    rw [if_neg hc, if_neg hc]
    obtain ⟨x, hx, h⟩ := bind_eq_ok.mp h
    obtain ⟨_, hsize, h⟩ := bind_eq_ok.mp h
    obtain ⟨e₁, hwrite, h⟩ := bind_eq_ok.mp h
    cases pure_eq_ok.mp h
    refine ⟨bind_eq_ok.mpr ⟨x, hx, bind_eq_ok.mpr ⟨⟨⟩, hsize, rfl⟩⟩, by simp [hc], ?_⟩
    rw [orStop_eq_ok.mp hx]
    exact rioWriten_took hwrite

theorem answer_returns (w : World) (h : Proxy.answer w.sending cache c = .ok found)
    (hfits : e.Fits (itemBytes cache c).length) : ∃ e', answer cache c e = .ok (found, e') := by
  rw [Proxy.answer] at h
  rw [itemBytes] at hfits
  rw [answer]
  split at h
  · next hc =>
    cases pure_eq_ok.mp h
    exact ⟨e, if_pos hc⟩
  · next hc =>
    rw [if_neg hc] at hfits ⊢
    obtain ⟨x, hx, h⟩ := bind_eq_ok.mp h
    obtain ⟨_, hsize, h⟩ := bind_eq_ok.mp h
    obtain ⟨_, -, h⟩ := bind_eq_ok.mp h
    cases pure_eq_ok.mp h
    rw [orStop_eq_ok.mp hx] at hfits
    obtain ⟨e', hwrite, -⟩ := (rioWriten_eq e _).1 hfits
    exact ⟨e', bind_eq_ok.mpr ⟨x, hx, bind_eq_ok.mpr ⟨⟨⟩, hsize, bind_eq_ok.mpr ⟨e', hwrite, rfl⟩⟩⟩⟩

theorem getFromCache_took (w : World) (h : getFromCache req t e = .ok (found, t', e')) :
    Proxy.getFromCache w.sending req t = .ok (found, t') ∧
      ∃ c, t.cache.findCache req.hostname (atoi req.port) req.pathname = some (c, t'.cache) ∧
        found = decide (c ≠ 0) ∧ e.Took (itemBytes t'.cache c) e' := by
  obtain ⟨v, hstart, h⟩ := bind_eq_ok.mp h
  obtain ⟨⟨c, cache⟩, hfind, h⟩ := bind_eq_ok.mp h
  obtain ⟨⟨found', e₁⟩, hans, h⟩ := bind_eq_ok.mp h
  obtain ⟨v', hend, h⟩ := bind_eq_ok.mp h
  cases pure_eq_ok.mp h
  obtain ⟨hans', hfound, htook⟩ := answer_took w hans
  exact ⟨bind_eq_ok.mpr ⟨v, hstart, bind_eq_ok.mpr ⟨_, hfind, bind_eq_ok.mpr ⟨_, hans',
    bind_eq_ok.mpr ⟨v', hend, rfl⟩⟩⟩⟩, c, orStop_eq_ok.mp hfind, hfound, htook⟩

theorem getFromCache_returns (w : World) (h : Proxy.getFromCache w.sending req t = .ok (found, t')) :
    ∃ c, t.cache.findCache req.hostname (atoi req.port) req.pathname = some (c, t'.cache) ∧
      found = decide (c ≠ 0) ∧ (e.Fits (itemBytes t'.cache c).length →
        ∃ e', getFromCache req t e = .ok (found, t', e')) := by
  obtain ⟨v, hstart, h⟩ := bind_eq_ok.mp h
  obtain ⟨⟨c, cache⟩, hfind, h⟩ := bind_eq_ok.mp h
  obtain ⟨found', hans, h⟩ := bind_eq_ok.mp h
  obtain ⟨v', hend, h⟩ := bind_eq_ok.mp h
  cases pure_eq_ok.mp h
  refine ⟨c, orStop_eq_ok.mp hfind, (answer_ok_iff.mp hans).1, fun hfits => ?_⟩
  obtain ⟨e', hans'⟩ := answer_returns w hans hfits
  exact ⟨e', bind_eq_ok.mpr ⟨v, hstart, bind_eq_ok.mpr ⟨_, hfind, bind_eq_ok.mpr ⟨_, hans',
    bind_eq_ok.mpr ⟨v', hend, rfl⟩⟩⟩⟩⟩

/-! ## The header lines -/

/-- The loop reads the lines of the stream. -/
theorem headerLoop_refines (h : rp.Ok) :
    (fun r => (r.1, r.2.1, r.2.2.pending)) <$> headerLoop fuel rp buf header isHost =
      Proxy.headerLoop fuel rp.pending buf header isHost := by
  induction fuel generalizing rp buf header isHost with
  | zero => rfl
  | succ fuel ih =>
    rw [headerLoop, Proxy.headerLoop]
    split
    · rfl
    -- the next line, whatever this one adds to the header
    have hnext : ∀ p : CStr × Bool,
        (fun r => (r.1, r.2.1, r.2.2.pending)) <$> (rioReadlinebOrExit rp buf maxLine >>=
          fun q => headerLoop fuel q.2 q.1 p.1 p.2) =
        (rioReadlineb rp.pending buf maxLine >>= fun q => Proxy.headerLoop fuel q.2 q.1 p.1 p.2) := by
      intro p
      rcases h.readlineb_cases buf maxLine with ⟨err, hread, hread'⟩ |
        ⟨text, rp', hread, hok, hread'⟩
      · rw [hread, hread']
        rfl
      · rw [hread, hread']
        exact ih hok
    split
    · cases strcat header buf with
      | error err => rfl
      | ok header => exact hnext (header, _)
    · exact hnext (header, isHost)

/-- `parse_header` makes the same of the descriptor and of the stream. -/
theorem parseHeader_refines (h : rp.Ok) :
    (fun r => (r.1, r.2.pending)) <$> parseHeader fuel rp buf hostname =
      Proxy.parseHeader fuel rp.pending buf hostname := by
  rw [parseHeader, Proxy.parseHeader]
  rcases h.readlineb_cases buf maxLine with ⟨err, hread, hread'⟩ | ⟨text, rp', hread, hok, hread'⟩
  · simp only [bind, Except.bind, hread, hread']
    rfl
  · simp only [bind, Except.bind, hread, hread', ← headerLoop_refines hok]
    cases headerLoop fuel rp' text fixedHdr false with
    | error err => rfl
    | ok r =>
      obtain ⟨header, isHost, rp₁⟩ := r
      simp only [Functor.map, Except.map]
      cases endHeader header isHost hostname <;> rfl

/-- What `parse_header` returns for the descriptor, it returns for the stream. -/
theorem parseHeader_ok (h : rp.Ok) (hp : parseHeader fuel rp buf hostname = .ok (text, rp')) :
    Proxy.parseHeader fuel rp.pending buf hostname = .ok (text, rp'.pending) := by
  rw [← parseHeader_refines h]
  exact map_eq_ok.mpr ⟨_, hp, rfl⟩

theorem parseHeader_returns {s : Stream} (h : rp.Ok)
    (hp : Proxy.parseHeader fuel rp.pending buf hostname = .ok (text, s)) :
    ∃ rp', parseHeader fuel rp buf hostname = .ok (text, rp') := by
  rw [← parseHeader_refines h] at hp
  obtain ⟨⟨text, rp'⟩, hok, e⟩ := map_eq_ok.mp hp
  cases e
  exact ⟨rp', hok⟩

/-! ## The response -/

/-- **The loop** passes on what it reads. -/
theorem recvLoop_took (w : World) : ∀ {fuel k : ℕ} {d : Source} {data : List UInt8} {cnt : ℕ}
    {e : Sink}, recvLoop w fuel k d data cnt e = .ok (r, e') →
    Proxy.recvLoop w.sending fuel k d.stream data cnt = .ok r ∧ e.Took d.stream.bytes e' := by
  intro fuel
  induction fuel with
  | zero => exact fun h => by cases h
  | succ fuel ih =>
    intro k d data cnt e h
    obtain ⟨⟨buf, d₁⟩, hread, h⟩ := bind_eq_ok.mp h
    have hread' : rioReadn d.stream maxLine = .ok (buf, d₁.stream) := by
      rw [← rioReadn_refines]
      exact map_eq_ok.mpr ⟨_, hread, rfl⟩
    obtain ⟨hbytes, -, hend⟩ := rioReadn_append hread'
    rw [Proxy.recvLoop]
    dsimp only at h
    split at h
    · next hbuf =>
      cases pure_eq_ok.mp h
      refine ⟨bind_eq_ok.mpr ⟨_, hread', if_pos hbuf⟩, ?_⟩
      rw [hend (by decide) hbuf]
      exact .nil _
    · next hbuf =>
      obtain ⟨p, hstore, h⟩ := bind_eq_ok.mp h
      obtain ⟨e₁, hwrite, h⟩ := bind_eq_ok.mp h
      obtain ⟨hloop, htook⟩ := ih h
      refine ⟨bind_eq_ok.mpr ⟨_, hread', ?_⟩, ?_⟩
      · dsimp only
        rw [if_neg hbuf]
        exact bind_eq_ok.mpr ⟨p, hstore, bind_eq_ok.mpr ⟨⟨⟩, rfl, hloop⟩⟩
      · rw [hbytes]
        exact (rioWriten_took hwrite).append htook

theorem recvLoop_returns (w : World) : ∀ {fuel k : ℕ} {d : Source} {data : List UInt8} {cnt : ℕ}
    {e : Sink}, Proxy.recvLoop w.sending fuel k d.stream data cnt = .ok r →
    e.Fits d.stream.bytes.length → ∃ e', recvLoop w fuel k d data cnt e = .ok (r, e') := by
  intro fuel
  induction fuel with
  | zero => exact fun h => by cases h
  | succ fuel ih =>
    intro k d data cnt e h hfits
    obtain ⟨⟨_, s₁⟩, hread, h⟩ := bind_eq_ok.mp h
    obtain ⟨hbytes, -⟩ := rioReadn_append hread
    rw [← rioReadn_refines] at hread
    obtain ⟨⟨buf, d₁⟩, hread', e₁⟩ := map_eq_ok.mp hread
    cases e₁
    rw [recvLoop]
    dsimp only at h
    split at h
    · next hbuf =>
      cases pure_eq_ok.mp h
      exact ⟨e, bind_eq_ok.mpr ⟨_, hread', if_pos hbuf⟩⟩
    · next hbuf =>
      obtain ⟨p, hstore, h⟩ := bind_eq_ok.mp h
      obtain ⟨_, -, h⟩ := bind_eq_ok.mp h
      rw [hbytes] at hfits
      obtain ⟨e₁, hwrite, htook⟩ := (rioWriten_eq e buf).1 hfits.left
      obtain ⟨e', hloop⟩ := ih h (htook.fits_rest hfits)
      refine ⟨e', bind_eq_ok.mpr ⟨_, hread', ?_⟩⟩
      dsimp only
      rw [if_neg hbuf]
      exact bind_eq_ok.mpr ⟨p, hstore, bind_eq_ok.mpr ⟨e₁, hwrite, hloop⟩⟩

variable {w : World} {p : Wires w}

theorem getFromServer_took (hok : rp.Ok) (h : getFromServer p fuel rp req t o = .ok (t', o')) :
    Proxy.getFromServer w.sending fuel rp.pending req t = .ok t' ∧ ∃ header s,
      Proxy.parseHeader fuel rp.pending w.header req.hostname = .ok (header, s) ∧
      o.Took w.response.bytes (requestLine req ++ header) o' := by
  obtain ⟨⟨header, rp'⟩, htext, h⟩ := bind_eq_ok.mp h
  obtain ⟨_, hconnects, h⟩ := bind_eq_ok.mp h
  obtain ⟨_, hline, h⟩ := bind_eq_ok.mp h
  obtain ⟨e₁, hask₁, h⟩ := bind_eq_ok.mp h
  obtain ⟨e₂, hask₂, h⟩ := bind_eq_ok.mp h
  obtain ⟨⟨⟨data, n⟩, c⟩, hloop, h⟩ := bind_eq_ok.mp h
  obtain ⟨v, hv, h⟩ := bind_eq_ok.mp h
  obtain ⟨obj, hobj, h⟩ := bind_eq_ok.mp h
  obtain ⟨⟨evicted, cache⟩, hins, h⟩ := bind_eq_ok.mp h
  obtain ⟨_, hclose, h⟩ := bind_eq_ok.mp h
  cases pure_eq_ok.mp h
  have htext' := parseHeader_ok hok htext
  obtain ⟨hloop', htook⟩ := recvLoop_took w hloop
  rw [p.origin_stream] at hloop' htook
  exact ⟨bind_eq_ok.mpr ⟨_, htext', bind_eq_ok.mpr ⟨⟨⟩, hconnects, bind_eq_ok.mpr ⟨⟨⟩, hline,
    bind_eq_ok.mpr ⟨⟨⟩, rfl, bind_eq_ok.mpr ⟨⟨⟩, rfl, bind_eq_ok.mpr ⟨_, hloop',
    bind_eq_ok.mpr ⟨v, hv, bind_eq_ok.mpr ⟨obj, hobj, bind_eq_ok.mpr ⟨_, hins,
    bind_eq_ok.mpr ⟨⟨⟩, hclose, rfl⟩⟩⟩⟩⟩⟩⟩⟩⟩⟩, header, _, htext', htook,
    (rioWriten_took hask₁).append (rioWriten_took hask₂)⟩

theorem getFromServer_returns (hok : rp.Ok)
    (h : Proxy.getFromServer w.sending fuel rp.pending req t = .ok t') :
    ∃ header s, Proxy.parseHeader fuel rp.pending w.header req.hostname = .ok (header, s) ∧
      (o.toClient.Fits w.response.bytes.length →
        o.toOrigin.Fits (requestLine req ++ header).length →
        ∃ o', getFromServer p fuel rp req t o = .ok (t', o')) := by
  obtain ⟨⟨header, s⟩, htext, h⟩ := bind_eq_ok.mp h
  obtain ⟨_, hconnects, h⟩ := bind_eq_ok.mp h
  obtain ⟨_, hline, h⟩ := bind_eq_ok.mp h
  obtain ⟨_, -, h⟩ := bind_eq_ok.mp h
  obtain ⟨_, -, h⟩ := bind_eq_ok.mp h
  obtain ⟨⟨data, n⟩, hloop, h⟩ := bind_eq_ok.mp h
  obtain ⟨v, hv, h⟩ := bind_eq_ok.mp h
  obtain ⟨obj, hobj, h⟩ := bind_eq_ok.mp h
  obtain ⟨⟨evicted, cache⟩, hins, h⟩ := bind_eq_ok.mp h
  obtain ⟨_, hclose, h⟩ := bind_eq_ok.mp h
  cases pure_eq_ok.mp h
  refine ⟨header, s, htext, fun hreply hasked => ?_⟩
  obtain ⟨rp', htext'⟩ := parseHeader_returns hok htext
  obtain ⟨e₁, hask₁, htook⟩ := (rioWriten_eq o.toOrigin (requestLine req)).1 hasked.left
  obtain ⟨e₂, hask₂, -⟩ := (rioWriten_eq e₁ header).1 (htook.fits_rest hasked)
  have hresponse : (World.sending w).response = p.origin.stream := p.origin_stream.symm
  rw [hresponse] at hloop
  rw [← p.origin_stream] at hreply
  obtain ⟨c, hloop'⟩ := recvLoop_returns w hloop hreply
  rw [p.origin_stream] at hloop'
  exact ⟨⟨c, e₂⟩, bind_eq_ok.mpr ⟨_, htext', bind_eq_ok.mpr ⟨⟨⟩, hconnects, bind_eq_ok.mpr ⟨⟨⟩, hline,
    bind_eq_ok.mpr ⟨e₁, hask₁, bind_eq_ok.mpr ⟨e₂, hask₂, bind_eq_ok.mpr ⟨_, hloop',
    bind_eq_ok.mpr ⟨v, hv, bind_eq_ok.mpr ⟨obj, hobj, bind_eq_ok.mpr ⟨_, hins,
    bind_eq_ok.mpr ⟨⟨⟩, hclose, rfl⟩⟩⟩⟩⟩⟩⟩⟩⟩⟩⟩

/-! ## The thread -/

/-- What the thread has sent when it returns. -/
theorem handleClient_took (h : handleClient p fuel t o = .ok (t', o')) :
    Proxy.handleClient w.sending fuel t = .ok t' ∧ ∃ reply asked,
      exchange w fuel t.cache = .ok (reply, asked) ∧ o.Took reply asked o' := by
  obtain ⟨hinit, hpend⟩ := rioReadinitb_ok p.client p.buf_size
  rw [p.client_stream] at hpend
  obtain ⟨⟨buf, rp⟩, hread, h⟩ := bind_eq_ok.mp h
  obtain ⟨hok, hread'⟩ := hinit.readlineb hread
  rw [hpend] at hread'
  dsimp only at h
  split at h
  · next hmethod =>
    obtain ⟨c, hwrite, h⟩ := bind_eq_ok.mp h
    cases pure_eq_ok.mp h
    refine ⟨bind_eq_ok.mpr ⟨_, hread', ?_⟩, errormsg, [], bind_eq_ok.mpr ⟨_, hread', ?_⟩,
      rioWriten_took hwrite, .nil _⟩
    · exact (if_pos hmethod).trans rfl
    · exact if_pos hmethod
  · next hmethod =>
    obtain ⟨req, huri, h⟩ := bind_eq_ok.mp h
    obtain ⟨⟨found, t₁, c₁⟩, hcache, h⟩ := bind_eq_ok.mp h
    obtain ⟨⟨t₂, o₂⟩, hserver, h⟩ := bind_eq_ok.mp h
    obtain ⟨_, hclose, h⟩ := bind_eq_ok.mp h
    cases pure_eq_ok.mp h
    obtain ⟨hcache', c, hfind, rfl, htook⟩ := getFromCache_took w hcache
    by_cases hc : c = 0
    · -- the origin server is asked
      subst hc
      obtain ⟨hserver', header, s, htext, hsent⟩ := getFromServer_took hok hserver
      refine ⟨bind_eq_ok.mpr ⟨_, hread', (if_neg hmethod).trans (bind_eq_ok.mpr ⟨req, huri,
        bind_eq_ok.mpr ⟨_, hcache', bind_eq_ok.mpr ⟨t₂, hserver', bind_eq_ok.mpr
        ⟨⟨⟩, hclose, rfl⟩⟩⟩⟩)⟩, w.response.bytes, requestLine req ++ header, ?_,
        htook.append hsent.reply, hsent.asked⟩
      exact bind_eq_ok.mpr ⟨_, hread', (if_neg hmethod).trans (bind_eq_ok.mpr ⟨req, huri,
        bind_eq_ok.mpr ⟨_, orStop_eq_ok.mpr hfind, bind_eq_ok.mpr ⟨_, htext, rfl⟩⟩⟩)⟩
    · -- the item is in the cache
      rw [decide_eq_true hc] at hserver hcache'
      cases pure_eq_ok.mp hserver
      refine ⟨bind_eq_ok.mpr ⟨_, hread', (if_neg hmethod).trans (bind_eq_ok.mpr ⟨req, huri,
        bind_eq_ok.mpr ⟨_, hcache', bind_eq_ok.mpr ⟨t₁, rfl, bind_eq_ok.mpr
        ⟨⟨⟩, hclose, rfl⟩⟩⟩⟩)⟩, itemBytes t₁.cache c, [], ?_, htook, .nil _⟩
      exact bind_eq_ok.mpr ⟨_, hread', (if_neg hmethod).trans (bind_eq_ok.mpr ⟨req, huri,
        bind_eq_ok.mpr ⟨_, orStop_eq_ok.mpr hfind, if_pos hc⟩⟩)⟩

/-- The thread returns if what it sends finds room. -/
theorem handleClient_returns {reply asked : List UInt8}
    (h : Proxy.handleClient w.sending fuel t = .ok t')
    (hexchange : exchange w fuel t.cache = .ok (reply, asked))
    (hreply : o.toClient.Fits reply.length) (hasked : o.toOrigin.Fits asked.length) :
    ∃ o', handleClient p fuel t o = .ok (t', o') := by
  obtain ⟨hinit, hpend⟩ := rioReadinitb_ok p.client p.buf_size
  rw [p.client_stream] at hpend
  obtain ⟨⟨buf, s⟩, hread, h⟩ := bind_eq_ok.mp h
  obtain ⟨⟨_, s₁⟩, hread₁, hexchange⟩ := bind_eq_ok.mp hexchange
  cases (show rioReadlineb w.client w.line maxLine = .ok (buf, s) from hread).symm.trans hread₁
  obtain ⟨rp, hread', hok, rfl⟩ := hinit.readlineb_returns (hpend ▸ hread)
  dsimp only at h hexchange
  split at h
  · next hmethod =>
    obtain ⟨_, -, h⟩ := bind_eq_ok.mp h
    cases pure_eq_ok.mp h
    have hmethod' : strcaseEq (parseRequest buf w.req).method (ascii "GET") = false := hmethod
    rw [if_pos hmethod'] at hexchange
    cases pure_eq_ok.mp hexchange
    obtain ⟨c, hwrite, -⟩ := (rioWriten_eq o.toClient errormsg).1 hreply
    exact ⟨_, bind_eq_ok.mpr ⟨_, hread', (if_pos hmethod).trans (bind_eq_ok.mpr ⟨c, hwrite, rfl⟩)⟩⟩
  · next hmethod =>
    have hmethod' : ¬strcaseEq (parseRequest buf w.req).method (ascii "GET") = false := hmethod
    rw [if_neg hmethod'] at hexchange
    obtain ⟨req, huri, h⟩ := bind_eq_ok.mp h
    obtain ⟨⟨found, t₁⟩, hcache, h⟩ := bind_eq_ok.mp h
    obtain ⟨t₂, hserver, h⟩ := bind_eq_ok.mp h
    obtain ⟨_, hclose, h⟩ := bind_eq_ok.mp h
    cases pure_eq_ok.mp h
    obtain ⟨req₁, huri₁, hexchange⟩ := bind_eq_ok.mp hexchange
    cases huri.symm.trans huri₁
    obtain ⟨⟨c₁, cache₁⟩, hfind₁, hexchange⟩ := bind_eq_ok.mp hexchange
    obtain ⟨c, hfind, rfl, hanswer⟩ := getFromCache_returns (e := o.toClient) w hcache
    obtain ⟨rfl, rfl⟩ := Prod.ext_iff.mp (Option.some.inj (hfind.symm.trans (orStop_eq_ok.mp hfind₁)))
    dsimp only at hexchange
    by_cases hc : c = 0
    · subst hc
      obtain ⟨e₁, hcache'⟩ := hanswer fun _ _ => Nat.zero_le _
      obtain ⟨-, c₀, hfind₀, -, htook⟩ := getFromCache_took w hcache'
      obtain rfl : 0 = c₀ := congrArg Prod.fst (Option.some.inj (hfind.symm.trans hfind₀))
      obtain ⟨header, s, htext, hreturns⟩ :=
        getFromServer_returns (p := p) (o := { o with toClient := e₁ }) hok hserver
      obtain ⟨⟨_, _⟩, htext₁, hexchange⟩ := bind_eq_ok.mp hexchange
      cases htext.symm.trans htext₁
      cases pure_eq_ok.mp hexchange
      obtain ⟨o', hserver'⟩ := hreturns (htook.fits_rest hreply) hasked
      exact ⟨_, bind_eq_ok.mpr ⟨_, hread', (if_neg hmethod).trans (bind_eq_ok.mpr ⟨req, huri,
        bind_eq_ok.mpr ⟨_, hcache', bind_eq_ok.mpr ⟨_, hserver',
        bind_eq_ok.mpr ⟨⟨⟩, hclose, rfl⟩⟩⟩⟩)⟩⟩
    · rw [if_pos hc] at hexchange
      cases pure_eq_ok.mp hexchange
      obtain ⟨c', hcache'⟩ := hanswer hreply
      rw [decide_eq_true hc] at hserver hcache'
      cases pure_eq_ok.mp hserver
      exact ⟨_, bind_eq_ok.mpr ⟨_, hread', (if_neg hmethod).trans (bind_eq_ok.mpr ⟨req, huri,
        bind_eq_ok.mpr ⟨_, hcache', bind_eq_ok.mpr ⟨_, rfl, bind_eq_ok.mpr ⟨⟨⟩, hclose, rfl⟩⟩⟩⟩)⟩⟩

end Wires

/-- **The thread over descriptors** returns exactly if the thread over streams does and
there is room for what it sends, whatever the turns are; then the client has been sent the
reply and the origin server the request, every byte once and in order. -/
theorem served_exactly {w : World} (p : Wires w) (fuel : ℕ) (t t' : Held) (o : Sent)
    (replied asked : List UInt8) :
    (∃ o', p.handleClient fuel t o = .ok (t', o') ∧ o'.toClient.written = replied ∧
        o'.toOrigin.written = asked) ↔
      handleClient w.sending fuel t = .ok t' ∧ ∃ x, exchange w fuel t.cache = .ok x ∧
        o.toClient.Fits x.1.length ∧ o.toOrigin.Fits x.2.length ∧
        replied = o.toClient.written ++ x.1 ∧ asked = o.toOrigin.written ++ x.2 := by
  constructor
  · rintro ⟨o', h, rfl, rfl⟩
    obtain ⟨hstream, reply, ask, hx, hreply, hask⟩ := Wires.handleClient_took h
    exact ⟨hstream, (reply, ask), hx, hreply.fits, hask.fits, hreply.written, hask.written⟩
  · rintro ⟨hstream, ⟨reply, ask⟩, hx, hreply, hask, rfl, rfl⟩
    obtain ⟨o', h⟩ := Wires.handleClient_returns (p := p) hstream hx hreply hask
    obtain ⟨-, reply', ask', hx', htook⟩ := Wires.handleClient_took h
    cases hx.symm.trans hx'
    exact ⟨o', h, htook.reply.written, htook.asked.written⟩

/-! ## A page, byte by byte -/

/-- What the origin server sends. -/
def pageText : List UInt8 := ascii "HTTP/1.0 200 OK\r\n\r\nhi"

/-- A client asks for the page. -/
def paged : World := { demo getText true with response := ⟨pageText, false⟩ }

/-- The request of the client. -/
def pageRequest : ClientRequest :=
  ⟨⟨ascii "a", [], ascii "80"⟩, ascii "GET", ascii "http://a/", ascii "HTTP/1.0"⟩

/-- The header that the origin server is sent. -/
def pageHeader : CStr := fixedHdr ++ hostLine (ascii "a") ++ crlf

/-- Calls are interrupted, and others move a few bytes only. -/
def ragged : Wires paged where
  client := ⟨⟨getText, false⟩, [.interrupted, .upTo 3, .upTo 0]⟩
  client_stream := rfl
  buf := List.replicate rioBufsize 0
  buf_size := List.length_replicate
  origin := ⟨⟨pageText, false⟩, [.upTo 4, .interrupted, .upTo 1]⟩
  origin_stream := rfl

/-- The origin server's descriptor has room for 400 bytes. -/
def raggedSent : Sent where
  toClient := ⟨[], [.upTo 2, .interrupted], none⟩
  toOrigin := ⟨[], [.interrupted, .upTo 9, .upTo 0], some 400⟩

theorem gathered_paged : gathered paged.sending =
    pageText ++ 0 :: List.replicate (maxObjectSize - (pageText.length + 1)) 0 := by
  have hstored : Cache.stored paged.sending.readcnt (paged.sending.response.bytes.length + 1) 0
      paged.sending.response.bytes 0 = pageText := by decide +kernel
  rw [gathered, hstored, ← List.replicate_succ]
  exact congrArg (pageText ++ ·) (List.drop_replicate ..)

/-- The page is fetched. -/
theorem getFromServer_paged : ∃ t, getFromServer paged.sending 1 ⟨crlf, false⟩ pageRequest
    (Held.start idle cacheInit) = .ok t := by
  have hfits : (Cache.stored paged.sending.readcnt (paged.sending.response.bytes.length + 1) 0
      paged.sending.response.bytes 0).length ≤ maxObjectSize := by decide +kernel
  obtain ⟨n, hloop⟩ := (recvLoop_all (w := paged.sending)).mpr ⟨rfl, fun _ _ => rfl, hfits, rfl⟩
  obtain ⟨o, r, hobj, hins⟩ : ∃ o r, Cache.createCI (ascii "a") (ascii "80") []
      (gathered paged.sending) = some o ∧ Cache.insertCache { cacheInit with
        nodes := Function.update cacheInit.nodes 8 (some ⟨o, 0, 0⟩) } 8 = some r := by
    rw [gathered_paged, Cache.createCI, Cache.cString_append (by decide +kernel)]
    exact ⟨_, _, rfl, rfl⟩
  exact ⟨_, bind_eq_ok.mpr ⟨(pageHeader, ⟨[], false⟩), by decide +kernel,
    bind_eq_ok.mpr ⟨⟨⟩, rfl, bind_eq_ok.mpr ⟨⟨⟩, by decide +kernel, bind_eq_ok.mpr ⟨⟨⟩, rfl,
    bind_eq_ok.mpr ⟨⟨⟩, rfl, bind_eq_ok.mpr ⟨_, hloop, bind_eq_ok.mpr ⟨_, rfl,
    bind_eq_ok.mpr ⟨o, orStop_eq_ok.mpr hobj, bind_eq_ok.mpr ⟨r, orStop_eq_ok.mpr hins,
    bind_eq_ok.mpr ⟨⟨⟩, rfl, rfl⟩⟩⟩⟩⟩⟩⟩⟩⟩⟩⟩

/-- The thread that reads whole streams returns. -/
theorem handleClient_paged :
    ∃ t, handleClient paged.sending 1 (Held.start idle cacheInit) = .ok t := by
  have hcache : getFromCache paged.sending pageRequest (Held.start idle cacheInit) =
      .ok (false, Held.start idle cacheInit) :=
    (getFromCache_ok_iff (by decide) (by decide)).mpr
      ⟨0, cacheInit, rfl, rfl, fun h => absurd rfl h, rfl⟩
  obtain ⟨t, hserver⟩ := getFromServer_paged
  exact ⟨_, bind_eq_ok.mpr ⟨(earlyText, ⟨crlf, false⟩), by decide +kernel,
    (if_neg (by decide +kernel)).trans (bind_eq_ok.mpr ⟨pageRequest, by decide +kernel,
    bind_eq_ok.mpr ⟨_, hcache, bind_eq_ok.mpr ⟨t, hserver, bind_eq_ok.mpr ⟨⟨⟩, rfl, rfl⟩⟩⟩⟩)⟩⟩

/-- **The page arrives**, and the request at the origin server. -/
theorem served_exactly_run : ∃ t o,
    ragged.handleClient 1 (Held.start idle cacheInit) raggedSent = .ok (t, o) ∧
      o.toClient.written = pageText ∧
      o.toOrigin.written = ascii "GET / HTTP/1.0\r\n" ++ pageHeader := by
  have hx : exchange paged 1 cacheInit = .ok (pageText, ascii "GET / HTTP/1.0\r\n" ++ pageHeader) := by
    decide +kernel
  have hroom : (ascii "GET / HTTP/1.0\r\n" ++ pageHeader).length ≤ 400 := by decide +kernel
  have hasked : raggedSent.toOrigin.Fits (ascii "GET / HTTP/1.0\r\n" ++ pageHeader).length := by
    rintro r ⟨⟩
    exact hroom
  obtain ⟨t, ht⟩ := handleClient_paged
  obtain ⟨o, h⟩ := (served_exactly ragged 1 (Held.start idle cacheInit) t raggedSent _ _).mpr
    ⟨ht, _, hx, nofun, hasked, rfl, rfl⟩
  exact ⟨t, o, h⟩

end Proxy

end SysProgLab
