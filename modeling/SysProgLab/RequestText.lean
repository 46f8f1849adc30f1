import SysProgLab.Decimal
import SysProgLab.Rio

/-!
# The text of a request: `parse_request`, `parse_uri` and `parse_header`

The fields of `Request` keep what `Malloc` left in them until they are written.
An access outside an array is a fault, and so is a null pointer that is followed.
-/

namespace SysProgLab

namespace Proxy

/-- `Request` -/
structure ClientRequest : Type extends Request where
  /-- `method` -/
  method : CStr
  /-- `uri` -/
  uri : CStr
  /-- `version` -/
  version : CStr

deriving instance DecidableEq for Request, ClientRequest

/-- `"\r\n"` -/
def crlf : CStr := ascii "\r\n"

/-- `strstr(s, t) != NULL` -/
def strstr (s t : CStr) : Bool := s.tails.any fun u => t.isPrefixOf u

/-- `strcat` onto a string in an array of `MAXLINE` bytes. -/
def strcat (dst src : CStr) : Except Stop CStr :=
  if dst.length + src.length < maxLine then .ok (dst ++ src) else .error .fault

/-! ## The request line -/

/-- `%s` of `sscanf`: the next word and what follows it. -/
def word (s : CStr) : Option (CStr × CStr) :=
  let t := s.dropWhile isSpace
  if t = [] then none else some (t.takeWhile fun b => !isSpace b, t.dropWhile fun b => !isSpace b)

/-- `parse_request` -/
def parseRequest (request : CStr) (req : ClientRequest) : ClientRequest :=
  match word request with
  | none => req
  | some (method, rest) =>
    match word rest with
    | none => { req with method := method }
    | some (uri, rest) =>
      match word rest with
      | none => { req with method := method, uri := uri }
      | some (version, _) => { req with method := method, uri := uri, version := version }

/-- `parse_uri`. A host that nothing ends makes `strpbrk` return NULL. A number that is no
`int`, for which `atoi` is undefined, is too long for `port` as well. -/
def parseUri (req : ClientRequest) : Except Stop ClientRequest :=
  if strcaseEq (req.uri.take 7) (ascii "http://") = false then .ok { req with hostname := [] }
  else
    let start := req.uri.drop 7
    match start.dropWhile fun b => decide (b ∉ ascii ":/\r\n") with
    | [] => .error .fault
    | stop :: rest =>
      let port := decimalInt (if stop = 58 then leadingInt rest else 80)
      if port.length < 10 then
        .ok { req with
          hostname := start.takeWhile fun b => decide (b ∉ ascii ":/\r\n")
          port := port
          pathname := (start.dropWhile fun b => decide (b ≠ 47)).drop 1 }
      else .error .fault

/-! ## The header lines -/

/-- `user_agent_hdr`, `accept_hdr`, `accept_encoding_hdr`, `connection_hdr` and
`proxy_connection_hdr` -/
def fixedHdr : CStr :=
  ascii "User-Agent: Mozilla/5.0 (X11; Linux x86_64; rv:10.0.3) Gecko/20120305 Firefox/10.0.3\r\n" ++
  ascii "Accept: text/html,application/xhtml+xml,application/xml;q=0.9,*/*;q=0.8\r\n" ++
  ascii "Accept-Encoding: gzip, deflate\r\n" ++ ascii "Connection: close\r\n" ++
  ascii "Proxy-Connection: close\r\n"

/-- The client's line is copied. -/
def forwarded (buf : CStr) : Bool :=
  !strstr buf (ascii "User-Agent") && !strstr buf (ascii "Accept") &&
    !strstr buf (ascii "Connection") && !strstr buf (ascii "Proxy-Connection")

/-- The loop of `parse_header`. -/
def headerLoop : ℕ → Stream → CStr → CStr → Bool → Except Stop (CStr × Bool × Stream)
  | 0, _, _, _, _ => .error .hang
  | fuel + 1, s, buf, header, isHost =>
    if buf = crlf then .ok (header, isHost, s)
    else do
      let (header, isHost) ←
        if forwarded buf then do
          let header ← strcat header buf
          pure (header, isHost || strstr buf (ascii "Host"))
        else pure (header, isHost)
      let (buf, s) ← rioReadlineb s buf maxLine
      headerLoop fuel s buf header isHost

/-- The line that `parse_header` adds when the client has sent no `Host` line. -/
def hostLine (hostname : CStr) : CStr := ascii "Host: " ++ hostname ++ crlf

/-- The end of `parse_header`. The `sprintf` of `header` into itself is taken as an
append. -/
def endHeader (header : CStr) (isHost : Bool) (hostname : CStr) : Except Stop CStr := do
  let header ← if isHost then pure header else strcat header (hostLine hostname)
  strcat header crlf

/-- `parse_header`, where `buf` is what its array holds at first. -/
def parseHeader (fuel : ℕ) (s : Stream) (buf hostname : CStr) : Except Stop (CStr × Stream) := do
  let (buf, s) ← rioReadlineb s buf maxLine
  let (header, isHost, s) ← headerLoop fuel s buf fixedHdr false
  let header ← endHeader header isHost hostname
  pure (header, s)

/-! ## What is forwarded -/

variable {s s' : Stream} {buf header hostname text : CStr} {isHost : Bool} {fuel : ℕ}
  {ls : List CStr}

/-- **The header lines** that the loop meets with `buf` in its array: they end with an
empty line, and each is read while the one before is in the array. -/
inductive Headers : Stream → CStr → List CStr → Stream → Prop where
  | done {s : Stream} : Headers s crlf [] s
  | line {s s₁ s' : Stream} {buf buf₁ : CStr} {ls : List CStr} : buf ≠ crlf →
      rioReadlineb s buf maxLine = .ok (buf₁, s₁) → Headers s₁ buf₁ ls s' →
      Headers s buf (buf :: ls) s'

/-- The lines that are copied. -/
def copied (ls : List CStr) : List CStr := ls.filter forwarded

/-- A `Host` line is copied. -/
def hasHost (ls : List CStr) : Bool := (copied ls).any fun l => strstr l (ascii "Host")

/-- What `parse_header` makes of the client's lines. -/
def headerText (ls : List CStr) (hostname : CStr) : CStr :=
  fixedHdr ++ (copied ls).flatten ++ (if hasHost ls then [] else hostLine hostname) ++ crlf

theorem strcat_eq_ok {dst src r : CStr} :
    strcat dst src = .ok r ↔ dst.length + src.length < maxLine ∧ dst ++ src = r := by
  rw [strcat]
  split
  · rename_i h
    exact ⟨fun e => ⟨h, Except.ok.inj e⟩, fun e => e.2 ▸ rfl⟩
  · rename_i h
    exact iff_of_false (fun e => by cases e) fun e => h e.1

/-- One round of the loop. -/
theorem headerLoop_succ {r : CStr × Bool × Stream} (hne : buf ≠ crlf) :
    headerLoop (fuel + 1) s buf header isHost = .ok r ↔
      (forwarded buf = true → header.length + buf.length < maxLine) ∧
      ∃ buf₁ s₁, rioReadlineb s buf maxLine = .ok (buf₁, s₁) ∧
        headerLoop fuel s₁ buf₁ (header ++ (copied [buf]).flatten) (isHost || hasHost [buf]) =
          .ok r := by
  rw [headerLoop, if_neg hne]
  cases hf : forwarded buf with
  | true =>
    simp [bind_eq_ok, strcat_eq_ok, copied, hasHost, hf]
  | false =>
    simp [bind_eq_ok, copied, hasHost, hf]

theorem copied_cons (l : CStr) (ls : List CStr) : copied (l :: ls) = copied [l] ++ copied ls :=
  List.filter_append [l] ls

theorem hasHost_cons (l : CStr) (ls : List CStr) :
    hasHost (l :: ls) = (hasHost [l] || hasHost ls) := by
  rw [hasHost, copied_cons, List.any_append]
  rfl

/-- A round in which the line fits, and is copied if it is to be. -/
theorem length_copied (header buf : CStr) :
    (header ++ (copied [buf]).flatten).length =
      header.length + if forwarded buf then buf.length else 0 := by
  cases hf : forwarded buf <;> simp [copied, hf]

/-- The loop ends exactly when the lines do, if what is copied fits. -/
theorem headerLoop_ok_iff {r : CStr} {b : Bool} (hfits : header.length < maxLine) :
    (∃ fuel, headerLoop fuel s buf header isHost = .ok (r, b, s')) ↔
      ∃ ls, Headers s buf ls s' ∧ r = header ++ (copied ls).flatten ∧ r.length < maxLine ∧
        b = (isHost || hasHost ls) := by
  constructor
  · rintro ⟨fuel, h⟩
    induction fuel generalizing s buf header isHost with
    | zero => cases h
    | succ fuel ih =>
      by_cases hcrlf : buf = crlf
      · subst hcrlf
        rw [headerLoop, if_pos rfl] at h
        cases h
        exact ⟨[], .done, by simp [copied], hfits, by simp [hasHost, copied]⟩
      obtain ⟨hroom, buf₁, s₁, hread, hrest⟩ := (headerLoop_succ hcrlf).mp h
      have hfits₁ : (header ++ (copied [buf]).flatten).length < maxLine := by
        rw [length_copied]
        split
        · exact hroom ‹_›
        · exact hfits
      obtain ⟨ls, hls, hr, hlen, hb⟩ := ih hfits₁ hrest
      refine ⟨buf :: ls, .line hcrlf hread hls, ?_, hlen, ?_⟩
      · rw [hr, copied_cons buf ls, List.flatten_append, List.append_assoc]
      · rw [hb, hasHost_cons buf ls, Bool.or_assoc]
  · rintro ⟨ls, hls, hr, hlen, hb⟩
    induction hls generalizing header isHost with
    | done =>
      refine ⟨1, ?_⟩
      rw [headerLoop, if_pos rfl, hr, hb]
      simp [copied, hasHost]
    | @line s s₁ s' buf buf₁ ls hcrlf hread _ ih =>
      rw [copied_cons buf ls, List.flatten_append, ← List.append_assoc] at hr
      rw [hasHost_cons buf ls, ← Bool.or_assoc] at hb
      have hfits₁ : (header ++ (copied [buf]).flatten).length < maxLine := by
        rw [hr, List.length_append] at hlen
        omega
      obtain ⟨fuel, hrest⟩ := ih hfits₁ hr hb
      refine ⟨fuel + 1, (headerLoop_succ hcrlf).mpr ⟨fun hf => ?_, buf₁, s₁, hread, hrest⟩⟩
      rwa [length_copied, if_pos hf] at hfits₁

theorem length_fixedHdr_le : fixedHdr.length ≤ 512 := by decide +kernel

theorem length_fixedHdr : fixedHdr.length < maxLine := length_fixedHdr_le.trans_lt (by decide)

theorem endHeader_ok_iff (ls : List CStr) :
    endHeader (fixedHdr ++ (copied ls).flatten) (hasHost ls) hostname = .ok text ↔
      text = headerText ls hostname ∧ text.length < maxLine := by
  rw [endHeader, headerText]
  cases hasHost ls with
  | true =>
    simp only [if_true, List.append_nil]
    constructor
    · intro h
      obtain ⟨_, e, h⟩ := bind_eq_ok.mp h
      obtain rfl := pure_eq_ok.mp e
      obtain ⟨hlen, rfl⟩ := strcat_eq_ok.mp h
      exact ⟨rfl, by rwa [List.length_append]⟩
    · rintro ⟨rfl, hlen⟩
      rw [List.length_append] at hlen
      exact bind_eq_ok.mpr ⟨_, pure_eq_ok.mpr rfl, strcat_eq_ok.mpr ⟨hlen, rfl⟩⟩
  | false =>
    simp only [if_false, Bool.false_eq_true]
    constructor
    · intro h
      obtain ⟨_, e, h⟩ := bind_eq_ok.mp h
      obtain ⟨-, rfl⟩ := strcat_eq_ok.mp e
      obtain ⟨hlen, rfl⟩ := strcat_eq_ok.mp h
      exact ⟨rfl, by rwa [List.length_append]⟩
    · rintro ⟨rfl, hlen⟩
      rw [List.length_append] at hlen
      have hroom := hlen
      rw [List.length_append] at hroom
      exact bind_eq_ok.mpr ⟨_, strcat_eq_ok.mpr ⟨by omega, rfl⟩, strcat_eq_ok.mpr ⟨hlen, rfl⟩⟩

/-- **`parse_header`** returns exactly when the header lines end with an empty one
and what it makes of them fits in its array. -/
theorem parseHeader_ok_iff :
    (∃ fuel, parseHeader fuel s buf hostname = .ok (text, s')) ↔
      ∃ buf₁ s₁ ls, rioReadlineb s buf maxLine = .ok (buf₁, s₁) ∧ Headers s₁ buf₁ ls s' ∧
        text = headerText ls hostname ∧ text.length < maxLine := by
  constructor
  · rintro ⟨fuel, h⟩
    obtain ⟨⟨buf₁, s₁⟩, hread, h⟩ := bind_eq_ok.mp h
    obtain ⟨⟨header, isHost, s₂⟩, hloop, h⟩ := bind_eq_ok.mp h
    obtain ⟨r, hr, h⟩ := bind_eq_ok.mp h
    cases pure_eq_ok.mp h
    obtain ⟨ls, hls, rfl, -, rfl⟩ := (headerLoop_ok_iff length_fixedHdr).mp ⟨fuel, hloop⟩
    rw [Bool.false_or] at hr
    exact ⟨buf₁, s₁, ls, hread, hls, (endHeader_ok_iff ls).mp hr⟩
  · rintro ⟨buf₁, s₁, ls, hread, hls, htext, hlen⟩
    have hfits : (fixedHdr ++ (copied ls).flatten).length < maxLine := by
      rw [htext, headerText, List.length_append, List.length_append] at hlen
      omega
    obtain ⟨fuel, hloop⟩ := (headerLoop_ok_iff length_fixedHdr).mpr ⟨ls, hls, rfl, hfits, rfl⟩
    refine ⟨fuel, bind_eq_ok.mpr ⟨_, hread, bind_eq_ok.mpr ⟨_, hloop, bind_eq_ok.mpr ⟨text, ?_,
      pure_eq_ok.mpr rfl⟩⟩⟩⟩
    rw [Bool.false_or]
    exact (endHeader_ok_iff ls).mpr ⟨htext, hlen⟩

theorem rioReadlineb_end (hbytes : s.bytes = []) (hfails : s.fails = false) :
    rioReadlineb s buf maxLine = .ok (buf, s) := by
  simp [rioReadlineb, hbytes, hfails, takeLine]

/-- **At the end of the stream** the loop meets the same line over and over. -/
theorem not_headers_end (hbytes : s.bytes = []) (hfails : s.fails = false) (hne : buf ≠ crlf) :
    ¬Headers s buf ls s' := by
  intro h
  induction h with
  | done => exact hne rfl
  | @line s s₁ s' buf buf₁ ls _ hread _ ih =>
    cases (rioReadlineb_end hbytes hfails).symm.trans hread
    exact ih hbytes hfails hne

end Proxy

end SysProgLab
