import SysProgLab.RequestText

/-!
# Reading back a URI: `parse_uri`

A URI is rendered from its scheme, its host, and a port and a path that may be left
out. `parse_uri` looks for what ends the host, so it reads a rendered URI back if a
port or a path follows the host; and it leaves fields as they are in a request for
anything else.
-/

namespace SysProgLab

namespace Proxy

/-! ## What `parse_uri` finds -/

/-- What ends a host. -/
def hostEnds : List UInt8 := ascii ":/\r\n"

/-- **The host ends**, and the number behind a colon is short enough. -/
def Delimited (uri : CStr) : Prop :=
  strcaseEq (uri.take 7) (ascii "http://") = true ∧
    ∃ host stop rest, uri.drop 7 = host ++ stop :: rest ∧ (∀ b ∈ host, b ∉ hostEnds) ∧
      stop ∈ hostEnds ∧ (stop = 58 → (decimalInt (leadingInt rest)).length < 10)

/-- The fields after `parse_uri` depend on the URI only. -/
def Defined (uri : CStr) : Prop :=
  ∃ hostname port pathname, ∀ req : ClientRequest, req.uri = uri →
    ∃ r, parseUri req = .ok r ∧ r.hostname = hostname ∧ r.port = port ∧ r.pathname = pathname

section Parse

variable {uri host rest : CStr} {stop : UInt8}

theorem parseUri_scheme (req : ClientRequest)
    (h : strcaseEq (req.uri.take 7) (ascii "http://") = false) :
    parseUri req = .ok { req with hostname := [] } := if_pos h

/-- A host that something ends. -/
theorem parseUri_host (req : ClientRequest)
    (hscheme : strcaseEq (req.uri.take 7) (ascii "http://") = true)
    (hstart : req.uri.drop 7 = host ++ stop :: rest) (hhost : ∀ b ∈ host, b ∉ hostEnds)
    (hstop : stop ∈ hostEnds) :
    parseUri req = if (decimalInt (if stop = 58 then leadingInt rest else 80)).length < 10 then
        .ok { req with
          hostname := host
          port := decimalInt (if stop = 58 then leadingInt rest else 80)
          pathname := ((host ++ stop :: rest).dropWhile fun b => decide (b ≠ 47)).drop 1 }
      else .error .fault := by
  have hinside : ∀ b ∈ host, decide (b ∉ ascii ":/\r\n") = true := fun b hb =>
    decide_eq_true (hhost b hb)
  have houtside : ¬decide (stop ∉ ascii ":/\r\n") = true := by
    rw [decide_eq_true_eq, not_not]
    exact hstop
  have hdrop : (host ++ stop :: rest).dropWhile (fun b => decide (b ∉ ascii ":/\r\n")) =
      stop :: rest :=
    (List.dropWhile_append_of_pos hinside).trans (List.dropWhile_cons_of_neg houtside)
  have htake : (host ++ stop :: rest).takeWhile (fun b => decide (b ∉ ascii ":/\r\n")) =
      host := by
    rw [List.takeWhile_append_of_pos hinside]
    exact (congrArg (host ++ ·) (List.takeWhile_cons_of_neg houtside)).trans (List.append_nil _)
  rw [parseUri, if_neg (by rw [hscheme]; decide), hstart]
  dsimp only
  rw [hdrop, htake]

/-- A host that nothing ends. -/
theorem parseUri_unended (req : ClientRequest)
    (hscheme : strcaseEq (req.uri.take 7) (ascii "http://") = true)
    (hhost : ∀ b ∈ req.uri.drop 7, b ∉ hostEnds) : parseUri req = .error .fault := by
  have hdrop : (req.uri.drop 7).dropWhile (fun b => decide (b ∉ ascii ":/\r\n")) = [] :=
    List.dropWhile_eq_nil_iff.mpr fun b hb => decide_eq_true (hhost b hb)
  rw [parseUri, if_neg (by rw [hscheme]; decide)]
  dsimp only
  rw [hdrop]

/-- Something ends the host, or nothing does. -/
theorem host_cases (start : CStr) : (∀ b ∈ start, b ∉ hostEnds) ∨
    ∃ host stop rest, start = host ++ stop :: rest ∧ (∀ b ∈ host, b ∉ hostEnds) ∧
      stop ∈ hostEnds := by
  induction start with
  | nil => exact .inl (List.forall_mem_nil _)
  | cons c start ih =>
    by_cases hc : c ∈ hostEnds
    · exact .inr ⟨[], c, start, rfl, List.forall_mem_nil _, hc⟩
    rcases ih with h | ⟨host, stop, rest, rfl, hhost, hstop⟩
    · exact .inl (List.forall_mem_cons.mpr ⟨hc, h⟩)
    · exact .inr ⟨c :: host, stop, rest, rfl, List.forall_mem_cons.mpr ⟨hc, hhost⟩, hstop⟩

/-- A request for `uri` before `parse_uri`, with some port. -/
def asked (uri port : CStr) : ClientRequest := ⟨⟨[], [], port⟩, [], uri, []⟩

/-- **The fields are defined** exactly for the URIs whose host ends. -/
theorem defined_iff (uri : CStr) : Defined uri ↔ Delimited uri := by
  constructor
  · rintro ⟨hostname, port, pathname, hdef⟩
    have hscheme : strcaseEq (uri.take 7) (ascii "http://") = true := by
      rw [← Bool.not_eq_false]
      intro hfalse
      obtain ⟨r, hr, -, hport, -⟩ := hdef (asked uri []) rfl
      obtain ⟨r', hr', -, hport', -⟩ := hdef (asked uri [48]) rfl
      cases (parseUri_scheme (asked uri []) hfalse).symm.trans hr
      cases (parseUri_scheme (asked uri [48]) hfalse).symm.trans hr'
      cases hport.trans hport'.symm
    obtain ⟨r, hr, -⟩ := hdef (asked uri []) rfl
    rcases host_cases (uri.drop 7) with h | ⟨host, stop, rest, hstart, hhost, hstop⟩
    · cases (parseUri_unended (asked uri []) hscheme h).symm.trans hr
    · refine ⟨hscheme, host, stop, rest, hstart, hhost, hstop, fun hcolon => ?_⟩
      rw [parseUri_host (asked uri []) hscheme hstart hhost hstop, if_pos hcolon] at hr
      by_contra hlong
      rw [if_neg hlong] at hr
      cases hr
  · rintro ⟨hscheme, host, stop, rest, hstart, hhost, hstop, hport⟩
    have hlen : (decimalInt (if stop = 58 then leadingInt rest else 80)).length < 10 := by
      split
      · exact hport ‹_›
      · decide
    refine ⟨host, decimalInt (if stop = 58 then leadingInt rest else 80),
      ((host ++ stop :: rest).dropWhile fun b => decide (b ≠ 47)).drop 1, ?_⟩
    rintro req rfl
    exact ⟨_, (parseUri_host req hscheme hstart hhost hstop).trans (if_pos hlen), rfl, rfl, rfl⟩

end Parse

/-! ## Rendered URIs -/

/-- `:` and the port, if there is one -/
def portPart : Option ℕ → CStr
  | none => []
  | some n => 58 :: decimal n

/-- `/` and the path, if there is one -/
def pathPart : Option CStr → CStr
  | none => []
  | some p => 47 :: p

/-- The parts of a URI. -/
structure Uri : Type where
  /-- `http://`, in any letter case -/
  scheme : CStr
  /-- the host -/
  host : CStr
  /-- the port -/
  port : Option ℕ
  /-- the path, without the slash in front of it -/
  path : Option CStr
  /-- the scheme is the right one -/
  http : strcaseEq scheme (ascii "http://") = true
  /-- there is a host -/
  host_ne_nil : host ≠ []
  /-- no character ends the host early -/
  host_plain : ∀ b ∈ host, b ≠ 58 ∧ b ≠ 47 ∧ isSpace b = false
  /-- the port is one -/
  port_le : ∀ n ∈ port, n ≤ 65535
  /-- the path has no spaces -/
  path_plain : ∀ p ∈ path, ∀ b ∈ p, isSpace b = false
  /-- the URI fits into `uri` -/
  short : (scheme ++ (host ++ (portPart port ++ pathPart path))).length < maxLine

/-- The text of a URI. -/
def Uri.render (u : Uri) : CStr := u.scheme ++ (u.host ++ (portPart u.port ++ pathPart u.path))

/-- **The parts are read back**, into fields that have room for them. -/
def ReadBack (u : Uri) : Prop :=
  ∀ req : ClientRequest, req.uri = u.render → ∃ r, parseUri req = .ok r ∧
    r.hostname = u.host ∧ r.port = decimal (u.port.getD 80) ∧ r.pathname = u.path.getD [] ∧
    r.hostname.length < maxLine ∧ r.port.length < 10 ∧ r.pathname.length < maxLine

section Render

variable {u : Uri} {port : Option ℕ} {path : Option CStr} {host : CStr}

theorem Uri.length_scheme (u : Uri) : u.scheme.length = 7 := by
  have hmap : u.scheme.map toLower = (ascii "http://").map toLower := of_decide_eq_true u.http
  have hlen := congrArg List.length hmap
  rwa [List.length_map, List.length_map] at hlen

theorem Uri.take_render (u : Uri) :
    u.render.take 7 = u.scheme ∧
      u.render.drop 7 = u.host ++ (portPart u.port ++ pathPart u.path) := by
  rw [Uri.render, ← u.length_scheme]
  exact ⟨List.take_left, List.drop_left⟩

theorem Uri.host_notMem (u : Uri) : ∀ b ∈ u.host, b ∉ hostEnds := by
  intro b hb hmem
  obtain ⟨hcolon, hslash, hspace⟩ := u.host_plain b hb
  have hends : hostEnds = [58, 47, 13, 10] := by decide
  rw [hends] at hmem
  simp only [List.mem_cons, List.not_mem_nil, or_false] at hmem
  rcases hmem with rfl | rfl | rfl | rfl
  · exact hcolon rfl
  · exact hslash rfl
  · cases hspace
  · cases hspace

/-- The path begins behind the first slash. -/
theorem pathname_eq (hhost : 47 ∉ host) (port : Option ℕ) (path : Option CStr) :
    ((host ++ (portPart port ++ pathPart path)).dropWhile fun b => decide (b ≠ 47)).drop 1 =
      path.getD [] := by
  have hport : 47 ∉ portPart port := by
    cases port with
    | none => exact List.not_mem_nil
    | some n =>
      intro hmem
      rcases List.mem_cons.mp hmem with h | h
      · cases h
      · cases isDigit_of_mem_decimal h
  have hfront : ∀ b ∈ host ++ portPart port, decide (b ≠ 47) = true := by
    intro b hb
    rw [decide_eq_true_eq]
    rintro rfl
    exact (List.mem_append.mp hb).elim hhost hport
  rw [← List.append_assoc, List.dropWhile_append_of_pos hfront]
  cases path with
  | none => rfl
  | some p => rfl

/-- What stands behind the host, if anything does. -/
theorem afterHost (h : port ≠ none ∨ path ≠ none) :
    ∃ stop rest, portPart port ++ pathPart path = stop :: rest ∧ stop ∈ hostEnds ∧
      (if stop = 58 then leadingInt rest else 80) = (port.getD 80 : ℕ) := by
  cases port with
  | some n =>
    refine ⟨58, decimal n ++ pathPart path, rfl, by decide, ?_⟩
    rw [if_pos rfl]
    cases path with
    | none =>
      rw [pathPart, List.append_nil, ← decimalInt_natCast, leadingInt_decimalInt (Int.natCast_nonneg n)]
      rfl
    | some p => exact leadingInt_decimal_append (by decide) n p
  | none =>
    cases path with
    | some p => exact ⟨47, p, rfl, by decide, rfl⟩
    | none => simp at h

/-- **A URI is read back** exactly if a port or a path follows the host. -/
theorem readBack_iff (u : Uri) : ReadBack u ↔ u.port ≠ none ∨ u.path ≠ none := by
  obtain ⟨htake, hdrop⟩ := u.take_render
  constructor
  · intro hread
    by_contra hnone
    obtain ⟨hport, hpath⟩ := not_or.mp hnone
    rw [not_not.mp hport, not_not.mp hpath] at hdrop
    obtain ⟨r, hr, -⟩ := hread (asked u.render []) rfl
    have hfault : parseUri (asked u.render []) = .error .fault := by
      refine parseUri_unended (asked u.render []) ?_ ?_
      · exact (congrArg (strcaseEq · _) htake).trans u.http
      · intro b hb
        rw [show (asked u.render []).uri = u.render from rfl, hdrop] at hb
        exact u.host_notMem b (by simpa [portPart, pathPart] using hb)
    cases hfault.symm.trans hr
  · intro hafter req hreq
    obtain ⟨stop, rest, heq, hstop, hval⟩ := afterHost hafter
    have hstart : req.uri.drop 7 = u.host ++ stop :: rest := by rw [hreq, hdrop, heq]
    have hscheme : strcaseEq (req.uri.take 7) (ascii "http://") = true := by
      rw [hreq, htake]
      exact u.http
    have hport : decimalInt (if stop = 58 then leadingInt rest else 80) = decimal (u.port.getD 80) := by
      rw [hval, decimalInt_natCast]
    have hlen : (decimal (u.port.getD 80)).length < 10 := by
      refine (length_decimal_le (k := 5) ?_ (by decide)).trans_lt (by decide)
      cases hp : u.port with
      | none => decide
      | some n => exact (u.port_le n hp).trans_lt (by decide)
    have hpath : ((u.host ++ stop :: rest).dropWhile fun b => decide (b ≠ 47)).drop 1 =
        u.path.getD [] := by
      rw [← heq]
      exact pathname_eq (fun hmem => (u.host_plain 47 hmem).2.1 rfl) u.port u.path
    have hshort := u.short
    simp only [List.length_append] at hshort
    refine ⟨_, (parseUri_host req hscheme hstart u.host_notMem hstop).trans (if_pos ?_), rfl, hport,
      hpath, ?_, ?_, ?_⟩
    · rwa [hport]
    · dsimp only
      omega
    · dsimp only
      rwa [hport]
    · dsimp only
      rw [hpath]
      cases hp : u.path with
      | none => decide
      | some p =>
        rw [hp, pathPart, List.length_cons] at hshort
        rw [Option.getD_some]
        omega

end Render

/-- **`parse_uri` inverts rendering** exactly for URIs in which something follows the
host, and it defines the fields exactly for texts whose host is ended. -/
theorem parse_uri_inverts (u : Uri) (uri : CStr) :
    (ReadBack u ↔ u.port ≠ none ∨ u.path ≠ none) ∧ (Defined uri ↔ Delimited uri) :=
  ⟨readBack_iff u, defined_iff uri⟩

/-- The host `h` alone. -/
def bareHost : Uri where
  scheme := ascii "http://"
  host := ascii "h"
  port := none
  path := none
  http := by decide
  host_ne_nil := by decide
  host_plain := by decide +kernel
  port_le := fun n hn => by cases hn
  path_plain := fun p hp => by cases hp
  short := by decide

/-- **A host that nothing ends** makes `parse_uri` follow `NULL`, and other texts than
`http` URIs leave the port and the path undefined. -/
theorem host_unended : ¬ReadBack bareHost ∧ ¬Defined (ascii "ftp://h/p") := by
  rw [readBack_iff, defined_iff]
  exact ⟨fun h => h.elim (fun hport => hport rfl) fun hpath => hpath rfl,
    fun h => absurd h.1 (by decide)⟩

end Proxy

end SysProgLab
