import SysProgLab.RequestText

/-!
# The header lines in a stream

`rio_readlineb` cuts the stream into lines: a line ends at its newline or is as long as
the array. `parse_header` comes to an end when one of the lines is the empty one and
what it copies of those before it fits; in the array the end of the stream looks like
the line before it.
-/

namespace SysProgLab

/-! ## One line -/

/-- The bytes that one call reads when the stream begins with them: they end at their only
newline, or there are `n` of them. -/
structure IsLine (n : ℕ) (line : List UInt8) : Prop where
  newline : 10 ∉ line.dropLast
  length_le : line.length ≤ n
  ends : line.getLast? = some 10 ∨ line.length = n

theorem IsLine.cons {n : ℕ} {b : UInt8} {line : List UInt8} (h : IsLine (n + 1) (b :: line))
    (hb : b ≠ 10) : IsLine n line := by
  cases line with
  | nil =>
    have hn : n = 0 := by
      rcases h.ends with h | h
      · exact absurd (Option.some.inj h) hb
      · exact (Nat.succ.inj h).symm
    exact ⟨List.not_mem_nil, Nat.zero_le n, .inr hn.symm⟩
  | cons c line =>
    refine ⟨fun h10 => h.newline (List.mem_cons_of_mem b h10),
      Nat.le_of_succ_le_succ h.length_le, ?_⟩
    rcases h.ends with h | h
    · exact .inl h
    · exact .inr (Nat.succ.inj h)

/-- A line is read whole, and nothing after it. -/
theorem takeLine_append {n : ℕ} {line : List UInt8} (h : IsLine n line) (rest : List UInt8) :
    takeLine n (line ++ rest) = (line, rest) := by
  induction n generalizing line with
  | zero =>
    obtain rfl := List.length_eq_zero_iff.mp (Nat.le_zero.mp h.length_le)
    rfl
  | succ n ih =>
    cases line with
    | nil => rcases h.ends with h | h <;> cases h
    | cons b line =>
      rw [List.cons_append, takeLine]
      split
      · next hb =>
        subst hb
        cases line with
        | nil => rfl
        | cons c line => exact absurd List.mem_cons_self h.newline
      · next hb => rw [ih (h.cons hb)]

/-- What is read is a line or all there is. -/
theorem takeLine_cases (n : ℕ) (bytes : List UInt8) :
    (∃ line rest, IsLine n line ∧ bytes = line ++ rest) ∨
      (takeLine n bytes = (bytes, []) ∧ 10 ∉ bytes ∧ bytes.length < n) := by
  induction n generalizing bytes with
  | zero => exact .inl ⟨[], bytes, ⟨List.not_mem_nil, Nat.le_refl 0, .inr rfl⟩, rfl⟩
  | succ n ih =>
    cases bytes with
    | nil => exact .inr ⟨rfl, List.not_mem_nil, Nat.succ_pos n⟩
    | cons b bytes =>
      by_cases hb : b = 10
      · subst hb
        exact .inl ⟨[10], bytes,
          ⟨List.not_mem_nil, Nat.succ_le_succ (Nat.zero_le n), .inl rfl⟩, rfl⟩
      rcases ih bytes with ⟨line, rest, h, rfl⟩ | ⟨htake, h10, hlen⟩
      · refine .inl ⟨b :: line, rest, ⟨?_, Nat.succ_le_succ h.length_le, ?_⟩, rfl⟩
        · cases line with
          | nil => exact List.not_mem_nil
          | cons c line =>
            exact fun h10 => (List.mem_cons.mp h10).elim (fun e => hb e.symm) h.newline
        · rcases h.ends with hlast | hlen
          · left
            rw [List.getLast?_cons, hlast]
            rfl
          · exact .inr (congrArg (· + 1) hlen)
      · refine .inr ⟨?_, ?_, Nat.succ_lt_succ hlen⟩
        · rw [takeLine, if_neg hb, htake]
        · exact fun h => (List.mem_cons.mp h).elim (fun e => hb e.symm) h10

namespace Proxy

variable {bytes rest line buf buf₁ hostname : List UInt8} {s s₁ s' : Stream} {ls : List CStr}

/-- **A read of a line** stores it, up to the first NUL. -/
theorem rioReadlineb_line (h : IsLine (maxLine - 1) line) :
    rioReadlineb ⟨line ++ rest, false⟩ buf maxLine = .ok (upToNul line, ⟨rest, false⟩) := by
  have htake := takeLine_append h rest
  rw [rioReadlineb]
  simp only [htake]
  rw [if_pos h.ends]

/-- **A read at the end of the stream** stores what there is, if there is anything. -/
theorem rioReadlineb_rest (hne : bytes ≠ []) (htake : takeLine (maxLine - 1) bytes = (bytes, []))
    (h10 : 10 ∉ bytes) (hlen : bytes.length < maxLine - 1) :
    rioReadlineb ⟨bytes, false⟩ buf maxLine = .ok (upToNul bytes, ⟨[], false⟩) := by
  have hends : ¬(bytes.getLast? = some 10 ∨ bytes.length = maxLine - 1) := by
    rintro (h | h)
    · exact h10 (List.mem_of_getLast? h)
    · exact Nat.ne_of_lt hlen h
  rw [rioReadlineb]
  simp only [htake]
  rw [if_neg hends, if_neg Bool.false_ne_true, if_neg hne]

/-- Where a read of a stream that does not fail comes to. -/
theorem rioReadlineb_cases (h : rioReadlineb ⟨bytes, false⟩ buf maxLine = .ok (buf₁, s₁)) :
    (∃ line rest, IsLine (maxLine - 1) line ∧ bytes = line ++ rest ∧ buf₁ = upToNul line ∧
      s₁ = ⟨rest, false⟩) ∨
    (10 ∉ buf₁ ∧ s₁ = ⟨[], false⟩) ∨ (bytes = [] ∧ buf₁ = buf ∧ s₁ = ⟨[], false⟩) := by
  rcases takeLine_cases (maxLine - 1) bytes with ⟨line, rest, hline, rfl⟩ | ⟨htake, h10, hlen⟩
  · rw [rioReadlineb_line hline] at h
    cases h
    exact .inl ⟨line, rest, hline, rfl, rfl, rfl⟩
  right
  by_cases hne : bytes = []
  · subst hne
    rw [rioReadlineb_end rfl rfl] at h
    cases h
    exact .inr ⟨rfl, rfl, rfl⟩
  · rw [rioReadlineb_rest hne htake h10 hlen] at h
    cases h
    exact .inl ⟨fun hmem => h10 (List.takeWhile_sublist _ |>.subset hmem), rfl⟩

theorem isLine_crlf : IsLine (maxLine - 1) crlf where
  newline := by decide +kernel
  length_le := by decide +kernel
  ends := .inl (by decide +kernel)

theorem crlf_eq : crlf = [13, 10] := by decide +kernel

/-- A line in the array is the empty one only if it is that in the stream. -/
theorem upToNul_eq_crlf (h10 : 10 ∉ line.dropLast) : upToNul line = crlf ↔ line = crlf := by
  constructor
  · intro h
    obtain ⟨t, rfl⟩ : crlf <+: line := h ▸ List.takeWhile_prefix _
    cases t with
    | nil => exact List.append_nil crlf
    | cons b t =>
      refine absurd ?_ h10
      rw [List.dropLast_append_cons, crlf_eq]
      simp
  · rintro rfl
    decide +kernel

/-! ## The lines up to the empty one -/

/-- **The header lines of a stream**, as `rio_readlineb` cuts it, up to the first empty
one. -/
structure HeaderLines (bytes : List UInt8) (lines : List (List UInt8)) (rest : List UInt8) :
    Prop where
  eq : bytes = lines.flatten ++ (crlf ++ rest)
  isLine : ∀ line ∈ lines, IsLine (maxLine - 1) line
  ne_crlf : crlf ∉ lines

theorem HeaderLines.nil (rest : List UInt8) : HeaderLines (crlf ++ rest) [] rest :=
  ⟨rfl, fun _ h => absurd h List.not_mem_nil, List.not_mem_nil⟩

theorem HeaderLines.cons {lines : List (List UInt8)} (h : HeaderLines bytes lines rest)
    (hline : IsLine (maxLine - 1) line) (hne : line ≠ crlf) :
    HeaderLines (line ++ bytes) (line :: lines) rest where
  eq := by rw [h.eq, List.flatten_cons, List.append_assoc]
  isLine := List.forall_mem_cons.mpr ⟨hline, h.isLine⟩
  ne_crlf := fun hmem => (List.mem_cons.mp hmem).elim (fun e => hne e.symm) h.ne_crlf

/-- The loop meets the lines of the stream. -/
theorem HeaderLines.headers {lines : List (List UInt8)} : ∀ {bytes : List UInt8},
    HeaderLines bytes lines rest → ∀ buf, ∃ buf₁ s₁,
      rioReadlineb ⟨bytes, false⟩ buf maxLine = .ok (buf₁, s₁) ∧
      Headers s₁ buf₁ (lines.map upToNul) ⟨rest, false⟩ := by
  induction lines with
  | nil =>
    intro bytes h buf
    obtain rfl := h.eq
    refine ⟨crlf, ⟨rest, false⟩, ?_, .done⟩
    rw [List.flatten_nil, List.nil_append, rioReadlineb_line isLine_crlf,
      (upToNul_eq_crlf isLine_crlf.newline).mpr rfl]
  | cons line lines ih =>
    intro bytes h buf
    obtain ⟨hline, hlines⟩ := List.forall_mem_cons.mp h.isLine
    have hne : line ≠ crlf := fun e => h.ne_crlf (e ▸ List.mem_cons_self)
    have htail : HeaderLines (lines.flatten ++ (crlf ++ rest)) lines rest :=
      ⟨rfl, hlines, fun hmem => h.ne_crlf (List.mem_cons_of_mem line hmem)⟩
    obtain ⟨buf₂, s₂, hread, hrest⟩ := ih htail (upToNul line)
    refine ⟨upToNul line, ⟨lines.flatten ++ (crlf ++ rest), false⟩, ?_, .line ?_ hread hrest⟩
    · rw [h.eq, List.flatten_cons, List.append_assoc, rioReadlineb_line hline]
    · exact fun e => hne ((upToNul_eq_crlf hline.newline).mp e)

/-- **The lines that the loop meets** are those of the stream; the stream can only be empty
if the array holds an empty line already. -/
theorem headers_lines (hread : rioReadlineb ⟨bytes, false⟩ buf maxLine = .ok (buf₁, s₁))
    (h : Headers s₁ buf₁ ls s') :
    (∃ lines rest, HeaderLines bytes lines rest ∧ ls = lines.map upToNul) ∨
      (bytes = [] ∧ buf = crlf ∧ ls = []) := by
  induction h generalizing bytes buf with
  | done =>
    rcases rioReadlineb_cases hread with ⟨line, rest, hline, rfl, e, -⟩ | ⟨h10, -⟩ | ⟨rfl, e, -⟩
    · obtain rfl := (upToNul_eq_crlf hline.newline).mp e.symm
      exact .inl ⟨[], rest, .nil rest, rfl⟩
    · exact absurd (by decide +kernel) h10
    · exact .inr ⟨rfl, e.symm, rfl⟩
  | @line s₁ s₂ s' buf₁ buf₂ ls hne hread₁ hrest ih =>
    rcases rioReadlineb_cases hread with ⟨line, rest, hline, rfl, rfl, rfl⟩ | ⟨-, rfl⟩ | ⟨-, -, rfl⟩
    · rcases ih hread₁ with ⟨lines, rest', hlines, rfl⟩ | ⟨-, e, -⟩
      · have hline_ne : line ≠ crlf := fun e => hne ((upToNul_eq_crlf hline.newline).mpr e)
        exact .inl ⟨line :: lines, rest', hlines.cons hline hline_ne, rfl⟩
      · exact absurd e hne
    · exact absurd (.line hne hread₁ hrest) (not_headers_end rfl rfl hne)
    · exact absurd (.line hne hread₁ hrest) (not_headers_end rfl rfl hne)

/-! ## What fits -/

/-- **Room for the lines** in `header`: the fixed lines, those of the client's that are
copied, a `Host` line if none of them is one, the empty line and the NUL. -/
def Fits (ls : List CStr) (hostname : CStr) : Prop :=
  fixedHdr.length + ((copied ls).map List.length).sum +
    (if hasHost ls then 0 else hostname.length + 8) + 2 < maxLine

theorem length_crlf : crlf.length = 2 := by decide +kernel

theorem length_hostLine (hostname : CStr) : (hostLine hostname).length = hostname.length + 8 := by
  have hname : (ascii "Host: ").length = 6 := by decide +kernel
  rw [hostLine, List.length_append, List.length_append, hname, length_crlf]
  omega

theorem length_headerText (ls : List CStr) (hostname : CStr) :
    (headerText ls hostname).length < maxLine ↔ Fits ls hostname := by
  rw [headerText, Fits, List.length_append, List.length_append, List.length_append,
    List.length_flatten, length_crlf, apply_ite List.length, List.length_nil, length_hostLine]

/-- **`parse_header` ends and stays in its array** exactly when the stream has an empty line
and what is copied of the lines before it fits. -/
theorem parseHeader_ends_iff (bytes : List UInt8) (buf hostname : CStr) :
    (∃ fuel text s', parseHeader fuel ⟨bytes, false⟩ buf hostname = .ok (text, s') ∧
      text.length < maxLine) ↔
    (∃ lines rest, HeaderLines bytes lines rest ∧ Fits (lines.map upToNul) hostname) ∨
      (bytes = [] ∧ buf = crlf ∧ Fits [] hostname) := by
  constructor
  · rintro ⟨fuel, text, s', h, -⟩
    obtain ⟨buf₁, s₁, ls, hread, hls, rfl, hlen⟩ := parseHeader_ok_iff.mp ⟨fuel, h⟩
    have hfits := (length_headerText ls hostname).mp hlen
    rcases headers_lines hread hls with ⟨lines, rest, hlines, rfl⟩ | ⟨hbytes, hbuf, rfl⟩
    · exact .inl ⟨lines, rest, hlines, hfits⟩
    · exact .inr ⟨hbytes, hbuf, hfits⟩
  · intro h
    obtain ⟨ls, buf₁, s₁, s', hread, hls, hfits⟩ : ∃ ls buf₁ s₁ s',
        rioReadlineb ⟨bytes, false⟩ buf maxLine = .ok (buf₁, s₁) ∧ Headers s₁ buf₁ ls s' ∧
        Fits ls hostname := by
      rcases h with ⟨lines, rest, hlines, hfits⟩ | ⟨rfl, rfl, hfits⟩
      · obtain ⟨buf₁, s₁, hread, hls⟩ := hlines.headers buf
        exact ⟨_, buf₁, s₁, _, hread, hls, hfits⟩
      · exact ⟨[], crlf, _, _, rioReadlineb_end rfl rfl, .done, hfits⟩
    have hlen := (length_headerText ls hostname).mpr hfits
    obtain ⟨fuel, h⟩ := parseHeader_ok_iff.mpr ⟨buf₁, s₁, ls, hread, hls, rfl, hlen⟩
    exact ⟨fuel, _, s', h, hlen⟩

/-- At the end of the stream the loop never ends if its line is one that is not copied. -/
theorem headerLoop_end {header : CStr} {isHost : Bool} (hne : buf ≠ crlf)
    (hbuf : forwarded buf = false) (fuel : ℕ) :
    headerLoop fuel ⟨[], false⟩ buf header isHost = .error .hang := by
  induction fuel with
  | zero => rfl
  | succ fuel ih =>
    rw [headerLoop, if_neg hne, hbuf, rioReadlineb_end rfl rfl]
    exact ih

/-- The client ends its stream after one line: the loop goes on forever. -/
theorem parseHeader_hangs :
    (∀ fuel, parseHeader fuel ⟨ascii "Accept: text/plain\r\n", false⟩ [] (ascii "host") =
      .error .hang) ∧
    ¬∃ fuel text s', parseHeader fuel ⟨ascii "Accept: text/plain\r\n", false⟩ [] (ascii "host") =
      .ok (text, s') ∧ text.length < maxLine := by
  have hhang : ∀ fuel, parseHeader fuel ⟨ascii "Accept: text/plain\r\n", false⟩ []
      (ascii "host") = .error .hang := by
    intro fuel
    have hread : rioReadlineb ⟨ascii "Accept: text/plain\r\n", false⟩ [] maxLine =
      .ok (ascii "Accept: text/plain\r\n", ⟨[], false⟩) := by decide +kernel
    have hloop : headerLoop fuel ⟨[], false⟩ (ascii "Accept: text/plain\r\n") fixedHdr false =
      .error .hang := headerLoop_end (by decide +kernel) (by decide +kernel) fuel
    rw [parseHeader, hread]
    dsimp only [bind, Except.bind]
    rw [hloop]
  refine ⟨hhang, ?_⟩
  rintro ⟨fuel, text, s', h, -⟩
  rw [hhang fuel] at h
  cases h

end Proxy

end SysProgLab
