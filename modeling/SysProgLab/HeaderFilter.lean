import SysProgLab.HeaderLines

/-!
# Which header lines are forwarded

`parse_header` searches each line for four texts, wherever they stand and in one letter
case; what it should look at is the field name. On header lines that fit into its
buffer, the text it makes is the right one exactly when both views agree on every line,
or when the client's last line to be forwarded is the very `Host` line that the proxy
puts in its place.
-/

namespace SysProgLab

/-! ## Lists of lines -/

section Lines

variable {α : Type} {p q : α → Bool} {l m : List α} {a : α}

/-- A text that ends with its only newline. -/
def Terminated (line : List UInt8) : Prop := 10 ∉ line.dropLast ∧ line.getLast? = some 10

theorem Terminated.isLine {line : List UInt8} (h : Terminated line) {n : ℕ}
    (hn : line.length ≤ n) : IsLine n line := ⟨h.1, hn, .inl h.2⟩

/-- Lines are determined by the text they make up. -/
theorem flatten_injective {a b : List (List UInt8)} (ha : ∀ l ∈ a, Terminated l)
    (hb : ∀ l ∈ b, Terminated l) (h : a.flatten = b.flatten) : a = b := by
  induction a generalizing b with
  | nil =>
    cases b with
    | nil => rfl
    | cons m b =>
      obtain rfl := (List.append_eq_nil_iff.mp h.symm).1
      cases (hb [] List.mem_cons_self).2
  | cons l a ih =>
    cases b with
    | nil =>
      obtain rfl := (List.append_eq_nil_iff.mp h).1
      cases (ha [] List.mem_cons_self).2
    | cons m b =>
      obtain ⟨hl, ha⟩ := List.forall_mem_cons.mp ha
      obtain ⟨hm, hb⟩ := List.forall_mem_cons.mp hb
      rw [List.flatten_cons, List.flatten_cons] at h
      -- both are the first line that is read
      have htake := takeLine_append (hl.isLine (le_max_left l.length m.length)) a.flatten
      rw [h, takeLine_append (hm.isLine (le_max_right l.length m.length))] at htake
      obtain ⟨heq, hrest⟩ := Prod.mk.inj htake
      rw [heq, ih ha hb hrest.symm]

theorem filter_eq_filter_iff : l.filter p = l.filter q ↔ ∀ a ∈ l, p a = q a := by
  refine ⟨fun h a ha => ?_, List.filter_congr⟩
  have hmem : a ∈ l.filter p ↔ a ∈ l.filter q := by rw [h]
  rw [List.mem_filter, List.mem_filter, and_iff_right ha, and_iff_right ha] at hmem
  exact Bool.eq_iff_iff.mpr hmem

end Lines

namespace Proxy

/-! ## Field names -/

/-- The field name of a header line. -/
def fieldName (line : CStr) : CStr := line.takeWhile fun b => decide (b ≠ 58)

/-- The names of the header lines that the proxy supplies itself. -/
def ownNames : List CStr :=
  [ascii "User-Agent", ascii "Accept", ascii "Accept-Encoding", ascii "Connection",
    ascii "Proxy-Connection"]

/-- The line is to be forwarded. -/
def wanted (line : CStr) : Bool := !ownNames.any fun name => strcaseEq (fieldName line) name

/-- The line is a `Host` line. -/
def hostNamed (line : CStr) : Bool := strcaseEq (fieldName line) (ascii "Host")

/-- **What `parse_header` should make** of the client's lines. -/
def wantedText (ls : List CStr) (hostname : CStr) : CStr :=
  fixedHdr ++ (ls.filter wanted).flatten ++ (if ls.any hostNamed then [] else hostLine hostname) ++
    crlf

/-- A header line, `Name: value` -/
structure WellFormed (line : CStr) : Prop where
  eq : ∃ name value, line = name ++ ascii ": " ++ value ++ crlf ∧ name ≠ [] ∧
    (∀ b ∈ name, b ≠ 0 ∧ b ≠ 58 ∧ isSpace b = false) ∧ ∀ b ∈ value, b ≠ 0 ∧ b ≠ 10 ∧ b ≠ 13

/-- `parse_header` makes the right text of the lines and stops behind them. -/
def Forwards (ls : List CStr) (hostname : CStr) : Prop :=
  ∀ buf rest, ∃ fuel, parseHeader fuel ⟨ls.flatten ++ (crlf ++ rest), false⟩ buf hostname =
    .ok (wantedText ls hostname, ⟨rest, false⟩)

/-- **Both views agree**: on every line, and on whether there is a `Host` line. -/
def Agree (ls : List CStr) : Prop :=
  (∀ l ∈ ls, forwarded l = wanted l) ∧ hasHost ls = ls.any hostNamed

/-- **A `Host` line is replaced by the same one**: the last line to be forwarded is the
proxy's own `Host` line, which is not copied, and there is no other. -/
def Replaced (ls : List CStr) (hostname : CStr) : Prop :=
  ∃ a b, ls = a ++ hostLine hostname :: b ∧ forwarded (hostLine hostname) = false ∧
    (∀ l ∈ a ++ b, forwarded l = wanted l) ∧ (∀ l ∈ b, wanted l = false) ∧ hasHost ls = false

variable {ls ls₁ : List CStr} {hostname line : CStr} {s s' s₁ : Stream} {buf : CStr}

theorem terminated_crlf {body : CStr} (h : 10 ∉ body) : Terminated (body ++ crlf) := by
  have hsplit : body ++ crlf = body ++ [13] ++ [10] := by
    rw [crlf_eq, List.append_assoc]
    rfl
  rw [hsplit]
  refine ⟨?_, List.getLast?_concat⟩
  rw [List.dropLast_concat]
  simpa using h

theorem WellFormed.terminated (h : WellFormed line) : Terminated line := by
  obtain ⟨name, value, rfl, -, hname, hvalue⟩ := h.eq
  have hcolon : ascii ": " = [58, 32] := by decide
  refine terminated_crlf fun hmem => ?_
  simp only [hcolon, List.mem_append, List.mem_cons, List.not_mem_nil, or_false] at hmem
  rcases hmem with (h | h | h) | h
  · cases (hname 10 h).2.2
  · cases h
  · cases h
  · exact (hvalue 10 h).2.1 rfl

/-- A header line has no NUL. -/
theorem WellFormed.upToNul_eq (h : WellFormed line) : upToNul line = line := by
  obtain ⟨name, value, rfl, -, hname, hvalue⟩ := h.eq
  have hcolon : ascii ": " = [58, 32] := by decide
  refine List.takeWhile_eq_self_iff.mpr fun b hb => decide_eq_true ?_
  rintro rfl
  simp only [hcolon, crlf_eq, List.mem_append, List.mem_cons, List.not_mem_nil, or_false] at hb
  rcases hb with ((h | h | h) | h) | h | h
  · exact (hname 0 h).1 rfl
  · cases h
  · cases h
  · exact (hvalue 0 h).1 rfl
  · cases h
  · cases h

theorem WellFormed.ne_crlf (h : WellFormed line) : line ≠ crlf := by
  obtain ⟨name, value, rfl, -, -, -⟩ := h.eq
  intro he
  have hlen := congrArg List.length he
  have hcolon : (ascii ": ").length = 2 := by decide
  simp only [List.length_append, hcolon, length_crlf] at hlen
  omega

/-! ## The proxy's own `Host` line -/

theorem hostLine_eq (hostname : CStr) :
    hostLine hostname = [72, 111, 115, 116] ++ 58 :: 32 :: hostname ++ crlf := by
  have hname : ascii "Host: " = [72, 111, 115, 116] ++ [58, 32] := by decide
  rw [hostLine, hname]
  rfl

theorem hostLine_terminated (h : 10 ∉ hostname) : Terminated (hostLine hostname) := by
  rw [hostLine_eq]
  exact terminated_crlf (by simpa using h)

theorem fieldName_hostLine (hostname : CStr) : fieldName (hostLine hostname) = ascii "Host" := by
  rw [hostLine_eq]
  rfl

theorem hostNamed_hostLine (hostname : CStr) : hostNamed (hostLine hostname) = true := by
  rw [hostNamed, fieldName_hostLine]
  decide

theorem wanted_hostLine (hostname : CStr) : wanted (hostLine hostname) = true := by
  rw [wanted, fieldName_hostLine]
  decide

theorem strstr_hostLine (hostname : CStr) : strstr (hostLine hostname) (ascii "Host") = true := by
  refine List.any_eq_true.mpr ⟨_, (List.mem_tails _ _).mpr (List.suffix_refl _), ?_⟩
  rw [hostLine_eq]
  rfl

/-! ## Both texts -/

/-- The `Host` line that is added if there is none. -/
def addedHost (hosted : Bool) (hostname : CStr) : List CStr :=
  if hosted then [] else [hostLine hostname]

theorem flatten_addedHost (hosted : Bool) (hostname : CStr) :
    (addedHost hosted hostname).flatten = if hosted then [] else hostLine hostname := by
  cases hosted <;> simp [addedHost]

/-- The texts are the same if the lines are. -/
theorem text_eq_iff_lines (hls : ∀ l ∈ ls, Terminated l) (h10 : 10 ∉ hostname) :
    headerText ls hostname = wantedText ls hostname ↔
      copied ls ++ addedHost (hasHost ls) hostname =
        ls.filter wanted ++ addedHost (ls.any hostNamed) hostname := by
  have hterm : ∀ (p : CStr → Bool) (hosted : Bool),
      ∀ l ∈ ls.filter p ++ addedHost hosted hostname, Terminated l := by
    intro p hosted l hl
    rcases List.mem_append.mp hl with hl | hl
    · exact hls l (List.mem_filter.mp hl).1
    · cases hosted with
      | true => cases hl
      | false => exact List.mem_singleton.mp hl ▸ hostLine_terminated h10
  have hflatten : headerText ls hostname = wantedText ls hostname ↔
      (copied ls ++ addedHost (hasHost ls) hostname).flatten =
        (ls.filter wanted ++ addedHost (ls.any hostNamed) hostname).flatten := by
    rw [headerText, wantedText, List.append_cancel_right_eq, List.append_assoc,
      List.append_assoc, List.append_cancel_left_eq, List.flatten_append, List.flatten_append,
      flatten_addedHost, flatten_addedHost]
  rw [hflatten]
  exact ⟨flatten_injective (hterm _ _) (hterm _ _), congrArg List.flatten⟩

/-- A `Host` line that is not copied, and is the last to be forwarded. -/
theorem replaced_of_lines (hhost : hasHost ls = false)
    (h : copied ls ++ [hostLine hostname] = ls.filter wanted) : Replaced ls hostname := by
  have hnot : forwarded (hostLine hostname) = false := by
    rw [← Bool.not_eq_true]
    intro hf
    have hmem : hostLine hostname ∈ ls.filter wanted := h ▸ List.mem_append_right _ (by simp)
    have hcopied : hostLine hostname ∈ copied ls :=
      List.mem_filter.mpr ⟨(List.mem_filter.mp hmem).1, hf⟩
    have hany : hasHost ls = true := List.any_eq_true.mpr ⟨_, hcopied, strstr_hostLine hostname⟩
    cases hhost.symm.trans hany
  obtain ⟨a, c, rfl, ha, hc⟩ := List.filter_eq_append_iff.mp h.symm
  obtain ⟨a', b, rfl, ha', -, hb⟩ := List.filter_eq_cons_iff.mp hc
  have hb' : ∀ l ∈ b, wanted l = false := by simpa [List.filter_eq_nil_iff] using hb
  have ha'' : a'.filter wanted = [] := by simpa [List.filter_eq_nil_iff] using ha'
  have hcopied : copied (a ++ (a' ++ hostLine hostname :: b)) = copied ((a ++ a') ++ b) := by
    simp [copied, hnot]
  have hagree : ∀ l ∈ (a ++ a') ++ b, forwarded l = wanted l := by
    refine filter_eq_filter_iff.mp ?_
    rw [← copied, ← hcopied, ← ha]
    simp [ha'', hb]
  exact ⟨a ++ a', b, by simp, hnot, hagree, hb', hhost⟩

/-- **The text is the right one** exactly when both views agree, or a `Host` line is
replaced by the same one. -/
theorem text_eq_iff (hls : ∀ l ∈ ls, Terminated l) (h10 : 10 ∉ hostname) :
    headerText ls hostname = wantedText ls hostname ↔ Agree ls ∨ Replaced ls hostname := by
  rw [text_eq_iff_lines hls h10]
  constructor
  · intro h
    cases hhost : hasHost ls with
    | true =>
      cases hnamed : ls.any hostNamed with
      | true =>
        rw [hhost, hnamed, List.append_cancel_right_eq] at h
        exact .inl ⟨filter_eq_filter_iff.mp h, hhost.trans hnamed.symm⟩
      | false =>
        rw [hhost, hnamed] at h
        have hmem : hostLine hostname ∈ copied ls := by
          rw [← List.append_nil (copied ls)]
          exact h ▸ List.mem_append_right _ (List.mem_singleton.mpr rfl)
        have hany : ls.any hostNamed = true :=
          List.any_eq_true.mpr ⟨_, (List.mem_filter.mp hmem).1, hostNamed_hostLine hostname⟩
        cases hnamed.symm.trans hany
    | false =>
      cases hnamed : ls.any hostNamed with
      | true =>
        rw [hhost, hnamed] at h
        exact .inr (replaced_of_lines hhost (h.trans (List.append_nil _)))
      | false =>
        rw [hhost, hnamed, List.append_cancel_right_eq] at h
        exact .inl ⟨filter_eq_filter_iff.mp h, hhost.trans hnamed.symm⟩
  · rintro (⟨hagree, hflags⟩ | ⟨a, b, rfl, hnot, hagree, hb, hhost⟩)
    · rw [hflags, copied, List.filter_congr hagree]
    · have hnamed : (a ++ hostLine hostname :: b).any hostNamed = true :=
        List.any_eq_true.mpr ⟨_, by simp, hostNamed_hostLine hostname⟩
      have ha : a.filter forwarded = a.filter wanted :=
        List.filter_congr fun l hl => hagree l (List.mem_append_left _ hl)
      have hb₁ : b.filter wanted = [] := List.filter_eq_nil_iff.mpr fun l hl => by simp [hb l hl]
      have hb₂ : b.filter forwarded = [] := by
        rw [← hb₁]
        exact List.filter_congr fun l hl => hagree l (List.mem_append_right _ hl)
      rw [hhost, hnamed, copied, List.filter_append, List.filter_append, List.filter_cons,
        List.filter_cons, hnot, wanted_hostLine, ha, hb₁, hb₂]
      simp [addedHost]

/-! ## The lines that are read -/

/-- The lines that the loop meets are determined. -/
theorem Headers.unique (h : Headers s buf ls s') (h₁ : Headers s buf ls₁ s₁) :
    ls = ls₁ ∧ s' = s₁ := by
  induction h generalizing ls₁ with
  | done =>
    cases h₁ with
    | done => exact ⟨rfl, rfl⟩
    | line hne => exact absurd rfl hne
  | line hne hread _ ih =>
    cases h₁ with
    | done => exact absurd rfl hne
    | line _ hread₁ hrest =>
      cases hread.symm.trans hread₁
      obtain ⟨rfl, rfl⟩ := ih hrest
      exact ⟨rfl, rfl⟩

/-- `parse_header` on lines that fit into its buffer. -/
theorem forwards_iff_text (hls : ∀ l ∈ ls, WellFormed l)
    (hfits : (wantedText ls hostname).length < maxLine) (hshort : ∀ l ∈ ls, l.length < maxLine) :
    Forwards ls hostname ↔ headerText ls hostname = wantedText ls hostname := by
  have hlines : ∀ rest, HeaderLines (ls.flatten ++ (crlf ++ rest)) ls rest := fun rest =>
    ⟨rfl, fun l hl => (hls l hl).terminated.isLine (Nat.le_pred_of_lt (hshort l hl)),
      fun hmem => (hls crlf hmem).ne_crlf rfl⟩
  have hid : ls.map upToNul = ls :=
    (List.map_congr_left fun l hl => (hls l hl).upToNul_eq).trans (List.map_id ls)
  have hheaders : ∀ buf rest, ∃ buf₁ s₁,
      rioReadlineb ⟨ls.flatten ++ (crlf ++ rest), false⟩ buf maxLine = .ok (buf₁, s₁) ∧
        Headers s₁ buf₁ ls ⟨rest, false⟩ := fun buf rest => by
    have h := (hlines rest).headers buf
    rwa [hid] at h
  constructor
  · intro h
    obtain ⟨buf₁, s₁, ls₁, hread₁, hls₁, htext, -⟩ := parseHeader_ok_iff.mp (h [] [])
    obtain ⟨buf₂, s₂, hread, hheaders⟩ := hheaders [] []
    cases hread.symm.trans hread₁
    obtain ⟨rfl, -⟩ := hheaders.unique hls₁
    exact htext.symm
  · intro htext buf rest
    obtain ⟨buf₁, s₁, hread, hheaders⟩ := hheaders buf rest
    exact parseHeader_ok_iff.mpr ⟨buf₁, s₁, ls, hread, hheaders, htext.symm, hfits⟩

/-- **`parse_header` forwards exactly the right headers** from lines that fit into its
buffer if both views agree, or a `Host` line is replaced by the same one, and only
then. -/
theorem forwards_iff (hls : ∀ l ∈ ls, WellFormed l) (h10 : 10 ∉ hostname)
    (hfits : (wantedText ls hostname).length < maxLine) (hshort : ∀ l ∈ ls, l.length < maxLine) :
    Forwards ls hostname ↔ Agree ls ∨ Replaced ls hostname :=
  (forwards_iff_text hls hfits hshort).trans
    (text_eq_iff (fun l hl => (hls l hl).terminated) h10)

/-- Few lines fit. -/
theorem wantedText_fits (h : (ls.map List.length).sum + hostname.length ≤ 4096) :
    (wantedText ls hostname).length < maxLine := by
  have hfixed := length_fixedHdr_le
  have hfilter : ((ls.filter wanted).map List.length).sum ≤ (ls.map List.length).sum :=
    (List.filter_sublist.map _).sum_le_sum fun _ _ => Nat.zero_le _
  have hhost : (if ls.any hostNamed then [] else hostLine hostname).length ≤
      hostname.length + 8 := by
    split
    · exact Nat.zero_le _
    · exact (length_hostLine hostname).le
  rw [wantedText, List.length_append, List.length_append, List.length_append,
    List.length_flatten, length_crlf]
  have hmax : maxLine = 8192 := rfl
  omega

theorem wellFormed_of {name value : CStr} (hne : name ≠ [])
    (hname : ∀ b ∈ name, b ≠ 0 ∧ b ≠ 58 ∧ isSpace b = false)
    (hvalue : ∀ b ∈ value, b ≠ 0 ∧ b ≠ 10 ∧ b ≠ 13) :
    WellFormed (name ++ ascii ": " ++ value ++ crlf) :=
  ⟨⟨name, value, rfl, hne, hname, hvalue⟩⟩

/-- A `Host` line that is forwarded, and a line of the proxy's own that is not. -/
theorem forwards_iff_plain :
    Forwards [ascii "Host" ++ ascii ": " ++ ascii "h" ++ crlf,
      ascii "Accept" ++ ascii ": " ++ ascii "text" ++ crlf] (ascii "h") := by
  have hwell : ∀ l ∈ [ascii "Host" ++ ascii ": " ++ ascii "h" ++ crlf,
      ascii "Accept" ++ ascii ": " ++ ascii "text" ++ crlf], WellFormed l := by
    refine List.forall_mem_cons.mpr ⟨wellFormed_of ?_ ?_ ?_, List.forall_mem_singleton.mpr
      (wellFormed_of ?_ ?_ ?_)⟩ <;> decide +kernel
  exact (forwards_iff hwell (by decide) (wantedText_fits (by decide)) (by decide)).mpr
    (.inl ⟨by decide, by decide⟩)

/-- **One line that goes wrong**: it is wanted and not copied, or copied and not wanted, or
taken for a `Host` line. -/
theorem headers_misjudged :
    (WellFormed (ascii "X" ++ ascii ": " ++ ascii "Accept" ++ crlf) ∧
      ¬Forwards [ascii "X" ++ ascii ": " ++ ascii "Accept" ++ crlf] (ascii "h")) ∧
    (WellFormed (ascii "accept" ++ ascii ": " ++ ascii "a" ++ crlf) ∧
      ¬Forwards [ascii "accept" ++ ascii ": " ++ ascii "a" ++ crlf] (ascii "h")) ∧
    WellFormed (ascii "X" ++ ascii ": " ++ ascii "Host" ++ crlf) ∧
      ¬Forwards [ascii "X" ++ ascii ": " ++ ascii "Host" ++ crlf] (ascii "h") := by
  have hbad : ∀ {l : CStr}, WellFormed l → l.length ≤ 100 →
      copied [l] ++ addedHost (hasHost [l]) (ascii "h") ≠
        [l].filter wanted ++ addedHost ([l].any hostNamed) (ascii "h") →
      WellFormed l ∧ ¬Forwards [l] (ascii "h") := by
    intro l hl hlen hlines
    have hall : ∀ m ∈ [l], WellFormed m := List.forall_mem_singleton.mpr hl
    have hshort : ∀ m ∈ [l], m.length < maxLine :=
      List.forall_mem_singleton.mpr (hlen.trans_lt (by decide))
    have hhost : (ascii "h").length = 1 := by decide
    have hfits : (wantedText [l] (ascii "h")).length < maxLine := by
      refine wantedText_fits ?_
      rw [List.map_singleton, List.sum_singleton, hhost]
      omega
    refine ⟨hl, fun h => hlines ?_⟩
    exact (text_eq_iff_lines (fun m hm => (hall m hm).terminated) (by decide)).mp
      ((forwards_iff_text hall hfits hshort).mp h)
  refine ⟨hbad (wellFormed_of ?_ ?_ ?_) ?_ ?_, hbad (wellFormed_of ?_ ?_ ?_) ?_ ?_,
    hbad (wellFormed_of ?_ ?_ ?_) ?_ ?_⟩ <;> decide +kernel

end Proxy

end SysProgLab
