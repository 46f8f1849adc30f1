import SysProgLab.Descriptor

/-!
# Buffered reading: `rio_t`

`rio_read` refills an internal buffer with whatever one `read` returns, and hands out of
it what is asked for; `rio_readnb` and `rio_readlineb` stand on it. What is yet to be read
is what stands in the buffer and then what is yet to come on the descriptor
(`RioT.pending`). Both functions compute what `Rio_readn` and `Rio_readlineb` compute on
that stream, whatever the turns are (`rioReadnb_refines`, `rioReadlineb_refines`); so no
byte is lost, repeated or put out of order by the buffer.
-/

namespace SysProgLab

/-- `RIO_BUFSIZE` -/
abbrev rioBufsize : ℕ := 8192

/-- `rio_t` -/
structure RioT : Type where
  /-- `rio_fd` -/
  fd : Source
  /-- `rio_cnt`: unread bytes in the internal buffer -/
  cnt : ℤ
  /-- `rio_bufptr`: the index of the next unread byte -/
  bufptr : ℕ
  /-- `rio_buf` -/
  buf : List UInt8

/-- `rio_readinitb`, on a buffer that holds anything -/
def rioReadinitb (fd : Source) (buf : List UInt8) : RioT := ⟨fd, 0, 0, buf⟩

/-- The loop of `rio_read` that refills an empty buffer; the result is what `rio_read`
returns at once: -1 as `none`, 0 as `some false`; `some true` goes on. -/
def refill : ℕ → RioT → Except Stop (Option Bool × RioT)
  | 0, _ => .error .hang
  | fuel + 1, rp =>
    if 0 < rp.cnt then .ok (some true, rp)
    else
      match rp.fd.read rioBufsize with
      | (.failed, fd) => .ok (none, { rp with fd := fd, cnt := -1 })
      | (.interrupted, fd) => refill fuel { rp with fd := fd, cnt := -1 }
      | (.bytes bs, fd) =>
        if bs = [] then .ok (some false, { rp with fd := fd, cnt := 0 })
        else refill fuel ⟨fd, bs.length, 0, bs ++ rp.buf.drop bs.length⟩

/-- `rio_read`; -1 is `none`, a count is the bytes that are copied. -/
def rioRead (rp : RioT) (n : ℕ) : Except Stop (Option (List UInt8) × RioT) := do
  let r ← refill (rp.fd.turns.length + 2) rp
  match r with
  | (none, rp) => pure (none, rp)
  | (some false, rp) => pure (some [], rp)
  | (some true, rp) =>
    let cnt := if rp.cnt < n then rp.cnt.toNat else n
    -- `memcpy` reads inside `rio_buf`
    ensure (rp.bufptr + cnt ≤ rp.buf.length) .fault
    pure (some ((rp.buf.drop rp.bufptr).take cnt),
      { rp with bufptr := rp.bufptr + cnt, cnt := rp.cnt - cnt })

/-- The loop of `rio_readnb`: `nleft` bytes are left, `got` stands in the buffer. -/
def readnbLoop : ℕ → RioT → ℕ → List UInt8 → Except Stop (Option (List UInt8) × RioT)
  | 0, _, _, _ => .error .hang
  | fuel + 1, rp, nleft, got =>
    if nleft = 0 then .ok (some got, rp)
    else do
      let r ← rioRead rp nleft
      match r with
      | (none, rp) => pure (none, rp)
      | (some bs, rp) =>
        if bs = [] then pure (some got, rp)
        else readnbLoop fuel rp (nleft - bs.length) (got ++ bs)

/-- `rio_readnb` -/
def rioReadnb (rp : RioT) (n : ℕ) : Except Stop (Option (List UInt8) × RioT) :=
  readnbLoop (n + 1) rp n []

/-- What `rio_readlineb` returns and leaves in the array. -/
inductive LineRead : Type where
  /-- -1 -/
  | failed
  /-- 0, with the array as it was -/
  | eof
  /-- the bytes of the line; a NUL follows them in the array -/
  | line (bs : List UInt8)

/-- The loop of `rio_readlineb`: `left` more bytes may be stored behind `got`. -/
def readlineLoop : ℕ → RioT → List UInt8 → Except Stop (LineRead × RioT)
  | 0, rp, got => .ok (.line got, rp)
  | left + 1, rp, got => do
    let r ← rioRead rp 1
    match r with
    | (none, rp) => pure (.failed, rp)
    | (some [], rp) => if got = [] then pure (.eof, rp) else pure (.line got, rp)
    | (some (c :: _), rp) =>
      if c = 10 then pure (.line (got ++ [c]), rp) else readlineLoop left rp (got ++ [c])

/-- `rio_readlineb` -/
def rioReadlinebUnix (rp : RioT) (maxlen : ℕ) : Except Stop (LineRead × RioT) :=
  readlineLoop (maxlen - 1) rp []

/-- The string in the array after a line read; it held `usrbuf`. `unix_error` at -1. -/
def LineRead.orExit (usrbuf : CStr) : LineRead → Except Stop CStr
  | .failed => .error .exit
  | .eof => .ok usrbuf
  | .line bs => .ok (upToNul bs)

/-- `Rio_readlineb` into an array that holds the string `usrbuf` -/
def rioReadlinebOrExit (rp : RioT) (usrbuf : CStr) (maxlen : ℕ) : Except Stop (CStr × RioT) := do
  let r ← rioReadlinebUnix rp maxlen
  let usrbuf ← r.1.orExit usrbuf
  pure (usrbuf, r.2)

/-! ## What is yet to be read -/

namespace RioT

/-- The unread bytes of the internal buffer. -/
def unread (rp : RioT) : List UInt8 := (rp.buf.drop rp.bufptr).take rp.cnt.toNat

/-- **What is yet to be read.** -/
def pending (rp : RioT) : Stream :=
  ⟨rp.unread ++ rp.fd.stream.bytes, rp.fd.stream.fails⟩

/-- The unread bytes lie inside the internal buffer. -/
structure Ok (rp : RioT) : Prop where
  size : rp.buf.length = rioBufsize
  inside : rp.bufptr + rp.cnt.toNat ≤ rp.buf.length

variable {rp : RioT}

theorem unread_nil (h : rp.cnt ≤ 0) : rp.unread = [] := by
  rw [unread, Int.toNat_of_nonpos h]
  exact List.take_zero ..

end RioT

/-- After `rio_readinitb` nothing is unread. -/
theorem rioReadinitb_ok (fd : Source) {buf : List UInt8} (hsize : buf.length = rioBufsize) :
    (rioReadinitb fd buf).Ok ∧ (rioReadinitb fd buf).pending = fd.stream :=
  ⟨⟨hsize, by simp [rioReadinitb]⟩, rfl⟩

section

variable {rp : RioT} {n : ℕ}

theorem refill_of_pos (h : 0 < rp.cnt) (fuel : ℕ) :
    refill (fuel + 1) rp = .ok (some true, rp) := if_pos h

/-- **Refilling** loses nothing. -/
theorem refill_spec : ∀ {fuel : ℕ} {rp : RioT}, rp.Ok → rp.fd.turns.length + 1 < fuel →
    ∃ r rp', refill fuel rp = .ok (r, rp') ∧ rp'.Ok ∧ rp'.pending = rp.pending ∧
      (r = some true ∧ 0 < rp'.cnt ∨
        r = some false ∧ rp.pending = ⟨[], false⟩ ∨ r = none ∧ rp.pending = ⟨[], true⟩) := by
  intro fuel
  induction fuel with
  | zero => exact fun _ h => absurd h (Nat.not_lt_zero _)
  | succ fuel ih =>
    intro rp h hfuel
    rw [refill]
    split
    · next hcnt => exact ⟨_, rp, rfl, h, rfl, .inl ⟨rfl, hcnt⟩⟩
    next hcnt =>
    have hnil := RioT.unread_nil (Int.not_lt.mp hcnt)
    have hpend : rp.pending = rp.fd.stream := by rw [RioT.pending, hnil, List.nil_append]
    have hempty : ∀ (fd : Source) {cnt : ℤ}, cnt ≤ 0 → fd.stream = rp.fd.stream →
        RioT.Ok { rp with fd := fd, cnt := cnt } ∧
          RioT.pending { rp with fd := fd, cnt := cnt } = rp.pending := by
      intro fd cnt hle hstream
      have hnil' : RioT.unread { rp with fd := fd, cnt := cnt } = [] := RioT.unread_nil hle
      refine ⟨⟨h.size, ?_⟩, ?_⟩
      · have hin := h.inside
        dsimp only
        omega
      · rw [hpend, RioT.pending, hnil', List.nil_append]
        dsimp only
        rw [hstream]
    have hbuf : 0 < rioBufsize := by decide
    rcases rp.fd.read_spec hbuf with
      ⟨fd, hread, hstream, hturns⟩ | ⟨fd, hread, hstream, hbytes, hfails⟩ |
      ⟨bs, fd, hread, hbytes, hfails, hlen, hturns, hend⟩
    · rw [hread]
      obtain ⟨hok, hp⟩ := hempty fd (by decide : (-1 : ℤ) ≤ 0) hstream
      rw [← hp]
      exact ih hok (by dsimp only; omega)
    · rw [hread]
      obtain ⟨hok, hp⟩ := hempty fd (by decide : (-1 : ℤ) ≤ 0) hstream
      refine ⟨_, _, rfl, hok, hp, .inr (.inr ⟨rfl, ?_⟩)⟩
      rw [hpend, ← hbytes, ← hfails]
    · rw [hread]
      dsimp only
      split
      · next hbs =>
        obtain ⟨hnone, hf⟩ := hend hbs
        have hstream : fd.stream = rp.fd.stream := by
          rw [hbs, List.nil_append] at hbytes
          exact congrArg₂ Stream.mk hbytes.symm hfails
        obtain ⟨hok, hp⟩ := hempty fd le_rfl hstream
        refine ⟨_, _, rfl, hok, hp, .inr (.inl ⟨rfl, ?_⟩)⟩
        rw [hpend, ← hnone, ← hf]
      · next hbs =>
        obtain ⟨fuel, rfl⟩ := Nat.exists_eq_add_one.mpr (by omega : 0 < fuel)
        have hpos : (0 : ℤ) < bs.length := by
          have := List.length_pos_iff.mpr hbs
          omega
        have hsize := h.size
        refine ⟨_, _, refill_of_pos hpos fuel, ⟨?_, ?_⟩, ?_, .inl ⟨rfl, hpos⟩⟩
        · rw [List.length_append, List.length_drop]
          omega
        · rw [List.length_append]
          dsimp only
          omega
        · rw [hpend, RioT.pending, RioT.unread, List.drop_zero, Int.toNat_natCast,
            List.take_left, hfails]
          exact congrArg₂ Stream.mk hbytes.symm rfl

/-- **`rio_read`** hands out the next bytes, and at the end says how the stream ends. -/
theorem rioRead_spec (h : rp.Ok) (hn : 0 < n) :
    ∃ r rp', rioRead rp n = .ok (r, rp') ∧ rp'.Ok ∧
      ((∃ bs, r = some bs ∧ bs ≠ [] ∧ bs.length ≤ n ∧
          rp.pending = ⟨bs ++ rp'.pending.bytes, rp'.pending.fails⟩) ∨
        (r = some [] ∧ rp.pending = ⟨[], false⟩ ∧ rp'.pending = rp.pending) ∨
        (r = none ∧ rp.pending = ⟨[], true⟩ ∧ rp'.pending = rp.pending)) := by
  obtain ⟨r, rp₁, hrefill, hok, hpend, hcases⟩ := refill_spec h (Nat.lt_succ_self _)
  rcases hcases with ⟨rfl, hpos⟩ | ⟨rfl, hend⟩ | ⟨rfl, hend⟩
  · obtain ⟨cnt, hcnt⟩ : ∃ cnt, cnt = if rp₁.cnt < n then rp₁.cnt.toNat else n := ⟨_, rfl⟩
    have hle : 0 < cnt ∧ cnt ≤ n ∧ cnt ≤ rp₁.cnt.toNat := by
      rw [hcnt]
      split <;> omega
    obtain ⟨hpos', hlen, hin⟩ := hle
    have hinside := hok.inside
    have hsize := hok.size
    refine ⟨some ((rp₁.buf.drop rp₁.bufptr).take cnt),
      { rp₁ with bufptr := rp₁.bufptr + cnt, cnt := rp₁.cnt - cnt }, ?_,
      ⟨hsize, by dsimp only; omega⟩, .inl ⟨_, rfl, ?_, ?_, ?_⟩⟩
    · refine bind_eq_ok.mpr ⟨_, hrefill, ?_⟩
      dsimp only
      rw [← hcnt]
      exact bind_eq_ok.mpr ⟨⟨⟩, ensure_eq_ok.mpr (by omega), rfl⟩
    · rw [Ne, ← List.length_eq_zero_iff, List.length_take, List.length_drop]
      omega
    · rw [List.length_take]
      omega
    · rw [← hpend, RioT.pending, RioT.pending, RioT.unread, RioT.unread]
      dsimp only
      have hrest : (rp₁.cnt - cnt).toNat = rp₁.cnt.toNat - cnt := by omega
      have hsum : rp₁.cnt.toNat = cnt + (rp₁.cnt.toNat - cnt) := by omega
      rw [hrest, ← List.append_assoc, hsum, List.take_add, List.drop_drop, ← hsum]
  · exact ⟨_, rp₁, bind_eq_ok.mpr ⟨_, hrefill, rfl⟩, hok, .inr (.inl ⟨rfl, hend, hpend⟩)⟩
  · exact ⟨_, rp₁, bind_eq_ok.mpr ⟨_, hrefill, rfl⟩, hok, .inr (.inr ⟨rfl, hend, hpend⟩)⟩

/-! ## Blocks and lines -/

/-- The loop of `rio_readnb` takes bytes off what is pending. -/
theorem readnbLoop_eq : ∀ {fuel : ℕ} {rp : RioT} (nleft : ℕ) (got : List UInt8), rp.Ok →
    nleft < fuel →
    ∃ rp', readnbLoop fuel rp nleft got =
        .ok (if nleft ≤ rp.pending.bytes.length ∨ rp.pending.fails = false then
          some (got ++ rp.pending.bytes.take nleft) else none, rp') ∧ rp'.Ok ∧
      rp'.pending = ⟨rp.pending.bytes.drop nleft, rp.pending.fails⟩ := by
  intro fuel
  induction fuel with
  | zero => exact fun _ _ _ h => absurd h (Nat.not_lt_zero _)
  | succ fuel ih =>
    intro rp nleft got h hfuel
    rw [readnbLoop]
    split
    · next h0 =>
      subst h0
      exact ⟨rp, by simp, h, by simp⟩
    next h0 =>
    obtain ⟨r, rp₁, hread, hok, hcases⟩ := rioRead_spec h (Nat.pos_of_ne_zero h0)
    rw [hread]
    rcases hcases with ⟨bs, rfl, hne, hlen, hpend⟩ | ⟨rfl, hend, hpend⟩ | ⟨rfl, hend, hpend⟩
    · have hpos := List.length_pos_iff.mpr hne
      obtain ⟨rp', hloop, hok', hp'⟩ := ih (nleft - bs.length) (got ++ bs) hok (by omega)
      refine ⟨rp', ?_, hok', ?_⟩
      · change (if bs = [] then _ else readnbLoop fuel rp₁ (nleft - bs.length) (got ++ bs)) = _
        rw [if_neg hne, hloop, hpend]
        simp only [List.append_assoc, List.length_append, List.take_append,
          List.take_of_length_le hlen, Nat.sub_le_iff_le_add']
      · rw [hp', hpend]
        simp only [List.drop_append, List.drop_of_length_le hlen, List.nil_append]
    · refine ⟨rp₁, ?_, hok, by rw [hpend, hend, List.drop_nil]⟩
      rw [hend]
      simp only [or_true, if_true, List.take_nil, List.append_nil]
      rfl
    · refine ⟨rp₁, ?_, hok, by rw [hpend, hend, List.drop_nil]⟩
      rw [hend, if_neg (by simp [h0])]
      rfl

/-- **`Rio_readnb` over any turns** is a read on the stream. -/
theorem rioReadnb_refines (h : rp.Ok) (n : ℕ) :
    (fun r => (r.1, r.2.pending)) <$> (rioReadnb rp n >>= orExit) = rioReadn rp.pending n := by
  obtain ⟨rp', hloop, -, hpend⟩ := readnbLoop_eq n [] h (Nat.lt_succ_self n)
  rw [rioReadnb, hloop, rioReadn]
  split
  · rw [← hpend]
    rfl
  · rfl

/-- What a line read makes of a stream: the line, and the rest. -/
def lineOf (s : Stream) (left : ℕ) (got : List UInt8) : LineRead × Stream :=
  let r := takeLine left s.bytes
  let rest : Stream := ⟨r.2, s.fails⟩
  if r.1.getLast? = some 10 ∨ r.1.length = left then (.line (got ++ r.1), rest)
  else if s.fails then (.failed, rest)
  else if got ++ r.1 = [] then (.eof, rest)
  else (.line (got ++ r.1), rest)

section

variable (bytes got : List UInt8) (fails : Bool) (left : ℕ)

theorem lineOf_zero (s : Stream) : lineOf s 0 got = (.line got, s) := by
  simp only [lineOf, takeLine, List.length_nil, or_true, if_true, List.append_nil]

/-- A newline ends the line. -/
theorem lineOf_newline :
    lineOf ⟨10 :: bytes, fails⟩ (left + 1) got = (.line (got ++ [10]), ⟨bytes, fails⟩) := by
  simp only [lineOf, takeLine, if_true, List.getLast?_singleton, true_or]

/-- A byte that is no newline goes to the line. -/
theorem lineOf_cons {c : UInt8} (hc : c ≠ 10) :
    lineOf ⟨c :: bytes, fails⟩ (left + 1) got = lineOf ⟨bytes, fails⟩ left (got ++ [c]) := by
  have hlast : ((takeLine left bytes).1.getLast? = some 10 ∨
      (takeLine left bytes).1.length = left) ↔
      ((c :: (takeLine left bytes).1).getLast? = some 10 ∨
        (c :: (takeLine left bytes).1).length = left + 1) := by
    rw [List.length_cons, Nat.add_right_cancel_iff, List.getLast?_cons]
    cases hl : (takeLine left bytes).1.getLast? with
    | none => simp [hc]
    | some b => simp
  simp only [lineOf, takeLine, if_neg hc, ← hlast, List.append_assoc, List.singleton_append]

/-- At the end of the file the line is what there is, if there is anything. -/
theorem lineOf_end : lineOf ⟨[], false⟩ (left + 1) got =
    (if got = [] then .eof else .line got, ⟨[], false⟩) := by
  have hlong : ¬([].getLast? = some (10 : UInt8) ∨ ([] : List UInt8).length = left + 1) := by simp
  simp only [lineOf, takeLine, if_neg hlong, Bool.false_eq_true, if_false, List.append_nil]
  split <;> rfl

theorem lineOf_fails : lineOf ⟨[], true⟩ (left + 1) got = (.failed, ⟨[], true⟩) := by
  have hlong : ¬([].getLast? = some (10 : UInt8) ∨ ([] : List UInt8).length = left + 1) := by simp
  simp only [lineOf, takeLine, if_neg hlong, if_true]

end

/-- The loop of `rio_readlineb` takes a line off what is pending. -/
theorem readlineLoop_eq : ∀ {left : ℕ} {rp : RioT} (got : List UInt8), rp.Ok →
    ∃ rp', readlineLoop left rp got = .ok ((lineOf rp.pending left got).1, rp') ∧ rp'.Ok ∧
      rp'.pending = (lineOf rp.pending left got).2 := by
  intro left
  induction left with
  | zero =>
    intro rp got h
    rw [lineOf_zero]
    exact ⟨rp, rfl, h, rfl⟩
  | succ left ih =>
    intro rp got h
    rw [readlineLoop]
    obtain ⟨r, rp₁, hread, hok, hcases⟩ := rioRead_spec h Nat.one_pos
    rw [hread]
    rcases hcases with ⟨bs, rfl, hne, hlen, hpend⟩ | ⟨rfl, hend, hpend⟩ | ⟨rfl, hend, hpend⟩
    · obtain ⟨c, rfl⟩ : ∃ c, bs = [c] :=
        List.length_eq_one_iff.mp (Nat.le_antisymm hlen (List.length_pos_iff.mpr hne))
      rw [hpend, List.singleton_append]
      change ∃ rp', (if c = 10 then _ else readlineLoop left rp₁ (got ++ [c])) = _ ∧ _
      by_cases hc : c = 10
      · subst hc
        rw [if_pos rfl, lineOf_newline]
        exact ⟨rp₁, rfl, hok, rfl⟩
      · rw [if_neg hc, lineOf_cons _ _ _ _ hc]
        exact ih (got ++ [c]) hok
    · rw [hend, lineOf_end]
      change ∃ rp', (if got = [] then _ else _) = _ ∧ _
      refine ⟨rp₁, ?_, hok, hpend.trans hend⟩
      split <;> rfl
    · rw [hend, lineOf_fails]
      exact ⟨rp₁, rfl, hok, hpend.trans hend⟩

/-- A line and what follows it. -/
theorem takeLine_flatten (left : ℕ) (bytes : List UInt8) :
    (takeLine left bytes).1 ++ (takeLine left bytes).2 = bytes := by
  induction left generalizing bytes with
  | zero => rfl
  | succ left ih =>
    cases bytes with
    | nil => rfl
    | cons b bytes =>
      rw [takeLine]
      split
      · rfl
      · rw [List.cons_append, ih]

/-- An empty line is read at the end only. -/
theorem takeLine_eq_nil {left : ℕ} {bytes : List UInt8} (h : (takeLine left bytes).1 = [])
    (h0 : left ≠ 0) : bytes = [] ∧ (takeLine left bytes).2 = [] := by
  obtain ⟨left, rfl⟩ := Nat.exists_eq_succ_of_ne_zero h0
  cases bytes with
  | nil => exact ⟨rfl, rfl⟩
  | cons b bytes =>
    rw [takeLine] at h
    split at h <;> cases h

/-- **`Rio_readlineb` over any turns** is `Rio_readlineb` on the stream. -/
theorem rioReadlineb_refines (h : rp.Ok) (usrbuf : CStr) (maxlen : ℕ) :
    (fun r => (r.1, r.2.pending)) <$> rioReadlinebOrExit rp usrbuf maxlen =
      rioReadlineb rp.pending usrbuf maxlen := by
  obtain ⟨rp', hloop, -, hpend⟩ := readlineLoop_eq [] h
  rw [rioReadlinebOrExit, rioReadlinebUnix, hloop, rioReadlineb]
  simp only [lineOf, List.nil_append] at hpend ⊢
  split_ifs at hpend ⊢ with hcond hfails hnil
  · exact congrArg (fun p => Except.ok (_, p)) hpend
  · rfl
  · have hrest := takeLine_eq_nil hnil fun h0 => hcond (.inr (by rw [hnil, h0, List.length_nil]))
    have hall : rp'.pending = rp.pending := by
      rw [hpend, hrest.2]
      exact congrArg₂ Stream.mk hrest.1.symm rfl
    exact congrArg (fun p => Except.ok (usrbuf, p)) hall
  · exact congrArg (fun p => Except.ok (_, p)) hpend

/-- A line is read off the buffer as it is off the stream. -/
theorem RioT.Ok.readlineb_cases (h : rp.Ok) (usrbuf : CStr) (maxlen : ℕ) :
    (∃ e, rioReadlinebOrExit rp usrbuf maxlen = .error e ∧
        rioReadlineb rp.pending usrbuf maxlen = .error e) ∨
      ∃ text rp', rioReadlinebOrExit rp usrbuf maxlen = .ok (text, rp') ∧ rp'.Ok ∧
        rioReadlineb rp.pending usrbuf maxlen = .ok (text, rp'.pending) := by
  rw [← rioReadlineb_refines h usrbuf maxlen]
  cases hread : rioReadlinebOrExit rp usrbuf maxlen with
  | error e => exact .inl ⟨e, rfl, rfl⟩
  | ok r =>
    obtain ⟨text, rp'⟩ := r
    refine .inr ⟨text, rp', rfl, ?_, rfl⟩
    -- what is returned is what the loop leaves
    obtain ⟨rp₁, hloop, hok, -⟩ := readlineLoop_eq [] h
    obtain ⟨r, hr, hread⟩ := bind_eq_ok.mp hread
    cases hloop.symm.trans hr
    obtain ⟨_, -, hread⟩ := bind_eq_ok.mp hread
    cases pure_eq_ok.mp hread
    exact hok

/-- What is read off the buffer is read off the stream. -/
theorem RioT.Ok.readlineb {rp' : RioT} {usrbuf text : CStr} {maxlen : ℕ} (h : rp.Ok)
    (hread : rioReadlinebOrExit rp usrbuf maxlen = .ok (text, rp')) :
    rp'.Ok ∧ rioReadlineb rp.pending usrbuf maxlen = .ok (text, rp'.pending) := by
  rcases h.readlineb_cases usrbuf maxlen with ⟨e, herror, -⟩ | ⟨text₁, rp₁, hok, hrp, hstream⟩
  · cases herror.symm.trans hread
  · cases hok.symm.trans hread
    exact ⟨hrp, hstream⟩

theorem RioT.Ok.readlineb_returns {usrbuf text : CStr} {s : Stream} {maxlen : ℕ} (h : rp.Ok)
    (hread : rioReadlineb rp.pending usrbuf maxlen = .ok (text, s)) :
    ∃ rp', rioReadlinebOrExit rp usrbuf maxlen = .ok (text, rp') ∧ rp'.Ok ∧ rp'.pending = s := by
  rcases h.readlineb_cases usrbuf maxlen with ⟨e, -, herror⟩ | ⟨text₁, rp₁, hok, hrp, hstream⟩
  · cases herror.symm.trans hread
  · cases hstream.symm.trans hread
    exact ⟨rp₁, hok, hrp, rfl⟩

end

/-! ## Runs of calls -/

/-- The bytes that a line read has stored. -/
def LineRead.bytes : LineRead → Except Stop (List UInt8)
  | .failed => .error .exit
  | .eof => .ok []
  | .line bs => .ok bs

/-- A call of one of the wrappers. -/
inductive RioCall : Type where
  /-- `Rio_readlineb(rp, usrbuf, maxlen)` -/
  | line (maxlen : ℕ)
  /-- `Rio_readnb(rp, usrbuf, n)` -/
  | block (n : ℕ)

namespace RioCall

/-- The bytes that the call stores. -/
def run (rp : RioT) : RioCall → Except Stop (List UInt8 × RioT)
  | line maxlen => do
    let r ← rioReadlinebUnix rp maxlen
    let bs ← r.1.bytes
    pure (bs, r.2)
  | block n => rioReadnb rp n >>= orExit

/-- What the call is to store, and what it leaves on the stream. -/
def onStream (s : Stream) : RioCall → Except Stop (List UInt8 × Stream)
  | line maxlen => do
    let r := lineOf s (maxlen - 1) []
    let bs ← r.1.bytes
    pure (bs, r.2)
  | block n => rioReadn s n

/-- Calls one after another. -/
def runAll {σ : Type} (call : σ → RioCall → Except Stop (List UInt8 × σ)) :
    List RioCall → σ → Except Stop (List (List UInt8) × σ)
  | [], x => pure ([], x)
  | c :: calls, x => do
    let (bs, x) ← call x c
    let (outs, x) ← runAll call calls x
    pure (bs :: outs, x)

variable {rp : RioT} {s s' : Stream} {bs : List UInt8} {outs : List (List UInt8)}

/-- **One call** does with the buffer what it does with the stream. -/
theorem run_cases (h : rp.Ok) (c : RioCall) :
    (∃ e, run rp c = .error e ∧ onStream rp.pending c = .error e) ∨
      ∃ bs rp', run rp c = .ok (bs, rp') ∧ rp'.Ok ∧ onStream rp.pending c = .ok (bs, rp'.pending) := by
  cases c with
  | line maxlen =>
    obtain ⟨rp', hloop, hok, hpend⟩ := readlineLoop_eq [] h
    rw [run, onStream, rioReadlinebUnix, hloop]
    dsimp only [bind, Except.bind]
    cases hline : (lineOf rp.pending (maxlen - 1) []).1 with
    | failed => exact .inl ⟨.exit, rfl, rfl⟩
    | eof => exact .inr ⟨[], rp', rfl, hok, hpend ▸ rfl⟩
    | line bs => exact .inr ⟨bs, rp', rfl, hok, hpend ▸ rfl⟩
  | block n =>
    obtain ⟨rp', hloop, hok, hpend⟩ := readnbLoop_eq n [] h (Nat.lt_succ_self n)
    rw [run, onStream, rioReadnb, hloop, rioReadn]
    split
    · exact .inr ⟨_, rp', rfl, hok, hpend ▸ rfl⟩
    · exact .inl ⟨.exit, rfl, rfl⟩

/-- **A run of calls** over any turns is the run on the stream. -/
theorem runAll_refines (calls : List RioCall) (h : rp.Ok) :
    (fun r => (r.1, r.2.pending)) <$> runAll run calls rp = runAll onStream calls rp.pending := by
  induction calls generalizing rp with
  | nil => rfl
  | cons c calls ih =>
    rw [runAll, runAll]
    rcases run_cases h c with ⟨e, hcall, hstream⟩ | ⟨bs, rp', hcall, hok, hstream⟩
    · rw [hcall, hstream]
      rfl
    · rw [hcall, hstream]
      simp only [bind, Except.bind, ← ih hok]
      cases runAll run calls rp' <;> rfl

/-- What a call stores comes first on the stream; it stops only where a read fails. -/
theorem onStream_spec (s : Stream) (c : RioCall) :
    (onStream s c = .error .exit ∧ s.fails = true) ∨
      ∃ bs s', onStream s c = .ok (bs, s') ∧ bs ++ s'.bytes = s.bytes ∧ s'.fails = s.fails := by
  cases c with
  | line maxlen =>
    have hline := takeLine_flatten (maxlen - 1) s.bytes
    rw [onStream, lineOf]
    simp only [List.nil_append]
    split_ifs with hcond hfails hnil
    · exact .inr ⟨_, _, rfl, hline, rfl⟩
    · exact .inl ⟨rfl, hfails⟩
    · rw [hnil] at hline
      exact .inr ⟨_, _, rfl, hline, rfl⟩
    · exact .inr ⟨_, _, rfl, hline, rfl⟩
  | block n =>
    rw [onStream, rioReadn]
    split
    · exact .inr ⟨_, _, rfl, List.take_append_drop n s.bytes, rfl⟩
    · next h => exact .inl ⟨rfl, by simpa using (not_or.mp h).2⟩

/-- A run stores the stream in order, and stops only where a read fails. -/
theorem runAll_onStream (calls : List RioCall) (s : Stream) :
    (runAll onStream calls s = .error .exit ∧ s.fails = true) ∨
      ∃ outs s', runAll onStream calls s = .ok (outs, s') ∧
        outs.flatten ++ s'.bytes = s.bytes ∧ s'.fails = s.fails := by
  induction calls generalizing s with
  | nil => exact .inr ⟨[], s, rfl, rfl, rfl⟩
  | cons c calls ih =>
    rw [runAll]
    rcases onStream_spec s c with ⟨hcall, hfails⟩ | ⟨bs, s₁, hcall, hbytes, hfails⟩
    · rw [hcall]
      exact .inl ⟨rfl, hfails⟩
    rw [hcall]
    rcases ih s₁ with ⟨hrest, hfails₁⟩ | ⟨outs, s', hrest, hbytes', hfails'⟩
    · exact .inl ⟨by simp only [bind, Except.bind, hrest], by rw [← hfails, hfails₁]⟩
    · refine .inr ⟨bs :: outs, s', by simp only [bind, Except.bind, hrest]; rfl, ?_, ?_⟩
      · rw [List.flatten_cons, List.append_assoc, hbytes', hbytes]
      · rw [hfails', hfails]

/-- **Lines and blocks in any order**: a run of calls on a fresh `rio_t` stores the same
bytes whatever the turns are, none lost, repeated or out of order, and ends the process only
where a read of the descriptor fails. -/
theorem reads_exactly (calls : List RioCall) (fd : Source) {buf : List UInt8}
    (hsize : buf.length = rioBufsize) :
    (fun r => (r.1, r.2.pending)) <$> runAll run calls (rioReadinitb fd buf) =
        runAll onStream calls fd.stream ∧
      ((runAll run calls (rioReadinitb fd buf) = .error .exit ∧ fd.stream.fails = true) ∨
        ∃ outs rp', runAll run calls (rioReadinitb fd buf) = .ok (outs, rp') ∧
          outs.flatten ++ rp'.pending.bytes = fd.stream.bytes) := by
  obtain ⟨hok, hpend⟩ := rioReadinitb_ok fd hsize
  have hrefines := runAll_refines calls hok
  rw [hpend] at hrefines
  refine ⟨hrefines, ?_⟩
  rcases runAll_onStream calls fd.stream with ⟨hrun, hfails⟩ | ⟨outs, s', hrun, hbytes, -⟩
  · rw [hrun] at hrefines
    cases hread : runAll run calls (rioReadinitb fd buf) with
    | error e =>
      rw [hread] at hrefines
      cases hrefines
      exact .inl ⟨rfl, hfails⟩
    | ok r =>
      rw [hread] at hrefines
      cases hrefines
  · rw [hrun] at hrefines
    obtain ⟨⟨outs', rp'⟩, hread, e⟩ := map_eq_ok.mp hrefines
    cases e
    exact .inr ⟨outs', rp', hread, hbytes⟩

/-- A line and a block, from a descriptor that hands out a byte, is interrupted and then
hands out the rest. -/
theorem reads_exactly_line :
    (fun r => (r.1, r.2.pending)) <$> runAll run [.line 8, .block 2]
        (rioReadinitb ⟨⟨ascii "ab\ncd", false⟩, [.upTo 0, .interrupted]⟩
          (List.replicate rioBufsize 0)) =
      .ok ([ascii "ab\n", ascii "cd"], ⟨[], false⟩) :=
  (reads_exactly _ _ List.length_replicate).1

end RioCall

end SysProgLab
