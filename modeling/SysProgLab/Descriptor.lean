import SysProgLab.Rio

/-!
# Descriptors: the other side of `read` and `write`

A `read` returns as many bytes as the kernel likes, at least one while there are any, or
is interrupted by a signal; a `write` takes as many as it likes. What the kernel likes is
a list of turns, one for each call; after them every call moves all it can.

Over such descriptors stand the unbuffered functions of `csapp.c`, `rio_readn` and
`rio_writen`. Whatever the turns are, they compute what `Rio_readn` computes on the
stream (`rioReadn_refines`), and write what they are given (`rioWriten_eq`).
-/

namespace SysProgLab

/-- What the kernel does at a call. -/
inductive Turn : Type where
  /-- the call fails with `EINTR` -/
  | interrupted
  /-- at most `k + 1` bytes are moved -/
  | upTo (k : ℕ)
  deriving DecidableEq

/-- The most bytes that the call moves. -/
def Turn.limit (turn : Option Turn) (n : ℕ) : ℕ :=
  match turn with
  | some (.upTo k) => min n (k + 1)
  | _ => n

/-! ## Reading -/

/-- A descriptor that is read from. -/
structure Source : Type where
  /-- what is yet to come -/
  stream : Stream
  /-- what the kernel does at the next calls -/
  turns : List Turn

/-- The result of `read`. -/
inductive Got : Type where
  /-- so many bytes; none at the end of the file -/
  | bytes (bs : List UInt8)
  /-- -1 with `EINTR` -/
  | interrupted
  /-- -1 with another `errno` -/
  | failed

/-- `read(fd, buf, n)` -/
def Source.read (d : Source) (n : ℕ) : Got × Source :=
  let rest := d.turns.tail
  if d.turns.head? = some .interrupted then (.interrupted, { d with turns := rest })
  else if d.stream.bytes = [] ∧ d.stream.fails then (.failed, { d with turns := rest })
  else
    let k := Turn.limit d.turns.head? n
    (.bytes (d.stream.bytes.take k), ⟨{ d.stream with bytes := d.stream.bytes.drop k }, rest⟩)

/-- The loop of `rio_readn`: `nleft` bytes are left, `got` stands in the buffer; `none`
is -1. -/
def readnLoop : ℕ → Source → ℕ → List UInt8 → Except Stop (Option (List UInt8) × Source)
  | 0, _, _, _ => .error .hang
  | fuel + 1, d, nleft, got =>
    if nleft = 0 then .ok (some got, d)
    else
      match d.read nleft with
      | (.failed, d) => .ok (none, d)
      | (.interrupted, d) => readnLoop fuel d nleft got
      | (.bytes bs, d) =>
        if bs = [] then .ok (some got, d) else readnLoop fuel d (nleft - bs.length) (got ++ bs)

/-- `rio_readn`. Every call but the last returns a byte or uses up a turn. -/
def rioReadnUnix (d : Source) (n : ℕ) : Except Stop (Option (List UInt8) × Source) :=
  readnLoop (n + d.turns.length + 1) d n []

/-- `unix_error` unless the call has succeeded. -/
def orExit {α β : Type} (r : Option α × β) : Except Stop (α × β) :=
  match r with
  | (some a, b) => .ok (a, b)
  | (none, _) => .error .exit

/-! ## Writing -/

/-- A descriptor that is written to. -/
structure Sink : Type where
  /-- what has been written -/
  written : List UInt8
  /-- what the kernel does at the next calls -/
  turns : List Turn
  /-- the number of bytes after which a call fails -/
  room : Option ℕ

/-- The result of `write`. -/
inductive Put : Type where
  /-- so many bytes -/
  | count (k : ℕ)
  /-- -1 with `EINTR` -/
  | interrupted
  /-- -1 with another `errno` -/
  | failed

/-- `write(fd, buf, n)` -/
def Sink.write (d : Sink) (buf : List UInt8) : Put × Sink :=
  let rest := d.turns.tail
  if d.turns.head? = some .interrupted then (.interrupted, { d with turns := rest })
  else if d.room = some 0 then (.failed, { d with turns := rest })
  else
    let k := min (Turn.limit d.turns.head? buf.length) (d.room.getD buf.length)
    (.count k, ⟨d.written ++ buf.take k, rest, d.room.map (· - k)⟩)

/-- The loop of `rio_writen`; the result is that `n` bytes have been written. -/
def writenLoop : ℕ → Sink → List UInt8 → Except Stop (Bool × Sink)
  | 0, _, _ => .error .hang
  | fuel + 1, d, buf =>
    if buf = [] then .ok (true, d)
    else
      match d.write buf with
      | (.failed, d) => .ok (false, d)
      | (.interrupted, d) => writenLoop fuel d buf
      | (.count k, d) => writenLoop fuel d (buf.drop k)

/-- `rio_writen` -/
def rioWriten (d : Sink) (buf : List UInt8) : Except Stop (Bool × Sink) :=
  writenLoop (buf.length + d.turns.length + 1) d buf

/-- `Rio_writen` -/
def rioWritenOrExit (d : Sink) (buf : List UInt8) : Except Stop Sink := do
  let r ← rioWriten d buf
  ensure (r.1 = true) .exit
  pure r.2

/-! ## What the loops compute -/

theorem Turn.limit_pos (turn : Option Turn) {n : ℕ} (hn : 0 < n) :
    0 < Turn.limit turn n ∧ Turn.limit turn n ≤ n := by
  unfold Turn.limit
  split <;> omega

theorem length_tail_lt {turns : List Turn} {turn : Turn} (h : turns.head? = some turn) :
    turns.tail.length < turns.length := by
  obtain ⟨rest, rfl⟩ := List.head?_eq_some_iff.mp h
  exact Nat.lt_succ_self _

theorem length_tail_le (turns : List Turn) : turns.tail.length ≤ turns.length := by
  rw [List.length_tail]
  omega

/-- **One `read`** of at least a byte. -/
theorem Source.read_spec (d : Source) {n : ℕ} (hn : 0 < n) :
    (∃ d', d.read n = (.interrupted, d') ∧ d'.stream = d.stream ∧
        d'.turns.length < d.turns.length) ∨
      (∃ d', d.read n = (.failed, d') ∧ d'.stream = d.stream ∧
        d.stream.bytes = [] ∧ d.stream.fails = true) ∨
      ∃ bs d', d.read n = (.bytes bs, d') ∧ d.stream.bytes = bs ++ d'.stream.bytes ∧
        d'.stream.fails = d.stream.fails ∧ bs.length ≤ n ∧ d'.turns.length ≤ d.turns.length ∧
        (bs = [] → d.stream.bytes = [] ∧ d.stream.fails = false) := by
  simp only [Source.read]
  split
  · next hi => exact .inl ⟨_, rfl, rfl, length_tail_lt hi⟩
  · split
    · next hf => exact .inr (.inl ⟨_, rfl, rfl, hf.1, hf.2⟩)
    · next hf =>
      obtain ⟨hpos, hle⟩ := Turn.limit_pos d.turns.head? hn
      refine .inr (.inr ⟨_, _, rfl, (List.take_append_drop ..).symm, rfl, ?_,
        length_tail_le _, fun hnil => ?_⟩)
      · rw [List.length_take]
        omega
      · have hempty : d.stream.bytes = [] := by
          rcases List.take_eq_nil_iff.mp hnil with h0 | h0
          · omega
          · exact h0
        exact ⟨hempty, by simpa [hempty] using hf⟩

/-- The loop of `rio_readn` does not depend on the turns. -/
theorem readnLoop_eq : ∀ {fuel : ℕ} (d : Source) (nleft : ℕ) (got : List UInt8),
    nleft + d.turns.length < fuel →
    ∃ d', readnLoop fuel d nleft got =
        .ok (if nleft ≤ d.stream.bytes.length ∨ d.stream.fails = false then
          some (got ++ d.stream.bytes.take nleft) else none, d') ∧
      d'.stream = ⟨d.stream.bytes.drop nleft, d.stream.fails⟩ := by
  intro fuel
  induction fuel with
  | zero => exact fun _ _ _ h => absurd h (Nat.not_lt_zero _)
  | succ fuel ih =>
    intro d nleft got hfuel
    rw [readnLoop]
    split
    · next h0 =>
      subst h0
      exact ⟨d, by simp, by simp⟩
    next h0 =>
    rcases d.read_spec (Nat.pos_of_ne_zero h0) with
      ⟨d₁, hread, hstream, hturns⟩ | ⟨d₁, hread, hstream, hnil, hfails⟩ |
      ⟨bs, d₁, hread, hbytes, hfails, hlen, hturns, hend⟩
    · rw [hread, ← hstream]
      exact ih d₁ nleft got (by omega)
    · rw [hread]
      refine ⟨d₁, ?_, by rw [hstream, hnil, List.drop_nil, ← hnil]⟩
      rw [if_neg (by rw [hnil, hfails, List.length_nil]; simp [h0])]
    · rw [hread]
      dsimp only
      split
      · next hbs =>
        obtain ⟨hnil, hf⟩ := hend hbs
        subst hbs
        rw [List.nil_append] at hbytes
        refine ⟨d₁, by simp [hnil, hf], ?_⟩
        rw [hnil, List.drop_nil]
        cases hd : d₁.stream
        rw [hd] at hbytes hfails
        rw [hnil] at hbytes
        dsimp only at hbytes hfails
        rw [← hbytes, hfails]
      · next hbs =>
        have hpos := List.length_pos_iff.mpr hbs
        obtain ⟨d', hd', hs'⟩ := ih d₁ (nleft - bs.length) (got ++ bs) (by omega)
        refine ⟨d', ?_, ?_⟩
        · simp only [hd', hfails, hbytes, List.append_assoc, List.length_append, List.take_append,
            List.take_of_length_le hlen, Nat.sub_le_iff_le_add']
        · rw [hs', hfails, hbytes, List.drop_append, List.drop_of_length_le hlen,
            List.nil_append]

/-- **`Rio_readn` over any turns** is `Rio_readn` on the stream: how the bytes arrive makes
no difference. -/
theorem rioReadn_refines (d : Source) (n : ℕ) :
    (fun r => (r.1, r.2.stream)) <$> (rioReadnUnix d n >>= orExit) = rioReadn d.stream n := by
  obtain ⟨d', hloop, hstream⟩ := readnLoop_eq d n [] (Nat.lt_succ_self _)
  rw [rioReadnUnix, hloop, rioReadn]
  split
  · rw [← hstream]
    rfl
  · rfl

/-- What `Rio_readn` returns comes first on the stream. -/
theorem rioReadn_append {s s' : Stream} {n : ℕ} {data : List UInt8}
    (h : rioReadn s n = .ok (data, s')) :
    s.bytes = data ++ s'.bytes ∧ s'.fails = s.fails ∧ (0 < n → data = [] → s.bytes = []) := by
  rw [rioReadn] at h
  split at h
  · cases h
    refine ⟨(List.take_append_drop n s.bytes).symm, rfl, fun hn hnil => ?_⟩
    exact (List.take_eq_nil_iff.mp hnil).resolve_left (Nat.pos_iff_ne_zero.mp hn)
  · cases h

/-- **One `write`** of at least a byte. -/
theorem Sink.write_spec (d : Sink) {buf : List UInt8} (hne : buf ≠ []) :
    (∃ d', d.write buf = (.interrupted, d') ∧ d'.written = d.written ∧ d'.room = d.room ∧
        d'.turns.length < d.turns.length) ∨
      (∃ d', d.write buf = (.failed, d') ∧ d'.written = d.written ∧ d'.room = d.room ∧
        d.room = some 0) ∨
      ∃ k d', d.write buf = (.count k, d') ∧ d'.written = d.written ++ buf.take k ∧
        d'.room = d.room.map (· - k) ∧ 0 < k ∧ k ≤ buf.length ∧ (∀ r ∈ d.room, k ≤ r) ∧
        d'.turns.length ≤ d.turns.length := by
  simp only [Sink.write]
  split
  · next hi => exact .inl ⟨_, rfl, rfl, rfl, length_tail_lt hi⟩
  · split
    · next hf => exact .inr (.inl ⟨_, rfl, rfl, rfl, hf⟩)
    · next hf =>
      obtain ⟨hpos, hle⟩ := Turn.limit_pos d.turns.head? (List.length_pos_iff.mpr hne)
      refine .inr (.inr ⟨_, _, rfl, rfl, rfl, ?_, ?_, ?_, length_tail_le _⟩)
      · cases hroom : d.room with
        | none =>
          rw [Option.getD_none]
          omega
        | some r =>
          have hr : r ≠ 0 := fun h0 => hf (by rw [hroom, h0])
          rw [Option.getD_some]
          omega
      · omega
      · intro r hr
        rw [Option.mem_def.mp hr, Option.getD_some]
        omega

/-- So many of `n` bytes find room. -/
def Sink.fits (d : Sink) (n : ℕ) : ℕ := d.room.elim n (min n)

/-- The loop of `rio_writen` does not depend on the turns. -/
theorem writenLoop_eq : ∀ {fuel : ℕ} (d : Sink) (buf : List UInt8),
    buf.length + d.turns.length < fuel →
    ∃ d', writenLoop fuel d buf = .ok (decide (d.fits buf.length = buf.length), d') ∧
      d'.written = d.written ++ buf.take (d.fits buf.length) ∧
      d'.room = d.room.map (· - d.fits buf.length) := by
  intro fuel
  induction fuel with
  | zero => exact fun _ _ h => absurd h (Nat.not_lt_zero _)
  | succ fuel ih =>
    intro d buf hfuel
    rw [writenLoop]
    split
    · next hnil =>
      subst hnil
      have h0 : d.fits ([] : List UInt8).length = 0 := by
        rw [Sink.fits, List.length_nil]
        cases d.room with
        | none => rfl
        | some r => exact Nat.zero_min r
      refine ⟨d, by rw [h0]; rfl, by rw [h0]; simp, ?_⟩
      rw [h0]
      cases d.room <;> rfl
    next hne =>
    rcases d.write_spec hne with ⟨d₁, hwrite, hwritten, hroom, hturns⟩ |
      ⟨d₁, hwrite, hwritten, hroom, hfull⟩ |
      ⟨k, d₁, hwrite, hwritten, hroom, hpos, hle, hfit, hturns⟩
    · rw [hwrite]
      have hfits : d₁.fits buf.length = d.fits buf.length := by rw [Sink.fits, hroom, Sink.fits]
      rw [← hwritten, ← hroom, ← hfits]
      exact ih d₁ buf (by omega)
    · rw [hwrite]
      have hlen := List.length_pos_iff.mpr hne
      have h0 : d.fits buf.length = 0 := by
        rw [Sink.fits, hfull]
        exact Nat.min_zero _
      refine ⟨d₁, ?_, by rw [h0, hwritten]; simp, by rw [h0, hroom, hfull]; rfl⟩
      rw [h0, decide_eq_false (by omega)]
    · rw [hwrite]
      dsimp only
      obtain ⟨d', hd', hw', hr'⟩ := ih d₁ (buf.drop k) (by
        rw [List.length_drop]
        omega)
      have hfits : d.fits buf.length = k + d₁.fits (buf.drop k).length := by
        rw [Sink.fits, Sink.fits, hroom, List.length_drop]
        cases hdr : d.room with
        | none =>
          simp only [Option.map_none, Option.elim_none]
          omega
        | some r =>
          have hkr := hfit r hdr
          simp only [Option.map_some, Option.elim_some]
          omega
      refine ⟨d', ?_, ?_, ?_⟩
      · rw [hd', hfits, List.length_drop]
        congr 3
        simp only [eq_iff_iff]
        omega
      · rw [hw', hwritten, hfits, List.append_assoc, List.take_add]
      · rw [hr', hroom, hfits, Option.map_map]
        congr 1
        funext r
        exact Nat.sub_sub ..

/-- There is room for `n` bytes. -/
def Sink.Fits (d : Sink) (n : ℕ) : Prop := ∀ r ∈ d.room, n ≤ r

/-- **The bytes have been written**, and nothing else. -/
structure Sink.Took (bs : List UInt8) (d d' : Sink) : Prop where
  fits : d.Fits bs.length
  written : d'.written = d.written ++ bs
  room : d'.room = d.room.map (· - bs.length)

theorem Sink.fits_eq_iff {d : Sink} {n : ℕ} : d.fits n = n ↔ d.Fits n := by
  rw [Sink.fits, Sink.Fits]
  cases d.room with
  | none => simp
  | some r => simp

theorem Sink.Took.nil (d : Sink) : d.Took [] d where
  fits _ _ := Nat.zero_le _
  written := (List.append_nil _).symm
  room := by cases h : d.room <;> rfl

theorem Sink.Took.append {a b : List UInt8} {d d' d'' : Sink} (h : d.Took a d')
    (h' : d'.Took b d'') : d.Took (a ++ b) d'' where
  fits r hr := by
    have ha := h.fits r hr
    have hb := h'.fits (r - a.length) (by rw [h.room, Option.mem_def.mp hr]; rfl)
    rw [List.length_append]
    omega
  written := by rw [h'.written, h.written, List.append_assoc]
  room := by
    rw [h'.room, h.room, Option.map_map, List.length_append]
    congr 1
    funext r
    exact Nat.sub_sub ..

/-- What is left has room for the rest. -/
theorem Sink.Took.fits_rest {a b : List UInt8} {d d' : Sink} (h : d.Took a d')
    (hfits : d.Fits (a ++ b).length) : d'.Fits b.length := by
  intro r hr
  rw [h.room] at hr
  obtain ⟨r₀, hr₀, rfl⟩ := Option.mem_map.mp hr
  have := hfits r₀ hr₀
  rw [List.length_append] at this
  omega

theorem Sink.Fits.left {d : Sink} {a b : List UInt8} (h : d.Fits (a ++ b).length) :
    d.Fits a.length := fun r hr => by
  have := h r hr
  rw [List.length_append] at this
  omega

/-- **`Rio_writen` over any turns** writes every byte exactly once and in order, if there
is room for all; else the process ends. -/
theorem rioWriten_eq (d : Sink) (buf : List UInt8) :
    (d.Fits buf.length → ∃ d', rioWritenOrExit d buf = .ok d' ∧ d.Took buf d') ∧
      (¬d.Fits buf.length → rioWritenOrExit d buf = .error .exit) := by
  obtain ⟨d', hloop, hwritten, hroom⟩ := writenLoop_eq d buf (Nat.lt_succ_self _)
  constructor
  · intro hfits
    rw [Sink.fits_eq_iff.mpr hfits] at hwritten hroom
    rw [decide_eq_true (Sink.fits_eq_iff.mpr hfits)] at hloop
    rw [List.take_length] at hwritten
    exact ⟨d', bind_eq_ok.mpr ⟨_, hloop, bind_eq_ok.mpr ⟨⟨⟩, ensure_eq_ok.mpr rfl, rfl⟩⟩,
      hfits, hwritten, hroom⟩
  · intro hfits
    rw [decide_eq_false fun h => hfits (Sink.fits_eq_iff.mp h)] at hloop
    exact bind_eq_error.mpr (.inr ⟨_, hloop,
      bind_eq_error.mpr (.inl (ensure_eq_error.mpr ⟨Bool.false_ne_true, rfl⟩))⟩)

/-- What `Rio_writen` has written when it returns. -/
theorem rioWriten_took {d d' : Sink} {buf : List UInt8} (h : rioWritenOrExit d buf = .ok d') :
    d.Took buf d' := by
  by_cases hfits : d.Fits buf.length
  · obtain ⟨d₁, hok, htook⟩ := (rioWriten_eq d buf).1 hfits
    cases hok.symm.trans h
    exact htook
  · cases ((rioWriten_eq d buf).2 hfits).symm.trans h

end SysProgLab
