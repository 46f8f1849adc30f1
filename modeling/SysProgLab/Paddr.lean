import SysProgLab.Ptree

/-!
# Physical addresses: `dbfs_paddr.c`

A packet with a pid and a virtual address is read through the file `output`; the module fills
in the physical address. The walk over the page tables belongs to the kernel and is a
parameter. A read gives back what was copied in with the answer over it, from the position of
the file on, so an open file answers one packet and leaves all later ones as they are
(`replay_answers`).
-/

namespace SysProgLab

/-! ## Numbers in memory -/

/-- The lowest `k` bytes of a number, the lowest of them first. -/
def leBytes : ℕ → ℕ → List UInt8
  | 0, _ => []
  | k + 1, n => UInt8.ofNat n :: leBytes k (n / 256)

/-- The number that some bytes stand for. -/
def leValue : List UInt8 → ℕ
  | [] => 0
  | b :: bs => b.toNat + 256 * leValue bs

@[simp] theorem length_leBytes (k n : ℕ) : (leBytes k n).length = k := by
  induction k generalizing n with
  | zero => rfl
  | succ k ih => rw [leBytes, List.length_cons, ih]

/-- **The bytes are read back.** -/
theorem leValue_leBytes (k n : ℕ) : leValue (leBytes k n) = n % 256 ^ k := by
  induction k generalizing n with
  | zero => rw [leBytes, leValue, Nat.pow_zero, Nat.mod_one]
  | succ k ih =>
    have hbyte : (UInt8.ofNat n).toNat = n % 256 := UInt8.toNat_ofNat'
    rw [leBytes, leValue, ih, hbyte, Nat.pow_succ', Nat.mod_mul]

theorem ofNat_leBytes {w k : ℕ} (hk : 256 ^ k = 2 ^ w) (x : BitVec w) :
    BitVec.ofNat w (leValue (leBytes k x.toNat)) = x := by
  rw [leValue_leBytes, hk, Nat.mod_eq_of_lt x.isLt, BitVec.ofNat_toNat, BitVec.setWidth_eq]

/-! ## Packets -/

/-- `struct packet`, with the four bytes between `pid` and `vaddr` -/
structure Packet : Type where
  /-- `pid` -/
  pid : BitVec 32
  /-- the padding -/
  pad : BitVec 32
  /-- `vaddr` -/
  vaddr : BitVec 64
  /-- `paddr` -/
  paddr : BitVec 64
  deriving DecidableEq

namespace Packet

/-- `sizeof(struct packet)` -/
abbrev size : ℕ := 24

/-- The packet in memory. -/
def bytes (p : Packet) : List UInt8 :=
  leBytes 4 p.pid.toNat ++ leBytes 4 p.pad.toNat ++ leBytes 8 p.vaddr.toNat ++
    leBytes 8 p.paddr.toNat

/-- The packet at the start of some memory. -/
def ofBytes (bs : List UInt8) : Packet where
  pid := BitVec.ofNat 32 (leValue (bs.take 4))
  pad := BitVec.ofNat 32 (leValue ((bs.drop 4).take 4))
  vaddr := BitVec.ofNat 64 (leValue ((bs.drop 8).take 8))
  paddr := BitVec.ofNat 64 (leValue ((bs.drop 16).take 8))

/-- The part of the packet before `paddr`. -/
def front (p : Packet) : List UInt8 :=
  leBytes 4 p.pid.toNat ++ leBytes 4 p.pad.toNat ++ leBytes 8 p.vaddr.toNat

variable (p : Packet) (rest : List UInt8)

theorem length_front : p.front.length = 16 := by
  simp only [front, List.length_append, length_leBytes]

theorem length_bytes : p.bytes.length = size := by
  simp only [bytes, List.length_append, length_leBytes]

theorem bytes_eq : p.bytes = p.front ++ leBytes 8 p.paddr.toNat := rfl

/-- **The packet is read back**, whatever comes after it. -/
theorem ofBytes_bytes : ofBytes (p.bytes ++ rest) = p := by
  have hpid : (p.bytes ++ rest).take 4 = leBytes 4 p.pid.toNat := by
    simp only [bytes, List.append_assoc]
    exact List.take_left' (length_leBytes ..)
  have hpad : ((p.bytes ++ rest).drop 4).take 4 = leBytes 4 p.pad.toNat := by
    simp only [bytes, List.append_assoc]
    rw [List.drop_left' (length_leBytes ..), List.take_left' (length_leBytes ..)]
  have hvaddr : ((p.bytes ++ rest).drop 8).take 8 = leBytes 8 p.vaddr.toNat := by
    have hsplit : p.bytes ++ rest = (leBytes 4 p.pid.toNat ++ leBytes 4 p.pad.toNat) ++
        (leBytes 8 p.vaddr.toNat ++ (leBytes 8 p.paddr.toNat ++ rest)) := by
      simp only [bytes, List.append_assoc]
    rw [hsplit, List.drop_left' (by rw [List.length_append, length_leBytes, length_leBytes]),
      List.take_left' (length_leBytes ..)]
  have hpaddr : ((p.bytes ++ rest).drop 16).take 8 = leBytes 8 p.paddr.toNat := by
    rw [bytes_eq, List.append_assoc, List.drop_left' p.length_front,
      List.take_left' (length_leBytes ..)]
  rw [ofBytes, hpid, hpad, hvaddr, hpaddr, ofNat_leBytes (by decide), ofNat_leBytes (by decide),
    ofNat_leBytes (by decide), ofNat_leBytes (by decide)]

theorem ofBytes_self : ofBytes p.bytes = p := by
  have hback := p.ofBytes_bytes []
  rwa [List.append_nil] at hback

/-- A store over `paddr`. -/
theorem store_paddr (x : BitVec 64) :
    (p.bytes ++ rest).take 16 ++ leBytes 8 x.toNat ++ (p.bytes ++ rest).drop 24 =
      { p with paddr := x }.bytes ++ rest := by
  rw [List.drop_left' p.length_bytes, bytes_eq, List.append_assoc p.front,
    List.take_left' p.length_front, bytes_eq]
  rfl

end Packet

/-! ## The module -/

namespace Paddr

/-- `MAXLEN` -/
abbrev maxLen : ℕ := 100

/-- What the page tables have for a process and a virtual address: `pte_pfn` of the entry that
the walk ends at. There is none when a pointer on the way is null or invalid. -/
abbrev PageTables := BitVec 32 → BitVec 64 → Option (BitVec 64)

/-- `(pfn << 12) + vaddr % 4096` -/
def physical (pfn vaddr : BitVec 64) : BitVec 64 := (pfn <<< 12) + vaddr % 4096

/-- `read_output` on a buffer that holds `user`; the array `copied` has the bytes of `stack` at
first.
The results are the buffer, what is returned, and the new position of the file. -/
def readOutput (pages : PageTables) (stack user : List UInt8) (length position : ℕ) :
    Option (List UInt8 × ℕ × ℕ) := do
  let lengthCopied := if maxLen < length then maxLen else length
  let copied := user.take lengthCopied ++ stack.drop lengthCopied
  let inputPid := BitVec.ofNat 32 (leValue (copied.take 4))
  let vaddr := BitVec.ofNat 64 (leValue ((copied.drop 8).take 8))
  let pfn ← pages inputPid vaddr
  let copied := copied.take 16 ++ leBytes 8 (physical pfn vaddr).toNat ++ copied.drop 24
  let r := Ptree.simpleReadFromBuffer length position copied lengthCopied
  some (r.1 ++ user.drop r.1.length, r.1.length, r.2)

variable {pages : PageTables} {stack user rest : List UInt8} {p : Packet} {pfn : BitVec 64}
  {length position : ℕ}

/-- **The address in the page frame**, when frame numbers have 52 bits. -/
theorem physical_toNat {vaddr : BitVec 64} (h : pfn.toNat < 2 ^ 52) :
    (physical pfn vaddr).toNat = pfn.toNat * 4096 + vaddr.toNat % 4096 := by
  have hoffset : vaddr.toNat % 4096 < 4096 := Nat.mod_lt _ (by decide)
  rw [physical, BitVec.toNat_add, BitVec.toNat_shiftLeft, BitVec.toNat_umod, Nat.shiftLeft_eq]
  have hpage : (4096 : BitVec 64).toNat = 4096 := rfl
  rw [hpage]
  omega

/-- The packet with the answer. -/
def answered (p : Packet) (pfn : BitVec 64) : Packet := { p with paddr := physical pfn p.vaddr }

/-- **What is copied back**, when the packet is at the start of the buffer. -/
theorem readOutput_packet (hsize : Packet.size ≤ length) (hp : pages p.pid p.vaddr = some pfn) :
    readOutput pages stack (p.bytes ++ rest) length position =
      let r := Ptree.simpleReadFromBuffer length position ((answered p pfn).bytes ++
        (rest.take (min length maxLen - Packet.size) ++ stack.drop (min length maxLen)))
        (min length maxLen)
      some (r.1 ++ (p.bytes ++ rest).drop r.1.length, r.1.length, r.2) := by
  have hcopied : (if maxLen < length then maxLen else length) = min length maxLen := by
    rw [Nat.min_def]
    split <;> split <;> omega
  have hlen : Packet.size ≤ min length maxLen := Nat.le_min.mpr ⟨hsize, by decide⟩
  have htake : (p.bytes ++ rest).take (min length maxLen) ++ stack.drop (min length maxLen) =
      p.bytes ++ (rest.take (min length maxLen - Packet.size) ++ stack.drop (min length maxLen)) := by
    rw [List.take_append, List.take_of_length_le (by rw [p.length_bytes]; exact hlen),
      p.length_bytes, List.append_assoc]
  have hback := Packet.ofBytes_bytes p
    (rest.take (min length maxLen - Packet.size) ++ stack.drop (min length maxLen))
  have hpid := congrArg Packet.pid hback
  have hvaddr := congrArg Packet.vaddr hback
  dsimp only [Packet.ofBytes] at hpid hvaddr
  rw [readOutput, hcopied, htake, hpid, hvaddr, hp, Option.bind_eq_bind, Option.bind_some,
    Packet.store_paddr]
  rfl

/-- **The first read of a file** answers the packet and changes nothing else. -/
theorem readOutput_first (hsize : Packet.size ≤ length) (hlength : length ≤ Packet.size + rest.length)
    (hp : pages p.pid p.vaddr = some pfn) :
    readOutput pages stack (p.bytes ++ rest) length 0 =
      some ((answered p pfn).bytes ++ rest, min length maxLen, min length maxLen) := by
  have hlen : Packet.size ≤ min length maxLen := Nat.le_min.mpr ⟨hsize, by decide⟩
  obtain ⟨n, hn⟩ := Nat.exists_eq_add_of_le hlen
  have hrest : (rest.take n).length = n := by
    rw [List.length_take]
    omega
  have hcount : min length (min length maxLen - 0) = Packet.size + n := by
    rw [Nat.sub_zero, ← hn]
    omega
  have hgiven : ((answered p pfn).bytes ++ rest.take n).length = Packet.size + n := by
    rw [List.length_append, Packet.length_bytes, hrest]
  have hsome : ¬(min length maxLen ≤ 0 ∨ length = 0) := by
    have hpos : 0 < Packet.size := by decide
    omega
  rw [readOutput_packet hsize hp, Ptree.simpleReadFromBuffer, if_neg hsome, hcount, hn,
    Nat.add_sub_cancel_left, List.drop_zero, ← List.append_assoc, List.take_left' hgiven,
    Nat.zero_add]
  have hdrop : p.bytes.drop (Packet.size + n) = [] := by
    refine List.drop_of_length_le ?_
    rw [p.length_bytes]
    exact Nat.le_add_right ..
  dsimp only
  rw [hgiven, List.drop_append, hdrop, p.length_bytes, Nat.add_sub_cancel_left, List.nil_append, List.append_assoc,
    List.take_append_drop]

/-- **A later read** changes nothing, and returns 0. -/
theorem readOutput_later (hsize : Packet.size ≤ length) (hpos : min length maxLen ≤ position)
    (hp : pages p.pid p.vaddr = some pfn) :
    readOutput pages stack (p.bytes ++ rest) length position = some (p.bytes ++ rest, 0, position) := by
  rw [readOutput_packet hsize hp, Ptree.simpleReadFromBuffer, if_pos (.inl hpos)]
  rfl

/-- The first read of one packet. -/
theorem read_once (stack : List UInt8) (hp : pages p.pid p.vaddr = some pfn) :
    readOutput pages stack p.bytes Packet.size 0 =
      some ((answered p pfn).bytes, Packet.size, Packet.size) := by
  have hread : readOutput pages stack (p.bytes ++ []) Packet.size 0 = _ :=
    readOutput_first le_rfl le_rfl hp
  rwa [List.append_nil, List.append_nil] at hread

/-- A later one. -/
theorem read_again (stack : List UInt8) (hp : pages p.pid p.vaddr = some pfn) :
    readOutput pages stack p.bytes Packet.size Packet.size = some (p.bytes, 0, Packet.size) := by
  have hread : readOutput pages stack (p.bytes ++ []) Packet.size Packet.size = _ :=
    readOutput_later le_rfl (by decide) hp
  rwa [List.append_nil] at hread

/-! ## Runs -/

/-- The call `read(fd, &pckt, sizeof(struct packet))`, on an open file. -/
structure Call : Type where
  /-- which of the open files -/
  file : ℕ
  /-- the packet -/
  pckt : Packet
  /-- the page tables at the time of the call -/
  pages : PageTables
  /-- the bytes that are on the stack of the kernel -/
  stack : List UInt8

/-- What the calls return, and the packets after them; `position` has the positions of the open
files. -/
def replay : (ℕ → ℕ) → List Call → Option (List (ℕ × Packet))
  | _, [] => some []
  | position, c :: calls => do
    let (user, ret, pos) ← readOutput c.pages c.stack c.pckt.bytes Packet.size (position c.file)
    let rest ← replay (Function.update position c.file pos) calls
    some ((ret, Packet.ofBytes user) :: rest)

/-- The call has an answer: there is a page for its packet. -/
def Call.answer (c : Call) : Option Packet := (c.pages c.pckt.pid c.pckt.vaddr).map (answered c.pckt)

/-- What they should return, after calls on the files `used`. -/
def answers : List ℕ → List Call → List (ℕ × Packet)
  | _, [] => []
  | used, c :: calls =>
    (if c.file ∈ used then (0, c.pckt) else (Packet.size, c.answer.getD c.pckt)) ::
      answers (c.file :: used) calls

/-- The positions of the files after calls on those that are used. -/
def Positions (position : ℕ → ℕ) (used : List ℕ) : Prop :=
  ∀ file, position file = if file ∈ used then Packet.size else 0

theorem Positions.update {position : ℕ → ℕ} {used : List ℕ} (h : Positions position used)
    (file : ℕ) : Positions (Function.update position file Packet.size) (file :: used) := by
  intro file'
  by_cases he : file' = file
  · rw [he, Function.update_self, if_pos List.mem_cons_self]
  · rw [Function.update_of_ne he, h file']
    exact if_congr (by rw [List.mem_cons, or_iff_right he]) rfl rfl

/-- **An open file answers one packet**: in any run of reads of packets whose addresses have
pages when they are read, the first read on each file fills in the physical address, and every
later one returns 0 and leaves the packet as it is, whatever is on the stack of the kernel and
however the page tables change between the reads. -/
theorem replay_answers {calls : List Call}
    (h : ∀ c ∈ calls, c.pages c.pckt.pid c.pckt.vaddr ≠ none) :
    replay (fun _ => 0) calls = some (answers [] calls) := by
  have hall : ∀ (calls : List Call) (position : ℕ → ℕ) (used : List ℕ), Positions position used →
      (∀ c ∈ calls, c.pages c.pckt.pid c.pckt.vaddr ≠ none) →
      replay position calls = some (answers used calls) := by
    intro calls
    induction calls with
    | nil => exact fun _ _ _ _ => rfl
    | cons c calls ih =>
      intro position used hpos h
      obtain ⟨pfn, hpfn⟩ := Option.ne_none_iff_exists'.mp (h c List.mem_cons_self)
      have hrest := ih _ _ (hpos.update c.file) fun d hd => h d (List.mem_cons_of_mem c hd)
      rw [replay, hpos c.file, answers]
      by_cases hused : c.file ∈ used
      · have hread := read_again c.stack hpfn
        rw [if_pos hused, if_pos hused, hread, Option.bind_eq_bind, Option.bind_some]
        dsimp only
        rw [hrest, Packet.ofBytes_self]
        rfl
      · have hread := read_once c.stack hpfn
        rw [if_neg hused, if_neg hused, hread, Option.bind_eq_bind, Option.bind_some]
        dsimp only
        rw [hrest, Packet.ofBytes_self, Call.answer, hpfn]
        rfl
  exact hall calls _ [] (fun _ => (if_neg List.not_mem_nil).symm) h

/-- One page frame for all addresses. -/
def oneFrame (pfn : BitVec 64) : PageTables := fun _ _ => some pfn

/-- A packet with an address. -/
def asking (vaddr : BitVec 64) : Packet := ⟨100, 0, vaddr, 0⟩

/-- The second packet on the first file has no answer, and the page has moved before the third. -/
theorem replay_answers_two : replay (fun _ => 0)
    [⟨0, asking 0x7f123, oneFrame 0x2012345, List.replicate 100 1⟩,
      ⟨0, asking 0x7f456, oneFrame 0x2012345, List.replicate 100 2⟩,
      ⟨1, asking 0x7f456, oneFrame 0x2099999, List.replicate 100 3⟩] =
      some [(24, { asking 0x7f123 with paddr := 0x2012345123 }), (0, asking 0x7f456),
        (24, { asking 0x7f456 with paddr := 0x2099999456 })] := by
  refine (replay_answers fun c hc => ?_).trans ?_
  · simp only [List.mem_cons, List.not_mem_nil, or_false] at hc
    rcases hc with rfl | rfl | rfl <;> exact Option.some_ne_none _
  · decide +kernel

end Paddr

end SysProgLab
