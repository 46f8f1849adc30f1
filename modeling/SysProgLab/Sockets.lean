import Mathlib.Data.Finset.Basic
import Mathlib.Data.Fintype.EquivFin
import SysProgLab.Machine

/-!
# Whose descriptor: sockets of the proxy

`socket` and `accept` hand out the lowest descriptor that is not in use. Run by itself,
`open_clientfd` leaves open only what it returns, and frees the list of addresses, unless a
`close` fails (`openClientfd_accounts`). In the proxy many threads open and close at the
same time, call by call. Still no two of them ever hold the same descriptor, and what is
open is what somebody holds (`descriptors_owned`); so the socket that `open_listenfd` returns to
the main thread stays its own (`listenfd_stays`).
-/

namespace SysProgLab

/-- The lowest descriptor that is not open. -/
def lowest (opened : Finset ℕ) : ℕ := Nat.find (Infinite.exists_notMem_finset opened)

theorem lowest_notMem (opened : Finset ℕ) : lowest opened ∉ opened :=
  Nat.find_spec (Infinite.exists_notMem_finset opened)

/-! ## One call of `open_clientfd` or `open_listenfd` -/

/-- How `close` ends. -/
inductive CloseEnd : Type where
  /-- with 0 -/
  | succeeds
  /-- with -1; the system may have released the descriptor, or not -/
  | fails (released : Bool)

/-- The open descriptors after `close(fd)`. -/
def CloseEnd.after (c : CloseEnd) (fd : ℕ) (opened : Finset ℕ) : Finset ℕ :=
  match c with
  | .succeeds | .fails true => opened.erase fd
  | .fails false => opened

/-- What the calls for one address bring about. -/
structure Attempt : Type where
  /-- `socket` succeeds -/
  socket : Bool
  /-- `connect`, or `bind`, succeeds -/
  ready : Bool
  /-- how `close` ends -/
  close : CloseEnd

/-- The resources of the process. -/
structure Fds : Type where
  /-- the open descriptors -/
  opened : Finset ℕ
  /-- the address lists of `getaddrinfo` that have not been freed -/
  lists : ℕ
  deriving DecidableEq

/-- How the walk over the addresses ends. -/
inductive WalkEnd : Type where
  /-- with a descriptor -/
  | found (fd : ℕ)
  /-- after the last address -/
  | ended
  /-- at a `close` that fails -/
  | closeFailed
  deriving DecidableEq

/-- The loop over the addresses. -/
def walk : List Attempt → Fds → WalkEnd × Fds
  | [], s => (.ended, s)
  | a :: as, s =>
    if a.socket = false then walk as s
    else
      let fd := lowest s.opened
      let s := { s with opened := insert fd s.opened }
      if a.ready then (.found fd, s)
      else
        let s := { s with opened := a.close.after fd s.opened }
        match a.close with
        | .succeeds => walk as s
        | .fails _ => (.closeFailed, s)

/-- `open_clientfd`; there is no list of addresses when `getaddrinfo` fails. -/
def openClientfd (listp : Option (List Attempt)) (s : Fds) : ℤ × Fds :=
  match listp with
  | none => (-2, s)
  | some as =>
    match walk as { s with lists := s.lists + 1 } with
    | (.closeFailed, s) => (-1, s)
    | (.ended, s) => (-1, { s with lists := s.lists - 1 })
    | (.found fd, s) => (fd, { s with lists := s.lists - 1 })

/-- `open_listenfd`; `listens` tells whether `listen` succeeds, and `close` how the `close` after
it ends. -/
def openListenfd (listp : Option (List Attempt)) (listens : Bool) (close : CloseEnd) (s : Fds) :
    ℤ × Fds :=
  match listp with
  | none => (-2, s)
  | some as =>
    match walk as { s with lists := s.lists + 1 } with
    | (.closeFailed, s) => (-1, s)
    | (.ended, s) => (-1, { s with lists := s.lists - 1 })
    | (.found fd, s) =>
      let s := { s with lists := s.lists - 1 }
      if listens then (fd, s)
      else (-1, { s with opened := close.after fd s.opened })

/-- `close` fails. -/
def CloseEnd.failed : CloseEnd → Bool
  | .succeeds => false
  | .fails _ => true

/-- The walk goes no further than this address. -/
def Attempt.last (a : Attempt) : Bool := a.socket && (a.ready || a.close.failed)

/-- The open descriptors at the end of the walk, of which `fd` is the last one that was opened. -/
def Attempt.leaves (a : Attempt) (fd : ℕ) (opened : Finset ℕ) : Finset ℕ :=
  if a.ready then insert fd opened else a.close.after fd (insert fd opened)

/-- **The walk** ends at the first address that is last, where it leaves no other socket open than
that of this address. -/
theorem walk_eq (as : List Attempt) (s : Fds) :
    walk as s =
      match as.find? Attempt.last with
      | none => (.ended, s)
      | some a => (if a.ready then .found (lowest s.opened) else .closeFailed,
          { s with opened := a.leaves (lowest s.opened) s.opened }) := by
  induction as with
  | nil => rfl
  | cons a as ih =>
    rw [walk]
    obtain ⟨socket, ready, close⟩ := a
    cases socket with
    | false => exact ih
    | true =>
      cases ready with
      | true => rfl
      | false =>
        cases close with
        | fails released => rfl
        | succeeds =>
          have herase : (insert (lowest s.opened) s.opened).erase (lowest s.opened) = s.opened :=
            Finset.erase_insert (lowest_notMem s.opened)
          dsimp only [CloseEnd.after]
          rw [herase]
          exact ih

/-- **What one call leaves open**: the descriptor that it returns, of the first address that
takes a connection, and nothing else; but where a `close` fails, it leaves what this does of the
socket, and the list of addresses. -/
theorem openClientfd_accounts (as : List Attempt) (s : Fds) :
    openClientfd (some as) s =
      match as.find? Attempt.last with
      | none => (-1, s)
      | some a =>
        if a.ready then ((lowest s.opened : ℤ), ⟨insert (lowest s.opened) s.opened, s.lists⟩)
        else (-1, ⟨a.close.after (lowest s.opened) (insert (lowest s.opened) s.opened),
          s.lists + 1⟩) := by
  rw [openClientfd, walk_eq]
  cases as.find? Attempt.last with
  | none => rfl
  | some a => cases h : a.ready <;> simp [h, Attempt.leaves]

/-- The same of a listening socket. When `listen` fails the socket is closed again; whether
that `close` succeeds is not looked at. -/
theorem openListenfd_accounts (as : List Attempt) (listens : Bool) (close : CloseEnd) (s : Fds) :
    openListenfd (some as) listens close s =
      match as.find? Attempt.last with
      | none => (-1, s)
      | some a =>
        if a.ready then
          if listens then ((lowest s.opened : ℤ), ⟨insert (lowest s.opened) s.opened, s.lists⟩)
          else (-1, ⟨close.after (lowest s.opened) (insert (lowest s.opened) s.opened), s.lists⟩)
        else (-1, ⟨a.close.after (lowest s.opened) (insert (lowest s.opened) s.opened),
          s.lists + 1⟩) := by
  rw [openListenfd, walk_eq]
  cases as.find? Attempt.last with
  | none => rfl
  | some a => cases h : a.ready <;> cases listens <;> simp [h, Attempt.leaves]

/-- The descriptor that `open_listenfd` returns is the only one it leaves open. -/
theorem openListenfd_found {listp : Option (List Attempt)} {listens : Bool} {close : CloseEnd}
    {s s' : Fds} {fd : ℕ} (h : openListenfd listp listens close s = ((fd : ℤ), s')) :
    s'.opened = insert fd s.opened := by
  cases listp with
  | none => cases h
  | some as =>
    rw [openListenfd_accounts] at h
    split at h
    · cases h
    split at h
    · split at h
      · obtain ⟨hfd, rfl⟩ := Prod.mk.inj h
        rw [← Int.natCast_inj.mp hfd]
      · cases h
    · cases h

/-! ## Many threads -/

namespace Proxy

/-- What `handle_client` holds, and is about to do with it. A call that ends the process
when it fails is taken to succeed. -/
inductive Holder : Type where
  /-- up to `get_from_cache` -/
  | asked (connfd : ℕ)
  /-- in the loop of `open_clientfd`, before `socket` -/
  | walking (connfd : ℕ)
  /-- before `connect` -/
  | connecting (connfd clientfd : ℕ)
  /-- before the `close` in the loop -/
  | refused (connfd clientfd : ℕ)
  /-- up to `Close(clientfd)` -/
  | fetching (connfd clientfd : ℕ)
  /-- up to `Close(connfd)` -/
  | served (connfd : ℕ)
  /-- after the early return, which closes nothing -/
  | left (connfd : ℕ)
  /-- after `Close(connfd)` -/
  | done

/-- The descriptors that a thread holds. -/
def Holder.fds : Holder → List ℕ
  | asked c | walking c | served c | left c => [c]
  | connecting c d | refused c d | fetching c d => [c, d]
  | done => []

/-- What a thread is told. -/
inductive Answer : Type where
  /-- the method is not GET -/
  | notGet
  /-- the item is in the cache -/
  | hit
  /-- it is not -/
  | miss
  /-- the call succeeds -/
  | succeeds
  /-- the call fails -/
  | fails

/-- One step of a thread. -/
def Holder.step (opened : Finset ℕ) : Holder → Answer → Option (Finset ℕ × Holder)
  | asked c, .notGet => some (opened, left c)
  | asked c, .hit => some (opened, served c)
  | asked c, .miss => some (opened, walking c)
  | walking c, .succeeds => some (insert (lowest opened) opened, connecting c (lowest opened))
  | walking c, .fails => some (opened, walking c)
  | connecting c d, .succeeds => some (opened, fetching c d)
  | connecting c d, .fails => some (opened, refused c d)
  | refused c d, .succeeds => some (opened.erase d, walking c)
  | fetching c d, .succeeds => some (opened.erase d, served c)
  | served c, .succeeds => some (opened.erase c, done)
  | _, _ => none

/-- The process. -/
structure Process : Type where
  /-- the open descriptors -/
  opened : Finset ℕ
  /-- the threads that have been created -/
  threads : List Holder

/-- A step of the process. -/
inductive Deed : Type where
  /-- `Accept` and `Pthread_create` of the main thread -/
  | accept
  /-- a step of a thread -/
  | thread (i : ℕ) (a : Answer)

/-- The step of the process. -/
def Process.next (s : Process) : Deed → Option Process
  | .accept => some ⟨insert (lowest s.opened) s.opened, s.threads ++ [.asked (lowest s.opened)]⟩
  | .thread i a => do
    let h ← s.threads[i]?
    let (opened, h) ← h.step s.opened a
    some ⟨opened, s.threads.set i h⟩

/-- The process, which starts with some descriptors open: those of the standard streams and
`listenfd`. -/
def proxy (base : Finset ℕ) : Machine Process Deed where
  init s := s = ⟨base, []⟩
  step s a s' := s.next a = some s'

/-- The descriptors that threads hold. -/
def Process.held (s : Process) : List ℕ := s.threads.flatMap Holder.fds

/-- **Every descriptor has one owner**: what is open is what was open at the start and what
the list holds, each once. -/
structure Exact (base opened : Finset ℕ) (l : List ℕ) : Prop where
  nodup : l.Nodup
  fresh : ∀ fd ∈ l, fd ∉ base
  opened : ∀ fd, fd ∈ opened ↔ fd ∈ base ∨ fd ∈ l

variable {base opened opened' : Finset ℕ} {l l' : List ℕ} {d : ℕ} {h h' : Holder} {a : Answer}

theorem Exact.perm (hx : Exact base opened l) (hp : l.Perm l') : Exact base opened l' where
  nodup := hp.nodup_iff.mp hx.nodup
  fresh fd hfd := hx.fresh fd (hp.mem_iff.mpr hfd)
  opened fd := by rw [hx.opened, hp.mem_iff]

/-- A new descriptor is nobody's. -/
theorem Exact.insert (hx : Exact base opened l) :
    Exact base (insert (lowest opened) opened) (lowest opened :: l) := by
  have hnew := lowest_notMem opened
  rw [hx.opened, not_or] at hnew
  refine ⟨List.nodup_cons.mpr ⟨hnew.2, hx.nodup⟩, fun fd hfd => ?_, fun fd => ?_⟩
  · rcases List.mem_cons.mp hfd with rfl | hfd
    · exact hnew.1
    · exact hx.fresh fd hfd
  · rw [Finset.mem_insert, hx.opened, List.mem_cons]
    exact or_left_comm

/-- Only its owner closes a descriptor. -/
theorem Exact.erase (hx : Exact base opened (d :: l)) : Exact base (opened.erase d) l := by
  obtain ⟨hd, hl⟩ := List.nodup_cons.mp hx.nodup
  have hbase := hx.fresh d List.mem_cons_self
  refine ⟨hl, fun fd hfd => hx.fresh fd (List.mem_cons_of_mem d hfd), fun fd => ?_⟩
  rw [Finset.mem_erase, hx.opened, List.mem_cons]
  constructor
  · rintro ⟨hne, hfd | hfd | hfd⟩
    · exact .inl hfd
    · exact absurd hfd hne
    · exact .inr hfd
  · rintro (hfd | hfd)
    · exact ⟨fun e => hbase (e ▸ hfd), .inl hfd⟩
    · exact ⟨fun e => hd (e ▸ hfd), .inr (.inr hfd)⟩

/-- **What a thread does with descriptors**: it opens the lowest one, closes one that it holds,
or neither. -/
theorem Holder.step_cases (hs : h.step opened a = some (opened', h')) :
    (opened' = opened ∧ h'.fds = h.fds) ∨
      (opened' = Insert.insert (lowest opened) opened ∧ h'.fds.Perm (lowest opened :: h.fds)) ∨
      ∃ d, opened' = opened.erase d ∧ h.fds.Perm (d :: h'.fds) := by
  cases h <;> cases a <;> cases hs
  case asked.notGet => exact .inl ⟨rfl, rfl⟩
  case asked.hit => exact .inl ⟨rfl, rfl⟩
  case asked.miss => exact .inl ⟨rfl, rfl⟩
  case walking.succeeds c => exact .inr (.inl ⟨rfl, .swap ..⟩)
  case walking.fails => exact .inl ⟨rfl, rfl⟩
  case connecting.succeeds => exact .inl ⟨rfl, rfl⟩
  case connecting.fails => exact .inl ⟨rfl, rfl⟩
  case refused.succeeds c d => exact .inr (.inr ⟨d, rfl, .swap ..⟩)
  case fetching.succeeds c d => exact .inr (.inr ⟨d, rfl, .swap ..⟩)
  case served.succeeds c => exact .inr (.inr ⟨c, rfl, .refl _⟩)

/-- What the other threads hold stays. -/
theorem held_set (h' : Holder) : ∀ {ts : List Holder} {i : ℕ}, ts[i]? = some h →
    ∃ rest, (ts.flatMap Holder.fds).Perm (h.fds ++ rest) ∧
      ((ts.set i h').flatMap Holder.fds).Perm (h'.fds ++ rest) := by
  intro ts
  induction ts with
  | nil => exact fun hi => by cases hi
  | cons t ts ih =>
    intro i hi
    cases i with
    | zero =>
      obtain rfl : t = h := Option.some.inj hi
      exact ⟨ts.flatMap Holder.fds, .refl _, .refl _⟩
    | succ i =>
      obtain ⟨rest, hold, hnew⟩ := ih hi
      have hmove : ∀ l : List ℕ, (t.fds ++ (l ++ rest)).Perm (l ++ (t.fds ++ rest)) := fun l => by
        rw [← List.append_assoc, ← List.append_assoc]
        exact List.perm_append_comm.append_right rest
      exact ⟨t.fds ++ rest, (hold.append_left t.fds).trans (hmove _),
        (hnew.append_left t.fds).trans (hmove _)⟩

/-- **One step** keeps every descriptor with its owner. -/
theorem Exact.next {s s' : Process} {deed : Deed} (hx : Exact base s.opened s.held)
    (hs : s.next deed = some s') : Exact base s'.opened s'.held := by
  cases deed with
  | accept =>
    cases hs
    refine hx.insert.perm ?_
    rw [Process.held, Process.held, List.flatMap_append]
    exact (List.perm_append_singleton _ _).symm
  | thread i a =>
    obtain ⟨h, hi, hs⟩ := Option.bind_eq_some_iff.mp hs
    obtain ⟨⟨opened', h'⟩, hstep, hs⟩ := Option.bind_eq_some_iff.mp hs
    cases hs
    obtain ⟨rest, hold, hnew⟩ := held_set h' hi
    have hx' : Exact base s.opened (h.fds ++ rest) := hx.perm hold
    refine Exact.perm ?_ hnew.symm
    rcases Holder.step_cases hstep with ⟨rfl, hfds⟩ | ⟨rfl, hfds⟩ | ⟨d, rfl, hfds⟩
    · rw [hfds]
      exact hx'
    · exact hx'.insert.perm (hfds.append_right rest).symm
    · exact (hx'.perm (hfds.append_right rest)).erase

theorem proxy_inductive :
    (proxy base).Inductive (fun _ _ => True) fun s => Exact base s.opened s.held where
  init hs := by
    obtain rfl := hs
    exact ⟨.nil, fun fd hfd => (by cases hfd), fun fd => by simp [Process.held]⟩
  step hx _ hstep := hx.next hstep

/-- **No descriptor is shared or lost**: in every run of the proxy, whatever the order in
which the threads open and close, no two threads hold a descriptor in common, none holds one
of the main thread's, and what is open is what they hold. -/
theorem descriptors_owned {s : Process} (hs : (proxy base).Reach s) :
    Exact base s.opened s.held ∧ s.threads.Pairwise fun h h' => h.fds.Disjoint h'.fds := by
  have hx := proxy_inductive.holds hs
  exact ⟨hx, (List.nodup_flatMap.mp hx.nodup).2⟩

/-- **The listening socket** of the main thread stays open, and no thread ever holds it. -/
theorem listenfd_stays {listp : Option (List Attempt)} {listens : Bool} {close : CloseEnd}
    {f f' : Fds} {listenfd : ℕ} (hlisten : openListenfd listp listens close f = ((listenfd : ℤ), f'))
    {s : Process} (hs : (proxy f'.opened).Reach s) :
    listenfd ∈ s.opened ∧ listenfd ∉ s.held := by
  have hx := proxy_inductive.holds hs
  have hmem : listenfd ∈ f'.opened := by
    rw [openListenfd_found hlisten]
    exact Finset.mem_insert_self ..
  exact ⟨(hx.opened listenfd).mpr (.inl hmem), fun hheld => hx.fresh listenfd hheld hmem⟩

/-- Two clients are served at the same time; the second is refused a connection once. -/
def twoClients : List Deed :=
  [.accept, .accept, .thread 0 .miss, .thread 1 .miss, .thread 1 .succeeds, .thread 0 .succeeds,
    .thread 1 .fails, .thread 1 .succeeds, .thread 1 .succeeds, .thread 0 .succeeds]

theorem descriptors_owned_two : ∃ s, Machine.exec Process.next ⟨{0, 1, 2, 3}, []⟩ twoClients = some s ∧
    Exact {0, 1, 2, 3} s.opened s.held ∧ s.threads.Pairwise fun h h' => h.fds.Disjoint h'.fds := by
  obtain ⟨s, hrun⟩ : ∃ s, Machine.exec Process.next ⟨{0, 1, 2, 3}, []⟩ twoClients = some s :=
    ⟨_, rfl⟩
  have hreach : (proxy {0, 1, 2, 3}).Reach s :=
    Machine.ReachWhen.exec (fun _ _ _ hs => ⟨trivial, hs⟩) (.init rfl) hrun
  exact ⟨s, hrun, descriptors_owned hreach⟩

/-- A thread by itself walks over the addresses as `open_clientfd` does. -/
theorem walk_steps {as : List Attempt} {f f' : Fds} {c fd : ℕ}
    (hw : walk as f = (.found fd, f')) :
    ∃ answers, Machine.exec (fun p a => p.2.step p.1 a) (f.opened, Holder.walking c) answers =
      some (f'.opened, .fetching c fd) := by
  induction as generalizing f with
  | nil => cases hw
  | cons a as ih =>
    rw [walk] at hw
    split at hw
    · obtain ⟨answers, hrun⟩ := ih hw
      exact ⟨.fails :: answers, hrun⟩
    · dsimp only at hw
      split at hw
      · cases hw
        exact ⟨[.succeeds, .succeeds], rfl⟩
      · split at hw
        · next hclose =>
          obtain ⟨answers, hrun⟩ := ih hw
          rw [hclose] at hrun
          exact ⟨.succeeds :: .fails :: .succeeds :: answers, hrun⟩
        · cases hw

end Proxy

end SysProgLab
