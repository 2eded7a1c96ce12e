import EmbeddedOS.FinalProject.Accept

open Unix

namespace Parking

-- A child has the connection `o` that it was forked for open, if there is one, and the bytes that
-- have come on it. The other connections that it has open are those whose `fork` has failed.
structure Received.Serves (m : Acceptor) (o : Option ℕ) (r : Received) : Prop where
  known : ∀ j ∈ o, j < m.inbox.length
  held  : r.table.file? r.connfd = o.map .connection
  text  : r.ipBuf = received ((o.bind (m.inbox[·]?)).getD [])
  only  : ∀ {k j}, r.table.file? k = some (.connection j) → k = r.connfd ∨ j ∈ m.failed

namespace Acceptor

-- The connections that the loop has passed on or lost.
def done (m : Acceptor) : List ℕ :=
  m.served.reduceOption ++ m.failed

structure Orderly (m : Acceptor) (n : ℕ) : Prop where
  children : m.served.length = n
  done     : m.pc ≠ .fork → m.pc ≠ .exited → m.done.Perm (.range m.inbox.length)
  fork     : m.pc = .fork → (m.done ++ m.current?.toList).Perm (.range m.inbox.length)
  recv     : m.pc = .recv → ∀ j ∈ m.current?, j = m.inbox.length
  text     : m.pc = .fork → m.ipBuf = received ((m.current?.bind (m.inbox[·]?)).getD [])
  -- The descriptor `connfd` is used only while it is open on the current connection.
  held     : m.pc ≠ .accept → m.table.file? m.connfd = m.current?.map .connection
  fresh    : m.pc ≠ .accept → ∀ j ∈ m.current?, j ∉ m.failed
  only     : ∀ {k j}, m.table.file? k = some (.connection j) →
    j ∈ m.failed ∨ (m.pc ≠ .accept ∧ k = m.connfd)
  leaked   : m.pc ≠ .exited → ∀ j ∈ m.failed, ∃ k, m.table.file? k = some (.connection j)

variable {m m' : Acceptor} {n j : ℕ} {x : Input} {o : Option Received}

-- The ways through the loop.
inductive Move (m : Acceptor) : Input → Acceptor → Option Received → Prop
  | acceptOk (hpc : m.pc = .accept) :
    Move m (.accept true) { m with
      table  := m.table.install (.connection m.inbox.length)
      connfd := m.table.lowest
      pc     := .recv } none
  | acceptFailed (hpc : m.pc = .accept) :
    Move m (.accept false) { m with connfd := -1, pc := .recv } none
  | recvOk {bytes} (hpc : m.pc = .recv) (hc : m.current?.isSome) :
    Move m (.recv bytes)
      { m with ipBuf := received bytes, pc := .fork, inbox := m.inbox ++ [bytes] } none
  | recvFailed {bytes} (hpc : m.pc = .recv) (hc : ¬m.current?.isSome) :
    Move m (.recv bytes) { m with ipBuf := received [], pc := .fork } none
  | forkOk (hpc : m.pc = .fork) :
    Move m (.fork true) { m with pc := .close, served := m.served ++ [m.current?] } m.forked
  | forkFailed (hpc : m.pc = .fork) :
    Move m (.fork false) { m with pc := .accept, failed := m.failed ++ m.current?.toList } none
  | close (hpc : m.pc = .close) :
    Move m .close { m with table := m.table.close m.connfd, pc := .accept } none
  | sigint : Move m .sigint { m with table := [], pc := .exited } none

theorem Move.of_step (hs : m.step x = some (m', o)) : Move m x m' o := by
  cases x
  case recv bytes =>
    simp only [Acceptor.step, Option.ite_none_left_eq_some, not_not] at hs
    obtain ⟨hpc, hs⟩ := hs
    split at hs <;> cases hs
    case isTrue hc  => exact .recvOk hpc hc
    case isFalse hc => exact .recvFailed hpc hc
  case sigint =>
    simp only [Acceptor.step, Option.ite_none_left_eq_some, Option.some.injEq, Prod.mk.injEq] at hs
    obtain ⟨_, rfl, rfl⟩ := hs
    exact .sigint
  case close =>
    simp only [Acceptor.step, Option.ite_none_right_eq_some, Option.some.injEq, Prod.mk.injEq] at hs
    obtain ⟨hpc, rfl, rfl⟩ := hs
    exact .close hpc
  all_goals
    rename_i ok
    cases ok <;> simp only [Acceptor.step, Option.ite_none_right_eq_some, Option.some.injEq,
      Prod.mk.injEq] at hs <;> obtain ⟨hpc, rfl, rfl⟩ := hs
  case accept.false => exact .acceptFailed hpc
  case accept.true  => exact .acceptOk hpc
  case fork.false   => exact .forkFailed hpc
  case fork.true    => exact .forkOk hpc

theorem current?_eq_some : m.current? = some j ↔ m.table.file? m.connfd = some (.connection j) := by
  simp only [current?]
  split <;> simp_all

theorem current?_eq_none (h : m.table.file? m.connfd = none) : m.current? = none := by
  simp [current?, h]

theorem Orderly.failed_lt (h : m.Orderly n) (he : m.pc ≠ .exited) (hj : j ∈ m.failed) :
    j < m.inbox.length := by
  have hd : j ∈ m.done := List.mem_append_right _ hj
  by_cases hpc : m.pc = .fork
  case pos => exact List.mem_range.mp <| (h.fork hpc).mem_iff.mp <| List.mem_append_left _ hd
  case neg => exact List.mem_range.mp <| (h.done hpc he).mem_iff.mp hd

-- The new descriptor is none of those that are open.
theorem Orderly.acceptOk (h : m.Orderly n) (hpc : m.pc = .accept) :
    Orderly { m with
      table  := m.table.install (.connection m.inbox.length)
      connfd := m.table.lowest
      pc     := .recv } n := by
  have he : m.pc ≠ .exited := by simp [hpc]
  have hf : ∀ k, (m.table.install (.connection m.inbox.length)).file? k = _ :=
    fun k => Table.file?_install
  have hc : ∀ j ∈ current? { m with
      table  := m.table.install (.connection m.inbox.length)
      connfd := m.table.lowest
      pc     := .recv }, j = m.inbox.length := by
    intro j hj
    have hj := current?_eq_some.mp hj
    simpa [hf] using hj.symm
  constructor
  case children => exact h.children
  case done => exact fun _ _ => h.done (by simp [hpc]) he
  case fork => simp
  case recv => exact fun _ => hc
  case text => simp
  case held => simp [current?, hf]
  case fresh =>
    intro _ j hj hm
    exact absurd (h.failed_lt he hm) (by simp [hc j hj])
  case only =>
    intro k j hk
    rw [hf] at hk
    split at hk
    case isTrue hl => exact .inr ⟨by simp, hl⟩
    case isFalse   => exact .inl <| (h.only hk).resolve_right (fun hn => hn.left hpc)
  case leaked =>
    intro _ j hj
    have ⟨k, hk⟩ := h.leaked he j hj
    refine ⟨k, ?_⟩
    rw [hf, if_neg, hk]
    rintro rfl
    simp [Table.file?_lowest] at hk

theorem Orderly.acceptFailed (h : m.Orderly n) (hpc : m.pc = .accept) :
    Orderly { m with connfd := -1, pc := .recv } n := by
  have hc : current? { m with connfd := -1, pc := .recv } = none :=
    current?_eq_none (by simp [Table.file?])
  constructor
  case children => exact h.children
  case done => exact fun _ _ => h.done (by simp [hpc]) (by simp [hpc])
  case fork => simp
  case recv => simp [hc]
  case text => simp
  case held => simp [hc, Table.file?]
  case fresh => simp [hc]
  case only => exact fun hk => .inl <| (h.only hk).resolve_right (fun hn => hn.left hpc)
  case leaked => exact fun _ => h.leaked (by simp [hpc])

theorem Orderly.recvOk {bytes : List UInt8} (h : m.Orderly n) (hpc : m.pc = .recv)
    (hc : m.current?.isSome) :
    Orderly { m with ipBuf := received bytes, pc := .fork, inbox := m.inbox ++ [bytes] } n := by
  obtain ⟨j, hj⟩ := Option.isSome_iff_exists.mp hc
  obtain rfl := h.recv hpc j hj
  have hj' : current? { m with
      ipBuf := received bytes, pc := .fork, inbox := m.inbox ++ [bytes] }
      = some m.inbox.length := hj
  constructor
  case children => exact h.children
  case done => simp
  case fork =>
    intro _
    simp only [hj', List.length_append, List.length_singleton, List.range_succ, Option.toList_some]
    exact (h.done (by simp [hpc]) (by simp [hpc])).append_right _
  case recv => simp
  case text => simp [hj']
  case held => exact fun _ => h.held (by simp [hpc])
  case fresh => exact fun _ => h.fresh (by simp [hpc])
  case only => exact fun hk => by simpa [hpc] using h.only hk
  case leaked => exact fun _ => h.leaked (by simp [hpc])

theorem Orderly.recvFailed (h : m.Orderly n) (hpc : m.pc = .recv) (hc : ¬m.current?.isSome) :
    Orderly { m with ipBuf := received [], pc := .fork } n := by
  have hc : current? { m with ipBuf := received [], pc := .fork } = none :=
    Option.not_isSome_iff_eq_none.mp hc
  constructor
  case children => exact h.children
  case done => simp
  case fork =>
    intro _
    rw [hc, Option.toList_none, List.append_nil]
    exact h.done (by simp [hpc]) (by simp [hpc])
  case recv => simp
  case text => simp [hc]
  case held => exact fun _ => h.held (by simp [hpc])
  case fresh => exact fun _ => h.fresh (by simp [hpc])
  case only => exact fun hk => by simpa [hpc] using h.only hk
  case leaked => exact fun _ => h.leaked (by simp [hpc])

theorem Orderly.forkOk (h : m.Orderly n) (hpc : m.pc = .fork) :
    Orderly { m with pc := .close, served := m.served ++ [m.current?] } (n + 1) := by
  constructor
  case children => simp [h.children]
  case done =>
    intro _ _
    refine .trans ?_ (h.fork hpc)
    have hc : [m.current?].reduceOption = m.current?.toList := by cases m.current? <;> rfl
    simp only [Acceptor.done, List.reduceOption_append, List.append_assoc, hc]
    exact List.perm_append_comm.append_left _
  case fork => simp
  case recv => simp
  case text => simp
  case held => exact fun _ => h.held (by simp [hpc])
  case fresh => exact fun _ => h.fresh (by simp [hpc])
  case only => exact fun hk => by simpa [hpc] using h.only hk
  case leaked => exact fun _ => h.leaked (by simp [hpc])

theorem Orderly.forkFailed (h : m.Orderly n) (hpc : m.pc = .fork) :
    Orderly { m with pc := .accept, failed := m.failed ++ m.current?.toList } n := by
  constructor
  case children => exact h.children
  case done => exact fun _ _ => by simpa [Acceptor.done] using h.fork hpc
  case fork => simp
  case recv => simp
  case text => simp
  case held => simp
  case fresh => simp
  case only =>
    intro k j hk
    refine .inl (List.mem_append.mpr ?_)
    rcases h.only hk with hm | ⟨_, rfl⟩
    case inl => exact .inl hm
    case inr =>
      have hc : m.current? = some j := current?_eq_some.mpr hk
      exact .inr (by simp [hc])
  case leaked =>
    intro _ j hj
    rcases List.mem_append.mp hj with hj | hj
    case inl => exact h.leaked (by simp [hpc]) j hj
    case inr =>
      have hc : m.current? = some j := by simpa using hj
      exact ⟨m.connfd, current?_eq_some.mp hc⟩

-- What is closed is the current connection, since no other one is open under `connfd`.
theorem Orderly.close (h : m.Orderly n) (hpc : m.pc = .close) :
    Orderly { m with table := m.table.close m.connfd, pc := .accept } n := by
  constructor
  case children => exact h.children
  case done => exact fun _ _ => h.done (by simp [hpc]) (by simp [hpc])
  case fork => simp
  case recv => simp
  case text => simp
  case held => simp
  case fresh => simp
  case only =>
    intro k j hk
    rw [Table.file?_close] at hk
    split at hk
    case isTrue     => contradiction
    case isFalse hn => exact .inl <| (h.only hk).resolve_right (fun hc => hn hc.right)
  case leaked =>
    intro _ j hj
    have ⟨k, hk⟩ := h.leaked (by simp [hpc]) j hj
    refine ⟨k, ?_⟩
    rw [Table.file?_close, if_neg, hk]
    rintro rfl
    exact h.fresh (by simp [hpc]) j (current?_eq_some.mpr hk) hj

theorem Orderly.sigint (h : m.Orderly n) : Orderly { m with table := [], pc := .exited } n := by
  have hc : current? { m with table := [], pc := .exited } = none :=
    current?_eq_none (by simp [Table.file?])
  constructor
  case children => exact h.children
  case held => simp [hc, Table.file?]
  case fresh => simp [hc]
  case only => simp [Table.file?]
  all_goals simp

theorem Orderly.of_step (h : m.Orderly n) (hs : m.step x = some (m', o)) :
    m'.Orderly (n + o.toList.length) := by
  cases Move.of_step hs
  case acceptOk hpc      => exact h.acceptOk hpc
  case acceptFailed hpc  => exact h.acceptFailed hpc
  case recvOk hpc hc     => exact h.recvOk hpc hc
  case recvFailed hpc hc => exact h.recvFailed hpc hc
  case forkOk hpc        => exact h.forkOk hpc
  case forkFailed hpc    => exact h.forkFailed hpc
  case close hpc         => exact h.close hpc
  case sigint            => exact h.sigint

theorem orderly_initial : initial.Orderly 0 where
  children   := rfl
  done _ _   := .refl _
  fork h     := nomatch h
  recv h     := nomatch h
  text h     := nomatch h
  held h     := absurd rfl h
  fresh h    := absurd rfl h
  only h     := by
    have hm := Table.mem_of_file? h
    simp only [initial, List.mem_cons, List.not_mem_nil, Option.some.injEq, reduceCtorEq, or_self]
      at hm
  leaked _ _ := nofun

-- What comes after the fork of a child takes nothing back.
structure Extends (m m' : Acceptor) : Prop where
  inbox  : m.inbox <+: m'.inbox
  served : m.served <+: m'.served
  failed : m.failed ⊆ m'.failed

theorem Extends.of_step (hs : m.step x = some (m', o)) : m.Extends m' := by
  cases Move.of_step hs
  case recvOk     => exact ⟨List.prefix_append _ _, List.prefix_rfl, .refl _⟩
  case forkOk     => exact ⟨List.prefix_rfl, List.prefix_append _ _, .refl _⟩
  case forkFailed => exact ⟨List.prefix_rfl, List.prefix_rfl, List.subset_append_left _ _⟩
  all_goals exact ⟨List.prefix_rfl, List.prefix_rfl, .refl _⟩

theorem Orderly.serves (h : m.Orderly n) (hpc : m.pc = .fork) : m.forked.Serves m m.current? where
  known j hj := List.mem_range.mp <| (h.fork hpc).mem_iff.mp <| by
    simp [Option.mem_def.mp hj]
  held       := h.held (by simp [hpc])
  text       := h.text hpc
  only hk    := (h.only hk).symm.imp And.right id

end Acceptor

theorem Received.Serves.mono {m m' : Acceptor} {o : Option ℕ} {r : Received} (h : r.Serves m o)
    (he : m.Extends m') : r.Serves m' o where
  known j hj := (h.known j hj).trans_le he.inbox.length_le
  held       := h.held
  text       := by
    cases o
    case none   => exact h.text
    case some j =>
      have ⟨t, ht⟩ := he.inbox
      rw [h.text, Option.bind_some, Option.bind_some, ← ht,
        List.getElem?_append_left (h.known j rfl)]
  only hk    := (h.only hk).imp id (he.failed ·)

-- The child `i` serves the connection that it was forked for.
def Received.Child (m : Acceptor) (i : ℕ) (r : Received) : Prop :=
  ∃ o, m.served[i]? = some o ∧ r.Serves m o

theorem acceptLoop_keeps : Family.Keeps acceptLoop Acceptor.Orderly Received.Child where
  main h hs       := h.of_step hs
  child           := by
    intro _ _ _ x
    cases x
  fork h hs       := by
    have he := Acceptor.Extends.of_step hs
    cases Acceptor.Move.of_step hs
    case forkOk hpc => exact ⟨_, by simp [← h.children], (h.serves hpc).mono he⟩
  frame _ hs      := by
    intro ⟨o, ho, hr⟩
    have he := Acceptor.Extends.of_step hs
    have ⟨t, ht⟩ := he.served
    have ⟨hl, _⟩ := List.getElem?_eq_some_iff.mp ho
    exact ⟨o, by rw [← ht, List.getElem?_append_left hl, ho], hr.mono he⟩

-- Whatever fails and whatever signals come: each accepted connection goes to exactly one child,
-- with what has come on it, or its `fork` has failed, and these are the connections that `main`
-- has open when it waits for the next one. A child that has ended is waited for.
theorem connections_dispatched {s : Front} (e : front.Run .initial s) :
    (∀ (i : ℕ) (c : Unix.Child Received), s.children[i]? = some c → c.proc.Child s.main i) ∧
    (s.main.pc = .accept →
      s.main.served.length = s.children.length ∧
      (s.main.served.reduceOption ++ s.main.failed).Perm (.range s.main.inbox.length) ∧
      ∀ j, (∃ k, s.main.table.file? k = some (.connection j)) ↔ j ∈ s.main.failed) ∧
    (s.sigchld = false → s.handling = false → ∀ c ∈ s.children, c.status ≠ .zombie) ∧
    (s.main.pc ≠ .exited →
      (Family.resting acceptLoop).Inevitable (fun s => ∀ c ∈ s.children, c.status = .reaped)
        s) := by
  have ⟨hm, hr⟩ := Family.All.of_run acceptLoop_keeps
    ⟨Acceptor.orderly_initial, fun _ _ h => by simp [Front.initial] at h⟩ e
  have hc := Family.collected (fun _ _ _ h => by simp [Front.initial] at h) e
  refine ⟨hr, fun hpc => ?_, hc, fun he => Family.reaps (by simpa [acceptLoop]) hc⟩
  refine ⟨hm.children, hm.done (by simp [hpc]) (by simp [hpc]), fun j => ?_⟩
  constructor
  case mp  => exact fun ⟨k, hk⟩ => (hm.only hk).resolve_right (fun h => h.left hpc)
  case mpr => exact hm.leaked (by simp [hpc]) j

end Parking
