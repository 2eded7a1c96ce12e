import EmbeddedOS.Lab.Lab6.Server

namespace Atm

-- A connection is accepted only when all threads have read the descriptor of theirs, and as long
-- as `thread_id` has room for one more thread.
def Prompt (s : Server) : Server.Action → Prop
  | .accept _         => none ∉ s.threads ∧ s.threads.length < 100
  | .create | .read _ => True

instance (s : Server) : (a : Server.Action) → Decidable (Prompt s a)
  | .accept _         => inferInstanceAs (Decidable (_ ∧ _))
  | .create | .read _ => inferInstanceAs (Decidable True)

-- Every connection has one thread.
structure Server.Exclusive (s : Server) : Prop where
  -- `thread_id` has not been left.
  running : s.pc ≠ .faulted
  -- No two threads serve the same connection.
  unique  : ∀ {i j fd : ℕ}, s.threads[i]? = some (some fd) → s.threads[j]? = some (some fd) → i = j
  -- When all threads have been created and have read their descriptors, each connection is served
  -- by exactly one of them.
  served  : s.pc = .accept → none ∉ s.threads → ∀ fd ∈ s.accepted,
    ∃! i : ℕ, s.threads[i]? = some (some fd)

-- The threads serve the connections in the order in which these were accepted, and the global is
-- still the descriptor of a thread that has not read it.
structure Server.InOrder (s : Server) : Prop where
  running  : s.pc ≠ .faulted
  fresh    : s.accepted.Nodup
  own      : ∀ {i fd : ℕ}, s.threads[i]? = some (some fd) → s.accepted[i]? = some fd
  unread   : ∀ {i : ℕ}, s.threads[i]? = some none → s.accepted[i]? = some s.clientSocket
  complete : s.pc = .accept → s.threads.length = s.accepted.length
  waiting  : s.pc = .create → none ∉ s.threads ∧ s.threads.length < 100 ∧
    s.threads.length + 1 = s.accepted.length ∧
    s.accepted[s.threads.length]? = some s.clientSocket

variable {s s' : Server} {a : Server.Action}

namespace Server.InOrder

theorem accept {fd : ℕ} (hs : s.InOrder) (hn : none ∉ s.threads) (hl : s.threads.length < 100)
    (hpc : s.pc = .accept) (hfd : fd ∉ s.accepted) :
    InOrder { s with clientSocket := fd, pc := .create, accepted := s.accepted ++ [fd] } := by
  have hlen := hs.complete hpc
  constructor
  case running  => simp
  case fresh    => exact List.concat_eq_append ▸ hs.fresh.concat hfd
  case unread   => exact fun hi => absurd (List.mem_of_getElem? hi) hn
  case complete => simp
  case waiting  => exact fun _ => ⟨hn, hl, by simp [hlen], by simp [hlen]⟩
  case own =>
    intro i fd' hi
    have ⟨hlt, _⟩ := List.getElem?_eq_some_iff.mp <| hs.own hi
    exact (List.getElem?_append_left hlt).trans <| hs.own hi

theorem create (hs : s.InOrder) (hpc : s.pc = .create) :
    InOrder { s with threads := s.threads ++ [none], pc := .accept } := by
  have ⟨hn, _, hlen, hc⟩ := hs.waiting hpc
  constructor
  case running  => simp
  case fresh    => exact hs.fresh
  case complete => simpa using hlen
  case waiting  => simp
  case own =>
    intro i fd hi
    rw [List.getElem?_append] at hi
    split at hi
    case isTrue  => exact hs.own hi
    case isFalse => simp [List.getElem?_singleton] at hi
  case unread =>
    intro i hi
    rw [List.getElem?_append] at hi
    split at hi
    case isTrue     => exact absurd (List.mem_of_getElem? hi) hn
    case isFalse hl =>
      have hi' : i = s.threads.length := by
        have ⟨hlt, _⟩ := List.getElem?_eq_some_iff.mp hi
        simp at hlt
        omega
      exact hi' ▸ hc

theorem read {i : ℕ} (hs : s.InOrder) (hi : s.threads[i]? = some none) :
    InOrder { s with threads := s.threads.set i (some s.clientSocket) } := by
  have ⟨hlt, _⟩ := List.getElem?_eq_some_iff.mp hi
  constructor
  case running  => exact hs.running
  case fresh    => exact hs.fresh
  case complete => simpa using hs.complete
  case waiting  => exact fun hpc => absurd (List.mem_of_getElem? hi) (hs.waiting hpc).left
  case own =>
    intro j fd hj
    by_cases hij : i = j
    case pos =>
      subst hij
      rw [List.getElem?_set_self hlt] at hj
      cases hj
      exact hs.unread hi
    case neg => exact hs.own <| (List.getElem?_set_ne hij).symm.trans hj
  case unread =>
    intro j hj
    by_cases hij : i = j
    case pos => subst hij; simp [List.getElem?_set_self hlt] at hj
    case neg => exact hs.unread <| (List.getElem?_set_ne hij).symm.trans hj

theorem step (hs : s.InOrder) (hp : Prompt s a) (h : server.step s a = some s') : s'.InOrder := by
  cases a <;> simp only [server, Server.step] at h
  case accept fd =>
    split at h <;> cases h
    case isTrue hc => exact hs.accept hp.left hp.right hc.left hc.right
  case create =>
    split at h
    case isTrue => contradiction
    case isFalse hpc =>
      have hpc := not_not.mp hpc
      rw [if_pos (hs.waiting hpc).right.left] at h
      cases h
      exact hs.create hpc
  case read i =>
    split at h <;> cases h
    case isTrue hi => exact hs.read hi

theorem unique (hs : s.InOrder) {i j fd : ℕ} (hi : s.threads[i]? = some (some fd))
    (hj : s.threads[j]? = some (some fd)) : i = j := by
  have ⟨hlt, _⟩ := List.getElem?_eq_some_iff.mp <| hs.own hi
  exact (List.getElem?_inj hlt hs.fresh).mp <| (hs.own hi).trans (hs.own hj).symm

theorem exclusive (hs : s.InOrder) : s.Exclusive := by
  refine ⟨hs.running, hs.unique, fun hpc hn fd hfd => ?_⟩
  obtain ⟨i, hi⟩ := List.getElem?_of_mem hfd
  have ⟨hlt, _⟩ := List.getElem?_eq_some_iff.mp hi
  -- The thread of this connection has read something, which can only be its own descriptor.
  obtain ⟨fd', ht⟩ : ∃ fd', s.threads[i]? = some (some fd') := by
    cases ht : s.threads[i]?
    case none =>
      have := List.getElem?_eq_none_iff.mp ht
      have := hs.complete hpc
      omega
    case some t =>
      cases t
      case none     => exact absurd (List.mem_of_getElem? ht) hn
      case some fd' => exact ⟨fd', rfl⟩
  cases Option.some.inj <| (hs.own ht).symm.trans hi
  exact ⟨i, ht, fun j hj => hs.unique hj ht⟩

end Server.InOrder

-- As long as main waits for its threads to read their descriptors, each connection is handed to
-- exactly one thread.
theorem exclusive_of_prompt (e : server.Run .initial s) (hc : e.AllSteps Prompt) : s.Exclusive := by
  have h₀ : Server.initial.InOrder := ⟨nofun, .nil, nofun, nofun, fun _ => rfl, nofun⟩
  exact (e.invariant h₀ (fun _ _ _ hs hp h => hs.step hp h) hc).exclusive

-- Two connections, and the thread of the first one is created and reads its descriptor before the
-- second one is accepted.
def promptThreads : List Server.Action :=
  [.accept 4, .create, .read 0, .accept 5, .create, .read 1]

-- The second connection is accepted before the first thread has read its descriptor.
def lateThread : List Server.Action :=
  [.accept 4, .create, .accept 5, .read 0, .create, .read 1]

theorem exclusive_of_prompt_threads : ∃ (s : Server) (_ : server.Run .initial s),
    s.threads = [some 4, some 5] ∧ s.Exclusive := by
  obtain ⟨s, e, he, hs⟩ := Machine.Run.exists_of_exec server (fun s a => decide (Prompt s a))
    .initial promptThreads (fun s => s.threads = [some 4, some 5]) (by decide)
  exact ⟨s, e, of_decide_eq_true hs, exclusive_of_prompt e (by simpa using he)⟩

theorem exclusive_broken : ¬ ∀ (s : Server) (_ : server.Run .initial s), s.Exclusive := by
  intro h
  obtain ⟨s, e, -, hs⟩ := Machine.Run.exists_of_exec server (fun _ _ => true) .initial lateThread
    (fun s => s.threads = [some 5, some 5]) (by decide)
  have ht := of_decide_eq_true hs
  have hu : 0 = 1 := (h s e).unique (by rw [ht]; rfl) (by rw [ht]; rfl)
  contradiction

end Atm
