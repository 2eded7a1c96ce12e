import EmbeddedOS.Lab.Lab5.Trains

open Unix

namespace Trains

-- The train of connection `i` has its own connection open and no other one.
structure Train.Own (i : ℕ) (t : Train) : Prop where
  listener : t.fd ≠ t.clientSocket ∧ t.fd ≠ stdoutFileno
  held     : t.table.file? t.clientSocket = some (.connection i)
  only     : ∀ {k j}, t.table.file? k = some (.connection j) → j = i
  shown    : t.pc ≠ .dup2 → t.table.file? stdoutFileno = some (.connection i)

theorem Train.Own.of_step {i : ℕ} {t t' : Train} {x : Train.Input} (h : t.Own i)
    (hs : t.step x = some t') : t'.Own i := by
  cases x <;> simp only [Train.step, Option.ite_none_right_eq_some, Option.ite_none_left_eq_some,
    Option.some.injEq] at hs <;> obtain ⟨hpc, rfl⟩ := hs
  case dup2 =>
    have hd : ∀ k, (t.table.dup2 t.clientSocket stdoutFileno).file? k = _ :=
      fun _ => Table.file?_dup2 h.held (by decide)
    constructor
    case listener => exact h.listener
    case held =>
      rw [hd]
      split
      case isTrue  => rfl
      case isFalse => exact h.held
    case only =>
      intro k j hk
      rw [hd] at hk
      split at hk
      case isTrue  => simpa using hk.symm
      case isFalse => exact h.only hk
    case shown => exact fun _ => by simp [hd]
  case execlp => exact ⟨h.listener, h.held, h.only, fun _ => h.shown (by simp [hpc])⟩
  case sigint =>
    constructor
    case listener => exact h.listener
    case held  => rw [Table.file?_close, if_neg h.listener.left.symm, h.held]
    case shown =>
      intro hn
      rw [Table.file?_close, if_neg h.listener.right.symm, h.shown hn]
    case only =>
      intro k j hk
      rw [Table.file?_close] at hk
      split at hk
      case isTrue  => contradiction
      case isFalse => exact h.only hk

namespace Main

-- `main` has a connection open only from the call of `accept` to the call of `close`.
structure Tidy (m : Main) (n : ℕ) : Prop where
  counted  : m.pc ≠ .exited → m.accepted = if m.pc = .fork then n + 1 else n
  terminal : m.pc ≠ .exited → m.table.file? stdoutFileno = some .terminal
  listener : m.pc ≠ .socket → m.pc ≠ .exited → m.fd ≠ stdoutFileno
  held     : m.pc = .fork ∨ m.pc = .close → m.fd ≠ m.clientSocket ∧
    m.table.file? m.clientSocket = some (.connection (m.accepted - 1))
  only     : ∀ {k j}, m.table.file? k = some (.connection j) →
    (m.pc = .fork ∨ m.pc = .close) ∧ k = m.clientSocket ∧ m.accepted = j + 1

variable {m m' : Main} {n : ℕ} {x : Input} {o : Option Train}

theorem file?_exit (k : ℤ) : m.exit.table.file? k = none := by
  simp [exit, Table.file?]

theorem tidy_exit : m.exit.Tidy n where
  counted h     := absurd rfl h
  terminal h    := absurd rfl h
  listener _ h  := absurd rfl h
  held h        := by simp [exit] at h
  only h        := by simp [file?_exit] at h

theorem Tidy.lowest_ne (h : m.Tidy n) (hpc : m.pc ≠ .exited) :
    (m.table.lowest : ℤ) ≠ stdoutFileno := by
  intro he
  have ht := h.terminal hpc
  rw [← he, Table.file?_lowest] at ht
  contradiction

-- A step that leaves the descriptors alone, at a time when no connection is open.
theorem Tidy.move {c : ℤ} {pc : Pc} (h : m.Tidy n) (hm : m.pc ∈ [.bind, .listen, .accept])
    (hpc : pc ∈ [.listen, .accept]) : Tidy { m with clientSocket := c, pc := pc } n where
  counted _    := by
    have ha := h.counted (by rintro he; simp [he] at hm)
    rw [if_neg (by rintro he; simp [he] at hm)] at ha
    rw [if_neg (by rintro rfl; simp at hpc), ha]
  terminal _   := h.terminal (by rintro he; simp [he] at hm)
  listener _ _ := h.listener (by rintro he; simp [he] at hm) (by rintro he; simp [he] at hm)
  held hn      := by rcases hn with rfl | rfl <;> simp at hpc
  only hk      := by rcases (h.only hk).left with he | he <;> simp [he] at hm

theorem Tidy.socket (h : m.Tidy n) (hpc : m.pc = .socket) :
    Tidy { m with table := m.table.install .listener, fd := m.table.lowest, pc := .bind } n where
  counted _    := by simpa [hpc] using h.counted
  terminal _   := by
    have ht := h.terminal (by simp [hpc])
    rw [Table.file?_install, if_neg (h.lowest_ne (by simp [hpc])).symm, ht]
  listener _ _ := h.lowest_ne (by simp [hpc])
  held hn      := by simp at hn
  only hk      := by
    rw [Table.file?_install] at hk
    split at hk
    case isTrue  => simp at hk
    case isFalse => simpa [hpc] using (h.only hk).left

theorem Tidy.fork (h : m.Tidy n) (hpc : m.pc = .fork) : Tidy { m with pc := .close } (n + 1) where
  counted _    := by simpa [hpc] using h.counted
  terminal _   := h.terminal (by simp [hpc])
  listener _ _ := h.listener (by simp [hpc]) (by simp [hpc])
  held _       := h.held (.inl hpc)
  only hk      := ⟨.inr rfl, (h.only hk).right⟩

theorem Tidy.own (h : m.Tidy n) (hpc : m.pc = .fork) : m.forked.Own n where
  listener := ⟨(h.held (.inl hpc)).left, h.listener (by simp [hpc]) (by simp [hpc])⟩
  held     := by
    have hc := h.counted (by simp [hpc])
    rw [if_pos hpc] at hc
    simpa [forked, hc] using (h.held (.inl hpc)).right
  only hk  := by
    have hc := h.counted (by simp [hpc])
    rw [if_pos hpc] at hc
    have := (h.only hk).right.right
    omega
  shown hn := absurd rfl hn

theorem Tidy.close (h : m.Tidy n) (hpc : m.pc = .close) :
    Tidy { m with table := m.table.close m.clientSocket, pc := .accept } n where
  counted _  := by simpa [hpc] using h.counted
  terminal _ := by
    have ht := h.terminal (by simp [hpc])
    rw [Table.file?_close, if_neg, ht]
    intro he
    simp [he, (h.held (.inr hpc)).right] at ht
  listener _ _ := h.listener (by simp [hpc]) (by simp [hpc])
  held hn    := by simp at hn
  only hk    := by
    rw [Table.file?_close] at hk
    split at hk
    case isTrue     => contradiction
    case isFalse hn => exact absurd (h.only hk).right.left hn

theorem Tidy.accept (h : m.Tidy n) (hpc : m.pc = .accept)
    (hf : m.table.file? m.fd = some .listener) :
    Tidy { m with
      table        := m.table.install (.connection m.accepted)
      clientSocket := m.table.lowest
      pc           := .fork
      accepted     := m.accepted + 1 } n where
  counted _  := by simpa [hpc] using h.counted
  terminal _ := by
    have ht := h.terminal (by simp [hpc])
    rw [Table.file?_install, if_neg (h.lowest_ne (by simp [hpc])).symm, ht]
  listener _ _ := h.listener (by simp [hpc]) (by simp [hpc])
  held _     := by
    refine ⟨fun he => ?_, by simp [Table.file?_install]⟩
    rw [he, Table.file?_lowest] at hf
    contradiction
  only hk    := by
    rw [Table.file?_install] at hk
    split at hk
    case isTrue he => exact ⟨.inl rfl, he, by simpa using hk⟩
    case isFalse   => simpa [hpc] using (h.only hk).left

theorem Tidy.sigintHandler (h : m.Tidy n) (hs : m.pc ≠ .socket) (he : m.pc ≠ .exited) :
    m.sigintHandler.Tidy n where
  counted    := h.counted
  terminal _ := by
    rw [Main.sigintHandler, Table.file?_close, if_neg (h.listener hs he).symm, h.terminal he]
  listener   := h.listener
  held hn    := by
    have ⟨hd, hf⟩ := h.held hn
    exact ⟨hd, by rw [Main.sigintHandler, Table.file?_close, if_neg hd.symm, hf]⟩
  only hk    := by
    rw [Main.sigintHandler, Table.file?_close] at hk
    split at hk
    case isTrue  => contradiction
    case isFalse => exact h.only hk

theorem Tidy.of_step (h : m.Tidy n) (hs : m.step x = some (m', o)) :
    m'.Tidy (n + o.toList.length) := by
  cases x
  case accept ok =>
    cases ok <;> simp only [Main.step, Option.ite_none_right_eq_some, Option.some.injEq,
      Prod.mk.injEq] at hs
    case true =>
      obtain ⟨⟨hpc, hf⟩, rfl, rfl⟩ := hs
      exact h.accept hpc hf
    case false =>
      obtain ⟨hpc, rfl, rfl⟩ := hs
      exact h.move (by simp [hpc]) (by simp [hpc])
  case close =>
    simp only [Main.step, Option.ite_none_right_eq_some, Option.some.injEq, Prod.mk.injEq] at hs
    obtain ⟨hpc, rfl, rfl⟩ := hs
    exact h.close hpc
  case sigint =>
    simp only [Main.step, Option.ite_none_left_eq_some] at hs
    obtain ⟨he, hs⟩ := hs
    split at hs
    case isTrue    => cases hs; exact tidy_exit
    case isFalse h' => cases hs; exact h.sigintHandler h' he
  all_goals
    rename_i ok
    simp only [Main.step, Option.ite_none_left_eq_some, not_not] at hs
    obtain ⟨hpc, hs⟩ := hs
    cases ok <;> cases hs
  case socket.false => exact tidy_exit
  case socket.true  => exact h.socket hpc
  case bind.false   => exact tidy_exit
  case bind.true    => exact h.move (by simp [hpc]) (by simp)
  case listen.false => exact tidy_exit
  case listen.true  => exact h.move (by simp [hpc]) (by simp)
  case fork.false   => exact tidy_exit
  case fork.true    => exact h.fork hpc

theorem forks {t : Train} (hs : m.step x = some (m', some t)) : m.pc = .fork ∧ t = m.forked := by
  cases x
  case fork ok =>
    simp only [Main.step, Option.ite_none_left_eq_some, not_not] at hs
    obtain ⟨hpc, hs⟩ := hs
    cases ok <;> cases hs
    exact ⟨hpc, rfl⟩
  case accept ok => cases ok <;> simp [Main.step] at hs
  all_goals
    simp only [Main.step] at hs
    repeat' split at hs
    all_goals simp at hs

theorem tidy_initial : initial.Tidy 0 where
  counted _    := rfl
  terminal _   := rfl
  listener h _ := absurd rfl h
  held h       := by simp [initial] at h
  only h       := by simpa [initial] using Table.mem_of_file? h

end Main

theorem keeps : Family.Keeps lab5 Main.Tidy (fun _ => Train.Own) where
  main h hs   := h.of_step hs
  fork h hs   := by
    obtain ⟨hpc, rfl⟩ := Main.forks hs
    exact h.own hpc
  frame _ _ h := h
  child h hs  := h.of_step hs

theorem all_of_run {s : Station} (e : station.Run .initial s) :
    Family.All Main.Tidy (fun _ => Train.Own) s :=
  Family.All.of_run keeps ⟨Main.tidy_initial, fun _ _ h => by simp [Station.initial] at h⟩ e

theorem collected_of_run {s : Station} (e : station.Run .initial s) : Family.Collected s :=
  Family.collected (fun _ _ _ h => by simp [Station.initial] at h) e

-- However the children, their ends, the signals and the failures interleave: the child `i` has
-- connection `i` open and no other, and draws on it; between two connections `main` has none open
-- and has forked one child for each; a child that has ended is waited for.
theorem trains_isolated {s : Station} (e : station.Run .initial s) :
    (∀ (i : ℕ) (c : Child Train), s.children[i]? = some c → c.proc.Own i) ∧
    (s.main.pc = .accept → s.children.length = s.main.accepted ∧
      ∀ k j, s.main.table.file? k ≠ some (.connection j)) ∧
    (s.sigchld = false → s.handling = false → ∀ c ∈ s.children, c.status ≠ .zombie) ∧
    (s.main.pc ≠ .exited →
      (Family.resting lab5).Inevitable (fun s => ∀ c ∈ s.children, c.status = .reaped) s) := by
  have ⟨hm, ht⟩ := all_of_run e
  have hc := collected_of_run e
  refine ⟨ht, fun hpc => ⟨?_, fun k j hk => ?_⟩, hc, fun he => Family.reaps (by simpa [lab5]) hc⟩
  case _ => simpa [hpc] using (hm.counted (by simp [hpc])).symm
  case _ => simpa [hpc] using (hm.only hk).left

-- `main` is in its loop, and the descriptor `fd` is free.
structure Main.Deaf (m : Main) (k : ℕ) : Prop where
  loops    : m.pc = .accept ∨ m.pc = .fork ∨ m.pc = .close
  listener : m.table.file? m.fd = none
  accepted : m.accepted = k

theorem Main.Deaf.of_step {m m' : Main} {k : ℕ} {x : Main.Input} {o : Option Train}
    (h : m.Deaf k) (hx : x ≠ .fork false) (hs : m.step x = some (m', o)) : m'.Deaf k := by
  have he : m.pc ≠ .exited := by rcases h.loops with hp | hp | hp <;> simp [hp]
  have hn : m.pc ≠ .socket ∧ m.pc ≠ .bind ∧ m.pc ≠ .listen := by
    rcases h.loops with hp | hp | hp <;> simp [hp]
  cases x <;> simp only [Main.step, hn, ne_eq, not_false_eq_true, if_true, reduceCtorEq] at hs
  case accept ok =>
    cases ok <;> simp only [h.listener, reduceCtorEq, and_false, if_false,
      Option.ite_none_right_eq_some, Option.some.injEq, Prod.mk.injEq] at hs
    obtain ⟨hpc, rfl, rfl⟩ := hs
    exact ⟨h.loops, h.listener, h.accepted⟩
  case fork ok =>
    simp only [Option.ite_none_left_eq_some] at hs
    obtain ⟨hpc, hs⟩ := hs
    cases ok
    case false => contradiction
    case true  => cases hs; exact ⟨.inr (.inr rfl), h.listener, h.accepted⟩
  case close =>
    simp only [Option.ite_none_right_eq_some, Option.some.injEq, Prod.mk.injEq] at hs
    obtain ⟨_, rfl, rfl⟩ := hs
    refine ⟨.inl rfl, ?_, h.accepted⟩
    rw [Table.file?_close]
    split
    case isTrue  => rfl
    case isFalse => exact h.listener
  case sigint =>
    simp only [he, if_false, Option.some.injEq, Prod.mk.injEq] at hs
    obtain ⟨rfl, rfl⟩ := hs
    refine ⟨h.loops, ?_, h.accepted⟩
    simp [Main.sigintHandler, Table.file?_close]

theorem Main.Deaf.of_sigint {m : Main} (h : m.pc = .accept ∨ m.pc = .fork ∨ m.pc = .close) :
    m.sigintHandler.Deaf m.accepted where
  loops    := h
  listener := by simp [Main.sigintHandler, Table.file?_close]
  accepted := rfl

-- The handler of `SIGINT` closes the listening socket and returns into the loop: from then on no
-- connection is accepted any more, and yet `main` does not end, unless a `fork` fails.
theorem deaf_after_sigint {s s₁ s₂ : Station}
    (hl : s.main.pc = .accept ∨ s.main.pc = .fork ∨ s.main.pc = .close)
    (hs : station.step s (.main .sigint) = some s₁) (e : station.Run s₁ s₂)
    (he : e.AllSteps fun _ a => a ≠ .main (.fork false)) :
    s₂.main.accepted = s.main.accepted ∧ s₂.main.pc ≠ .exited := by
  have hd : s₁.main.Deaf s.main.accepted := by
    cases Family.Move.of_step hs
    case main m o hm =>
      simp only [lab5, Main.step] at hm
      split at hm
      case isTrue  => contradiction
      case isFalse =>
        split at hm
        case isTrue hp => rcases hl with h | h | h <;> simp [hp] at h
        case isFalse   => cases hm; exact .of_sigint hl
  have hd := e.invariant (I := (Main.Deaf ·.main s.main.accepted)) hd (fun s a s' h ha hs => by
    cases Family.Move.of_step hs
    case main hm => exact h.of_step (fun hx => ha (hx ▸ rfl)) hm
    all_goals exact h) he
  exact ⟨hd.accepted, by rcases hd.loops with h | h | h <;> simp [h]⟩

-- The server waits for its first connection.
def Station.waiting : Station :=
  { Station.initial with main := {
    table        := [some .terminal, some .terminal, some .terminal, some .listener]
    fd           := 3
    clientSocket := 0
    pc           := .accept
    accepted     := 0 } }

theorem deaf_while_waiting : ∃ (s₁ s₂ : Station)
    (_ : station.step .waiting (.main .sigint) = some s₁) (_ : station.Run s₁ s₂),
    s₂.main.clientSocket = -1 ∧ s₂.main.accepted = 0 ∧ s₂.main.pc ≠ .exited := by
  let s := { Station.waiting with main := Station.waiting.main.sigintHandler }
  let e : station.Run s _ := .step .refl (.main (.accept false)) rfl
  have hs : station.step .waiting (.main .sigint) = some s := rfl
  exact ⟨s, _, hs, e, rfl, deaf_after_sigint (.inl rfl) hs e ⟨trivial, by decide⟩⟩

end Trains
