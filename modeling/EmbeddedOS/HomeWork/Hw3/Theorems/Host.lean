import EmbeddedOS.HomeWork.Hw3.Host
import EmbeddedOS.Library.Lists
import EmbeddedOS.Library.Refinement

open Unix

namespace Delivery

-- `thread_id` has room for one more thread whenever one is created.
def Roomy (h : Host) : Host.Action → Prop
  | .create _ => h.pthreadCount < 100
  | _         => True

instance (h : Host) : (a : Host.Action) → Decidable (Roomy h a)
  | .create _ => inferInstanceAs (Decidable (_ < _))
  | .accept _ | .malloc .. | .store | .worker .. | .tick => inferInstanceAs (Decidable True)

-- What can be seen of the threads: which connection one of them is at, and what it gets or does
-- there.
def Host.seen (h : Host) : Host.Action → Option (ℕ × Input)
  | .worker i x => h.workers[i]?.bind fun w =>
    if w.pc = .serve ∧ w.platform.pc ≠ .closed then (h.connection? w.sock).map (·, x) else none
  | _           => none

def shown : Pool.Action Unit Input Unit → Option (ℕ × Input)
  | .act n x => some (n, x)
  | _        => none

namespace Host

-- What `main` has in its hands until a thread has got it.
def inHand (h : Host) : Option ℕ :=
  match h.pc with
  | .malloc | .store | .create  => some (h.accepted - 1)
  | .accept | .exited | .faulted => none

def block? (h : Host) : Option ℕ :=
  match h.pc with
  | .store | .create                       => some h.clientfdPtr
  | .malloc | .accept | .exited | .faulted => none

end Host

namespace Worker

-- The block of a thread is its own until it has ended, and in its block or in its variable it has
-- the descriptor of its connection until it has closed it.
def Holds (h : Host) (w : Worker) : Prop :=
  match w.pc with
  | .start   => ∃ fd ∈ h.heap w.socket, h.connection? fd = some w.connection ∧ w.platform = .start
  | .serve   => (h.heap w.socket).isSome ∧ h.connection? w.sock = some w.connection
  | .free    => (h.heap w.socket).isSome ∧ w.platform.pc = .closed ∧
    ∀ fd, h.connection? fd ≠ some w.connection
  | .ended   => w.platform.pc = .closed ∧ ∀ fd, h.connection? fd ≠ some w.connection
  | .faulted => False

-- Two threads have nothing in common.
def Apart (w w' : Worker) : Prop :=
  w.connection ≠ w'.connection ∧ (w.pc ≠ .ended → w'.pc ≠ .ended → w.socket ≠ w'.socket)

end Worker

theorem Worker.Apart.symm {w w' : Worker} (h : w.Apart w') : w'.Apart w :=
  ⟨h.left.symm, fun hw hw' => (h.right hw' hw).symm⟩

structure Host.Sound (h : Host) : Prop where
  single  : ∀ {fd fd' n}, h.connection? fd = some n → h.connection? fd' = some n → fd = fd'
  known   : ∀ {fd n}, h.connection? fd = some n → n < h.accepted
  holds   : ∀ w ∈ h.workers, w.Holds h
  apart   : ∀ {i j : ℕ} {w w'}, h.workers[i]? = some w → h.workers[j]? = some w' → i ≠ j →
    w.Apart w'
  handed  : ∀ w ∈ h.workers, w.connection < h.accepted ∧ w.connection ∉ h.inHand
  socket  : ∀ n ∈ h.inHand, h.connection? h.clientSocket = some n ∧ n + 1 = h.accepted
  block   : ∀ p ∈ h.block?, (h.heap p).isSome ∧ ∀ w ∈ h.workers, w.pc ≠ .ended → w.socket ≠ p
  stored  : h.pc = .create → h.heap h.clientfdPtr = some h.clientSocket
  running : h.pc ≠ .faulted

-- Nothing is lost but what could not be handed over.
structure Host.Accounted (h : Host) : Prop where
  served : ∀ n < h.accepted, n ∈ h.inHand ∨ (∃ w ∈ h.workers, w.connection = n) ∨
    n ∈ h.lost.map Prod.snd
  blocks : ∀ {p}, (h.heap p).isSome → p ∈ h.block? ∨
    (∃ w ∈ h.workers, w.socket = p ∧ w.pc ≠ .ended) ∨ p ∈ h.lost.map Prod.fst

-- The pool of the threads, one for each connection. A connection that no thread has got yet has one
-- that has not started.
structure Host.Shows (h : Host) (s : State) : Prop where
  mem    : s.mem = h.mem
  length : s.procs.length = h.accepted
  active : ∀ w ∈ h.workers, s.procs[w.connection]? = some w.platform
  fresh  : ∀ n < h.accepted, (∀ w ∈ h.workers, w.connection ≠ n) → s.procs[n]? = some .start

variable {h h' : Host} {w w' v : Worker} {x : Input} {fd : ℤ} {n i : ℕ}

theorem Host.connection?_eq_some :
    h.connection? fd = some n ↔ h.table.file? fd = some (.connection n) := by
  rw [connection?]
  split <;> simp_all

-- What a thread has is not affected by what happens to other blocks and other connections.
theorem Worker.Holds.mono (hw : w.Holds h) (hh : w.pc ≠ .ended → h'.heap w.socket = h.heap w.socket)
    (hc : ∀ fd, h'.connection? fd = some w.connection ↔ h.connection? fd = some w.connection) :
    w.Holds h' := by
  cases hpc : w.pc <;> simp only [Holds, hpc, ne_eq, hc] at hw ⊢
  case start =>
    have ⟨fd, hfd, hw⟩ := hw
    exact ⟨fd, (hh (by simp [hpc])).trans hfd, hw⟩
  case serve | free => exact ⟨hh (by simp [hpc]) ▸ hw.left, hw.right⟩
  case ended        => exact hw

section Threads

-- What a thread does that has what it needs.
inductive Worker.Move (h : Host) (w : Worker) : Input → Host → Worker → Prop
  | read {fd : ℤ} (hpc : w.pc = .start) (hfd : h.heap w.socket = some fd) :
    Move h w .run h { w with sock := fd, pc := .serve }
  | serve {x : Input} {m : Memory} {p : Platform} (hpc : w.pc = .serve)
    (hc : w.platform.pc ≠ .closed) (hs : w.platform.input w.connection h.mem x = some (m, p)) :
    Move h w x { h with mem := m } { w with pc := .serve, platform := p }
  | close (hpc : w.pc = .serve) (hc : w.platform.pc = .closed) :
    Move h w .run { h with table := h.table.close w.sock } { w with pc := .free }
  | free (hpc : w.pc = .free) :
    Move h w .run { h with heap := Function.update h.heap w.socket none } { w with pc := .ended }

theorem Worker.Move.of_step (hw : w.Holds h) (hs : h.workerStep w x = some (h', w')) :
    w.Move h x h' w' := by
  cases hpc : w.pc <;> simp only [Host.workerStep, Holds, hpc, reduceCtorEq] at hs hw
  case start =>
    have ⟨fd, hfd, _⟩ := hw
    simp only [Option.mem_def.mp hfd, Option.ite_none_left_eq_some, not_not] at hs
    obtain ⟨rfl, hs⟩ := hs
    cases hs
    exact .read hpc hfd
  case serve =>
    by_cases hc : w.platform.pc = .closed
    case pos =>
      simp only [hc, ne_eq, not_true, if_false, Option.ite_none_right_eq_some] at hs
      obtain ⟨rfl, hs⟩ := hs
      cases hs
      exact .close hpc hc
    case neg =>
      simp only [hc, ne_eq, not_false_eq_true, if_true, Host.serve, hw.right] at hs
      obtain ⟨⟨m, p⟩, hp, hs⟩ := Option.map_eq_some_iff.mp hs
      cases hs
      exact .serve hpc hc hp
  case free =>
    simp only [hw.left, if_true, Option.ite_none_left_eq_some, not_not] at hs
    obtain ⟨rfl, hs⟩ := hs
    cases hs
    exact .free hpc

-- What it leaves as it was, and what it still has.
structure Worker.Frame (h : Host) (w : Worker) (h' : Host) (w' : Worker) : Prop where
  connection : w'.connection = w.connection
  socket     : w'.socket = w.socket
  active     : w.pc ≠ .ended
  table      : ∀ fd n, h'.connection? fd = some n ↔
    h.connection? fd = some n ∧ (n = w.connection → w'.pc = .start ∨ w'.pc = .serve)
  heap       : ∀ {p}, (p = w.socket → w'.pc ≠ .ended) → h'.heap p = h.heap p
  freed      : w'.pc = .ended → h'.heap w.socket = none
  holds      : w'.Holds h'

theorem Host.connection?_close {sock : ℤ} :
    connection? { h with table := h.table.close sock } fd =
      if fd = sock then none else h.connection? fd := by
  simp only [connection?, Table.file?_close]
  by_cases hf : fd = sock <;> simp [hf]

theorem Worker.Move.frame (hm : w.Move h x h' w') (hw : w.Holds h) (hs : h.Sound) :
    w.Frame h h' w' := by
  cases hm
  case read fd hpc hfd =>
    simp only [Holds, hpc] at hw
    have ⟨fd', hfd', hn, _⟩ := hw
    obtain rfl := Option.some.inj <| hfd.symm.trans hfd'
    have hh : (h.heap w.socket).isSome := by simp [hfd]
    exact ⟨rfl, rfl, by simp [hpc], by simp, fun _ => rfl, nofun, hh, hn⟩
  case serve m p hpc hc hp =>
    simp only [Holds, hpc] at hw
    refine ⟨rfl, rfl, by simp [hpc], ?_, fun _ => rfl, nofun, hw⟩
    simp [Host.connection?]
  case close hpc hc =>
    simp only [Holds, hpc] at hw
    have ht : ∀ fd n,
        Host.connection? { h with table := h.table.close w.sock } fd = some n ↔
          h.connection? fd = some n ∧ n ≠ w.connection := by
      intro fd n
      rw [Host.connection?_close]
      by_cases hf : fd = w.sock
      case pos => simpa [hf, hw.right] using Eq.symm
      case neg =>
        rw [if_neg hf]
        refine ⟨fun h => ⟨h, ?_⟩, And.left⟩
        rintro rfl
        exact hf <| hs.single h hw.right
    refine ⟨rfl, rfl, by simp [hpc], by simpa using ht, fun _ => rfl, nofun, ?_⟩
    exact ⟨hw.left, hc, fun fd h => ((ht fd _).mp h).right rfl⟩
  case free hpc =>
    simp only [Holds, hpc] at hw
    refine ⟨rfl, rfl, by simp [hpc], ?_, ?_, fun _ => ?_, hw.right⟩
    case refine_1 =>
      refine fun fd n => ⟨fun h => ⟨h, ?_⟩, And.left⟩
      rintro rfl
      exact absurd h <| hw.right.right fd
    case refine_2 => exact fun hp => Function.update_of_ne (fun h => hp h rfl) _ _
    case refine_3 => exact Function.update_self _ _ _

namespace Worker.Frame

theorem others_hold (f : w.Frame h h' w') (hs : h.Sound) (hi : h.workers[i]? = some w) {j : ℕ}
    (hj : h.workers[j]? = some v) (hne : j ≠ i) : v.Holds h' := by
  have ha := hs.apart hj hi hne
  refine (hs.holds v <| List.mem_of_getElem? hj).mono (fun hv => f.heap fun he => ?_) fun fd => ?_
  case refine_1 => exact absurd he <| ha.right hv f.active
  case refine_2 => simp [f.table, ha.left]

theorem apart (f : w.Frame h h' w') (hs : h.Sound) (hi : h.workers[i]? = some w) {j : ℕ}
    (hj : h.workers[j]? = some v) (hne : j ≠ i) : v.Apart w' := by
  have ha := hs.apart hj hi hne
  rw [Apart, f.connection, f.socket]
  exact ⟨ha.left, fun hv _ => ha.right hv f.active⟩

variable {m : Memory} {t : Table File} {p : ℕ → Option ℤ}

theorem sound (f : w.Frame h { h with mem := m, table := t, heap := p } w') (hs : h.Sound)
    (hi : h.workers[i]? = some w) :
    Host.Sound { h with mem := m, table := t, heap := p, workers := h.workers.set i w' } := by
  have hm := List.mem_of_getElem? hi
  have hb : ∀ q ∈ h.block?, p q = h.heap q := fun q hq =>
    f.heap fun he => absurd he.symm <| (hs.block q hq).right w hm f.active
  constructor
  case single  => exact fun h₁ h₂ => hs.single ((f.table _ _).mp h₁).left ((f.table _ _).mp h₂).left
  case known   => exact fun h => hs.known ((f.table _ _).mp h).left
  case running => exact hs.running
  case holds =>
    intro v hv
    have ⟨j, hj⟩ := List.getElem?_of_mem hv
    rcases Lists.set_cases hj with ⟨rfl, rfl⟩ | ⟨hne, hj⟩
    case inl => exact f.holds
    case inr => exact f.others_hold hs hi hj hne
  case apart =>
    intro j k v v' hj hk hne
    rcases Lists.set_cases hj with ⟨rfl, rfl⟩ | ⟨hj', hj₀⟩
    case inl =>
      rcases Lists.set_cases hk with ⟨rfl, rfl⟩ | ⟨hk', hk₀⟩
      case inl => exact absurd rfl hne
      case inr => exact (f.apart hs hi hk₀ hk').symm
    case inr =>
      rcases Lists.set_cases hk with ⟨rfl, rfl⟩ | ⟨hk', hk₀⟩
      case inl => exact f.apart hs hi hj₀ hj'
      case inr => exact hs.apart hj₀ hk₀ hne
  case handed =>
    intro v hv
    rcases List.mem_or_eq_of_mem_set hv with hv | rfl
    case inl => exact hs.handed v hv
    case inr => exact f.connection ▸ hs.handed w hm
  case stored =>
    intro (hpc : h.pc = .create)
    exact (hb _ (by simp [Host.block?, hpc])).trans (hs.stored hpc)
  case socket =>
    intro n hn
    have ⟨hc, ha⟩ := hs.socket n hn
    exact ⟨(f.table _ _).mpr ⟨hc, fun he => absurd (he ▸ hn) (hs.handed w hm).right⟩, ha⟩
  case block =>
    intro q hq
    refine ⟨(congrArg _ <| hb q hq).trans (hs.block q hq).left, fun v hv ha => ?_⟩
    rcases List.mem_or_eq_of_mem_set hv with hv | rfl
    case inl => exact (hs.block q hq).right v hv ha
    case inr => exact f.socket ▸ (hs.block q hq).right w hm f.active

theorem accounted (f : w.Frame h { h with mem := m, table := t, heap := p } w')
    (hi : h.workers[i]? = some w) (ha : h.Accounted) :
    Host.Accounted { h with mem := m, table := t, heap := p, workers := h.workers.set i w' } := by
  have hl := (List.getElem?_eq_some_iff.mp hi).fst
  have hw' : w' ∈ h.workers.set i w' := List.mem_of_getElem? <| List.getElem?_set_self hl
  have hv : ∀ v ∈ h.workers, v = w ∨ v ∈ h.workers.set i w' := by
    intro v hv
    have ⟨j, hj⟩ := List.getElem?_of_mem hv
    by_cases hne : i = j
    case pos => exact .inl <| Option.some.inj <| hj.symm.trans (hne ▸ hi)
    case neg => exact .inr <| List.mem_of_getElem? <| (List.getElem?_set_ne hne).trans hj
  constructor
  case served =>
    refine fun n hn => (ha.served n hn).imp_right <| Or.imp_left fun ⟨v, hm, hc⟩ => ?_
    rcases hv v hm with rfl | hm
    case inl => exact ⟨w', hw', f.connection.trans hc⟩
    case inr => exact ⟨v, hm, hc⟩
  case blocks =>
    intro q hq
    by_cases he : q = w.socket ∧ w'.pc = .ended
    case pos =>
      have hp : p w.socket = none := f.freed he.right
      simp [he.left, hp] at hq
    case neg =>
      have hp : p q = h.heap q := f.heap fun hq hpc => he ⟨hq, hpc⟩
      have hq' : (h.heap q).isSome := hp ▸ hq
      refine (ha.blocks hq').imp_right <| Or.imp_left fun ⟨v, hm, hso, hpc⟩ => ?_
      rcases hv v hm with rfl | hm
      case inl => exact ⟨w', hw', f.socket.trans hso, fun hpc => he ⟨hso.symm, hpc⟩⟩
      case inr => exact ⟨v, hm, hso, hpc⟩

end Worker.Frame
end Threads
section Main

theorem Worker.Holds.isSome (hw : w.Holds h) (hpc : w.pc ≠ .ended) : (h.heap w.socket).isSome := by
  cases hp : w.pc <;> simp only [Holds, hp] at hw
  case start =>
    have ⟨fd, hfd, _⟩ := hw
    simp [Option.mem_def.mp hfd]
  case serve | free => exact hw.left
  case ended        => exact absurd hp hpc

namespace Host

theorem step_accept (hst : h.step (.accept true) = some h') :
    h.pc = .accept ∧ h' = { h with
      table        := h.table.install (.connection h.accepted)
      clientSocket := h.table.lowest
      pc           := .malloc
      accepted     := h.accepted + 1 } := by
  simp only [step, Option.ite_none_right_eq_some] at hst
  exact ⟨hst.left, (Option.some.inj hst.right).symm⟩

-- The descriptor of the connection that arrives is new.
theorem connection?_accept (hst : h.step (.accept true) = some h') (fd : ℤ) (n : ℕ) :
    h'.connection? fd = some n ↔ (fd = h.table.lowest ∧ n = h.accepted) ∨
      h.connection? fd = some n := by
  have ⟨_, he⟩ := step_accept hst
  simp only [he, connection?, Table.file?_install]
  by_cases hf : fd = h.table.lowest
  case neg => simp [hf]
  case pos => simp [hf, Table.file?_lowest, eq_comm]

namespace Sound

theorem accept (hs : h.Sound) (hst : h.step (.accept true) = some h') : h'.Sound := by
  have hc := connection?_accept hst
  have ⟨_, he⟩ := step_accept hst
  have hn : ∀ {fd}, h.connection? fd ≠ some h.accepted := fun h => (hs.known h).ne rfl
  have hin : h'.inHand = some h.accepted := by simp [inHand, he]
  have hw : h'.workers = h.workers := by rw [he]
  have ha : h'.accepted = h.accepted + 1 := by rw [he]
  constructor
  case single =>
    intro fd fd' n h₁ h₂
    rcases (hc fd n).mp h₁ with ⟨rfl, rfl⟩ | h₁ <;> rcases (hc fd' _).mp h₂ with ⟨rfl, _⟩ | h₂
    case inl.inl    => rfl
    case inl.inr    => exact absurd h₂ hn
    case inr.inl hi => exact absurd (hi ▸ h₁) hn
    case inr.inr    => exact hs.single h₁ h₂
  case known =>
    intro fd n h
    rcases (hc fd n).mp h with ⟨_, rfl⟩ | h
    case inl => omega
    case inr => have := hs.known h; omega
  case holds =>
    intro w hm
    rw [hw] at hm
    refine (hs.holds w hm).mono (fun _ => by rw [he]) fun fd => ?_
    simp [hc, (hs.handed w hm).left.ne]
  case apart  => rw [hw]; exact hs.apart
  case handed =>
    intro w hm
    rw [hw] at hm
    have := (hs.handed w hm).left
    rw [hin, ha, Option.mem_some_iff]
    omega
  case socket =>
    intro n hn
    obtain rfl := Option.some.inj <| hin.symm.trans hn
    exact ⟨(hc _ _).mpr <| .inl ⟨by rw [he], rfl⟩, ha.symm⟩
  case block   => simp [block?, he]
  case stored  => simp [he]
  case running => simp [he]

theorem exited (hs : h.Sound) : Host.Sound { h with pc := .exited } where
  single      := hs.single
  known       := hs.known
  holds       := hs.holds
  apart       := hs.apart
  handed w hw := ⟨(hs.handed w hw).left, nofun⟩
  socket _    := nofun
  block _     := nofun
  stored      := nofun
  running     := nofun

theorem malloc (hs : h.Sound) (hpc : h.pc = .malloc) {block : ℕ} (hb : h.heap block = none)
    (content : ℤ) : Host.Sound { h with
      heap        := Function.update h.heap block (some content)
      clientfdPtr := block
      pc          := .store } := by
  have hin : h.inHand = some (h.accepted - 1) := by simp [inHand, hpc]
  have hd : ∀ w ∈ h.workers, w.connection < h.accepted ∧ w.connection ∉ some (h.accepted - 1) :=
    hin ▸ hs.handed
  have hne : ∀ w ∈ h.workers, w.pc ≠ .ended → w.socket ≠ block := by
    rintro w hw ha rfl
    simpa [hb] using (hs.holds w hw).isSome ha
  exact {
    single      := hs.single
    known       := hs.known
    apart       := hs.apart
    handed      := hd
    socket n hn := hs.socket n (hin ▸ hn)
    stored      := nofun
    running     := nofun
    holds w hw  := (hs.holds w hw).mono (fun ha => Function.update_of_ne (hne w hw ha) _ _)
      fun _ => .rfl
    block p hp  := by
      cases hp
      exact ⟨by simp, hne⟩ }

theorem store (hs : h.Sound) (hpc : h.pc = .store) : Host.Sound { h with
    heap := Function.update h.heap h.clientfdPtr (some h.clientSocket)
    pc   := .create } := by
  have hin : h.inHand = some (h.accepted - 1) := by simp [inHand, hpc]
  have hd : ∀ w ∈ h.workers, w.connection < h.accepted ∧ w.connection ∉ some (h.accepted - 1) :=
    hin ▸ hs.handed
  have ⟨_, hb⟩ := hs.block h.clientfdPtr (by simp [block?, hpc])
  exact {
    single      := hs.single
    known       := hs.known
    apart       := hs.apart
    handed      := hd
    socket n hn := hs.socket n (hin ▸ hn)
    stored _    := Function.update_self _ _ _
    running     := nofun
    holds w hw  := (hs.holds w hw).mono (fun ha => Function.update_of_ne (hb w hw ha) _ _)
      fun _ => .rfl
    block p hp  := by
      cases hp
      exact ⟨by simp, hb⟩ }

-- The new thread gets what `main` has had in its hands.
theorem create (hs : h.Sound) (hpc : h.pc = .create) : Host.Sound { h with
    pthreadCount := h.pthreadCount + 1
    pc           := .accept
    workers      := h.workers ++ [h.forked] } := by
  have hin : h.inHand = some (h.accepted - 1) := by simp [inHand, hpc]
  have ⟨hc, ha⟩ := hs.socket _ hin
  have ⟨_, hb⟩ := hs.block h.clientfdPtr (by simp [block?, hpc])
  have hap : ∀ w ∈ h.workers, w.Apart h.forked := by
    refine fun w hw => ⟨fun he => (hs.handed w hw).right (hin ▸ congrArg some he.symm), ?_⟩
    exact fun hw' _ => hb w hw hw'
  have hm : ∀ v ∈ h.workers ++ [h.forked], v ∈ h.workers ∨ v = h.forked := by simp
  constructor
  case single  => exact hs.single
  case known   => exact hs.known
  case socket  => nofun
  case block   => nofun
  case stored  => nofun
  case running => nofun
  case holds =>
    intro v hv
    rcases hm v hv with hv | rfl
    case inl => exact hs.holds v hv
    case inr => exact ⟨h.clientSocket, hs.stored hpc, hc, rfl⟩
  case handed =>
    refine fun v hv => ⟨?_, nofun⟩
    rcases hm v hv with hv | rfl
    case inl => exact (hs.handed v hv).left
    case inr => exact Nat.lt_of_succ_le ha.le
  case apart =>
    intro i j v v' hi hj hne
    rcases Lists.append_cases hi with ⟨rfl, rfl⟩ | ⟨hi', hi₀⟩
    case inl =>
      rcases Lists.append_cases hj with ⟨rfl, rfl⟩ | ⟨_, hj₀⟩
      case inl => exact absurd rfl hne
      case inr => exact (hap _ <| List.mem_of_getElem? hj₀).symm
    case inr =>
      rcases Lists.append_cases hj with ⟨rfl, rfl⟩ | ⟨_, hj₀⟩
      case inl => exact hap _ <| List.mem_of_getElem? hi₀
      case inr => exact hs.apart hi₀ hj₀ hne

theorem createFailed (hs : h.Sound) (l : List (ℕ × ℕ)) :
    Host.Sound { h with
    pthreadCount := h.pthreadCount + 1
    pc           := .accept
    lost         := l } where
  single      := hs.single
  known       := hs.known
  holds       := hs.holds
  apart       := hs.apart
  handed w hw := ⟨(hs.handed w hw).left, nofun⟩
  socket _    := nofun
  block _     := nofun
  stored      := nofun
  running     := nofun

end Sound

namespace Accounted

theorem accept (ha : h.Accounted) (hst : h.step (.accept true) = some h') : h'.Accounted := by
  obtain ⟨hpc, rfl⟩ := step_accept hst
  constructor
  case served =>
    intro n hn
    by_cases he : n = h.accepted
    case pos => exact .inl <| he ▸ rfl
    case neg =>
      have hn : n < h.accepted := by
        have : n < h.accepted + 1 := hn
        omega
      exact .inr <| (ha.served n hn).resolve_left <| by simp [inHand, hpc]
  case blocks => exact fun hp => .inr <| (ha.blocks hp).resolve_left <| by simp [block?, hpc]

theorem malloc (ha : h.Accounted) (hpc : h.pc = .malloc) (block : ℕ) (content : ℤ) :
    Host.Accounted { h with
      heap        := Function.update h.heap block (some content)
      clientfdPtr := block
      pc          := .store } := by
  constructor
  case served => exact fun n hn => (ha.served n hn).imp_left <| by simp [inHand, hpc]
  case blocks =>
    intro p hp
    by_cases he : p = block
    case pos => exact .inl <| he ▸ rfl
    case neg =>
      have hu : Function.update h.heap block (some content) p = h.heap p :=
        Function.update_of_ne he _ _
      exact .inr <| (ha.blocks <| hu ▸ hp).resolve_left <| by simp [block?, hpc]

theorem store (ha : h.Accounted) (hpc : h.pc = .store) : Host.Accounted { h with
    heap := Function.update h.heap h.clientfdPtr (some h.clientSocket)
    pc   := .create } := by
  constructor
  case served => exact fun n hn => (ha.served n hn).imp_left <| by simp [inHand, hpc]
  case blocks =>
    intro p hp
    by_cases he : p = h.clientfdPtr
    case pos => exact .inl <| he ▸ rfl
    case neg =>
      have hu : Function.update h.heap h.clientfdPtr (some h.clientSocket) p = h.heap p :=
        Function.update_of_ne he _ _
      exact (ha.blocks <| hu ▸ hp).imp_left <| by simp [block?, hpc]

theorem create (ha : h.Accounted) (hpc : h.pc = .create) : Host.Accounted { h with
    pthreadCount := h.pthreadCount + 1
    pc           := .accept
    workers      := h.workers ++ [h.forked] } := by
  have hm : h.forked ∈ h.workers ++ [h.forked] := List.mem_concat_self
  constructor
  case served =>
    intro n hn
    rcases ha.served n hn with hn | ⟨w, hw, hn⟩ | hn
    case inl     => exact .inr <| .inl ⟨_, hm, by simpa [inHand, hpc, forked] using hn⟩
    case inr.inl => exact .inr <| .inl ⟨w, List.mem_append_left _ hw, hn⟩
    case inr.inr => exact .inr <| .inr hn
  case blocks =>
    intro p hp
    rcases ha.blocks hp with hb | ⟨w, hw, hb⟩ | hb
    case inl     => exact .inr <| .inl ⟨_, hm, by simpa [block?, hpc, forked] using hb, nofun⟩
    case inr.inl => exact .inr <| .inl ⟨w, List.mem_append_left _ hw, hb⟩
    case inr.inr => exact .inr <| .inr hb

theorem createFailed (ha : h.Accounted) (hpc : h.pc = .create) : Host.Accounted { h with
    pthreadCount := h.pthreadCount + 1
    pc           := .accept
    lost         := h.lost ++ [(h.clientfdPtr, h.accepted - 1)] } := by
  constructor
  case served =>
    intro n hn
    rcases ha.served n hn with hn | hn | hn
    case inl     =>
      have hn : h.accepted - 1 = n := by simpa [inHand, hpc] using hn
      exact .inr <| .inr <| by simp [hn]
    case inr.inl => exact .inr <| .inl hn
    case inr.inr => exact .inr <| .inr <| by simp_all
  case blocks =>
    intro p hp
    rcases ha.blocks hp with hb | hb | hb
    case inl     =>
      have hb : h.clientfdPtr = p := by simpa [block?, hpc] using hb
      exact .inr <| .inr <| by simp [hb]
    case inr.inl => exact .inr <| .inl hb
    case inr.inr => exact .inr <| .inr <| by simp_all

end Accounted
end Host
end Main

section Refinement

variable {s : State}

abbrev pool : Machine State (Pool.Action Unit Input Unit) :=
  Pool.machine platforms

-- What is kept: the threads stand for a state of the pool, and nothing is lost as long as the
-- process runs.
structure Host.Represents (h : Host) (s : State) : Prop where
  sound     : h.Sound
  accounted : h.pc ≠ .exited → h.Accounted
  shows     : h.Shows s

namespace Host

-- A connection that arrives has a thread of the pool at once.
theorem Shows.accept (hr : h.Shows s) (hs : h.Sound) (hst : h.step (.accept true) = some h') :
    ∃ s', pool.step s (.spawn ()) = some s' ∧ h'.Shows s' := by
  obtain ⟨_, rfl⟩ := step_accept hst
  refine ⟨_, rfl, hr.mem, by simp [hr.length], fun w hw => ?_, fun n hn hw => ?_⟩
  case refine_1 =>
    have hl : w.connection < s.procs.length := hr.length ▸ (hs.handed w hw).left
    exact (List.getElem?_append_left hl).trans (hr.active w hw)
  case refine_2 =>
    by_cases he : n < h.accepted
    case pos => exact (List.getElem?_append_left (hr.length ▸ he)).trans (hr.fresh n he hw)
    case neg =>
      have hn : n < h.accepted + 1 := hn
      obtain rfl : n = s.procs.length := by have := hr.length; omega
      exact List.getElem?_concat_length

theorem Shows.create (hr : h.Shows s) (hs : h.Sound) (hpc : h.pc = .create) : Shows { h with
    pthreadCount := h.pthreadCount + 1
    pc           := .accept
    workers      := h.workers ++ [h.forked] } s where
  mem          := hr.mem
  length       := hr.length
  active w hw  := by
    rcases List.mem_append.mp hw with hw | hw
    case inl => exact hr.active w hw
    case inr =>
      obtain rfl := List.mem_singleton.mp hw
      have hin : h.inHand = some (h.accepted - 1) := by simp [inHand, hpc]
      have ⟨_, ha⟩ := hs.socket _ hin
      refine hr.fresh _ (Nat.lt_of_succ_le ha.le) fun w hw he => ?_
      exact (hs.handed w hw).right (hin ▸ congrArg some he.symm)
  fresh n hn h := hr.fresh n hn fun w hw => h w <| List.mem_append_left _ hw

theorem Shows.worker (hr : h.Shows s) (hs : h.Sound) (hi : h.workers[i]? = some w)
    (hc : w'.connection = w.connection) (m : Memory) (t : Table File) (p : ℕ → Option ℤ) :
    Shows { h with mem := m, table := t, heap := p, workers := h.workers.set i w' }
      { mem := m, procs := s.procs.set w.connection w'.platform } := by
  have hl := (List.getElem?_eq_some_iff.mp hi).fst
  have hp := (List.getElem?_eq_some_iff.mp <| hr.active w <| List.mem_of_getElem? hi).fst
  have hw' : w' ∈ h.workers.set i w' := List.mem_of_getElem? <| List.getElem?_set_self hl
  constructor
  case mem    => rfl
  case length => simpa using hr.length
  case active =>
    intro v hv
    have ⟨j, hj⟩ := List.getElem?_of_mem hv
    rcases Lists.set_cases hj with ⟨rfl, rfl⟩ | ⟨hne, hj⟩
    case inl => rw [hc, List.getElem?_set_self hp]
    case inr =>
      have hn := (hs.apart hj hi hne).left
      exact (List.getElem?_set_ne hn.symm).trans <| hr.active v <| List.mem_of_getElem? hj
  case fresh =>
    intro n hn hw
    have hne : w.connection ≠ n := hc ▸ hw w' hw'
    refine (List.getElem?_set_ne hne).trans <| hr.fresh n hn fun v hv => ?_
    have ⟨j, hj⟩ := List.getElem?_of_mem hv
    by_cases hji : j = i
    case pos => exact Option.some.inj (hj.symm.trans (hji ▸ hi)) ▸ hne
    case neg =>
      exact hw v <| List.mem_of_getElem? <| (List.getElem?_set_ne (Ne.symm hji)).trans hj

theorem Shows.quiet (hr : h.Shows s) (hs : h.Sound) (hi : h.workers[i]? = some w)
    (hc : w'.connection = w.connection) (hp : w'.platform = w.platform) (t : Table File)
    (p : ℕ → Option ℤ) :
    Shows { h with table := t, heap := p, workers := h.workers.set i w' } s := by
  have ⟨_, hw⟩ := List.getElem?_eq_some_iff.mp <| hr.active w <| List.mem_of_getElem? hi
  have hs' : ({ mem := h.mem, procs := s.procs } : State) = s := by rw [← hr.mem]
  have hsh := hr.worker hs hi hc h.mem t p
  rwa [hp, ← hw, List.set_getElem_self, hs'] at hsh

-- What a thread does is to be seen in its loop, where it is what the thread of the pool does.
theorem Shows.move (hr : h.Shows s) (hs : h.Sound) (hi : h.workers[i]? = some w)
    (hm : w.Move h x h' w') : ∃ b s', pool.follow s b = some s' ∧
      b.bind shown = h.seen (.worker i x) ∧ Shows { h' with workers := h.workers.set i w' } s' := by
  have hw := List.mem_of_getElem? hi
  have hh := hs.holds w hw
  cases hm
  case read fd hpc hfd =>
    refine ⟨none, s, rfl, by simp [seen, hi, hpc], hr.quiet hs hi ?_ ?_ _ _⟩ <;> rfl
  case close hpc hc =>
    refine ⟨none, s, rfl, by simp [seen, hi, hc], hr.quiet hs hi ?_ ?_ _ _⟩ <;> rfl
  case free hpc =>
    refine ⟨none, s, rfl, by simp [seen, hi, hpc], hr.quiet hs hi ?_ ?_ _ _⟩ <;> rfl
  case serve m p hpc hc hp =>
    simp only [Worker.Holds, hpc] at hh
    refine ⟨some (.act w.connection x), _, ?_, ?_, hr.worker hs hi ?_ m h.table h.heap⟩
    case refine_1 =>
      simp [Machine.follow, pool, Pool.machine, Pool.step, hr.active w hw, platforms, hr.mem, hp]
    case refine_2 => simp [shown, seen, hi, hpc, hc, hh.right]
    case refine_3 => rfl

theorem Represents.accept (hr : h.Represents s) {ok : Bool}
    (hst : h.step (.accept ok) = some h') :
    ∃ b s', pool.follow s b = some s' ∧ b.bind shown = none ∧ h'.Represents s' := by
  have ⟨hs, ha, hsh⟩ := hr
  cases ok
  case false =>
    simp only [step, Option.ite_none_right_eq_some] at hst
    obtain ⟨_, hst⟩ := hst
    cases hst
    exact ⟨none, s, rfl, rfl, hs.exited, nofun, ⟨hsh.mem, hsh.length, hsh.active, hsh.fresh⟩⟩
  case true =>
    have ⟨s', hs', hsh'⟩ := hsh.accept hs hst
    have ⟨hpc, _⟩ := step_accept hst
    exact ⟨some (.spawn ()), s', hs', rfl, hs.accept hst,
      fun _ => (ha (by simp [hpc])).accept hst, hsh'⟩

theorem Represents.malloc (hr : h.Represents s) {block : Option ℕ} {content : ℤ}
    (hst : h.step (.malloc block content) = some h') : h'.Represents s := by
  have ⟨hs, ha, hsh⟩ := hr
  cases block <;> simp only [step, Option.ite_none_right_eq_some] at hst <;>
    obtain ⟨hpc, hst⟩ := hst <;> cases hst
  case none => exact ⟨hs.exited, nofun, ⟨hsh.mem, hsh.length, hsh.active, hsh.fresh⟩⟩
  case some block =>
    exact ⟨hs.malloc hpc.left hpc.right content, fun _ => (ha (by simp [hpc])).malloc hpc.left _ _,
      ⟨hsh.mem, hsh.length, hsh.active, hsh.fresh⟩⟩

theorem Represents.store (hr : h.Represents s) (hst : h.step .store = some h') :
    h'.Represents s := by
  have ⟨hs, ha, hsh⟩ := hr
  simp only [step, Option.ite_none_right_eq_some] at hst
  obtain ⟨hpc, hst⟩ := hst
  cases hst
  exact ⟨hs.store hpc, fun _ => (ha (by simp [hpc])).store hpc,
    ⟨hsh.mem, hsh.length, hsh.active, hsh.fresh⟩⟩

theorem Represents.create (hr : h.Represents s) (hc : h.pthreadCount < 100) {ok : Bool}
    (hst : h.step (.create ok) = some h') : h'.Represents s := by
  have ⟨hs, ha, hsh⟩ := hr
  simp only [step, Option.ite_none_left_eq_some, not_not, not_le.mpr hc, if_false] at hst
  obtain ⟨hpc, hst⟩ := hst
  have ha := ha (by simp [hpc])
  cases ok <;> cases hst
  case true  => exact ⟨hs.create hpc, fun _ => ha.create hpc, hsh.create hs hpc⟩
  case false =>
    exact ⟨hs.createFailed _, fun _ => ha.createFailed hpc,
      ⟨hsh.mem, hsh.length, hsh.active, hsh.fresh⟩⟩

theorem Represents.worker (hr : h.Represents s) (hst : h.step (.worker i x) = some h') :
    ∃ b s', pool.follow s b = some s' ∧ b.bind shown = h.seen (.worker i x) ∧
      h'.Represents s' := by
  have ⟨hs, ha, hsh⟩ := hr
  simp only [step, Option.ite_none_left_eq_some] at hst
  obtain ⟨hpc, hst⟩ := hst
  obtain ⟨w, hi, hst⟩ := Option.bind_eq_some_iff.mp hst
  obtain ⟨⟨h₁, w'⟩, hst, he⟩ := Option.map_eq_some_iff.mp hst
  have hw := hs.holds w (List.mem_of_getElem? hi)
  have hm := Worker.Move.of_step hw hst
  have hf := hm.frame hw hs
  have ⟨b, s', hb, hbs, hsh'⟩ := hsh.move hs hi hm
  have ha := ha fun he => hpc (.inl he)
  cases he
  refine ⟨b, s', hb, hbs, ?_, fun _ => ?_, hsh'⟩ <;> cases hm
  all_goals first | exact hf.sound hs hi | exact hf.accounted hi ha

theorem Represents.tick (hr : h.Represents s) (hst : h.step .tick = some h') :
    ∃ s', pool.step s (.env ()) = some s' ∧ h'.Represents s' := by
  have ⟨hs, ha, hsh⟩ := hr
  simp only [step, Option.ite_none_left_eq_some] at hst
  obtain ⟨hpc, hst⟩ := hst
  cases hst
  refine ⟨_, rfl, ?_, fun h => ?_, ?_⟩
  case refine_1 =>
    exact ⟨hs.single, hs.known, hs.holds, hs.apart, hs.handed, hs.socket, hs.block, hs.stored,
      hs.running⟩
  case refine_2 => exact ⟨(ha h).served, (ha h).blocks⟩
  case refine_3 =>
    exact ⟨congrArg Memory.tick hsh.mem, hsh.length, hsh.active, hsh.fresh⟩

end Host

theorem host_refines : Machine.Refines host pool Roomy Host.seen shown Host.Represents where
  step {h a h' s} hr hc hst := by
    cases a
    case accept   => exact hr.accept hst
    case malloc   => exact ⟨none, s, rfl, rfl, hr.malloc hst⟩
    case store    => exact ⟨none, s, rfl, rfl, hr.store hst⟩
    case create   => exact ⟨none, s, rfl, rfl, hr.create hc hst⟩
    case worker   => exact hr.worker hst
    case tick     =>
      have ⟨s', hs', hr'⟩ := hr.tick hst
      exact ⟨some (.env ()), s', hs', rfl, hr'⟩

theorem Host.connection?_initial (fd : ℤ) : Host.initial.connection? fd = none := by
  refine Option.eq_none_iff_forall_ne_some.mpr fun n hn => ?_
  have hm := Table.mem_of_file? <| connection?_eq_some.mp hn
  simp [initial] at hm

theorem Host.sound_initial : Host.initial.Sound where
  single h   := by rw [connection?_initial] at h; contradiction
  known h    := by rw [connection?_initial] at h; contradiction
  holds _ hw := by simp [initial] at hw
  apart hi   := by simp [initial] at hi
  handed _ h := by simp [initial] at h
  socket _ h := by simp [initial, inHand] at h
  block _ h  := by simp [initial, block?] at h
  stored h   := by simp [initial] at h
  running    := by simp [initial]

theorem represents_initial : Host.initial.Represents State.initial where
  sound       := Host.sound_initial
  accounted _ := ⟨by simp [Host.initial], by simp [Host.initial]⟩
  shows       := ⟨rfl, rfl, by simp [Host.initial], by simp [Host.initial]⟩

end Refinement

-- However the statements of `main` and of its threads alternate, and whatever descriptors and
-- blocks are given away again: what happens on the connections is what happens to a pool of
-- threads with one connection each, every thread is at the connection that it has been created for,
-- and no connection is passed over. When all threads have ended, no connection is open and no block
-- is left.
theorem host_serves {h : Host} (e : host.Run .initial h) (he : e.AllSteps Roomy) :
    (∃ (s : State) (f : pool.Run .initial s), s.mem = h.mem ∧
      f.history (fun _ => shown) = e.history Host.seen) ∧
    (∀ w ∈ h.workers, w.pc = .serve → h.connection? w.sock = some w.connection) ∧
    (h.pc = .accept → h.lost = [] →
      (∀ n < h.accepted, ∃! i : ℕ, ∃ w, h.workers[i]? = some w ∧ w.connection = n) ∧
      ((∀ w ∈ h.workers, w.pc = .ended) →
        (∀ fd, h.connection? fd = none) ∧ ∀ p, h.heap p = none)) := by
  have ⟨s, f, hr, hf⟩ := host_refines.run represents_initial e he
  have ⟨hs, ha, hsh⟩ := hr
  refine ⟨⟨s, f, hsh.mem, hf⟩, fun w hw hpc => ?_, fun hpc hl => ?_⟩
  case refine_1 =>
    have hw := hs.holds w hw
    simp only [Worker.Holds, hpc] at hw
    exact hw.right
  have ha := ha (by simp [hpc])
  have hserved : ∀ n < h.accepted, ∃ w ∈ h.workers, w.connection = n := by
    intro n hn
    simpa [Host.inHand, hpc, hl] using ha.served n hn
  refine ⟨fun n hn => ?_, fun hend => ⟨fun fd => ?_, fun p => ?_⟩⟩
  case refine_1 =>
    have ⟨w, hw, hc⟩ := hserved n hn
    have ⟨i, hi⟩ := List.getElem?_of_mem hw
    refine ⟨i, ⟨w, hi, hc⟩, fun j ⟨v, hj, hv⟩ => ?_⟩
    by_contra hne
    exact (hs.apart hj hi hne).left (hv.trans hc.symm)
  case refine_2 =>
    refine Option.eq_none_iff_forall_ne_some.mpr fun n hn => ?_
    have ⟨w, hw, hc⟩ := hserved n (hs.known hn)
    have hh := hs.holds w hw
    simp only [Worker.Holds, hend w hw] at hh
    exact hh.right fd (hc ▸ hn)
  case refine_3 =>
    by_contra hp
    have hb := ha.blocks <| Option.ne_none_iff_isSome.mp hp
    have ⟨w, hw, _, hpc⟩ : ∃ w ∈ h.workers, w.socket = p ∧ w.pc ≠ .ended := by
      simpa [Host.block?, hpc, hl] using hb
    exact hpc (hend w hw)

-- The second connection arrives before the first thread has read its descriptor.
def customersAtOnce : List Host.Action :=
  [.accept true, .malloc (some 7) 0, .store, .create true, .accept true, .malloc (some 8) 0, .store,
    .create true, .worker 1 .run, .worker 0 .run, .worker 0 .eof, .worker 0 .run, .worker 1 .eof,
    .worker 1 .run, .worker 0 .run, .worker 1 .run]

theorem host_serves_of_customersAtOnce :
    ∃ (h : Host) (e : host.Run .initial h), e.AllSteps Roomy ∧ h.accepted = 2 ∧
      (∀ n < h.accepted, ∃! i : ℕ, ∃ w, h.workers[i]? = some w ∧ w.connection = n) ∧
      (∀ fd, h.connection? fd = none) ∧ ∀ p, h.heap p = none := by
  have ⟨h, e, he, hf⟩ := Machine.Run.exists_of_exec host (fun h a => Roomy h a) .initial
    customersAtOnce (fun h => h.pc = .accept ∧ h.lost = [] ∧ h.accepted = 2 ∧
      h.workers.all (·.pc = .ended)) (by decide +kernel)
  simp only [decide_eq_true_eq, List.all_eq_true] at hf
  have he := he.mono fun _ _ => of_decide_eq_true
  have ⟨hpc, hl, ha, hend⟩ := hf
  have ⟨hi, hn⟩ := (host_serves e he).right.right hpc hl
  exact ⟨h, e, he, ha, hi, hn hend⟩

end Delivery
