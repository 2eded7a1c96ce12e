import EmbeddedOS.Lab.Lab6.Theorems.Scan

open C

namespace Atm

-- The number of messages that a client has sent.
def Client.sent (c : Client) : ℕ :=
  if c.pc = .v then c.count + 1 else c.count

-- What a command adds to the balance.
def commandDelta (whatToDo : List UInt8) (money : ℤ) : ℤ :=
  if whatToDo = Operation.name .deposit then money
  else if whatToDo = Operation.name .withdraw then -money
  else 0

-- What a thread has received and not yet stored.
def Bank.owed (b : Bank) : ℤ :=
  match b.pc with
  | .handle           =>
    match scan b.receive b.whatToDo with
    | some (whatToDo, money) => commandDelta whatToDo money
    | none                   => 0
  | .load op money    => op.delta money
  | .store op money _ => op.delta money
  | .recv | .ended | .faulted => 0

namespace Session

-- The deposits minus the withdrawals of a client: of all of its messages, and of those that have
-- not taken effect yet.
def requested (s : Session) : ℤ :=
  (s.client.messages.map Message.delta).sum

def outstanding (s : Session) : ℤ :=
  s.bank.owed + (s.wire.map Record.delta).sum +
    ((s.client.messages.drop s.client.sent).map Message.delta).sum

-- All messages have been sent, received and handled.
structure Handled (s : Session) : Prop where
  client : s.client.messages.length ≤ s.client.sent
  wire   : ∀ r ∈ s.wire, r = .exit
  bank   : s.bank.pc = .recv ∨ s.bank.pc = .ended

instance (s : Session) : Decidable s.Handled :=
  decidable_of_iff
    (s.client.messages.length ≤ s.client.sent ∧ (∀ r ∈ s.wire, r = .exit) ∧
      (s.bank.pc = .recv ∨ s.bank.pc = .ended))
    ⟨fun ⟨c, w, b⟩ => ⟨c, w, b⟩, fun ⟨c, w, b⟩ => ⟨c, w, b⟩⟩

end Session

-- The value of `my_money_now` that a thread has read for the sum which it stores next.
def Bank.loaded? (b : Bank) : Option ℤ :=
  match b.pc with
  | .store _ _ myMoneyNow => some myMoneyNow
  | _ => none

-- The session whose thread makes the next step.
def State.running? (s : State) : Pool.Action (List Message) Party Empty → Option Session
  | .act pid .bank => s.procs[pid]?
  | _ => none

-- When a thread stores a sum, `my_money_now` is still the value that it has read.
def Undisturbed (s : State) (a : Pool.Action (List Message) Party Empty) : Prop :=
  ∀ p ∈ s.running? a, ∀ value ∈ p.bank.loaded?, s.mem.myMoneyNow = value

variable {m m' : Memory} {p p' : Session} {s s' : State} {b b' : Bank} {r : Record} {x : Party}
variable {money money' : ℤ} {a : Pool.Action (List Message) Party Empty}

theorem Operation.apply_eq (op : Operation) (n k : ℤ) : op.apply n k = C.int (k + op.delta n) := by
  cases op <;> simp [apply, delta, sub_eq_add_neg]

theorem commandDelta_name (op : Operation) (n : ℤ) : commandDelta op.name n = op.delta n := by
  cases op
  case deposit  => exact if_pos rfl
  case withdraw => exact (if_neg (by decide)).trans (if_pos rfl)

theorem commandDelta_record (r : Record) : commandDelta r.word r.number = r.delta := by
  cases r
  case money m => exact commandDelta_name m.op m.amount
  case exit    => decide

-- What a step of a thread does to the balance: nothing, or it stores the sum.
inductive Bank.Effect (money : ℤ) (b : Bank) (money' : ℤ) (b' : Bank) : Prop
  | quiet (hm : money' = money) (ho : b'.owed = b.owed)
  | store (op : Operation) (n value : ℤ) (hpc : b.pc = .store op n value)
    (hm : money' = C.int (value + op.delta n)) (ho : b'.owed = 0)

theorem Bank.owed_dispatch (hpc : b.pc = .handle) {whatToDo : List UInt8} {n : ℤ}
    (hs : scan b.receive b.whatToDo = some (whatToDo, n)) :
    ({ b with whatToDo }.dispatch n).owed = b.owed := by
  have ho : b.owed = commandDelta whatToDo n := by simp only [owed, hpc, hs]
  rw [ho, dispatch, commandDelta]
  split
  case isTrue => rfl
  split
  case isTrue  => rfl
  case isFalse => split <;> rfl

theorem Bank.Effect.of_step (h : b.step money = some (money', b')) :
    Bank.Effect money b money' b' := by
  cases hpc : b.pc <;> simp only [step, hpc] at h
  case handle =>
    split at h <;> cases h
    case h_1 hs => exact .quiet rfl <| owed_dispatch hpc hs
    case h_2 hs => exact .quiet rfl <| by simp [owed, hpc, hs]
  case load op n        => cases h; exact .quiet rfl <| by simp [owed, hpc]
  case store op n value => cases h; exact .store op n value hpc (op.apply_eq n value) rfl
  all_goals contradiction

-- A record that is received as a whole is what the thread then owes.
theorem Bank.owed_recv (hl : b.receive.length = 128) (h : b.recv (.bytes r.bytes) = some b') :
    b.owed = 0 ∧ b'.owed = r.delta ∧ b'.receive.length = 128 := by
  simp only [recv] at h
  split at h
  case isFalse   => contradiction
  case isTrue hc =>
    cases h
    have ho : overlay r.bytes b.receive = r.bytes := by
      rw [overlay, r.bytes_length, List.drop_of_length_le hl.le, List.append_nil]
    refine ⟨by simp [owed, hc.left], ?_, by rw [ho, r.bytes_length]⟩
    simp only [owed, ho, r.scan_bytes, commandDelta_record]

theorem Bank.recv_receive (h : b.recv .eof = some b') :
    b.owed = 0 ∧ b'.owed = 0 ∧ b'.receive = b.receive := by
  simp only [recv] at h
  split at h <;> cases h
  case isTrue hc => exact ⟨by simp [owed, hc], rfl, rfl⟩

theorem Bank.dispatch_receive (n : ℤ) : (b.dispatch n).receive = b.receive := by
  unfold dispatch
  split
  case isTrue => rfl
  split
  case isTrue  => rfl
  case isFalse => split <;> rfl

theorem Bank.step_receive (h : b.step money = some (money', b')) : b'.receive = b.receive := by
  cases hpc : b.pc <;> simp only [step, hpc] at h
  case handle =>
    split at h <;> cases h
    case h_1 => exact dispatch_receive _
    case h_2 => rfl
  case load  => cases h; rfl
  case store => cases h; rfl
  all_goals contradiction

-- What a step of a session does to the balance, as seen from the messages of the client.
inductive Session.Effect (m : Memory) (p : Session) (x : Party) (m' : Memory) (p' : Session) : Prop
  | quiet (hm : m'.myMoneyNow = m.myMoneyNow) (ho : p'.outstanding = p.outstanding)
  | store (op : Operation) (n value : ℤ) (hx : x = .bank) (hpc : p.bank.pc = .store op n value)
    (hm : m'.myMoneyNow = C.int (value + op.delta n))
    (ho : p'.outstanding + op.delta n = p.outstanding)

theorem Client.loop_sent (c : Client) : c.loop.sent = c.count := by
  have hpc : c.loop.pc ≠ .v := by
    simp only [loop]
    split <;> simp
  exact if_neg hpc

@[simp]
theorem Client.loop_messages (c : Client) : c.loop.messages = c.messages :=
  rfl

-- The fields of a session that its steps keep.
structure Session.Keeps (p p' : Session) : Prop where
  messages : p'.client.messages = p.client.messages
  receive  : p.bank.receive.length = 128 → p'.bank.receive.length = 128

theorem Session.Effect.of_clientStep (h : p.clientStep m = some (m', p')) :
    Effect m p x m' p' ∧ p.Keeps p' := by
  cases hpc : p.client.pc <;> simp only [clientStep, hpc] at h
  case p =>
    split at h <;> cases h
    exact ⟨.quiet rfl <| by simp [outstanding, Client.sent, hpc], rfl, id⟩
  case send =>
    obtain ⟨message, hg, hs⟩ := Option.map_eq_some_iff.mp h
    cases hs
    have ⟨hl, hm⟩ := List.getElem?_eq_some_iff.mp hg
    refine ⟨.quiet rfl ?_, rfl, id⟩
    simp [outstanding, Client.sent, hpc, Record.delta, List.drop_eq_getElem_cons hl, hm]
    ring
  case v =>
    cases h
    refine ⟨.quiet rfl ?_, rfl, id⟩
    rw [outstanding, Client.loop_sent]
    simp [outstanding, Client.sent, hpc]
  case exit =>
    cases h
    exact ⟨.quiet rfl <| by simp [outstanding, Client.sent, hpc, Record.delta], rfl, id⟩
  case closed => contradiction

theorem Session.Effect.of_step (hl : p.bank.receive.length = 128)
    (h : p.step m x = some (m', p')) : Effect m p x m' p' ∧ p.Keeps p' := by
  cases x
  case client => exact of_clientStep h
  case bank =>
    obtain ⟨⟨money', b'⟩, hb, hs⟩ := Option.map_eq_some_iff.mp h
    cases hs
    refine ⟨?_, rfl, fun hl => by rwa [Bank.step_receive hb]⟩
    cases Bank.Effect.of_step hb
    case quiet hm ho => exact .quiet hm <| by simp [outstanding, ho]
    case store op n value hpc hm ho =>
      have hp : p.bank.owed = op.delta n := by simp [Bank.owed, hpc]
      refine .store op n value rfl hpc hm ?_
      simp only [outstanding, ho, hp]
      ring
  case wire =>
    simp only [step, wireStep] at h
    split at h
    case h_1 r wire hw =>
      obtain ⟨b', hb, hs⟩ := Option.map_eq_some_iff.mp h
      cases hs
      have ⟨ho, ho', hl'⟩ := Bank.owed_recv hl hb
      refine ⟨.quiet rfl ?_, rfl, fun _ => hl'⟩
      simp [outstanding, hw, ho, ho']
    case h_2 hw =>
      split at h
      case isFalse => contradiction
      case isTrue =>
        obtain ⟨b', hb, hs⟩ := Option.map_eq_some_iff.mp h
        cases hs
        have ⟨ho, ho', hr⟩ := Bank.recv_receive hb
        refine ⟨.quiet rfl ?_, rfl, fun hl => hr ▸ hl⟩
        simp [outstanding, hw, ho, ho']

-- What has taken effect so far is what the balance shows, and the buffers keep their size.
structure State.Sound (s : State) : Prop where
  balance : s.mem.myMoneyNow =
    C.int (s.total Session.requested - s.total Session.outstanding)
  receive : ∀ p ∈ s.procs, p.bank.receive.length = 128

theorem outstanding_start (messages : List Message) :
    (Session.start messages).outstanding = (Session.start messages).requested := by
  rw [Session.outstanding, Session.start, Client.loop_sent]
  simp [Session.requested, Bank.owed, Bank.start]

theorem State.Sound.step (hs : s.Sound) (hu : Undisturbed s a) (h : lab6.step s a = some s') :
    s'.Sound := by
  cases a
  case env x => exact x.elim
  case spawn messages =>
    cases Pool.spawn_eq h
    constructor
    case balance =>
      simpa [Pool.total, sessions, outstanding_start] using hs.balance
    case receive =>
      intro p hp
      rcases List.mem_append.mp hp with hp | hp
      case inl => exact hs.receive p hp
      case inr => cases List.mem_singleton.mp hp; rfl
  case act pid x =>
    obtain ⟨a⟩ := Pool.Acts.of_step h
    have hp := a.mem_pre
    obtain ⟨he, hk⟩ := Session.Effect.of_step (hs.receive _ hp) a.step
    have hr : s'.total Session.requested + _ = _ := Pool.total_act a
    have ho : s'.total Session.outstanding + _ = _ := Pool.total_act a
    have hq : a.post.requested = a.pre.requested := by rw [Session.requested, hk.messages]; rfl
    constructor
    case receive =>
      intro q hq
      rcases a.mem_cases hq with rfl | hq
      case inl => exact hk.receive <| hs.receive _ hp
      case inr => exact hs.receive _ <| Pool.mem_of_others hq
    case balance =>
      cases he
      case quiet hm ho' =>
        rw [hm, hs.balance]
        congr 1
        linarith
      case store op n value hx hpc hm ho' =>
        subst hx
        have hv : s.mem.myMoneyNow = value := hu _ a.get value <| by simp [Bank.loaded?, hpc]
        rw [hm, ← hv, hs.balance, C.int_add_left]
        congr 1
        linarith

theorem outstanding_of_handled (h : p.Handled) : p.outstanding = 0 := by
  have hb : p.bank.owed = 0 := by rcases h.bank with hb | hb <;> simp [Bank.owed, hb]
  have hw : (p.wire.map Record.delta).sum = 0 := by
    refine List.sum_eq_zero fun n hn => ?_
    obtain ⟨r, hr, rfl⟩ := List.mem_map.mp hn
    rw [h.wire r hr, Record.delta]
  simp [Session.outstanding, hb, hw, List.drop_of_length_le h.client]

-- The balance is what the messages of all clients add up to once they have all been handled, as
-- long as no other thread stores between the two halves of an update.
theorem balance_of_undisturbed (e : lab6.Run .initial s) (hc : e.AllSteps Undisturbed)
    (hh : ∀ p ∈ s.procs, p.Handled) (h₁ : -2 ^ 31 ≤ s.total Session.requested)
    (h₂ : s.total Session.requested < 2 ^ 31) :
    s.mem.myMoneyNow = s.total Session.requested := by
  have h₀ : State.initial.Sound := ⟨by decide, nofun⟩
  have hs : s.Sound := e.invariant h₀ (fun _ _ _ hs hc h => hs.step hc h) hc
  have ho := Pool.total_eq_zero fun p hp => outstanding_of_handled <| hh p hp
  rw [hs.balance, ho, sub_zero, C.int_eq h₁ h₂]

-- The schedule in which a client sends its next message and in which its thread receives it.
def sendNext (pid : ℕ) : List (Pool.Action (List Message) Party Empty) :=
  .replicate 3 (.act pid .client)

def receiveNext (pid : ℕ) : List (Pool.Action (List Message) Party Empty) :=
  [.act pid .wire, .act pid .bank]

def updateNext (pid : ℕ) : List (Pool.Action (List Message) Party Empty) :=
  .replicate 2 (.act pid .bank)

-- Two deposits, and the second one is received after the first one has been handled.
def orderlyDeposits : List (Pool.Action (List Message) Party Empty) :=
  [.spawn [depositTen], .spawn [depositTen]] ++ sendNext 0 ++ receiveNext 0 ++ updateNext 0 ++
    sendNext 1 ++ receiveNext 1 ++ updateNext 1

-- Both threads read the balance before one of them stores it.
def racingDeposits : List (Pool.Action (List Message) Party Empty) :=
  [.spawn [depositTen], .spawn [depositTen]] ++ sendNext 0 ++ sendNext 1 ++ receiveNext 0 ++
    receiveNext 1 ++ [.act 0 .bank, .act 1 .bank, .act 0 .bank, .act 1 .bank]

set_option maxRecDepth 4000 in
theorem balance_of_orderly_deposits : ∃ (s : State) (_ : lab6.Run .initial s),
    s.total Session.requested = 20 ∧ s.mem.myMoneyNow = s.total Session.requested := by
  obtain ⟨s, e, he, hs⟩ := Machine.Run.exists_of_exec lab6
    (fun s a => ∀ p ∈ s.running? a, ∀ value ∈ p.bank.loaded?, s.mem.myMoneyNow = value) .initial
    orderlyDeposits (fun s => (∀ p ∈ s.procs, p.Handled) ∧ s.total Session.requested = 20)
    (by decide +kernel)
  obtain ⟨hh, ht⟩ := of_decide_eq_true hs
  have hc : e.AllSteps Undisturbed := he.mono fun _ _ hc => of_decide_eq_true hc
  exact ⟨s, e, ht, balance_of_undisturbed e hc hh (by rw [ht]; decide) (by rw [ht]; decide)⟩

set_option maxRecDepth 4000 in
theorem balance_broken : ¬ ∀ (s : State) (_ : lab6.Run .initial s), (∀ p ∈ s.procs, p.Handled) →
    -2 ^ 31 ≤ s.total Session.requested → s.total Session.requested < 2 ^ 31 →
    s.mem.myMoneyNow = s.total Session.requested := by
  intro h
  obtain ⟨s, e, -, hs⟩ := Machine.Run.exists_of_exec lab6 (fun _ _ => true) .initial racingDeposits
    (fun s => (∀ p ∈ s.procs, p.Handled) ∧ s.total Session.requested = 20 ∧ s.mem.myMoneyNow = 10)
    (by decide +kernel)
  obtain ⟨hh, ht, hm⟩ := of_decide_eq_true hs
  have hb := h s e hh (by rw [ht]; decide) (by rw [ht]; decide)
  rw [ht, hm] at hb
  contradiction

end Atm
