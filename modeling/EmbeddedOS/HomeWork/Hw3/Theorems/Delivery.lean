import EmbeddedOS.HomeWork.Hw3.Theorems.Moves

namespace Delivery

-- The session has handled a 'confirm' with a price, and its flag has been added to a backlog.
def Confirmed (pid : ℕ) (log : List Event) : Prop :=
  ∃ price, price ≠ 0 ∧ .confirmed pid price ∈ log

def Committed (pid : ℕ) (flag : ℤ) (log : List Event) : Prop :=
  ∃ k, .committed pid k flag ∈ log

-- Each 'Delivery has arrived and you need to pay %d$' of a history comes with a price, after a
-- 'confirm' with a price and after the flag of the order has been added to a backlog.
def Earned : List Event → Prop
  | [] => True
  | .sent pid flag (.arrived price) :: log =>
    price ≠ 0 ∧ (∃ shop : Shop, flag = shop.flag) ∧ Confirmed pid log ∧ Committed pid flag log ∧
      Earned log
  | _ :: log => Earned log

-- 'Yes' comes after a 'confirm' has chosen a courier, while the session has a price.
def YesAsked (s : State) (a : Pool.Action Unit Input (Courier → ℤ)) : Prop :=
  ∀ p ∈ s.running? a, p.pc = .handle → C.string? p.receive = some (C.ascii "Yes\n") →
    p.who ≠ none ∧ p.book.price ≠ 0

instance (s : State) (a : Pool.Action Unit Input (Courier → ℤ)) : Decidable (YesAsked s a) :=
  inferInstanceAs <| Decidable (∀ _ ∈ _, _ → _ → _)

namespace Platform

-- The thread is on its way from 'Yes' or 'confirm' to the delivery, and it has made its commit.
def Pc.charging : Pc → Bool
  | addYes _ | readFirst | readSecond _ | choose .. | writeBack .. => true
  | sendWait _ | sleep _ | deliver => true
  | _ => false

def Pc.committed : Pc → Bool
  | sendWait _ | sleep _ | deliver => true
  | _ => false

def Pc.plain : Pc → Bool
  | send (.arrived _) => false
  | _ => true

-- What a session knows about its own history.
structure Knows (m : Memory) (pid : ℕ) (p : Platform) : Prop where
  book      : p.book.price ≠ 0 → ∃ shop : Shop, p.book.flag = shop.flag
  who       : p.who ≠ none → Confirmed pid m.log
  charging  : p.pc.charging → p.book.price ≠ 0 ∧ Confirmed pid m.log
  committed : p.pc.committed → Committed pid p.book.flag m.log
  plain     : p.pc.plain

end Platform

-- The sessions with any backlogs that they may meet.
def session : Machine State (Pool.Action Unit Input (Courier → ℤ)) :=
  Pool.machine sessions

variable {m m' : Memory} {p p' : Platform} {pid : ℕ} {s s' : State} {log : List Event} {e : Event}

theorem Confirmed.cons (h : Confirmed pid log) : Confirmed pid (e :: log) := by
  have ⟨price, hp, hm⟩ := h
  exact ⟨price, hp, List.mem_cons_of_mem _ hm⟩

theorem Committed.cons {flag : ℤ} (h : Committed pid flag log) : Committed pid flag (e :: log) := by
  have ⟨k, hm⟩ := h
  exact ⟨k, List.mem_cons_of_mem _ hm⟩

theorem Earned.cons (h : Earned log) (he : ∀ pid flag price, e ≠ .sent pid flag (.arrived price)) :
    Earned (e :: log) := by
  unfold Earned
  split
  case h_1 => trivial
  case h_2 hl =>
    cases hl
    exact absurd rfl (he _ _ _)
  case h_3 hl =>
    cases hl
    exact h

namespace Platform.Knows

-- The knowledge of a session outlives what the other sessions do.
theorem cons (h : p.Knows m pid) (hl : m'.log = m.log ∨ ∃ e, m'.log = e :: m.log) :
    p.Knows m' pid := by
  rcases hl with hl | ⟨e, hl⟩
  case inl => exact ⟨h.book, hl ▸ h.who, hl ▸ h.charging, hl ▸ h.committed, h.plain⟩
  case inr =>
    constructor
    case book      => exact h.book
    case who       => exact fun hw => hl ▸ (h.who hw).cons
    case charging  => exact fun hc => ⟨(h.charging hc).left, hl ▸ (h.charging hc).right.cons⟩
    case committed => exact fun hc => hl ▸ (h.committed hc).cons
    case plain     => exact h.plain

theorem idle {pc : Platform.Pc} (h : p.Knows m pid) (hc : pc.charging = false)
    (hd : pc.committed = false) (hp : pc.plain) : (p.goto pc).Knows m pid := by
  constructor
  case book      => exact h.book
  case who       => exact h.who
  case charging  => simp [Platform.goto, hc]
  case committed => simp [Platform.goto, hd]
  case plain     => exact hp

end Platform.Knows

theorem Book.order_price {b b' : Book} {itemCheck : List UInt8} {n : ℤ}
    (h : b.order itemCheck n = some b') : ∃ shop : Shop, b'.flag = shop.flag := by
  simp only [order] at h
  split at h
  case h_1 shop _ _ =>
    split at h
    case isTrue  => cases h; exact ⟨shop, rfl⟩
    case isFalse => contradiction
  case h_2 => contradiction

theorem Platform.Knows.move (hk : p.Knows m pid)
    (hy : p.pc = .handle → C.string? p.receive = some (C.ascii "Yes\n") →
      p.who ≠ none ∧ p.book.price ≠ 0)
    (h : p.Move pid m m' p') : p'.Knows m' pid := by
  cases h
  case yes k hpc hr hw =>
    have ⟨hw, hp⟩ := hy hpc hr
    exact ⟨hk.book, hk.who, fun _ => ⟨hp, hk.who hw⟩, nofun, rfl⟩
  case yesUnasked hpc hr hw => exact absurd hw (hy hpc hr).left
  case confirm hpc hr hp =>
    have hc : Confirmed pid (m.note <| .confirmed pid p.book.price).log :=
      ⟨_, hp, List.mem_cons_self⟩
    exact ⟨hk.book, fun _ => hc, fun _ => ⟨hp, hc⟩, nofun, rfl⟩
  case order hb => exact ⟨fun _ => Book.order_price hb, hk.who, nofun, nofun, rfl⟩
  case addYes k temp hpc _ | writeBack k temp hpc =>
    have ⟨hp, hc⟩ := hk.charging (by rw [hpc]; rfl)
    exact ⟨hk.book, fun _ => hc.cons, fun _ => ⟨hp, hc.cons⟩, fun _ => ⟨k, List.mem_cons_self⟩, rfl⟩
  case readFirst hpc | readSecond hpc =>
    have hc := hk.charging (by rw [hpc]; rfl)
    exact ⟨hk.book, hk.who, fun _ => hc, nofun, rfl⟩
  case choose hpc _ _ =>
    have hc := hk.charging (by rw [hpc]; rfl)
    exact ⟨hk.book, fun _ => hc.right, fun _ => hc, nofun, rfl⟩
  case chooseLong hpc _ _ =>
    have hc := hk.charging (by rw [hpc]; rfl)
    exact ⟨hk.book, fun _ => hc.right, nofun, nofun, rfl⟩
  case sendWait hpc =>
    have ⟨hp, hc⟩ := hk.charging (by rw [hpc]; rfl)
    have hd := hk.committed (by rw [hpc]; rfl)
    exact ⟨hk.book, fun _ => hc.cons, fun _ => ⟨hp, hc.cons⟩, fun _ => hd.cons, rfl⟩
  case sleep hpc _ | wake hpc _ =>
    have hc := hk.charging (by rw [hpc]; rfl)
    have hd := hk.committed (by rw [hpc]; rfl)
    exact ⟨hk.book, hk.who, fun _ => hc, fun _ => hd, rfl⟩
  case confirmFree | deliver | send => exact (hk.cons <| .inr ⟨_, rfl⟩).idle rfl rfl rfl
  all_goals exact hk.idle rfl rfl rfl

-- What a statement adds to the history: at most one event, and a delivery in one place only.
theorem Platform.Move.log_cases (h : p.Move pid m m' p') :
    m'.log = m.log ∨ ∃ e, m'.log = e :: m.log ∧
      ((∀ q flag price, e ≠ .sent q flag (.arrived price)) ∨
        (p.pc.plain → p.pc = .deliver ∧ e = .sent pid p.book.flag (.arrived p.book.price))) := by
  cases h
  case confirmFree | confirm | addYes | writeBack | sendWait => exact .inr ⟨_, rfl, .inl (by simp)⟩
  case deliver hpc => exact .inr ⟨_, rfl, .inr fun _ => ⟨hpc, rfl⟩⟩
  case send r hpc =>
    refine .inr ⟨_, rfl, ?_⟩
    cases r
    case arrived => exact .inr <| by simp [Pc.plain, hpc]
    all_goals exact .inl (by simp)
  all_goals exact .inl rfl

theorem Platform.Move.extends (h : p.Move pid m m' p') :
    m'.log = m.log ∨ ∃ e, m'.log = e :: m.log :=
  h.log_cases.imp id fun ⟨e, hl, _⟩ => ⟨e, hl⟩

theorem Earned.move (he : Earned m.log) (hk : p.Knows m pid) (h : p.Move pid m m' p') :
    Earned m'.log := by
  rcases h.log_cases with hl | ⟨e, hl, hn | hd⟩
  case inl => exact hl ▸ he
  case inr.inl => exact hl ▸ he.cons hn
  case inr.inr =>
    have ⟨hpc, hs⟩ := hd hk.plain
    have ⟨hp, hc⟩ := hk.charging (by rw [hpc]; rfl)
    rw [hl, hs]
    exact ⟨hp, hk.book hp, hc, hk.committed (by rw [hpc]; rfl), he⟩

-- What `recv` returns tells a session nothing about its history.
theorem Platform.Knows.input {i : Input} (hk : p.Knows m pid) (hi : i ≠ .run)
    (h : p.input pid m i = some (m', p')) : m' = m ∧ p'.Knows m pid := by
  have ⟨hm, _, hb, hw, hpc⟩ := input_eq hi h
  refine ⟨hm, hb ▸ hk.book, hw ▸ hk.who, ?_, ?_, ?_⟩
  all_goals cases hpc <;> simp [*, Pc.charging, Pc.committed, Pc.plain]

theorem knowledge : Pool.Annotation sessions YesAsked (fun m => Earned m.log)
    (fun m pid p => p.Knows m pid) where
  spawn _ _ := ⟨fun h => absurd rfl h, fun h => absurd rfl h, nofun, nofun, rfl⟩
  env he h := by
    cases h
    exact ⟨he, fun hk => hk.cons <| .inl rfl⟩
  step {s pid i s'} hs hc a := by
    have hk := hs.procs a.get
    by_cases hi : i = .run
    case pos =>
      subst hi
      have h := Platform.Move.of_step a.step
      exact ⟨hs.mem.move hk h, hk.move (hc _ a.get) h⟩
    case neg =>
      have ⟨hm, hk⟩ := hk.input hi a.step
      exact ⟨hm ▸ hs.mem, hm ▸ hk⟩
  other {s pid i s'} hs hc a {j q} _ hq := by
    have hk := hs.procs hq
    by_cases hi : i = .run
    case pos => subst hi; exact hk.cons <| (Platform.Move.of_step a.step).extends
    case neg => exact ((hs.procs a.get).input hi a.step).left ▸ hk

def State.meeting (v : Courier → ℤ) : State where
  mem   := { deliveryWaitingTime := v, turn := .first, log := [] }
  procs := []

-- As long as 'Yes' only answers the question that a 'confirm' has asked, and there is something to
-- pay by then, every delivery has been earned.
theorem earned_of_yesAsked {v : Courier → ℤ} (e : session.Run (.meeting v) s)
    (hc : e.AllSteps YesAsked) : Earned s.mem.log := by
  have h₀ : Pool.Annotated (fun m => Earned m.log) (fun m pid p => Platform.Knows m pid p)
      (State.meeting v) := ⟨trivial, by simp [State.meeting]⟩
  exact (knowledge.run h₀ e hc).mem

-- The customer is asked whether to wait, and says yes.
def patientCustomer : List (Pool.Action Unit Input (Courier → ℤ)) :=
  [.spawn (), message 0 "order tea 1\n"] ++ statements 0 2 ++
  [message 0 "confirm\n"] ++ statements 0 5 ++ [message 0 "Yes\n"] ++ statements 0 40

set_option maxRecDepth 2000 in
theorem earned_of_patient_customer : ∃ (s : State) (_ : session.Run (.meeting fun _ => 30) s),
    .sent 0 5 (.arrived 40) ∈ s.mem.log ∧ Earned s.mem.log := by
  have ⟨s, e, he, hs⟩ := Machine.Run.exists_of_exec session (fun s a => decide (YesAsked s a))
    (.meeting fun _ => 30) patientCustomer (fun s => .sent 0 5 (.arrived 40) ∈ s.mem.log)
    (by decide)
  exact ⟨s, e, of_decide_eq_true hs, earned_of_yesAsked e (by simpa using he)⟩

-- The customer says yes without having been asked anything.
def hastyCustomer : List (Pool.Action Unit Input (Courier → ℤ)) :=
  [.spawn (), message 0 "Yes\n"] ++ statements 0 4

theorem earned_broken : ¬ ∀ (v : Courier → ℤ) (s : State) (_ : session.Run (.meeting v) s),
    Earned s.mem.log := by
  intro h
  have ⟨s, e, _, hs⟩ := Machine.Run.exists_of_exec session (fun _ _ => true) (.meeting fun _ => 0)
    hastyCustomer (fun s => s.mem.log.head? = some (.sent 0 0 (.arrived 0))) (by decide)
  have he := h _ s e
  have ⟨log, hl⟩ := List.head?_eq_some_iff.mp (of_decide_eq_true hs)
  rw [hl] at he
  exact he.left rfl

end Delivery
