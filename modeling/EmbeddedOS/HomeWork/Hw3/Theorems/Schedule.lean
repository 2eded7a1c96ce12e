import EmbeddedOS.HomeWork.Hw3.Schedule
import EmbeddedOS.HomeWork.Hw3.Theorems.Backlog

open C

namespace Delivery
open Schedule

namespace Platform

-- A 'confirm' has read a backlog and has not made its commit yet.
def Pc.between : Pc → Bool
  | readSecond _ | choose _ _ | writeBack _ _ => true
  | _ => false

-- The statements that change a backlog.
def Pc.commits : Pc → Bool
  | addYes _ | writeBack _ _ => true
  | _ => false

-- The backlog to which the next statement adds the distance of the order.
def adds? (p : Platform) : Option Courier :=
  match p.pc with
  | .addYes k     => some k
  | .readFirst    => some .first
  | .readSecond _ => some .second
  | _             => none

end Platform

-- A step that changes a backlog.
def Changes (s : State) : Pool.Action Unit Input Unit → Prop
  | .env _ => True
  | a      => ∃ p ∈ s.running? a, p.pc.commits

-- No commit and no tick takes place inside of the commit of another thread.
def Uninterrupted (s : State) (a : Pool.Action Unit Input Unit) : Prop :=
  Changes s a → ∀ q ∈ s.others a, q.pc.between = false

-- A backlog and the distance of an order do not overflow when they are added.
def Summable (s : State) (a : Pool.Action Unit Input Unit) : Prop :=
  ∀ p ∈ s.running? a, ∀ k ∈ p.adds?, Fits (s.mem.deliveryWaitingTime k + p.book.flag)

instance (s : State) : (a : Pool.Action Unit Input Unit) → Decidable (Changes s a)
  | .env _              => .isTrue trivial
  | .act _ _ | .spawn _ => inferInstanceAs <| Decidable (∃ _ ∈ _, _)

instance (s : State) (a : Pool.Action Unit Input Unit) : Decidable (Uninterrupted s a) :=
  inferInstanceAs <| Decidable (_ → ∀ _ ∈ _, _)

instance (s : State) (a : Pool.Action Unit Input Unit) : Decidable (Summable s a) :=
  inferInstanceAs <| Decidable (∀ _ ∈ _, ∀ _ ∈ _, _)

-- The backlogs are what is left of the last promises.
def Memory.Owes (m : Memory) (es : List Entry) : Prop :=
  ∀ k, m.deliveryWaitingTime k = max 0 (due k es - now k es)

-- What a 'confirm' has read is still the case.
def Platform.Reads (p : Platform) (v : Courier → ℤ) : Prop :=
  match p.pc with
  | .readSecond temp1   => temp1 = v .first + p.book.flag
  | .choose temp1 temp2 => temp1 = v .first + p.book.flag ∧ temp2 = v .second + p.book.flag
  | .writeBack k temp   =>
    temp = v k + p.book.flag ∧ (v .first + p.book.flag < 30 ∨ v .second + p.book.flag < 30) ∧
      k = if v .first + p.book.flag < v .second + p.book.flag then .first else .second
  | _ => True

structure Platform.Ready (p : Platform) (m : Memory) : Prop where
  flag  : 0 ≤ p.book.flag
  reads : p.Reads m.deliveryWaitingTime

-- The invariant of the runs.
structure OnTime (s : State) (es : List Entry) : Prop where
  owes  : s.mem.Owes es
  kept  : Schedule.Kept es
  ready : ∀ p ∈ s.procs, p.Ready s.mem

section

variable {m m' : Memory} {p p' : Platform} {pid : ℕ} {s s' : State} {es : List Entry}
variable {k : Courier} {flag : ℤ}

namespace Memory.Owes

-- The wait that an order would get is the sum that the code computes.
theorem resulting_eq (h : m.Owes es) (flag : ℤ) (k : Courier) :
    resulting flag k es = m.deliveryWaitingTime k + flag := by
  rw [h k, resulting]
  omega

theorem short_iff (h : m.Owes es) : Short flag es ↔
    m.deliveryWaitingTime .first + flag < 30 ∨ m.deliveryWaitingTime .second + flag < 30 := by
  rw [Short, min_lt_iff, h.resulting_eq, h.resulting_eq]

theorem better_eq (h : m.Owes es) : better flag es =
    if m.deliveryWaitingTime .first + flag < m.deliveryWaitingTime .second + flag
    then .first else .second := by
  rw [better, h.resulting_eq, h.resulting_eq]

theorem tick (h : m.Owes es) : m.tick.Owes (.ticked m.turn :: es) := by
  intro k
  have hk := h k
  by_cases ht : m.turn = k
  case pos =>
    subst ht
    simp only [Memory.tick, due, now, if_true, Memory.note_deliveryWaitingTime,
      Memory.setWaitingTime_deliveryWaitingTime, Function.update_self]
    split <;> omega
  case neg =>
    simp only [Memory.tick, due, now, ht, if_false, Memory.note_deliveryWaitingTime,
      Memory.setWaitingTime_deliveryWaitingTime]
    rw [Function.update_of_ne (Ne.symm ht), hk]

-- A commit adds the distance of the order, which is not negative, and promises the sum.
theorem commit (h : m.Owes es) {wait : ℤ} {e : Entry} (hf : 0 ≤ flag)
    (hw : wait = m.deliveryWaitingTime k + flag)
    (he : e = .agreed k flag wait ∨ e = .confirmed k flag wait)
    (hd : m'.deliveryWaitingTime = Function.update m.deliveryWaitingTime k wait) :
    m'.Owes (e :: es) := by
  intro j
  have hn : now j (e :: es) = now j es := by rcases he with rfl | rfl <;> rfl
  have hdue : due j (e :: es) = if k = j then now j es + wait else due j es := by
    rcases he with rfl | rfl <;> rfl
  rw [hd, hn, hdue]
  by_cases hj : k = j
  case pos =>
    have := h k
    subst hj
    simp only [Function.update_self, if_true]
    omega
  case neg => simp [hj, Function.update_of_ne (Ne.symm hj), h j]

end Memory.Owes

theorem Book.order_flag {b b' : Book} {itemCheck : List UInt8} {n : ℤ}
    (h : b.order itemCheck n = some b') : 0 ≤ b'.flag := by
  unfold Book.order at h
  split at h
  case h_2 => contradiction
  case h_1 shop item _ =>
    split at h
    case isFalse => contradiction
    case isTrue  =>
      cases h
      have hf : 0 ≤ shop.flag := by cases shop <;> decide
      exact hf

namespace Platform

theorem Ready.frame (h : p.Ready m) (hd : m'.deliveryWaitingTime = m.deliveryWaitingTime) :
    p.Ready m' :=
  ⟨h.flag, hd ▸ h.reads⟩

theorem Ready.of_not_between (h : 0 ≤ p.book.flag) (hb : p.pc.between = false) (m : Memory) :
    p.Ready m := by
  refine ⟨h, ?_⟩
  unfold Reads
  split <;> simp_all [Pc.between]

-- What a thread has read stays true of its own statements.
theorem Ready.move (h : p.Ready m)
    (hs : ∀ k ∈ p.adds?, Fits (m.deliveryWaitingTime k + p.book.flag)) (hm : p.Move pid m m' p') :
    p'.Ready m' := by
  cases hm
  case order book _ _ _ hb => exact .of_not_between (Book.order_flag hb) rfl _
  case readFirst hpc =>
    have hi := (hs .first <| by simp [adds?, hpc]).int_eq
    exact ⟨h.flag, hi⟩
  case readSecond temp1 hpc =>
    have hi := (hs .second <| by simp [adds?, hpc]).int_eq
    have hr := h.reads
    simp only [Reads, hpc] at hr
    exact ⟨h.flag, hr, hi⟩
  case choose temp1 temp2 k temp hpc hk ht =>
    have hr := h.reads
    simp only [Reads, hpc] at hr
    obtain ⟨rfl, rfl⟩ := hr
    refine ⟨h.flag, ?_, ht, ?_⟩
    all_goals split at hk <;> cases hk <;> simp_all
  all_goals
    apply Ready.of_not_between
    case h  => exact h.flag
    case hb => rfl

-- What a statement does to the backlogs, and what it records.
inductive Effect (p : Platform) (m m' : Memory) : Option Entry → Prop
  | quiet (hd : m'.deliveryWaitingTime = m.deliveryWaitingTime) : Effect p m m' none
  | asks (hd : m'.deliveryWaitingTime = m.deliveryWaitingTime)
    (ht : ¬(m.deliveryWaitingTime .first + p.book.flag < 30 ∨
      m.deliveryWaitingTime .second + p.book.flag < 30)) :
    Effect p m m' (some <| .asked p.book.flag)
  | agrees (k : Courier) (wait : ℤ) (hc : p.pc.commits)
    (hw : wait = m.deliveryWaitingTime k + p.book.flag)
    (hd : m'.deliveryWaitingTime = Function.update m.deliveryWaitingTime k wait) :
    Effect p m m' (some <| .agreed k p.book.flag wait)
  | confirms (k : Courier) (wait : ℤ) (hc : p.pc.commits)
    (hw : wait = m.deliveryWaitingTime k + p.book.flag)
    (ht : m.deliveryWaitingTime .first + p.book.flag < 30 ∨
      m.deliveryWaitingTime .second + p.book.flag < 30)
    (hk : k = if m.deliveryWaitingTime .first + p.book.flag <
      m.deliveryWaitingTime .second + p.book.flag then .first else .second)
    (hd : m'.deliveryWaitingTime = Function.update m.deliveryWaitingTime k wait) :
    Effect p m m' (some <| .confirmed k p.book.flag wait)

theorem Effect.of_move (h : p.Ready m)
    (hs : ∀ k ∈ p.adds?, Fits (m.deliveryWaitingTime k + p.book.flag)) (hm : p.Move pid m m' p') :
    p.Effect m m' (p.records m) := by
  have hr := h.reads
  cases hm
  case addYes k temp hpc ht =>
    have hi := (hs k <| by simp [adds?, hpc]).int_eq
    simp only [records, hpc, hi]
    exact .agrees k _ (by rw [hpc]; rfl) rfl (by rw [ht, hi]; rfl)
  case writeBack k temp hpc =>
    simp only [Reads, hpc] at hr
    simp only [records, hpc]
    exact .confirms k temp (by rw [hpc]; rfl) hr.left hr.right.left hr.right.right rfl
  case choose temp1 temp2 k temp hpc _ ht =>
    simp only [records, hpc, ht, if_true]
    exact .quiet rfl
  case chooseLong temp1 temp2 k temp hpc _ ht =>
    simp only [Reads, hpc] at hr
    simp only [records, hpc, ht, if_false]
    exact .asks rfl <| hr.left ▸ hr.right ▸ ht
  all_goals
    have hn : p.records m = none := by simp [records, *]
    exact hn ▸ .quiet rfl

end Platform

namespace OnTime

-- The law of the schedule holds of what a statement records.
theorem effect {r : Option Entry} (h : s.mem.Owes es) (hk : Schedule.Kept es)
    (hf : 0 ≤ p.book.flag) (he : p.Effect s.mem m' r) :
    m'.Owes (r.toList ++ es) ∧ Schedule.Kept (r.toList ++ es) := by
  have hp : ∀ k wait, wait = s.mem.deliveryWaitingTime k + p.book.flag →
      Promised k p.book.flag wait es :=
    fun k wait hw => (hw.trans (h.resulting_eq _ k).symm) ▸ promised_resulting k _ es
  cases he
  case quiet hd    => exact ⟨fun k => hd ▸ h k, hk⟩
  case asks hd ht => exact ⟨fun k => hd ▸ h k, mt h.short_iff.mp ht, hk⟩
  case agrees k wait _ hw hd => exact ⟨h.commit hf hw (.inl rfl) hd, hp k wait hw, hk⟩
  case confirms k wait _ hw ht hb hd =>
    exact ⟨h.commit hf hw (.inr rfl) hd, hp k wait hw, h.short_iff.mpr ht,
      hb.trans h.better_eq.symm, hk⟩

theorem spawn (h : OnTime s es) (hs : system.step s (.spawn ()) = some s') : OnTime s' es := by
  cases Pool.spawn_eq hs
  refine ⟨h.owes, h.kept, fun p hp => ?_⟩
  rcases List.mem_append.mp hp with hp | hp
  case inl => exact h.ready p hp
  case inr =>
    cases List.mem_singleton.mp hp
    exact .of_not_between le_rfl rfl _

theorem tick (h : OnTime s es) (hu : Uninterrupted s (.env ()))
    (hs : system.step s (.env ()) = some s') : OnTime s' (.ticked s.mem.turn :: es) := by
  obtain ⟨_, hm, rfl⟩ := Pool.env_eq hs
  cases hm
  exact ⟨h.owes.tick, h.kept, fun p hp => .of_not_between (h.ready p hp).flag (hu trivial p hp) _⟩

-- A statement does not interfere with what the other threads have read.
theorem others (h : OnTime s es) (hu : Uninterrupted s (.act pid .run))
    (a : Pool.Acts platforms s pid .run s') {r : Option Entry} (he : a.pre.Effect s.mem s'.mem r)
    {q : Platform} (hq : q ∈ s.others (.act pid .run : Pool.Action Unit Input Unit)) :
    q.Ready s'.mem := by
  have hr := h.ready q <| Pool.mem_of_others hq
  have hn : a.pre.pc.commits → q.Ready s'.mem := fun hc =>
    .of_not_between hr.flag (hu ⟨a.pre, a.get, hc⟩ q hq) _
  cases he
  case quiet hd            => exact hr.frame hd
  case asks hd _           => exact hr.frame hd
  case agrees hc _ _       => exact hn hc
  case confirms hc _ _ _ _ => exact hn hc

theorem run (h : OnTime s es) (hu : Uninterrupted s (.act pid .run))
    (hf : Summable s (.act pid .run)) (hs : system.step s (.act pid .run) = some s') :
    OnTime s' ((recorded s <| .act pid .run).toList ++ es) := by
  have ⟨a⟩ := Pool.Acts.of_step hs
  have hr := h.ready a.pre a.mem_pre
  have hm := Platform.Move.of_step a.step
  have hc := hf a.pre a.get
  have he := Platform.Effect.of_move hr hc hm
  have hrec : recorded s (.act pid .run) = a.pre.records s.mem := by
    rw [recorded, a.get, Option.bind_some]
  have ⟨ho, hk⟩ := effect h.owes h.kept hr.flag he
  rw [hrec]
  refine ⟨ho, hk, fun p hp => ?_⟩
  rcases a.mem_cases hp with rfl | hq
  case inl => exact hr.move hc hm
  case inr => exact h.others hu a he hq

theorem recv {i : Input} (h : OnTime s es) (hi : i ≠ .run)
    (hs : system.step s (.act pid i) = some s') : OnTime s' es := by
  have ⟨a⟩ := Pool.Acts.of_step hs
  have ⟨hm, _, hb, _, hpc⟩ := Platform.input_eq hi a.step
  refine ⟨hm ▸ h.owes, h.kept, fun p hp => hm ▸ ?_⟩
  rcases a.mem_cases hp with rfl | hq
  case inr => exact h.ready p <| Pool.mem_of_others hq
  case inl =>
    have hr := h.ready a.pre a.mem_pre
    refine .of_not_between (hb ▸ hr.flag) ?_ _
    cases hpc <;> simp [*, Platform.Pc.between]

theorem step {a : Pool.Action Unit Input Unit} (h : OnTime s es)
    (hc : Uninterrupted s a ∧ Summable s a) (hs : system.step s a = some s') :
    OnTime s' ((recorded s a).toList ++ es) := by
  cases a
  case spawn     => exact h.spawn hs
  case env       => exact h.tick hc.left hs
  case act pid i =>
    by_cases hi : i = .run
    case pos => subst hi; exact h.run hc.left hc.right hs
    case neg =>
      have hr : recorded s (.act pid i) = none := by
        cases i
        case run => contradiction
        all_goals rfl
      exact hr ▸ h.recv hi hs

end OnTime

-- As long as no commit is interrupted and no sum overflows, each backlog is what is left until the
-- last promise of its courier, and all promises and questions keep the law of the schedule.
theorem onTime_of_uninterrupted (e : system.Run .initial s)
    (hc : e.AllSteps fun s a => Uninterrupted s a ∧ Summable s a) :
    (∀ k, s.mem.deliveryWaitingTime k =
      max 0 (due k (e.history recorded) - now k (e.history recorded))) ∧
      Schedule.Kept (e.history recorded) := by
  have h₀ : OnTime .initial [] := ⟨fun _ => rfl, trivial, nofun⟩
  have ht : OnTime s (e.history recorded) :=
    e.invariant_history h₀ (fun _ _ _ _ h hc hs => h.step hc hs) hc
  exact ⟨ht.owes, ht.kept⟩

-- Two customers and a tick between them.
def twoCustomers : List (Pool.Action Unit Input Unit) :=
  [.spawn (), message 0 "order tea 1\n"] ++ statements 0 2 ++ [message 0 "confirm\n"] ++
  statements 0 5 ++ [.env (), .env (), .spawn (), message 1 "order cake 1\n"] ++
  statements 1 2 ++ [message 1 "confirm\n"] ++ statements 1 5

set_option maxRecDepth 4000 in
theorem onTime_of_two_customers : ∃ (s : State) (e : system.Run .initial s),
    s.mem.deliveryWaitingTime .first = 3 ∧ s.mem.deliveryWaitingTime .second = 4 ∧
      (∀ k, s.mem.deliveryWaitingTime k =
        max 0 (due k (e.history recorded) - now k (e.history recorded))) ∧
      Schedule.Kept (e.history recorded) := by
  have ⟨s, e, he, hs⟩ := Machine.Run.exists_of_exec system
    (fun s a => decide (Uninterrupted s a ∧ Summable s a)) .initial twoCustomers
    (fun s => s.mem.deliveryWaitingTime .first = 3 ∧ s.mem.deliveryWaitingTime .second = 4)
    (by decide +kernel)
  have ⟨h₁, h₂⟩ := of_decide_eq_true hs
  exact ⟨s, e, h₁, h₂, onTime_of_uninterrupted e (by simpa using he)⟩

-- A customer orders a fried rice and confirms. The session goes on until it has read both waits.
def askForRice : List Input :=
  [.bytes <| ascii "order fried-rice 1\n" ++ [0], .run, .run, .bytes <| ascii "confirm\n" ++ [0],
    .run, .run, .run]

theorem solo_askForRice (pid : ℕ) (m : Memory) : ∃ m' p',
    Pool.solo platforms pid askForRice m .start = some (m', p') ∧
      m'.deliveryWaitingTime = m.deliveryWaitingTime ∧ p'.book.flag = 8 ∧
      p'.pc = .choose (C.int (m.deliveryWaitingTime .first + 8))
        (C.int (m.deliveryWaitingTime .second + 8)) :=
  ⟨_, _, rfl, rfl, rfl, rfl⟩

-- The session commits the order, at once or when the customer says yes.
def sayYes : List Input :=
  [.run, .bytes <| ascii "Yes\n" ++ [0], .run, .run]

theorem solo_commit {temp1 temp2 : ℤ} (pid : ℕ) (m : Memory) (hpc : p.pc = .choose temp1 temp2)
    (h₁ : temp1 = C.int (m.deliveryWaitingTime .first + p.book.flag))
    (h₂ : temp2 = C.int (m.deliveryWaitingTime .second + p.book.flag)) :
    let k := if temp1 < temp2 then Courier.first else .second
    ∃ xs m' p', Pool.solo platforms pid xs m p = some (m', p') ∧ p'.pc.between = false ∧
      m'.deliveryWaitingTime = Function.update m.deliveryWaitingTime k
        (C.int (m.deliveryWaitingTime k + p.book.flag)) := by
  intro k
  have hk : (if temp1 < temp2 then (Courier.first, temp1) else (.second, temp2)) =
      (k, C.int (m.deliveryWaitingTime k + p.book.flag)) := by
    simp only [k]
    split <;> simp only [h₁, h₂]
  let q : Platform := { p with who := some k }
  by_cases ht : temp1 < 30 ∨ temp2 < 30
  case pos =>
    have hs : p.input pid m .run =
        some (m, q.goto <| .writeBack k <| C.int (m.deliveryWaitingTime k + p.book.flag)) := by
      simp only [Platform.input, Platform.step, hpc, hk, ht, if_true, q]
    exact ⟨.run :: [.run], _, _, (Pool.solo_cons hs).trans rfl, rfl, rfl⟩
  case neg =>
    have hs : p.input pid m .run = some (m, q.goto <| .send .longWait) := by
      simp only [Platform.input, Platform.step, hpc, hk, ht, if_false, q]
    exact ⟨.run :: sayYes, _, _, (Pool.solo_cons hs).trans rfl, rfl, rfl⟩

-- A customer who waits for as long as it takes gets the better courier, whatever the backlogs are.
theorem solo_order (pid : ℕ) (m : Memory) :
    let k := if C.int (m.deliveryWaitingTime .first + 8) < C.int (m.deliveryWaitingTime .second + 8)
      then Courier.first else .second
    ∃ xs m' p', Pool.solo platforms pid xs m .start = some (m', p') ∧ p'.pc.between = false ∧
      m'.deliveryWaitingTime = Function.update m.deliveryWaitingTime k
        (C.int (m.deliveryWaitingTime k + 8)) := by
  obtain ⟨m₁, p₁, h₁, hd, hf, hpc⟩ := solo_askForRice pid m
  obtain ⟨xs, m₂, p₂, h₂, hb, hv⟩ := solo_commit pid m₁ hpc (by rw [hd, hf]) (by rw [hd, hf])
  refine ⟨askForRice ++ xs, m₂, p₂, ?_, hb, ?_⟩
  case refine_1 => rw [Pool.solo_append, h₁, Option.bind_some]; exact h₂
  case refine_2 => rw [hv, hd, hf]

-- A state that can be reached without any interruption, between two orders.
def Calm (v : Courier → ℤ) : Prop :=
  ∃ (s : State) (e : system.Run .initial s), e.AllSteps Uninterrupted ∧
    (∀ q ∈ s.procs, q.pc.between = false) ∧ s.mem.deliveryWaitingTime = v

theorem Calm.order {v : Courier → ℤ} (h : Calm v) :
    let k := if C.int (v .first + 8) < C.int (v .second + 8) then Courier.first else .second
    Calm (Function.update v k <| C.int (v k + 8)) := by
  obtain ⟨s, e, he, hq, rfl⟩ := h
  intro k
  obtain ⟨xs, m', p', hs, hb, hd⟩ := solo_order s.procs.length s.mem
  let s₁ : State := { s with procs := s.procs ++ [.start] }
  have hsp : system.step s (.spawn ()) = some s₁ := rfl
  have hget : s₁.procs[s.procs.length]? = some .start := by simp [s₁]
  have ho : ∀ x : Input, s₁.others (.act s.procs.length x : Pool.Action Unit Input Unit) =
      s.procs := by
    intro x
    change (s.procs ++ [Platform.start]).eraseIdx s.procs.length = s.procs
    rw [List.eraseIdx_append_of_length_le le_rfl, Nat.sub_self]
    exact List.append_nil _
  have ⟨f, hf⟩ := Pool.exists_run_of_solo (e.step _ hsp) ⟨he, nofun⟩ hget hs
    fun t x ht _ q hm => hq q <| ho x ▸ ht ▸ hm
  refine ⟨_, f, hf, fun q hm => ?_, hd⟩
  rcases List.mem_or_eq_of_mem_set hm with hm | rfl
  case inr => exact hb
  case inl =>
    rcases List.mem_append.mp hm with hm | hm
    case inl => exact hq q hm
    case inr => cases List.mem_singleton.mp hm; rfl

-- Of two couriers with the same backlog the second one gets the order.
theorem Calm.order_second {n : ℤ} (h : Calm fun _ => n) :
    Calm <| Function.update (fun _ => n) .second <| C.int (n + 8) := by
  have h₁ := h.order
  rwa [if_neg (lt_irrefl _)] at h₁

-- Two orders make both backlogs longer by the same distance, as long as they fit.
theorem Calm.orders {n : ℤ} (h : Calm fun _ => n) (h₀ : 0 ≤ n) (hn : n + 16 < 2 ^ 31) :
    Calm fun _ => n + 8 := by
  have h₁ : C.int (n + 8) = n + 8 := C.int_eq (by omega) (by omega)
  have h₂ : C.int (n + 8 + 8) = n + 8 + 8 := C.int_eq (by omega) (by omega)
  have ho := (h₁ ▸ h.order_second).order
  have hv : (fun _ => n + 8) = Function.update
      (Function.update (fun _ : Courier => n) .second (n + 8)) .first (n + 8) := by
    funext k
    cases k <;> simp
  have hf : Function.update (fun _ : Courier => n) .second (n + 8) .first = n := rfl
  have hs : Function.update (fun _ : Courier => n) .second (n + 8) .second = n + 8 := rfl
  dsimp only at ho
  rw [hf, hs, h₁, h₂, if_pos (by omega), hf, h₁] at ho
  exact hv ▸ ho

theorem calm_mul {n : ℕ} (hn : 8 * (n : ℤ) + 8 < 2 ^ 31) : Calm fun _ => 8 * (n : ℤ) := by
  induction n
  case zero => exact ⟨_, .refl, trivial, nofun, rfl⟩
  case succ n hi =>
    have h := (hi <| by push_cast at hn; omega).orders (by omega) (by push_cast at hn; omega)
    have hv : (8 * (n + 1 : ℕ) : ℤ) = 8 * n + 8 := by push_cast; ring
    exact hv ▸ h

-- After very many orders without a tick a sum overflows, and the backlog becomes negative.
theorem onTime_broken : ¬ ∀ (s : State) (e : system.Run .initial s), e.AllSteps Uninterrupted →
    ∀ k, s.mem.deliveryWaitingTime k =
      max 0 (due k (e.history recorded) - now k (e.history recorded)) := by
  intro h
  have hc : Calm fun _ => 8 * (2 ^ 28 - 2 : ℕ) := calm_mul (by norm_num)
  obtain ⟨s, e, he, _, hd⟩ := hc.order_second.order
  have hs := h s e he .second
  have hv : s.mem.deliveryWaitingTime .second = -2 ^ 31 := by
    rw [hd]
    decide
  omega

end
end Delivery
