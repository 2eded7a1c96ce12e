import EmbeddedOS.FinalProject.Theorems.Alone
import EmbeddedOS.FinalProject.Theorems.Marked

namespace Parking

deriving instance DecidableEq for Payment

def Payment.accepted (y : Payment) : Bool :=
  match y.pc with
  | .acquireMark _ => true
  | _ => false

-- A payment for a parked car: it quotes at `t`, and at `tau`, after any number of other replies, it
-- gets the one that it accepts. The run goes on to the state `s`.
structure Pays (start : ℤ) (p : Plate) (i : Slot) (pid : ℕ) (t tau : ℤ) (s : State) where
  {s₀ s₁ s₂ s₃ : State}
  {reply : Input}
  reached  : system.Run (.initial start) s₀
  parked   : s₀.mem.lookup p = some i
  quotes   : s₀.payment? pid = some { plate := p, pc := .quote i }
  quoted   : system.step s₀ (.act pid .run) = some s₁
  time     : s₀.mem.clock = t
  waits    : system.Run s₁ s₂
  quiet    : waits.AllSteps (Undisturbed p i [pid])
  replied  : system.step s₂ (.act pid reply) = some s₃
  accepted : (s₃.payment? pid).any (·.accepted)
  time'    : s₂.mem.clock = tau
  goesOn   : system.Run s₃ s
  quiet'   : goesOn.AllSteps (Undisturbed p i [pid])

-- The answer that an exit is about to send.
def Exitpark.sends? (e : Exitpark) : Option Reply :=
  match e.pc with
  | .success _ => some .exitSuccess
  | .reply r   => some r
  | _ => none

-- An exit reads the clock at `x`.
def ReadsClock (pid : ℕ) (x : ℤ) (s : State) (a : Action) : Prop :=
  a.actor? = some pid → ∀ e ∈ s.exit? pid, ∀ pos, e.pc = .checkTime pos → s.mem.clock = x

-- From the state `s` on, an exit of the car comes to the answer `r`, having read the clock at `x`.
structure Exits (p : Plate) (i : Slot) (pid : ℕ) (s : State) (x : ℤ) (r : Reply) where
  {s' : State}
  run    : system.Run { s with procs := s.procs ++ [fork (.exit p)] } s'
  quiet  : run.AllSteps (Undisturbed p i [pid, s.procs.length])
  time   : run.AllSteps (ReadsClock s.procs.length x)
  answer : (s'.exit? s.procs.length).bind (·.sends?) = some r

-- What the client has been told: it has 25 minutes, which are seconds here, from its payment on.
def Promised (tau x : ℤ) (r : Reply) : Prop :=
  (x ≤ tau + 25 → r = .exitSuccess) ∧ (tau + 25 < x → r = .repay)

-- The time of the quote is no marker, and the exits that come in time for the payment come in time
-- for the quote too.
def QuotedInTime (t tau x : ℤ) : Prop :=
  t ≠ 0 ∧ (x ≤ tau + 25 → x ≤ t + 25)

-- The answer of an exit when `pay_t` is `t`.
def verdict (t x : ℤ) : Reply :=
  if t = 0 then .payFirst else if x - t > 25 then .repay else .exitSuccess

-- An exit that will come to the verdict for `t` and `x`.
def Exitpark.Decides (p : Plate) (i : Slot) (t x : ℤ) (m : Memory) (e : Exitpark) : Prop :=
  e.plate = p ∧ match e.pc with
  | .scan | .rescan    => m.Marked p i t
  | .checkPaid k       => slot? k = some i ∧ m.Marked p i t
  | .checkTime pos     => pos = i ∧ t ≠ 0 ∧ m.Marked p i t
  | .acquireLate _ | .expire _ | .releaseLate _ => verdict t x = .repay
  | .acquireFree _ | .free _ | .releaseFree _ | .success _ | .light _ => verdict t x = .exitSuccess
  | .reply r           => r = verdict t x
  | .exited | .killed | .faulted | .faultedInside => True

-- What becomes of an exit that is coming to its verdict.
def State.Decides (s : State) (j : ℕ) (p : Plate) (i : Slot) (t x : ℤ) : Prop :=
  ∃ e, s.exit? j = some e ∧ e.Decides p i t x s.mem

-- The car has got its quote, and its payment goes on.
structure State.Awaits (s : State) (p : Plate) (i : Slot) (pid : ℕ) (t : ℤ) : Prop where
  represents : s.Represents
  repeats    : s.Repeats pid i t
  marked     : s.mem.Marked p i t

variable {m m' : Memory} {pid j : ℕ} {p : Plate} {i : Slot} {start t tau x : ℤ} {s s' : State}

theorem promised_verdict_iff (h : t ≤ tau) :
    Promised tau x (verdict t x) ↔ QuotedInTime t tau x := by
  unfold Promised verdict QuotedInTime
  split
  case isTrue h₀ =>
    simp only [reduceCtorEq, imp_false, h₀, ne_eq, not_true_eq_false, false_and, iff_false]
    omega
  case isFalse h₀ =>
    split <;> simp only [reduceCtorEq, imp_false, h₀, ne_eq, not_false_eq_true, true_and,
      implies_true, and_true] <;> omega

theorem Exitpark.Decides.of_marked {e : Exitpark} (h : e.Decides p i t x m)
    (hm : m.Marked p i t → m'.Marked p i t) : e.Decides p i t x m' := by
  obtain ⟨hp, h⟩ := h
  refine ⟨hp, ?_⟩
  cases hpc : e.pc <;> simp only [hpc] at h ⊢
  case scan | rescan => exact hm h
  case checkPaid => exact h.imp id hm
  case checkTime => exact h.imp id (.imp id hm)
  all_goals exact h

theorem Exitpark.Decides.move {e e' : Exitpark} (hd : e.Decides p i t x m)
    (hx : ∀ pos, e.pc = .checkTime pos → m.clock = x) (h : e.Move pid m m' e') :
    e'.Decides p i t x m' := by
  obtain ⟨rfl, hd⟩ := hd
  cases h
  case found hpc hl =>
    simp only [hpc] at hd
    exact ⟨rfl, hd⟩
  case noCar hpc hl =>
    simp only [hpc] at hd
    simp [hd.lookup] at hl
  case rescan hpc =>
    simp only [hpc] at hd
    exact ⟨rfl, by rw [Memory.slot?_scanIndex, hd.lookup], hd⟩
  case fault hpc hi =>
    simp only [hpc] at hd
    simp [hd.left] at hi
  case unpaid hpc hi hp =>
    simp only [hpc] at hd
    obtain ⟨hs, hd⟩ := hd
    cases hs.symm.trans hi
    exact ⟨rfl, (if_pos <| hd.payT.symm.trans hp).symm⟩
  case paid hpc hi hp =>
    simp only [hpc] at hd
    obtain ⟨hs, hd⟩ := hd
    cases hs.symm.trans hi
    exact ⟨rfl, rfl, hd.payT ▸ hp, hd⟩
  case late pos hpc ht =>
    simp only [hpc] at hd
    obtain ⟨rfl, hn, hd⟩ := hd
    rw [hx pos hpc, hd.payT] at ht
    exact ⟨rfl, by simp [verdict, hn, ht]⟩
  case inTime pos hpc ht =>
    simp only [hpc] at hd
    obtain ⟨rfl, hn, hd⟩ := hd
    rw [hx pos hpc, hd.payT] at ht
    exact ⟨rfl, by simp [verdict, hn, ht]⟩
  case releaseLate hpc =>
    simp only [hpc] at hd
    exact ⟨rfl, hd.symm⟩
  case acquireLate hpc _ | acquireFree hpc _ | expire hpc | releaseFree hpc | success hpc =>
    simp only [hpc] at hd
    exact ⟨rfl, hd⟩
  case free hpc _ =>
    simp only [hpc] at hd
    exact ⟨rfl, hd⟩
  all_goals exact ⟨rfl, trivial⟩

theorem State.Decides.step {a : Action} (hl : s.Represents) (hr : s.Repeats pid i t)
    (hd : s.Decides j p i t x) (hu : Undisturbed p i [pid, j] s a) (hx : ReadsClock j x s a)
    (h : system.step s a = some s') : s'.Decides j p i t x := by
  obtain ⟨e, he, hd⟩ := hd
  obtain ⟨b, hc⟩ := exit?_eq_some.mp he
  by_cases ha : a.actor? = some j
  case neg =>
    refine ⟨e, exit?_eq_some.mpr ⟨b, procs_kept h hc ha⟩, hd.of_marked fun hk => ?_⟩
    refine marked_step hl hr hu (fun k hk ho => ?_) h hk
    cases ho
    case head => rfl
    case tail ho => exact absurd (List.mem_singleton.mp ho ▸ hk) ha
  case pos =>
    have hclock := hx ha e he
    cases a <;> simp only [Pool.Action.actor?, Option.some.injEq, reduceCtorEq] at ha
    subst ha
    obtain ⟨⟨task, b'⟩, hp, hch⟩ := Child.Change.of_system hc h
    cases hch
    case run hm =>
      cases hm
      case exitpark hm => exact ⟨_, exit?_eq_some.mpr ⟨b', hp⟩, hd.move hclock hm⟩
    case read hm _ => cases hm
    case hangUp ht hm =>
      cases ht
      exact ⟨e, exit?_eq_some.mpr ⟨b', hp⟩, hm ▸ hd⟩
    case sigpipe ht _ =>
      cases ht
      exact ⟨_, exit?_eq_some.mpr ⟨b', hp⟩, hd.left, trivial⟩

theorem State.Awaits.step {a : Action} (hs : s.Awaits p i pid t) (hu : Undisturbed p i [pid] s a)
    (h : system.step s a = some s') : s'.Awaits p i pid t where
  represents := hs.represents.step h
  repeats    := hs.repeats.step h
  marked     :=
    marked_step hs.represents hs.repeats hu (fun _ _ => List.mem_singleton.mp) h hs.marked

theorem State.Awaits.run (hs : s.Awaits p i pid t) (e : system.Run s s')
    (hu : e.AllSteps (Undisturbed p i [pid])) : s'.Awaits p i pid t :=
  e.invariant (I := fun s => s.Awaits p i pid t) hs (fun _ _ _ hs hu h => hs.step hu h) hu

theorem State.Awaits.of_quote (hl : s.Represents) (hp : s.mem.lookup p = some i)
    (hy : s.payment? pid = some { plate := p, pc := .quote i })
    (ht : s.mem.clock = t) (h : system.step s (.act pid .run) = some s') :
    s'.Awaits p i pid t := by
  subst ht
  obtain ⟨b, hc⟩ := payment?_eq_some.mp hy
  obtain ⟨⟨task, b'⟩, hc', hch⟩ := Child.Change.of_system hc h
  cases hch
  case run hm =>
    cases hm
    case payment hm =>
      generalize hs : s'.mem = m at hm
      cases hm
      case quote hpc =>
        cases hpc
        have hk : s.mem.lookup p = some i → (s'.mem.lookup p = some i) := by
          rw [hs]
          exact fun h => Memory.lookup_kept h (by simp) fun k hk => by
            by_cases hki : k = i <;> simpa [hki] using hk
        exact ⟨hl.step h, ⟨_, payment?_eq_some.mpr ⟨b', hc'⟩, rfl, rfl⟩, hk hp, by rw [hs]; simp⟩
      all_goals contradiction
  all_goals simp_all

theorem State.Decides.of_spawn (hs : s.Awaits p i pid t) :
    State.Decides { s with procs := s.procs ++ [fork (.exit p)] } s.procs.length p i t x :=
  ⟨{ plate := p, pc := .scan }, exit?_eq_some.mpr ⟨false, by simp [fork]⟩, rfl, hs.marked⟩

namespace Pays

theorem awaits (w : Pays start p i pid t tau s) : s.Awaits p i pid t := by
  have hl := reachable_represents w.reached
  have h₀ := State.Awaits.of_quote hl w.parked w.quotes w.time w.quoted
  have h₁ : w.s₂.Awaits p i pid t := h₀.run w.waits w.quiet
  have h₂ : w.s₃.Awaits p i pid t :=
    h₁.step (fun _ _ hn => absurd (List.mem_singleton_self pid) (hn pid rfl)) w.replied
  exact h₂.run w.goesOn w.quiet'

theorem quote_le (w : Pays start p i pid t tau s) : t ≤ tau :=
  calc t
    _ = w.s₀.mem.clock := w.time.symm
    _ ≤ w.s₁.mem.clock := clock_le w.quoted
    _ ≤ w.s₂.mem.clock := run_clock_le w.waits
    _ = tau            := w.time'

end Pays

-- An exit that comes to an answer comes to its verdict, whatever else happens meanwhile.
theorem Exits.answer_eq {r : Reply} (h : Exits p i pid s x r) (hs : s.Awaits p i pid t) :
    r = verdict t x := by
  have ⟨y, hy, hr⟩ := hs.repeats
  have ⟨b, hc⟩ := State.payment?_eq_some.mp hy
  have hst : system.step s (.spawn <| .exit p) =
      some { s with procs := s.procs ++ [fork (.exit p)] } := rfl
  have hi : h.s'.Represents ∧ h.s'.Repeats pid i t ∧ h.s'.Decides s.procs.length p i t x := by
    apply h.run.invariant
      (C := fun s' a =>
        Undisturbed p i [pid, s.procs.length] s' a ∧ ReadsClock s.procs.length x s' a)
      (I := fun s' => s'.Represents ∧ s'.Repeats pid i t ∧ s'.Decides s.procs.length p i t x)
    case h₀ => exact ⟨hs.represents.step hst, hs.repeats.step hst, .of_spawn hs⟩
    case hs =>
      intro s₁ a s₂ ⟨hl, hr, hd⟩ ⟨hu, hx⟩ h
      exact ⟨hl.step h, hr.step h, hd.step hl hr hu hx h⟩
    case hc => exact h.quiet.and h.time
  obtain ⟨e, he, hsend⟩ := Option.bind_eq_some_iff.mp h.answer
  obtain ⟨e', he', -, hd⟩ := hi.right.right
  cases he.symm.trans he'
  cases hpc : e.pc <;> simp only [Exitpark.sends?, hpc, reduceCtorEq, Option.some.injEq] at hd hsend
  case success => exact hsend.symm.trans hd.symm
  case reply   => exact hsend.symm.trans hd

-- An exit that is not blocked comes to its verdict.
theorem State.Awaits.answer?_eq (hs : s.Awaits p i pid t) (hm : 0 < s.mem.semMutex) (j : ℕ) :
    s.mem.answer? j (.exit p) = some (verdict t s.mem.clock) := by
  have hl := hs.marked.lookup
  have ht := hs.marked.payT
  have ⟨_, hh⟩ := hs.represents.mem
  have hz := zone?_of_stored hh (Memory.lookup_eq_some hl)
  unfold verdict
  split
  case isTrue h₀ => exact Memory.answer?_eq (Memory.handle_exit_unpaid hl (ht.trans h₀)) rfl rfl
  case isFalse h₀ =>
    have hp : (s.mem.car i).payT ≠ 0 := ht ▸ h₀
    split
    case isTrue hx =>
      rw [← ht] at hx
      exact Memory.answer?_eq (Memory.handle_exit_late hl hp hx hm) rfl rfl
    case isFalse hx =>
      rw [← ht] at hx
      exact Memory.answer?_eq (Memory.handle_exit_free hl hp hx hm hz) rfl rfl

-- The promise is kept exactly for the exits that come in time for the quote: an exit that comes to
-- an answer gets the one that was promised, and an exit that nobody blocks comes to one.
theorem promised_iff_quotedInTime (w : Pays start p i pid t tau s) :
    (∀ x r, Nonempty (Exits p i pid s x r) → (Promised tau x r ↔ QuotedInTime t tau x)) ∧
      (0 < s.mem.semMutex → ∃ r, s.mem.answer? s.procs.length (.exit p) = some r ∧
        (Promised tau s.mem.clock r ↔ QuotedInTime t tau s.mem.clock)) := by
  constructor
  case left =>
    rintro x r ⟨h⟩
    rw [h.answer_eq w.awaits]
    exact promised_verdict_iff w.quote_le
  case right =>
    exact fun hm => ⟨_, w.awaits.answer?_eq hm _, promised_verdict_iff w.quote_le⟩

-- Schedules up to the quote, up to the accepted reply and up to the exit.
theorem Pays.exists_of_exec (as₀ as₁ : List Action) (reply : Input) (as₂ : List Action)
    (f : State → Bool)
    (h : (system.exec (fun _ _ => true) (.initial start) as₀).any fun s₀ =>
      decide (s₀.mem.lookup p = some i ∧ s₀.mem.clock = t ∧
        s₀.payment? pid = some { plate := p, pc := .quote i }) &&
      (system.step s₀ (.act pid .run)).any fun s₁ =>
      (system.exec (fun s a => decide (Undisturbed p i [pid] s a)) s₁ as₁).any fun s₂ =>
      decide (s₂.mem.clock = tau) && (system.step s₂ (.act pid reply)).any fun s₃ =>
      (s₃.payment? pid).any (·.accepted) &&
      (system.exec (fun s a => decide (Undisturbed p i [pid] s a)) s₃ as₂).any f) :
    ∃ s, Nonempty (Pays start p i pid t tau s) ∧ f s := by
  simp only [Option.any_eq_true, Bool.and_eq_true, decide_eq_true_eq] at h
  obtain ⟨s₀, h₀, ⟨hp, ht, hq⟩, s₁, h₁, s₂, h₂, ht', s₃, h₃, ha, s, h₄, hf⟩ := h
  have ⟨e₀, _⟩ := Machine.Run.of_exec h₀
  have ⟨e₁, hu₁⟩ := Machine.Run.of_exec h₂
  have ⟨e₂, hu₂⟩ := Machine.Run.of_exec h₄
  have ha : (s₃.payment? pid).any (·.accepted) := by simpa only [Option.any_eq_true] using ha
  exact ⟨s, ⟨e₀, hp, hq, h₁, ht, e₁, hu₁.mono fun _ _ => of_decide_eq_true, h₃, ha, ht', e₂,
    hu₂.mono fun _ _ => of_decide_eq_true⟩, hf⟩

-- The client takes ten seconds to pay.
def untilQuote : List Action :=
  [.spawn <| .entry 1 .a] ++ statements 0 6 ++ [.spawn <| .pay .a] ++ statements 1 2

set_option maxRecDepth 4000 in
theorem promised_of_slow_payment : ∃ s,
    Nonempty (Pays 1700000000 .a 8 1 1700000000 1700000010 s) ∧ s.mem.clock = 1700000025 ∧
      ∃ r, s.mem.answer? s.procs.length (.exit .a) = some r ∧ Promised 1700000010 1700000025 r := by
  have ⟨s, ⟨w⟩, hs⟩ : ∃ s, Nonempty (Pays 1700000000 .a 8 1 1700000000 1700000010 s) ∧ _ :=
    Pays.exists_of_exec untilQuote (statements 1 1 ++ [.env 10]) (.reply <| C.ascii "20\n")
      (statements 1 10 ++ [.env 15]) (fun s => s.mem.clock = 1700000025 ∧ 0 < s.mem.semMutex)
      (by decide)
  have ⟨hx, hm⟩ := of_decide_eq_true hs
  have ⟨r, hr, hi⟩ := (promised_iff_quotedInTime w).right hm
  rw [hx] at hi
  exact ⟨s, ⟨w⟩, hx, r, hr, hi.mpr ⟨by decide, by decide⟩⟩

-- It leaves twenty seconds after its payment, which is thirty seconds after the quote.
set_option maxRecDepth 4000 in
theorem promised_broken : ¬ ∀ (start : ℤ) (p : Plate) (i : Slot) (pid : ℕ) (t tau : ℤ) (s : State)
    (_ : Pays start p i pid t tau s) (r : Reply),
    s.mem.answer? s.procs.length (.exit p) = some r → Promised tau s.mem.clock r := by
  intro h
  have ⟨s, ⟨w⟩, hs⟩ : ∃ s, Nonempty (Pays 1700000000 .a 8 1 1700000000 1700000010 s) ∧ _ :=
    Pays.exists_of_exec untilQuote (statements 1 1 ++ [.env 10]) (.reply <| C.ascii "20\n")
      (statements 1 10 ++ [.env 20])
      (fun s => s.mem.clock = 1700000030 ∧
        s.mem.answer? s.procs.length (.exit .a) = some .repay) (by decide)
  have ⟨hx, hr⟩ := of_decide_eq_true hs
  have ⟨hp, _⟩ := h _ _ _ _ _ _ s w _ hr
  rw [hx] at hp
  exact absurd (hp (by decide)) (by decide)

end Parking
