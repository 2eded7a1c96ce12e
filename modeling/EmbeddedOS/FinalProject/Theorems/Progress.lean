import EmbeddedOS.FinalProject.Theorems.Semaphores
import EmbeddedOS.Library.Inevitable
import EmbeddedOS.Library.Scan

open C

namespace Parking

variable {m m' : Memory} {pid : ℕ} {clock : ℤ} {s s' : State} {t t' : Task}

-- The number of statements that a request has at most in front of it when its client pays the fee
-- with its next reply.
def Entry.ahead (e : Entry) : ℕ :=
  match e.pc with
  | .scan      => 6
  | .acquire   => 5
  | .allocate  => 4
  | .release _ => 3
  | .light _   => 2
  | .reply _   => 1
  | .exited | .killed | .faulted => 0

def Exitpark.ahead (x : Exitpark) : ℕ :=
  match x.pc with
  | .scan                               => 9
  | .rescan                             => 8
  | .checkPaid _                        => 7
  | .checkTime _                        => 6
  | .acquireLate _ | .acquireFree _     => 5
  | .expire _ | .free _                 => 4
  | .releaseLate _ | .releaseFree _     => 3
  | .success _                          => 2
  | .light _ | .reply _                 => 1
  | .exited | .killed | .faulted | .faultedInside => 0

def Payment.ahead (y : Payment) : ℕ :=
  match y.pc with
  | .acquireCounting                 => 17
  | .scan                            => 16
  | .quote _                         => 15
  | .writeFee _ | .writeWrong _      => 14
  | .writeFeeAgain _                 => 13
  | .await _                         => 12
  | .acquireMark _                   => 11
  | .mark _                          => 10
  | .releaseMark _                   => 9
  | .acquireCash _                   => 8
  | .loadCash _                      => 7
  | .addCash _ _                     => 6
  | .storeCash _ _                   => 5
  | .releaseCash _                   => 4
  | .writeSuccess _ | .writeNotFound => 2
  | .releaseCounting                 => 1
  | .exited | .killed | .faulted     => 0

namespace Task

def ahead : Task → ℕ
  | entry e    => e.ahead
  | exitpark x => x.ahead
  | payment y  => y.ahead

-- The payment that waits for its client, and whether it takes these bytes for its fee.
def awaits? : Task → Option Quote
  | payment y =>
    match y.pc with
    | .await q => some q
    | _ => none
  | _ => none

def accepts (bytes : List UInt8) (t : Task) : Bool :=
  t.awaits?.any fun q => behindNumber (q.read bytes).buf ≠ [] ∧ atoi (q.read bytes).buf = q.fee

-- The exit has been stopped inside of its section, which no other request can enter any more.
def faultedInside : Task → Bool
  | exitpark x => x.pc = .faultedInside
  | _ => false

-- The payment has been stopped at the end of its buffer, inside of its pay station.
def overrun : Task → Bool
  | payment y => y.pc = .faulted
  | _ => false

theorem Move.ahead (h : t.Move pid m m' t') : t'.ahead < t.ahead := by
  cases h
  case entry h    => cases h <;> simp [Task.ahead, Entry.ahead, *]
  case exitpark h => cases h <;> simp [Task.ahead, Exitpark.ahead, *]
  case payment h  => cases h <;> simp [Task.ahead, Payment.ahead, *]

theorem Read.of_accepts {bytes : List UInt8} (h : t.Read bytes t') (ha : t.accepts bytes) :
    ∃ p q, p.pc = .await q ∧ t = payment p ∧
      t' = payment (p.goto <| .acquireMark <| q.read bytes) := by
  cases h
  case accept p q hpc _ _ => exact ⟨p, q, hpc, rfl, rfl⟩
  case fault p q hpc hb   => simp [accepts, awaits?, hpc, hb] at ha
  case reject p q hpc _ hf =>
    have ha := of_decide_eq_true <| by simpa only [accepts, awaits?, hpc, Option.any_some] using ha
    exact absurd ha.right hf

theorem Read.ahead {bytes : List UInt8} (h : t.Read bytes t') (ha : t.accepts bytes) :
    t'.ahead < t.ahead := by
  obtain ⟨p, q, hpc, rfl, rfl⟩ := h.of_accepts ha
  simp [Task.ahead, Payment.ahead, hpc]

theorem Move.overrun (h : t.Move pid m m' t') : t'.overrun = false := by
  cases h
  case payment h => cases h <;> simp [Task.overrun]
  all_goals rfl

-- The fee of a payment that is still to be paid.
def fee? : Task → Option ℤ
  | payment y =>
    match y.pc with
    | .writeFee q | .await q | .writeWrong q | .writeFeeAgain q => some q.fee
    | _ => none
  | _ => none

theorem Move.fee? (h : t.Move pid m m' t') {fee : ℤ} (hf : t'.fee? = some fee) :
    t.fee? = some fee ∨ Fits fee := by
  cases h
  case payment h =>
    cases h
    case quote i hpc =>
      have hf : (Payment.quoteFor m i).fee = fee := by simpa [Task.fee?] using hf
      exact .inr <| hf ▸ int_fits _
    all_goals simp_all [Task.fee?]
  all_goals contradiction

theorem Read.fee? {bytes : List UInt8} (h : t.Read bytes t') {fee : ℤ}
    (hf : t'.fee? = some fee) : t.fee? = some fee := by
  cases h
  case fault | accept => simp [Task.fee?] at hf
  case reject p q hpc _ hn =>
    have hf : (q.read bytes).fee = fee := by simpa [Task.fee?] using hf
    simp only [Task.fee?, hpc]
    exact congrArg some hf

end Task

-- Each fee is an `int`.
theorem feesFit : Pool.Annotation server (fun _ _ => True) (fun _ => True)
    (fun _ _ c => ∀ fee, c.task.fee? = some fee → Fits fee) where
  spawn r _ := by cases r <;> exact nofun
  env _ _ := ⟨trivial, id⟩
  step {s pid i s'} hs _ a := by
    have ha := hs.procs a.get
    refine ⟨trivial, fun fee hf => ?_⟩
    cases Child.Change.of_step a.step
    case run h => exact (h.fee? hf).elim (ha fee) id
    case read h _ => exact ha fee <| h.fee? hf
    case hangUp h _ => exact ha fee <| h ▸ hf
    case sigpipe h _ =>
      rw [h] at hf
      cases hc : a.pre.task <;> simp [hc, Task.kill, Task.fee?] at hf
  other {s pid i s'} hs _ _ {j q} _ hq := hs.procs hq

-- Steps of the children, and replies with the fee that the client has been asked for.
def State.cooperates (s : State) : Action → Bool
  | .act _ .run           => true
  | .act pid (.reply bytes) => (s.procs[pid]?).any (·.task.accepts bytes)
  | _ => false

def cooperation : Machine State Action :=
  system.restrict fun s a => s.cooperates a

-- What the progress of the requests rests on: the semaphores account for those that use them.
structure State.Live (n : ℕ) (s : State) : Prop where
  mutex    : s.units Memory.semMutex Child.insideMutex = 1
  counting : s.units Memory.semCounting Child.insideCounting = 2
  fees     : Pool.Annotated (fun _ => True)
    (fun _ _ (c : Child) => ∀ fee, c.task.fee? = some fee → Fits fee) s
  within   : ∀ c ∈ s.procs, c.task.overrun = false
  ahead    : (s.procs.map (·.task.ahead)).sum ≤ n

-- All requests have been handled, or an exit has been stopped at an access outside of an array.
def State.Over (s : State) : Prop :=
  (∀ c ∈ s.procs, c.task.ended) ∨ ∃ c ∈ s.procs, c.task.faultedInside

namespace State.Live

variable {n : ℕ} {a : Action} {c : Child}

-- In the cooperation, a request executes a statement or a payment is paid.
theorem cooperates_cases {x : Input} (ho : s.cooperates (.act pid x))
    (a : Pool.Acts server s pid x s') : a.pre.task.Move pid s.mem s'.mem a.post.task ∨
      ∃ bytes, a.pre.task.Read bytes a.post.task ∧ a.pre.task.accepts bytes := by
  cases x
  case run =>
    have h : a.pre.step pid s.mem .run = some (s'.mem, a.post) := a.step
    cases Child.Change.of_step h
    case run h         => exact .inl h
    case read hi _ _ _ => exact absurd rfl hi.left
    all_goals contradiction
  case reply bytes =>
    have ha : a.pre.task.accepts bytes := by simpa [cooperates, a.get] using ho
    have h := a.step
    simp only [server, Child.step] at h
    split at h
    case isTrue  =>
      obtain ⟨t, ht, h⟩ := Option.map_eq_some_iff.mp h
      have hp : a.post.task = t := by simp only [Prod.mk.injEq] at h; rw [← h.right]
      exact .inr ⟨bytes, hp ▸ .of_read ht, ha⟩
    case isFalse => contradiction
  all_goals simp [cooperates] at ho

-- Each step of the cooperation brings a request nearer to its end.
theorem ahead_lt {x : Input} (ho : s.cooperates (.act pid x)) (a : Pool.Acts server s pid x s') :
    a.post.task.ahead < a.pre.task.ahead := by
  rcases cooperates_cases ho a with h | ⟨_, h, ha⟩
  case inl => exact h.ahead
  case inr => exact h.ahead ha

theorem overrun_post {x : Input} (ho : s.cooperates (.act pid x))
    (a : Pool.Acts server s pid x s') : a.post.task.overrun = false := by
  rcases cooperates_cases ho a with h | ⟨_, h, ha⟩
  case inl => exact h.overrun
  case inr =>
    obtain ⟨p, q, _, _, ht⟩ := h.of_accepts ha
    rw [ht]
    rfl

theorem step (hs : s.Live n) (h : cooperation.step s a = some s') : ∃ k < n, s'.Live k := by
  have ⟨ho, hst⟩ := Machine.restrict_eq_some_iff.mp h
  cases a
  case act pid x =>
    have ⟨a⟩ := Pool.Acts.of_step hst
    have hx : x = .sigpipe → a.pre.insideCounting = false := by
      rintro rfl
      simp [cooperates] at ho
    have hk := (units_counting_step hst).mpr <| (keepsStations_act_iff a.get).mpr hx
    have hlt := ahead_lt ho a
    have hsum : (s'.procs.map (·.task.ahead)).sum + a.pre.task.ahead =
        (s.procs.map (·.task.ahead)).sum + a.post.task.ahead := by
      let value (c : Child) : ℤ := c.task.ahead
      have h : s'.total value + value a.pre = s.total value + value a.post := Pool.total_act a
      have hl (l : List Child) : (l.map fun c => (c.task.ahead : ℤ)).sum =
          (l.map (·.task.ahead)).sum := by
        rw [Nat.cast_list_sum, List.map_map]
        rfl
      rw [Pool.total, Pool.total, hl, hl] at h
      dsimp only [value] at h
      exact_mod_cast h
    have hn := hs.ahead
    refine ⟨n - 1, by omega, ?_, hk.trans hs.counting, feesFit.preserves hs.fees trivial hst, ?_,
      ?_⟩
    case refine_1 => exact (mutex_disciplined.preserves trivial hst).trans hs.mutex
    case refine_2 =>
      intro c hc
      rcases a.mem_cases hc with rfl | hc
      case inl => exact overrun_post ho a
      case inr => exact hs.within c <| Pool.mem_of_others hc
    case refine_3 => omega
  all_goals simp [cooperates] at ho

end State.Live

end Parking
