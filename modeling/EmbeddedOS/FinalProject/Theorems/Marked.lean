import EmbeddedOS.FinalProject.Theorems.ExitPaid
import EmbeddedOS.FinalProject.Theorems.IndexSafety

namespace Parking

def State.payment? (s : State) (pid : ℕ) : Option Payment :=
  s.procs[pid]?.bind fun c => match c.task with
    | .payment y => some y
    | _ => none

def State.exit? (s : State) (pid : ℕ) : Option Exitpark :=
  s.procs[pid]?.bind (·.task.exit?)

-- No request but the ones of the car itself writes to its slot or gives its plate another slot.
def Undisturbed (p : Plate) (i : Slot) (own : List ℕ) (s : State) (a : Action) : Prop :=
  ∀ c ∈ s.running? a, (∀ pid ∈ a.actor?, pid ∉ own) →
    c.task.marks? ≠ some i ∧ c.task.frees? ≠ some i ∧
      (c.task.plate = p → c.task.parks? s.mem = none)

instance (p : Plate) (i : Slot) (own : List ℕ) (s : State) (a : Action) :
    Decidable (Undisturbed p i own s a) :=
  inferInstanceAs <| Decidable (∀ _ ∈ _, (∀ _ ∈ _, _) → _)

-- The car stands in its slot, and its `pay_t` is `t`.
structure Memory.Marked (m : Memory) (p : Plate) (i : Slot) (t : ℤ) : Prop where
  lookup : m.lookup p = some i
  payT   : (m.car i).payT = t

-- A payment that has quoted for the slot at `t` writes `t` once more, and nothing else.
def Payment.Repeats (i : Slot) (t : ℤ) (y : Payment) : Prop :=
  match y.pc with
  | .acquireCounting | .scan | .quote _ => False
  | .writeFee q | .await q | .writeWrong q | .writeFeeAgain q | .acquireMark q | .mark q =>
    q.slot = i ∧ q.t = t
  | _ => True

-- A payment that repeats what it has quoted.
def State.Repeats (s : State) (pid : ℕ) (i : Slot) (t : ℤ) : Prop :=
  ∃ y, s.payment? pid = some y ∧ y.Repeats i t

variable {m m' : Memory} {pid j : ℕ} {p : Plate} {i : Slot} {t : ℤ} {s s' : State} {l : Lot}

theorem State.payment?_eq_some {y : Payment} :
    s.payment? pid = some y ↔ ∃ b, s.procs[pid]? = some { task := .payment y, hungUp := b } := by
  simp only [payment?, Option.bind_eq_some_iff]
  constructor
  case mp =>
    rintro ⟨⟨task, b⟩, hc, ht⟩
    cases task <;> simp only [reduceCtorEq] at ht
    cases ht
    exact ⟨b, hc⟩
  case mpr => exact fun ⟨b, hc⟩ => ⟨_, hc, rfl⟩

theorem State.exit?_eq_some {e : Exitpark} :
    s.exit? pid = some e ↔ ∃ b, s.procs[pid]? = some { task := .exitpark e, hungUp := b } := by
  simp only [exit?, Option.bind_eq_some_iff]
  constructor
  case mp =>
    rintro ⟨⟨task, b⟩, hc, ht⟩
    cases task <;> simp only [Task.exit?, reduceCtorEq] at ht
    cases ht
    exact ⟨b, hc⟩
  case mpr => exact fun ⟨b, hc⟩ => ⟨_, hc, rfl⟩

-- A child is changed by its own steps only.
theorem procs_kept {a : Action} {c : Child} (h : system.step s a = some s')
    (hc : s.procs[pid]? = some c) (ha : a.actor? ≠ some pid) : s'.procs[pid]? = some c := by
  cases a
  case spawn r =>
    cases Pool.spawn_eq h
    rw [List.getElem?_append_left (List.getElem?_eq_some_iff.mp hc).fst, hc]
  case act k y =>
    have ⟨a⟩ := Pool.Acts.of_step h
    rw [a.get_other (by simpa [Pool.Action.actor?, eq_comm] using ha), hc]
  case env d =>
    have ⟨_, _, hs⟩ := Pool.env_eq h
    rw [hs, hc]

theorem Child.Change.of_system {c : Child} {z : Input} (hc : s.procs[pid]? = some c)
    (h : system.step s (.act pid z) = some s') :
    ∃ c', s'.procs[pid]? = some c' ∧ c.Change pid s.mem z s'.mem c' := by
  have ⟨a⟩ := Pool.Acts.of_step h
  cases a.get.symm.trans hc
  exact ⟨a.post, a.get_post, .of_step a.step⟩

theorem Task.Move.clock {y y' : Task} (h : y.Move pid m m' y') : m'.clock = m.clock := by
  cases h
  case entry h    => cases h <;> rfl
  case exitpark h => cases h <;> rfl
  case payment h  => cases h <;> rfl

theorem clock_le {a : Action} (h : system.step s a = some s') : s.mem.clock ≤ s'.mem.clock := by
  cases a
  case spawn r =>
    cases Pool.spawn_eq h
    exact le_rfl
  case env d =>
    obtain ⟨_, hm, rfl⟩ := Pool.env_eq h
    cases hm
    exact Int.le_add_of_nonneg_right (Int.natCast_nonneg d)
  case act k z =>
    have ⟨a⟩ := Pool.Acts.of_step h
    cases Child.Change.of_step a.step
    case run hm => exact hm.clock.ge
    all_goals exact ‹s'.mem = s.mem› ▸ le_rfl

theorem run_clock_le (e : system.Run s s') : s.mem.clock ≤ s'.mem.clock :=
  e.invariant (I := fun s' => s.mem.clock ≤ s'.mem.clock) le_rfl
    (fun _ _ _ hi _ h => hi.trans <| clock_le h) e.allSteps_true

-- The first slot with the plate stays the first one, unless the plate is put into another one.
theorem Memory.lookup_kept (h : m.lookup p = some i)
    (hi : (m'.car i).licencePlate = (m.car i).licencePlate)
    (hn : ∀ k, (m'.car k).licencePlate = p.chars → (m.car k).licencePlate = p.chars) :
    m'.lookup p = some i := by
  obtain ⟨hp, ks, ls, hk, hf⟩ := List.find?_eq_some_iff_append.mp h
  refine List.find?_eq_some_iff_append.mpr ⟨?_, ks, ls, hk, fun k hks => ?_⟩
  case refine_1 => simpa [hi] using hp
  case refine_2 =>
    have hf := hf k hks
    simp only [Bool.not_eq_true', decide_eq_false_iff_not] at hf ⊢
    exact mt (hn k) hf

theorem Task.Move.car_eq {t t' : Task} (h : t.Move pid m m' t') (hm : t.marks? ≠ some i)
    (hf : t.frees? ≠ some i) (hp : t.parks? m ≠ some i) : m'.car i = m.car i := by
  cases h
  case entry h =>
    cases h
    case allocate pos hpc hs =>
      have hi : i ≠ pos := by rintro rfl; simp [parks?, hpc, hs] at hp
      simp [hi]
    all_goals rfl
  case exitpark h =>
    cases h
    case expire pos hpc =>
      have hi : i ≠ pos := by rintro rfl; simp [marks?, hpc] at hm
      simp [hi]
    case clear pos hpc _ | free pos _ hpc _ =>
      have hi : i ≠ pos := by rintro rfl; simp [frees?, hpc] at hf
      simp [hi]
    all_goals rfl
  case payment h =>
    cases h
    case quote pos hpc =>
      have hi : i ≠ pos := by rintro rfl; simp [marks?, hpc] at hm
      simp [hi]
    case mark q hpc =>
      have hi : i ≠ q.slot := by rintro rfl; simp [marks?, hpc] at hm
      simp [hi]
    all_goals rfl

-- A statement of another request leaves the car as it is.
theorem Memory.Marked.other {y y' : Task} (hk : m.Marked p i t) (hl : m.Holds l)
    (h : y.Move pid m m' y') (hm : y.marks? ≠ some i) (hf : y.frees? ≠ some i)
    (hp : y.plate = p → y.parks? m = none) : m'.Marked p i t := by
  have hi : (m.car i).licencePlate = p.chars := lookup_eq_some hk.lookup
  have hn : y.parks? m ≠ some i := by
    intro hs
    exact p.ne_nil <| hi ▸ hl.nil_iff.mp (hl.free_iff.mpr (Task.parks?_free hs).left)
  have hc := h.car_eq hm hf hn
  refine ⟨lookup_kept hk.lookup (by rw [hc]) fun k hk => ?_, by rw [hc, hk.payT]⟩
  cases LotStep.of_move h
  case same hs => rw [← hs.licencePlate, hk]
  case park pos hs _ hm =>
    by_cases hkp : k = pos
    case pos =>
      have he : y.plate = p := Plate.eq_of_chars <| by simpa [hm, hkp] using hk
      rw [hp he] at hs
      contradiction
    case neg => simpa [hm, hkp] using hk
  case leave pos _ _ _ _ hm =>
    by_cases hkp : k = pos
    case pos => exact absurd (by simpa [hm, hkp] using hk.symm) p.ne_nil
    case neg => simpa [hm, hkp] using hk
  case fault pos _ _ _ hm =>
    by_cases hkp : k = pos
    case pos => exact absurd (by simpa [hm, hkp] using hk.symm) p.ne_nil
    case neg => simpa [hm, hkp] using hk

theorem Memory.Marked.setPay {e : Event} (h : m.Marked p i t) :
    ((m.setPay i t).note e).Marked p i t where
  lookup := lookup_kept h.lookup (by simp) fun k hk => by
    by_cases hki : k = i <;> simpa [hki] using hk
  payT   := by simp

theorem Payment.Repeats.move {y y' : Payment} (hr : y.Repeats i t) (h : y.Move pid m m' y') :
    y'.Repeats i t := by
  cases h
  case acquireCounting hpc _ | found hpc _ | notFound hpc _ | quote hpc => simp [Repeats, hpc] at hr
  case writeFee hpc | writeWrong hpc | writeFeeAgain hpc => simpa [Repeats, hpc] using hr
  case acquireMark hpc _ => simpa [Repeats, hpc] using hr
  all_goals trivial

theorem Payment.Repeats.marked {y y' : Payment} (hr : y.Repeats i t) (h : y.Move pid m m' y')
    (hk : m.Marked p i t) : m'.Marked p i t := by
  cases h
  case mark q hpc =>
    simp only [Repeats, hpc] at hr
    obtain ⟨rfl, rfl⟩ := hr
    exact hk.setPay
  case quote hpc => simp [Repeats, hpc] at hr
  all_goals exact ⟨hk.lookup, hk.payT⟩

theorem State.Repeats.step {a : Action} (hr : s.Repeats pid i t)
    (h : system.step s a = some s') : s'.Repeats pid i t := by
  obtain ⟨y, hy, hr⟩ := hr
  obtain ⟨b, hc⟩ := payment?_eq_some.mp hy
  by_cases ha : a.actor? = some pid
  case neg => exact ⟨y, payment?_eq_some.mpr ⟨b, procs_kept h hc ha⟩, hr⟩
  case pos =>
    cases a <;> simp only [Pool.Action.actor?, Option.some.injEq, reduceCtorEq] at ha
    subst ha
    obtain ⟨⟨task, b'⟩, hp, hch⟩ := Child.Change.of_system hc h
    cases hch
    case run hm =>
      cases hm
      case payment hm => exact ⟨_, payment?_eq_some.mpr ⟨b', hp⟩, hr.move hm⟩
    case read hm _ =>
      cases hm
      case fault => exact ⟨_, payment?_eq_some.mpr ⟨b', hp⟩, by simp [Payment.Repeats]⟩
      all_goals
        refine ⟨_, payment?_eq_some.mpr ⟨b', hp⟩, ?_⟩
        simpa [Payment.Repeats, Quote.read, *] using hr
    case hangUp ht _ =>
      cases ht
      exact ⟨y, payment?_eq_some.mpr ⟨b', hp⟩, hr⟩
    case sigpipe ht _ =>
      cases ht
      exact ⟨_, payment?_eq_some.mpr ⟨b', hp⟩, trivial⟩

-- The car stays marked as long as nobody but its payment has to do with it.
theorem State.marked_step {own : List ℕ} {a : Action} (hl : s.Represents) (hr : s.Repeats pid i t)
    (hu : Undisturbed p i own s a) (ha : ∀ k ∈ a.actor?, k ∈ own → k = pid)
    (h : system.step s a = some s') (hk : s.mem.Marked p i t) : s'.mem.Marked p i t := by
  cases a
  case spawn r =>
    cases Pool.spawn_eq h
    exact hk
  case env d =>
    obtain ⟨_, hm, rfl⟩ := Pool.env_eq h
    cases hm
    exact ⟨hk.lookup, hk.payT⟩
  case act k z =>
    have ⟨a⟩ := Pool.Acts.of_step h
    have ⟨_, hl⟩ := hl.mem
    cases Child.Change.of_step a.step
    case run hz hm =>
      subst hz
      by_cases hkp : k = pid
      case pos =>
        subst hkp
        obtain ⟨y, hy, hr⟩ := hr
        obtain ⟨b, hc⟩ := payment?_eq_some.mp hy
        rw [Option.some.inj <| a.get.symm.trans hc] at hm
        generalize a.post.task = task at hm
        cases hm
        case payment hm => exact hr.marked hm hk
      case neg =>
        have ⟨h₁, h₂, h₃⟩ := hu _ a.get fun k' hk' ho => hkp <| by
          cases hk'
          exact ha k rfl ho
        exact hk.other hl hm h₁ h₂ h₃
    all_goals exact ‹s'.mem = s.mem› ▸ hk

theorem State.Represents.step {a : Action} (hl : s.Represents) (h : system.step s a = some s') :
    s'.Represents :=
  occupancy.preserves hl trivial h

end Parking
