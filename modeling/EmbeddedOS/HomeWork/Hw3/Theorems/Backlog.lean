import EmbeddedOS.HomeWork.Hw3.Theorems.Moves

namespace Delivery

-- The value of a courier's backlog after the commits and ticks of a history, in the order in which
-- they took effect.
def replay (k : Courier) : List Event → ℤ
  | [] => 0
  | .committed _ j flag :: log => if j = k then C.int (replay k log + flag) else replay k log
  | .ticked j :: log =>
    if j = k ∧ replay k log > 0 then replay k log - 1 else replay k log
  | _ :: log => replay k log

def Memory.Replays (m : Memory) : Prop :=
  ∀ k, m.deliveryWaitingTime k = replay k m.log

-- The courier and the sum that the third section of a 'confirm' is about to store.
def Platform.writesBack? (p : Platform) : Option (Courier × ℤ) :=
  match p.pc with
  | .writeBack k temp => some (k, temp)
  | _ => none

-- When a 'confirm' stores its sum, the backlog is still the one that it has read.
def Unchanged (s : State) (a : Pool.Action Unit Input Unit) : Prop :=
  ∀ p ∈ s.running? a, ∀ w ∈ p.writesBack?,
    w.2 = C.int (s.mem.deliveryWaitingTime w.1 + p.book.flag)

-- The customers and the counter, in every order of their steps.
def system : Machine State (Pool.Action Unit Input Unit) :=
  Pool.machine platforms

variable {m m' : Memory} {p p' : Platform} {pid : ℕ} {s s' : State}

-- What a statement does to the backlogs and to their history.
inductive BacklogStep (pid : ℕ) (m : Memory) (p : Platform) (m' : Memory) : Prop
  | same (hw : p.writesBack? = none) (hd : m'.deliveryWaitingTime = m.deliveryWaitingTime)
      (hl : ∀ k, replay k m'.log = replay k m.log)
  | commit (k : Courier) (v : ℤ)
      (hw : p.writesBack? = some (k, v) ∨
        (p.writesBack? = none ∧ v = C.int (m.deliveryWaitingTime k + p.book.flag)))
      (hd : m'.deliveryWaitingTime = Function.update m.deliveryWaitingTime k v)
      (hl : m'.log = .committed pid k p.book.flag :: m.log)

theorem BacklogStep.of_move (h : p.Move pid m m' p') : BacklogStep pid m p m' := by
  cases h
  case addYes k temp hpc ht =>
    exact .commit k temp (.inr ⟨by simp [Platform.writesBack?, hpc], ht⟩) rfl rfl
  case writeBack k temp hpc =>
    exact .commit k temp (.inl <| by simp [Platform.writesBack?, hpc]) rfl rfl
  all_goals exact .same (by simp [Platform.writesBack?, *]) rfl (fun _ => rfl)

theorem replays_tick (h : m.Replays) : m.tick.Replays := by
  intro k
  by_cases hk : k = m.turn
  case pos =>
    subst hk
    simp [Memory.tick, replay, ← h m.turn]
  case neg =>
    simp [Memory.tick, replay, ← h k, hk, Ne.symm hk]

theorem replays_commit_iff {k : Courier} {v flag : ℤ} (h : m.Replays)
    (hd : m'.deliveryWaitingTime = Function.update m.deliveryWaitingTime k v)
    (hl : m'.log = .committed pid k flag :: m.log) :
    m'.Replays ↔ v = C.int (m.deliveryWaitingTime k + flag) := by
  constructor
  case mp =>
    intro hr
    simpa [hd, hl, replay, ← h k] using hr k
  case mpr =>
    intro hv j
    by_cases hj : j = k
    case pos => simp [hd, hl, replay, hj, hv, ← h k]
    case neg => simp [hd, hl, replay, hj, Ne.symm hj, ← h j]

theorem replays_step {a : Pool.Action Unit Input Unit} (hr : s.mem.Replays)
    (h : system.step s a = some s') : s'.mem.Replays ↔ Unchanged s a := by
  cases a
  case spawn =>
    cases Pool.spawn_eq h
    exact iff_of_true hr nofun
  case env =>
    have ⟨_, hm, hs⟩ := Pool.env_eq h
    cases hm
    exact iff_of_true (hs ▸ replays_tick hr) nofun
  case act pid i =>
    have ⟨a⟩ := Pool.Acts.of_step h
    by_cases hi : i = .run
    case neg =>
      refine iff_of_true ((Platform.input_eq hi a.step).left ▸ hr) ?_
      cases i
      case run => contradiction
      all_goals nofun
    case pos =>
      subst hi
      have hu : Unchanged s (.act pid .run) ↔ ∀ w ∈ a.pre.writesBack?,
          w.2 = C.int (s.mem.deliveryWaitingTime w.1 + a.pre.book.flag) := by
        simp [Unchanged, State.running?, a.get]
      rw [hu]
      cases BacklogStep.of_move <| .of_step a.step
      case same hw hd hl => exact iff_of_true (fun k => by rw [hd, hl, hr k]) (by simp [hw])
      case commit k v hw hd hl =>
        rw [replays_commit_iff hr hd hl]
        cases hw
        case inl hw => simp [hw]
        case inr hw => simp [hw.left, hw.right]

-- The backlogs are what their commits and ticks make of them in every state of a run exactly if no
-- 'confirm' of the run stores a sum that is out of date.
theorem replays_iff (e : system.Run .initial s) :
    e.AllStates (·.mem.Replays) ↔ e.AllSteps Unchanged := by
  apply e.allStates_iff_allSteps (fun _ => True)
  case hi => trivial
  case h₀ => exact fun _ => rfl
  case hI => intros; trivial
  case hP => exact fun _ _ _ _ hr h => replays_step hr h

-- Two customers confirm their orders. Both read the backlogs before either of them stores its sum.
def doubleConfirm : List (Pool.Action Unit Input Unit) :=
  [.spawn (), message 0 "order tea 1\n"] ++ statements 0 2 ++
  [.spawn (), message 1 "order tea 1\n"] ++ statements 1 2 ++
  [message 0 "confirm\n"] ++ statements 0 4 ++ [message 1 "confirm\n"] ++ statements 1 4 ++
  statements 0 1 ++ statements 1 1

set_option maxRecDepth 2000 in
theorem replays_broken : ¬ ∀ (s : State) (_ : system.Run .initial s), s.mem.Replays := by
  intro h
  have ⟨s, e, _, hs⟩ := Machine.Run.exists_of_exec system (fun _ _ => true) .initial doubleConfirm
    (fun s => s.mem.deliveryWaitingTime .second = 5 ∧ replay .second s.mem.log = 10)
    (by decide +kernel)
  have ⟨hd, hl⟩ := of_decide_eq_true hs
  have := h s e .second
  simp_all

end Delivery
