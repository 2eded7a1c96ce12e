import EmbeddedOS.FinalProject.Theorems.Occupancy

namespace Parking

-- No plate is stored in two slots.
def Memory.UniquePlates (m : Memory) : Prop :=
  ∀ i j, (m.car i).licencePlate ≠ [] → (m.car i).licencePlate = (m.car j).licencePlate → i = j

-- When the gate gives a slot to a plate, the plate is not in the car park: what the scan in front
-- of the section has found is still true inside of the section.
def Rescanned (s : State) (a : Action) : Prop :=
  ∀ c ∈ s.running? a, ∀ pos ∈ c.task.parks? s.mem, s.mem.lookup c.task.plate = none

variable {m m' : Memory} {pid : ℕ} {pos : Slot} {plate : Plate} {l : Lot} {clock : ℤ} {s s' : State}

namespace Memory

-- Slots may lose their plates.
theorem UniquePlates.of_erased (h : m.UniquePlates) (he : ∀ i,
    (m'.car i).licencePlate = (m.car i).licencePlate ∨ (m'.car i).licencePlate = []) :
    m'.UniquePlates := by
  intro i j hi hj
  have hi' := (he i).resolve_right hi
  have hj' := (he j).resolve_right (hj ▸ hi)
  exact h i j (hi' ▸ hi) (hi' ▸ hj' ▸ hj)

theorem UniquePlates.of_sameLot (h : m.UniquePlates) (hl : m'.SameLot m) : m'.UniquePlates :=
  h.of_erased (.inl <| hl.licencePlate ·)

theorem UniquePlates.park_iff (h : m.UniquePlates) (he : (m.car pos).licencePlate = []) :
    (m.park pid plate pos).UniquePlates ↔ m.lookup plate = none := by
  have hp : ((m.park pid plate pos).car pos).licencePlate = plate.chars := by simp
  have ho : ∀ i, i ≠ pos → (m.park pid plate pos).car i = m.car i := fun i hi => by simp [hi]
  rw [lookup_eq_none]
  constructor
  case mp =>
    intro hu i hi
    have hn : i ≠ pos := by
      rintro rfl
      exact plate.ne_nil <| hi ▸ he
    exact hn.symm <| hu pos i (hp ▸ plate.ne_nil) (by rw [hp, ho i hn, hi])
  case mpr =>
    intro hn i j hi hj
    by_cases hip : i = pos <;> by_cases hjp : j = pos
    case pos => rw [hip, hjp]
    case neg => rw [hip, hp, ho j hjp] at hj; exact absurd hj.symm (hn j)
    case pos => rw [hjp, hp, ho i hip] at hj; exact absurd hj (hn i)
    case neg => rw [ho i hip] at hi hj; rw [ho j hjp] at hj; exact h i j hi hj

end Memory

theorem uniquePlates_step {a : Action} (hl : s.mem.Holds l) (hu : s.mem.UniquePlates)
    (h : system.step s a = some s') : s'.mem.UniquePlates ↔ Rescanned s a := by
  rcases State.step_lot h with ⟨pid, c, ha, hc, hs⟩ | ⟨ha, hm⟩
  case inr => exact iff_of_true (hu.of_sameLot hm) (by simp [Rescanned, ha])
  case inl =>
    have hr : Rescanned s a ↔ ∀ pos ∈ c.task.parks? s.mem,
        s.mem.lookup c.task.plate = none := by simp [Rescanned, hc]
    rw [hr]
    cases hs
    case same hp _ hm => exact iff_of_true (hu.of_sameLot hm) (by simp [hp])
    case park pos hp _ hm =>
      have he := hl.nil_iff.mp <| hl.free_iff.mpr (Task.parks?_free hp).left
      simp [hm, hu.park_iff he, hp]
    case leave pos z hp _ _ hm =>
      refine iff_of_true (hu.of_erased fun i => ?_) (by simp [hp])
      by_cases hi : i = pos <;> simp [hm, hi]
    case fault pos hp _ _ hm =>
      refine iff_of_true (hu.of_erased fun i => ?_) (by simp [hp])
      by_cases hi : i = pos <;> simp [hm, hi]

-- The plates stay unique in every state of a run exactly if each entry gets its slot while its scan
-- would still find nothing.
theorem uniquePlates_iff (e : system.Run (.initial clock) s) :
    e.AllStates (·.mem.UniquePlates) ↔ e.AllSteps Rescanned := by
  apply e.allStates_iff_allSteps State.Represents
  case hi => exact initial_represents clock
  case h₀ => exact fun _ _ h => absurd rfl h
  case hI => exact fun _ _ _ hi h => occupancy.preserves hi trivial h
  case hP =>
    intro s a s' hi hu h
    have ⟨_, hl⟩ := hi.mem
    exact uniquePlates_step hl hu h

-- Two entries of one car look for its plate before either of them gets a slot.
def doubleEntry : List Action :=
  [.spawn <| .entry 1 .a, .spawn <| .entry 2 .a] ++
  statements 0 1 ++ statements 1 1 ++ statements 0 3 ++ statements 1 3

theorem uniquePlates_broken : ¬ ∀ (clock : ℤ) (s : State) (e : system.Run (.initial clock) s),
    e.AllSteps (atomicSections · · = true) → s.mem.UniquePlates := by
  intro h
  have ⟨s, e, he, hs⟩ := Machine.Run.exists_of_exec system atomicSections (.initial 0) doubleEntry
    (fun s => (s.mem.car 8).licencePlate = [65] ∧ (s.mem.car 15).licencePlate = [65]) (by decide)
  have ⟨h₁, h₂⟩ := of_decide_eq_true hs
  have := h 0 s e he 8 15 (by simp [h₁]) (by rw [h₁, h₂])
  contradiction

end Parking
