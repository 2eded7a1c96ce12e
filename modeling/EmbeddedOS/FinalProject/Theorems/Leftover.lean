import EmbeddedOS.FinalProject.Startup
import EmbeddedOS.FinalProject.Theorems.Leds

namespace Parking

-- What the accept loop relies on: all slots are free, and everything else says so too.
structure Memory.Established (m : Memory) : Prop where
  parkSpace : ∀ i, m.parkSpace i = 0
  spaceLeft : ∀ z, m.spaceLeft z = Finset.card { i : Slot | i.zone = z ∧ m.parkSpace i = 0 }
  lookup    : ∀ p : Plate, m.lookup p = none
  leds      : State.LedsTellTruth { mem := m, procs := [] }

-- No slot has been left taken, and no array has been left with a plate: it starts with a NUL, or it
-- has none.
structure Segments.Clean (g : Segments) : Prop where
  parkSpace : ∀ i, g.parkSpace i = 0
  plate     : ∀ i, (g.car i).licencePlate.head? = some 0 ∨ 0 ∉ (g.car i).licencePlate

variable {g : Segments} {pins : ℕ → ℤ} {clock : ℤ} {m : Memory} {i : Slot}

theorem darkenAll_eq (pins : ℕ → ℤ) : darkenAll pins = some (darken pins) := by
  have h : ∀ (is : List Slot) (pins : ℕ → ℤ),
      is.foldlM (fun pins i => etxWrite pins [i.val.toUInt8, 1]) pins =
        some (is.foldl (fun pins i => Function.update pins (gpio i) 1) pins) := by
    intro is pins
    induction is generalizing pins
    case nil => rfl
    case cons i is hi =>
      rw [List.foldlM_cons, etxWrite_eq, List.foldl_cons]
      exact hi _
  exact h _ pins

theorem darken_gpio (pins : ℕ → ℤ) (i : Slot) : darken pins (gpio i) = 1 := by
  have h : ∀ (is : List Slot) (pins : ℕ → ℤ),
      is.foldl (fun pins i => Function.update pins (gpio i) 1) pins (gpio i) =
        if i ∈ is then 1 else pins (gpio i) := by
    intro is pins
    induction is generalizing pins
    case nil => rfl
    case cons j is hi =>
      rw [List.foldl_cons, hi]
      by_cases hj : i = j
      case pos => simp [hj]
      case neg => simp [hj, Function.update_of_ne (mt gpio_injective hj)]
  rw [darken, h, if_pos (List.mem_finRange i)]

theorem Slot.card_zone (z : Zone) : Finset.card { i : Slot | i.zone = z } = 8 := by
  revert z
  decide

-- An array is found by some plate exactly if it holds one.
theorem exists_plate_iff {array : List UInt8} (h : array.length = 8) :
    (∃ p : Plate, array.takeWhile (· ≠ 0) = p.chars) ↔ array.head? ≠ some 0 ∧ 0 ∈ array := by
  constructor
  case mp =>
    intro ⟨p, hp⟩
    constructor
    case left =>
      intro hh
      obtain ⟨cs, rfl⟩ := List.head?_eq_some_iff.mp hh
      exact p.ne_nil <| hp.symm.trans (by simp)
    case right =>
      by_contra h₀
      have he : array.takeWhile (· ≠ 0) = array :=
        List.takeWhile_eq_self_iff.mpr fun c hc => decide_eq_true <| ne_of_mem_of_not_mem hc h₀
      have := p.length_le
      rw [← hp, he, h] at this
      omega
  case mpr =>
    intro ⟨hh, h₀⟩
    obtain ⟨c, cs, rfl⟩ := List.exists_cons_of_length_pos (by omega : 0 < array.length)
    have hc : c ≠ 0 := by simpa using hh
    have hs : C.string? (c :: cs) = some ((c :: cs).takeWhile (· ≠ 0)) := if_pos h₀
    refine ⟨⟨(c :: cs).takeWhile (· ≠ 0), by simp [hc], ?_, C.zero_not_mem_string? hs⟩, rfl⟩
    have hp := List.takeWhile_prefix (l := c :: cs) (· ≠ 0)
    by_contra hl
    have he := hp.eq_of_length (by have := hp.length_le; omega)
    exact C.zero_not_mem_string? (hs.trans <| congrArg some he) h₀

-- The memory of a server whose segments are new.
theorem Segments.startUp_zeroed (clock : ℤ) :
    Segments.zeroed.startUp (fun _ => 0) clock = some (.initial clock) := by
  rw [startUp, darkenAll_eq, Option.map_some]
  rfl

-- What the start-up makes of the segments.
theorem Segments.startUp_eq (g : Segments) (pins : ℕ → ℤ) (clock : ℤ) :
    ∃ m, g.startUp pins clock = some m ∧ (∀ i, m.car i = (g.car i).mapped) ∧
      m.parkSpace = g.parkSpace ∧ (∀ z, m.spaceLeft z = 8) ∧ ∀ i, m.pins (gpio i) = 1 := by
  exact ⟨_, by rw [startUp, darkenAll_eq, Option.map_some], fun _ => rfl, rfl, fun _ => rfl,
    darken_gpio pins⟩

-- The start-up establishes what the accept loop relies on exactly if the segments are clean.
theorem established_iff (g : Segments) (pins : ℕ → ℤ) (clock : ℤ) :
    (∃ m, g.startUp pins clock = some m ∧ m.Established) ↔ g.Clean := by
  obtain ⟨m, hm, hc, hp, hs, hl⟩ := g.startUp_eq pins clock
  have hf : (∀ p : Plate, m.lookup p = none) ↔
      ∀ i, (g.car i).licencePlate.head? = some 0 ∨ 0 ∉ (g.car i).licencePlate := by
    simp only [Memory.lookup_eq_none, hc, Car.mapped]
    rw [forall_comm]
    refine forall_congr' fun i => ?_
    rw [← not_exists, exists_plate_iff (g.plate_length i), not_and_or, not_not]
  constructor
  case mp =>
    rintro ⟨m', hm', h⟩
    cases Option.some.inj <| hm.symm.trans hm'
    exact ⟨fun i => hp ▸ h.parkSpace i, hf.mp h.lookup⟩
  case mpr =>
    intro h
    refine ⟨m, hm, fun i => hp ▸ h.parkSpace i, fun z => ?_, hf.mpr h.plate, fun _ i => ?_⟩
    case refine_1 => simp [hs, hp, h.parkSpace, Slot.card_zone]
    case refine_2 => simp [hl, hp, h.parkSpace]

-- What a server leaves behind that has been killed while the car `A` was in this slot.
def Segments.left (i : Slot) : Segments where
  car       := Function.update Segments.zeroed.car i {
    entryT       := 1700000000
    payT         := 0
    elec         := 0
    licencePlate := [65, 0, 0, 0, 0, 0, 0, 0]
    pos          := i
  }
  parkSpace := Function.update (fun _ => 0) i 1
  spaceLeft := Function.update (fun _ => 8) i.zone 7
  cash      := 0
  plate_length j := by
    by_cases hj : j = i <;> simp [hj, Segments.zeroed]

theorem established_broken : ¬ ∀ (g : Segments) (pins : ℕ → ℤ) (clock : ℤ),
    ∃ m, g.startUp pins clock = some m ∧ m.Established := by
  intro h
  obtain ⟨m, hm, he⟩ := h (.left 8) (fun _ => 0) 1700000000
  obtain ⟨m', hm', -, hp, -⟩ := (Segments.left 8).startUp_eq (fun _ => 0) 1700000000
  cases Option.some.inj <| hm'.symm.trans hm
  have h₈ := he.parkSpace 8
  rw [hp] at h₈
  exact absurd h₈ (by decide)

end Parking
