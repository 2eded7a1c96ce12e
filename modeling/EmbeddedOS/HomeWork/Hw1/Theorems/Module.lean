import EmbeddedOS.HomeWork.Hw1.Module
import EmbeddedOS.HomeWork.Hw1.Theorems.Message
import EmbeddedOS.HomeWork.Hw1.Theorems.Unwind

open C

namespace Hw1

-- `etx_driver_init` gets all pins if it gets as far as that.
def PinsGranted (m : Module) : Module.Action → Prop
  | .insmod r => ∀ a ∈ r.answers? m.kernel, a.allocChrdevRegion.isSome → a.cdevAdd →
    a.classCreate.isSome → a.deviceCreate → ∀ pin ∈ pins, a.Grants pin
  | _         => True

-- The driver has all of its pins as long as it is loaded.
def Module.Equipped (m : Module) : Prop :=
  m.loaded.isSome → ∀ pin ∈ pins, m.kernel.owner pin = some .etx

-- The kernel has given to the driver what it needs as long as it is loaded, and nothing else.
structure Module.Transparent (m : Module) : Prop where
  unloaded : m.loaded = none → m.kernel = m.others
  loaded   : ∀ g ∈ m.loaded, ∃ cls dev, g = (some cls, some dev) ∧
    m.kernel = { m.others.reached cls dev with owner := taken m.others.owner pins } ∧
    (∀ pin ∈ pins, m.others.owner pin = none) ∧ (dev ∉ m.others.regions ∧ dev ∉ m.others.cdevs) ∧
    cls ∉ m.others.classes ∧ ∀ dev, (cls, dev) ∉ m.others.devices

section Events

variable {events : List Event} {pin value : UInt8}

end Events

section Writes

variable {buf : List UInt8} {m : Module}

end Writes

section Init

variable {k : Kernel} {a : Answers k}

theorem init_early_value (h : ¬(a.allocChrdevRegion.isSome ∧ a.cdevAdd ∧ a.classCreate.isSome ∧
    a.deviceCreate)) : (etxDriverInit a).fst = -1 := by
  cases hd : a.allocChrdevRegion <;> cases hc : a.classCreate <;> by_cases hca : a.cdevAdd <;>
    by_cases hdc : a.deviceCreate <;> simp_all [etxDriverInit]

-- When `etx_driver_init` succeeds, no pin was in use, and now the driver has all of them.
theorem init_zero (h : (etxDriverInit a).fst = 0) : ∃ cls dev, a.classCreate = some cls ∧
    a.allocChrdevRegion = some dev ∧ (∀ pin ∈ pins, k.owner pin = none) ∧
    (etxDriverInit a).snd = { k.reached cls dev with owner := taken k.owner pins } := by
  by_cases he : a.allocChrdevRegion.isSome ∧ a.cdevAdd ∧ a.classCreate.isSome ∧ a.deviceCreate
  case neg => simp [init_early_value he] at h
  obtain ⟨hd, hca, hc, hdc⟩ := he
  obtain ⟨dev, hd⟩ := Option.isSome_iff_exists.mp hd
  obtain ⟨cls, hc⟩ := Option.isSome_iff_exists.mp hc
  have hr := init_reached hd hca hc hdc
  rw [requestPins_reached, ← Answers.stop?] at hr
  cases hs : a.stop?
  case some pin =>
    by_cases hv : a.gpioIsValid pin <;> simp [hr, hs, hv] at h
  case none =>
    have hg : ∀ pin ∈ pins, a.Grants pin := by
      simpa [Answers.stop?, List.head?_eq_none_iff] using hs
    have hp : a.granted = pins := by
      simpa [Answers.granted, List.takeWhile_eq_self_iff] using hg
    refine ⟨cls, dev, hc, hd, fun pin hp => (hg pin hp).right.left, ?_⟩
    rw [hr, hs, ← hp]
    rfl

theorem init_of_grants (hd : a.allocChrdevRegion.isSome) (hca : a.cdevAdd)
    (hc : a.classCreate.isSome) (hdc : a.deviceCreate) (hg : ∀ pin ∈ pins, a.Grants pin) :
    (etxDriverInit a).fst = 0 := by
  obtain ⟨dev, hd⟩ := Option.isSome_iff_exists.mp hd
  obtain ⟨cls, hc⟩ := Option.isSome_iff_exists.mp hc
  have hs : a.stop? = none := by
    simpa [Answers.stop?, List.head?_eq_none_iff] using hg
  rw [init_reached hd hca hc hdc, requestPins_reached, ← Answers.stop?, hs]
  rfl

-- What has been taken for the pins is given back to nobody, and all other pins stay with those who
-- have them.
theorem etxDriverExit_reached {cls dev : ℕ} (hp : ∀ pin ∈ pins, k.owner pin = none)
    (hd : dev ∉ k.regions ∧ dev ∉ k.cdevs) (hc : cls ∉ k.classes ∧ ∀ dev, (cls, dev) ∉ k.devices) :
    Kernel.etxDriverExit { k.reached cls dev with owner := taken k.owner pins } cls dev = k := by
  have ho : (fun pin => if pin ∈ pins then none else taken k.owner pins pin) = k.owner := by
    funext pin
    by_cases hm : pin ∈ pins <;> simp [hm, taken, hp]
  exact (rGpio_reached hd hc _).trans <| (withOwner_eq_iff _).mpr ho

end Init

section Runs

variable {m m' : Module} {x : Module.Action}

namespace Module

theorem insmod_cases {r : Replies} (hs : m.step (.insmod r) = some m') :
    m.loaded = none ∧ ∃ a, r.answers? m.kernel = some a ∧
      m' = if (etxDriverInit a).fst = 0
        then { m with
          kernel := (etxDriverInit a).snd
          loaded := some (a.classCreate, a.allocChrdevRegion) }
        else { m with kernel := (etxDriverInit a).snd } := by
  simp only [step, Option.ite_none_left_eq_some, Option.not_isSome_iff_eq_none] at hs
  obtain ⟨hl, hs⟩ := hs
  obtain ⟨a, ha, rfl⟩ := Option.map_eq_some_iff.mp hs
  exact ⟨hl, a, ha, rfl⟩

theorem Equipped.step (h : m.Equipped) (hs : m.step x = some m') : m'.Equipped := by
  cases x
  case insmod r =>
    obtain ⟨hl, a, _, rfl⟩ := insmod_cases hs
    intro hl' pin hp
    split at hl' <;> rename_i hz
    case isTrue =>
      obtain ⟨cls, dev, _, _, _, hk⟩ := init_zero hz
      simp [hz, hk, taken, hp]
    case isFalse => simp [hl] at hl'
  case rmmod =>
    obtain ⟨_, _, rfl⟩ := Option.map_eq_some_iff.mp hs
    intro hl
    simp at hl
  case write buf =>
    obtain ⟨_, hs⟩ := Option.ite_none_right_eq_some.mp hs
    cases hs
    exact h
  case close =>
    obtain ⟨_, hs⟩ := Option.ite_none_right_eq_some.mp hs
    cases hs
    exact h
  case request driver pin =>
    simp only [Module.step] at hs
    split at hs <;> cases hs
    case isFalse   => exact h
    case isTrue hn =>
      intro hl p hp
      have hne : p ≠ pin := by
        rintro rfl
        exact absurd (h hl p hp) (by simp [hn])
      exact (Function.update_of_ne hne _ _).trans (h hl p hp)
  case free driver pin =>
    obtain ⟨hn, hs⟩ := Option.ite_none_right_eq_some.mp hs
    cases hs
    intro hl p hp
    have hne : p ≠ pin := by
      rintro rfl
      exact absurd (h hl p hp) (by simp [hn])
    exact (Function.update_of_ne hne _ _).trans (h hl p hp)

theorem Transparent.insmod (h : m.Transparent) {r : Replies} (hg : PinsGranted m (.insmod r))
    (hs : m.step (.insmod r) = some m') : m'.Transparent := by
  obtain ⟨hl, a, ha, rfl⟩ := insmod_cases hs
  have hk := h.unloaded hl
  split <;> rename_i hz
  case isTrue =>
    have ⟨cls, dev, hc, hd, hf, he⟩ := init_zero hz
    have hn := a.newNumber dev hd
    have hnc := a.newClass cls hc
    refine ⟨nofun, fun g hg => ⟨cls, dev, ?_, ?_⟩⟩
    case refine_1 => rw [← hc, ← hd]; exact (Option.some.inj hg).symm
    case refine_2 =>
      rw [hk] at hn hnc hf
      let f (k : Kernel) : Kernel := { k.reached cls dev with owner := taken k.owner pins }
      exact ⟨he.trans <| congrArg f hk, hf, hn, hnc⟩
  case isFalse =>
    have he : ¬(a.allocChrdevRegion.isSome ∧ a.cdevAdd ∧ a.classCreate.isSome ∧ a.deviceCreate) :=
      fun ⟨hd, hca, hc, hdc⟩ => hz <| init_of_grants hd hca hc hdc (hg a ha hd hca hc hdc)
    refine ⟨fun _ => (init_early he).trans hk, fun g hg => ?_⟩
    simp [hl] at hg

-- What others do with a pin.
theorem Transparent.setOwner (h : m.Transparent) {pin : UInt8} {o : Option Owner}
    (hp : m.loaded.isSome → pin ∉ pins) : Transparent { m with
      kernel := m.kernel.setOwner pin o
      others := m.others.setOwner pin o } := by
  constructor
  case unloaded => exact fun hl => congrArg (Kernel.setOwner · pin o) (h.unloaded hl)
  case loaded =>
    intro g hl
    have ⟨cls, dev, hg, hk, hf, hn, hc⟩ := h.loaded g hl
    have hp := hp <| Option.isSome_iff_exists.mpr ⟨g, hl⟩
    refine ⟨cls, dev, hg, ?_, fun q hq => ?_, hn, hc⟩
    case refine_1 =>
      have ht : taken (Function.update m.others.owner pin o) pins =
          Function.update (taken m.others.owner pins) pin o := by
        funext q
        by_cases hq : q = pin
        case pos => subst hq; simp [taken, hp]
        case neg => simp [taken, hq]
      simp only [Kernel.setOwner, hk, ht]
      rfl
    case refine_2 =>
      have hne : q ≠ pin := fun he => hp (he ▸ hq)
      exact (Function.update_of_ne hne _ _).trans (hf q hq)

theorem Transparent.step (h : m.Transparent) (he : m.Equipped) (hg : PinsGranted m x)
    (hs : m.step x = some m') : m'.Transparent := by
  cases x
  case insmod => exact h.insmod hg hs
  case rmmod =>
    obtain ⟨g, hl, rfl⟩ := Option.map_eq_some_iff.mp hs
    obtain ⟨cls, dev, rfl, hk, hf, hn, hc⟩ := h.loaded g hl
    refine ⟨fun _ => ?_, nofun⟩
    dsimp only
    rw [hk]
    exact etxDriverExit_reached hf hn hc
  case write buf =>
    obtain ⟨_, hs⟩ := Option.ite_none_right_eq_some.mp hs
    cases hs
    exact h
  case close =>
    obtain ⟨_, hs⟩ := Option.ite_none_right_eq_some.mp hs
    cases hs
    exact h
  case request driver pin =>
    simp only [Module.step] at hs
    split at hs <;> cases hs
    case isFalse   => exact h
    case isTrue hn => exact h.setOwner fun hl hp => absurd (he hl pin hp) (by simp [hn])
  case free driver pin =>
    obtain ⟨hn, hs⟩ := Option.ite_none_right_eq_some.mp hs
    cases hs
    exact h.setOwner fun hl hp => absurd (he hl pin hp) (by simp [hn])

end Module

end Runs

end Hw1
