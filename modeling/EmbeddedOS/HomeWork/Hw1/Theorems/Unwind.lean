import EmbeddedOS.HomeWork.Hw1.Init

namespace Hw1

-- All pins, in the order in which they are requested.
def pins : List UInt8 :=
  gpio ++ gpioDisplay

-- The driver gets a pin that it asks for.
def Answers.Grants {k : Kernel} (a : Answers k) (pin : UInt8) : Prop :=
  a.gpioIsValid pin ∧ k.owner pin = none ∧ a.gpioRequest pin

instance {k : Kernel} (a : Answers k) (pin : UInt8) : Decidable (a.Grants pin) :=
  inferInstanceAs (Decidable (_ ∧ _))

-- When `etx_driver_init` fails, the kernel has given away what it had given away before. That no
-- other driver has lost a pin is part of it.
def Clean {k : Kernel} (a : Answers k) : Prop :=
  (etxDriverInit a).fst = -1 → (etxDriverInit a).snd = k

-- The labels can undo what has been done so far: the call that fails is not about a pin, or it
-- finds the very first pin invalid, or it requests a pin while none of the pins was in use.
def Undoable {k : Kernel} (a : Answers k) : Prop :=
  a.allocChrdevRegion.isSome → a.cdevAdd → a.classCreate.isSome → a.deviceCreate →
    ∀ pin ∈ (pins.dropWhile fun pin => a.Grants pin).head?,
      (a.gpioIsValid pin → ∀ p ∈ pins, k.owner p = none) ∧ (¬a.gpioIsValid pin → pin = 25)

-- The owners of the pins after some of them have been requested.
def taken (owner : UInt8 → Option Owner) (done : List UInt8) : UInt8 → Option Owner :=
  fun pin => if pin ∈ done then some .etx else owner pin

-- What the kernel has given away when the loops over the pins are reached.
def Kernel.reached (k : Kernel) (cls dev : ℕ) : Kernel :=
  { k with
    regions := insert dev k.regions
    cdevs   := insert dev k.cdevs
    classes := insert cls k.classes
    devices := insert (cls, dev) k.devices }

variable {k k' : Kernel} {a : Answers k} {ps qs done : List UInt8} {pin : UInt8} {cls dev : ℕ}

theorem pins_nodup : pins.Nodup := by
  simp [pins, gpio, gpioDisplay]

section Loops

theorem requestAll_append (ps qs : List UInt8) (k' : Kernel) : requestAll a (ps ++ qs) k' =
    match requestAll a ps k' with
    | (k, none)       => requestAll a qs k
    | (k, some label) => (k, some label) := by
  induction ps generalizing k'
  case nil => rfl
  case cons pin ps hi =>
    simp only [List.cons_append, requestAll]
    split
    case isTrue  => rfl
    case isFalse =>
      cases k'.gpioRequest (a.gpioRequest pin) pin
      case none   => rfl
      case some k => exact hi k

theorem requestPins_eq (k' : Kernel) : requestPins a k' = requestAll a pins k' :=
  (requestAll_append gpio gpioDisplay k').symm

theorem taken_append_singleton (owner : UInt8 → Option Owner) :
    Function.update (taken owner done) pin (some .etx) = taken owner (done ++ [pin]) := by
  funext p
  by_cases hp : p = pin <;> simp [taken, Function.update, hp]

-- The loops take the pins up to the first one that they do not get, and that pin tells where they
-- jump to.
theorem requestAll_eq (ho : k'.owner = k.owner) (hn : (done ++ ps).Nodup) :
    requestAll a ps { k' with owner := taken k'.owner done } =
      ({ k' with owner := taken k'.owner (done ++ ps.takeWhile fun pin => a.Grants pin) },
        (ps.dropWhile fun pin => a.Grants pin).head?.map fun pin =>
          if a.gpioIsValid pin then .rGpio else .rDevice) := by
  induction ps generalizing done
  case nil => simp [requestAll]
  case cons pin ps hi =>
    have hd : pin ∉ done := fun hm =>
      (List.nodup_append.mp hn).right.right pin hm pin List.mem_cons_self rfl
    have hp : taken k'.owner done pin = k.owner pin := by simp [taken, hd, ho]
    by_cases hg : a.Grants pin
    case pos =>
      have ⟨hv, hf, hr⟩ := hg
      have hs := @hi (done ++ [pin]) (by simpa using hn)
      simp [requestAll, Kernel.gpioRequest, hv, hp, hf, hr, taken_append_singleton, hs, hg]
    case neg =>
      by_cases hv : a.gpioIsValid pin
      case pos =>
        have hr : ¬(k.owner pin = none ∧ a.gpioRequest pin) := fun hr => hg ⟨hv, hr⟩
        simp [requestAll, Kernel.gpioRequest, hv, hp, hr, hg]
      case neg => simp [requestAll, hv, hg]

end Loops

section Labels

-- Giving back what is new and has been taken, or has not been taken, leads back to the start.
theorem sdiff_new {α : Type*} [DecidableEq α] {x : α} {s : Finset α} (h : x ∉ s) :
    s \ {x} = s ∧ insert x s \ {x} = s := by
  simp [Finset.sdiff_singleton_eq_erase, h]

-- What each label leaves, where `k'` is the kernel at the jump.
theorem rDel_eq (k' : Kernel) (hr : k'.regions \ {dev} = k.regions)
    (hd : k'.cdevs \ {dev} = k.cdevs) :
    k'.rDel dev = { k' with regions := k.regions, cdevs := k.cdevs } := by
  simp [Kernel.rDel, Kernel.rUnreg, Kernel.cdevDel, Kernel.unregisterChrdevRegion, hr, hd]

theorem rClass_eq (k' : Kernel) (hr : k'.regions \ {dev} = k.regions)
    (hd : k'.cdevs \ {dev} = k.cdevs) {cls : Option ℕ}
    (hc : k'.classes \ cls.toFinset = k.classes) :
    k'.rClass cls dev =
      { k' with regions := k.regions, cdevs := k.cdevs, classes := k.classes } := by
  refine (rDel_eq (k := k) (k'.classDestroy cls) hr hd).trans ?_
  rw [Kernel.classDestroy, hc]

theorem rDevice_eq (hr : k'.regions \ {dev} = k.regions) (hd : k'.cdevs \ {dev} = k.cdevs)
    (hc : k'.classes \ {cls} = k.classes) (hv : k'.devices \ {(cls, dev)} = k.devices) :
    k'.rDevice cls dev = { k with owner := k'.owner } := by
  have hv' : (k'.deviceDestroy cls dev).devices = k.devices := by
    simpa [Kernel.deviceDestroy] using hv
  refine (rClass_eq (k := k) (k'.deviceDestroy cls dev) hr hd ?_).trans ?_
  case refine_1 => simpa [Kernel.deviceDestroy] using hc
  case refine_2 => rw [hv', Kernel.deviceDestroy]

-- What has been taken before the loops is given back.
theorem rDevice_reached (hd : dev ∉ k.regions ∧ dev ∉ k.cdevs)
    (hc : cls ∉ k.classes ∧ ∀ dev, (cls, dev) ∉ k.devices) (owner : UInt8 → Option Owner) :
    Kernel.rDevice { k.reached cls dev with owner } cls dev = { k with owner } :=
  rDevice_eq (sdiff_new hd.left).right (sdiff_new hd.right).right (sdiff_new hc.left).right
    (sdiff_new <| hc.right dev).right

theorem foldl_gpioFree (ps : List UInt8) (k : Kernel) : ps.foldl Kernel.gpioFree k =
    { k with owner := fun pin => if pin ∈ ps then none else k.owner pin } := by
  induction ps generalizing k
  case nil => simp
  case cons p ps hi =>
    rw [List.foldl_cons, hi]
    simp only [Kernel.gpioFree, Kernel.mk.injEq, true_and]
    funext q
    by_cases hq : q = p <;> simp [Function.update, hq]

-- All pins are freed, whoever has requested them.
theorem rGpio_reached (hd : dev ∉ k.regions ∧ dev ∉ k.cdevs)
    (hc : cls ∉ k.classes ∧ ∀ dev, (cls, dev) ∉ k.devices) (owner : UInt8 → Option Owner) :
    Kernel.rGpio { k.reached cls dev with owner } cls dev =
      { k with owner := fun pin => if pin ∈ pins then none else owner pin } := by
  rw [Kernel.rGpio, ← List.foldl_append, foldl_gpioFree]
  exact rDevice_reached hd hc _

end Labels

-- Whatever fails before the pins is undone.
theorem init_early (h : ¬(a.allocChrdevRegion.isSome ∧ a.cdevAdd ∧ a.classCreate.isSome ∧
    a.deviceCreate)) : (etxDriverInit a).snd = k := by
  cases hd : a.allocChrdevRegion
  case none => simp [etxDriverInit, hd, Kernel.rUnreg, Kernel.unregisterChrdevRegion]
  case some dev =>
    have hn := a.newNumber dev hd
    by_cases hca : a.cdevAdd
    case neg =>
      simp only [etxDriverInit, hd, hca]
      exact rDel_eq _ (sdiff_new hn.left).right (sdiff_new hn.right).left
    cases hc : a.classCreate
    case none =>
      simp only [etxDriverInit, hd, hca, hc]
      exact rClass_eq _ (sdiff_new hn.left).right (sdiff_new hn.right).right (by simp)
    case some cls =>
      have hnc := a.newClass cls hc
      have hdc : ¬a.deviceCreate := by simpa [hd, hca, hc] using h
      simp only [etxDriverInit, hd, hca, hc, hdc]
      exact rDevice_eq (sdiff_new hn.left).right (sdiff_new hn.right).right
        (sdiff_new hnc.left).right (sdiff_new <| hnc.right dev).left

theorem init_reached (hd : a.allocChrdevRegion = some dev) (hca : a.cdevAdd)
    (hc : a.classCreate = some cls) (hdc : a.deviceCreate) :
    etxDriverInit a =
      match requestPins a (k.reached cls dev) with
      | (k, none)          => (0, k)
      | (k, some .rDevice) => (-1, k.rDevice cls dev)
      | (k, some .rGpio)   => (-1, k.rGpio cls dev) := by
  simp only [etxDriverInit, hd, hca, hc, hdc]
  rfl

-- The pins that the loops take from the kernel as it was before.
def Answers.granted (a : Answers k) : List UInt8 :=
  pins.takeWhile fun pin => a.Grants pin

theorem requestPins_reached : requestPins a (k.reached cls dev) =
    ({ k.reached cls dev with owner := taken k.owner a.granted },
      (pins.dropWhile fun pin => a.Grants pin).head?.map fun pin =>
        if a.gpioIsValid pin then .rGpio else .rDevice) := by
  have ht : taken (k.reached cls dev).owner [] = (k.reached cls dev).owner := by
    funext pin
    simp [taken]
  have h : requestAll a pins
      { k.reached cls dev with owner := taken (k.reached cls dev).owner [] } = _ :=
    requestAll_eq rfl pins_nodup
  rw [ht] at h
  exact (requestPins_eq _).trans h

theorem granted_eq_nil_iff : a.granted = [] ↔ ¬a.Grants 25 := by
  rw [Answers.granted, pins, gpio, List.cons_append, List.takeWhile_cons]
  split <;> simp_all

-- The pin at which the loops stop.
def Answers.stop? (a : Answers k) : Option UInt8 :=
  (pins.dropWhile fun pin => a.Grants pin).head?

theorem not_grants_stop (h : a.stop? = some pin) : ¬a.Grants pin := by
  have hn := List.head?_dropWhile_not (fun pin => decide (a.Grants pin)) pins
  rw [Answers.stop?] at h
  rw [h] at hn
  simpa using hn

theorem stop_of_granted (h : a.granted = []) : a.stop? = some 25 := by
  have hg := granted_eq_nil_iff.mp h
  rw [Answers.stop?, pins, gpio, List.cons_append, List.dropWhile_cons_of_neg (by simpa using hg)]
  rfl

theorem grants_of_granted (h : pin ∈ a.granted) : a.Grants pin := by
  simpa using List.mem_takeWhile_imp h

-- A pin that has been taken was free before.
theorem taken_eq_iff : taken k.owner a.granted = k.owner ↔ a.granted = [] := by
  constructor
  case mp =>
    intro h
    by_contra hn
    obtain ⟨pin, ps, hp⟩ := List.exists_cons_of_ne_nil hn
    have hm : pin ∈ a.granted := hp ▸ List.mem_cons_self
    have hf : a.Grants pin := grants_of_granted hm
    have he := congrFun h pin
    simp [taken, hm, hf.right.left] at he
  case mpr =>
    intro h
    funext pin
    simp [taken, h]

theorem withOwner_eq_iff (owner : UInt8 → Option Owner) :
    { k with owner } = k ↔ owner = k.owner := by
  cases k
  simp

theorem freed_eq_iff :
    (fun pin => if pin ∈ pins then none else taken k.owner a.granted pin) = k.owner ↔
      ∀ pin ∈ pins, k.owner pin = none := by
  constructor
  case mp =>
    intro h pin hp
    simpa [hp] using (congrFun h pin).symm
  case mpr =>
    intro h
    funext pin
    by_cases hp : pin ∈ pins
    case pos => simp [hp, h pin hp]
    case neg =>
      have hg : pin ∉ a.granted := fun hm => hp <| (List.takeWhile_prefix _).subset hm
      simp [hp, taken, hg]

-- `etx_driver_init` gives back what it has taken, and nothing else, exactly in these cases. The
-- label for a failed request frees all pins, also those of others, and the one for an invalid pin
-- frees none.
theorem clean_iff_undoable : Clean a ↔ Undoable a := by
  by_cases h : a.allocChrdevRegion.isSome ∧ a.cdevAdd ∧ a.classCreate.isSome ∧ a.deviceCreate
  case neg =>
    refine iff_of_true (fun _ => init_early h) fun h₁ h₂ h₃ h₄ => absurd ⟨h₁, h₂, h₃, h₄⟩ h
  obtain ⟨hd, hca, hc, hdc⟩ := h
  have hu : Undoable a ↔ ∀ pin ∈ a.stop?,
      (a.gpioIsValid pin → ∀ p ∈ pins, k.owner p = none) ∧ (¬a.gpioIsValid pin → pin = 25) :=
    ⟨fun h => h hd hca hc hdc, fun h _ _ _ _ => h⟩
  obtain ⟨dev, hd⟩ := Option.isSome_iff_exists.mp hd
  obtain ⟨cls, hc⟩ := Option.isSome_iff_exists.mp hc
  have hr := init_reached hd hca hc hdc
  rw [requestPins_reached, ← Answers.stop?] at hr
  rw [hu, Clean, hr]
  have hn := a.newNumber dev hd
  have hnc := a.newClass cls hc
  cases hs : a.stop?
  case none => simp
  case some pin =>
    by_cases hv : a.gpioIsValid pin
    case pos =>
      have hg := rGpio_reached hn hnc (taken k.owner a.granted)
      simpa [hv, hg] using (withOwner_eq_iff _).trans freed_eq_iff
    case neg =>
      have hg := rDevice_reached hn hnc (taken k.owner a.granted)
      have hp : a.granted = [] ↔ pin = 25 := by
        constructor
        case mp  => exact fun h => Option.some.inj <| hs.symm.trans (stop_of_granted h)
        case mpr => exact fun h => granted_eq_nil_iff.mpr <| not_grants_stop (h ▸ hs)
      simpa [hv, hg] using (withOwner_eq_iff _).trans (taken_eq_iff.trans hp)

-- The display's first pin belongs to another driver.
def shared : Kernel where
  regions := ∅
  cdevs   := ∅
  classes := ∅
  devices := ∅
  owner   := fun pin => if pin = 11 then some (.other 0) else none

-- All calls succeed that can.
def willing (k : Kernel) (hr : k.regions = ∅) (hd : k.cdevs = ∅) (hc : k.classes = ∅)
    (hv : k.devices = ∅) : Answers k where
  allocChrdevRegion := some 236
  cdevAdd           := true
  classCreate       := some 0
  deviceCreate      := true
  gpioIsValid       := fun _ => true
  gpioRequest       := fun _ => true
  newNumber         := by simp [hr, hd]
  newClass          := by simp [hc, hv]

theorem clean_broken : ¬ ∀ (k : Kernel) (a : Answers k), Clean a := by
  intro h
  have hc := h shared (willing shared rfl rfl rfl rfl) (by decide)
  have ho := congrArg (Kernel.owner · 11) hc
  revert ho
  decide

end Hw1
