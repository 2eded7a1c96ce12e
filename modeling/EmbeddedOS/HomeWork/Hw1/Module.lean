import EmbeddedOS.HomeWork.Hw1.Init
import EmbeddedOS.HomeWork.Hw1.Session

namespace Hw1

-- What the kernel is going to answer, whatever it has given away.
structure Replies where
  allocChrdevRegion : Option ℕ
  cdevAdd           : Bool
  classCreate       : Option ℕ
  deviceCreate      : Bool
  gpioIsValid       : UInt8 → Bool
  gpioRequest       : UInt8 → Bool

-- The answers of a kernel, which does not give away anything that is in use.
def Replies.answers? (r : Replies) (k : Kernel) : Option (Answers k) :=
  if h : (∀ dev ∈ r.allocChrdevRegion, dev ∉ k.regions ∧ dev ∉ k.cdevs) ∧
      ∀ cls ∈ r.classCreate, cls ∉ k.classes ∧ ∀ d ∈ k.devices, d.fst ≠ cls
  then some {
    allocChrdevRegion := r.allocChrdevRegion
    cdevAdd           := r.cdevAdd
    classCreate       := r.classCreate
    deviceCreate      := r.deviceCreate
    gpioIsValid       := r.gpioIsValid
    gpioRequest       := r.gpioRequest
    newNumber         := h.left
    newClass cls hc   := ⟨(h.right cls hc).left, fun _ hd => (h.right cls hc).right _ hd rfl⟩ }
  else none

-- `etx_driver_exit`. What `gpio_unexport` takes back is not modelled.
def Kernel.etxDriverExit (k : Kernel) (cls dev : Option ℕ) : Kernel :=
  (((gpioDisplay.foldl gpioFree <| gpio.foldl gpioFree k).deviceDestroy cls dev).classDestroy
    cls).cdevDel dev |>.unregisterChrdevRegion dev

-- The kernel with the module, and `dev_class` and `dev` of the module as long as it is loaded. What
-- the kernel has given to others is not part of the program.
structure Module where
  kernel : Kernel
  loaded : Option (Option ℕ × Option ℕ)
  others : Kernel

inductive Module.Action
  | insmod (r : Replies)
  | rmmod
  | write (buf : List UInt8)
  | close
  | request (driver : ℕ) (pin : UInt8)    -- another driver wants a pin
  | free (driver : ℕ) (pin : UInt8)       -- another driver gives one of its pins back

def Kernel.setOwner (k : Kernel) (pin : UInt8) (o : Option Owner) : Kernel :=
  { k with owner := Function.update k.owner pin o }

namespace Module

variable (m : Module)

-- A write that leaves `GPIO`, `show` or `rec_buf` is not a step: which pins it would set depends on
-- what stands behind these arrays.
def step : Action → Option Module
  | .insmod r =>
    if m.loaded.isSome then none
    else (r.answers? m.kernel).map fun a =>
      let (value, kernel) := etxDriverInit a
      if value = 0
      then { m with kernel, loaded := some (a.classCreate, a.allocChrdevRegion) }
      else { m with kernel }
  | .rmmod =>
    m.loaded.map fun (cls, dev) =>
      { m with kernel := m.kernel.etxDriverExit cls dev, loaded := none }
  | .write buf => if m.loaded.isSome ∧ (etxWrite buf).isSome then some m else none
  | .close     => if m.loaded.isSome then some m else none
  | .request driver pin =>
    if m.kernel.owner pin = none
    then some { m with
      kernel := m.kernel.setOwner pin (some (.other driver))
      others := m.others.setOwner pin (some (.other driver)) }
    else some m
  | .free driver pin =>
    if m.kernel.owner pin = some (.other driver)
    then some { m with
      kernel := m.kernel.setOwner pin none
      others := m.others.setOwner pin none }
    else none

-- What a step does to the pins. `etx_driver_init` configures them once it has got all of them.
def events : Action → List Event
  | .insmod r  =>
    if (r.answers? m.kernel).any fun a => (etxDriverInit a).fst = 0 then configure else []
  | .write buf => (etxWrite buf).getD []
  | .close     => etxRelease
  | .rmmod | .request .. | .free .. => []

end Module

end Hw1
