import EmbeddedOS.FinalProject.Server

open C

namespace Parking

-- The four shared memory segments as `shmat` maps them: zeroed, or with what an earlier server has
-- left in them. The plate of a car is the whole array `licence_plate[8]`.
structure Segments where
  car       : Slot → Car
  parkSpace : Slot → ℤ
  spaceLeft : Zone → ℤ
  cash      : ℤ
  plate_length : ∀ i, (car i).licencePlate.length = 8

-- The string that `strcmp` sees in the array, as far as the array goes.
def Car.mapped (c : Car) : Car :=
  { c with licencePlate := c.licencePlate.takeWhile (· ≠ 0) }

-- The loop that writes '1'-48 to each of the LEDs.
def darkenAll (pins : ℕ → ℤ) : Option (ℕ → ℤ) :=
  (List.finRange 16).foldlM (fun pins i => etxWrite pins [i.val.toUInt8, 1]) pins

-- The statements of `main` in front of the accept loop. The semaphores are new, since they are
-- created with `IPC_EXCL`, the segments need not be.
def Segments.startUp (g : Segments) (pins : ℕ → ℤ) (clock : ℤ) : Option Memory :=
  (darkenAll pins).map fun pins => {
    car i       := (g.car i).mapped
    parkSpace   := g.parkSpace
    spaceLeft _ := 8
    cash        := 0
    semMutex    := 1
    semCounting := 2
    pins
    clock
    log         := []
  }

def Segments.zeroed : Segments where
  car _       := { entryT := 0, payT := 0, elec := 0, licencePlate := .replicate 8 0, pos := 0 }
  parkSpace _ := 0
  spaceLeft _ := 0
  cash        := 0
  plate_length _ := List.length_replicate

end Parking
