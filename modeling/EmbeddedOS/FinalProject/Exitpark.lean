import EmbeddedOS.FinalProject.Memory

namespace Parking

-- A child that runs `exitpark(connfd, plate)`, with the statement that it executes next. The index
-- `pos` is a C integer until the first access to `car[pos]` has gone through.
inductive Exitpark.Pc
  | scan                        -- the first scan, for `find`
  | rescan                      -- the second scan, for `pos`
  | checkPaid (pos : ℤ)         -- car[pos].pay_t == 0
  | checkTime (pos : Slot)      -- time(NULL) - car[pos].pay_t > 25
  | acquireLate (pos : Slot)
  | expire (pos : Slot)         -- the body of the section of a late exit
  | releaseLate (pos : Slot)
  | acquireFree (pos : Slot)
  | free (pos : Slot)           -- the body of the section that frees the slot
  | releaseFree (pos : Slot)
  | success (pos : Slot)        -- send() of 'Exit Success'
  | light (pos : Slot)          -- the message to the driver
  | reply (r : Reply)           -- send() of one of the refusals
  | exited
  | killed
  | faulted
  | faultedInside               -- stopped inside of the section
deriving DecidableEq

structure Exitpark where
  plate : Plate
  pc    : Exitpark.Pc

namespace Memory

variable (m : Memory)

-- `pos` after the loop: the first match, or the -1 that it starts with.
def scanIndex (plate : Plate) : ℤ :=
  match m.lookup plate with
  | some i => i
  | none   => -1

@[simps! -fullyApplied]
def expire (pid : ℕ) (plate : Plate) (pos : Slot) : Memory :=
  (m.setCar pos fun c => { c with entryT := c.payT, payT := -1 }).note
    (.expired pid plate pos (m.car pos).licencePlate)

-- The part of the section that comes before the access to `space_left[car[pos].elec]`.
@[simps! -fullyApplied]
def clearCar (pid : ℕ) (plate : Plate) (pos : Slot) : Memory :=
  (m.setCar pos fun c => { c with licencePlate := [], entryT := -1, payT := -1 }).note
    (.cleared pid plate pos (m.car pos).licencePlate)

@[simps -fullyApplied]
def leave (pid : ℕ) (plate : Plate) (pos : Slot) (zone : Zone) : Memory where
  car         := Function.update m.car pos {
    entryT       := -1
    payT         := -1
    elec         := -1
    licencePlate := []
    pos          := (m.car pos).pos
  }
  parkSpace   := Function.update m.parkSpace pos 0
  spaceLeft   := Function.update m.spaceLeft zone (m.spaceLeft zone + 1)
  cash        := m.cash
  semMutex    := m.semMutex
  semCounting := m.semCounting
  pins        := m.pins
  clock       := m.clock
  log         := .freed pid plate pos (m.car pos).licencePlate :: m.log

end Memory

namespace Exitpark

@[simps]
def goto (x : Exitpark) (pc : Pc) : Exitpark :=
  { x with pc }

def step (pid : ℕ) (m : Memory) (x : Exitpark) : Option (Memory × Exitpark) :=
  match x.pc with
  | .scan            =>
    match m.lookup x.plate with
    | some _ => some (m, x.goto .rescan)
    | none   => some (m, x.goto <| .reply .noCar)
  | .rescan          => some (m, x.goto <| .checkPaid (m.scanIndex x.plate))
  | .checkPaid pos   =>
    match slot? pos with
    | none     => some (m, x.goto .faulted)
    | some pos =>
      if (m.car pos).payT = 0
      then some (m, x.goto <| .reply .payFirst)
      else some (m, x.goto <| .checkTime pos)
  | .checkTime pos   =>
    if m.clock - (m.car pos).payT > 25
    then some (m, x.goto <| .acquireLate pos)
    else some (m, x.goto <| .acquireFree pos)
  | .acquireLate pos => m.lockMutex.map (·, x.goto <| .expire pos)
  | .expire pos      => some (m.expire pid x.plate pos, x.goto <| .releaseLate pos)
  | .releaseLate _   => some (m.unlockMutex, x.goto <| .reply .repay)
  | .acquireFree pos => m.lockMutex.map (·, x.goto <| .free pos)
  | .free pos        =>
    match zone? (m.car pos).elec with
    | none   => some (m.clearCar pid x.plate pos, x.goto .faultedInside)
    | some z => some (m.leave pid x.plate pos z, x.goto <| .releaseFree pos)
  | .releaseFree pos => some (m.unlockMutex, x.goto <| .success pos)
  | .success pos     => some (m.note <| .replied pid .exitSuccess, x.goto <| .light pos)
  | .light pos       =>
    match m.light pos 1 with
    | some m => some (m, x.goto .exited)
    | none   => some (m, x.goto .faulted)
  | .reply r         => some (m.note <| .replied pid r, x.goto .exited)
  | .exited | .killed | .faulted | .faultedInside => none

def insideMutex (x : Exitpark) : Bool :=
  match x.pc with
  | .expire _ | .releaseLate _ | .free _ | .releaseFree _ | .faultedInside => true
  | _ => false

def writing (x : Exitpark) : Bool :=
  match x.pc with
  | .success _ | .reply _ => true
  | _ => false

def ended (x : Exitpark) : Bool :=
  match x.pc with
  | .exited | .killed | .faulted | .faultedInside => true
  | _ => false

-- The slot that the child still uses: from the second scan to the body of its section.
def index? (x : Exitpark) : Option Slot :=
  match x.pc with
  | .checkPaid pos => slot? pos
  | .checkTime pos | .acquireLate pos | .expire pos | .acquireFree pos | .free pos => some pos
  | _ => none

end Exitpark
end Parking
