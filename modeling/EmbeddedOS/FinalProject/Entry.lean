import EmbeddedOS.FinalProject.Memory

namespace Parking

-- A child that runs `entry(connfd, entry_num, plate)`, with the statement that it executes next.
inductive Entry.Pc
  | scan                           -- the scan for the plate
  | acquire                        -- P(sem_mutex)
  | allocate                       -- the body of the section
  | release (pos : Option Slot)    -- V(sem_mutex), on either of the three ways out of the section
  | light (pos : Slot)             -- the message to the driver
  | reply (r : Reply)              -- send() and close()
  | exited
  | killed
  | faulted
deriving DecidableEq

structure Entry where
  entryNum : ℤ
  plate    : Plate
  pc       : Entry.Pc

-- The slots of the zone in the order in which the loop of the gate looks at them.
def entryOrder (electric : Bool) (entryNum : ℤ) (i : Fin 8) : Slot :=
  match electric, decide (entryNum = 1) with
  | true,  true  => ⟨i, by omega⟩
  | true,  false => ⟨7 - i, by omega⟩
  | false, true  => ⟨i + 8, by omega⟩
  | false, false => ⟨15 - i, by omega⟩

namespace Memory

variable (m : Memory)

def freeSlot (plate : Plate) (entryNum : ℤ) : Option Slot :=
  ((List.finRange 8).map (entryOrder plate.electric entryNum)).find? (m.parkSpace · = 0)

-- What the section writes once it has found a free slot.
@[simps -fullyApplied]
def park (pid : ℕ) (plate : Plate) (pos : Slot) : Memory where
  car         := Function.update m.car pos {
    entryT       := m.clock
    payT         := 0
    elec         := if plate.electric then 1 else 0
    licencePlate := plate.chars
    pos          := pos
  }
  parkSpace   := Function.update m.parkSpace pos 1
  spaceLeft   := Function.update m.spaceLeft plate.zone (m.spaceLeft plate.zone - 1)
  cash        := m.cash
  semMutex    := m.semMutex
  semCounting := m.semCounting
  pins        := m.pins
  clock       := m.clock
  log         := .parked pid plate pos m.clock :: m.log

end Memory

namespace Entry

@[simps]
def goto (e : Entry) (pc : Pc) : Entry :=
  { e with pc }

def step (pid : ℕ) (m : Memory) (e : Entry) : Option (Memory × Entry) :=
  match e.pc with
  | .scan        =>
    match m.lookup e.plate with
    | some _ => some (m, e.goto <| .reply .alreadyParked)
    | none   => some (m, e.goto .acquire)
  | .acquire     => m.lockMutex.map (·, e.goto .allocate)
  | .allocate    =>
    match m.freeSlot e.plate e.entryNum with
    | some pos => some (m.park pid e.plate pos, e.goto <| .release pos)
    | none     => some (m, e.goto <| .release none)
  | .release pos =>
    match pos with
    | some pos => some (m.unlockMutex, e.goto <| .light pos)
    | none     => some (m.unlockMutex, e.goto <| .reply .noSpace)
  | .light pos   =>
    match m.light pos 0 with
    | some m => some (m, e.goto <| .reply .entrySuccess)
    | none   => some (m, e.goto .faulted)
  | .reply r     => some (m.note <| .replied pid r, e.goto .exited)
  | .exited | .killed | .faulted => none

def insideMutex (e : Entry) : Bool :=
  match e.pc with
  | .allocate | .release _ => true
  | _ => false

-- The child is about to write to the socket of its client.
def writing (e : Entry) : Bool :=
  match e.pc with
  | .reply _ => true
  | _ => false

-- The child has ended, or has been stopped at an access outside of an array.
def ended (e : Entry) : Bool :=
  match e.pc with
  | .exited | .killed | .faulted => true
  | _ => false

end Entry
end Parking
