import EmbeddedOS.FinalProject.Startup
import EmbeddedOS.Library.Shm

open Shm

namespace Parking

-- The semaphores and the shared memory segments of the server.
inductive Semaphore
  | mutex
  | counting
deriving DecidableEq

inductive Shared
  | car
  | cash
  | parkSpace
  | spaceLeft
deriving DecidableEq

-- The handler of `SIGINT` in front of `close(socket_fd)` and `exit(0)`. The children inherit it
-- from `main`, as they do the segments.
def handler : List (Statement Semaphore Shared) :=
  [.semctl .mutex, .semctl .counting] ++
    [.car, .cash, .parkSpace, .spaceLeft].flatMap fun k => [.shmdt k, .shmctl k]

-- What `shmget` and `shmat` find: a segment with what has been left in it, or a new one.
def Segments.mapped (g : Segments) (exists? : Shared → Bool) : Segments where
  car          := if exists? .car then g.car else Segments.zeroed.car
  parkSpace    := if exists? .parkSpace then g.parkSpace else Segments.zeroed.parkSpace
  spaceLeft    := if exists? .spaceLeft then g.spaceLeft else Segments.zeroed.spaceLeft
  cash         := if exists? .cash then g.cash else Segments.zeroed.cash
  plate_length := by
    split
    case isTrue  => exact g.plate_length
    case isFalse => exact Segments.zeroed.plate_length

-- The start of the next server. The semaphores are created with `IPC_EXCL`, which fails as long as
-- one of them exists, and the server exits.
def boot (s : System Semaphore Shared) (g : Segments) (pins : ℕ → ℤ) (clock : ℤ) : Option Memory :=
  if s.sems .mutex ∨ s.sems .counting then none
  else (g.mapped fun k => (s.segs k).isSome).startUp pins clock

end Parking
