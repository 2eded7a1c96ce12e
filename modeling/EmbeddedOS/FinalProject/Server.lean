import EmbeddedOS.FinalProject.Entry
import EmbeddedOS.FinalProject.Exitpark
import EmbeddedOS.FinalProject.Payment
import EmbeddedOS.Library.Semaphore

namespace Parking

inductive Request
  | entry (entryNum : ℤ) (plate : Plate)
  | exit (plate : Plate)
  | pay (plate : Plate)
deriving DecidableEq

inductive Task
  | entry (e : Entry)
  | exitpark (x : Exitpark)
  | payment (p : Payment)

-- A child process of the server, and whether its client has closed the connection.
structure Child where
  task   : Task
  hungUp : Bool

-- What happens to a child: it executes its next statement, its client sends bytes or closes the
-- connection, its `read` finds the end of the stream, or a write to the closed connection raises
-- SIGPIPE, whose default action ends it.
inductive Input
  | run
  | reply (bytes : List UInt8)
  | eof
  | hangUp
  | sigpipe
deriving DecidableEq

namespace Task

def plate : Task → Plate
  | entry e    => e.plate
  | exitpark x => x.plate
  | payment p  => p.plate

def step (pid : ℕ) (m : Memory) : Task → Option (Memory × Task)
  | entry e    => (e.step pid m).map fun (m, e) => (m, entry e)
  | exitpark x => (x.step pid m).map fun (m, x) => (m, exitpark x)
  | payment p  => (p.step pid m).map fun (m, p) => (m, payment p)

def read (bytes : List UInt8) : Task → Option Task
  | payment p => (p.read bytes).map payment
  | _ => none

def kill : Task → Task
  | entry e    => entry { e with pc := .killed }
  | exitpark x => exitpark { x with pc := .killed }
  | payment p  => payment { p with pc := .killed }

def writing : Task → Bool
  | entry e    => e.writing
  | exitpark x => x.writing
  | payment p  => p.writing

def insideMutex : Task → Bool
  | entry e    => e.insideMutex
  | exitpark x => x.insideMutex
  | payment p  => p.insideMutex

def insideCounting : Task → Bool
  | payment p => p.insideCounting
  | _ => false

-- The slot that the next statement takes for a car, and the slot that it frees.
def parks? (m : Memory) : Task → Option Slot
  | entry e => if e.pc = .allocate then m.freeSlot e.plate e.entryNum else none
  | _ => none

def frees? : Task → Option Slot
  | exitpark x => match x.pc with
    | .free pos => some pos
    | _ => none
  | _ => none

-- The slot that an exit still uses, and the slot that a request still writes to.
def exitIndex? : Task → Option Slot
  | exitpark x => x.index?
  | _ => none

def index? : Task → Option Slot
  | exitpark x => x.index?
  | payment p  => p.index?
  | entry _    => none

def ended : Task → Bool
  | entry e    => e.ended
  | exitpark x => x.ended
  | payment p  => p.ended

def exited : Task → Bool
  | entry e    => e.pc = .exited
  | exitpark x => x.pc = .exited
  | payment p  => p.pc = .exited

end Task

namespace Child

def step (pid : ℕ) (m : Memory) (c : Child) : Input → Option (Memory × Child)
  | .run         => (c.task.step pid m).map fun (m, task) => (m, { c with task })
  | .reply bytes =>
    if 1 ≤ bytes.length ∧ bytes.length ≤ 256
    then (c.task.read bytes).map fun task => (m, { c with task })
    else none
  | .eof         => if c.hungUp then (c.task.read []).map fun task => (m, { c with task }) else none
  | .hangUp      => some (m, { c with hungUp := true })
  | .sigpipe     =>
    if c.hungUp ∧ c.task.writing then some (m, { c with task := c.task.kill }) else none

def insideMutex (c : Child) : Bool :=
  c.task.insideMutex

def insideCounting (c : Child) : Bool :=
  c.task.insideCounting

end Child

-- `fork` after `accept`, with the request as `sscanf` has split it.
def fork : Request → Child
  | .entry entryNum plate => { task := .entry { entryNum, plate, pc := .scan }, hungUp := false }
  | .exit plate           => { task := .exitpark { plate, pc := .scan }, hungUp := false }
  | .pay plate            => { task := .payment { plate, pc := .acquireCounting }, hungUp := false }

-- The children of the server over the shared memory. The environment lets time pass.
def server : Pool.Program Memory Child Request Input ℕ where
  spawn   := fork
  step    := Child.step
  env m d := some { m with clock := m.clock + d }

abbrev State :=
  Pool Memory Child

abbrev Action :=
  Pool.Action Request Input ℕ

-- The child whose next statement is executed, and the child that SIGPIPE ends.
def State.running? (s : State) : Action → Option Child
  | .act pid .run => s.procs[pid]?
  | _ => none

def State.killed? (s : State) : Action → Option Child
  | .act pid .sigpipe => s.procs[pid]?
  | _ => none

-- The loop of `main` that darkens all LEDs.
def darken (pins : ℕ → ℤ) : ℕ → ℤ :=
  (List.finRange 16).foldl (fun pins i => Function.update pins (gpio i) 1) pins

-- The memory when `main` reaches its accept loop, for segments that the kernel has zeroed.
def Memory.initial (clock : ℤ) : Memory where
  car _       := { entryT := 0, payT := 0, elec := 0, licencePlate := [], pos := 0 }
  parkSpace _ := 0
  spaceLeft _ := 8
  cash        := 0
  semMutex    := 1
  semCounting := 2
  pins        := darken fun _ => 0
  clock       := clock
  log         := []

def State.initial (clock : ℤ) : State where
  mem   := .initial clock
  procs := []

-- The whole car park: every order of the steps of any number of children.
def system : Machine State Action :=
  Pool.machine server

-- The schedule in which a child executes its next `n` statements.
def statements (pid n : ℕ) : List Action :=
  .replicate n (.act pid .run)

-- The plates of two fuel cars and of an electric car.
def Plate.a : Plate := .letter 65 (by decide)
def Plate.b : Plate := .letter 66 (by decide)
def Plate.e : Plate := .letter 69 (by decide)

-- The schedule in which a car comes, pays and leaves.
def orderlyVisit : List Action :=
  [.spawn <| .entry 1 .a] ++ statements 0 6 ++
  [.spawn <| .pay .a] ++ statements 1 4 ++
  [.act 1 <| .reply <| C.ascii "20\n"] ++ statements 1 10 ++
  [.spawn <| .exit .a] ++ statements 2 9

-- Each `sem_mutex` section is one step: nothing else happens while a child is inside of one.
def atomicSections (s : State) (a : Action) : Bool :=
  s.procs.zipIdx.all fun (c, pid) => !c.insideMutex || c.task.ended || a.actor? = some pid

end Parking
