import EmbeddedOS.FinalProject.Accept
import EmbeddedOS.FinalProject.Server

open C Unix

namespace Parking

-- What has become of a child: it is in front of its `sscanf`, it serves a request as one of the
-- processes of `system`, or it has found nothing to do.
inductive Stage
  | received
  | serving (pid : ℕ)
  | idle
deriving DecidableEq

-- What the child makes of its `ipBuf`, for what the stack holds in the place of the two arrays.
-- There is no result where `sscanf` leaves an array.
def Received.dispatch? (r : Received) (method plate : List UInt8) : Option Dispatch :=
  ((string? r.ipBuf).bind (Vars.fresh method plate).sscanf?).map Vars.dispatch

-- The whole server: `main` with its children, what has become of each of them, and the requests
-- over the shared memory.
structure Service where
  front  : Front
  stages : List Stage
  pool   : State

inductive Service.Action
  | front (a : Family.Action Acceptor.Input Empty)
  | sscanf (i : ℕ) (method plate : List UInt8)
  | act (i : ℕ) (x : Input)
  | time (d : ℕ)

namespace Service

def initial (clock : ℤ) : Service where
  front  := .initial
  stages := []
  pool   := .initial clock

variable (s : Service)

-- A child that has come to its `exit(0)`, or that has been ended by SIGPIPE or by a fault.
def ended (i : ℕ) : Bool :=
  match s.stages[i]? with
  | some .idle          => true
  | some (.serving pid) => s.pool.procs[pid]?.any (·.task.ended)
  | _                   => false

-- The server until it is interrupted, since the handler of SIGINT takes the shared memory away.
def allows : Family.Action Acceptor.Input Empty → Bool
  | .main .sigint => false
  | .exit i       => s.ended i
  | _             => true

-- A child does not go on where its `sscanf` leaves an array, or where it would serve a request with
-- an array that holds no plate: what the server makes of these is not modelled.
def step : Action → Option Service
  | .front a =>
    if s.allows a
    then (Parking.front.step s.front a).map fun front => { s with
      front
      stages := s.stages.rightpad front.children.length .received }
    else none
  | .sscanf i method plate =>
    if s.stages[i]? = some .received ∧ method.length = 8 ∧ plate.length = 8 then
      match s.front.children[i]?.bind (·.proc.dispatch? method plate) with
      | some .exit        => some { s with stages := s.stages.set i .idle }
      | some (.request r) =>
        (system.step s.pool (.spawn r)).map fun pool => { s with
          pool
          stages := s.stages.set i (.serving s.pool.procs.length) }
      | _                 => none
    else none
  | .act i x =>
    match s.stages[i]? with
    | some (.serving pid) => (system.step s.pool (.act pid x)).map ({ s with pool := · })
    | _                   => none
  | .time d => (system.step s.pool (.env d)).map ({ s with pool := · })

end Service

def service : Machine Service Service.Action where
  step := Service.step

end Parking
