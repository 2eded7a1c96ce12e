import EmbeddedOS.HomeWork.Hw3.Platform
import EmbeddedOS.Library.Process

open Unix

namespace Delivery

-- What a descriptor can be open on. The connections are numbered as they are accepted.
inductive File
  | terminal
  | socket
  | connection (n : ℕ)
deriving DecidableEq

-- The statements of a thread around the loop of `Delivery_platform`.
inductive Worker.Pc
  | start      -- int sock=*(int*)socket;
  | serve      -- the loop, and close(sock)
  | free
  | ended
  | faulted
deriving DecidableEq

-- A thread with its argument `socket`, which is an address. The connection for which `main` has
-- created it is not part of the program.
structure Worker where
  socket     : ℕ
  sock       : ℤ
  pc         : Worker.Pc
  platform   : Platform
  connection : ℕ

-- The statements of the loop of `main`.
inductive Host.Pc
  | accept
  | malloc
  | store      -- *clientfd_ptr=client_socket;
  | create
  | exited
  | faulted
deriving DecidableEq

-- The process: its descriptors, the blocks that `malloc` has given away with what is in them, the
-- globals, the variables of `main` and the threads. The last two fields are not part of the
-- program: the number of connections, and the blocks and connections that no thread got.
structure Host where
  table        : Table File
  heap         : ℕ → Option ℤ
  mem          : Memory
  clientSocket : ℤ
  clientfdPtr  : ℕ
  pthreadCount : ℕ
  pc           : Host.Pc
  workers      : List Worker
  accepted     : ℕ
  lost         : List (ℕ × ℕ)

inductive Host.Action
  | accept (ok : Bool)
  | malloc (block : Option ℕ) (content : ℤ)
  | store
  | create (ok : Bool)
  | worker (i : ℕ) (x : Input)
  | tick

namespace Host

def initial : Host where
  table        := [some .terminal, some .terminal, some .terminal, some .socket]
  heap _       := none
  mem          := State.initial.mem
  clientSocket := 0
  clientfdPtr  := 0
  pthreadCount := 0
  pc           := .accept
  workers      := []
  accepted     := 0
  lost         := []

variable (h : Host)

-- The connection that a descriptor is open on.
def connection? (fd : ℤ) : Option ℕ :=
  match h.table.file? fd with
  | some (.connection n) => some n
  | _                    => none

-- The loop of `Delivery_platform` on a descriptor. Where that is not a connection, each `recv` and
-- each `send` fails.
def serve (sock : ℤ) (p : Platform) (x : Input) : Option (Memory × Platform) :=
  match h.connection? sock with
  | some n => p.input n h.mem x
  | none   =>
    if x = .run ∨ x = .error
    then (p.input 0 h.mem x).map fun (m, p) => ({ m with log := h.mem.log }, p)
    else none

-- A step of a thread. An access to a block that has been freed has no meaning.
def workerStep (w : Worker) (x : Input) : Option (Host × Worker) :=
  match w.pc with
  | .start =>
    if x ≠ .run then none
    else
      match h.heap w.socket with
      | some fd => some (h, { w with sock := fd, pc := .serve })
      | none    => some (h, { w with pc := .faulted })
  | .serve =>
    if w.platform.pc ≠ .closed then
      (h.serve w.sock w.platform x).map fun (m, p) =>
        ({ h with mem := m }, { w with platform := p })
    else if x = .run
    then some ({ h with table := h.table.close w.sock }, { w with pc := .free })
    else none
  | .free =>
    if x ≠ .run then none
    else if (h.heap w.socket).isSome
    then some ({ h with heap := Function.update h.heap w.socket none }, { w with pc := .ended })
    else some (h, { w with pc := .faulted })
  | .ended | .faulted => none

-- The thread that `pthread_create` starts with `clientfd_ptr`.
def forked : Worker where
  socket     := h.clientfdPtr
  sock       := 0
  pc         := .start
  platform   := .start
  connection := h.accepted - 1

-- The result of `pthread_create` is not checked, and `thread_id` has 100 elements.
def step : Action → Option Host
  | .accept true =>
    if h.pc = .accept
    then some { h with
      table        := h.table.install (.connection h.accepted)
      clientSocket := h.table.lowest
      pc           := .malloc
      accepted     := h.accepted + 1 }
    else none
  | .accept false => if h.pc = .accept then some { h with pc := .exited } else none
  | .malloc none _ => if h.pc = .malloc then some { h with pc := .exited } else none
  | .malloc (some block) content =>
    if h.pc = .malloc ∧ h.heap block = none
    then some { h with
      heap        := Function.update h.heap block (some content)
      clientfdPtr := block
      pc          := .store }
    else none
  | .store =>
    if h.pc = .store
    then some { h with
      heap := Function.update h.heap h.clientfdPtr (some h.clientSocket)
      pc   := .create }
    else none
  | .create ok =>
    if h.pc ≠ .create then none
    else if 100 ≤ h.pthreadCount then some { h with pc := .faulted }
    else
      let h' := { h with pthreadCount := h.pthreadCount + 1, pc := .accept }
      if ok
      then some { h' with workers := h.workers ++ [h.forked] }
      else some { h' with lost := h.lost ++ [(h.clientfdPtr, h.accepted - 1)] }
  | .worker i x =>
    if h.pc = .exited ∨ h.pc = .faulted then none
    else h.workers[i]?.bind fun w =>
      (h.workerStep w x).map fun (h', w') => { h' with workers := h.workers.set i w' }
  | .tick => if h.pc = .exited ∨ h.pc = .faulted then none else some { h with mem := h.mem.tick }

end Host

def host : Machine Host Host.Action where
  step := Host.step

end Delivery
