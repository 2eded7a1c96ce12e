import EmbeddedOS.Library.Process

open Unix

namespace Trains

-- What a descriptor can be open on. The connections are numbered as they are accepted.
inductive File
  | terminal
  | listener
  | connection (n : ℕ)
deriving DecidableEq

-- The system calls at which `main` is.
inductive Main.Pc
  | socket
  | bind
  | listen
  | accept
  | fork
  | close
  | exited
deriving DecidableEq

-- The globals of `lab5.c` and the descriptors of the process. The count of the accepted connections
-- is not part of the program.
structure Main where
  table        : Table File
  fd           : ℤ
  clientSocket : ℤ
  pc           : Main.Pc
  accepted     : ℕ
deriving DecidableEq

-- What the calls of `main` come to, and the signal `SIGINT`.
inductive Main.Input
  | socket (ok : Bool)
  | bind (ok : Bool)
  | listen (ok : Bool)
  | accept (ok : Bool)
  | fork (ok : Bool)
  | close
  | sigint
deriving DecidableEq

inductive Train.Pc
  | dup2
  | execlp
  | sl
deriving DecidableEq

-- A child, which becomes the program `sl`. When `execlp` fails it ends.
structure Train where
  table        : Table File
  fd           : ℤ
  clientSocket : ℤ
  pc           : Train.Pc
deriving DecidableEq

inductive Train.Input
  | dup2
  | execlp
  | sigint
deriving DecidableEq

def stdoutFileno : ℤ := 1

namespace Main

def initial : Main where
  table        := [some .terminal, some .terminal, some .terminal]
  fd           := 0
  clientSocket := 0
  pc           := .socket
  accepted     := 0

-- The end of a process closes its descriptors.
def exit (m : Main) : Main :=
  { m with table := [], pc := .exited }

-- The handler that is inherited by the children.
def sigintHandler (m : Main) : Main :=
  { m with table := m.table.close m.fd }

def forked (m : Main) : Train where
  table        := m.table
  fd           := m.fd
  clientSocket := m.clientSocket
  pc           := .dup2

-- A connection can be accepted only if `fd` is still the listening socket. Before the handler is
-- registered `SIGINT` ends the process.
def step (m : Main) : Input → Option (Main × Option Train)
  | .socket ok =>
    if m.pc ≠ .socket then none
    else if ok
    then some ({ m with
      table := m.table.install .listener
      fd    := m.table.lowest
      pc    := .bind }, none)
    else some ({ m with fd := -1 }.exit, none)
  | .bind ok   =>
    if m.pc ≠ .bind then none
    else if ok
    then some ({ m with pc := .listen }, none)
    else some (m.sigintHandler.exit, none)
  | .listen ok =>
    if m.pc ≠ .listen then none
    else if ok
    then some ({ m with pc := .accept }, none)
    else some (m.exit, none)
  | .accept true  =>
    if m.pc = .accept ∧ m.table.file? m.fd = some .listener
    then some ({ m with
      table        := m.table.install (.connection m.accepted)
      clientSocket := m.table.lowest
      pc           := .fork
      accepted     := m.accepted + 1 }, none)
    else none
  | .accept false =>
    if m.pc = .accept then some ({ m with clientSocket := -1 }, none) else none
  | .fork ok  =>
    if m.pc ≠ .fork then none
    else if ok
    then some ({ m with pc := .close }, some m.forked)
    else some (m.exit, none)
  | .close    =>
    if m.pc = .close
    then some ({ m with table := m.table.close m.clientSocket, pc := .accept }, none)
    else none
  | .sigint   =>
    if m.pc = .exited then none
    else if m.pc = .socket
    then some (m.exit, none)
    else some (m.sigintHandler, none)

end Main

-- `sl` does not use the handler.
def Train.step (t : Train) : Train.Input → Option Train
  | .dup2   =>
    if t.pc = .dup2
    then some { t with table := t.table.dup2 t.clientSocket stdoutFileno, pc := .execlp }
    else none
  | .execlp => if t.pc = .execlp then some { t with pc := .sl } else none
  | .sigint => if t.pc = .sl then none else some { t with table := t.table.close t.fd }

def lab5 : Family.Program Main Train Main.Input Train.Input where
  alive m    := m.pc ≠ .exited
  main       := Main.step
  interrupts := (· = .sigint)
  child      := Train.step

abbrev Station := Family Main Train

def Station.initial : Station where
  main     := .initial
  children := []
  sigchld  := false
  handling := false

def station : Machine Station (Family.Action Main.Input Train.Input) :=
  Family.machine lab5

end Trains
