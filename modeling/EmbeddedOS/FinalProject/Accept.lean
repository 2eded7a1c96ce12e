import EmbeddedOS.FinalProject.Wire
import EmbeddedOS.Library.Process

open Unix

namespace Parking

-- What a descriptor can be open on. The connections are numbered as they are accepted.
inductive File
  | terminal
  | socket
  | connection (n : ℕ)
deriving DecidableEq

-- The system calls of the accept loop.
inductive Acceptor.Pc
  | accept
  | recv
  | fork
  | close
  | exited
deriving DecidableEq

-- `main` of the server in its accept loop. The last three fields are not part of the program: what
-- has come on each connection, for each child the connection that it was forked for, if there was
-- one, and the connections for which `fork` has failed.
structure Acceptor where
  table  : Table File
  connfd : ℤ
  ipBuf  : List UInt8
  pc     : Acceptor.Pc
  inbox  : List (List UInt8)
  served : List (Option ℕ)
  failed : List ℕ
deriving DecidableEq

inductive Acceptor.Input
  | accept (ok : Bool)
  | recv (bytes : List UInt8)
  | fork (ok : Bool)
  | close
  | sigint
deriving DecidableEq

-- A child in front of its `sscanf`.
structure Received where
  table  : Table File
  connfd : ℤ
  ipBuf  : List UInt8
deriving DecidableEq

namespace Acceptor

def initial : Acceptor where
  table  := [some .terminal, some .terminal, some .terminal, some .socket]
  connfd := 0
  ipBuf  := List.replicate 256 0
  pc     := .accept
  inbox  := []
  served := []
  failed := []

-- The connection that the loop is at, `none` when `accept` has failed.
def current? (m : Acceptor) : Option ℕ :=
  match m.table.file? m.connfd with
  | some (.connection n) => some n
  | _                    => none

def forked (m : Acceptor) : Received where
  table  := m.table
  connfd := m.connfd
  ipBuf  := m.ipBuf

-- None of the results is checked but that of `fork`, and there a failure is passed over. A `recv`
-- that fails or finds the end of the stream leaves the zeroed buffer.
def step (m : Acceptor) : Input → Option (Acceptor × Option Received)
  | .accept true =>
    if m.pc = .accept
    then some ({ m with
      table  := m.table.install (.connection m.inbox.length)
      connfd := m.table.lowest
      pc     := .recv }, none)
    else none
  | .accept false =>
    if m.pc = .accept then some ({ m with connfd := -1, pc := .recv }, none) else none
  | .recv bytes =>
    if m.pc ≠ .recv then none
    else if m.current?.isSome
    then some ({ m with ipBuf := received bytes, pc := .fork, inbox := m.inbox ++ [bytes] }, none)
    else some ({ m with ipBuf := received [], pc := .fork }, none)
  | .fork true =>
    if m.pc = .fork
    then some ({ m with pc := .close, served := m.served ++ [m.current?] }, some m.forked)
    else none
  | .fork false =>
    if m.pc = .fork
    then some ({ m with pc := .accept, failed := m.failed ++ m.current?.toList }, none)
    else none
  | .close =>
    if m.pc = .close
    then some ({ m with table := m.table.close m.connfd, pc := .accept }, none)
    else none
  | .sigint =>
    if m.pc = .exited then none else some ({ m with table := [], pc := .exited }, none)

end Acceptor

-- What a child does with its request is the task of `server`, here it ends or is killed.
def acceptLoop : Family.Program Acceptor Received Acceptor.Input Empty where
  alive m    := m.pc ≠ .exited
  main       := Acceptor.step
  interrupts := (· = .sigint)
  child _ x  := nomatch x

abbrev Front := Family Acceptor Received

def Front.initial : Front where
  main     := .initial
  children := []
  sigchld  := false
  handling := false

def front : Machine Front (Family.Action Acceptor.Input Empty) :=
  Family.machine acceptLoop

end Parking
