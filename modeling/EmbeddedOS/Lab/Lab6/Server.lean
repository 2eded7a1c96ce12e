import EmbeddedOS.Library.Machine

namespace Atm

-- The statements of the loop of `main`.
inductive Server.Pc
  | accept
  | create
  | faulted
deriving DecidableEq

-- `main` of the server, with the global that all threads get a pointer to. A thread has read the
-- descriptor through its pointer or not yet, and the index `i` of `main` is the number of threads.
-- The list of the accepted descriptors, oldest first, is not part of the program.
structure Server where
  clientSocket : ℕ
  threads      : List (Option ℕ)
  pc           : Server.Pc
  accepted     : List ℕ

namespace Server

def initial : Server where
  clientSocket := 0
  threads      := []
  pc           := .accept
  accepted     := []

inductive Action
  | accept (fd : ℕ)    -- a connection arrives
  | create             -- `pthread_create`
  | read (i : ℕ)       -- the first step of a thread
deriving DecidableEq

-- No descriptor is ever closed, so that a new connection gets a new one. The threads are counted in
-- `thread_id[100]`.
def step (s : Server) : Action → Option Server
  | .accept fd =>
    if s.pc = .accept ∧ fd ∉ s.accepted
    then some { s with clientSocket := fd, pc := .create, accepted := s.accepted ++ [fd] }
    else none
  | .create    =>
    if s.pc ≠ .create then none
    else if s.threads.length < 100
    then some { s with threads := s.threads ++ [none], pc := .accept }
    else some { s with pc := .faulted }
  | .read i    =>
    if s.threads[i]? = some none
    then some { s with threads := s.threads.set i (some s.clientSocket) }
    else none

end Server

def server : Machine Server Server.Action where
  step := Server.step

end Atm
