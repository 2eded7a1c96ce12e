import EmbeddedOS.Library.SysV

namespace Atm

-- The calls of the server's `main` in front of its loop, with what it removes when one fails, and
-- its `sigint_handler`. In the loop only a failing `accept` ends the server, and the semaphore with
-- `MYKEY` is the only one.
def main : SysV.Program Unit where
  startup := [
    .check [],      -- argc
    .semget (),
    .check [],      -- SETVAL
    .check [()],    -- socket
    .check [()],    -- bind
    .check [()]     -- listen
  ]
  handler := [()]
  strict  := true
  fails   := true

-- A server that accepts connections.
def Serves (p : SysV.Process Unit) : Prop :=
  p.pc = .startup 6

instance (p : SysV.Process Unit) : Decidable (Serves p) :=
  inferInstanceAs (Decidable (_ = _))

end Atm
