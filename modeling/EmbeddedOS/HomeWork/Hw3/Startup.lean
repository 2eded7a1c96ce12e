import EmbeddedOS.HomeWork.Hw3.Platform
import EmbeddedOS.Library.SysV

namespace Delivery

instance : Fintype Courier where
  elems    := {.first, .second}
  complete := by intro k; cases k <;> simp

-- The calls of `main` in front of its loop and `sigint_handler`. No call cleans up when it fails,
-- the check of the arguments in the middle included. In the loop a failing `accept` and a failing
-- `malloc` end the platform.
def main : SysV.Program Courier where
  startup := [
    .semget .first,
    .check [],         -- SETVAL
    .semget .second,
    .check [],         -- SETVAL
    .check [],         -- argc
    .check [],         -- socket
    .check [],         -- bind
    .check []          -- listen
  ]
  handler := [.first, .second]
  strict  := true
  fails   := true

end Delivery
