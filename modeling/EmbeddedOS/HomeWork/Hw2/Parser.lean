import EmbeddedOS.HomeWork.Hw2.Server

open C

namespace Hw2

-- The copy loops of the server go on until they see a byte. The list holds what they look at from
-- their index on, `source` is where they copy from, and there is no result if they leave an array.
def copyUntil (stop : UInt8) (source : ℕ → Option UInt8) :
    List UInt8 → ℕ → List UInt8 → Option (ℕ × List UInt8)
  | [],      _, _    => none
  | c :: cs, i, dest =>
    if c = stop then some (i, dest)
    else
      match source i with
      | some b =>
        if i < dest.length then copyUntil stop source cs (i + 1) (dest.set i b) else none
      | none   => none

-- The first word is copied over what `order_check` holds.
def copyOrder (receive orderCheck : List UInt8) : Option (ℕ × List UInt8) :=
  copyUntil 32 (receive[·]?) receive 0 orderCheck

-- The item is copied from the place behind 'order ', wherever the first word has ended.
def copyItem (receive : List UInt8) (i : ℕ) : Option (ℕ × List UInt8) :=
  copyUntil 32 (fun j => receive[j + 6]?) (receive.drop (i + 1)) 0 (.replicate 20 0)

def copyNum (receive : List UInt8) (i j : ℕ) : Option (ℕ × List UInt8) :=
  copyUntil 0 (fun k => receive[k + i + j + 2]?) (receive.drop (i + j + 2)) 0 (.replicate 10 0)

-- What the loops make of a message, if they stay inside of their arrays: `order_check`, and for an
-- order its item and its number.
def parse (receive orderCheck : List UInt8) :
    Option (List UInt8 × Option (List UInt8 × List UInt8)) := do
  let (i, orderCheck) ← copyOrder receive orderCheck
  if text orderCheck = ascii "order" then
    let (j, itemCheck) ← copyItem receive i
    let (_, numCheck) ← copyNum receive i j
    return (orderCheck, some (itemCheck, numCheck))
  else
    return (orderCheck, none)

end Hw2
