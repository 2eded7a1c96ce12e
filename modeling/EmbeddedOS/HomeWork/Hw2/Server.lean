import EmbeddedOS.HomeWork.Hw3.Platform

open C Delivery

namespace Hw2

-- What `strcmp` sees of a buffer.
def text (buf : List UInt8) : List UInt8 :=
  buf.takeWhile (· ≠ 0)

-- The globals of the server that outlive a message, and `flag` and `price` of `main`, which
-- together with `order_num` and `order_temp` make up the book of the connection.
structure Process where
  receive    : List UInt8
  orderCheck : List UInt8
  book       : Book

-- How the loop of a connection goes on after a message. A copy that leaves its arrays is a fault.
inductive Next
  | recv
  | close
  | fault
deriving DecidableEq

structure Round where
  process : Process
  replies : List Reply
  next    : Next

namespace Process

def initial : Process where
  receive    := .replicate 256 0
  orderCheck := .replicate 20 0
  book       := .initial

-- A new connection starts with everything but `receive`, `order_check` and `order_temp`.
def accept (p : Process) : Process :=
  { p with book := { Book.initial with orderTemp := p.book.orderTemp } }

-- `recv` returns at most 256 bytes, and leaves the rest of the buffer as it was. An error is not 0,
-- so that the buffer is handled once more. It is none for 0.
def recv (p : Process) : Received → Option Process
  | .bytes []    => none
  | .bytes bytes => some { p with receive := overlay (bytes.take 256) p.receive }
  | .eof         => none
  | .error       => some p

-- The copies of the item and of the number behind a first word of `i` bytes, and the comparisons
-- with the items. `atoi` must not leave `num_check` either.
def orderItem (p : Process) (i : ℕ) : Round :=
  let j := (p.receive.drop (i + 1)).idxOf 32
  let itemCheck := (p.receive.drop 6).take j
  let numCheck := text (p.receive.drop (i + j + 2))
  if j > 20 ∨ numCheck.length > 10 then
    { process := p, replies := [], next := .fault }
  else
    match p.book.order (text itemCheck) (atoi numCheck) with
    | some book =>
      if numCheck.length = 10 then
        { process := p, replies := [], next := .fault }
      else
        { process := { p with book }
          replies := [.order <| strcpy (.replicate 256 0) <| text book.orderTemp]
          next    := .recv }
    | none => { process := p, replies := [.order p.book.orderTemp], next := .recv }

-- The copy of the first word into `order_check`, which is not cleared.
def order (p : Process) : Round :=
  let i := p.receive.idxOf 32
  if i > 20 then
    { process := p, replies := [], next := .fault }
  else
    let p := { p with orderCheck := overlay (p.receive.take i) p.orderCheck }
    if text p.orderCheck = ascii "order" then p.orderItem i
    else { process := p, replies := [], next := .recv }

def handle (p : Process) : Round :=
  if text p.receive = ascii "cancel" then
    { process := p, replies := [], next := .close }
  else if text p.receive = ascii "shop list" then
    { process := p, replies := [.shopList], next := .recv }
  else if text p.receive = ascii "confirm" then
    if p.book.price = 0
    then { process := p, replies := [.pleaseOrder], next := .recv }
    else { process := p, replies := [.waitFew, .arrived p.book.price], next := .close }
  else
    p.order

-- A connection on which `recv` returns these results and then 0: the replies, and the process
-- behind it if there was no fault.
def connection (p : Process) : List Received → List Reply × Option Process
  | []      => ([], some p)
  | r :: rs =>
    match p.recv r with
    | none   => ([], some p)
    | some p =>
      let round := p.handle
      match round.next with
      | .recv  =>
        let (replies, p') := round.process.connection rs
        (round.replies ++ replies, p')
      | .close => (round.replies, some round.process)
      | .fault => (round.replies, none)

-- The process behind a history of connections.
def after (p : Process) : List (List Received) → Option Process
  | []      => some p
  | c :: cs => (p.accept.connection c).2.bind (·.after cs)

end Process

-- The bytes of a reply, which has always the size of the buffer.
def record : Reply → List UInt8
  | .order buf => buf
  | reply      => sprintf (.replicate 256 0) reply.text

end Hw2
