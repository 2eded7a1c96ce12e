import EmbeddedOS.HomeWork.Hw2.Server

open C Delivery

-- The session of a customer that both of the servers offer.
namespace Session

-- The name of an item, a word that fits into `item_check`.
structure Word where
  text  : List UInt8
  word  : text ≠ []
  plain : ∀ c ∈ text, c ≠ 0 ∧ isspace c = false
  fits  : text.length ≤ 19

-- A number with an optional sign that fits into `num_check`.
structure Numeral where
  negative : Bool
  digits   : List UInt8
  plain    : ∀ c ∈ digits, isdigit c
  fits     : (if negative then 1 else 0) + digits.length ≤ 9

def Numeral.text (n : Numeral) : List UInt8 :=
  (if n.negative then ascii "-" else []) ++ n.digits

inductive Request
  | shopList
  | order (item : Word) (n : Numeral)
  | confirm
  | cancel

def Request.text : Request → List UInt8
  | shopList     => ascii "shop list"
  | order item n => ascii "order " ++ item.text ++ ascii " " ++ n.text
  | confirm      => ascii "confirm"
  | cancel       => ascii "cancel"

-- A message is sent with NULs up to the size of the buffer.
def pad (text : List UInt8) : List UInt8 :=
  text ++ .replicate (256 - text.length) 0

-- What a message comes to: the replies to it, the order behind it and how the session goes on. It
-- does not if the server is still busy.
structure Turn where
  replies  : List Reply
  orderNum : Item → ℤ
  price    : ℤ
  flag     : ℤ
  next     : Option Hw2.Next

def turn (replies : List Reply) (book : Book) (next : Option Hw2.Next) : Turn where
  replies
  orderNum := book.orderNum
  price    := book.price
  flag     := book.flag
  next

-- The purpose of a session, in terms of its order.
def serve (book : Book) : Request → List Reply × Book × Hw2.Next
  | .shopList     => ([.shopList], book, .recv)
  | .order item n =>
    match book.order item.text (atoi n.text) with
    | some book => ([.order <| sprintf (.replicate 256 0) <| Hw2.text book.orderTemp], book, .recv)
    | none      => ([.order book.orderTemp], book, .recv)
  | .confirm      =>
    if book.price = 0
    then ([.pleaseOrder], book, .recv)
    else ([.waitFew, .arrived book.price], book, .close)
  | .cancel       => ([], book, .close)

def turns (book : Book) : List Request → List Turn
  | []      => []
  | x :: xs =>
    let (replies, book, next) := serve book x
    turn replies book next :: if next = .recv then turns book xs else []

end Session

open Session

-- The turns of a connection.
def Hw2.Process.turns (p : Process) : List Request → List Turn
  | []      => []
  | x :: xs =>
    match p.recv <| .bytes <| pad x.text with
    | none   => []
    | some p =>
      let round := p.handle
      turn round.replies round.process.book round.next ::
        if round.next = .recv then round.process.turns xs else []

namespace Delivery

-- What a thread has sent, as far as the history tells.
def replies (pid : ℕ) (log : List Event) : List Reply :=
  log.reverse.filterMap fun
    | .sent j _ reply => if j = pid then some reply else none
    | _ => none

-- How a session goes on that rests.
def Platform.Pc.next? : Platform.Pc → Option Hw2.Next
  | recv    => some .recv
  | closed  => some .close
  | faulted => some .fault
  | _ => none

-- The turns of a session while nothing else happens. On each message its thread executes as many
-- statements as it can, at most `n`.
def Platform.turns (pid n : ℕ) (m : Memory) (p : Platform) : List Request → List Turn
  | []      => []
  | x :: xs =>
    match p.input pid m <| .bytes <| pad <| x.text ++ ascii "\n" with
    | none        => []
    | some (m', p') =>
      let (m', p') := Pool.settle platforms pid .run n m' p'
      let log := m'.log.take (m'.log.length - m.log.length)
      turn (replies pid log) p'.book p'.pc.next? :: p'.turns pid n m' xs

end Delivery
