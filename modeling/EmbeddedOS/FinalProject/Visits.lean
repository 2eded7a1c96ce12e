import EmbeddedOS.FinalProject.Server

namespace Parking

-- The car park in which each request is handled to its end before the next one is accepted.
def visits : Machine State (Request × List (Input ⊕ ℕ)) :=
  Pool.oneByOne server (·.task.ended)

-- The last reply that a child has sent.
def lastReply (pid : ℕ) : List Event → Option Reply
  | [] => none
  | .replied q r :: log => if q = pid then some r else lastReply pid log
  | _ :: log => lastReply pid log

-- A request that is handled while nothing else happens, and the answer to it. No way through the
-- statements of an entry or an exit is longer than this.
def Memory.handle (m : Memory) (pid : ℕ) (r : Request) : Memory × Child :=
  Pool.settle server pid .run 9 m (fork r)

def Memory.answer? (m : Memory) (pid : ℕ) (r : Request) : Option Reply :=
  if (m.handle pid r).snd.task.exited then lastReply pid (m.handle pid r).fst.log else none

-- What happens to a child that executes its next `n` statements, and to a payment whose client gets
-- the quote and sends a reply that is accepted.
def statementsOf (n : ℕ) : List (Input ⊕ ℕ) :=
  .replicate n (.inl .run)

def paying (text : String) : List (Input ⊕ ℕ) :=
  statementsOf 4 ++ [.inl <| .reply <| C.ascii text] ++ statementsOf 10

-- A payment that has been accepted: the time of its quote and its fee.
structure Paid where
  time : ℤ
  fee  : ℤ
deriving DecidableEq

def Plate.rate (plate : Plate) : ℤ :=
  if plate.electric then 30 else 20

namespace Event

variable (plate : Plate)

-- The event answers 'Please Repay', or it credits a payment, or it is any event of the bill.
def repays : Event → Bool
  | expired _ p _ _ => p = plate
  | _ => false

def pays : Event → Bool
  | credited _ p _ _ => p = plate
  | _ => false

def bills : Event → Bool
  | parked _ p _ _ | quoted _ p _ _ _ _ | credited _ p _ _ | expired _ p _ _ => p = plate
  | _ => false

end Event

-- What a history, newest event first, tells about a plate.
section

variable (plate : Plate)

-- The time at which the plate has been given its slot.
def entered? : List Event → Option ℤ
  | [] => none
  | .parked _ p _ t :: log => if p = plate then some t else entered? log
  | _ :: log => entered? log

-- The time of the last quote of a payment.
def quoteTime? (pid : ℕ) : List Event → Option ℤ
  | [] => none
  | .quoted q p _ _ t _ :: log => if q = pid ∧ p = plate then some t else quoteTime? pid log
  | _ :: log => quoteTime? pid log

-- The payments that have been accepted in this stay, and since the last 'Please Repay' of it.
def payments : List Event → List Paid
  | [] => []
  | .parked _ p _ _ :: log => if p = plate then [] else payments log
  | .credited pid p _ fee :: log =>
    if p = plate
    then { time := (quoteTime? plate pid log).getD 0, fee } :: payments log
    else payments log
  | _ :: log => payments log

def paidSince (log : List Event) : List Paid :=
  payments plate <| log.takeWhile (!·.repays plate)

-- The last thing that has happened to the bill is that it has been paid.
def Settled (log : List Event) : Prop :=
  (log.find? (·.bills plate)).any (·.pays plate)
deriving Decidable

-- The last thing that has happened is a 'Please Repay', and no payment has been accepted since.
def Unpaid (log : List Event) : Prop :=
  (log.find? fun e => e.pays plate || e.repays plate).any (·.repays plate)
deriving Decidable

end

-- Each 'Please Repay' of a history has been answered when its plate and the history met `G`.
def RepaidWhen (G : Plate → List Event → Prop) : List Event → Prop
  | [] => True
  | .expired _ plate _ _ :: log => G plate log ∧ RepaidWhen G log
  | _ :: log => RepaidWhen G log

instance {G : Plate → List Event → Prop} [∀ p log, Decidable (G p log)] :
    (log : List Event) → Decidable (RepaidWhen G log)
  | [] => .isTrue trivial
  | .expired _ plate _ _ :: log =>
    have : Decidable (RepaidWhen G log) := instDecidableRepaidWhen log
    inferInstanceAs <| Decidable (G plate log ∧ RepaidWhen G log)
  | .parked .. :: log | .quoted .. :: log | .marked .. :: log | .credited .. :: log
  | .freed .. :: log | .cleared .. :: log | .replied .. :: log => instDecidableRepaidWhen log

-- No plate has been answered 'Please Repay' unless its bill was paid.
abbrev RepaidSettled : List Event → Prop :=
  RepaidWhen Settled

-- No plate has been answered 'Please Repay' twice without a payment in between.
abbrev RepaidInTurn : List Event → Prop :=
  RepaidWhen fun plate log => ¬Unpaid plate log

end Parking
