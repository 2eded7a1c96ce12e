import EmbeddedOS.HomeWork.Hw3.Platform

namespace Delivery
namespace Schedule

-- What happens to the couriers: a tick of the counter, a commit with the wait that it promises, or
-- a 'confirm' that asks first.
inductive Entry
  | ticked (k : Courier)
  | agreed (k : Courier) (flag wait : ℤ)       -- the commit of a 'Yes'
  | confirmed (k : Courier) (flag wait : ℤ)    -- the commit of a 'confirm' that does not ask
  | asked (flag : ℤ)

-- The number of ticks that a courier has seen. The entries stand newest first.
def now (k : Courier) : List Entry → ℤ
  | [] => 0
  | .ticked j :: es => if j = k then now k es + 1 else now k es
  | _ :: es => now k es

-- The tick at which the last order of a courier has been promised.
def due (k : Courier) : List Entry → ℤ
  | [] => 0
  | .agreed j _ wait :: es | .confirmed j _ wait :: es =>
    if j = k then now k es + wait else due k es
  | .ticked _ :: es | .asked _ :: es => due k es

-- The wait that an order with this flag would get.
def resulting (flag : ℤ) (k : Courier) (es : List Entry) : ℤ :=
  max (due k es) (now k es) + flag - now k es

-- The courier with the smaller wait, the second one on a tie.
def better (flag : ℤ) (es : List Entry) : Courier :=
  if resulting flag .first es < resulting flag .second es then .first else .second

-- A 'confirm' does not have to ask.
def Short (flag : ℤ) (es : List Entry) : Prop :=
  min (resulting flag .first es) (resulting flag .second es) < 30

-- The order is promised for the moment at which the courier has brought the orders before it and
-- then this one, so that it comes at least its own distance behind the last of them.
structure Promised (k : Courier) (flag wait : ℤ) (es : List Entry) : Prop where
  exact : now k es + wait = max (due k es) (now k es) + flag
  apart : due k es + flag ≤ now k es + wait

-- The law of the schedule.
def Kept : List Entry → Prop
  | [] => True
  | .ticked _ :: es => Kept es
  | .agreed k flag wait :: es => Promised k flag wait es ∧ Kept es
  | .confirmed k flag wait :: es =>
    Promised k flag wait es ∧ Short flag es ∧ k = better flag es ∧ Kept es
  | .asked flag :: es => ¬Short flag es ∧ Kept es

theorem promised_resulting (k : Courier) (flag : ℤ) (es : List Entry) :
    Promised k flag (resulting flag k es) es := by
  constructor
  case exact => unfold resulting; omega
  case apart =>
    have := le_max_left (due k es) (now k es)
    unfold resulting
    omega

end Schedule

open Schedule

-- What a statement of a thread records, with the wait as the thread keeps it.
def Platform.records (p : Platform) (m : Memory) : Option Entry :=
  match p.pc with
  | .addYes k           =>
    some <| .agreed k p.book.flag <| C.int (m.deliveryWaitingTime k + p.book.flag)
  | .choose temp1 temp2 => if temp1 < 30 ∨ temp2 < 30 then none else some <| .asked p.book.flag
  | .writeBack k temp   => some <| .confirmed k p.book.flag temp
  | _ => none

def recorded (s : State) : Pool.Action Unit Input Unit → Option Entry
  | .env _        => some <| .ticked s.mem.turn
  | .act pid .run => s.procs[pid]?.bind (·.records s.mem)
  | _             => none

end Delivery
