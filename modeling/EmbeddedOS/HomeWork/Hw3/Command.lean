import EmbeddedOS.HomeWork.Hw3.Platform

open C

namespace Delivery

-- What a message asks a session for.
inductive Command
  | leave                                              -- 'cancel' or 'No'
  | yes
  | shopList
  | confirm
  | order (shop : Shop) (item : Item) (numCheck : ℤ)
  | refuse                                             -- an order of an unknown item
  | ignore
  | fault                                              -- no string, or words that do not fit
deriving DecidableEq

-- The command of a string, and of the string that a buffer holds.
def Command.ofString (receive : List UInt8) : Command :=
  if receive = ascii "cancel\n" ∨ receive = ascii "No\n" then .leave
  else if receive = ascii "Yes\n" then .yes
  else if receive = ascii "shop list\n" then .shopList
  else if receive = ascii "confirm\n" then .confirm
  else
    let s := scanOrder receive
    if ¬s.fits then .fault
    else if s.orderCheck = ascii "order" then
      match item? s.itemCheck with
      | some (shop, item) => .order shop item s.numCheck
      | none => .refuse
    else .ignore

def command (receive : List UInt8) : Command :=
  (string? receive).elim .fault .ofString

-- A session has chosen no other shop yet.
def Book.Open (b : Book) (shop : Shop) : Prop :=
  b.flag = 0 ∨ b.flag = shop.flag
deriving Decidable

namespace Platform

variable (pid : ℕ) (m : Memory) (p : Platform)

-- An order that is accepted is answered with the items that have been ordered.
def accept (shop : Shop) (item : Item) (numCheck : ℤ) : Platform :=
  let book := p.book.accept shop item numCheck
  let text := book.orderTemp.takeWhile (· ≠ 0)
  { p with book, pc := .send <| .order <| sprintf (.replicate 256 0) text }

-- What a session does about a command.
def perform : Command → Memory × Platform
  | .leave    => (m, p.goto .closed)
  | .yes      =>
    match p.who with
    | some k => (m, p.goto <| .addYes k)
    | none   => (m, p.goto <| .sendWait 0)
  | .shopList => (m, p.goto <| .send .shopList)
  | .confirm  =>
    if p.book.price = 0
    then (m.note <| .confirmed pid 0, p.goto <| .send .pleaseOrder)
    else (m.note <| .confirmed pid p.book.price, p.goto .readFirst)
  | .order shop item numCheck =>
    if p.book.Open shop
    then (m, p.accept shop item numCheck)
    else (m, p.goto <| .send <| .order p.book.orderTemp)
  | .refuse   => (m, p.goto <| .send <| .order p.book.orderTemp)
  | .ignore   => (m, p.goto .recv)
  | .fault    => (m, p.goto .faulted)

variable {pid m p}

section

variable {shop : Shop} {item : Item} {numCheck : ℤ}

theorem perform_accept (h : p.book.Open shop) :
    p.perform pid m (.order shop item numCheck) = (m, p.accept shop item numCheck) :=
  if_pos h

theorem perform_reject (h : ¬p.book.Open shop) :
    p.perform pid m (.order shop item numCheck) = (m, p.goto <| .send <| .order p.book.orderTemp) :=
  if_neg h

end

-- A message is looked at once, and only one that cannot be read is a fault.
theorem perform_pc {c : Command} : (p.perform pid m c).snd.pc ≠ .handle ∧
    ((p.perform pid m c).snd.pc = .faulted → c = .fault) := by
  cases c
  case yes     => cases hw : p.who <;> simp [perform, hw]
  case confirm => by_cases hp : p.book.price = 0 <;> simp [perform, hp]
  case order shop item numCheck =>
    by_cases ho : p.book.Open shop
    case pos => rw [perform_accept ho]; exact ⟨nofun, nofun⟩
    case neg => rw [perform_reject ho]; exact ⟨nofun, nofun⟩
  case fault => exact ⟨nofun, fun _ => rfl⟩
  all_goals exact ⟨nofun, nofun⟩

theorem handle_eq (receive : List UInt8) :
    p.handle pid m receive = p.perform pid m (.ofString receive) := by
  unfold handle Command.ofString
  split
  case isTrue => rfl
  split
  case isTrue => rfl
  split
  case isTrue => rfl
  split
  case isTrue => rfl
  dsimp only
  split
  case isTrue => rfl
  split
  case isFalse => rfl
  unfold Book.order
  cases item? (scanOrder receive).itemCheck
  case none      => rfl
  case some item =>
    by_cases ho : p.book.flag = 0 ∨ p.book.flag = item.fst.flag
    case pos => simp only [perform, Book.Open, ho, if_true, accept]
    case neg => simp only [perform, Book.Open, ho, if_false]

theorem step_handle (hpc : p.pc = .handle) :
    p.step pid m = some (p.perform pid m <| command p.receive) := by
  simp only [step, hpc, command]
  cases string? p.receive
  case none         => rfl
  case some receive => exact congrArg some <| handle_eq receive

end Platform
end Delivery
