import EmbeddedOS.HomeWork.Hw3.Command
import EmbeddedOS.HomeWork.Hw3.Theorems.Backlog

open C

namespace Delivery

-- A message that one `recv` delivers as exactly its own bytes.
structure Message where
  bytes : List UInt8
  line  : bytes.getLast? = some 10
  plain : 0 ∉ bytes
  fits  : bytes.length ≤ 256

-- The orders are counted in the range of an `int`.
def Book.Ints (b : Book) : Prop :=
  ∀ item, C.int (b.orderNum item) = b.orderNum item

-- An order of no item of a shop is the same for both of its items.
def Command.normal : Command → Command
  | .order shop item numCheck => .order shop (if numCheck = 0 then .first else item) numCheck
  | c => c

namespace Platform

-- Everything that a thread knows but its buffer.
def visible (p : Platform) : Book × Option Courier × Pc :=
  (p.book, p.who, p.pc)

def withReceive (p : Platform) (receive : List UInt8) : Platform :=
  { p with receive }

-- The statements of a thread up to its next `recv`. The others may do anything to the memory before
-- each of them.
def run (pid : ℕ) : List (Memory → Memory) → Memory → Platform → Memory × Platform
  | [], m, p      => (m, p)
  | f :: fs, m, p => (p.step pid (f m)).elim (f m, p) fun (m, p) => p.run pid fs m

-- What a thread makes of a message.
def reaction (pid : ℕ) (message : Message) (fs : List (Memory → Memory)) (m : Memory)
    (p : Platform) : Option (Memory × Book × Option Courier × Pc) :=
  (p.input pid m <| .bytes message.bytes).map fun (m, p) =>
    ((p.run pid fs m).fst, (p.run pid fs m).snd.visible)

-- Two threads handle a message in the same way.
def HandleAlike (message : Message) (p q : Platform) : Prop :=
  ∀ pid fs m, p.reaction pid message fs m = q.reaction pid message fs m

end Platform

-- Two buffers make no difference to a message: sessions that only differ in these handle the
-- message in the same way.
def HandledAlike (message : Message) (receive₁ receive₂ : List UInt8) : Prop :=
  ∀ (book : Book) (who : Option Courier), book.Ints →
    Platform.HandleAlike message { receive := receive₁, book, who, pc := .recv }
      { receive := receive₂, book, who, pc := .recv }

variable {pid : ℕ} {m m' : Memory} {p p' : Platform} {receive : List UInt8} {c : Command}

namespace Platform

theorem perform_withReceive : (p.withReceive receive).perform pid m c =
    ((p.perform pid m c).fst, (p.perform pid m c).snd.withReceive receive) := by
  cases c
  case yes     => cases hw : p.who <;> simp [perform, hw, withReceive, goto]
  case confirm => by_cases hp : p.book.price = 0 <;> simp [perform, hp, withReceive, goto]
  case order shop item numCheck =>
    have hr : (p.withReceive receive).book.Open shop ↔ p.book.Open shop := .rfl
    by_cases ho : p.book.Open shop
    case pos => rw [perform_accept ho, perform_accept (hr.mpr ho)]; rfl
    case neg => rw [perform_reject ho, perform_reject (ho ∘ hr.mp)]; rfl
  all_goals rfl

theorem perform_normal (hb : p.book.Ints) : p.perform pid m c.normal = p.perform pid m c := by
  cases c
  case order shop item numCheck =>
    by_cases hn : numCheck = 0
    case neg => simp only [Command.normal, hn, if_false]
    case pos =>
      have ha : ∀ i, p.book.accept shop i 0 = p.book.accept shop .first 0 := by
        intro i
        have hu : ∀ i, Function.update p.book.orderNum i (C.int (p.book.orderNum i + 0)) =
            p.book.orderNum := by
          intro i
          rw [add_zero, hb i, Function.update_eq_self]
        simp only [Book.accept, hu]
      simp only [Command.normal, hn, if_true, perform, accept, ha item]
  all_goals rfl

-- Only the comparisons of a message read the buffer.
theorem step_withReceive (hpc : p.pc ≠ .handle) : (p.withReceive receive).step pid m =
    (p.step pid m).map fun (m, p) => (m, p.withReceive receive) := by
  have ⟨_, book, who, pc⟩ := p
  cases pc
  case handle => contradiction
  case choose temp1 temp2 =>
    by_cases ht : temp1 < 30 ∨ temp2 < 30 <;> simp [step, ht, withReceive, goto]
  case sleep i => by_cases hi : i > 0 <;> simp [step, hi, withReceive, goto]
  all_goals rfl

-- Behind the comparisons the buffer does not matter.
theorem run_withReceive {fs : List (Memory → Memory)} (hpc : p.pc ≠ .handle) :
    (p.withReceive receive).run pid fs m =
      ((p.run pid fs m).fst, (p.run pid fs m).snd.withReceive receive) := by
  induction fs generalizing m p
  case nil => rfl
  case cons f fs hi =>
    simp only [run, step_withReceive hpc]
    cases h : p.step pid (f m)
    case none      => rfl
    case some step => exact hi <| step_pc hpc h

theorem input_withReceive {message : Message} (hpc : p.pc = .recv) :
    (p.withReceive receive).input pid m (.bytes message.bytes) =
      some (m, (p.goto .handle).withReceive <| overlay message.bytes receive) := by
  have hl : 1 ≤ message.bytes.length := by
    have := message.line
    cases h : message.bytes <;> simp_all
  simp only [input, hpc, hl, message.fits, and_self, if_true, withReceive, goto]

-- The buffer matters through the command that it holds behind the bytes of a message.
theorem reaction_eq {message : Message} {f : Memory → Memory} {fs : List (Memory → Memory)}
    (hpc : p.pc = .recv) :
    let next := (p.goto .handle).perform pid (f m) <| command <| overlay message.bytes receive
    (p.withReceive receive).reaction pid message (f :: fs) m =
      some ((next.snd.run pid fs next.fst).fst, (next.snd.run pid fs next.fst).snd.visible) := by
  intro next
  have hst : ((p.goto .handle).withReceive <| overlay message.bytes receive).step pid (f m) =
      some (next.fst, next.snd.withReceive <| overlay message.bytes receive) := by
    rw [step_handle rfl, perform_withReceive]
    rfl
  simp only [reaction, input_withReceive hpc, Option.map_some, run, hst, Option.elim_some]
  rw [run_withReceive perform_pc.left]
  rfl

end Platform

-- The command that a fresh session has been given, read off from what it has done.
def Command.ofVisible : Book × Option Courier × Platform.Pc → Command
  | (_, _, .closed)            => .leave
  | (_, _, .sendWait _)        => .yes
  | (_, _, .send .shopList)    => .shopList
  | (_, _, .send .pleaseOrder) => .confirm
  | (_, _, .recv)              => .ignore
  | (b, _, .send (.order _))   =>
    let item := if b.orderNum .second ≠ 0 then Item.second else .first
    if b.flag = 3 then .order .dessert item (b.orderNum item)
    else if b.flag = 5 then .order .beverage item (b.orderNum item)
    else if b.flag = 8 then .order .diner item (b.orderNum item)
    else .refuse
  | _                          => .fault

-- A fresh session shows which command it has been given.
theorem ofVisible_perform (hb : p.book = .initial) (hw : p.who = none)
    (hc : ∀ shop item n, c = .order shop item n → C.int n = n) :
    Command.ofVisible (p.perform pid m c).snd.visible = c.normal := by
  cases c
  case order shop item numCheck =>
    have ho : p.book.Open shop := .inl <| hb ▸ rfl
    have hz : p.book.orderNum = fun _ => 0 := hb ▸ rfl
    have hn : (p.accept shop item numCheck).book.orderNum =
        Function.update (fun _ => 0) item numCheck := by
      change Function.update p.book.orderNum item (C.int (p.book.orderNum item + numCheck)) = _
      rw [hz, zero_add, hc shop item numCheck rfl]
    have hf : (p.accept shop item numCheck).book.flag = shop.flag := rfl
    rw [Platform.perform_accept ho]
    change Command.ofVisible (_, _, .send (.order _)) = _
    simp only [Command.ofVisible, hn, hf, Command.normal]
    by_cases h₀ : numCheck = 0 <;> cases item <;> cases shop <;> simp [h₀, Shop.flag]
  case refuse =>
    have hf : p.book.flag = 0 := hb ▸ rfl
    change Command.ofVisible (p.book, _, .send (.order _)) = _
    simp [Command.ofVisible, Command.normal, hf]
  case confirm =>
    have hp : p.book.price = 0 := hb ▸ rfl
    simp [Platform.perform, hp, Platform.visible, Command.ofVisible, Command.normal]
  case yes => simp [Platform.perform, hw, Platform.visible, Command.ofVisible, Command.normal]
  all_goals rfl

theorem int_scanInt {cs : List UInt8} : C.int ((scanInt cs).getD 0) = (scanInt cs).getD 0 := by
  rw [scanInt]
  cases strtol cs
  case none   => rfl
  case some n => exact Int.bmod_bmod

theorem int_numCheck {cs : List UInt8} :
    C.int (scanOrder cs).numCheck = (scanOrder cs).numCheck := by
  unfold scanOrder
  split
  case h_1 => rfl
  case h_2 =>
    split
    case h_1 => rfl
    case h_2 => exact int_scanInt

theorem int_of_command {shop : Shop} {item : Item} {n : ℤ}
    (h : command receive = .order shop item n) : C.int n = n := by
  unfold command at h
  cases hr : string? receive
  case none => simp [hr] at h
  case some receive =>
    rw [hr, Option.elim_some] at h
    unfold Command.ofString at h
    split_ifs at h
    dsimp only at h
    split_ifs at h
    split at h
    case h_1 => cases h; exact int_numCheck
    case h_2 => contradiction

-- Older messages make no difference to a message exactly if the buffers read as the same command
-- behind its bytes.
theorem handledAlike_iff (message : Message) (receive₁ receive₂ : List UInt8) :
    HandledAlike message receive₁ receive₂ ↔
      (command <| overlay message.bytes receive₁).normal =
        (command <| overlay message.bytes receive₂).normal := by
  constructor
  case mp =>
    intro h
    let p : Platform := { receive := [], book := .initial, who := none, pc := .recv }
    have hr : (p.withReceive receive₁).reaction 0 message [id] (.mk (fun _ => 0) .first []) =
        (p.withReceive receive₂).reaction 0 message [id] (.mk (fun _ => 0) .first []) :=
      h .initial none (fun item => by cases item <;> rfl) _ _ _
    rw [Platform.reaction_eq rfl, Platform.reaction_eq rfl] at hr
    have hv := congrArg Command.ofVisible <| (Prod.mk.inj <| Option.some.inj hr).right
    simp only [Platform.run] at hv
    rwa [ofVisible_perform rfl rfl fun _ _ _ => int_of_command,
      ofVisible_perform rfl rfl fun _ _ _ => int_of_command] at hv
  case mpr =>
    intro h book who hb pid fs m
    let p : Platform := { receive := [], book, who, pc := .recv }
    change (p.withReceive receive₁).reaction pid message fs m =
      (p.withReceive receive₂).reaction pid message fs m
    cases fs
    case nil =>
      rw [Platform.reaction, Platform.reaction, Platform.input_withReceive rfl,
        Platform.input_withReceive rfl]
      rfl
    case cons f fs =>
      have hp : ∀ c : Command, (p.goto .handle).perform pid (f m) c =
          (p.goto .handle).perform pid (f m) c.normal := fun _ => (Platform.perform_normal hb).symm
      rw [Platform.reaction_eq rfl, Platform.reaction_eq rfl, hp, h, ← hp]

-- Two earlier messages that a session ignores, and a command that is shorter than the second one.
def shortGreeting : Message where
  bytes := ascii "hi\n"
  line  := by decide
  plain := by decide
  fits  := by decide

def longGreeting : Message where
  bytes := ascii "hello, is anybody there?\n"
  line  := by decide
  plain := by decide
  fits  := by decide

def askShopList : Message where
  bytes := ascii "shop list\n"
  line  := by decide
  plain := by decide
  fits  := by decide

def greeted (message : Message) : List (Pool.Action Unit Input Unit) :=
  [.spawn (), .act 0 <| .bytes message.bytes, .act 0 .run]

-- The session that has been greeted is a fresh one but for its buffer.
def greetedSession (message : Message) : Platform :=
  Platform.start.withReceive <| overlay message.bytes Platform.start.receive

theorem exec_greeted_short : system.exec (fun _ _ => true) .initial (greeted shortGreeting) =
    some { State.initial with procs := [greetedSession shortGreeting] } :=
  rfl

theorem exec_greeted_long : system.exec (fun _ _ => true) .initial (greeted longGreeting) =
    some { State.initial with procs := [greetedSession longGreeting] } :=
  rfl

theorem handledAlike_broken : ¬ ∀ (s₁ s₂ : State) (_ : system.Run .initial s₁)
    (_ : system.Run .initial s₂) (pid : ℕ) (p q : Platform), s₁.mem = s₂.mem →
    s₁.procs[pid]? = some p → s₂.procs[pid]? = some q → p.pc = .recv → p.visible = q.visible →
    ∀ message, p.HandleAlike message q := by
  intro h
  have ⟨e₁, _⟩ := Machine.Run.of_exec exec_greeted_short
  have ⟨e₂, _⟩ := Machine.Run.of_exec exec_greeted_long
  have hr := h _ _ e₁ e₂ 0 _ _ rfl rfl rfl rfl rfl askShopList 0 [id] State.initial.mem
  have h₁ : command (overlay askShopList.bytes <| overlay shortGreeting.bytes
      Platform.start.receive) = .shopList := by decide
  have h₂ : command (overlay askShopList.bytes <| overlay longGreeting.bytes
      Platform.start.receive) = .ignore := by decide
  rw [greetedSession, greetedSession, Platform.reaction_eq rfl, Platform.reaction_eq rfl, h₁,
    h₂] at hr
  simp [Platform.perform, Platform.run, Platform.visible] at hr

end Delivery
