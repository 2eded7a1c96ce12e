import EmbeddedOS.HomeWork.Hw3.Command
import EmbeddedOS.HomeWork.Hw3.Theorems.Backlog

open C

namespace Delivery

-- What the numbers of the two items cost.
def Shop.amount (shop : Shop) (orderNum : Item → ℤ) : ℤ :=
  shop.itemPrice .first * orderNum .first + shop.itemPrice .second * orderNum .second

-- An `int` stores the amount as a positive number, or it stores both of the numbers as 0.
def Shop.Payable (shop : Shop) (orderNum : Item → ℤ) : Prop :=
  (0 < shop.amount orderNum % 2 ^ 32 ∧ shop.amount orderNum % 2 ^ 32 < 2 ^ 31) ∨
    ∀ item, 2 ^ 32 ∣ orderNum item

-- The price is one that a customer can pay. It is 0 only when nothing has been ordered, and only
-- then the customer is told to order something.
structure Platform.Priced (p : Platform) : Prop where
  nonneg : 0 ≤ p.book.price
  zero   : p.book.price = 0 → ∀ item, p.book.orderNum item = 0
  asked  : p.pc = .send .pleaseOrder → ∀ item, p.book.orderNum item = 0

def State.Priced (s : State) : Prop :=
  ∀ p ∈ s.procs, p.Priced

-- The numbers that an order comes to, if the session accepts it.
def Book.added (b : Book) (item : Item) (numCheck : ℤ) : Item → ℤ :=
  Function.update b.orderNum item (b.orderNum item + numCheck)

-- An order that is accepted comes to numbers that can be paid for.
def Platform.Orders (p : Platform) : Command → Prop
  | .order shop item numCheck => p.book.Open shop → shop.Payable (p.book.added item numCheck)
  | _ => True

def OrdersPayable (s : State) (a : Pool.Action Unit Input Unit) : Prop :=
  ∀ p ∈ s.running? a, p.pc = .handle → p.Orders (command p.receive)

variable {m m' : Memory} {p p' : Platform} {pid : ℕ} {s s' : State} {b : Book} {shop : Shop}
variable {item : Item} {n : ℤ} {c : Command} {i : Input}

namespace Book

-- The numbers of a session are stored in variables of type `int`.
def Stored (b : Book) : Prop :=
  ∀ item, Fits (b.orderNum item)

theorem Stored.initial : Book.initial.Stored := by
  intro _
  change Fits 0
  decide

theorem Stored.accept (h : b.Stored) : (b.accept shop item n).Stored := by
  intro item'
  by_cases hi : item' = item
  case pos => simpa [hi, Book.accept] using C.int_fits _
  case neg => simpa [hi, Book.accept] using h item'

-- The stored numbers differ from the exact ones by multiples of 2^32 only.
theorem accept_modEq (item' : Item) :
    (b.accept shop item n).orderNum item' ≡ b.added item n item' [ZMOD 2 ^ 32] := by
  by_cases hi : item' = item
  case pos => simpa [hi, Book.accept, added] using C.int_modEq _
  case neg => simp [hi, Book.accept, added]

theorem accept_price : (b.accept shop item n).price =
    C.int (shop.amount (b.accept shop item n).orderNum) :=
  rfl

theorem amount_modEq :
    shop.amount (b.accept shop item n).orderNum ≡ shop.amount (b.added item n) [ZMOD 2 ^ 32] :=
  .add (.mul_left _ <| accept_modEq _) (.mul_left _ <| accept_modEq _)

theorem accept_orderNum_eq_zero_iff (h : b.Stored) (item' : Item) :
    (b.accept shop item n).orderNum item' = 0 ↔ 2 ^ 32 ∣ b.added item n item' := by
  rw [(h.accept item').eq_zero_iff, Int.dvd_iff_emod_eq_zero, (accept_modEq item').eq]

-- An accepted order has a proper price exactly if what it comes to can be paid for.
theorem accept_priced_iff (h : b.Stored) :
    (0 ≤ (b.accept shop item n).price ∧ ((b.accept shop item n).price = 0 →
      ∀ item', (b.accept shop item n).orderNum item' = 0)) ↔ shop.Payable (b.added item n) := by
  have hm : shop.amount (b.accept shop item n).orderNum % 2 ^ 32 =
      shop.amount (b.added item n) % 2 ^ 32 := amount_modEq
  simp only [accept_price, C.int_nonneg_iff, C.int_eq_zero_iff, accept_orderNum_eq_zero_iff h,
    Shop.Payable, hm]
  have : 0 ≤ shop.amount (b.added item n) % 2 ^ 32 := Int.emod_nonneg _ (by decide)
  constructor
  case mp =>
    intro ⟨hn, hz⟩
    by_cases ha : shop.amount (b.added item n) % 2 ^ 32 = 0
    case pos => exact .inr <| hz ha
    case neg => exact .inl ⟨by omega, hn⟩
  case mpr =>
    intro ha
    rcases ha with ⟨hp, hn⟩ | hd
    case inl => exact ⟨hn, fun hz => by omega⟩
    case inr =>
      have hz : shop.amount (b.added item n) % 2 ^ 32 = 0 :=
        Int.emod_eq_zero_of_dvd <| dvd_add ((hd .first).mul_left _) ((hd .second).mul_left _)
      exact ⟨by omega, fun _ => hd⟩

end Book

namespace Platform

theorem Priced.goto {pc : Pc} (h : p.Priced) (hpc : pc ≠ .send .pleaseOrder := by simp) :
    (p.goto pc).Priced :=
  ⟨h.nonneg, h.zero, fun hs => absurd hs hpc⟩

theorem accept_priced_iff (h : p.book.Stored) :
    (p.accept shop item n).Priced ↔ shop.Payable (p.book.added item n) := by
  rw [← Book.accept_priced_iff h]
  exact ⟨fun hp => ⟨hp.nonneg, hp.zero⟩, fun hp => ⟨hp.left, hp.right, fun hs => by cases hs⟩⟩

-- No other command than an order changes the price.
theorem perform_priced_iff (hp : p.Priced) (hs : p.book.Stored) :
    (p.perform pid m c).snd.Priced ↔ p.Orders c := by
  cases c
  case order shop item n =>
    by_cases ho : p.book.Open shop
    case pos => simp only [perform_accept ho, accept_priced_iff hs, Orders, ho, true_imp_iff]
    case neg =>
      simp only [perform_reject ho]
      exact iff_of_true hp.goto (absurd · ho)
  case yes =>
    refine iff_of_true ?_ trivial
    cases hw : p.who <;> simp only [perform, hw] <;> exact hp.goto
  case confirm =>
    refine iff_of_true ?_ trivial
    by_cases hz : p.book.price = 0
    case pos => simp only [perform, hz]; exact ⟨hp.nonneg, hp.zero, fun _ => hp.zero hz⟩
    case neg => simp only [perform, hz]; exact hp.goto
  all_goals exact iff_of_true hp.goto trivial

theorem perform_stored (h : p.book.Stored) : (p.perform pid m c).snd.book.Stored := by
  cases c
  case order shop item n =>
    by_cases ho : p.book.Open shop
    case pos => rw [perform_accept ho]; exact h.accept
    case neg => rw [perform_reject ho]; exact h
  case yes     => cases hw : p.who <;> simpa [perform, hw] using h
  case confirm => by_cases hz : p.book.price = 0 <;> simpa [perform, hz] using h
  all_goals exact h

-- The statements behind the comparisons of a message leave the order book alone.
theorem step_book (hpc : p.pc ≠ .handle) (h : p.step pid m = some (m', p')) :
    p'.book = p.book ∧ p'.pc ≠ .send .pleaseOrder := by
  cases Move.of_step h
  case order | confirmFree => contradiction
  all_goals exact ⟨rfl, by simp⟩

theorem Priced.of_book (h : p.Priced) (hb : p'.book = p.book) (hpc : p'.pc ≠ .send .pleaseOrder) :
    p'.Priced :=
  ⟨hb ▸ h.nonneg, hb ▸ h.zero, fun hs => absurd hs hpc⟩

theorem input_priced_iff (hp : p.Priced) (hs : p.book.Stored)
    (h : p.input pid m i = some (m', p')) :
    p'.Priced ↔ (i = .run → p.pc = .handle → p.Orders (command p.receive)) := by
  by_cases hi : i = .run
  case neg =>
    obtain ⟨-, -, hb, -, hpc⟩ := input_eq hi h
    refine iff_of_true (hp.of_book hb ?_) (absurd · hi)
    rcases hpc with hpc | hpc <;> simp [hpc]
  case pos =>
    subst hi
    by_cases hpc : p.pc = .handle
    case neg =>
      have ⟨hb, hr⟩ := step_book hpc h
      exact iff_of_true (hp.of_book hb hr) fun _ hh => absurd hh hpc
    case pos =>
      have he : p.perform pid m (command p.receive) = (m', p') :=
        Option.some.inj <| (step_handle hpc).symm.trans h
      have hr : (p.perform pid m <| command p.receive).snd.Priced ↔ _ := perform_priced_iff hp hs
      rw [he] at hr
      simpa [hpc] using hr

theorem input_stored (hs : p.book.Stored) (h : p.input pid m i = some (m', p')) :
    p'.book.Stored := by
  by_cases hi : i = .run
  case neg => exact (input_eq hi h).right.right.left ▸ hs
  case pos =>
    subst hi
    by_cases hpc : p.pc = .handle
    case neg => exact (step_book hpc h).left ▸ hs
    case pos =>
      have he : p.perform pid m (command p.receive) = (m', p') :=
        Option.some.inj <| (step_handle hpc).symm.trans h
      have hr : (p.perform pid m <| command p.receive).snd.book.Stored := perform_stored hs
      rwa [he] at hr

end Platform

def State.Stored (s : State) : Prop :=
  ∀ p ∈ s.procs, p.book.Stored

theorem State.Stored.step {a : Pool.Action Unit Input Unit} (hs : s.Stored)
    (h : system.step s a = some s') : s'.Stored := by
  intro q hq
  cases a
  case spawn =>
    obtain ⟨_, hj⟩ := List.getElem?_of_mem hq
    rcases Pool.spawn_cases h hj with rfl | hj
    case inl => exact .initial
    case inr => exact hs q <| List.mem_of_getElem? hj
  case act pid i =>
    have ⟨a⟩ := Pool.Acts.of_step h
    rcases a.mem_cases hq with rfl | hq
    case inl => exact Platform.input_stored (hs _ a.mem_pre) a.step
    case inr => exact hs q <| Pool.mem_of_others hq
  case env =>
    obtain ⟨_, _, rfl⟩ := Pool.env_eq h
    exact hs q hq

theorem priced_step {a : Pool.Action Unit Input Unit} (hs : s.Stored) (hp : s.Priced)
    (h : system.step s a = some s') : s'.Priced ↔ OrdersPayable s a := by
  cases a
  case spawn =>
    refine iff_of_true (fun q hq => ?_) (by simp [OrdersPayable, State.running?])
    obtain ⟨_, hj⟩ := List.getElem?_of_mem hq
    rcases Pool.spawn_cases h hj with rfl | hj
    case inl => exact ⟨le_rfl, fun _ _ => rfl, fun hs => by cases hs⟩
    case inr => exact hp q <| List.mem_of_getElem? hj
  case env =>
    obtain ⟨_, _, rfl⟩ := Pool.env_eq h
    exact iff_of_true hp (by simp [OrdersPayable, State.running?])
  case act pid i =>
    obtain ⟨a⟩ := Pool.Acts.of_step h
    have hr := Platform.input_priced_iff (hp _ a.mem_pre) (hs _ a.mem_pre) a.step
    have hc : OrdersPayable s (.act pid i) ↔
        (i = .run → a.pre.pc = .handle → a.pre.Orders (command a.pre.receive)) := by
      cases i <;> simp [OrdersPayable, State.running?, a.get]
    rw [hc, ← hr]
    constructor
    case mp  => exact fun h => h _ <| List.mem_of_getElem? a.get_post
    case mpr =>
      intro h q hq
      rcases a.mem_cases hq with rfl | hq
      case inl => exact h
      case inr => exact hp q <| Pool.mem_of_others hq

-- The prices stay proper in every state of a run exactly if each order that is accepted comes to
-- numbers that can be paid for.
theorem priced_iff (e : system.Run .initial s) :
    e.AllStates State.Priced ↔ e.AllSteps OrdersPayable := by
  apply e.allStates_iff_allSteps State.Stored
  case hi => exact fun _ h => absurd h List.not_mem_nil
  case h₀ => exact fun _ h => absurd h List.not_mem_nil
  case hI => exact fun _ _ _ hs h => hs.step h
  case hP => exact fun _ _ _ hs hp h => priced_step hs hp h

-- The customer orders four cookies and takes three cakes back that have never been ordered.
def bargainingCustomer : List (Pool.Action Unit Input Unit) :=
  [.spawn (), message 0 "order cookie 4\n"] ++ statements 0 2 ++
  [message 0 "order cake -3\n"] ++ statements 0 2 ++ [message 0 "confirm\n"] ++ statements 0 1

set_option maxRecDepth 4000 in
theorem priced_broken : ¬ ∀ (s : State) (_ : system.Run .initial s), s.Priced := by
  intro h
  have ⟨s, e, _, hs⟩ := Machine.Run.exists_of_exec system (fun _ _ => true) .initial
    bargainingCustomer
    (fun s => s.procs[0]?.any fun p => p.pc = .send .pleaseOrder ∧ p.book.orderNum .first = 4)
    (by decide)
  obtain ⟨p, hp, hb⟩ := (Option.any_eq_true _ _).mp hs
  have ⟨hpc, hn⟩ := of_decide_eq_true hb
  have := (h s e p <| List.mem_of_getElem? hp).asked hpc .first
  omega

end Delivery
