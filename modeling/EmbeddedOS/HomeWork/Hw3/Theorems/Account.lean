import EmbeddedOS.HomeWork.Hw3.Ledger
import EmbeddedOS.HomeWork.Hw3.Theorems.Backlog
import EmbeddedOS.Library.Decimal

open C

namespace Delivery

-- The locals of a session are what its commands come to.
structure Account (cs : List Command) (b : Book) : Prop where
  flag     : b.flag = Ledger.flag cs
  orderNum : b.orderNum = Ledger.orderNum cs
  price    : b.price = Ledger.price cs
  reply    : string? b.orderTemp = some (Ledger.reply cs)

-- An order that is accepted leaves numbers that fit an `int`.
def Book.Holds (b : Book) : Command → Prop
  | .order shop item n =>
    let orderNum := Function.update b.orderNum item (b.orderNum item + n)
    b.Open shop → Fits (orderNum item) ∧
      Fits (shop.itemPrice .first * orderNum .first + shop.itemPrice .second * orderNum .second)
  | _ => True

instance (b : Book) : (c : Command) → Decidable (b.Holds c)
  | .order _ _ _ => inferInstanceAs <| Decidable (_ → _ ∧ _)
  | .leave | .yes | .shopList | .confirm | .refuse | .ignore | .fault => .isTrue trivial

section

variable {cs : List Command} {c : Command} {b : Book} {shop : Shop} {item : Item} {n : ℤ}

theorem listing_eq (shop : Shop) (orderNum : Item → ℤ) :
    Book.listing shop orderNum = listed shop orderNum := by
  by_cases h₁ : orderNum .first = 0 <;> by_cases h₂ : orderNum .second = 0 <;>
    simp [Book.listing, listed, h₁, h₂, List.intercalate]

theorem not_mem_listing (shop : Shop) (orderNum : Item → ℤ) :
    0 ∉ Book.listing shop orderNum := by
  have hn : ∀ item, 0 ∉ shop.itemName item := by
    intro item
    cases shop <;> cases item <;> decide
  have hd : ∀ n, 0 ∉ decimal n := fun n h => decimal_ne_zero 0 h rfl
  have hs : 0 ∉ ascii " " ∧ 0 ∉ ascii "|" ∧ 0 ∉ ascii "\n" := by decide
  unfold Book.listing
  split_ifs <;> simp [hn, hd, hs]

theorem Shop.flag_pos (shop : Shop) : 0 < shop.flag := by
  cases shop <;> decide

theorem Shop.flag_inj {shop shop' : Shop} : shop.flag = shop'.flag ↔ shop = shop' := by
  cases shop <;> cases shop' <;> decide

namespace Account

theorem initial : Account [] .initial where
  flag     := rfl
  orderNum := rfl
  price    := rfl
  reply    := rfl

-- The session is open for the orders that its ledger accepts.
theorem open_iff (h : Account cs b) :
    b.Open shop ↔ Ledger.Accepts cs (.order shop item n) := by
  rw [Book.Open, h.flag, Ledger.flag]
  cases hs : Ledger.shop? cs
  case none       => simp [Ledger.Accepts, hs]
  case some first =>
    simp [Ledger.Accepts, hs, Shop.flag_inj, first.flag_pos.ne']

theorem keep (h : Account cs b) (hn : ¬Ledger.Accepts cs c) : Account (c :: cs) b where
  flag     := h.flag.trans (Ledger.flag_of_not_accepts hn).symm
  orderNum := h.orderNum.trans (Ledger.orderNum_of_not_accepts hn).symm
  price    := h.price.trans (Ledger.price_of_not_accepts hn).symm
  reply    := by rw [h.reply, Ledger.reply_of_not_accepts hn]

theorem accept (h : Account cs b) (ho : b.Open shop) (hb : b.Holds (.order shop item n)) :
    Account (.order shop item n :: cs) (b.accept shop item n) := by
  have ha : Ledger.Accepts cs (.order shop item n) := h.open_iff.mp ho
  have ⟨hn, hp⟩ := hb ho
  have hi : (b.accept shop item n).orderNum = Ledger.orderNum (.order shop item n :: cs) := by
    rw [Function.update_self] at hn
    rw [Ledger.orderNum_of_accepts ha, ← h.orderNum, ← hn.int_eq]
    rfl
  constructor
  case flag     => rw [Ledger.flag, Ledger.shop?_of_accepts ha]; rfl
  case orderNum => exact hi
  case price    =>
    rw [h.orderNum, ← Ledger.orderNum_of_accepts ha] at hp
    rw [Ledger.price_of_accepts ha, ← hp.int_eq, ← hi]
    rfl
  case reply    =>
    rw [Ledger.reply_of_accepts ha, ← listing_eq, ← hi]
    exact string?_sprintf <| not_mem_listing _ _

end Account
end

-- The command of a text message, which is followed by at least one NUL.
def Command.ofBytes (bytes : List UInt8) : Command :=
  .ofString <| bytes.takeWhile (· ≠ 0)

def Command.isOrder : Command → Bool
  | .order _ _ _ | .refuse => true
  | .leave | .yes | .shopList | .confirm | .ignore | .fault => false

-- The command that a session is given in a step.
def received (pid : ℕ) (_ : State) : Pool.Action Unit Input Unit → Option Command
  | .act q (.bytes bytes) => if q = pid then some <| .ofBytes bytes else none
  | _ => none

-- What `recv` may return to a session: a message with a NUL behind it, with words of at most 19
-- characters and numbers that fit, or the end of the stream.
def Platform.Plain (p : Platform) : Input → Prop
  | .bytes bytes =>
    0 ∈ bytes ∧ (scanOrder <| bytes.takeWhile (· ≠ 0)).fits ∧ p.book.Holds (.ofBytes bytes)
  | .error => False
  | .run | .eof => True

instance (p : Platform) : (i : Input) → Decidable (p.Plain i)
  | .bytes _    => inferInstanceAs <| Decidable (_ ∧ _ ∧ _)
  | .error      => .isFalse id
  | .run | .eof => .isTrue trivial

def Plain (pid : ℕ) (s : State) : Pool.Action Unit Input Unit → Prop
  | .act q i => q = pid → ∀ p ∈ s.procs[pid]?, p.Plain i
  | _ => True

instance (pid : ℕ) (s : State) : (a : Pool.Action Unit Input Unit) → Decidable (Plain pid s a)
  | .act _ _ => inferInstanceAs <| Decidable (_ → ∀ _ ∈ _, _)
  | .spawn _ | .env _ => .isTrue trivial

-- The last reply that a session has sent.
def lastSent (pid : ℕ) : List Event → Option Reply
  | [] => none
  | .sent q _ reply :: log => if q = pid then some reply else lastSent pid log
  | _ :: log => lastSent pid log

namespace Platform

-- The session answers with a text, or has done so and has sent nothing else since then.
def Replies (p : Platform) (pid : ℕ) (m : Memory) (text : List UInt8) : Prop :=
  ∃ buf, string? buf = some text ∧
    (p.pc = .send (.order buf) ∨
      (p.pc = .recv ∨ p.pc = .closed) ∧ lastSent pid m.log = some (.order buf))

-- The session has read a message, which stands in its buffer, but has not looked at it yet.
structure Pending (p : Platform) (cs : List Command) : Prop where
  read    : command p.receive ≠ .fault
  holds   : p.book.Holds (command p.receive)
  account : ∃ rest, cs = command p.receive :: rest ∧ Account rest p.book

-- The session has handled all of its messages.
structure Settled (p : Platform) (pid : ℕ) (m : Memory) (cs : List Command) : Prop where
  running : p.pc ≠ .faulted
  account : Account cs p.book
  replies : ∀ c rest, cs = c :: rest → c.isOrder → p.Replies pid m (Ledger.reply cs)

-- What holds of a session in every state.
def Accounts (p : Platform) (pid : ℕ) (m : Memory) (cs : List Command) : Prop :=
  if p.pc = .handle then p.Pending cs else p.Settled pid m cs

end Platform

variable {m m' : Memory} {p p' : Platform} {pid q : ℕ} {s s' : State} {cs : List Command}
variable {c : Command} {i : Input}

theorem ofString_ne_fault {text : List UInt8} (h : (scanOrder text).fits) :
    Command.ofString text ≠ .fault := by
  unfold Command.ofString
  split_ifs
  case neg =>
    simp only [h, not_true, if_false]
    split
    case isTrue  => split <;> simp
    case isFalse => simp
  all_goals simp

-- Another session does not change what this one has sent.
theorem lastSent_move (hq : q ≠ pid) (h : p.Move q m m' p') :
    lastSent pid m'.log = lastSent pid m.log := by
  cases h
  case sendWait | deliver | send => exact if_neg hq
  all_goals rfl

namespace Account

theorem perform (h : Account cs p.book) (hb : p.book.Holds c) :
    Account (c :: cs) (p.perform pid m c).snd.book := by
  cases c
  case order shop item n =>
    by_cases ho : p.book.Open shop
    case pos => rw [Platform.perform_accept ho]; exact h.accept ho hb
    case neg => rw [Platform.perform_reject ho]; exact h.keep <| mt h.open_iff.mpr ho
  case yes     =>
    have hk : Account (.yes :: cs) p.book := h.keep id
    cases hw : p.who <;> simpa [Platform.perform, hw] using hk
  case confirm =>
    have hk : Account (.confirm :: cs) p.book := h.keep id
    by_cases hp : p.book.price = 0 <;> simpa [Platform.perform, hp] using hk
  all_goals exact h.keep id

end Account

namespace Platform

-- An order is answered with the text of the order that has been accepted last.
theorem perform_replies (h : Account (c :: cs) (p.perform pid m c).snd.book) (hc : c.isOrder) :
    (p.perform pid m c).snd.Replies pid m' (Ledger.reply (c :: cs)) := by
  cases c
  case order shop item n =>
    by_cases ho : p.book.Open shop
    case neg =>
      rw [perform_reject ho] at h ⊢
      exact ⟨_, h.reply, .inl rfl⟩
    case pos =>
      rw [perform_accept ho] at h ⊢
      refine ⟨_, ?_, .inl rfl⟩
      have hn : 0 ∉ (p.accept shop item n).book.orderTemp.takeWhile (· ≠ 0) :=
        fun h₀ => by simpa using List.mem_takeWhile_imp h₀
      have hr := h.reply
      rw [string?] at hr
      split at hr
      case isTrue  => exact (string?_sprintf hn).trans hr
      case isFalse => contradiction
  case refuse => exact ⟨_, h.reply, .inl rfl⟩
  all_goals contradiction

theorem Pending.perform (h : p.Pending cs) (pid : ℕ) (m m' : Memory) :
    (p.perform pid m <| command p.receive).snd.Settled pid m' cs := by
  obtain ⟨rest, rfl, ha⟩ := h.account
  have ha : Account _ (p.perform pid m <| command p.receive).snd.book := ha.perform h.holds
  refine ⟨mt perform_pc.right h.read, ha, fun c rest hc ho => ?_⟩
  cases hc
  exact perform_replies ha ho

-- A statement behind the comparisons sends at most the reply that is due.
theorem Settled.move (h : p.Settled pid m cs) (hpc : p.pc ≠ .handle) (hm : p.Move pid m m' p') :
    p'.Settled pid m' cs := by
  have hb : p'.book = p.book ∧ p'.pc ≠ .faulted := by
    cases hm
    case order | overlong | unterminated => contradiction
    all_goals exact ⟨rfl, nofun⟩
  refine ⟨hb.right, hb.left ▸ h.account, fun c rest hc ho => ?_⟩
  obtain ⟨buf, ht, hs⟩ := h.replies c rest hc ho
  refine ⟨buf, ht, .inr ?_⟩
  cases hs
  case inl hs =>
    cases hm
    case send r hpc' =>
      cases hpc'.symm.trans hs
      exact ⟨.inl rfl, if_pos rfl⟩
    all_goals simp_all
  case inr hs =>
    cases hm
    all_goals simp_all

theorem Settled.frame (h : p.Settled pid m cs) (hl : lastSent pid m'.log = lastSent pid m.log) :
    p.Settled pid m' cs := by
  refine ⟨h.running, h.account, fun c rest hc ho => ?_⟩
  obtain ⟨buf, ht, hs⟩ := h.replies c rest hc ho
  exact ⟨buf, ht, hs.imp id <| And.imp id hl.trans⟩

theorem Accounts.frame (h : p.Accounts pid m cs) (hl : lastSent pid m'.log = lastSent pid m.log) :
    p.Accounts pid m' cs := by
  unfold Accounts at h ⊢
  split
  case isTrue hpc  => exact (if_pos hpc).mp h
  case isFalse hpc => exact ((if_neg hpc).mp h).frame hl

theorem Accounts.settled (h : p.Accounts pid m cs) (hpc : p.pc ≠ .handle) : p.Settled pid m cs := by
  rwa [Accounts, if_neg hpc] at h

theorem Settled.accounts (h : p.Settled pid m cs) (hpc : p.pc ≠ .handle) : p.Accounts pid m cs := by
  rwa [Accounts, if_neg hpc]

theorem Accounts.run (h : p.Accounts pid m cs) (hs : p.step pid m = some (m', p')) :
    p'.Accounts pid m' cs := by
  by_cases hpc : p.pc = .handle
  case pos =>
    rw [Accounts, if_pos hpc] at h
    have he : p.perform pid m (command p.receive) = (m', p') :=
      Option.some.inj <| (step_handle hpc).symm.trans hs
    have hp := (h.perform pid m m').accounts perform_pc.left
    rwa [he] at hp
  case neg => exact ((h.settled hpc).move hpc <| .of_step hs).accounts <| step_pc hpc hs

-- What is received becomes the newest command of the session.
theorem Accounts.input (h : p.Accounts pid m cs) (hp : p.Plain i)
    (hs : p.input pid m i = some (m', p')) :
    p'.Accounts pid m' ((received pid s (.act pid i)).toList ++ cs) := by
  cases i
  case run   => exact h.run hs
  case error => contradiction
  case eof =>
    simp only [Platform.input] at hs
    split at hs
    case isFalse => contradiction
    case isTrue hpc =>
      cases hs
      have hs := h.settled (by simp [hpc])
      refine Settled.accounts ⟨by simp, hs.account, fun c rest hc ho => ?_⟩ (by simp)
      obtain ⟨buf, ht, hr⟩ := hs.replies c rest hc ho
      exact ⟨buf, ht, .inr ⟨.inr rfl, (hr.resolve_left <| by simp [hpc]).right⟩⟩
  case bytes bytes =>
    obtain ⟨h₀, hf, hb⟩ := hp
    simp only [Platform.input] at hs
    split at hs
    case isFalse => contradiction
    case isTrue hpc =>
      cases hs
      have hs := h.settled (by simp [hpc.left])
      have hr : command (overlay bytes p.receive) = .ofBytes bytes := by
        rw [command, string?_overlay h₀]
        rfl
      refine (if_pos rfl).mpr ⟨?_, ?_, cs, ?_, hs.account⟩
      case refine_1 => exact hr ▸ ofString_ne_fault hf
      case refine_2 => exact hr ▸ hb
      case refine_3 => simp [received, hr]

end Platform

-- The invariant of the runs: a session that has been started accounts for its commands.
structure Sound (pid : ℕ) (s : State) (cs : List Command) : Prop where
  absent : s.procs[pid]? = none → cs = []
  books  : ∀ p, s.procs[pid]? = some p → p.Accounts pid s.mem cs

namespace Sound

theorem initial (pid : ℕ) : Sound pid .initial [] where
  absent _ := rfl
  books    := nofun

theorem spawn (hs : Sound pid s cs) (h : system.step s (.spawn ()) = some s') :
    Sound pid s' cs := by
  cases ho : s.procs[pid]?
  case some p =>
    have hp : s'.procs[pid]? = some p := by
      cases Pool.spawn_eq h
      rw [List.getElem?_append_left (List.getElem?_eq_some_iff.mp ho).fst, ho]
    have hm : s'.mem = s.mem := by rw [Pool.spawn_eq h]
    refine ⟨fun hn => absurd (hp.symm.trans hn) nofun, fun p' hp' => ?_⟩
    cases Option.some.inj <| hp.symm.trans hp'
    exact hm ▸ hs.books p ho
  case none =>
    cases hs.absent ho
    refine ⟨fun _ => rfl, fun p hp => ?_⟩
    cases (Pool.spawn_cases h hp).resolve_right <| by simp [ho]
    exact Platform.Settled.accounts ⟨nofun, .initial, nofun⟩ nofun

-- What another thread does, or the counter, concerns a session only in the memory.
theorem frame (hs : Sound pid s cs) (hp : s'.procs[pid]? = s.procs[pid]?)
    (hl : lastSent pid s'.mem.log = lastSent pid s.mem.log) : Sound pid s' cs where
  absent h   := hs.absent <| hp.symm.trans h
  books p h := (hs.books p <| hp.symm.trans h).frame hl

theorem act (hs : Sound pid s cs) (hc : Plain pid s (.act q i))
    (h : system.step s (.act q i) = some s') :
    Sound pid s' ((received pid s (.act q i)).toList ++ cs) := by
  have ⟨a⟩ := Pool.Acts.of_step h
  by_cases hq : q = pid
  case pos =>
    subst hq
    refine ⟨fun hn => absurd (a.get_post.symm.trans hn) nofun, fun p hp => ?_⟩
    cases Option.some.inj <| a.get_post.symm.trans hp
    exact (hs.books _ a.get).input (hc rfl _ a.get) a.step
  case neg =>
    have hr : received pid s (.act q i) = none := by
      cases i
      case bytes => exact if_neg hq
      all_goals rfl
    rw [hr]
    refine hs.frame (a.get_other <| Ne.symm hq) ?_
    by_cases hi : i = .run
    case pos => subst hi; exact lastSent_move hq <| .of_step a.step
    case neg => rw [(Platform.input_eq hi a.step).left]

theorem step {a : Pool.Action Unit Input Unit} (hs : Sound pid s cs) (hc : Plain pid s a)
    (h : system.step s a = some s') : Sound pid s' ((received pid s a).toList ++ cs) := by
  cases a
  case spawn   => exact hs.spawn h
  case act q i => exact hs.act hc h
  case env     =>
    obtain ⟨_, hm, rfl⟩ := Pool.env_eq h
    cases hm
    exact hs.frame rfl rfl

end Sound

-- What the order book of a session comes to, when it has been given the commands `cs`.
structure Platform.Keeps (p : Platform) (pid : ℕ) (m : Memory) (cs : List Command) : Prop where
  running   : p.pc ≠ .faulted
  flag      : p.book.flag = (Ledger.shop? cs).elim 0 Shop.flag
  fixed     : ∀ earlier, earlier <:+ cs → ∀ shop, Ledger.shop? earlier = some shop →
    p.book.flag = shop.flag
  orderNum  : ∀ item, p.book.orderNum item =
    (Ledger.shop? cs).elim 0 fun shop => Ledger.total shop item cs
  price     : p.book.price = (Ledger.shop? cs).elim 0 fun shop =>
    shop.itemPrice .first * p.book.orderNum .first +
      shop.itemPrice .second * p.book.orderNum .second
  accepted  : ∀ shop item n rest, cs = .order shop item n :: rest →
    (∀ first ∈ Ledger.shop? rest, first = shop) → p.Replies pid m (listed shop p.book.orderNum)
  rejected  : ∀ c rest, cs = c :: rest → c.isOrder → ¬Ledger.Accepts rest c →
    p.Replies pid m (Ledger.reply rest)
  unchanged : ∀ c rest, cs = c :: rest → ¬Ledger.Accepts rest c →
    p.book.flag = Ledger.flag rest ∧ p.book.orderNum = Ledger.orderNum rest ∧
      p.book.price = Ledger.price rest

theorem Platform.Settled.keeps (h : p.Settled pid m cs) : p.Keeps pid m cs := by
  have ha := h.account
  constructor
  case running  => exact h.running
  case flag     => exact ha.flag
  case orderNum => exact fun item => congrFun ha.orderNum item
  case fixed    =>
    intro earlier he shop hs
    rw [ha.flag, Ledger.flag, Ledger.shop?_of_suffix he hs, Option.elim_some]
  case price    =>
    rw [ha.price, ha.orderNum, Ledger.price]
    unfold Ledger.orderNum
    cases Ledger.shop? cs <;> rfl
  case accepted =>
    rintro shop item n rest rfl hr
    rw [ha.orderNum, ← Ledger.reply_of_accepts hr]
    exact h.replies _ _ rfl rfl
  case rejected =>
    rintro c rest rfl hc hr
    exact Ledger.reply_of_not_accepts hr ▸ h.replies _ _ rfl hc
  case unchanged =>
    rintro c rest rfl hr
    exact ⟨ha.flag.trans <| Ledger.flag_of_not_accepts hr,
      ha.orderNum.trans <| Ledger.orderNum_of_not_accepts hr,
      ha.price.trans <| Ledger.price_of_not_accepts hr⟩

-- The order book of each session is what its messages come to, in every run.
theorem keeps_of_plain (e : system.Run .initial s) (hc : e.AllSteps (Plain pid))
    (hp : s.procs[pid]? = some p) (hpc : p.pc ≠ .handle) :
    p.Keeps pid s.mem (e.history <| received pid) := by
  have hs : Sound pid s (e.history <| received pid) :=
    e.invariant_history (Sound.initial pid) (fun _ _ _ _ hs hc h => hs.step hc h) hc
  exact ((hs.books p hp).settled hpc).keeps

-- The customer changes an order and tries another shop.
def changingCustomer : List (Pool.Action Unit Input Unit) :=
  [.spawn (), message 0 "order tea 2\n"] ++ statements 0 2 ++
  [message 0 "order cake 1\n"] ++ statements 0 2 ++ [message 0 "order boba 3\n"] ++
  statements 0 2 ++ [message 0 "order tea -2\n"] ++ statements 0 2

set_option maxRecDepth 4000 in
theorem keeps_of_changing_customer : ∃ (s : State) (e : system.Run .initial s) (p : Platform),
    p.book.price = 210 ∧ p.Keeps 0 s.mem (e.history <| received 0) := by
  have ⟨s, e, he, hs⟩ := Machine.Run.exists_of_exec system (fun s a => decide (Plain 0 s a))
    .initial changingCustomer
    (fun s => s.procs[0]?.any fun p => p.book.price = 210 ∧ p.pc ≠ .handle) (by decide)
  obtain ⟨p, hp, hb⟩ := (Option.any_eq_true _ _).mp hs
  have ⟨hb, hpc⟩ := of_decide_eq_true hb
  exact ⟨s, e, p, hb, keeps_of_plain e (by simpa using he) hp hpc⟩

end Delivery
