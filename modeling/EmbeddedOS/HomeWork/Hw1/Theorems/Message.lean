import EmbeddedOS.HomeWork.Hw1.Driver
import EmbeddedOS.HomeWork.Hw1.Program
import EmbeddedOS.Library.Decimal

open C Delivery

namespace Hw1

-- One of the three distances, and a price in decimal digits.
def Formatted (buf : List UInt8) : Prop :=
  ∃ (shop : Shop) (price : List UInt8),
    buf = distance shop :: price ∧ price ≠ [] ∧ ∀ c ∈ price, isdigit c

-- All buffers that have been written are formatted, and the driver finds each index in its array.
def State.Agrees (s : State) : Prop :=
  ∀ buf ∈ s.written, Formatted buf ∧ (etxWrite buf).isSome

-- A line that confirms the order in a shop, with the newline that ends it.
def Confirms (s : State) (a : Input) : Prop :=
  (∃ shop, s.pc = .chooseClear shop '3'.toUInt8) ∧ a = .key (some '\n'.toUInt8)

-- A price is only confirmed while it fits an `int`.
def Billable (s : State) (a : Input) : Prop :=
  Confirms s a → s.price.toNat < 2 ^ 31

section

variable {α β : Type*} {f : α → Option β} {as : List α} {buf : List UInt8} {c : UInt8} {n : ℕ}

theorem isSome_mapM : (as.mapM f).isSome ↔ ∀ a ∈ as, (f a).isSome := by
  induction as
  case nil => simp
  case cons a as hi =>
    rw [List.mapM_cons, List.forall_mem_cons, ← hi]
    cases f a
    case none   => simp
    case some b => cases as.mapM f <;> simp

theorem isSome_deliveryDistance (shop : Shop) : (deliveryDistance <| distance shop).isSome := by
  cases shop <;> rfl

theorem isSome_display_iff : (display c).isSome ↔ isdigit c := by
  have hc : c < '0'.toUInt8 ↔ c.toNat < 48 := UInt8.lt_iff_toNat_lt
  simp only [display, isdigit, Bool.and_eq_true, decide_eq_true_eq, UInt8.le_iff_toNat_le, hc]
  split
  case isTrue h  => simp; omega
  case isFalse h =>
    cases hr : showTable[c.toNat - '0'.toNat]?
    case none =>
      have hl : 10 ≤ c.toNat - 48 := List.getElem?_eq_none_iff.mp hr
      simp
      omega
    case some =>
      have hl : c.toNat - 48 < 10 := (List.getElem?_eq_some_iff.mp hr).fst
      simp
      omega

-- The loop shows all bytes of a buffer but the first.
theorem isSome_displays_iff (c : UInt8) (buf rest : List UInt8) :
    (displays (c :: buf ++ rest) (c :: buf).length).isSome ↔ ∀ d ∈ buf, isdigit d := by
  have hd : (displays (c :: buf ++ rest) (c :: buf).length).isSome ↔
      ∀ i ∈ List.range' 1 buf.length, ((c :: buf ++ rest)[i]?.bind display).isSome := by
    rw [← isSome_mapM]
    simp only [displays, List.length_cons, Nat.add_sub_cancel]
    cases (List.range' 1 buf.length).mapM fun i => (c :: buf ++ rest)[i]?.bind display <;> simp
  rw [hd]
  constructor
  case mp =>
    intro h d hd
    obtain ⟨i, hi, rfl⟩ := List.getElem_of_mem hd
    have hs := h (i + 1) <| List.mem_range'_1.mpr (by omega)
    simpa [List.getElem?_append_left, hi, isSome_display_iff] using hs
  case mpr =>
    intro h i hi
    have ⟨h₁, h₂⟩ := List.mem_range'_1.mp hi
    obtain ⟨i, rfl⟩ := Nat.exists_eq_add_of_le' h₁
    have hl : i < buf.length := by omega
    simpa [List.getElem?_append_left, hl, isSome_display_iff] using h _ <| List.getElem_mem hl

-- The driver finds its way through a buffer exactly if its first byte is a distance that the LEDs
-- can show and the others are digits.
theorem isSome_etxWrite_iff (h : (c :: buf).length ≤ 100) :
    (etxWrite <| c :: buf).isSome ↔ (deliveryDistance c).isSome ∧ ∀ d ∈ buf, isdigit d := by
  rw [← isSome_displays_iff c buf <| (List.replicate 100 0).drop (c :: buf).length]
  simp only [etxWrite, h, if_true, overlay, List.cons_append, List.headD_cons]
  generalize displays _ _ = price
  cases deliveryDistance c <;> cases price <;> simp

end

-- The calls that are made without a price.
def Pc.idle : Pc → Bool
  | menu | menuClear _ | order | orderClear _ | enter _ | pause          => true
  | choose _ | chooseClear _ _ | howMany _ _ _ | loopClear _ | pickUp => false

def State.Cleared (s : State) : Prop :=
  s.pc.idle → s.price = 0

-- What a step does to the buffers: it leaves them alone, or a line that confirms a price adds one.
inductive Move (s : State) (a : Input) (s' : State) : Prop
  | quiet (hc : Confirms s a → s.price = 0) (hw : s'.written = s.written) (hp : s'.Cleared)
  | bill (shop : Shop) (hc : Confirms s a) (hp : s'.Cleared)
    (hw : s'.written = (distance shop :: decimal (C.int s.price.toNat)) :: s.written)

variable {s s' : State} {a : Input} {c : Option UInt8} {ch : UInt8}

namespace State

theorem finish_of_price_zero (h : s.price = 0) : s.finish = s.again := by
  simp [finish, h]

theorem again_cleared : s.again.Cleared :=
  fun _ => rfl

theorem goto_cleared {pc : Pc} (h : s.price = 0) : (s.goto pc).Cleared :=
  fun _ => h

theorem menuChosen_quiet (h : s.price = 0) :
    (s.menuChosen ch).written = s.written ∧ (s.menuChosen ch).Cleared := by
  unfold menuChosen
  split
  case isTrue => exact ⟨rfl, goto_cleared h⟩
  split
  case isTrue  => exact ⟨rfl, goto_cleared h⟩
  case isFalse => exact finish_of_price_zero h ▸ ⟨rfl, again_cleared⟩

theorem orderChosen_quiet (h : s.price = 0) :
    (s.orderChosen ch).written = s.written ∧ (s.orderChosen ch).Cleared := by
  unfold orderChosen
  split
  case isTrue => exact ⟨rfl, goto_cleared h⟩
  split
  case isTrue => exact ⟨rfl, goto_cleared h⟩
  split
  case isTrue  => exact ⟨rfl, goto_cleared h⟩
  case isFalse => exact finish_of_price_zero h ▸ ⟨rfl, again_cleared⟩

theorem clear_loopClear_quiet {shop : Shop} (h : s.pc = .loopClear shop) :
    (s.clear c).written = s.written ∧ (s.clear c).Cleared := by
  simp only [clear, h]
  split
  case isTrue  => exact ⟨rfl, nofun⟩
  case isFalse => exact ⟨rfl, by simp [Cleared, h, Pc.idle]⟩

-- A shop is left with a buffer if there is a price.
theorem leave_cleared (s : State) (shop : Shop) (price : UInt32) :
    (s.leave shop price).Cleared := by
  unfold leave finish
  split
  case isTrue  => exact nofun
  case isFalse => exact again_cleared

theorem leave_written (s : State) (shop : Shop) (price : UInt32) :
    (s.leave shop price).written = (if price = 0 then [] else
      [Hw1.distance shop :: decimal (C.int price.toNat)]) ++ s.written := by
  unfold leave finish
  by_cases hp : price = 0 <;> simp only [hp, ne_eq, not_true, not_false_iff, if_true, if_false]
  case pos => rfl
  case neg => rfl

end State

namespace Move

theorem not_confirms (h : ∀ shop ch, s.pc ≠ .chooseClear shop ch) : ¬Confirms s a :=
  fun ⟨⟨shop, hpc⟩, _⟩ => h shop _ hpc

theorem of_quiet (h : ∀ shop ch, s.pc ≠ .chooseClear shop ch)
    (hq : s'.written = s.written ∧ s'.Cleared) : Move s a s' :=
  .quiet (absurd · <| not_confirms h) hq.left hq.right

theorem of_chosen {shop : Shop} (hpc : s.pc = .chooseClear shop ch) :
    Move s (.key <| some '\n'.toUInt8) (s.chosen shop ch) := by
  have hc : Confirms s (.key <| some '\n'.toUInt8) ↔ ch = '3'.toUInt8 := by
    simp [Confirms, hpc]
  have hn : ch ≠ '3'.toUInt8 → Confirms s (.key <| some '\n'.toUInt8) → s.price = 0 :=
    fun hch h => absurd (hc.mp h) hch
  unfold State.chosen
  split
  case isTrue h => exact .quiet (hn <| h ▸ by decide) rfl nofun
  split
  case isTrue h => exact .quiet (hn <| h ▸ by decide) rfl nofun
  split
  case isTrue h =>
    have hw := s.leave_written shop s.price
    by_cases hz : s.price = 0
    case pos => exact .quiet (fun _ => hz) (by simpa [hz] using hw) (s.leave_cleared _ _)
    case neg => exact .bill shop (hc.mpr h) (s.leave_cleared _ _) (by simpa [hz] using hw)
  split
  case isTrue h =>
    exact .quiet (hn <| h ▸ by decide) (s.leave_written _ _) (s.leave_cleared _ _)
  case isFalse h _ => exact .quiet (hn h) rfl nofun

theorem of_clear (hs : s.Cleared) : Move s (.key c) (s.clear c) := by
  have hn : c.getD 255 = '\n'.toUInt8 → c = some '\n'.toUInt8 := by
    cases c
    case none   => exact fun h => absurd h (by decide)
    case some c => exact congrArg some
  unfold State.clear
  split
  case isFalse h =>
    refine .quiet (fun hc => ?_) rfl hs
    cases hc.right
    contradiction
  case isTrue h =>
    cases hn h
    cases hpc : s.pc
    case menuClear ch =>
      exact of_quiet (by simp [hpc]) <| State.menuChosen_quiet <| hs <| by simp [hpc, Pc.idle]
    case orderClear ch =>
      exact of_quiet (by simp [hpc]) <| State.orderChosen_quiet <| hs <| by simp [hpc, Pc.idle]
    case chooseClear shop ch => exact of_chosen hpc
    case loopClear shop => exact of_quiet (by simp [hpc]) ⟨rfl, nofun⟩
    all_goals exact of_quiet (by simp [hpc]) ⟨rfl, hs⟩

theorem of_key (hs : s.Cleared) (h : s.key c = some s') : Move s (.key c) s' := by
  have hz : s.pc.idle → ∀ pc : Pc, (s.goto pc).Cleared := fun hi _ => State.goto_cleared <| hs hi
  unfold State.key at h
  split at h
  case h_1 hpc   => cases h; exact of_quiet (by simp [hpc]) ⟨rfl, hz (by simp [hpc, Pc.idle]) _⟩
  case h_2 hpc   => cases h; exact of_quiet (by simp [hpc]) ⟨rfl, hz (by simp [hpc, Pc.idle]) _⟩
  case h_3 hpc   => cases h; exact of_quiet (by simp [hpc]) ⟨rfl, nofun⟩
  case h_4 | h_5 | h_6 | h_7 => cases h; exact of_clear hs
  case h_8 hpc   =>
    split at h
    case h_1 => cases h; exact of_quiet (by simp [hpc]) ⟨rfl, nofun⟩
    case h_2 => cases h; exact of_quiet (by simp [hpc]) <| State.clear_loopClear_quiet rfl
  case h_9 hpc   =>
    cases h
    have hp := hs <| by simp [hpc, Pc.idle]
    exact of_quiet (by simp [hpc]) <| State.finish_of_price_zero hp ▸ ⟨rfl, State.again_cleared⟩
  case h_10 hpc => cases h; exact of_quiet (by simp [hpc]) ⟨rfl, State.again_cleared⟩
  case h_11     => contradiction

theorem of_step (hs : s.Cleared) (h : hw1.step s a = some s') : Move s a s' := by
  cases a
  case key c => exact of_key hs h
  case enter number =>
    simp only [hw1, State.step] at h
    split at h
    case h_1 hpc => cases h; exact of_quiet (by simp [hpc]) ⟨rfl, nofun⟩
    case h_2     => contradiction

end Move

-- The printed price consists of digits exactly if it is not printed as a negative number.
theorem isdigit_decimal_iff {n : ℕ} (h : n < 2 ^ 32) :
    (∀ c ∈ decimal (C.int n), isdigit c) ↔ n < 2 ^ 31 := by
  constructor
  case mp =>
    intro hd
    by_contra hn
    have hi : C.int n = n - 2 ^ 32 := by
      rw [C.int, Int.bmod_def]
      omega
    have hm : (45 : UInt8) ∈ decimal (C.int n) := by
      have hl : (n : ℤ) - 2 ^ 32 < 0 := by omega
      rw [hi, decimal_eq, if_pos hl]
      exact List.mem_cons_self
    exact absurd (hd 45 hm) (by decide)
  case mpr =>
    intro hn c hc
    have hi : C.int n = n := C.int_eq (by omega) (by omega)
    have hl : ¬(n : ℤ) < 0 := by omega
    rw [hi, decimal_eq, if_neg hl] at hc
    exact isdigit_of_mem_numeral c hc

-- The program and the driver agree on a buffer exactly if its price fits an `int`.
theorem buffer_agrees_iff (shop : Shop) {n : ℕ} (h : n < 2 ^ 32) :
    Formatted (distance shop :: decimal (C.int n)) ∧
      (etxWrite <| distance shop :: decimal (C.int n)).isSome ↔ n < 2 ^ 31 := by
  have hl : (decimal <| C.int n).length ≤ 11 :=
    decimal_length_le (Int.le_bmod <| by decide) (Int.bmod_lt <| by decide)
  have he : (etxWrite <| distance shop :: decimal (C.int n)).isSome ↔ n < 2 ^ 31 := by
    rw [isSome_etxWrite_iff (by rw [List.length_cons]; omega), isdigit_decimal_iff h]
    exact and_iff_right <| isSome_deliveryDistance shop
  constructor
  case mp  => exact fun hf => he.mp hf.right
  case mpr =>
    intro hn
    have hd := (isdigit_decimal_iff h).mpr hn
    refine ⟨⟨shop, _, rfl, ?_, hd⟩, he.mpr hn⟩
    simp [decimal_eq, numeral_ne_nil]

theorem State.Agrees.move_iff (hs : s.Agrees) (h : Move s a s') : s'.Agrees ↔ Billable s a := by
  cases h
  case quiet hc hw _ =>
    have hb : Billable s a := fun h => by simp [hc h]
    exact iff_of_true (by rwa [Agrees, hw]) hb
  case bill shop hc _ hw =>
    have hn := buffer_agrees_iff shop s.price.toNat_lt
    have hb : Billable s a ↔ s.price.toNat < 2 ^ 31 := ⟨(· hc), fun h _ => h⟩
    rw [Agrees, hw, List.forall_mem_cons, hn, hb]
    exact and_iff_left hs

-- All buffers of a run are ones that the driver shows if and only if each price that has been
-- confirmed fits an `int`. Neither what the locals hold at the start nor the end of the input
-- matters.
theorem agrees_iff_billable {distance : UInt8} (e : hw1.Run (.initial distance) s) :
    e.AllStates State.Agrees ↔ e.AllSteps Billable := by
  have hm : ∀ s a s', State.Cleared s → hw1.step s a = some s' → s'.Cleared := by
    intro s a s' hs h
    cases Move.of_step hs h
    case quiet hp  => exact hp
    case bill hp _ => exact hp
  have h₀ : (State.initial distance).Agrees := fun _ h => absurd h List.not_mem_nil
  exact e.allStates_iff_allSteps State.Cleared State.Agrees (fun _ => rfl) h₀ hm
    fun _ _ _ hc hs h => hs.move_iff <| .of_step hc h

-- The keys of a customer who orders cookies in one go.
def cookies (quantity : String) : List Input :=
  (ascii "2\n1\n").map (.key <| some ·) ++ [.enter 0] ++
    (ascii "1\n" ++ ascii quantity ++ ascii "\n3\n").map (.key <| some ·)

theorem agrees_broken : ¬ ∀ (distance : UInt8) (s : State) (_ : hw1.Run (.initial distance) s),
    s.Agrees := by
  intro h
  have ⟨s, e, _, hs⟩ := Machine.Run.exists_of_exec hw1 (fun _ _ => true) (.initial 0)
    (cookies "35791395") (fun s => s.written = [ascii "3-2147483596"]) (by decide)
  have hw := of_decide_eq_true hs
  have hn : ascii "3-2147483596" ∈ s.written := hw ▸ List.mem_singleton_self _
  exact absurd (h 0 s e _ hn).right (by decide)

end Hw1
