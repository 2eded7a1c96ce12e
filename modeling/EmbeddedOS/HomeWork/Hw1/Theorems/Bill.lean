import EmbeddedOS.HomeWork.Hw1.Theorems.Message
import EmbeddedOS.Library.Scan

open C Delivery

namespace Hw1

-- The number that `%u` finds at the start of a text, where blanks and a sign may stand in front of
-- the digits.
def found? (cs : List UInt8) : Option UInt32 :=
  let (negative, cs) := sign (cs.dropWhile isspace)
  let ds := cs.takeWhile isdigit
  if ds = [] then none else (Scan.digits negative <| digitsValue ds).value?

-- A line of the input, without the newline that ends it.
structure Line where
  text  : List UInt8
  plain : '\n'.toUInt8 ∉ text

namespace Line

-- The item that a line chooses.
def item? (line : Line) : Option Item :=
  if line.text.head? = some '1'.toUInt8 then some .first
  else if line.text.head? = some '2'.toUInt8 then some .second
  else none

def confirms (line : Line) : Bool :=
  line.text.head? = some '3'.toUInt8

def cancels (line : Line) : Bool :=
  line.text.head? = some '4'.toUInt8

-- The unsigned integer that a line starts with.
def quantity? (line : Line) : Option ℕ :=
  let ds := line.text.takeWhile isdigit
  if ds = [] then none else some (digitsValue ds)

end Line

-- What the items cost that the lines of a dialogue choose. There is no result if the lines stop
-- behind the choice of an item, or if the dialogue has ended before.
def asked (shop : Shop) : List Line → Option UInt32
  | []            => some 0
  | line :: lines =>
    if line.confirms ∨ line.cancels then none
    else
      match line.item?, lines with
      | none,      lines             => asked shop lines
      | some _,    []                => none
      | some item, quantity :: lines =>
        (asked shop lines).map (unitPrice shop item * .ofNat (quantity.quantity?.getD 0) + ·)

namespace State

-- The program has got these bytes.
def keys (s : State) (cs : List UInt8) : Option State :=
  cs.foldlM (fun s c => s.key (some c)) s

def typed (s : State) (lines : List Line) : Option State :=
  s.keys <| lines.flatMap (·.text ++ ['\n'.toUInt8])

-- A shop has been entered, with a `number` that nothing has been stored in yet.
def entered (s : State) (shop : Shop) (number : UInt32) : State :=
  { s with number, pc := .choose shop }

-- The program is back in `main` with a price.
def Returned (s : State) (price : UInt32) : Prop :=
  (s.pc = .menu ∨ s.pc = .pickUp) ∧ s.price = price

end State

-- The program is about to enter a shop.
structure Calls (s : State) (shop : Shop) : Prop where
  pc      : s.pc = .enter shop
  reached : ∃ distance, Nonempty (hw1.Run (.initial distance) s)

-- The dialogue of a shop is billed as it has been asked for: behind each choice with its quantity,
-- and behind each line that chooses nothing, the shop has read these lines and no others, and has
-- added up what they cost.
def Bills (shop : Shop) (lines : List Line) (last : Line) : Prop :=
  ∀ s number, Calls s shop →
    (∀ rounds price, rounds <+: lines → asked shop rounds = some price →
      ∃ s', (s.entered shop number).typed rounds = some s' ∧ s'.pc = .choose shop ∧
        s'.price = price) ∧
    ∀ price, asked shop lines = some price →
      ∃ s', (s.entered shop number).typed (lines ++ [last]) = some s' ∧
        s'.Returned (if last.cancels then 0 else price)

-- The quantity of an item counts as what it is. The shop takes the number that `%u` finds, or else
-- the last one that it has found.
structure Counts (price : UInt32) (number : Option UInt32) (quantity : Line) : Prop where
  visible : ∃ c ∈ quantity.text, isspace c = false
  small   : ∀ n ∈ quantity.quantity?, n < 2 ^ 64 ∨ price * (.ofNat n + 1) = 0
  missing : quantity.quantity? = none →
    ∃ n ∈ (found? quantity.text).or number, price * n = 0

-- A customer chooses nothing but items, and gives quantities that count.
def Careful (shop : Shop) : Option UInt32 → List Line → Prop
  | _,      []            => True
  | number, line :: lines =>
    match line.item?, lines with
    | none,      _                 => False
    | some _,    []                => True
    | some item, quantity :: lines =>
      Counts (unitPrice shop item) number quantity ∧
        Careful shop ((found? quantity.text).or number) lines

variable {s t : State} {shop : Shop} {item : Item} {c : UInt8} {cs : List UInt8} {scan : Scan}
variable {n : ℕ} {negative : Bool} {line quantity : Line} {lines : List Line}

section Scan

-- Where a scan ends in a line or at the newline behind it, if it does.
def Scan.ends? : Scan → List UInt8 → Option Scan
  | scan, []      => if scan = .blanks then none else some scan
  | scan, c :: cs =>
    match scan.next c with
    | some scan => scan.ends? cs
    | none      => some scan

theorem ends_digits : (Scan.digits negative n).ends? cs = some
    (.digits negative <| (cs.takeWhile isdigit).foldl (fun n d => 10 * n + (d.toNat - 48)) n) := by
  induction cs generalizing n
  case nil => rfl
  case cons c cs hi =>
    by_cases hd : isdigit c
    case pos => simp [Scan.ends?, Scan.next, hd, hi]
    case neg => simp [Scan.ends?, Scan.next, hd]

-- The first digit of a number.
theorem ends_first : (Scan.digits negative (c.toNat - 48)).ends? cs =
    some (.digits negative <| digitsValue <| c :: cs.takeWhile isdigit) := by
  rw [ends_digits]
  simp [digitsValue]

theorem ends_signed : ∃ scan, (Scan.signed negative).ends? cs = some scan ∧
    scan.value? = if cs.takeWhile isdigit = [] then none
      else (Scan.digits negative <| digitsValue <| cs.takeWhile isdigit).value? := by
  cases cs
  case nil => exact ⟨_, rfl, rfl⟩
  case cons c cs =>
    by_cases hd : isdigit c
    case pos =>
      refine ⟨.digits negative <| digitsValue <| c :: cs.takeWhile isdigit, ?_, by simp [hd]⟩
      simp [Scan.ends?, Scan.next, hd, ends_first]
    case neg =>
      exact ⟨.signed negative, by simp [Scan.ends?, Scan.next, hd], by simp [hd, Scan.value?]⟩

-- The first byte behind the blanks is a sign, a digit, or the end of the scan.
theorem ends_visible (cs : List UInt8) (hs : isspace c = false) :
    ∃ scan, Scan.blanks.ends? (c :: cs) = some scan ∧
      scan.value? = if (sign (c :: cs)).snd.takeWhile isdigit = [] then none
        else (Scan.digits (sign (c :: cs)).fst <|
          digitsValue <| (sign (c :: cs)).snd.takeWhile isdigit).value? := by
  by_cases h₁ : c = '-'.toUInt8
  case pos =>
    subst h₁
    exact ends_signed
  by_cases h₂ : c = '+'.toUInt8
  case pos =>
    subst h₂
    exact ends_signed
  by_cases hd : isdigit c
  case pos =>
    rw [sign_digit hd]
    refine ⟨.digits false <| digitsValue <| c :: cs.takeWhile isdigit, ?_, by simp [hd]⟩
    simp [Scan.ends?, Scan.next, hs, h₁, h₂, hd, ends_first]
  case neg =>
    have hn : sign (c :: cs) = (false, c :: cs) := by
      have h₁ : c ≠ 45 := h₁
      have h₂ : c ≠ 43 := h₂
      simp [sign, h₁, h₂]
    rw [hn]
    exact ⟨.blanks, by simp [Scan.ends?, Scan.next, hs, h₁, h₂, hd], by simp [hd, Scan.value?]⟩

-- A line of blanks leaves the scan as it was, every other line ends it.
theorem ends_blanks (cs : List UInt8) :
    (Scan.blanks.ends? cs = none ∧ ∀ c ∈ cs, isspace c) ∨
      ∃ scan, Scan.blanks.ends? cs = some scan ∧ scan.value? = found? cs ∧
        ∃ c ∈ cs, isspace c = false := by
  induction cs
  case nil => exact .inl ⟨rfl, by simp⟩
  case cons c cs hi =>
    by_cases hs : isspace c
    case pos =>
      have he : Scan.blanks.ends? (c :: cs) = Scan.blanks.ends? cs := by
        simp [Scan.ends?, Scan.next, hs]
      have hf : found? (c :: cs) = found? cs := by simp [found?, hs]
      rw [he, hf]
      refine hi.imp ?_ ?_
      case refine_1 => exact fun h => ⟨h.left, List.forall_mem_cons.mpr ⟨hs, h.right⟩⟩
      case refine_2 =>
        rintro ⟨scan, h, hv, d, hd, hn⟩
        exact ⟨scan, h, hv, d, List.mem_cons_of_mem _ hd, hn⟩
    case neg =>
      have hs : isspace c = false := by simpa using hs
      obtain ⟨scan, h, hv⟩ := ends_visible cs hs
      exact .inr ⟨scan, h, by simp [hv, found?, hs], c, List.mem_cons_self, hs⟩

end Scan

namespace State

theorem keys_cons : s.keys (c :: cs) = (s.key (some c)).bind (·.keys cs) :=
  List.foldlM_cons

theorem keys_append {ds : List UInt8} : s.keys (cs ++ ds) = (s.keys cs).bind (·.keys ds) :=
  List.foldlM_append

theorem typed_append {rounds : List Line} :
    s.typed (lines ++ rounds) = (s.typed lines).bind (·.typed rounds) := by
  simp only [typed, List.flatMap_append, keys_append]

-- A `clear` reads up to the newline.
theorem keys_clear (hk : ∀ c, s.key c = some (s.clear c)) (hn : '\n'.toUInt8 ∉ cs) :
    s.keys (cs ++ ['\n'.toUInt8]) = some (s.clear <| some '\n'.toUInt8) := by
  induction cs
  case nil => simp [keys, hk]
  case cons c cs hi =>
    have ⟨hc, hn⟩ := not_or.mp <| mt List.mem_cons.mpr hn
    have hs : s.clear (some c) = s := if_neg (Ne.symm hc)
    rw [List.cons_append, keys_cons, hk, Option.bind_some, hs, hi hn]

theorem keys_choose (hpc : s.pc = .choose shop) (hn : '\n'.toUInt8 ∉ cs) :
    s.keys (c :: cs ++ ['\n'.toUInt8]) = some ((s.goto <| .chooseClear shop c).chosen shop c) := by
  have hk : s.key (some c) = some (s.goto <| .chooseClear shop c) := by simp [key, hpc]
  rw [List.cons_append, keys_cons, hk, Option.bind_some, keys_clear (fun _ => rfl) hn]
  rfl

-- `scanf` reads up to the byte at which the scan ends, and the `clear` behind it reads the rest of
-- the line. A line of blanks is not enough.
theorem keys_howMany (hpc : s.pc = .howMany shop item scan) (hn : '\n'.toUInt8 ∉ cs) :
    s.keys (cs ++ ['\n'.toUInt8]) = some
      (match scan.ends? cs with
      | some scan => (s.bill shop item scan).goto <| .choose shop
      | none      => s.goto <| .howMany shop item .blanks) := by
  induction cs generalizing s scan
  case nil =>
    cases scan
    case blanks =>
      have hx : Scan.blanks.next '\n'.toUInt8 = some .blanks := by decide
      simp [keys, key, hpc, hx, Scan.ends?]
    case signed => simp [keys, key, hpc, Scan.next, Scan.ends?, isdigit]; rfl
    case digits => simp [keys, key, hpc, Scan.next, Scan.ends?, isdigit]; rfl
  case cons c cs hi =>
    have ⟨hc, hn⟩ := not_or.mp <| mt List.mem_cons.mpr hn
    cases hs : scan.next c
    case some scan' =>
      have hk : s.key (some c) = some (s.goto <| .howMany shop item scan') := by
        simp [key, hpc, hs]
      rw [List.cons_append, keys_cons, hk, Option.bind_some, hi rfl hn, Scan.ends?, hs]
      rfl
    case none =>
      have hk : s.key (some c) = some (s.bill shop item scan) := by
        have hb : (s.bill shop item scan).clear (some c) = s.bill shop item scan :=
          if_neg (Ne.symm hc)
        simp [key, hpc, hs, hb]
      rw [List.cons_append, keys_cons, hk, Option.bind_some, keys_clear (fun _ => rfl) hn,
        Scan.ends?, hs]
      rfl

-- What the lines of a dialogue do to a shop.
section Lines

theorem typed_singleton : s.typed [line] = s.keys (line.text ++ ['\n'.toUInt8]) := by
  simp [typed]

-- A choice has a first byte, and only that matters.
theorem typed_choice (hpc : s.pc = .choose shop) (hc : line.text.head? = some c) :
    s.typed [line] = some ((s.goto <| .chooseClear shop c).chosen shop c) := by
  obtain ⟨cs, hn⟩ := line
  obtain ⟨rest, rfl⟩ := List.head?_eq_some_iff.mp hc
  rw [typed_singleton]
  exact keys_choose hpc fun h => hn <| List.mem_cons_of_mem _ h

theorem typed_item (hpc : s.pc = .choose shop) (hi : line.item? = some item) :
    s.typed [line] = some (s.goto <| .howMany shop item .blanks) := by
  unfold Line.item? at hi
  split at hi
  case isTrue h => cases hi; exact typed_choice hpc h
  split at hi
  case isTrue h  => cases hi; exact typed_choice hpc h
  case isFalse => contradiction

-- A line that chooses nothing is not enough. An empty one is taken for a choice by itself, behind
-- which the rest of a line is read.
theorem typed_other (hpc : s.pc = .choose shop) (hi : line.item? = none)
    (hl : ¬(line.confirms ∨ line.cancels)) :
    ∃ s', s.typed [line] = some s' ∧ s'.pc ≠ .choose shop := by
  cases hc : line.text.head?
  case none =>
    have ht : line.text = [] := List.head?_eq_none_iff.mp hc
    refine ⟨s.goto <| .chooseClear shop '\n'.toUInt8, ?_, by simp [goto]⟩
    simp [typed_singleton, ht, keys, key, hpc]
  case some c =>
    refine ⟨_, typed_choice hpc hc, ?_⟩
    have h₁ : c ≠ '1'.toUInt8 := by rintro rfl; simp [Line.item?, hc] at hi
    have h₂ : c ≠ '2'.toUInt8 := by rintro rfl; simp [Line.item?, hc, h₁] at hi
    have h₃ : c ≠ '3'.toUInt8 := by rintro rfl; simp [Line.confirms, hc] at hl
    have h₄ : c ≠ '4'.toUInt8 := by rintro rfl; simp [Line.cancels, hc] at hl
    simp [chosen, h₁, h₂, h₃, h₄, goto]

-- A round is complete with a quantity that is no line of blanks.
theorem typed_round (hpc : s.pc = .choose shop) (hi : line.item? = some item) {number : UInt32}
    (hn : number = (found? quantity.text).getD s.number) :
    ((∀ c ∈ quantity.text, isspace c) ∧
      s.typed [line, quantity] = some (s.goto <| .howMany shop item .blanks)) ∨
    ((∃ c ∈ quantity.text, isspace c = false) ∧ s.typed [line, quantity] = some
      { s with number, price := s.price + unitPrice shop item * number, pc := .choose shop }) := by
  have ht : s.typed [line, quantity] = (s.typed [line]).bind (·.typed [quantity]) :=
    @typed_append s [line] [quantity]
  rw [ht, typed_item hpc hi, Option.bind_some, typed_singleton, keys_howMany rfl quantity.plain, hn]
  rcases ends_blanks quantity.text with ⟨he, hb⟩ | ⟨scan, he, hv, hb⟩
  case inl => rw [he]; exact .inl ⟨hb, rfl⟩
  case inr => rw [he, ← hv]; exact .inr ⟨hb, rfl⟩

theorem typed_last {last : Line} (hpc : s.pc = .choose shop)
    (hl : last.confirms ∨ last.cancels) : ∃ s', s.typed [last] = some s' ∧
      s'.Returned (if last.cancels then 0 else s.price) := by
  have hr (t : State) (price : UInt32) : (t.leave shop price).Returned price := by
    unfold leave finish
    split
    case isTrue    => exact ⟨.inr rfl, rfl⟩
    case isFalse h => exact ⟨.inl rfl, (not_not.mp h).symm⟩
  by_cases hc : last.cancels
  case pos =>
    rw [if_pos hc]
    exact ⟨_, typed_choice hpc (of_decide_eq_true hc), hr (s.goto <| .chooseClear shop _) 0⟩
  case neg =>
    have hc' := of_decide_eq_true <| hl.resolve_right hc
    rw [if_neg hc]
    exact ⟨_, typed_choice hpc hc', hr (s.goto <| .chooseClear shop _) s.price⟩

end Lines

end State

-- `%u` finds the quantity that a line starts with, if it is not too large.
theorem found?_of_quantity (h : quantity.quantity? = some n) :
    found? quantity.text = (Scan.digits false n).value? := by
  simp only [Line.quantity?] at h
  split at h
  case isTrue     => contradiction
  case isFalse hd =>
    cases h
    cases hq : quantity.text
    case nil => simp [hq] at hd
    case cons c cs =>
      have hc : isdigit c := by
        by_contra hc
        simp [hq, hc] at hd
      simp [found?, isspace_of_isdigit hc, sign_digit hc, hc]

theorem counts_iff {price number : UInt32} (hv : ∃ c ∈ quantity.text, isspace c = false) :
    Counts price (some number) quantity ↔
      price * (found? quantity.text).getD number = price * .ofNat (quantity.quantity?.getD 0) := by
  have ho : (found? quantity.text).or (some number) =
      some ((found? quantity.text).getD number) := Option.or_some
  cases hq : quantity.quantity?
  case none =>
    have hz : price * .ofNat ((none : Option ℕ).getD 0) = 0 := UInt32.mul_zero
    rw [hz]
    constructor
    case mp =>
      intro h
      obtain ⟨m, hm, hp⟩ := h.missing hq
      rw [ho] at hm
      cases hm
      exact hp
    case mpr => exact fun h => ⟨hv, by simp [hq], fun _ => ⟨_, ho, h⟩⟩
  case some n =>
    have hs : Counts price (some number) quantity ↔
        n < 2 ^ 64 ∨ price * (.ofNat n + 1) = 0 :=
      ⟨fun h => h.small n hq, fun h => ⟨hv, by simpa [hq] using h, by simp [hq]⟩⟩
    rw [hs, found?_of_quantity hq]
    by_cases hl : 2 ^ 64 ≤ n
    case pos =>
      have hm : UInt32.ofNat (2 ^ 64 - 1) = -1 := by decide
      simp only [Scan.value?, if_pos hl, hm, Option.getD_some, not_lt.mpr hl, false_or]
      grind
    case neg =>
      simp only [Scan.value?, if_neg hl, not_le.mp hl, Bool.false_eq_true, if_false,
        Option.getD_some, true_or]

-- From a state in which a shop waits for a choice, the lines are billed round by round.
def Follows (s : State) (shop : Shop) (lines : List Line) : Prop :=
  ∀ rounds price, rounds <+: lines → asked shop rounds = some price →
    ∃ s', s.typed rounds = some s' ∧ s'.pc = .choose shop ∧ s'.price = s.price + price

section Asked

theorem asked_other (hl : ¬(line.confirms ∨ line.cancels)) (hi : line.item? = none) :
    asked shop (line :: lines) = asked shop lines := by
  simp [asked, hl, hi]

theorem asked_item (hl : ¬(line.confirms ∨ line.cancels)) (hi : line.item? = some item) :
    asked shop (line :: quantity :: lines) =
      (asked shop lines).map
        (unitPrice shop item * .ofNat (quantity.quantity?.getD 0) + ·) := by
  simp [asked, hl, hi]

theorem asked_stop (hi : line.item? = some item) : asked shop [line] = none := by
  simp [asked, hi]

theorem careful_other {number : Option UInt32} (hi : line.item? = none) :
    ¬Careful shop number (line :: lines) := by
  simp [Careful, hi]

theorem careful_item {number : Option UInt32} (hi : line.item? = some item) :
    Careful shop number (line :: quantity :: lines) ↔
      Counts (unitPrice shop item) number quantity ∧
        Careful shop ((found? quantity.text).or number) lines := by
  simp [Careful, hi]

end Asked

-- One round: the number that the shop takes costs what the quantity costs, and the next rounds
-- start from there.
theorem follows_item (hpc : s.pc = .choose shop) (hl : ¬(line.confirms ∨ line.cancels))
    (hi : line.item? = some item) {number : UInt32}
    (hn : number = (found? quantity.text).getD s.number) :
    Follows s shop (line :: quantity :: lines) ↔
      (∃ c ∈ quantity.text, isspace c = false) ∧
      unitPrice shop item * number =
        unitPrice shop item * .ofNat (quantity.quantity?.getD 0) ∧
      Follows { s with number, price := s.price + unitPrice shop item * number, pc := .choose shop }
        shop lines := by
  have ht (rounds : List Line) : s.typed (line :: quantity :: rounds) =
      (s.typed [line, quantity]).bind (·.typed rounds) :=
    @State.typed_append s [line, quantity] rounds
  constructor
  case mp =>
    intro h
    have ha : asked shop [line, quantity] =
        some (unitPrice shop item * .ofNat (quantity.quantity?.getD 0) + 0) := by
      rw [asked_item hl hi]
      rfl
    obtain ⟨s', hs, hpc', hp⟩ := h _ _ (List.prefix_append [line, quantity] lines) ha
    rcases State.typed_round hpc hi hn with ⟨-, hq⟩ | ⟨hv, hq⟩
    case inl =>
      cases hs.symm.trans hq
      contradiction
    case inr =>
      cases hs.symm.trans hq
      have he : unitPrice shop item * number =
          unitPrice shop item * .ofNat (quantity.quantity?.getD 0) := by simpa using hp
      refine ⟨hv, he, fun rounds price hr ha => ?_⟩
      have ha' : asked shop (line :: quantity :: rounds) = some
          (unitPrice shop item * .ofNat (quantity.quantity?.getD 0) + price) := by
        rw [asked_item hl hi, ha]
        rfl
      have hr' := (List.prefix_append_right_inj [line, quantity]).mpr hr
      obtain ⟨s', hs, hpc', hp⟩ := h _ _ hr' ha'
      have hs := (ht rounds).symm.trans hs
      rw [hq] at hs
      exact ⟨s', hs, hpc', by rw [hp, he, UInt32.add_assoc]⟩
  case mpr =>
    rintro ⟨hv, he, h⟩ rounds price hr ha
    have hq := (State.typed_round hpc hi hn).resolve_left fun hq => by
      obtain ⟨c, hc, hs⟩ := hv
      simp [hq.left c hc] at hs
    match rounds with
    | [] => exact ⟨s, rfl, hpc, by cases ha; simp⟩
    | [_] =>
      obtain ⟨rfl, -⟩ := List.cons_prefix_cons.mp hr
      simp [asked_stop hi] at ha
    | _ :: _ :: rounds =>
      obtain ⟨rfl, hr₁⟩ := List.cons_prefix_cons.mp hr
      obtain ⟨rfl, hr₂⟩ := List.cons_prefix_cons.mp hr₁
      rw [asked_item hl hi] at ha
      obtain ⟨price, ha₁, rfl⟩ := Option.map_eq_some_iff.mp ha
      obtain ⟨s', hs, hpc', hp⟩ := h rounds price hr₂ ha₁
      rw [ht, hq.right]
      exact ⟨s', hs, hpc', by rw [hp, he, UInt32.add_assoc]⟩

theorem follows_iff {price : UInt32} (hpc : s.pc = .choose shop)
    (ha : asked shop lines = some price) :
    Follows s shop lines ↔ Careful shop (some s.number) lines := by
  fun_induction asked shop lines generalizing s price
  case case1 =>
    refine iff_of_true (fun rounds price hr ha => ?_) trivial
    cases List.prefix_nil.mp hr
    cases ha
    exact ⟨s, rfl, hpc, by simp⟩
  case case2 => contradiction
  case case3 line hl lines hi _ =>
    refine iff_of_false (fun h => ?_) (careful_other hi)
    have ha : asked shop [line] = some 0 := asked_other hl hi
    obtain ⟨s', hs, hpc', -⟩ := h _ _ (List.prefix_append [line] lines) ha
    obtain ⟨t, ht, hn⟩ := State.typed_other hpc hi hl
    cases hs.symm.trans ht
    contradiction
  case case4 => contradiction
  case case5 line hl item quantity lines hi ih =>
    obtain ⟨price, ha, -⟩ := Option.map_eq_some_iff.mp ha
    rw [follows_item hpc hl hi rfl, careful_item hi, ih rfl ha, Option.or_some]
    constructor
    case mp  => exact fun h => ⟨(counts_iff h.left).mpr h.right.left, h.right.right⟩
    case mpr =>
      exact fun h => ⟨h.left.visible, (counts_iff h.left.visible).mp h.left, h.right⟩

theorem unitPrice_ne_zero (shop : Shop) (item : Item) : unitPrice shop item ≠ 0 := by
  cases shop <;> cases item <;> decide

-- The first number has to be found, as nobody knows what the variable holds before.
theorem careful_none : Careful shop none lines ↔ ∀ number, Careful shop (some number) lines := by
  cases lines
  case nil => simp [Careful]
  case cons line lines =>
    cases hi : line.item?
    case none => exact iff_of_false (careful_other hi) fun h => careful_other hi (h 0)
    case some item =>
      cases lines
      case nil => simp [Careful, hi]
      case cons quantity lines =>
        simp only [careful_item hi]
        cases hf : found? quantity.text
        case some n =>
          have hc (number : Option UInt32) : Counts (unitPrice shop item) number quantity ↔
              Counts (unitPrice shop item) none quantity := by
            constructor
            case mp  => exact fun h => ⟨h.visible, h.small, by simpa [hf] using h.missing⟩
            case mpr => exact fun h => ⟨h.visible, h.small, by simpa [hf] using h.missing⟩
          simp [hc]
        case none =>
          have hq : quantity.quantity? = none := by
            by_contra hq
            obtain ⟨n, hq⟩ := Option.ne_none_iff_exists'.mp hq
            have hv := found?_of_quantity hq
            rw [hf] at hv
            simp only [Scan.value?, Bool.false_eq_true, if_false] at hv
            split at hv <;> contradiction
          refine iff_of_false (fun h => ?_) fun h => ?_
          case refine_1 =>
            obtain ⟨n, hn, -⟩ := h.left.missing hq
            simp [hf] at hn
          case refine_2 =>
            obtain ⟨n, hn, hp⟩ := (h 1).left.missing hq
            simp only [hf, Option.none_or, Option.mem_def, Option.some.injEq] at hn
            subst hn
            exact unitPrice_ne_zero shop item (by simpa using hp)

-- A shop is entered without a price.
theorem Calls.price (h : Calls s shop) : s.price = 0 := by
  obtain ⟨distance, ⟨e⟩⟩ := h.reached
  have hs : s.Cleared := e.invariant (C := fun _ _ => True) (fun _ => rfl)
    (fun s a s' hs _ h => by
      cases Move.of_step hs h
      case quiet hp  => exact hp
      case bill hp _ => exact hp) e.allSteps_true
  exact hs <| by simp [h.pc, Pc.idle]

theorem exists_calls (shop : Shop) : ∃ s, Calls s shop := by
  have h (keys : String) (hk : (hw1.exec (fun _ _ => true) (.initial 0) <|
      (ascii keys).map (.key <| some ·)).map (fun s => decide (s.pc = .enter shop)) = some true) :
      ∃ s, Calls s shop := by
    obtain ⟨s, e, -, hs⟩ := Machine.Run.exists_of_exec _ _ _ _ _ hk
    exact ⟨s, of_decide_eq_true hs, 0, ⟨e⟩⟩
  cases shop
  case dessert  => exact h "2\n1\n" (by decide)
  case beverage => exact h "2\n2\n" (by decide)
  case diner    => exact h "2\n3\n" (by decide)

-- A dialogue is billed as it has been asked for if and only if the customer is careful.
theorem bills_iff_careful {price : UInt32} {last : Line} (ha : asked shop lines = some price)
    (hl : last.confirms ∨ last.cancels) : Bills shop lines last ↔ Careful shop none lines := by
  rw [careful_none]
  constructor
  case mp =>
    intro hb number
    obtain ⟨s, hs⟩ := exists_calls shop
    have hf : Follows (s.entered shop number) shop lines := by
      intro rounds price hr ha
      obtain ⟨s', ht, hpc, hp⟩ := (hb s number hs).left rounds price hr ha
      exact ⟨s', ht, hpc, by simp [State.entered, hs.price, hp]⟩
    exact (follows_iff rfl ha).mp hf
  case mpr =>
    intro hc s number hs
    have hf := (follows_iff (s := s.entered shop number) rfl ha).mpr (hc number)
    have hr : ∀ rounds price, rounds <+: lines → asked shop rounds = some price →
        ∃ s', (s.entered shop number).typed rounds = some s' ∧ s'.pc = .choose shop ∧
          s'.price = price := by
      intro rounds price hr ha
      obtain ⟨s', ht, hpc, hp⟩ := hf rounds price hr ha
      exact ⟨s', ht, hpc, by simpa [State.entered, hs.price] using hp⟩
    refine ⟨hr, fun price ha => ?_⟩
    obtain ⟨s', ht, hpc, rfl⟩ := hr lines price List.prefix_rfl ha
    obtain ⟨t, ht', hr'⟩ := State.typed_last hpc hl
    exact ⟨t, by rw [State.typed_append, ht, Option.bind_some, ht'], hr'⟩

-- The lines of a customer.
def first : Line := ⟨ascii "1", by decide⟩

def five : Line := ⟨ascii "5", by decide⟩

def many : Line := ⟨ascii "many", by decide⟩

def confirm : Line := ⟨ascii "3", by decide⟩

theorem bills_iff_careful_five :
    Bills .dessert [first, five] confirm ↔ Careful .dessert none [first, five] :=
  bills_iff_careful (show asked .dessert [first, five] = some 300 by decide) (.inl rfl)

-- Five cookies, and then a word instead of a number, are billed as ten cookies.
theorem bills_broken : ¬ ∀ (shop : Shop) (lines : List Line) (price : UInt32) (last : Line),
    asked shop lines = some price → (last.confirms ∨ last.cancels) → Bills shop lines last := by
  intro h
  obtain ⟨s, hs⟩ := exists_calls .dessert
  have ha : asked .dessert [first, five, first, many] = some 300 := by decide
  obtain ⟨s', ht, -, hp⟩ := (h _ _ _ confirm ha (.inl rfl) s 0 hs).right 300 ha
  let s₁ : State :=
    { s with number := 5, price := s.price + 60 * 5 + 60 * 5, pc := .choose .dessert }
  have hb : (s.entered .dessert 0).typed [first, five, first, many] = some s₁ := rfl
  have hc : confirm.confirms ∨ confirm.cancels := .inl rfl
  obtain ⟨s₂, ht₂, -, hp₂⟩ := State.typed_last (show s₁.pc = .choose .dessert from rfl) hc
  rw [State.typed_append, hb, Option.bind_some, ht₂] at ht
  cases ht
  rw [hp] at hp₂
  simp only [s₁, hs.price] at hp₂
  exact absurd hp₂ (by decide)

end Hw1
