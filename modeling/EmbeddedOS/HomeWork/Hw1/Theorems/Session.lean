import EmbeddedOS.HomeWork.Hw1.Session
import EmbeddedOS.HomeWork.Hw1.Theorems.Bill
import EmbeddedOS.HomeWork.Hw1.Theorems.Shown

open C Delivery

namespace Hw1

-- The board between two orders.
def rest : Frame where
  leds     := firstLeds 0
  segments := blank

variable {pins : Pins} {s s' : State} {shop : Shop} {number : UInt32} {choices : Choices}
variable {item : Item} {n k : ℕ} {ds : List UInt8} {r : Reader} {bills : List (ℕ × List UInt8)}

-- What the display shows behind a price.
def shown (c : UInt8) : Frame where
  leds     := firstLeds 0
  segments := row c

section Pins

theorem look_configure (pins : Pins) : look (after pins configure) = rest := by
  have hc : configure = List.zipWith .gpioSetValue gpio (firstLeds 0) ++
      List.zipWith .gpioSetValue gpioDisplay blank := rfl
  have hg : gpio.map (after pins <| List.zipWith .gpioSetValue gpio (firstLeds 0)) = firstLeds 0 :=
    map_after_zipWith (by simp [gpio]) rfl
  rw [hc, after_append, look_segments _ (by rfl)]
  exact congrArg (Frame.mk · blank) hg

theorem look_etxRelease (h : (look pins).leds = firstLeds 0) :
    look (after pins etxRelease) = rest ∧ frames pins etxRelease = [] := by
  have hb : etxRelease = List.zipWith .gpioSetValue gpioDisplay blank := rfl
  rw [hb, look_segments pins (by rfl), h]
  exact ⟨rfl, frames_zipWith⟩

theorem look_display {c : UInt8} {events : List Event} (h : isdigit c)
    (hd : display c = some events) : (look (after pins events)).segments = row c := by
  cases (display_of_isdigit h).symm.trans hd
  have ha : ∀ (pins : Pins) ms, after pins [.mdelay ms] = pins := fun _ _ => rfl
  have hr := look_segments (after pins <| List.zipWith .gpioSetValue gpioDisplay blank)
    (row_length h)
  simp only [after_append, ha, hr]

theorem look_displays {digits : List (List Event)} (hd : ∀ c ∈ ds, isdigit c) (hn : ds ≠ [])
    (hm : ds.mapM display = some digits) :
    (look (after pins digits.flatten)).segments = row (ds.getLast hn) := by
  induction ds generalizing pins digits
  case nil => exact absurd rfl hn
  case cons c ds ih =>
    have ⟨hc, hd⟩ := List.forall_mem_cons.mp hd
    rw [List.mapM_cons] at hm
    obtain ⟨events, he, h⟩ := Option.bind_eq_some_iff.mp hm
    obtain ⟨digits', hm', h⟩ := Option.bind_eq_some_iff.mp h
    cases h
    rw [List.flatten_cons, after_append]
    by_cases hds : ds = []
    case pos =>
      subst hds
      cases hm'
      have hs : (look (after pins events)).segments = row c := look_display hc he
      exact hs
    case neg => rw [ih hd hds hm', List.getLast_cons hds]

-- The last digit of a price stays.
theorem look_etxWrite {events : List Event} (hl : (distance shop :: ds).length ≤ 100)
    (hd : ∀ c ∈ ds, isdigit c) (hn : ds ≠ []) (hp : (look pins).leds = firstLeds 0)
    (he : etxWrite (distance shop :: ds) = some events) :
    look (after pins events) = shown (ds.getLast hn) := by
  obtain ⟨events', he', _, ho⟩ := frames_etxWrite hl hd hp
  obtain rfl := Option.some.inj (he'.symm.trans he)
  obtain ⟨digits, hm, _⟩ := frames_displays hd hp
  obtain rfl := Option.some.inj ((etxWrite_eq hl hm).symm.trans he)
  rw [after_append] at ho ⊢
  exact Frame.mk.injEq .. ▸ ⟨ho, look_displays hd hn hm⟩

end Pins

-- What is written down of a bill.
namespace Reader

theorem look_rest : r.look rest = some { r with last := rest } := by
  unfold look
  split
  case isTrue h => rw [← h]
  case isFalse  => rfl

theorem look_replicate (hr : r.last = some rest) (k : ℕ) :
    (List.replicate k rest).foldlM look r = some r := by
  induction k
  case zero      => rfl
  case succ k ih => rw [List.replicate_succ, List.foldlM_cons, look, if_pos hr]; exact ih

theorem look_shown {c : UInt8} (hc : isdigit c) (hr : r.last = some rest)
    (hb : r.bills = (k, ds) :: bills) :
    r.look (shown c) = some { last := shown c, bills := (k, ds ++ [c]) :: bills } := by
  have hn : rest ≠ shown c := fun h => row_ne_blank hc (congrArg Frame.segments h).symm
  have hl : (shown c).lit = false := by simp [Frame.lit, shown, firstLeds]
  have hs : (shown c).segments ≠ blank := row_ne_blank hc
  have hd : digit? (shown c).segments = some c := digit?_row hc
  simp [look, hr, hn, hl, hs, hb, hd]

theorem look_digits (hd : ∀ c ∈ ds, isdigit c) {first : List UInt8}
    (hb : r.bills = (k, first) :: bills) : ∃ last,
    (ds.flatMap digitFrames).foldlM look r =
      some { last, bills := (k, first ++ ds) :: bills } ∧
    (ds = [] → last = r.last) ∧ ∀ hn : ds ≠ [], last = some (shown (ds.getLast hn)) := by
  induction ds generalizing r first
  case nil => exact ⟨r.last, by simp [← hb], fun _ => rfl, fun h => absurd rfl h⟩
  case cons c ds ih =>
    have ⟨hc, hd⟩ := List.forall_mem_cons.mp hd
    let r' : Reader := { last := shown c, bills := (k, first ++ [c]) :: bills }
    obtain ⟨last, hf, hz, hl⟩ := ih (r := r') hd rfl
    have hr : r.look rest = some { r with last := rest } := look_rest
    have hs := look_shown (r := { r with last := rest }) hc rfl hb
    have he : digitFrames c = [rest, shown c] := rfl
    refine ⟨last, ?_, nofun, fun hn => ?_⟩
    case refine_1 =>
      rw [List.flatMap_cons, he, List.cons_append, List.cons_append, List.nil_append,
        List.foldlM_cons, hr, Option.bind_eq_bind, Option.bind_some, List.foldlM_cons, hs,
        Option.bind_eq_bind, Option.bind_some, hf, List.append_assoc, List.singleton_append]
    case refine_2 =>
      by_cases hds : ds = []
      case pos =>
        subst hds
        exact hz rfl
      case neg => rw [hl hds, List.getLast_cons hds]

-- The LEDs that go out belong to the bill that has been started.
theorem look_distance {segments : List UInt8} (hn : n < 8)
    (hr : r.last = some { leds := firstLeds (n + 1), segments }) :
    (distanceFrames n segments).foldlM look r =
      some { r with last := some { leds := firstLeds 1, segments } } := by
  induction n generalizing r
  case zero => exact congrArg some (by rw [← hr])
  case succ n ih =>
    have hlit : ∀ k, Frame.lit { leds := firstLeds (k + 1), segments } = true := by
      simp [Frame.lit, firstLeds]
    have hne := firstLeds_ne (n + 1) hn
    let f : Frame := { leds := firstLeds (n + 1), segments }
    have hs : r.look f = some { r with last := some f } := by simp [look, f, hr, hne, hlit]
    rw [distanceFrames_succ, List.foldlM_cons, hs]
    exact ih (by omega) rfl

theorem look_start {segments : List UInt8} (hn : n < 8) (hr : r.last = some rest) :
    (distanceFrames (n + 1) segments).foldlM look r =
      some { last := some { leds := firstLeds 1, segments }, bills := (n + 1, []) :: r.bills } := by
  let f : Frame := { leds := firstLeds (n + 1), segments }
  have hlit : f.lit = true := by simp [f, Frame.lit, firstLeds]
  have hoff : rest.lit = false := by decide
  have hne : rest ≠ f := by
    intro h
    rw [← h, hoff] at hlit
    contradiction
  have hc : f.leds.count 1 = n + 1 := firstLeds_count (n + 1) hn
  have hs : r.look f = some { last := some f, bills := (n + 1, []) :: r.bills } := by
    simp [look, hr, hne, hlit, hoff, hc]
  rw [distanceFrames_succ, List.foldlM_cons, hs]
  exact look_distance hn rfl

-- A whole order: the bill, the last digit that stays until the meal is picked up, and the board at
-- rest.
theorem look_bill (hk : 0 < k) (hk' : k ≤ 8) (hd : ∀ c ∈ ds, isdigit c) (hn : ds ≠ [])
    (hr : r.last = some rest) :
    (distanceFrames k blank ++ ds.flatMap digitFrames ++ [shown (ds.getLast hn), rest]).foldlM
      look r = some { last := some rest, bills := (k, ds) :: r.bills } := by
  obtain ⟨j, rfl⟩ := Nat.exists_eq_add_of_le' hk
  have hb : Reader.bills {
      last  := some { leds := firstLeds 1, segments := blank }
      bills := (j + 1, []) :: r.bills } = (j + 1, []) :: r.bills := rfl
  obtain ⟨last, hf, _, hl⟩ := look_digits hd hb
  rw [List.foldlM_append, List.foldlM_append, look_start hk' hr]
  simp only [Option.bind_eq_bind, Option.bind_some, hf, hl hn, List.nil_append, List.foldlM_cons,
    List.foldlM_nil]
  rw [look, if_pos rfl, Option.bind_some, look_rest]
  rfl

end Reader

-- What the program does in a dialogue.
section Dialogue

-- The program alone.
def State.inputs (s : State) (xs : List Input) : Option State :=
  xs.foldlM hw1.step s

theorem State.inputs_append (xs ys : List Input) :
    s.inputs (xs ++ ys) = (s.inputs xs).bind (·.inputs ys) :=
  List.foldlM_append

theorem State.inputs_line (text : List UInt8) :
    s.inputs (line text) = s.keys (text ++ ['\n'.toUInt8]) := by
  rw [inputs, line, List.foldlM_map]
  rfl

theorem newline_not_mem_numeral (n : ℕ) : '\n'.toUInt8 ∉ numeral n :=
  fun h => absurd (isdigit_of_mem_numeral _ h) (by decide)

theorem found?_numeral (h : n < 2 ^ 64) : found? (numeral n) = some (.ofNat n) := by
  have hd : (numeral n).takeWhile isdigit = numeral n :=
    List.takeWhile_eq_self_iff.mpr isdigit_of_mem_numeral
  have hq : (Line.mk (numeral n) (newline_not_mem_numeral n)).quantity? = some n := by
    simp [Line.quantity?, hd, numeral_ne_nil, digitsValue_numeral]
  rw [found?_of_quantity hq, Scan.value?, if_neg (not_le.mpr h)]
  rfl

-- The two lines of a choice add what it costs.
theorem inputs_choice (item : Item) (n : ℕ) (hpc : s.pc = .choose shop) :
    ∃ s', s.inputs (line (ascii (itemKey item)) ++ line (numeral n)) = some s' ∧
      s'.pc = .choose shop ∧ s'.written = s.written ∧ s'.distance = s.distance ∧
      (n < 2 ^ 64 → s'.price = s.price + unitPrice shop item * .ofNat n) := by
  let choice : Line := ⟨ascii (itemKey item), by cases item <;> decide⟩
  let quantity : Line := ⟨numeral n, newline_not_mem_numeral n⟩
  have ht : s.inputs (line (ascii (itemKey item)) ++ line (numeral n)) =
      s.typed [choice, quantity] := by
    have hl : [choice, quantity].flatMap (·.text ++ ['\n'.toUInt8]) =
        (choice.text ++ ['\n'.toUInt8]) ++ (quantity.text ++ ['\n'.toUInt8]) := by simp
    rw [State.typed, hl, State.keys_append, State.inputs_append, State.inputs_line]
    exact congrArg _ (funext fun s => State.inputs_line _)
  have hi : choice.item? = some item := by cases item <;> rfl
  have hv : ¬∀ c ∈ quantity.text, isspace c := by
    obtain ⟨c, hc⟩ := List.exists_mem_of_ne_nil _ (numeral_ne_nil n)
    intro h
    have hs := isspace_of_isdigit (isdigit_of_mem_numeral c hc)
    exact absurd (h c hc) (by simp [hs])
  have hr := ((State.typed_round hpc hi rfl).resolve_left fun h => hv h.left).right
  refine ⟨_, ht.trans hr, rfl, rfl, rfl, fun hn => ?_⟩
  simp [quantity, found?_numeral hn]

theorem inputs_choices (choices : Choices) (hpc : s.pc = .choose shop) :
    ∃ s', s.inputs (choices.flatMap fun (item, n) => line (ascii (itemKey item)) ++
        line (numeral n)) = some s' ∧
      s'.pc = .choose shop ∧ s'.written = s.written ∧
      ((∀ c ∈ choices, c.2 < 2 ^ 64) → s'.price = s.price + .ofNat (cost shop choices)) := by
  induction choices generalizing s
  case nil => exact ⟨s, rfl, hpc, rfl, fun _ => by simp [cost]⟩
  case cons c choices ih =>
    obtain ⟨s₁, hs₁, hpc₁, hw₁, _, hp₁⟩ := inputs_choice c.fst c.snd hpc
    obtain ⟨s₂, hs₂, hpc₂, hw₂, hp₂⟩ := ih hpc₁
    refine ⟨s₂, ?_, hpc₂, hw₂.trans hw₁, fun hc => ?_⟩
    case refine_1 => rw [List.flatMap_cons, State.inputs_append, hs₁, Option.bind_some, hs₂]
    case refine_2 =>
      have ⟨hn, hc⟩ := List.forall_mem_cons.mp hc
      rw [hp₂ hc, hp₁ hn, cost, cost, List.map_cons, List.sum_cons, UInt32.ofNat_add,
        UInt32.ofNat_mul, UInt32.ofNat_toNat, UInt32.add_assoc]

-- From the menu into a shop and through its choices.
theorem inputs_dialogue (shop : Shop) (number : UInt32) (choices : Choices) (hpc : s.pc = .menu)
    (hz : s.price = 0) :
    ∃ s', s.inputs (dialogue shop number choices) = some s' ∧ s'.pc = .choose shop ∧
      s'.written = s.written ∧
      ((∀ c ∈ choices, c.2 < 2 ^ 64) → s'.price = .ofNat (cost shop choices)) := by
  have he : s.inputs (line (ascii "2") ++ line (ascii (shopKey shop)) ++ [.enter number]) =
      some (s.entered shop number) := by
    obtain ⟨_, _, _, _, _⟩ := s
    obtain rfl : _ = Pc.menu := hpc
    cases shop <;> rfl
  have hpc' : (s.entered shop number).pc = .choose shop := rfl
  obtain ⟨s', hs, hpc', hw, hp⟩ := inputs_choices choices hpc'
  refine ⟨s', ?_, hpc', hw, fun hc => ?_⟩
  case refine_1 => rw [dialogue, State.inputs_append, he, Option.bind_some, hs]
  case refine_2 => rw [hp hc, State.entered, hz, UInt32.zero_add]

end Dialogue

theorem Move.written_suffix {a : Input} (h : Move s a s') : s.written <:+ s'.written := by
  cases h
  case quiet hw _ => rw [hw]
  case bill hw    => exact hw ▸ List.suffix_cons _ _

theorem Move.cleared {a : Input} (h : Move s a s') : s'.Cleared := by
  cases h
  case quiet hp  => exact hp
  case bill hp _ => exact hp

theorem State.inputs_cons (x : Input) (xs : List Input) :
    s.inputs (x :: xs) = (hw1.step s x).bind (·.inputs xs) :=
  List.foldlM_cons

theorem written_of_inputs {xs : List Input} (hc : s.Cleared) (h : s.inputs xs = some s') :
    s.written <:+ s'.written ∧ s'.Cleared := by
  induction xs generalizing s
  case nil => cases h; exact ⟨List.suffix_rfl, hc⟩
  case cons x xs ih =>
    rw [State.inputs_cons] at h
    obtain ⟨s₁, hs, h⟩ := Option.bind_eq_some_iff.mp h
    have hm := Move.of_step hc hs
    have ⟨hw, hc'⟩ := ih hm.cleared h
    exact ⟨hm.written_suffix.trans hw, hc'⟩

namespace Session

variable {b b' : Session} {xs ys : List Input}

theorem inputs_append : b.inputs (xs ++ ys) = (b.inputs xs).bind (·.inputs ys) :=
  List.foldlM_append

theorem inputs_cons (x : Input) : b.inputs (x :: xs) = (b.step x).bind (·.inputs xs) :=
  List.foldlM_cons

-- Between two orders the board rests.
structure Rests (b : Session) : Prop where
  cleared : b.state.Cleared
  look    : look b.pins = rest

-- As long as nothing is written there is nothing to be seen.
theorem inputs_quiet (hb : b.Rests) (hx : b.state.inputs xs = some s')
    (hw : s'.written = b.state.written) :
    ∃ b', b.inputs xs = some b' ∧ b'.Rests ∧ b'.state = s' ∧
      b'.seen = b.seen ++ .replicate xs.length rest := by
  induction xs generalizing b
  case nil => cases hx; exact ⟨b, rfl, hb, rfl, by simp⟩
  case cons x xs ih =>
    rw [State.inputs_cons] at hx
    obtain ⟨s₁, hs, hx⟩ := Option.bind_eq_some_iff.mp hx
    have hm := Move.of_step hb.cleared hs
    have hc₁ := hm.cleared
    have hw₁ : b.state.written = s₁.written := by
      refine hm.written_suffix.eq_of_length_le ?_
      rw [← hw]
      exact (written_of_inputs hc₁ hx).left.length_le
    let events := if s₁.pc = .menu then etxRelease else []
    have he : Hw1.look (after b.pins events) = rest ∧ frames b.pins events = [] := by
      simp only [events]
      split
      case isTrue  => exact look_etxRelease (by rw [hb.look]; rfl)
      case isFalse => exact ⟨hb.look, rfl⟩
    have hst : b.step x = some
        { state := s₁, pins := after b.pins events, seen := b.seen ++ [rest] } := by
      simp only [step, hs, Option.bind_some, if_pos hw₁.symm, Option.map_some, List.nil_append]
      rw [he.left, he.right, List.append_nil]
    obtain ⟨b', hi, hr, hs', hseen⟩ :=
      ih (b := ⟨s₁, after b.pins events, b.seen ++ [rest]⟩) ⟨hc₁, he.left⟩ hx (hw.trans hw₁)
    refine ⟨b', by rw [inputs_cons, hst, Option.bind_some, hi], hr, hs', ?_⟩
    rw [hseen, List.append_assoc, List.length_cons, List.replicate_succ]
    rfl

-- The newline of the line that confirms an order: the bill is written, and its last digit stays.
theorem step_confirm (hb : b.Rests) (hpc : b.state.pc = .chooseClear shop '3'.toUInt8)
    (h₁ : 0 < b.state.price.toNat) (h₂ : b.state.price.toNat < 2 ^ 31) :
    ∃ b', b.step (.key <| some '\n'.toUInt8) = some b' ∧ b'.state.pc = .pickUp ∧
      Hw1.look b'.pins = shown ((numeral b.state.price.toNat).getLast <| numeral_ne_nil _) ∧
      b'.seen = b.seen ++ (distanceFrames (km shop) blank ++
        (numeral b.state.price.toNat).flatMap digitFrames) ++ [Hw1.look b'.pins] := by
  let n := b.state.price.toNat
  let s' := b.state.leave shop b.state.price
  have hs : hw1.step b.state (.key <| some '\n'.toUInt8) = some s' := by
    have hne : '3'.toUInt8 ≠ '1'.toUInt8 ∧ '3'.toUInt8 ≠ '2'.toUInt8 := by decide
    simp [hw1, State.step, State.key, State.clear, State.chosen, hpc, hne, s']
  have hz : b.state.price ≠ 0 := by
    rintro h
    simp [h] at h₁
  have hd : decimal (C.int b.state.price.toNat) = numeral n := by
    rw [C.int_eq (by omega) (by omega), decimal_eq, if_neg (by omega), List.nil_append,
      Int.natAbs_natCast]
  have hw : s'.written = (distance shop :: numeral n) :: b.state.written := by
    rw [State.leave_written, if_neg hz, hd]
    rfl
  have hpc' : s'.pc = .pickUp := by simp [s', State.leave, State.finish, hz]
  have hl : (distance shop :: numeral n).length ≤ 100 := by
    have := numeral_length_le (k := 10) (by decide) (by omega : n < 10 ^ 10)
    simp only [List.length_cons]
    omega
  have hp : (Hw1.look b.pins).leds = firstLeds 0 := by rw [hb.look]; rfl
  obtain ⟨events, he, hf, _⟩ := frames_etxWrite hl isdigit_of_mem_numeral hp
  have ha := look_etxWrite hl isdigit_of_mem_numeral (numeral_ne_nil n) hp he
  rw [hb.look] at hf
  have hne : s'.written ≠ b.state.written := by simp [hw]
  refine ⟨⟨s', after b.pins events, b.seen ++ (distanceFrames (km shop) blank ++
    (numeral n).flatMap digitFrames) ++ [Hw1.look (after b.pins events)]⟩, ?_, hpc', ha, rfl⟩
  simp [step, hs, hw, he, hpc', hf, rest]

-- The meal is picked up, and the device is closed.
theorem step_pickUp {c : Option UInt8} (hpc : b.state.pc = .pickUp)
    (hl : (Hw1.look b.pins).leds = firstLeds 0) :
    ∃ b', b.step (.key c) = some b' ∧ b'.Rests ∧ b'.state.pc = .menu ∧
      b'.seen = b.seen ++ [rest] := by
  have hs : hw1.step b.state (.key c) = some b.state.again := by
    simp [hw1, State.step, State.key, hpc]
  obtain ⟨hr, hf⟩ := look_etxRelease hl
  refine ⟨⟨b.state.again, after b.pins etxRelease, b.seen ++ [rest]⟩, ?_, ?_, rfl, rfl⟩
  case refine_1 => simp [step, hs, State.again, hf, hr]
  case refine_2 => exact ⟨State.again_cleared, hr⟩

-- In the menu.
structure Waits (b : Session) : Prop where
  rests : b.Rests
  menu  : b.state.pc = .menu

theorem Waits.price (hb : b.Waits) : b.state.price = 0 :=
  hb.rests.cleared (by simp [hb.menu, Pc.idle])

-- The bills that are written down of what has been seen.
def Reads (b : Session) (bills : List (ℕ × List UInt8)) : Prop :=
  b.seen.foldlM Reader.look ⟨none, []⟩ = some ⟨rest, bills⟩

theorem Reads.quiet (h : b.Reads bills) (hs : b'.seen = b.seen ++ .replicate n rest) :
    b'.Reads bills := by
  rw [Reads, hs, List.foldlM_append, h]
  exact Reader.look_replicate rfl n

theorem Waits.browse (hb : b.Waits) (hr : b.Reads bills) (key : UInt8) :
    ∃ b', b.inputs (Round.browse key).inputs = some b' ∧ b'.Waits ∧ b'.Reads bills := by
  have hi : b.state.inputs (Round.browse key).inputs = some b.state.again := by
    have hz := hb.price
    have hpc := hb.menu
    obtain ⟨⟨_, _, _, _, _⟩, _, _⟩ := b
    obtain rfl : _ = Pc.menu := hpc
    obtain rfl : _ = (0 : UInt32) := hz
    rfl
  obtain ⟨b', hi, hb', hs, hseen⟩ := inputs_quiet hb.rests hi rfl
  exact ⟨b', hi, ⟨hb', by rw [hs]; rfl⟩, hr.quiet hseen⟩

theorem Waits.cancelled (hb : b.Waits) (hr : b.Reads bills) : ∃ b',
    b.inputs (Round.cancelled shop number choices).inputs = some b' ∧ b'.Waits ∧
      b'.Reads bills := by
  obtain ⟨s, hs, hpc, hw, _⟩ := inputs_dialogue shop number choices hb.menu hb.price
  have hl : s.inputs (line (ascii "4")) = some (s.leave shop 0) := by
    have hn : '\n'.toUInt8 ∉ ([] : List UInt8) := List.not_mem_nil
    rw [State.inputs_line]
    exact State.keys_choose hpc hn
  have hf : s.leave shop 0 = { s with price := 0, distance := distance shop, pc := .menu } := by
    simp [State.leave, State.finish, State.again]
  have hi : b.state.inputs (Round.cancelled shop number choices).inputs =
      some (s.leave shop 0) := by
    rw [Round.inputs, State.inputs_append, hs, Option.bind_some, hl]
  obtain ⟨b', hi, hb', hs', hseen⟩ := inputs_quiet hb.rests hi (by rw [hf, ← hw])
  exact ⟨b', hi, ⟨hb', by rw [hs', hf]⟩, hr.quiet hseen⟩

theorem small_of_cost (h : cost shop choices < 2 ^ 31) : ∀ c ∈ choices, c.2 < 2 ^ 64 := by
  intro c hc
  have hm : (unitPrice shop c.1).toNat * c.2 ≤ cost shop choices :=
    List.single_le_sum (by simp) _ <| List.mem_map.mpr ⟨c, hc, rfl⟩
  have hp : 0 < (unitPrice shop c.1).toNat := by
    cases shop <;> cases c.1 <;> decide
  have hle := Nat.le_mul_of_pos_left c.2 hp
  omega

theorem Waits.ordered (hb : b.Waits) (hr : b.Reads bills) {key : UInt8}
    (pos : 0 < cost shop choices) (lt : cost shop choices < 2 ^ 31) : ∃ b',
    b.inputs (Round.ordered shop number choices key pos lt).inputs = some b' ∧ b'.Waits ∧
      b'.Reads ((km shop, numeral (cost shop choices)) :: bills) := by
  obtain ⟨s, hs, hpc, hw, hp⟩ := inputs_dialogue shop number choices hb.menu hb.price
  have hp : s.price.toNat = cost shop choices := by
    rw [hp (small_of_cost lt), UInt32.toNat_ofNat_of_lt']
    exact lt.trans (by decide)
  let s' := s.goto <| .chooseClear shop '3'.toUInt8
  have hi : b.state.inputs (dialogue shop number choices ++ [.key <| some '3'.toUInt8]) =
      some s' := by
    rw [State.inputs_append, hs, Option.bind_some, State.inputs_cons]
    simp [hw1, State.step, State.key, hpc, State.inputs, s']
  obtain ⟨b₁, hi₁, hb₁, hs₁, hseen₁⟩ := inputs_quiet hb.rests hi hw
  have hr₁ := hr.quiet hseen₁
  obtain ⟨b₂, hi₂, hpc₂, hl₂, hseen₂⟩ := step_confirm hb₁ (by rw [hs₁]; rfl)
    (by rw [hs₁]; exact hp ▸ pos) (by rw [hs₁]; exact hp ▸ lt)
  obtain ⟨b₃, hi₃, hb₃, hpc₃, hseen₃⟩ := step_pickUp (c := some key) hpc₂ (by rw [hl₂]; rfl)
  refine ⟨b₃, ?_, ⟨hb₃, hpc₃⟩, ?_⟩
  case refine_1 =>
    have hl : (Round.ordered shop number choices key pos lt).inputs =
        (dialogue shop number choices ++ [.key <| some '3'.toUInt8]) ++
          [.key <| some '\n'.toUInt8, .key key] := by
      rw [Round.inputs, List.append_assoc, List.append_assoc]
      rfl
    rw [hl, inputs_append, hi₁, Option.bind_some, inputs_cons, hi₂, Option.bind_some, inputs_cons,
      hi₃]
    rfl
  case refine_2 =>
    have hc : b₁.state.price.toNat = cost shop choices := by rw [hs₁]; exact hp
    have hb := Reader.look_bill (km_pos shop).left (km_pos shop).right isdigit_of_mem_numeral
      (numeral_ne_nil (cost shop choices)) (r := ⟨rest, bills⟩) rfl
    rw [Reads, hseen₃, hseen₂, hl₂]
    simp only [hc]
    rw [List.append_assoc, List.append_assoc, List.foldlM_append, hr₁]
    exact hb

-- Each round ends in the menu, and adds its bills to those that can be read.
theorem Waits.round (hb : b.Waits) (hr : b.Reads bills) (round : Round) : ∃ b' new,
    b.inputs round.inputs = some b' ∧ b'.Waits ∧ b'.Reads (new ++ bills) ∧
      new.reverse.map (fun (km, ds) => (km, digitsValue ds)) = round.bills := by
  cases round
  case browse key =>
    obtain ⟨b', hi, hb', hr'⟩ := hb.browse hr key
    exact ⟨b', [], hi, hb', hr', rfl⟩
  case cancelled =>
    obtain ⟨b', hi, hb', hr'⟩ := hb.cancelled hr
    exact ⟨b', [], hi, hb', hr', rfl⟩
  case ordered pos lt =>
    obtain ⟨b', hi, hb', hr'⟩ := hb.ordered hr pos lt
    exact ⟨b', [_], hi, hb', hr', by simp [Round.bills, digitsValue_numeral, km]⟩

theorem Waits.rounds (hb : b.Waits) (hr : b.Reads bills) (rounds : List Round) : ∃ b' new,
    b.inputs (rounds.flatMap Round.inputs) = some b' ∧ b'.Waits ∧ b'.Reads (new ++ bills) ∧
      new.reverse.map (fun (km, ds) => (km, digitsValue ds)) = rounds.flatMap Round.bills := by
  induction rounds generalizing b bills
  case nil => exact ⟨b, [], rfl, hb, hr, rfl⟩
  case cons r rounds ih =>
    obtain ⟨b₁, new₁, hi₁, hb₁, hr₁, hn₁⟩ := hb.round hr r
    obtain ⟨b₂, new₂, hi₂, hb₂, hr₂, hn₂⟩ := ih hb₁ hr₁
    refine ⟨b₂, new₂ ++ new₁, ?_, hb₂, by rwa [List.append_assoc], ?_⟩
    case refine_1 => rw [List.flatMap_cons, inputs_append, hi₁, Option.bind_some, hi₂]
    case refine_2 => rw [List.reverse_append, List.map_append, hn₁, hn₂, List.flatMap_cons]

-- Whatever is looked at, cancelled and ordered in between, and however often: what the board shows
-- of a whole session can be read as the bills of the orders, with the kilometers and the price of
-- each.
theorem readBills_session (distance : UInt8) (pins : Pins) (rounds : List Round) :
    ∃ b, (start distance pins).inputs (rounds.flatMap Round.inputs) = some b ∧
      b.state.pc = .menu ∧ readBills b.seen = some (rounds.flatMap Round.bills) := by
  have hl := look_configure pins
  have hb : (start distance pins).Waits := ⟨⟨fun _ => rfl, hl⟩, rfl⟩
  have hr : (start distance pins).Reads [] := by
    rw [Reads, start, hl]
    rfl
  obtain ⟨b, new, hi, hb, hr, hn⟩ := hb.rounds hr rounds
  refine ⟨b, hi, hb.menu, ?_⟩
  rw [readBills, hr, List.append_nil, Option.map_some, hn]

end Session

end Hw1
