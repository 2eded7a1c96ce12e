import EmbeddedOS.HomeWork.Hw1.Board
import EmbeddedOS.HomeWork.Hw1.Theorems.Message

open C Delivery

namespace Hw1

-- The first `n` of the eight LEDs are on.
def firstLeds (n : ℕ) : List UInt8 :=
  .replicate n 1 ++ .replicate (8 - n) 0

-- The LEDs of a distance go out one by one, the highest first.
def distanceFrames (n : ℕ) (segments : List UInt8) : List Frame :=
  (List.range n).reverse.map fun k => { leds := firstLeds (k + 1), segments }

-- The row of the table for a digit.
def row (c : UInt8) : List UInt8 :=
  showTable.getD (c.toNat - 48) []

def digitFrames (c : UInt8) : List Frame :=
  [{ leds := firstLeds 0, segments := blank }, { leds := firstLeds 0, segments := row c }]

-- What `Delivery_distance` does for `n` LEDs.
def onEvents (n : ℕ) : List Event :=
  (List.range n).map fun i => .gpioSetValue (gpio.getD i 0) 1

def offEvents (n : ℕ) : List Event :=
  (List.range n).reverse.flatMap fun i => [.mdelay 1000, .gpioSetValue (gpio.getD i 0) 0]

variable {pins : Pins} {events events' : List Event} {ps levels ds : List UInt8} {c q v : UInt8}
variable {i n : ℕ}

section Pins

theorem frames_append :
    frames pins (events ++ events') = frames pins events ++ frames (after pins events) events' := by
  induction events generalizing pins
  case nil => rfl
  case cons e events hi => cases e <;> simp [frames, after, Event.apply, hi]

theorem after_append : after pins (events ++ events') = after (after pins events) events' := by
  simp [after]

-- A pin of a list without repetitions is the only one that changes.
theorem map_update (hn : ps.Nodup) (h : i < ps.length) :
    ps.map (Function.update pins (ps.get ⟨i, h⟩) v) = (ps.map pins).set i v := by
  refine List.ext_getElem (by simp) fun j hj _ => ?_
  rw [List.getElem_map, List.getElem_set, List.getElem_map]
  split
  case isTrue hi =>
    subst hi
    exact Function.update_self _ _ _
  case isFalse hi =>
    exact Function.update_of_ne (fun he => hi <| (hn.getElem_inj_iff.mp he).symm) _ _

theorem map_update_other (hq : q ∉ ps) : ps.map (Function.update pins q v) = ps.map pins :=
  List.map_congr_left fun _ hp => Function.update_of_ne (ne_of_mem_of_not_mem hp hq) _ _

-- While the driver sets a row of pins, nothing is to be seen.
theorem frames_zipWith : frames pins (List.zipWith .gpioSetValue ps levels) = [] := by
  induction ps generalizing pins levels
  case nil => rfl
  case cons p ps hi => cases levels <;> simp [frames, hi]

theorem after_zipWith_other (hq : q ∉ ps) :
    after pins (List.zipWith .gpioSetValue ps levels) q = pins q := by
  induction ps generalizing pins levels
  case nil => rfl
  case cons p ps hi =>
    cases levels
    case nil => rfl
    case cons v levels =>
      obtain ⟨hp, hq⟩ := not_or.mp <| mt List.mem_cons.mpr hq
      exact (hi hq).trans <| Function.update_of_ne hp _ _

theorem map_after_zipWith (hn : ps.Nodup) (hl : levels.length = ps.length) :
    ps.map (after pins <| List.zipWith .gpioSetValue ps levels) = levels := by
  induction ps generalizing pins levels
  case nil => exact (List.length_eq_zero_iff.mp hl).symm
  case cons p ps hi =>
    obtain ⟨v, levels, rfl⟩ := List.exists_cons_of_length_eq_add_one hl
    have ⟨hp, hn⟩ := List.nodup_cons.mp hn
    have hv : after pins (List.zipWith .gpioSetValue (p :: ps) (v :: levels)) p = v :=
      (after_zipWith_other hp).trans <| Function.update_self _ _ _
    rw [List.map_cons, hv]
    exact congrArg _ <| hi hn (Nat.succ.inj hl)

end Pins

-- What the functions of the driver show.
section Driver

theorem gpioDisplay_nodup : gpioDisplay.Nodup := by
  decide

theorem gpioDisplay_length : gpioDisplay.length = 7 :=
  rfl

theorem gpio_disjoint : ∀ p ∈ gpio, p ∉ gpioDisplay := by
  simp [gpio, gpioDisplay]

-- Setting a row of segments leaves the LEDs as they are.
theorem look_segments (pins : Pins) (hl : levels.length = 7) :
    look (after pins <| List.zipWith .gpioSetValue gpioDisplay levels) =
      { leds := (look pins).leds, segments := levels } := by
  have hs : gpioDisplay.map (after pins <| List.zipWith .gpioSetValue gpioDisplay levels) =
      levels := map_after_zipWith gpioDisplay_nodup (hl.trans gpioDisplay_length.symm)
  have hl' : gpio.map (after pins <| List.zipWith .gpioSetValue gpioDisplay levels) =
      gpio.map pins :=
    List.map_congr_left fun p hp => after_zipWith_other (gpio_disjoint p hp)
  rw [look, hs, hl', look]

-- A digit has its place in the table.
theorem digit_lt (h : isdigit c) : 48 ≤ c.toNat ∧ c.toNat - 48 < 10 := by
  simp only [isdigit, Bool.and_eq_true, decide_eq_true_eq, UInt8.le_iff_toNat_le] at h
  have := h.right
  simp at this
  exact ⟨h.left, by omega⟩

theorem row_length (h : isdigit c) : (row c).length = 7 := by
  have hl : ∀ i < 10, (showTable.getD i []).length = 7 := by decide
  exact hl _ (digit_lt h).right

theorem display_of_isdigit (h : isdigit c) : display c = some
    (List.zipWith .gpioSetValue gpioDisplay blank ++ [.mdelay 20] ++
      List.zipWith .gpioSetValue gpioDisplay (row c) ++ [.mdelay 480]) := by
  have ⟨h₁, h₂⟩ := digit_lt h
  have hn : ¬c < '0'.toUInt8 := by
    rw [UInt8.lt_iff_toNat_lt]
    exact not_lt.mpr h₁
  have hr : showTable[c.toNat - 48]? = some (row c) := by
    have hl : c.toNat - 48 < showTable.length := h₂
    rw [row, List.getD_eq_getElem _ _ hl, List.getElem?_eq_getElem hl]
  have hb : gpioDisplay.map (Event.gpioSetValue · 1) =
      List.zipWith .gpioSetValue gpioDisplay blank := rfl
  rw [display, if_neg hn, ← hb, show c.toNat - '0'.toNat = c.toNat - 48 from rfl, hr]
  rfl

-- A digit is shown behind the blank, and the LEDs stay as they are.
theorem frames_display (h : isdigit c) (hl : (look pins).leds = firstLeds 0)
    (hd : display c = some events) :
    frames pins events = digitFrames c ∧ (look (after pins events)).leds = firstLeds 0 := by
  cases (display_of_isdigit h).symm.trans hd
  have hb := look_segments pins (show blank.length = 7 from rfl)
  have hr := look_segments (after pins <| List.zipWith .gpioSetValue gpioDisplay blank)
    (row_length h)
  rw [hb, hl] at hr
  rw [hl] at hb
  have hm : ∀ (pins : Pins) ms, frames pins [.mdelay ms] = [look pins] := fun _ _ => rfl
  have ha : ∀ (pins : Pins) ms, after pins [.mdelay ms] = pins := fun _ _ => rfl
  simp only [frames_append, frames_zipWith, after_append, hm, ha, hb, hr]
  exact ⟨rfl, trivial⟩

theorem frames_displays (hd : ∀ c ∈ ds, isdigit c) (hl : (look pins).leds = firstLeds 0) :
    ∃ digits, ds.mapM display = some digits ∧
      frames pins digits.flatten = ds.flatMap digitFrames ∧
      (look (after pins digits.flatten)).leds = firstLeds 0 := by
  induction ds generalizing pins
  case nil => exact ⟨[], rfl, rfl, hl⟩
  case cons c ds hi =>
    have ⟨hc, hd⟩ := List.forall_mem_cons.mp hd
    obtain ⟨events, he⟩ := Option.isSome_iff_exists.mp <| isSome_display_iff.mpr hc
    have ⟨hf, hl'⟩ := frames_display hc hl he
    obtain ⟨digits, hm, hfs, hls⟩ := hi hd hl'
    refine ⟨events :: digits, by simp [he, hm], ?_, ?_⟩
    case refine_1 => rw [List.flatten_cons, frames_append, hf, hfs, List.flatMap_cons]
    case refine_2 => rwa [List.flatten_cons, after_append]

theorem look_led (h : i < 8) : look (Function.update pins (gpio.getD i 0) v) =
    { leds := (look pins).leds.set i v, segments := (look pins).segments } := by
  have hg : gpio.getD i 0 = gpio.get ⟨i, h⟩ := List.getD_eq_getElem _ _ h
  have hm : gpio.get ⟨i, h⟩ ∈ gpio := List.get_mem _ _
  rw [hg, look, map_update (by simp [gpio]) h, map_update_other (gpio_disjoint _ hm), look]

theorem leds_off_iff : (look pins).leds = firstLeds 0 ↔ ∀ pin ∈ gpio, pins pin = 0 := by
  have hf : firstLeds 0 = .replicate 8 0 := rfl
  rw [hf, look, List.eq_replicate_iff]
  simp [gpio]

theorem firstLeds_set : ∀ n < 8, (firstLeds n).set n 1 = firstLeds (n + 1) ∧
    (firstLeds (n + 1)).set n 0 = firstLeds n := by
  decide

theorem look_on (hn : n ≤ 8) (hl : (look pins).leds = firstLeds 0) :
    look (after pins <| onEvents n) =
      { leds := firstLeds n, segments := (look pins).segments } := by
  induction n
  case zero => rw [← hl]; rfl
  case succ n hi =>
    rw [onEvents, List.range_succ, List.map_append, after_append]
    refine (look_led hn).trans ?_
    rw [← onEvents, hi (Nat.le_of_lt hn), (firstLeds_set n hn).left]

theorem frames_on : frames pins (onEvents n) = [] := by
  induction n
  case zero      => rfl
  case succ n hi =>
    rw [onEvents, List.range_succ, List.map_append, frames_append, ← onEvents, hi]
    rfl

theorem offEvents_succ : offEvents (n + 1) =
    .mdelay 1000 :: .gpioSetValue (gpio.getD n 0) 0 :: offEvents n := by
  simp [offEvents, List.range_succ]

theorem distanceFrames_succ (segments : List UInt8) : distanceFrames (n + 1) segments =
    { leds := firstLeds (n + 1), segments } :: distanceFrames n segments := by
  simp [distanceFrames, List.range_succ]

theorem frames_off (hn : n ≤ 8) {segments : List UInt8}
    (hl : look pins = { leds := firstLeds n, segments }) :
    frames pins (offEvents n) = distanceFrames n segments ∧
      look (after pins <| offEvents n) = { leds := firstLeds 0, segments } := by
  induction n generalizing pins
  case zero => exact ⟨rfl, hl⟩
  case succ n hi =>
    have hu : look (Function.update pins (gpio.getD n 0) 0) =
        { leds := firstLeds n, segments } := by
      rw [look_led hn, hl, (firstLeds_set n hn).right]
    have ⟨hf, ha⟩ := hi (Nat.le_of_lt hn) hu
    rw [offEvents_succ, distanceFrames_succ, ← hf, ← hl]
    exact ⟨rfl, ha⟩

-- The number of kilometers to a shop.
def km (shop : Shop) : ℕ :=
  (distance shop).toNat - 48

theorem km_pos (shop : Shop) : 0 < km shop ∧ km shop ≤ 8 := by
  cases shop <;> decide

theorem deliveryDistance_distance (shop : Shop) :
    deliveryDistance (distance shop) = some (onEvents (km shop) ++ offEvents (km shop)) := by
  cases shop <;> decide

-- The loop over the buffer displays the digits of the price one by one.
theorem displays_eq_mapM (c : UInt8) (ds rest : List UInt8) :
    displays (c :: ds ++ rest) (c :: ds).length = (ds.mapM display).map List.flatten := by
  have hg : (List.range' 1 ds.length).map (fun i => (c :: ds ++ rest)[i]?) = ds.map some := by
    refine List.ext_getElem (by simp) fun i hi _ => ?_
    have hi' : i < ds.length := by simpa using hi
    simp [Nat.add_comm 1 i, List.getElem?_append_left, hi']
  have hm : (List.range' 1 ds.length).mapM (fun i => (c :: ds ++ rest)[i]?.bind display) =
      ds.mapM display := by
    have h₁ := List.mapM_map (f := fun i => (c :: ds ++ rest)[i]?) (g := fun o => o.bind display)
      (l := List.range' 1 ds.length)
    have h₂ := List.mapM_map (f := some) (g := fun o => o.bind display) (l := ds)
    exact h₁.symm.trans <| (congrArg _ hg).trans h₂
  simp only [displays, List.length_cons, Nat.add_sub_cancel, hm]
  cases ds.mapM display <;> rfl

theorem etxWrite_eq {shop : Shop} (hl : (distance shop :: ds).length ≤ 100)
    {digits : List (List Event)} (hd : ds.mapM display = some digits) :
    etxWrite (distance shop :: ds) =
      some (onEvents (km shop) ++ offEvents (km shop) ++ digits.flatten) := by
  have hs := displays_eq_mapM (distance shop) ds <|
    (List.replicate 100 (0 : UInt8)).drop (distance shop :: ds).length
  rw [hd] at hs
  simp only [etxWrite, if_pos hl, overlay, List.cons_append, List.headD_cons,
    deliveryDistance_distance] at hs ⊢
  rw [hs]
  rfl

-- The whole trace of a bill.
theorem frames_etxWrite {shop : Shop} (hl : (distance shop :: ds).length ≤ 100)
    (hd : ∀ c ∈ ds, isdigit c) (hp : (look pins).leds = firstLeds 0) :
    ∃ events, etxWrite (distance shop :: ds) = some events ∧
      frames pins events =
        distanceFrames (km shop) (look pins).segments ++ ds.flatMap digitFrames ∧
      (look (after pins events)).leds = firstLeds 0 := by
  have ⟨_, hk⟩ := km_pos shop
  have ⟨hf, ho⟩ := frames_off hk (look_on hk hp)
  have hx : (look (after (after pins <| onEvents (km shop)) <| offEvents (km shop))).leds =
      firstLeds 0 := by rw [ho]
  obtain ⟨digits, hm, hfs, hls⟩ := frames_displays hd hx
  refine ⟨_, etxWrite_eq hl hm, ?_, ?_⟩
  case refine_1 =>
    rw [frames_append, frames_append, frames_on, hf, after_append, hfs, List.nil_append]
  case refine_2 => rwa [after_append, after_append]

end Driver

-- What can be read in a trace.
section ReadBack

theorem firstLeds_count : ∀ n ≤ 8, (firstLeds n).count 1 = n := by
  decide

theorem firstLeds_ne : ∀ n < 8, firstLeds (n + 1) ≠ firstLeds n := by
  decide

theorem digit?_row (h : isdigit c) : digit? (row c) = some c := by
  have ⟨h₁, h₂⟩ := digit_lt h
  have hi : ∀ i < 10, showTable.idxOf? (showTable.getD i []) = some i := by decide
  rw [digit?, row, hi _ h₂, Option.map_some, Nat.add_sub_of_le h₁]
  exact congrArg some UInt8.ofNat_toNat

theorem row_ne_blank (h : isdigit c) : row c ≠ blank := by
  have hn : ∀ i < 10, showTable.getD i [] ≠ blank := by decide
  exact hn _ (digit_lt h).right

theorem lit_distanceFrames {segments : List UInt8} :
    ∀ f ∈ distanceFrames n segments, 1 ∈ f.leds := by
  simp [distanceFrames, firstLeds]

theorem dropWhile_digitFrames :
    (ds.flatMap digitFrames).dropWhile (fun f => 1 ∈ f.leds) = ds.flatMap digitFrames := by
  cases ds
  case nil  => rfl
  case cons => simp [digitFrames, firstLeds]

theorem mapM_digitFrames (hd : ∀ c ∈ ds, isdigit c) :
    (((ds.flatMap digitFrames).filter fun f => f.segments ≠ blank).mapM fun f =>
      digit? f.segments) = some ds := by
  induction ds
  case nil => rfl
  case cons c ds hi =>
    have ⟨hc, hd⟩ := List.forall_mem_cons.mp hd
    have hf : (digitFrames c).filter (fun f => f.segments ≠ blank) =
        [{ leds := firstLeds 0, segments := row c }] := by
      simp [digitFrames, row_ne_blank hc]
    rw [List.flatMap_cons, List.filter_append, hf, List.singleton_append, List.mapM_cons,
      digit?_row hc, hi hd]
    rfl

theorem readBack_frames (hn : 0 < n) (hn' : n ≤ 8) (hd : ∀ c ∈ ds, isdigit c)
    (segments : List UInt8) :
    readBack (distanceFrames n segments ++ ds.flatMap digitFrames) = some (n, digitsValue ds) := by
  obtain ⟨m, rfl⟩ := Nat.exists_eq_add_of_le' hn
  have hl : ∀ f ∈ distanceFrames (m + 1) segments, decide (1 ∈ f.leds) = true :=
    fun f hf => decide_eq_true <| lit_distanceFrames f hf
  simp only [readBack, List.dropWhile_append_of_pos hl, dropWhile_digitFrames, mapM_digitFrames hd]
  rw [distanceFrames_succ, List.cons_append, List.head?_cons]
  exact congrArg (fun k => some (k, digitsValue ds)) <| firstLeds_count _ hn'

-- Neighbours in a trace are different, so that none is overlooked.
theorem isChain_digitFrames (hd : ∀ c ∈ ds, isdigit c) :
    (ds.flatMap digitFrames).IsChain (· ≠ ·) := by
  induction ds
  case nil => exact .nil
  case cons c ds hi =>
    have ⟨hc, hd⟩ := List.forall_mem_cons.mp hd
    have hb : blank ≠ row c := (row_ne_blank hc).symm
    rw [List.flatMap_cons]
    refine .append (by simp [digitFrames, hb]) (hi hd) ?_
    cases ds <;> simp [digitFrames, hb.symm]

theorem isChain_distanceFrames (hn : n ≤ 8) (segments : List UInt8) :
    (distanceFrames n segments).IsChain (· ≠ ·) := by
  induction n
  case zero => exact .nil
  case succ n hi =>
    rw [distanceFrames_succ]
    refine List.isChain_cons.mpr ⟨?_, hi (Nat.le_of_lt hn)⟩
    cases n
    case zero   => simp [distanceFrames]
    case succ n => simpa [distanceFrames_succ] using firstLeds_ne (n + 1) hn

theorem isChain_frames (hn : n ≤ 8) (hd : ∀ c ∈ ds, isdigit c) (segments : List UInt8) :
    (distanceFrames n segments ++ ds.flatMap digitFrames).IsChain (· ≠ ·) := by
  refine (isChain_distanceFrames hn segments).append (isChain_digitFrames hd) fun f hf f' hf' => ?_
  rintro rfl
  have hl : 1 ∈ f.leds := lit_distanceFrames f <| List.mem_of_getLast? hf
  cases ds
  case nil       => simp at hf'
  case cons c ds =>
    cases (by simpa [digitFrames] using hf' : _ = f)
    simp [firstLeds] at hl

end ReadBack

-- The board shows the bill: the LEDs of the distance, which go out one by one, and then the digits
-- of the price, each behind the blank. Whoever looks at it can read the distance and the price, and
-- all LEDs are off in the end.
theorem shows_bill (s : State) (shop : Shop) (pins : Pins) (hs : s.distance = distance shop)
    (h₁ : 1 ≤ s.price.toNat) (h₂ : s.price.toNat < 2 ^ 31) (hp : ∀ pin ∈ gpio, pins pin = 0) :
    ∃ events, etxWrite s.writeBuf = some events ∧
      frames pins events = distanceFrames (km shop) (gpioDisplay.map pins) ++
        (decimal s.price.toNat).flatMap digitFrames ∧
      readBack (seen pins events) = some (km shop, s.price.toNat) ∧
      ∀ pin ∈ gpio, after pins events pin = 0 := by
  have hi : C.int s.price.toNat = s.price.toNat := C.int_eq (by omega) (by omega)
  have hd : decimal s.price.toNat = numeral s.price.toNat := by
    rw [decimal_eq, if_neg (by omega), List.nil_append, Int.natAbs_natCast]
  have hx : ∀ c ∈ decimal s.price.toNat, isdigit c := hd ▸ isdigit_of_mem_numeral
  have hl : (distance shop :: decimal s.price.toNat).length ≤ 100 := by
    have := decimal_length_le (n := s.price.toNat) (by omega) (by omega)
    simp only [List.length_cons]
    omega
  have ⟨_, hk⟩ := km_pos shop
  obtain ⟨events, he, hf, ha⟩ := frames_etxWrite hl hx (leds_off_iff.mpr hp)
  refine ⟨events, by rw [State.writeBuf, hs, hi, he], hf, ?_, leds_off_iff.mp ha⟩
  rw [seen, hf, List.destutter_of_isChain (· ≠ ·) _ (isChain_frames hk hx _),
    readBack_frames (km_pos shop).left hk hx, hd, digitsValue_numeral]

-- Two equal digits, for a diner.
theorem shows_bill_of_220 : ∃ (s : State) (events : List Event),
    etxWrite s.writeBuf = some events ∧ readBack (seen (fun _ => 0) events) = some (8, 220) := by
  have ⟨events, he, _, hr, _⟩ := shows_bill
    { pc := .menu, price := 220, number := 0, distance := distance .diner, written := [] } .diner
    (fun _ => 0) rfl (by decide) (by decide) (by simp)
  exact ⟨_, events, he, hr⟩

end Hw1
