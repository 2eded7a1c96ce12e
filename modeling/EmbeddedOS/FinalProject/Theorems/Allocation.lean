import EmbeddedOS.FinalProject.Theorems.Alone

namespace Parking

-- The free slot of a zone that the loop of the gate comes to first: the lowest one at gate 1 and
-- the highest one at all others.
structure Memory.FirstFree (m : Memory) (n : ℤ) (z : Zone) (i : Slot) : Prop where
  zone  : i.zone = z
  free  : m.parkSpace i = 0
  first : ∀ j, Slot.zone j = z → m.parkSpace j = 0 → if n = 1 then i ≤ j else j ≤ i

-- The car and the counters are as they were.
structure Memory.Untouched (m m' : Memory) : Prop where
  car       : m'.car = m.car
  parkSpace : m'.parkSpace = m.parkSpace
  spaceLeft : m'.spaceLeft = m.spaceLeft
  cash      : m'.cash = m.cash

-- The slot has been given to the plate, and nothing else has changed but the counter of the zone.
structure Memory.Took (m : Memory) (p : Plate) (i : Slot) (m' : Memory) : Prop where
  plate     : (m'.car i).licencePlate = p.chars
  taken     : m'.parkSpace i = 1
  spaceLeft : m'.spaceLeft = Function.update m.spaceLeft p.zone (m.spaceLeft p.zone - 1)
  car       : ∀ j, j ≠ i → m'.car j = m.car j
  parkSpace : ∀ j, j ≠ i → m'.parkSpace j = m.parkSpace j
  cash      : m'.cash = m.cash

-- What `entry` does with a plate at a gate: which answer it gives when, and what has become of the
-- car park then.
structure Memory.Allocates (m : Memory) (pid : ℕ) (n : ℤ) (p : Plate) : Prop where
  parked  : m.answer? pid (.entry n p) = some .alreadyParked ↔
    ∃ i, (m.car i).licencePlate = p.chars
  noSpace : (∀ i, (m.car i).licencePlate ≠ p.chars) →
    (m.answer? pid (.entry n p) = some .noSpace ↔ ∀ i, Slot.zone i = p.zone → m.parkSpace i = 1)
  success : (∀ i, (m.car i).licencePlate ≠ p.chars) →
    (∃ i, Slot.zone i = p.zone ∧ m.parkSpace i ≠ 1) →
    m.answer? pid (.entry n p) = some .entrySuccess ∧
      ∃ i, m.FirstFree n p.zone i ∧ m.Took p i (m.handle pid (.entry n p)).fst
  refused : m.answer? pid (.entry n p) = some .alreadyParked ∨
    m.answer? pid (.entry n p) = some .noSpace → m.Untouched (m.handle pid (.entry n p)).fst

variable {m : Memory} {pid : ℕ} {p : Plate} {i j : Slot} {n : ℤ}

-- All gates but the first one look at the slots in the same order.
theorem entryOrder_of_ne {electric : Bool} (h : n ≠ 1) :
    entryOrder electric n = entryOrder electric 2 := by
  funext i
  simp [entryOrder, h]

-- The loop of a gate goes over the slots of its zone in their order, or from the last one down.
theorem entryOrder_sorted (electric : Bool) (n : ℤ) :
    ((List.finRange 8).map (entryOrder electric n)).Pairwise
      fun i j => if n = 1 then i < j else j < i := by
  by_cases hn : n = 1
  case pos =>
    subst hn
    cases electric <;> decide
  case neg =>
    simp only [entryOrder_of_ne hn, hn, if_false]
    cases electric <;> decide

theorem mem_entryOrder {electric : Bool} :
    i ∈ (List.finRange 8).map (entryOrder electric n) ↔ i.zone = if electric then 1 else 0 := by
  by_cases hn : n = 1
  case pos =>
    subst hn
    revert i electric
    decide
  case neg =>
    rw [entryOrder_of_ne hn]
    clear hn
    revert i electric
    decide

-- What a search finds in a sorted list comes before everything else that it could have found.
theorem first_of_find? {α : Type*} {f : α → Bool} {r : α → α → Prop} {xs : List α} {a b : α}
    (hs : xs.Pairwise r) (ha : xs.find? f = some a) (hb : b ∈ xs) (hf : f b) : b = a ∨ r a b := by
  obtain ⟨-, ys, zs, rfl, hn⟩ := List.find?_eq_some_iff_append.mp ha
  rcases List.mem_append.mp hb with hb | hb
  case inl => exact absurd hf <| by simpa using hn b hb
  case inr =>
    rcases List.mem_cons.mp hb with rfl | hb
    case inl => exact .inl rfl
    case inr => exact .inr <| List.rel_of_pairwise_cons (List.pairwise_append.mp hs).right.left hb

theorem Memory.freeSlot_first (h : m.freeSlot p n = some i) : m.FirstFree n p.zone i where
  zone  := (freeSlot_eq_some h).right.symm
  free  := (freeSlot_eq_some h).left
  first := by
    intro j hz hj
    have ho := entryOrder_sorted p.electric n
    have hm : j ∈ (List.finRange 8).map (entryOrder p.electric n) := mem_entryOrder.mpr hz
    rcases first_of_find? ho h hm (by simpa using hj) with rfl | hr
    case inl => split <;> rfl
    case inr => split at hr <;> simp_all [le_of_lt]

theorem Memory.freeSlot_eq_none :
    m.freeSlot p n = none ↔ ∀ i, Slot.zone i = p.zone → m.parkSpace i ≠ 0 := by
  simp only [freeSlot, List.find?_eq_none, mem_entryOrder, decide_eq_true_eq]
  rfl

theorem Memory.WellFormed.taken_iff (h : m.WellFormed) : m.parkSpace i = 1 ↔ m.parkSpace i ≠ 0 := by
  rcases h.parkSpace i with hi | hi <;> simp [hi]

namespace Memory

theorem allocates_parked (hl : m.lookup p = some i) : m.Allocates pid n p := by
  have hi := lookup_eq_some hl
  have hh : m.handle pid (.entry n p) = _ := handle_entry_parked hl
  have ha : m.answer? pid (.entry n p) = _ := answer?_eq hh rfl rfl
  constructor
  case parked  => exact iff_of_true ha ⟨i, hi⟩
  case noSpace => exact fun hn => absurd hi (hn i)
  case success => exact fun hn => absurd hi (hn i)
  case refused => exact fun _ => hh ▸ ⟨rfl, rfl, rfl, rfl⟩

theorem allocates_noSpace (hl : m.lookup p = none) (hs : 0 < m.semMutex)
    (hf : m.freeSlot p n = none) (h : m.WellFormed) : m.Allocates pid n p := by
  have hn : ∀ i, Slot.zone i = p.zone → m.parkSpace i = 1 :=
    fun i hz => h.taken_iff.mpr <| freeSlot_eq_none.mp hf i hz
  have hh : m.handle pid (.entry n p) = _ := handle_entry_noSpace hl hs hf
  have ha : m.answer? pid (.entry n p) = _ := answer?_eq hh rfl rfl
  constructor
  case parked  => exact iff_of_false (by simp [ha]) <| by simpa using lookup_eq_none.mp hl
  case noSpace => exact fun _ => iff_of_true ha hn
  case success => exact fun _ ⟨i, hz, hi⟩ => absurd (hn i hz) hi
  case refused => exact fun _ => hh ▸ ⟨rfl, rfl, rfl, rfl⟩

theorem allocates_park (hl : m.lookup p = none) (hs : 0 < m.semMutex)
    (hf : m.freeSlot p n = some i) (h : m.WellFormed) : m.Allocates pid n p := by
  have hi := freeSlot_first hf
  have hh : m.handle pid (.entry n p) = _ := handle_entry_park hl hs hf
  have ha : m.answer? pid (.entry n p) = _ := answer?_eq hh rfl rfl
  constructor
  case parked  => exact iff_of_false (by simp [ha]) <| by simpa using lookup_eq_none.mp hl
  case noSpace =>
    refine fun _ => iff_of_false (by simp [ha]) fun hn => ?_
    exact h.taken_iff.mp (hn i hi.zone) hi.free
  case success =>
    refine fun _ _ => ⟨ha, i, hi, hh ▸ ?_⟩
    constructor
    case plate | taken => simp
    case spaceLeft | cash => simp
    all_goals
      intro j hj
      simp [hj]
  case refused => simp [ha]

end Memory

-- The gate gives each car the slot that it should have, or it refuses the car for a reason.
theorem entry_allocates (h : m.WellFormed) (hs : 0 < m.semMutex) (pid : ℕ) (n : ℤ) (p : Plate) :
    m.Allocates pid n p := by
  cases hl : m.lookup p
  case some i => exact Memory.allocates_parked hl
  case none =>
    cases hf : m.freeSlot p n
    case none   => exact Memory.allocates_noSpace hl hs hf h
    case some i => exact Memory.allocates_park hl hs hf h

theorem entry_allocates_again : ((Memory.initial 1700000000).park 0 .e 7).Allocates 1 2 .e :=
  entry_allocates ((Memory.initial_holds _).park rfl rfl).wellFormed (by decide) 1 2 .e

end Parking
