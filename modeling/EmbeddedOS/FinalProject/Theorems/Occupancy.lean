import EmbeddedOS.FinalProject.Theorems.LotStep

namespace Parking

variable {m m' : Memory} {pid : ℕ} {pos : Slot} {l : Lot}

theorem slot?_val (i : Slot) : slot? i = some i := by
  revert i; decide

theorem zone?_val (z : Zone) : zone? z = some z := by
  revert z; decide

theorem Memory.slot?_scanIndex (plate : Plate) : slot? (m.scanIndex plate) = m.lookup plate := by
  cases h : m.lookup plate <;> simp only [scanIndex, h, slot?_val]
  decide

-- An exit gets its slot from the second scan and from nothing else.
theorem Exitpark.Move.index? {x x' : Exitpark} (h : x.Move pid m m' x')
    (hi : x'.index? = some pos) :
    x.index? = some pos ∨ (m' = m ∧ m.lookup x.plate = some pos) := by
  cases h
  case rescan hpc =>
    simp only [goto_pc, Exitpark.index?, Memory.slot?_scanIndex] at hi
    exact .inr ⟨rfl, hi⟩
  all_goals simp_all [Exitpark.index?]

theorem Task.Move.exitIndex? {t t' : Task} (h : t.Move pid m m' t')
    (hi : t'.exitIndex? = some pos) :
    t.exitIndex? = some pos ∨ (m' = m ∧ m.lookup t.plate = some pos) := by
  cases h
  case exitpark h => exact h.index? hi
  all_goals contradiction

theorem Task.Read.exitIndex? {t t' : Task} {bytes : List UInt8} (h : t.Read bytes t') :
    t'.exitIndex? = none := by
  cases h <;> rfl

theorem Child.exitIndex?_step {c c' : Child} {i : Input} (h : c.step pid m i = some (m', c'))
    (hi : c'.task.exitIndex? = some pos) :
    c.task.exitIndex? = some pos ∨ (m' = m ∧ m.lookup c.task.plate = some pos) := by
  cases Change.of_step h
  case run h      => exact h.exitIndex? hi
  case read h _   => rw [h.exitIndex?] at hi; contradiction
  case hangUp h _ => exact .inl <| h ▸ hi
  case sigpipe h _ =>
    rw [h] at hi
    cases hc : c.task <;> simp_all [Task.kill, Task.exitIndex?, Exitpark.index?]

-- The zone of an occupied slot can be read off the field `elec`.
theorem Memory.Holds.zone? (h : m.Holds l) (hp : l.plate pos ≠ none) :
    zone? (m.car pos).elec = some pos.zone := by
  have hs := h.slot pos
  cases hl : l.plate pos <;> simp only [hl, Car.Shows] at hs
  case none => contradiction
  case some => rw [hs.right.right.right, zone?_val]

-- A car has stood in the slot, and it still stands there or `elec` tells that it has left.
def Memory.Visited (m : Memory) (pos : Slot) : Prop :=
  (m.car pos).licencePlate ≠ [] ∨ (m.car pos).elec = -1

-- An exit only uses slots that have been visited.
def Task.Visits (m : Memory) (t : Task) : Prop :=
  ∀ pos, t.exitIndex? = some pos → m.Visited pos

theorem Memory.Visited.elec (h : m.Visited pos) (hl : m.Holds l) (hn : l.plate pos = none) :
    (m.car pos).elec = -1 :=
  h.resolve_left (· <| hl.nil_iff.mp hn)

theorem Task.exitIndex?_of_frees? {t : Task} (h : t.frees? = some pos) :
    t.exitIndex? = some pos := by
  cases t <;> simp only [frees?, exitIndex?] at h ⊢
  case exitpark =>
    split at h
    case h_1 hpc => simp [Exitpark.index?, hpc, Option.some.inj h]
    case h_2 => contradiction
  all_goals contradiction

namespace LotStep

variable {t : Task}

theorem clearCar_sameLot {plate : Plate} (h : (m.car pos).licencePlate = []) :
    (m.clearCar pid plate pos).SameLot m := by
  constructor
  case parkSpace | spaceLeft => rfl
  all_goals
    intro j
    by_cases hj : j = pos <;> simp [hj, h]

-- The simulation: the lot stays as it is, or it takes in a car, or a car leaves it. An exit that
-- finds its slot freed already is stopped before it has changed anything that counts.
theorem simulates (h : LotStep pid m t m') (hl : m.Holds l) (hv : t.Visits m) :
    m'.Holds l ∨ (∃ p pos hz, l.plate pos = none ∧ m'.Holds (l.park p pos hz)) ∨
      (∃ pos, l.plate pos ≠ none ∧ m'.Holds (l.leave pos)) := by
  cases h
  case same h => exact .inl <| hl.congr h
  case park pos hp _ hm =>
    have ⟨hp, hz⟩ := Task.parks?_free hp
    have hn := hl.free_iff.mpr hp
    exact .inr <| .inl ⟨t.plate, pos, hz, hn, hm ▸ hl.park hn hz⟩
  case leave pos z _ hf hz hm =>
    have hn : l.plate pos ≠ none := by
      intro hn
      have he := (hv pos <| Task.exitIndex?_of_frees? hf).elec hl hn
      simp [he, zone?] at hz
    have hz' := Option.some.inj <| hz.symm.trans (hl.zone? hn)
    exact .inr <| .inr ⟨pos, hn, by rw [hm, hz']; exact hl.leave hn⟩
  case fault pos _ _ hz hm =>
    have hn : l.plate pos = none := by
      by_contra hn
      simp [hl.zone? hn] at hz
    exact .inl <| hl.congr <| hm ▸ clearCar_sameLot (hl.nil_iff.mp hn)

-- A slot that holds a plate keeps it until an exit frees the slot.
theorem licencePlate (h : LotStep pid m t m') (hl : m.Holds l)
    (hn : (m.car pos).licencePlate ≠ []) :
    (m'.car pos).licencePlate = (m.car pos).licencePlate ∨ t.frees? = some pos := by
  cases h
  case same h => exact .inl <| h.licencePlate pos
  case park i hp _ hm =>
    have he := hl.nil_iff.mp <| hl.free_iff.mpr (Task.parks?_free hp).left
    have hi : pos ≠ i := fun hi => hn <| hi ▸ he
    exact .inl <| by simp [hm, hi]
  case leave i _ _ hf _ hm =>
    by_cases hi : i = pos
    case pos => exact .inr <| hi ▸ hf
    case neg => exact .inl <| by simp [hm, Ne.symm hi]
  case fault i _ hf _ hm =>
    by_cases hi : i = pos
    case pos => exact .inr <| hi ▸ hf
    case neg => exact .inl <| by simp [hm, Ne.symm hi]

theorem visited (h : LotStep pid m t m') (hl : m.Holds l) (hv : m.Visited pos) :
    m'.Visited pos := by
  cases h
  case same h => simpa [Memory.Visited, h.licencePlate, h.elec] using hv
  case park i _ _ hm =>
    by_cases hi : pos = i
    case pos => exact .inl <| by simp [hm, hi, t.plate.ne_nil]
    case neg => simpa [Memory.Visited, hm, hi] using hv
  case leave i _ _ _ _ hm =>
    by_cases hi : pos = i
    case pos => exact .inr <| by simp [hm, hi]
    case neg => simpa [Memory.Visited, hm, hi] using hv
  case fault i _ _ hz hm =>
    by_cases hi : pos = i
    case pos =>
      have hn : l.plate i = none := by
        by_contra hn
        simp [hl.zone? hn] at hz
      have he := Memory.Visited.elec (hi ▸ hv) hl hn
      exact .inr <| by simp [hm, hi, he]
    case neg => simpa [Memory.Visited, hm, hi] using hv

end LotStep

theorem Child.step_lot {c c' : Child} {i : Input} (h : c.step pid m i = some (m', c')) :
    LotStep pid m c.task m' ∨ m' = m := by
  cases Change.of_step h
  case run h => exact .inl <| .of_move h
  all_goals exact .inr ‹_›

theorem Child.visited_step {c c' : Child} {i : Input} (h : c.step pid m i = some (m', c'))
    (hl : m.Holds l) (hv : m.Visited pos) : m'.Visited pos := by
  cases step_lot h
  case inl h => exact h.visited hl hv
  case inr h => exact h ▸ hv

-- The assertions of the occupancy proof: the memory represents some lot, and every exit uses slots
-- that have been visited only.
theorem occupancy : Pool.Annotation server (fun _ _ => True) (fun m => ∃ l, m.Holds l)
    (fun m _ c => c.task.Visits m) where
  spawn r _ := by
    cases r <;> simp [server, fork, Task.Visits, Task.exitIndex?, Exitpark.index?]
  env {m m' d} hl h := by
    cases h
    exact ⟨hl.imp fun l hl => hl.congr <| .of_car rfl rfl rfl, fun hv => hv⟩
  step {s pid i s'} hs _ a := by
    have ⟨l, hl⟩ := hs.mem
    have hv := hs.procs a.get
    constructor
    case left =>
      cases Child.step_lot a.step
      case inl h =>
        rcases h.simulates hl hv with h | ⟨_, _, _, _, h⟩ | ⟨_, _, h⟩
        all_goals exact ⟨_, h⟩
      case inr h => exact ⟨l, h ▸ hl⟩
    case right =>
      intro pos hi
      rcases Child.exitIndex?_step a.step hi with hi | ⟨hm, hp⟩
      case inl => exact Child.visited_step a.step hl <| hv pos hi
      case inr => exact .inl <| hm ▸ Memory.lookup_eq_some hp ▸ a.pre.task.plate.ne_nil
  other {s pid i s'} hs _ a {j q} _ hq pos hi :=
    have ⟨_, hl⟩ := hs.mem
    Child.visited_step a.step hl <| hs.procs hq pos hi

theorem Memory.initial_holds (clock : ℤ) : (Memory.initial clock).Holds .empty where
  slot _      := ⟨rfl, rfl⟩
  spaceLeft z := by
    have hz : ∀ z, (Lot.empty.free z).card = 8 := by decide
    simp [Memory.initial, hz]

def State.Represents : State → Prop :=
  Pool.Annotated (fun m => ∃ l, m.Holds l) (fun m _ c => c.task.Visits m)

theorem initial_represents (clock : ℤ) : (State.initial clock).Represents :=
  ⟨⟨_, Memory.initial_holds clock⟩, by simp [State.initial]⟩

-- What the redundant fields of the car park say about each other, in the words of the program.
structure Memory.WellFormed (m : Memory) : Prop where
  parkSpace : ∀ i, m.parkSpace i = 0 ∨ m.parkSpace i = 1
  occupied  : ∀ i, m.parkSpace i = 1 ↔ (m.car i).licencePlate ≠ []
  electric  : ∀ i, m.parkSpace i = 1 → i < 8 →
    (m.car i).pos = i ∧ (m.car i).elec = 1 ∧ (m.car i).licencePlate.head? = some 69
  fuel      : ∀ i, m.parkSpace i = 1 → 8 ≤ i →
    (m.car i).pos = i ∧ (m.car i).elec = 0 ∧ (m.car i).licencePlate.head? ≠ some 69
  spaceLeft : m.spaceLeft 1 = Finset.card { i : Slot | i < 8 ∧ m.parkSpace i = 0 } ∧
    m.spaceLeft 0 = Finset.card { i : Slot | 8 ≤ i ∧ m.parkSpace i = 0 }

theorem Plate.head?_eq_iff (p : Plate) : p.chars.head? = some 69 ↔ p.zone = 1 := by
  simp [zone, electric]

theorem Slot.zone_eq_one_iff (i : Slot) : Slot.zone i = 1 ↔ i < 8 := by
  simp [zone]

theorem Slot.zone_eq_zero_iff (i : Slot) : Slot.zone i = 0 ↔ 8 ≤ i := by
  simp [zone]

namespace Memory.Holds

theorem occupied (h : m.Holds l) (hp : m.parkSpace pos = 1) :
    ∃ p, l.plate pos = some p ∧ (m.car pos).licencePlate = p.chars ∧ (m.car pos).pos = pos ∧
      (m.car pos).elec = Slot.zone pos := by
  have hs := h.slot pos
  cases hl : l.plate pos <;> simp only [hl, Car.Shows] at hs
  case none => simp [hs.left] at hp
  case some => exact ⟨_, rfl, hs.right⟩

theorem parkSpace_eq_one_iff (h : m.Holds l) : m.parkSpace pos = 1 ↔ l.plate pos ≠ none := by
  have hs := h.slot pos
  cases hl : l.plate pos <;> simp_all [Car.Shows]

theorem free_eq (h : m.Holds l) (z : Zone) :
    l.free z = ({ i | Slot.zone i = z ∧ m.parkSpace i = 0 } : Finset Slot) := by
  ext i
  simp [Lot.mem_free, h.free_iff]

theorem wellFormed (h : m.Holds l) : m.WellFormed where
  parkSpace i := by
    have hs := h.slot i
    cases hl : l.plate i <;> simp_all [Car.Shows]
  occupied i := by rw [h.parkSpace_eq_one_iff, ne_eq, h.nil_iff]
  electric i hp hi := by
    obtain ⟨p, hl, hc, hpos, he⟩ := h.occupied hp
    have hz := (Slot.zone_eq_one_iff i).mpr hi
    exact ⟨hpos, by simp [he, hz], by rw [hc, p.head?_eq_iff, l.zone hl, hz]⟩
  fuel i hp hi := by
    obtain ⟨p, hl, hc, hpos, he⟩ := h.occupied hp
    have hz := (Slot.zone_eq_zero_iff i).mpr hi
    exact ⟨hpos, by simp [he, hz], by rw [hc, ne_eq, p.head?_eq_iff, l.zone hl, hz]; decide⟩
  spaceLeft := by
    simp only [h.spaceLeft, h.free_eq, Slot.zone_eq_one_iff, Slot.zone_eq_zero_iff, and_self]

end Memory.Holds

theorem reachable_represents {clock : ℤ} {s : State} (e : system.Run (.initial clock) s) :
    s.Represents :=
  occupancy.run (initial_represents clock) e e.allSteps_true

-- The redundant fields agree in every state that the server can reach.
theorem reachable_wellFormed {clock : ℤ} {s : State} (e : system.Run (.initial clock) s) :
    s.mem.WellFormed :=
  have ⟨_, hl⟩ := (reachable_represents e).mem
  hl.wellFormed

end Parking
