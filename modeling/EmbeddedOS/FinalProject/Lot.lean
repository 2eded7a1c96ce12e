import EmbeddedOS.FinalProject.Entry
import EmbeddedOS.FinalProject.Exitpark

namespace Parking

-- What the car park is about: which car stands where, with every car in the zone for its kind.
structure Lot where
  plate : Slot → Option Plate
  zone  : ∀ {i p}, plate i = some p → p.zone = i.zone

namespace Lot

def empty : Lot where
  plate _ := none
  zone    := nofun

def park (l : Lot) (p : Plate) (i : Slot) (h : p.zone = i.zone) : Lot where
  plate := Function.update l.plate i p
  zone {j q} hq := by
    by_cases hj : j = i
    case pos => subst hj; simp at hq; exact hq ▸ h
    case neg => simp [hj] at hq; exact l.zone hq

def leave (l : Lot) (i : Slot) : Lot where
  plate := Function.update l.plate i none
  zone {j q} hq := by
    by_cases hj : j = i
    case pos => subst hj; simp at hq
    case neg => simp [hj] at hq; exact l.zone hq

def free (l : Lot) (z : Zone) : Finset Slot :=
  { i | i.zone = z ∧ l.plate i = none }

variable {l : Lot} {p : Plate} {i : Slot} {z : Zone}

theorem mem_free : i ∈ l.free z ↔ i.zone = z ∧ l.plate i = none := by
  simp [free]

theorem free_park (h : p.zone = i.zone) (z : Zone) :
    (l.park p i h).free z = (l.free z).erase i := by
  ext j
  by_cases hj : j = i <;> simp [mem_free, park, hj]

theorem free_leave : (l.leave i).free i.zone = insert i (l.free i.zone) := by
  ext j
  by_cases hj : j = i <;> simp [mem_free, leave, hj]

theorem free_leave_of_ne (h : i.zone ≠ z) : (l.leave i).free z = l.free z := by
  ext j
  by_cases hj : j = i <;> simp [mem_free, leave, hj, h]

end Lot

-- What the fields of a slot are when the lot has this car, or no car, in it.
def Car.Shows (c : Car) (parkSpace : ℤ) (i : Slot) : Option Plate → Prop
  | none   => parkSpace = 0 ∧ c.licencePlate = []
  | some p => parkSpace = 1 ∧ c.licencePlate = p.chars ∧ c.pos = i ∧ c.elec = i.zone

-- The memory represents a lot: all of its redundant fields say the same.
structure Memory.Holds (m : Memory) (l : Lot) : Prop where
  slot      : ∀ i, (m.car i).Shows (m.parkSpace i) i (l.plate i)
  spaceLeft : ∀ z, m.spaceLeft z = (l.free z).card

-- Two memories that agree on all fields that represent the lot.
structure Memory.SameLot (m₁ m₂ : Memory) : Prop where
  licencePlate : ∀ i, (m₁.car i).licencePlate = (m₂.car i).licencePlate
  elec         : ∀ i, (m₁.car i).elec = (m₂.car i).elec
  pos          : ∀ i, (m₁.car i).pos = (m₂.car i).pos
  parkSpace    : m₁.parkSpace = m₂.parkSpace
  spaceLeft    : m₁.spaceLeft = m₂.spaceLeft

namespace Memory

variable {m m₁ m₂ : Memory} {l : Lot} {i : Slot} {p : Plate} {pid : ℕ}

@[refl]
theorem SameLot.refl (m : Memory) : m.SameLot m :=
  ⟨fun _ => rfl, fun _ => rfl, fun _ => rfl, rfl, rfl⟩

theorem SameLot.of_car (h : m₁.car = m₂.car) (hp : m₁.parkSpace = m₂.parkSpace)
    (hs : m₁.spaceLeft = m₂.spaceLeft) : m₁.SameLot m₂ := by
  constructor <;> simp [*]

theorem SameLot.setCar {f : Car → Car} (hl : ∀ c, (f c).licencePlate = c.licencePlate)
    (he : ∀ c, (f c).elec = c.elec) (hp : ∀ c, (f c).pos = c.pos) : (m.setCar i f).SameLot m := by
  constructor
  case parkSpace | spaceLeft => rfl
  all_goals
    intro j
    by_cases hj : j = i <;> simp [hj, hl, he, hp]

theorem SameLot.note {e : Event} (h : m₁.SameLot m₂) : (m₁.note e).SameLot m₂ :=
  ⟨h.licencePlate, h.elec, h.pos, h.parkSpace, h.spaceLeft⟩

theorem Holds.congr (hl : m₁.Holds l) (h : m₂.SameLot m₁) : m₂.Holds l where
  slot i := by
    have := hl.slot i
    cases hp : l.plate i <;> simp_all [Car.Shows, h.licencePlate, h.elec, h.pos, h.parkSpace]
  spaceLeft z := h.spaceLeft ▸ hl.spaceLeft z

theorem Holds.free_iff (h : m.Holds l) : l.plate i = none ↔ m.parkSpace i = 0 := by
  have := h.slot i
  cases hp : l.plate i <;> simp_all [Car.Shows]

theorem Holds.nil_iff (h : m.Holds l) : l.plate i = none ↔ (m.car i).licencePlate = [] := by
  have := h.slot i
  cases hp : l.plate i
  case none => simp_all [Car.Shows]
  case some p =>
    have := p.ne_nil
    simp_all [Car.Shows]

theorem Holds.park (h : m.Holds l) (hf : l.plate i = none) (hz : p.zone = i.zone) :
    (m.park pid p i).Holds (l.park p i hz) where
  slot j := by
    by_cases hj : j = i
    case pos =>
      subst hj
      have he : (if p.electric then (1 : ℤ) else 0) = j.zone := by
        rw [← hz, Plate.zone]; split <;> rfl
      simp [Lot.park, Car.Shows, he]
    case neg =>
      simpa [Lot.park, hj] using h.slot j
  spaceLeft z := by
    rw [Lot.free_park hz]
    by_cases hz' : z = p.zone
    case pos =>
      have hm : i ∈ l.free z := Lot.mem_free.mpr ⟨by rw [hz', hz], hf⟩
      have hc := Finset.card_pos.mpr ⟨i, hm⟩
      subst hz'
      simp [h.spaceLeft, Finset.card_erase_of_mem hm, Nat.cast_sub hc]
    case neg =>
      have hm : i ∉ l.free z := fun hm => hz' <| hz ▸ (Lot.mem_free.mp hm).left.symm
      simp [hz', h.spaceLeft, Finset.erase_eq_of_notMem hm]

theorem Holds.leave (h : m.Holds l) (hn : l.plate i ≠ none) :
    (m.leave pid p i i.zone).Holds (l.leave i) where
  slot j := by
    by_cases hj : j = i
    case pos => subst hj; simp [Lot.leave, Car.Shows]
    case neg => simpa [Lot.leave, hj] using h.slot j
  spaceLeft z := by
    by_cases hz : i.zone = z
    case pos =>
      subst hz
      have hm : i ∉ l.free i.zone := by simp [Lot.mem_free, hn]
      simp [h.spaceLeft, Lot.free_leave, Finset.card_insert_of_notMem hm]
    case neg =>
      simp [Ne.symm hz, h.spaceLeft, Lot.free_leave_of_ne hz]

end Memory
end Parking
