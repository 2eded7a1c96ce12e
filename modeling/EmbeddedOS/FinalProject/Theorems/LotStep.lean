import EmbeddedOS.FinalProject.Theorems.Moves
import EmbeddedOS.FinalProject.Lot

namespace Parking

variable {m m' : Memory} {pid : ℕ}

theorem Plate.eq_of_chars {p q : Plate} (h : p.chars = q.chars) : p = q := by
  cases p; cases q; cases h; rfl

theorem Memory.lookup_eq_some {plate : Plate} {i : Slot} (h : m.lookup plate = some i) :
    (m.car i).licencePlate = plate.chars := by
  simpa using List.find?_some h

theorem Memory.lookup_eq_none {plate : Plate} :
    m.lookup plate = none ↔ ∀ i, (m.car i).licencePlate ≠ plate.chars := by
  simp [Memory.lookup, List.find?_eq_none]

theorem entryOrder_zone (electric : Bool) (entryNum : ℤ) (i : Fin 8) :
    (entryOrder electric entryNum i).zone = if electric then 1 else 0 := by
  cases electric <;> cases h : decide (entryNum = 1) <;>
    simp only [entryOrder, h, Slot.zone, Fin.lt_def] <;> split <;> simp_all <;> omega

theorem Memory.freeSlot_eq_some {plate : Plate} {n : ℤ} {i : Slot}
    (h : m.freeSlot plate n = some i) : m.parkSpace i = 0 ∧ plate.zone = i.zone := by
  have hf := List.find?_some h
  have hm := List.mem_of_find?_eq_some h
  simp only [List.mem_map] at hm
  obtain ⟨j, -, rfl⟩ := hm
  exact ⟨by simpa using hf, by rw [entryOrder_zone, Plate.zone]⟩

theorem Task.parks?_free {t : Task} {i : Slot} (h : t.parks? m = some i) :
    m.parkSpace i = 0 ∧ t.plate.zone = i.zone := by
  cases t <;> simp only [parks?] at h
  case entry =>
    split at h
    case isTrue  => exact Memory.freeSlot_eq_some h
    case isFalse => contradiction
  all_goals contradiction

-- What the next statement of a child does to the lot.
inductive LotStep (pid : ℕ) (m : Memory) (t : Task) (m' : Memory) : Prop
  | same (hp : t.parks? m = none) (hf : t.frees? = none) (h : m'.SameLot m)
  | park (pos : Slot) (hp : t.parks? m = some pos) (hf : t.frees? = none)
      (hm : m' = m.park pid t.plate pos)
  | leave (pos : Slot) (z : Zone) (hp : t.parks? m = none) (hf : t.frees? = some pos)
      (hz : zone? (m.car pos).elec = some z) (hm : m' = m.leave pid t.plate pos z)
  | fault (pos : Slot) (hp : t.parks? m = none) (hf : t.frees? = some pos)
      (hz : zone? (m.car pos).elec = none) (hm : m' = m.clearCar pid t.plate pos)

namespace LotStep

theorem of_entry {e e' : Entry} (h : e.Move pid m m' e') : LotStep pid m (.entry e) m' := by
  cases h
  case allocate pos hpc hf => exact .park pos (by simp [Task.parks?, hpc, hf]) rfl rfl
  all_goals exact .same (by simp [Task.parks?, *]) rfl (.of_car rfl rfl rfl)

theorem of_exitpark {x x' : Exitpark} (h : x.Move pid m m' x') :
    LotStep pid m (.exitpark x) m' := by
  cases h
  case clear pos hpc hz  => exact .fault pos rfl (by simp [Task.frees?, hpc]) hz rfl
  case free pos z hpc hz => exact .leave pos z rfl (by simp [Task.frees?, hpc]) hz rfl
  case expire pos hpc =>
    refine .same rfl (by simp [Task.frees?, hpc]) <| .note ?_
    exact .setCar (fun _ => rfl) (fun _ => rfl) (fun _ => rfl)
  all_goals exact .same rfl (by simp [Task.frees?, *]) (.of_car rfl rfl rfl)

theorem of_payment {p p' : Payment} (h : p.Move pid m m' p') : LotStep pid m (.payment p) m' := by
  refine .same rfl rfl ?_
  cases h
  case quote | mark => exact .note <| .setCar (fun _ => rfl) (fun _ => rfl) (fun _ => rfl)
  all_goals exact .of_car rfl rfl rfl

theorem of_move {t t' : Task} (h : t.Move pid m m' t') : LotStep pid m t m' := by
  cases h
  case entry h    => exact of_entry h
  case exitpark h => exact of_exitpark h
  case payment h  => exact of_payment h

end LotStep

-- A step of the server executes the next statement of a child, or it leaves the lot alone.
theorem State.step_lot {s s' : State} {a : Action} (h : system.step s a = some s') :
    (∃ pid c, a = .act pid .run ∧ s.running? a = some c ∧ LotStep pid s.mem c.task s'.mem) ∨
      (s.running? a = none ∧ s'.mem.SameLot s.mem) := by
  cases a
  case spawn r =>
    cases Pool.spawn_eq h
    exact .inr ⟨rfl, .refl _⟩
  case act pid i =>
    have ⟨a⟩ := Pool.Acts.of_step h
    cases Child.Change.of_step a.step
    case run hi ht =>
      subst hi
      exact .inl ⟨pid, a.pre, rfl, a.get, .of_move ht⟩
    case read hi _ _ hm =>
      refine .inr ⟨?_, hm ▸ .refl _⟩
      cases i
      case run => exact absurd rfl hi.left
      all_goals rfl
    all_goals exact .inr ⟨by subst ‹i = _›; rfl, ‹s'.mem = s.mem› ▸ .refl _⟩
  case env d =>
    have ⟨_, hm, hs⟩ := Pool.env_eq h
    cases hm
    exact .inr ⟨rfl, hs ▸ .of_car rfl rfl rfl⟩

end Parking
