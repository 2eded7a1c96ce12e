import EmbeddedOS.FinalProject.Theorems.History
import EmbeddedOS.FinalProject.Theorems.Occupancy

namespace Parking

-- The request, the slot and the plate that the slot held, for each write of a payment or an exit.
def Event.write? : Event → Option (Plate × Slot × List UInt8)
  | quoted _ plate slot stored _ _ => some (plate, slot, stored)
  | marked _ plate slot stored     => some (plate, slot, stored)
  | expired _ plate slot stored    => some (plate, slot, stored)
  | freed _ plate slot stored      => some (plate, slot, stored)
  | cleared _ plate slot stored    => some (plate, slot, stored)
  | parked .. | credited .. | replied .. => none

-- All writes were made while their slot held the plate that the request had named.
def Memory.OwnWrites (m : Memory) : Prop :=
  ∀ e ∈ m.log, ∀ plate slot stored, e.write? = some (plate, slot, stored) → stored = plate.chars

-- The slot that a request still writes to holds its plate.
def Task.Owns (m : Memory) (t : Task) : Prop :=
  ∀ pos, t.index? = some pos → (m.car pos).licencePlate = t.plate.chars

-- When an exit frees a slot, no other request is going to write to it.
def FreedUnshared (s : State) (a : Action) : Prop :=
  ∀ c ∈ s.running? a, ∀ pos ∈ c.task.frees?, ∀ d ∈ s.others a, pos ∉ d.task.index?

instance (s : State) (a : Action) : Decidable (FreedUnshared s a) :=
  inferInstanceAs <| Decidable (∀ _ ∈ s.running? a, ∀ _ ∈ _, ∀ _ ∈ _, _ ∉ _)

variable {m m' : Memory} {pid : ℕ} {pos : Slot} {l : Lot} {clock : ℤ} {s : State} {t t' : Task}

theorem Task.Move.plate (h : t.Move pid m m' t') : t'.plate = t.plate := by
  cases h
  case entry h    => cases h <;> rfl
  case exitpark h => cases h <;> rfl
  case payment h  => cases h <;> rfl

theorem Payment.Move.index? {p p' : Payment} (h : p.Move pid m m' p')
    (hi : p'.index? = some pos) :
    p.index? = some pos ∨ (m' = m ∧ m.lookup p.plate = some pos) := by
  cases h
  case found i hpc hl => exact .inr ⟨rfl, by simp_all [Payment.index?]⟩
  all_goals simp_all [Payment.index?]

-- A request gets its slot from a scan.
theorem Task.Move.index? (h : t.Move pid m m' t') (hi : t'.index? = some pos) :
    t.index? = some pos ∨ (m' = m ∧ m.lookup t.plate = some pos) := by
  cases h
  case entry      => contradiction
  case exitpark h => exact h.index? hi
  case payment h  => exact h.index? hi

-- An exit does not use its slot any more once it has freed it.
theorem Task.Move.not_frees? (h : t.Move pid m m' t') (hi : t'.index? = some pos) :
    t.frees? ≠ some pos := by
  cases h
  case exitpark h => cases h <;> simp_all [Task.index?, Exitpark.index?, frees?]
  all_goals simp [frees?]

-- A statement writes to the slot that the request has looked up.
theorem Task.event?_write {e : Event} {plate : Plate} {stored : List UInt8}
    (h : t.event? pid m = some e) (hw : e.write? = some (plate, pos, stored)) :
    plate = t.plate ∧ t.index? = some pos ∧ stored = (m.car pos).licencePlate := by
  cases t
  case entry e =>
    cases hpc : e.pc <;> simp only [event?, Entry.event?, hpc] at h
    all_goals grind [Event.write?, Option.map_eq_some_iff]
  case exitpark x =>
    cases hpc : x.pc <;> simp only [event?, Exitpark.event?, hpc] at h
    all_goals grind [Event.write?, plate, index?, Exitpark.index?]
  case payment p =>
    cases hpc : p.pc <;> simp only [event?, Payment.event?, hpc] at h
    all_goals grind [Event.write?, plate, index?, Payment.index?]

theorem Memory.OwnWrites.step {c c' : Child} {i : Input} (h : m.OwnWrites)
    (ho : c.task.Owns m) (hs : c.step pid m i = some (m', c')) : m'.OwnWrites := by
  intro e he plate slot stored hw
  rcases Child.step_log hs with ⟨-, hl⟩ | rfl
  case inr => exact h e he plate slot stored hw
  case inl =>
    rw [hl, List.mem_append] at he
    cases he
    case inr he => exact h e he plate slot stored hw
    case inl he =>
      have ⟨hp, hi, hs⟩ := Task.event?_write (Option.mem_toList.mp he) hw
      rw [hp, hs, ho slot hi]

theorem Task.Read.index? {bytes : List UInt8} (h : t.Read bytes t') (hi : t'.index? = some pos) :
    t'.plate = t.plate ∧ t.index? = some pos := by
  cases h <;> simp_all [Task.plate, Task.index?, Payment.index?, Quote.read]

theorem Task.index?_kill (t : Task) : t.kill.index? = none := by
  cases t <;> rfl

theorem Child.owns_step {c c' : Child} {i : Input} (h : c.step pid m i = some (m', c'))
    (hl : m.Holds l) (ho : c.task.Owns m) : c'.task.Owns m' := by
  intro pos hi
  cases Change.of_step h
  case run h =>
    rw [h.plate]
    have hf := h.not_frees? hi
    rcases h.index? hi with hi | ⟨rfl, hi⟩
    case inl =>
      have ho := ho pos hi
      have hn : (m.car pos).licencePlate ≠ [] := ho ▸ c.task.plate.ne_nil
      rw [((LotStep.of_move h).licencePlate hl hn).resolve_right hf, ho]
    case inr => exact Memory.lookup_eq_some hi
  case read h hm =>
    have ⟨hp, hr⟩ := h.index? hi
    rw [hm, hp]
    exact ho pos hr
  case hangUp h hm =>
    rw [hm, h]
    exact ho pos <| h ▸ hi
  case sigpipe h _ => simp [h, Task.index?_kill] at hi

-- The assertions of the ownership proof: nobody takes a slot away from a request that is going to
-- write to it.
theorem ownership : Pool.Annotation server (fun (s : State) a => s.Represents ∧ FreedUnshared s a)
    Memory.OwnWrites (fun m _ c => c.task.Owns m) where
  spawn r _ := by
    cases r <;> simp [server, fork, Task.Owns, Task.index?, Exitpark.index?, Payment.index?]
  env hw h := by
    cases h
    exact ⟨hw, fun ho => ho⟩
  step {s pid i s'} hs hc a := by
    obtain ⟨_, hl⟩ := hc.left.mem
    have ho := hs.procs a.get
    exact ⟨hs.mem.step ho a.step, Child.owns_step a.step hl ho⟩
  other {s pid i s'} hs hc a {j q} hj hq pos hi := by
    obtain ⟨_, hl⟩ := hc.left.mem
    have ho := hs.procs hq pos hi
    rw [← ho]
    cases Child.Change.of_step a.step
    case run hr h =>
      subst hr
      apply ((LotStep.of_move h).licencePlate hl (ho ▸ q.task.plate.ne_nil)).resolve_right
      exact fun hf => hc.right _ a.get pos hf q (Pool.mem_others hj hq) hi
    all_goals rw [‹s'.mem = s.mem›]

theorem reachable_owned (e : system.Run (.initial clock) s) (hc : e.AllSteps FreedUnshared) :
    Pool.Annotated Memory.OwnWrites (fun m _ c => c.task.Owns m) s := by
  have h₀ : Pool.Annotated Memory.OwnWrites (fun m _ c => c.task.Owns m) (State.initial clock) :=
    ⟨by simp [State.initial, Memory.initial, Memory.OwnWrites], by simp [State.initial]⟩
  exact ownership.run h₀ e <| .and_reached (fun e _ => reachable_represents e) hc

-- As long as no exit frees a slot that another request is going to write to, all requests write to
-- the slots of their own cars only.
theorem ownWrites_of_freedUnshared (e : system.Run (.initial clock) s)
    (hc : e.AllSteps FreedUnshared) : s.mem.OwnWrites :=
  (reachable_owned e hc).mem

set_option maxRecDepth 2000 in
theorem ownWrites_of_orderly_visit : ∃ (s : State) (_ : system.Run (.initial 1700000000) s),
    s.mem.log.length = 9 ∧ s.mem.OwnWrites := by
  have ⟨s, e, he, hs⟩ := Machine.Run.exists_of_exec system (fun s a => decide (FreedUnshared s a))
    (.initial 1700000000) orderlyVisit (fun s => s.mem.log.length = 9) (by decide +kernel)
  exact ⟨s, e, of_decide_eq_true hs, ownWrites_of_freedUnshared e (by simpa using he)⟩

-- Two exits of one car look up its slot. After the first one the slot is given to another car, and
-- the second one frees it once more.
def staleExit : List Action :=
  [.spawn <| .entry 1 .a] ++ statements 0 6 ++
  [.spawn <| .pay .a] ++ statements 1 4 ++
  [.act 1 <| .reply <| C.ascii "20\n"] ++ statements 1 10 ++
  [.spawn <| .exit .a, .spawn <| .exit .a] ++
  statements 2 4 ++ statements 3 4 ++ statements 2 3 ++
  [.spawn <| .entry 1 .b] ++ statements 4 4 ++ statements 3 3

set_option maxRecDepth 2000 in
theorem ownWrites_broken : ¬ ∀ (clock : ℤ) (s : State) (e : system.Run (.initial clock) s),
    e.AllSteps (atomicSections · · = true) → s.mem.OwnWrites := by
  intro h
  have ⟨s, e, he, hs⟩ := Machine.Run.exists_of_exec system atomicSections (.initial 1700000000)
    staleExit (fun s => .freed 3 .a 8 [66] ∈ s.mem.log) (by decide +kernel)
  have ho := h _ s e he _ (of_decide_eq_true hs) _ _ _ rfl
  exact absurd ho (by decide)

end Parking
