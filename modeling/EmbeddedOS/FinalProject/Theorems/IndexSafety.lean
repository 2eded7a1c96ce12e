import EmbeddedOS.FinalProject.Theorems.Occupancy

namespace Parking

-- The next statement of an exit uses indices inside of the arrays `car`, `park_space`, `space_left`
-- and `gpio_list` only, and no earlier one has left them.
def Exitpark.InRange (m : Memory) (x : Exitpark) : Prop :=
  match x.pc with
  | .checkPaid pos => 0 ≤ pos ∧ pos < 16
  | .free pos      => (m.car pos).elec = 0 ∨ (m.car pos).elec = 1
  | .light pos     => (etxWrite m.pins [pos.val.toUInt8, 1]).isSome
  | .faulted | .faultedInside => False
  | _ => True

def Task.exit? : Task → Option Exitpark
  | exitpark x => some x
  | _ => none

def State.ExitsInRange (s : State) : Prop :=
  ∀ c ∈ s.procs, ∀ x ∈ c.task.exit?, x.InRange s.mem

-- What an exit has found with its scans is still there.
def Exitpark.Finds (m : Memory) (x : Exitpark) : Prop :=
  match x.pc with
  | .rescan        => ∃ i, (m.car i).licencePlate = x.plate.chars
  | .checkPaid pos => ∃ i, slot? pos = some i ∧ (m.car i).licencePlate = x.plate.chars
  | .checkTime pos | .acquireLate pos | .expire pos | .acquireFree pos | .free pos =>
    (m.car pos).licencePlate = x.plate.chars
  | .faulted | .faultedInside => False
  | _ => True

def Task.Finds (m : Memory) : Task → Prop
  | exitpark x => x.Finds m
  | _ => True

-- The plate that an exit is about to look for a second time.
def Task.rescans? : Task → Option Plate
  | exitpark x => if x.pc = .rescan then some x.plate else none
  | _ => none

-- When an exit frees a slot, no other exit still uses the slot, and none that is between its two
-- scans has nothing but this slot to find.
def FreedOnce (s : State) (a : Action) : Prop :=
  ∀ c ∈ s.running? a, ∀ pos ∈ c.task.frees?, ∀ d ∈ s.others a, pos ∉ d.task.exitIndex? ∧
    ∀ plate ∈ d.task.rescans?, ∃ i, i ≠ pos ∧ (s.mem.car i).licencePlate = plate.chars

instance (s : State) (a : Action) : Decidable (FreedOnce s a) :=
  inferInstanceAs <| Decidable (∀ _ ∈ s.running? a, ∀ _ ∈ _, ∀ _ ∈ _, _ ∉ _ ∧ ∀ _ ∈ _, ∃ _, _)

variable {m m' : Memory} {pid : ℕ} {pos : Slot} {l : Lot} {clock : ℤ} {s : State} {t t' : Task}

theorem zone?_of_stored {plate : Plate} (h : m.Holds l)
    (hp : (m.car pos).licencePlate = plate.chars) : zone? (m.car pos).elec = some pos.zone :=
  h.zone? fun hn => plate.ne_nil <| hp ▸ h.nil_iff.mp hn

theorem Exitpark.Finds.move {x x' : Exitpark} (hf : x.Finds m) (hl : m.Holds l)
    (h : x.Move pid m m' x') : x'.Finds m' := by
  cases h
  case found i hpc hi => exact ⟨i, Memory.lookup_eq_some hi⟩
  case rescan hpc =>
    simp only [Finds, hpc] at hf
    obtain ⟨i, hi⟩ := hf
    simp only [Finds, goto_pc, goto_plate, Memory.slot?_scanIndex]
    cases hs : m.lookup x.plate
    case none   => exact absurd hi <| Memory.lookup_eq_none.mp hs i
    case some j => exact ⟨j, rfl, Memory.lookup_eq_some hs⟩
  case fault hpc hi     => simp [Finds, hpc, hi] at hf
  case paid hpc hi _    => simpa [Finds, hpc, hi] using hf
  case clear pos hpc hz =>
    simp only [Finds, hpc] at hf
    simp [zone?_of_stored hl hf] at hz
  case late hpc _ | inTime hpc _ => simpa [Finds, hpc] using hf
  case acquireLate hpc _ | acquireFree hpc _ => simpa [Finds, hpc] using hf
  all_goals trivial

theorem Task.Finds.move (hf : t.Finds m) (hl : m.Holds l) (h : t.Move pid m m' t') :
    t'.Finds m' := by
  cases h
  case exitpark h => exact Exitpark.Finds.move hf hl h
  all_goals trivial

theorem Task.Read.finds {bytes : List UInt8} (h : t.Read bytes t') : t'.Finds m := by
  cases h <;> trivial

-- Slots may lose their plates, except for the slots that the exit depends on.
theorem Task.Finds.of_kept (hf : t.Finds m)
    (hi : ∀ i, t.exitIndex? = some i → (m.car i).licencePlate = t.plate.chars →
      (m'.car i).licencePlate = t.plate.chars)
    (hr : ∀ plate, t.rescans? = some plate → (∃ i, (m.car i).licencePlate = plate.chars) →
      ∃ i, (m'.car i).licencePlate = plate.chars) : t.Finds m' := by
  cases t
  case exitpark x =>
    simp only [Finds, exitIndex?, rescans?, plate] at *
    cases hpc : x.pc <;> simp only [Exitpark.Finds, Exitpark.index?, hpc] at *
    case rescan => exact hr x.plate rfl hf
    case checkPaid pos =>
      obtain ⟨i, hs, hp⟩ := hf
      exact ⟨i, hs, hi i hs hp⟩
    case checkTime pos | acquireLate pos | expire pos | acquireFree pos | free pos =>
      exact hi pos rfl hf
  all_goals trivial

theorem Task.Finds.kill : t.kill.Finds m := by
  cases t <;> trivial

-- The assertions of the index proof: an exit still finds what its scans have found.
theorem findings : Pool.Annotation server (fun (s : State) a => s.Represents ∧ FreedOnce s a)
    (fun _ => True) (fun m _ c => c.task.Finds m) where
  spawn r _ := by cases r <;> trivial
  env _ h := by
    cases h
    exact ⟨trivial, fun hf => hf.of_kept (fun _ _ hp => hp) (fun _ _ hp => hp)⟩
  step {s pid i s'} hs hc a := by
    have ⟨_, hl⟩ := hc.left.mem
    have hf := hs.procs a.get
    refine ⟨trivial, ?_⟩
    cases Child.Change.of_step a.step
    case run h       => exact hf.move hl h
    case read h _    => exact h.finds
    case hangUp h hm => exact hm ▸ h ▸ hf
    case sigpipe h _ => exact h ▸ .kill
  other {s pid i s'} hs hc a {j q} hj hq := by
    have ⟨_, hl⟩ := hc.left.mem
    cases Child.Change.of_step a.step
    case run hr h =>
      subst hr
      have hk : ∀ {i} {plate : Plate}, (s.mem.car i).licencePlate = plate.chars →
          a.pre.task.frees? ≠ some i → (s'.mem.car i).licencePlate = plate.chars := by
        intro i plate hp hf
        have hk := (LotStep.of_move h).licencePlate hl (hp ▸ plate.ne_nil)
        rw [hk.resolve_right hf, hp]
      have hc := fun pos hf => hc.right _ a.get pos hf q (Pool.mem_others hj hq)
      apply (hs.procs hq).of_kept
      case hi => exact fun i hi hp => hk hp fun hf => (hc i hf).left hi
      case hr =>
        intro plate hr ⟨i, hp⟩
        cases hf : a.pre.task.frees?
        case none => exact ⟨i, hk hp (by simp [hf])⟩
        case some pos =>
          have ⟨j, hn, hp⟩ := (hc pos hf).right plate hr
          exact ⟨j, hk hp (by simpa [hf] using Ne.symm hn)⟩
    all_goals exact ‹s'.mem = s.mem› ▸ hs.procs hq

theorem reachable_finds (e : system.Run (.initial clock) s) (hc : e.AllSteps FreedOnce) :
    Pool.Annotated (fun _ => True) (fun m _ c => c.task.Finds m) s := by
  have h₀ : Pool.Annotated (fun _ => True) (fun m _ c => c.task.Finds m) (State.initial clock) :=
    ⟨trivial, by simp [State.initial]⟩
  exact findings.run h₀ e <| .and_reached (fun e _ => reachable_represents e) hc

theorem Exitpark.Finds.inRange {x : Exitpark} (h : x.Finds m) (hl : m.Holds l) : x.InRange m := by
  cases hpc : x.pc <;> simp only [Finds, InRange, hpc] at h ⊢
  case checkPaid pos =>
    have ⟨_, hs, _⟩ := h
    simp only [slot?] at hs
    split at hs
    case isTrue hr => exact hr
    case isFalse => contradiction
  case free pos =>
    have hz := zone?_of_stored hl h
    simp only [zone?] at hz
    grind
  case light pos => simp [etxWrite_eq]

-- As long as no exit frees a slot that another exit of the car depends on, all indices of the exits
-- are in range.
theorem exitsInRange_of_freedOnce (e : system.Run (.initial clock) s)
    (hc : e.AllSteps FreedOnce) : s.ExitsInRange := by
  intro c hm x hx
  have ⟨_, hl⟩ := (reachable_represents e).mem
  have ⟨_, hp⟩ := List.getElem?_of_mem hm
  have hf := (reachable_finds e hc).procs hp
  cases ht : c.task <;> rw [ht] at hx hf
  case exitpark =>
    cases hx
    exact Exitpark.Finds.inRange hf hl
  all_goals contradiction

set_option maxRecDepth 2000 in
theorem exitsInRange_of_orderly_visit : ∃ (s : State) (_ : system.Run (.initial 1700000000) s),
    s.procs.length = 3 ∧ s.ExitsInRange := by
  have ⟨s, e, he, hs⟩ := Machine.Run.exists_of_exec system (fun s a => decide (FreedOnce s a))
    (.initial 1700000000) orderlyVisit (fun s => s.procs.length = 3) (by decide +kernel)
  exact ⟨s, e, of_decide_eq_true hs, exitsInRange_of_freedOnce e (by simpa using he)⟩

-- Of two exits of one car, the second one has still its second scan to do when the first one is
-- through. The scan finds nothing, and `car[-1]` is read.
def lateRescan : List Action :=
  [.spawn <| .entry 1 .a] ++ statements 0 6 ++
  [.spawn <| .pay .a] ++ statements 1 4 ++
  [.act 1 <| .reply <| C.ascii "20\n"] ++ statements 1 10 ++
  [.spawn <| .exit .a, .spawn <| .exit .a] ++
  statements 3 1 ++ statements 2 7 ++ statements 3 1

set_option maxRecDepth 2000 in
theorem exitsInRange_broken : ¬ ∀ (clock : ℤ) (s : State) (e : system.Run (.initial clock) s),
    e.AllSteps (atomicSections · · = true) → s.ExitsInRange := by
  intro h
  have ⟨s, e, he, hs⟩ := Machine.Run.exists_of_exec system atomicSections (.initial 1700000000)
    lateRescan (fun s => (s.procs[3]?.bind (·.task.exit?)).map (·.pc) = some (.checkPaid (-1)))
    (by decide +kernel)
  have ⟨x, hx, hpc⟩ := Option.map_eq_some_iff.mp (of_decide_eq_true hs)
  have ⟨c, hc, hx⟩ := Option.bind_eq_some_iff.mp hx
  have hr := h _ s e he c (List.mem_of_getElem? hc) x hx
  simp [Exitpark.InRange, hpc] at hr

end Parking
