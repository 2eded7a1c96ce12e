import EmbeddedOS.FinalProject.Theorems.LotStep
import EmbeddedOS.Library.Deferred

namespace Parking

-- The write to an LED that a child has still to make, from its section on.
def Entry.light? (e : Entry) : Option (Slot × ℤ) :=
  match e.pc with
  | .release (some pos) | .light pos => some (pos, 0)
  | _ => none

def Exitpark.light? (x : Exitpark) : Option (Slot × ℤ) :=
  match x.pc with
  | .releaseFree pos | .success pos | .light pos => some (pos, 1)
  | _ => none

def Task.light? : Task → Option (Slot × ℤ)
  | entry e    => e.light?
  | exitpark x => x.light?
  | payment _  => none

def Child.light? (c : Child) : Option (Slot × ℤ) :=
  c.task.light?

-- The values that the LEDs should have, and the ones that the driver has set.
def Memory.ledsWanted (m : Memory) (i : Slot) : ℤ :=
  1 - m.parkSpace i

def Memory.leds (m : Memory) (i : Slot) : ℤ :=
  m.pins (gpio i)

-- With no request in progress, the LED of a slot is on exactly if the slot is taken.
def State.LedsTellTruth (s : State) : Prop :=
  (∀ c ∈ s.procs, c.task.ended) → ∀ i, (s.mem.pins (gpio i) = 0 ↔ s.mem.parkSpace i = 1) ∧
    (s.mem.pins (gpio i) = 1 ↔ s.mem.parkSpace i = 0)

-- A slot changes hands only while no other child has still to write to its LED, and no child dies
-- before it has written to the LED of its slot.
def LedsInTurn (s : State) (a : Action) : Prop :=
  (∀ c ∈ s.running? a, ∀ pos, pos ∈ c.task.parks? s.mem ∨ pos ∈ c.task.frees? →
    ∀ d ∈ s.others a, ∀ l ∈ d.light?, l.1 ≠ pos) ∧ ∀ c ∈ s.killed? a, c.light? = none

instance (s : State) (a : Action) : Decidable (LedsInTurn s a) :=
  inferInstanceAs <| Decidable ((∀ _ ∈ s.running? a, ∀ _, _ → ∀ _ ∈ _, ∀ _ ∈ _, _) ∧ ∀ _ ∈ _, _)

variable {m m' : Memory} {pid : ℕ} {pos : Slot} {clock : ℤ} {s : State} {t t' : Task}

theorem Memory.leds_light (m : Memory) (pos : Slot) (v : ℤ) :
    { m with pins := Function.update m.pins (gpio pos) v }.leds = Function.update m.leds pos v :=
  Function.update_comp_eq_of_injective m.pins (fun _ _ => gpio_injective) pos v

-- What a statement does to the slots and the LEDs.
inductive LightStep (m : Memory) (t : Task) (m' : Memory) (t' : Task) : Prop
  | quiet (ho : t'.light? = t.light?) (hp : m'.parkSpace = m.parkSpace) (hl : m'.pins = m.pins)
  | change (pos : Slot) (v : ℤ) (hs : t.parks? m = some pos ∨ t.frees? = some pos)
      (ho : t.light? = none) (ho' : t'.light? = some (pos, v))
      (hp : m'.parkSpace = Function.update m.parkSpace pos (1 - v)) (hl : m'.pins = m.pins)
  | write (pos : Slot) (v : ℤ) (ho : t.light? = some (pos, v)) (ho' : t'.light? = none)
      (hp : m'.parkSpace = m.parkSpace) (hl : m'.pins = Function.update m.pins (gpio pos) v)

namespace LightStep

theorem of_entry {e e' : Entry} (h : e.Move pid m m' e') :
    LightStep m (.entry e) m' (.entry e') := by
  cases h
  case allocate pos hpc hf =>
    exact .change pos 0 (.inl <| by simp [Task.parks?, hpc, hf])
      (by simp [Task.light?, Entry.light?, hpc]) rfl rfl rfl
  case light pos hpc => exact .write pos 0 (by simp [Task.light?, Entry.light?, hpc]) rfl rfl rfl
  all_goals exact .quiet (by simp [Task.light?, Entry.light?, *]) rfl rfl

theorem of_exitpark {x x' : Exitpark} (h : x.Move pid m m' x') :
    LightStep m (.exitpark x) m' (.exitpark x') := by
  cases h
  case free pos z hpc _ =>
    exact .change pos 1 (.inr <| by simp [Task.frees?, hpc])
      (by simp [Task.light?, Exitpark.light?, hpc]) rfl rfl rfl
  case light pos hpc => exact .write pos 1 (by simp [Task.light?, Exitpark.light?, hpc]) rfl rfl rfl
  all_goals exact .quiet (by simp [Task.light?, Exitpark.light?, *]) rfl rfl

theorem of_payment {p p' : Payment} (h : p.Move pid m m' p') :
    LightStep m (.payment p) m' (.payment p') := by
  cases h <;> exact .quiet rfl rfl rfl

theorem of_move (h : t.Move pid m m' t') : LightStep m t m' t' := by
  cases h
  case entry h    => exact of_entry h
  case exitpark h => exact of_exitpark h
  case payment h  => exact of_payment h

theorem deferred (h : LightStep m t m' t') :
    Pool.Deferred m.ledsWanted m.leds m'.ledsWanted m'.leds t.light? t'.light? := by
  cases h
  case quiet ho hp hl =>
    exact .quiet ho (by simp [Memory.ledsWanted, hp, funext_iff])
      (by simp [Memory.leds, hl, funext_iff])
  case change pos v _ ho ho' hp hl =>
    refine .change pos v ho ho' ?_ (by simp [Memory.leds, hl, funext_iff])
    funext i
    by_cases hi : i = pos <;> simp [Memory.ledsWanted, hp, hi]
  case write pos v ho ho' hp hl =>
    refine .write pos v ho ho' (by simp [Memory.ledsWanted, hp, funext_iff]) ?_
    rw [← Memory.leds_light]
    simp [Memory.leds, hl, funext_iff]

end LightStep

theorem Task.Read.light? {bytes : List UInt8} (h : t.Read bytes t') : t'.light? = t.light? := by
  cases h <;> rfl

theorem Task.light?_kill (t : Task) : t.kill.light? = none := by
  cases t <;> rfl

theorem Task.light?_of_ended (h : t.ended) : t.light? = none := by
  cases t
  case entry e    => cases hpc : e.pc <;> simp_all [ended, Entry.ended, light?, Entry.light?]
  case exitpark x => cases hpc : x.pc <;> simp_all [ended, Exitpark.ended, light?, Exitpark.light?]
  case payment    => rfl

theorem Child.step_light {c c' : Child} {i : Input} (h : c.step pid m i = some (m', c')) :
    (i = .run ∧ LightStep m c.task m' c'.task) ∨ (i = .sigpipe ∧ m' = m ∧ c'.light? = none) ∨
      (m' = m ∧ c'.light? = c.light?) := by
  cases Change.of_step h
  case run hi h          => exact .inl ⟨hi, .of_move h⟩
  case read h hm         => exact .inr <| .inr ⟨hm, h.light?⟩
  case hangUp h hm       => exact .inr <| .inr ⟨hm, by rw [light?, light?, h]⟩
  case sigpipe hi _ h hm => exact .inr <| .inl ⟨hi, hm, by rw [light?, h, Task.light?_kill]⟩

theorem leds_writeBehind :
    Pool.WriteBehind server LedsInTurn Memory.ledsWanted Memory.leds Child.light? where
  spawn r := by cases r <;> rfl
  env h := by cases h; exact ⟨rfl, rfl⟩
  step {s pid i s'} hc a := by
    rcases Child.step_light a.step with ⟨_, h⟩ | ⟨hi, hm, h⟩ | ⟨hm, h⟩
    case inl => exact h.deferred
    case inr.inl =>
      subst hi
      exact .quiet (by rw [h, hc.right _ a.get]) (by rw [hm]) (by rw [hm])
    case inr.inr => exact .quiet h (by rw [hm]) (by rw [hm])
  alone {s pid i s' pos v} hc a ho ho' q hq w hw := by
    rcases Child.step_light a.step with ⟨hi, h⟩ | ⟨_, _, h⟩ | ⟨_, h⟩
    case inl =>
      subst hi
      cases h
      case quiet h _ _ => simp_all [Child.light?]
      case write h _ _ => simp_all [Child.light?]
      case change pos' _ hs _ h _ _ =>
        have hp : pos' = pos := by simp_all [Child.light?]
        exact hc.left _ a.get pos' hs q hq _ hw hp.symm
    case inr.inl => simp_all
    case inr.inr => simp_all

theorem initial_inSync (clock : ℤ) :
    Pool.InSync Memory.ledsWanted Memory.leds Child.light? (State.initial clock) := by
  have hl : ∀ i, darken (fun _ => 0) (gpio i) = 1 := by decide
  constructor
  case value | unique => simp [State.initial]
  case copy => simp [State.initial, Memory.initial, Memory.leds, Memory.ledsWanted, hl]

-- As long as the LEDs are written in the order in which their slots change hands, they tell the
-- truth whenever no request is in progress.
theorem ledsTellTruth_of_ledsInTurn (e : system.Run (.initial clock) s)
    (hc : e.AllSteps LedsInTurn) : s.LedsTellTruth := by
  intro hq i
  have hs := Pool.InSync.run leds_writeBehind (initial_inSync clock) e hc
  have hl := hs.copy i fun c hm v hv => by
    simp [Child.light?, Task.light?_of_ended (hq c hm)] at hv
  simp only [Memory.leds, Memory.ledsWanted] at hl
  omega

set_option maxRecDepth 2000 in
theorem ledsTellTruth_of_orderly_visit : ∃ (s : State) (_ : system.Run (.initial 1700000000) s),
    (∀ c ∈ s.procs, c.task.ended) ∧ s.mem.log.length = 9 ∧ s.LedsTellTruth := by
  have ⟨s, e, he, hs⟩ := Machine.Run.exists_of_exec system (fun s a => decide (LedsInTurn s a))
    (.initial 1700000000) orderlyVisit
    (fun s => (∀ c ∈ s.procs, c.task.ended) ∧ s.mem.log.length = 9) (by decide +kernel)
  have ⟨hq, hl⟩ := of_decide_eq_true hs
  exact ⟨s, e, hq, hl, ledsTellTruth_of_ledsInTurn e (by simpa using he)⟩

-- After an exit has freed its slot, another car gets the slot and its LED is switched on. Only then
-- the exit switches the LED off.
def lateDarkening : List Action :=
  [.spawn <| .entry 1 .a] ++ statements 0 6 ++
  [.spawn <| .pay .a] ++ statements 1 4 ++
  [.act 1 <| .reply <| C.ascii "20\n"] ++ statements 1 10 ++
  [.spawn <| .exit .a] ++ statements 2 7 ++
  [.spawn <| .entry 1 .b] ++ statements 3 6 ++ statements 2 2

set_option maxRecDepth 2000 in
theorem ledsTellTruth_broken : ¬ ∀ (clock : ℤ) (s : State) (e : system.Run (.initial clock) s),
    e.AllSteps (atomicSections · · = true) → s.LedsTellTruth := by
  intro h
  have ⟨s, e, he, hs⟩ := Machine.Run.exists_of_exec system atomicSections (.initial 1700000000)
    lateDarkening (fun s => (∀ c ∈ s.procs, c.task.ended) ∧ s.mem.pins (gpio 8) = 1 ∧
      s.mem.parkSpace 8 = 1) (by decide +kernel)
  have ⟨hq, hl, hp⟩ := of_decide_eq_true hs
  have := (h _ s e he hq 8).right.mp hl
  omega

end Parking
