import EmbeddedOS.FinalProject.Theorems.Uniqueness
import EmbeddedOS.FinalProject.Theorems.Visits

namespace Parking

variable {m m' : Memory} {pid : ℕ} {plate p : Plate} {i j : Slot} {clock start t : ℤ}
variable {s s' : State} {l : Lot} {r : Request} {G : Plate → List Event → Prop}
variable {C : Memory → Plate → Slot → Prop} {Q : Memory → Plate → Prop}

-- The plate is stored in this slot and in no other one.
def Memory.Only (m : Memory) (p : Plate) (i : Slot) : Prop :=
  ∀ j, (m.car j).licencePlate = p.chars ↔ j = i

theorem Memory.UniquePlates.only (h : m.UniquePlates) (hl : m.lookup p = some i) : m.Only p i := by
  have hi := lookup_eq_some hl
  intro j
  constructor
  case mp  => exact fun hj => h j i (hj ▸ p.ne_nil) (hj.trans hi.symm)
  case mpr => exact fun hj => hj ▸ hi

namespace Memory.Only

theorem touch {f : Car → Car} (h : m.Only p i) (hf : ∀ c, (f c).licencePlate = c.licencePlate)
    (hc : m'.car = Function.update m.car i (f (m.car i))) : m'.Only p i := by
  intro j
  rw [← h j]
  by_cases hj : j = i <;> simp [hc, hj, hf]

theorem quoted (h : m.Only p i) : (m.quoted pid p i t).Only p i :=
  h.touch (f := ({ · with payT := t })) (fun _ => rfl) rfl

theorem paid (h : m.Only p i) : (m.paid pid p i t).Only p i :=
  h.touch (f := ({ · with payT := t })) (fun _ => rfl) rfl

theorem expire (h : m.Only p i) : ((m.atTime t).expire pid p i).Only p i :=
  h.touch (f := fun c => { c with entryT := c.payT, payT := -1 }) (fun _ => rfl) rfl

end Memory.Only

theorem Memory.Rests.uniquePlates (h : m.Rests m') (hu : m.UniquePlates) : m'.UniquePlates :=
  hu.of_erased fun i => .inl <| by rw [h.car]

-- The proof obligations for a property of the bill of a plate, in the runs in which each 'Please
-- Repay' meets `G` and each accepted payment meets `C`: it only depends on the cars with this plate
-- and on what the history tells about the plate, and it is kept by what happens to the plate.
structure BillingRule (start : ℤ) (G : Plate → List Event → Prop)
    (C : Memory → Plate → Slot → Prop) (Q : Memory → Plate → Prop) : Prop where
  records : ∀ p log, G p (records log) ↔ G p log
  frame   : ∀ {m m' : Memory} {p : Plate}, Q m p → SameBill p m'.log m.log → m.clock ≤ m'.clock →
    (∀ i, (m'.car i).licencePlate = p.chars → m'.car i = m.car i) → Q m' p
  initial : ∀ p, Q (.initial start) p
  park    : ∀ {m : Memory} {pid : ℕ} {p : Plate} {i : Slot} {t : ℤ},
    ((m.atTime t).park pid p i).Only p i → start ≤ t → Q ((m.atTime t).park pid p i) p
  quoted  : ∀ {m : Memory} {pid : ℕ} {p : Plate} {i : Slot} {t : ℤ}, m.Only p i → m.clock ≤ t →
    Q m p → Q (m.quoted pid p i t) p
  paid    : ∀ {m : Memory} {pid : ℕ} {p : Plate} {i : Slot} {t : ℤ} {l : Lot}, m.Only p i →
    m.Holds l → C m p i → m.clock ≤ t → Q m p → Q (m.paid pid p i t) p
  expire  : ∀ {m : Memory} {pid : ℕ} {p : Plate} {i : Slot} {t : ℤ}, m.Only p i → G p m.log →
    (m.car i).payT ≠ 0 → m.clock ≤ t → Q m p → Q ((m.atTime t).expire pid p i) p

-- What holds of all states in which the last request has been handled.
structure Memory.Bills (start : ℤ) (G : Plate → List Event → Prop) (Q : Memory → Plate → Prop)
    (m : Memory) : Prop where
  unique : m.UniquePlates
  since  : start ≤ m.clock
  bill   : RepaidWhen G m.log → ∀ p, Q m p

namespace Memory.Bills

theorem rests (hm : m.Bills start G Q) (R : BillingRule start G C Q) (h : m.Rests m') :
    m'.Bills start G Q where
  unique := h.uniquePlates hm.unique
  since  := hm.since.trans h.clock
  bill hr p := by
    have hr : RepaidWhen G m.log := by
      rwa [← repaidWhen_records R.records, h.log, repaidWhen_records R.records] at hr
    exact R.frame (hm.bill hr p) (.of_records h.log) h.clock fun i _ => by rw [h.car]

theorem park (hm : m.Bills start G Q) (R : BillingRule start G C Q) (hl : m.lookup plate = none)
    (hf : (m.car i).licencePlate = []) (ht : m.clock ≤ t) :
    ((m.atTime t).park pid plate i).Bills start G Q := by
  have hu : ((m.atTime t).park pid plate i).UniquePlates := by
    have hu : (m.atTime t).UniquePlates := hm.unique.of_erased fun _ => .inl rfl
    exact (hu.park_iff hf).mpr hl
  refine ⟨hu, hm.since.trans ht, fun hr p => ?_⟩
  by_cases hp : plate = p
  case pos =>
    subst hp
    refine R.park (fun j => ?_) (hm.since.trans ht)
    by_cases hj : j = i
    case pos => simp [hj]
    case neg => simpa [hj] using Memory.lookup_eq_none.mp hl j
  case neg =>
    refine R.frame (hm.bill hr p) (.cons <| by simpa [Event.bills] using hp) ht fun j hj => ?_
    have hj : j ≠ i := by
      rintro rfl
      exact hp <| Plate.eq_of_chars <| by simpa using hj
    simp [hj]

-- A request that only touches the slot of its own car.
theorem touch {f : Car → Car} (hm : m.Bills start G Q) (R : BillingRule start G C Q)
    (hl : m.lookup plate = some i) (hf : ∀ c, (f c).licencePlate = c.licencePlate)
    (hc : m'.car = Function.update m.car i (f (m.car i))) (ht : m.clock ≤ m'.clock)
    (hr : RepaidWhen G m'.log → RepaidWhen G m.log)
    (ho : ∀ p, plate ≠ p → SameBill p m'.log m.log)
    (hq : RepaidWhen G m'.log → m.Only plate i → Q m plate → Q m' plate) :
    m'.Bills start G Q where
  unique := hm.unique.of_erased fun j => .inl <| by
    by_cases hj : j = i <;> simp [hc, hj, hf]
  since  := hm.since.trans ht
  bill h p := by
    have hi := hm.unique.only hl
    by_cases hp : plate = p
    case pos => exact hp ▸ hq h hi (hm.bill (hr h) plate)
    case neg =>
      refine R.frame (hm.bill (hr h) p) (ho p hp) ht fun j hj => ?_
      have hj : j ≠ i := by
        rintro rfl
        have hj : (m.car j).licencePlate = p.chars := by simpa [hc, hf] using hj
        exact hp <| Plate.eq_of_chars <| ((hi j).mpr rfl).symm.trans hj
      simp [hc, hj]

theorem leave {z : Zone} (hm : m.Bills start G Q) (R : BillingRule start G C Q)
    (ht : m.clock ≤ t) : ((m.atTime t).leave pid plate i z).Bills start G Q where
  unique := hm.unique.of_erased fun j => by
    by_cases hj : j = i <;> simp [hj]
  since  := hm.since.trans ht
  bill hr p := by
    refine R.frame (hm.bill hr p) (.cons rfl) ht fun j hj => ?_
    have hj : j ≠ i := by
      rintro rfl
      exact p.ne_nil <| by simpa using hj.symm
    simp [hj]

theorem outcome (hm : m.Bills start G Q) (R : BillingRule start G C Q) (hl : m.Holds l)
    (hc : ∀ p, r = .pay p → ∀ i ∈ m.lookup p, C m p i) (h : Outcome pid m m' r) :
    m'.Bills start G Q := by
  cases h
  case rests h => exact hm.rests R h
  case entered n plate i t hn hf ht h =>
    have he := hl.nil_iff.mp <| hl.free_iff.mpr (Memory.freeSlot_eq_some hf).left
    exact (hm.park R hn he ht).rests R h
  case quoted plate i t hi ht h =>
    refine rests (R := R) ?_ h
    refine hm.touch (f := ({ · with payT := t })) R hi (fun _ => rfl) rfl ht id (fun p hp => ?_) ?_
    case refine_1 => exact .cons <| by simpa [Event.bills] using hp
    case refine_2 => exact fun _ ho hq => R.quoted ho ht hq
  case paid plate i t hi ht h =>
    refine rests (R := R) ?_ h
    refine hm.touch (f := ({ · with payT := t })) R hi (fun _ => rfl) rfl ht id (fun p hp => ?_) ?_
    case refine_1 =>
      have hb : ∀ fee, (Event.credited pid plate i fee).bills p = false :=
        fun _ => by simpa [Event.bills] using hp
      exact .trans (.cons <| hb _) <| .cons <| by simpa [Event.bills] using hp
    case refine_2 => exact fun _ ho hq => R.paid ho hl (hc plate rfl i hi) ht hq
  case expired plate i t hi ht hp hx h =>
    refine rests (R := R) ?_ h
    refine hm.touch (f := fun c => { c with entryT := c.payT, payT := -1 }) R hi (fun _ => rfl) rfl
      ht And.right (fun p hp => ?_) ?_
    case refine_1 => exact .cons <| by simpa [Event.bills] using hp
    case refine_2 => exact fun hr ho hq => R.expire ho hr.left hp ht hq
  case left plate i z t hi ht hp hx hz h => exact (hm.leave R ht).rests R h
  case cleared plate i hi hz =>
    have hn : l.plate i ≠ none :=
      fun hn => plate.ne_nil <| Memory.lookup_eq_some hi ▸ hl.nil_iff.mp hn
    rw [hl.zone? hn] at hz
    contradiction

end Memory.Bills

theorem visits_represents (e : visits.Run (.initial clock) s) : s.Represents :=
  have ⟨f⟩ := Pool.oneByOne_run e
  reachable_represents f

-- A property that meets the obligations holds of each plate when a request has been handled.
theorem BillingRule.run (R : BillingRule clock G C Q) (e : visits.Run (.initial clock) s)
    (hc : e.AllSteps fun s a => ∀ p, a.fst = .pay p → ∀ i ∈ s.mem.lookup p, C s.mem p i)
    (hr : RepaidWhen G s.mem.log) (p : Plate) : Q s.mem p := by
  have h₀ : (State.initial clock).mem.Bills clock G Q :=
    ⟨fun _ _ h => absurd rfl h, le_rfl, fun _ => R.initial⟩
  have hs := e.invariant (I := fun s => s.mem.Bills clock G Q) h₀
    (fun s a s' hs hc h => by
      have ⟨_, hl⟩ := hc.left.mem
      exact hs.outcome R hl hc.right <| outcome_of_visit h)
    (.and_reached (fun e _ => visits_represents e) hc)
  exact hs.bill hr p

end Parking
