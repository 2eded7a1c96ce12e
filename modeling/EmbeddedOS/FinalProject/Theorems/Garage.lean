import EmbeddedOS.FinalProject.Garage
import EmbeddedOS.FinalProject.Theorems.Operations

namespace Parking

variable {m m' : Memory} {g : Garage} {l : Lot} {pid : ℕ} {i : Slot} {z : Zone} {n t clock : ℤ}
variable {p q : Plate} {c : Guest} {s s' : State} {r : Request} {rs told : List Reply}

-- A payment that marks its slot again changes nothing.
theorem Memory.setPay_eq_self (m : Memory) (h : (m.car i).payT = t) : m.setPay i t = m := by
  simp [setPay, setCar, ← h]

namespace Memory.Keeps

-- The books do not change with what is not written in them.
theorem congr (h : m.Keeps g) (hc : m'.car = m.car) (hp : m'.parkSpace = m.parkSpace)
    (hs : m'.spaceLeft = m.spaceLeft) (hm : m'.cash = m.cash) (ht : m.clock ≤ m'.clock) :
    m'.Keeps g where
  car   := hc ▸ h.car
  bill  := hc ▸ h.bill
  lot   := h.lot.imp fun _ hl => hl.congr <| .of_car hc hp hs
  cash  := hm.trans h.cash
  clock := h.clock.trans ht

theorem atTime (h : m.Keeps g) (ht : t ≤ m.clock) : m.Keeps (g.atTime t) :=
  ⟨h.car, h.bill, h.lot, h.cash, ht⟩

theorem lookup (h : m.Keeps g) (p : Plate) : m.lookup p = (g.stay p).map (·.slot) := by
  cases hl : m.lookup p
  case some i =>
    have ⟨c, hc, hi⟩ := (h.car p i).mp <| Memory.lookup_eq_some hl
    simp [hc, hi]
  case none =>
    cases hc : g.stay p
    case none   => rfl
    case some c => exact absurd ((h.car p c.slot).mpr ⟨c, hc, rfl⟩) <| lookup_eq_none.mp hl _

theorem stay_of_lookup (h : m.Keeps g) (hl : m.lookup p = some i) :
    ∃ c, g.stay p = some c ∧ c.slot = i :=
  Option.map_eq_some_iff.mp <| h.lookup p ▸ hl

theorem stay_eq_none (h : m.Keeps g) : g.stay p = none ↔ m.lookup p = none := by
  rw [h.lookup, Option.map_eq_none_iff]

theorem mem_free (h : m.Keeps g) : i ∈ g.free z ↔ i.zone = z ∧ m.parkSpace i = 0 := by
  have ⟨l, hl⟩ := h.lot
  rw [← hl.free_iff]
  refine and_congr_right fun _ => ⟨fun hn => ?_, fun hn p c hc hs => ?_⟩
  case refine_1 =>
    by_contra hp
    have ⟨p, hp⟩ := Option.ne_none_iff_exists'.mp hp
    have ⟨c, hc, hi⟩ := (h.car p i).mp <| hl.licencePlate_iff.mpr hp
    exact hn p c hc hi
  case refine_2 =>
    have hp := hl.licencePlate_iff.mp <| (h.car p i).mpr ⟨c, hc, hs⟩
    simp [hn] at hp

theorem gives (h : m.Keeps g) (hf : m.freeSlot p n = some i) : g.Gives n p.zone i := by
  have hi := Memory.freeSlot_first hf
  have hm : i ∈ g.free p.zone := h.mem_free.mpr ⟨hi.zone, hi.free⟩
  have hb (j) (hj : j ∈ g.free p.zone) :=
    hi.first j (h.mem_free.mp hj).left (h.mem_free.mp hj).right
  rw [Garage.Gives]
  split
  case isTrue hn  => exact ⟨hm, fun j hj => by simpa [hn] using hb j hj⟩
  case isFalse hn => exact ⟨hm, fun j hj => by simpa [hn] using hb j hj⟩

theorem free_eq_empty (h : m.Keeps g) (hf : m.freeSlot p n = none) : g.free p.zone = ∅ := by
  ext j
  simpa [h.mem_free] using Memory.freeSlot_eq_none.mp hf j

-- What the sections write is what the books should say.
theorem park (h : m.Keeps g) (hf : m.freeSlot p n = some i) (hl : m.lookup p = none)
    (hi : i ∈ g.free p.zone) :
    (m.park pid p i).Keeps
      ((g.park p { entryT := m.clock, payT := 0, slot := i } hi).atTime m.clock) where
  car q j := by
    by_cases hq : q = p
    case pos =>
      subst hq
      by_cases hj : j = i
      case pos => simp [Garage.park, hj]
      case neg => simpa [Garage.park, hj, Ne.symm hj] using lookup_eq_none.mp hl j
    case neg =>
      by_cases hj : j = i
      case pos =>
        have hn : p.chars ≠ q.chars := fun hc => hq (Plate.eq_of_chars hc).symm
        subst hj
        simpa [Garage.park, hq, hn] using hi.right q
      case neg => simpa [Garage.park, hq, hj] using h.car q j
  bill q d hd := by
    by_cases hq : q = p
    case pos =>
      have hd : { entryT := m.clock, payT := 0, slot := i } = d := by
        simpa [Garage.park, hq] using hd
      simp [← hd]
    case neg =>
      have hd : g.stay q = some d := by simpa [Garage.park, hq] using hd
      simpa [hi.right q d hd] using h.bill q d hd
  lot :=
    have ⟨_, hl⟩ := h.lot
    have hp := Memory.freeSlot_eq_some hf
    ⟨_, hl.park (hl.free_iff.mpr hp.left) hp.right⟩
  cash := h.cash
  clock := le_rfl

theorem rebill {f : Dues → Dues} (h : m.Keeps g) (hc : g.stay p = some c) (hs : m'.SameLot m)
    (ho : ∀ j, j ≠ c.slot → m'.car j = m.car j)
    (he : (m'.car c.slot).entryT = (f c.toDues).entryT ∧
      (m'.car c.slot).payT = (f c.toDues).payT)
    (hm : m'.cash = m.cash) (ht : m.clock ≤ m'.clock) : m'.Keeps (g.rebill p f) where
  car q j := by
    rw [hs.licencePlate, h.car q j]
    simp only [Garage.rebill, Option.map_eq_some_iff, exists_exists_and_eq_and]
    refine exists_congr fun d => and_congr_right fun _ => ?_
    split <;> rfl
  bill q d hd := by
    obtain ⟨a, ha, rfl⟩ := Option.map_eq_some_iff.mp hd
    by_cases hq : q = p
    case pos =>
      subst hq
      cases hc.symm.trans ha
      simpa using he
    case neg =>
      have hj : a.slot ≠ c.slot := fun hj => hq <| g.alone ha hc hj
      simpa [hq, ho _ hj] using h.bill q a ha
  lot   := h.lot.imp fun _ hl => hl.congr hs
  cash  := hm.trans h.cash
  clock := h.clock.trans ht

theorem setPay (h : m.Keeps g) (hc : g.stay p = some c) :
    (m.setPay c.slot t).Keeps (g.quote p t) := by
  apply h.rebill hc
  case hs => exact .setCar (fun _ => rfl) (fun _ => rfl) (fun _ => rfl)
  case ho => exact fun j hj => by simp [hj]
  case he => simp [(h.bill p c hc).left]
  case hm => rfl
  case ht => exact le_rfl

theorem expire (h : m.Keeps g) (hc : g.stay p = some c) :
    (m.expire pid p c.slot).Keeps (g.expire p) := by
  apply h.rebill hc
  case hs => exact .note <| .setCar (fun _ => rfl) (fun _ => rfl) (fun _ => rfl)
  case ho => exact fun j hj => by simp [hj]
  case he => simp [(h.bill p c hc).right]
  case hm => rfl
  case ht => exact le_rfl

theorem leave (h : m.Keeps g) (hc : g.stay p = some c) (hz : zone? (m.car c.slot).elec = some z) :
    (m.leave pid p c.slot z).Keeps (g.leave p) where
  car q j := by
    by_cases hj : j = c.slot
    case pos =>
      subst hj
      suffices ∀ d, q ≠ p → g.stay q = some d → d.slot ≠ c.slot by
        simpa [Garage.leave, q.ne_nil.symm] using this
      exact fun d hq hd hs => hq <| g.alone hd hc hs
    case neg =>
      by_cases hq : q = p
      case pos =>
        subst hq
        have hn : (m.car j).licencePlate ≠ q.chars := by
          intro hl
          have ⟨d, hd, hs⟩ := (h.car q j).mp hl
          cases hc.symm.trans hd
          exact hj hs.symm
        simpa [Garage.leave, hj] using hn
      case neg => simpa [Garage.leave, hj, hq] using h.car q j
  bill q d hd := by
    by_cases hq : q = p
    case pos => simp [Garage.leave, hq] at hd
    case neg =>
      have hd : g.stay q = some d := by simpa [Garage.leave, hq] using hd
      have hj : d.slot ≠ c.slot := fun hj => hq <| g.alone hd hc hj
      simpa [hj] using h.bill q d hd
  lot := by
    have ⟨l, hl⟩ := h.lot
    have hp := hl.licencePlate_iff.mp <| (h.car p c.slot).mpr ⟨c, hc, rfl⟩
    have hn : l.plate c.slot ≠ none := by simp [hp]
    have hz' := Option.some.inj <| hz.symm.trans (hl.zone? hn)
    exact ⟨_, hz' ▸ hl.leave hn⟩
  cash := h.cash
  clock := h.clock

theorem elec (h : m.Keeps g) (hc : g.stay p = some c) : (m.car c.slot).elec = c.slot.zone := by
  have ⟨l, hl⟩ := h.lot
  have hp := hl.licencePlate_iff.mp <| (h.car p c.slot).mpr ⟨c, hc, rfl⟩
  have hs := hl.slot c.slot
  simp only [hp, Car.Shows] at hs
  exact hs.right.right.right

theorem pos (h : m.Keeps g) (hc : g.stay p = some c) : (m.car c.slot).pos = c.slot := by
  have ⟨l, hl⟩ := h.lot
  have hp := hl.licencePlate_iff.mp <| (h.car p c.slot).mpr ⟨c, hc, rfl⟩
  have hs := hl.slot c.slot
  simp only [hp, Car.Shows] at hs
  exact hs.right.right.left

theorem credit {fee : ℤ} (h : m.Keeps g) : { m with cash := C.int (m.cash + fee) }.Keeps
    (g.credit fee) where
  car   := h.car
  bill  := h.bill
  lot   := h.lot.imp fun _ hl => hl.congr <| .of_car rfl rfl rfl
  cash  := by simp [h.cash]
  clock := h.clock

end Memory.Keeps

-- The books after a visit that has taken a course, with what the driver is told on it.
def Garage.Comes (g : Garage) (m : Memory) (r : Request) (course : Course) (told : List Reply) :
    Prop :=
  ∃ t g', g.clock ≤ t ∧ g.visit t r course = some (g', told) ∧ m.Keeps (g'.atTime t)

-- A visit comes to its end on any course but one that has only got to a quote.
def Garage.Ends (g : Garage) (m : Memory) (r : Request) (told : List Reply) : Prop :=
  ∃ course, (∀ n, course ≠ .quoted n) ∧ g.Comes m r course told

namespace Garage

theorem Comes.congr {course : Course} (h : g.Comes m r course told) (hc : m'.car = m.car)
    (hp : m'.parkSpace = m.parkSpace) (hs : m'.spaceLeft = m.spaceLeft) (hm : m'.cash = m.cash)
    (ht : m.clock ≤ m'.clock) : g.Comes m' r course told :=
  have ⟨t, g', h₁, h₂, h₃⟩ := h
  ⟨t, g', h₁, h₂, h₃.congr hc hp hs hm ht⟩

theorem Ends.congr (h : g.Ends m r told) (hc : m'.car = m.car) (hp : m'.parkSpace = m.parkSpace)
    (hs : m'.spaceLeft = m.spaceLeft) (hm : m'.cash = m.cash) (ht : m.clock ≤ m'.clock) :
    g.Ends m' r told :=
  have ⟨course, hq, h⟩ := h
  ⟨course, hq, h.congr hc hp hs hm ht⟩

-- A request that is refused leaves the books as they are.
theorem Ends.refused (h : m.Keeps g) (hv : g.visit m.clock r .refused = some (g, told)) :
    g.Ends m r told :=
  ⟨.refused, nofun, m.clock, g, h.clock, hv, h.atTime le_rfl⟩

end Garage

-- What the child of a request has made of the books when it comes to a statement, and what it has
-- told its driver.
def Entry.During (g : Garage) (m : Memory) (e : Entry) (rs : List Reply) : Prop :=
  match e.pc with
  | .scan                        => m.Keeps g ∧ rs = []
  | .acquire | .allocate         => (m.Keeps g ∧ g.stay e.plate = none) ∧ rs = []
  | .release none                => g.Ends m (.entry e.entryNum e.plate) [.noSpace] ∧ rs = []
  | .release (some _) | .light _ => g.Ends m (.entry e.entryNum e.plate) [.entrySuccess] ∧ rs = []
  | .reply r                     => g.Ends m (.entry e.entryNum e.plate) [r] ∧ rs = []
  | .exited                      => g.Ends m (.entry e.entryNum e.plate) rs
  | .killed                      =>
    ∃ course told, g.Comes m (.entry e.entryNum e.plate) course told ∧ rs <:+ told
  | .faulted                     => False

def Exitpark.During (g : Garage) (m : Memory) (x : Exitpark) (rs : List Reply) : Prop :=
  match x.pc with
  | .scan                          => m.Keeps g ∧ rs = []
  | .rescan                        => (m.Keeps g ∧ g.stay x.plate ≠ none) ∧ rs = []
  | .checkPaid pos                 =>
    (m.Keeps g ∧ ∃ c, g.stay x.plate = some c ∧ slot? pos = some c.slot) ∧ rs = []
  | .checkTime i                   =>
    (m.Keeps g ∧ ∃ c, g.stay x.plate = some c ∧ c.slot = i ∧ c.payT ≠ 0) ∧ rs = []
  | .acquireLate i | .expire i     =>
    (m.Keeps g ∧ ∃ c t, g.stay x.plate = some c ∧ c.slot = i ∧ c.payT ≠ 0 ∧ g.clock ≤ t ∧
      t ≤ m.clock ∧ t - c.payT > 25) ∧ rs = []
  | .acquireFree i | .free i       =>
    (m.Keeps g ∧ ∃ c t, g.stay x.plate = some c ∧ c.slot = i ∧ c.payT ≠ 0 ∧ g.clock ≤ t ∧
      t ≤ m.clock ∧ t - c.payT ≤ 25) ∧ rs = []
  | .releaseLate _                 => g.Ends m (.exit x.plate) [.repay] ∧ rs = []
  | .releaseFree _ | .success _    => g.Ends m (.exit x.plate) [.exitSuccess] ∧ rs = []
  | .reply r                       => g.Ends m (.exit x.plate) [r] ∧ rs = []
  | .light _ | .exited             => g.Ends m (.exit x.plate) rs
  | .killed                        =>
    ∃ course told, g.Comes m (.exit x.plate) course told ∧ rs <:+ told
  | .faulted | .faultedInside      => False

-- The quote of a payment is what the books say.
structure Payment.Booked (g : Garage) (p : Plate) (q : Quote) : Prop where
  stay  : ∃ c, g.stay p = some c ∧ c.slot = q.slot ∧ q.tpass = q.t - c.entryT ∧ q.fee = c.fee q.t
  clock : g.clock ≤ q.t

def Payment.During (g : Garage) (m : Memory) (y : Payment) (rs : List Reply) : Prop :=
  match y.pc with
  | .acquireCounting | .scan   => m.Keeps g ∧ rs = []
  | .quote i                   => (m.Keeps g ∧ ∃ c, g.stay y.plate = some c ∧ c.slot = i) ∧ rs = []
  | .writeFee q                =>
    (Booked g y.plate q ∧ m.Keeps ((g.quote y.plate q.t).atTime q.t)) ∧ rs = []
  | .writeFeeAgain q           =>
    (Booked g y.plate q ∧ m.Keeps ((g.quote y.plate q.t).atTime q.t)) ∧
      ∃ n, rs = .wrongAmount :: feeReplies q.fee n
  | .await q | .writeWrong q | .acquireMark q | .mark q | .releaseMark q | .acquireCash q
  | .loadCash q                =>
    (Booked g y.plate q ∧ m.Keeps ((g.quote y.plate q.t).atTime q.t)) ∧ ∃ n, rs = feeReplies q.fee n
  | .addCash q cash            =>
    (Booked g y.plate q ∧ m.Keeps ((g.quote y.plate q.t).atTime q.t) ∧ cash = m.cash) ∧
      ∃ n, rs = feeReplies q.fee n
  | .storeCash q cash          =>
    (Booked g y.plate q ∧ m.Keeps ((g.quote y.plate q.t).atTime q.t) ∧
      cash = C.int (m.cash + q.fee)) ∧ ∃ n, rs = feeReplies q.fee n
  | .releaseCash q | .writeSuccess q =>
    (Booked g y.plate q ∧ m.Keeps (((g.quote y.plate q.t).credit q.fee).atTime q.t)) ∧
      ∃ n, rs = feeReplies q.fee n
  | .writeNotFound             => g.Ends m (.pay y.plate) [.cannotFind] ∧ rs = []
  | .releaseCounting | .exited => g.Ends m (.pay y.plate) rs
  | .killed | .faulted         =>
    ∃ course told, g.Comes m (.pay y.plate) course told ∧ rs <:+ told

-- The statements that answer the driver.
theorem Task.reply?_entry (e : Entry) :
    (Task.entry e).reply? pid m = match e.pc with
      | .reply r => some r
      | _ => none := by
  cases hpc : e.pc <;> simp [reply?, event?, Entry.event?, hpc, Event.reply?]

theorem Task.reply?_exitpark (x : Exitpark) :
    (Task.exitpark x).reply? pid m = match x.pc with
      | .success _ => some .exitSuccess
      | .reply r   => some r
      | _ => none := by
  cases hpc : x.pc <;> simp only [reply?, event?, Exitpark.event?, hpc]
  case free i => cases zone? (m.car i).elec <;> rfl
  all_goals simp [Event.reply?]

theorem Task.reply?_payment (y : Payment) :
    (Task.payment y).reply? pid m = match y.pc with
      | .writeFee q      => some <| .fee q.fee
      | .writeWrong _    => some .wrongAmount
      | .writeFeeAgain q => some <| .feeAgain q.fee
      | .writeNotFound   => some .cannotFind
      | .writeSuccess q  =>
        some <| .paymentSuccess (m.car q.slot).licencePlate (m.car q.slot).pos q.tpass q.fee
      | _ => none := by
  cases hpc : y.pc <;> simp [reply?, event?, Payment.event?, hpc, Event.reply?]

theorem Entry.During.move {e e' : Entry} (hd : e.During g m rs) (h : e.Move pid m m' e') :
    e'.During g m' (((Task.entry e).reply? pid m).toList ++ rs) := by
  cases h
  all_goals simp only [During, ‹Entry.pc _ = _›] at hd
  all_goals simp only [During, Task.reply?_entry, ‹Entry.pc _ = _›]
  case alreadyParked i hpc hl =>
    have ⟨c, hc, _⟩ := hd.left.stay_of_lookup hl
    exact ⟨.refused hd.left <| by simp [Garage.visit, hc], hd.right⟩
  case notParked hpc hl =>
    exact ⟨⟨hd.left, hd.left.stay_eq_none.mpr hl⟩, hd.right⟩
  case acquire hpc hs =>
    exact ⟨⟨hd.left.left.congr rfl rfl rfl rfl le_rfl, hd.left.right⟩, hd.right⟩
  case allocate i hpc hf =>
    have ⟨hk, hp⟩ := hd.left
    have hg := hk.gives hf
    have hl := hk.stay_eq_none.mp hp
    refine ⟨⟨.parked i, nofun, m.clock, _, hk.clock, ?_, hk.park hf hl hg.mem_free⟩, hd.right⟩
    simp [Garage.visit, hp, hg]
  case noSpace hpc hf =>
    have ⟨hk, hp⟩ := hd.left
    exact ⟨.refused hk <| by simp [Garage.visit, hp, hk.free_eq_empty hf], hd.right⟩
  case release hpc | releaseNone hpc | light hpc =>
    exact ⟨hd.left.congr rfl rfl rfl rfl le_rfl, hd.right⟩
  case reply hpc =>
    obtain ⟨he, rfl⟩ := hd
    exact he.congr rfl rfl rfl rfl le_rfl

theorem Exitpark.During.move {x x' : Exitpark} (hd : x.During g m rs) (h : x.Move pid m m' x') :
    x'.During g m' (((Task.exitpark x).reply? pid m).toList ++ rs) := by
  cases h
  all_goals simp only [During, ‹Exitpark.pc _ = _›] at hd
  all_goals simp only [During, Task.reply?_exitpark, ‹Exitpark.pc _ = _›]
  case found i hpc hl =>
    have ⟨c, hc, _⟩ := hd.left.stay_of_lookup hl
    exact ⟨⟨hd.left, by simp [hc]⟩, hd.right⟩
  case noCar hpc hl =>
    exact ⟨.refused hd.left <| by simp [Garage.visit, hd.left.stay_eq_none.mpr hl], hd.right⟩
  case rescan hpc =>
    have ⟨c, hc⟩ := Option.ne_none_iff_exists'.mp hd.left.right
    refine ⟨⟨hd.left.left, c, hc, ?_⟩, hd.right⟩
    simp [Memory.slot?_scanIndex, hd.left.left.lookup, hc]
  case fault i hpc hi =>
    obtain ⟨⟨_, c, _, hs⟩, hr⟩ := hd
    simp [hi] at hs
  case unpaid i pos hpc hi hp =>
    obtain ⟨⟨hk, c, hc, hs⟩, hr⟩ := hd
    cases hi.symm.trans hs
    have hz : c.payT = 0 := (hk.bill _ c hc).right ▸ hp
    exact ⟨.refused hk <| by simp [Garage.visit, hc, hz], hr⟩
  case paid i pos hpc hi hp =>
    obtain ⟨⟨hk, c, hc, hs⟩, hr⟩ := hd
    cases hi.symm.trans hs
    exact ⟨⟨hk, c, hc, rfl, (hk.bill _ c hc).right ▸ hp⟩, hr⟩
  case late pos hpc ht =>
    obtain ⟨⟨hk, c, hc, rfl, hp⟩, hr⟩ := hd
    refine ⟨⟨hk, c, m.clock, hc, rfl, hp, hk.clock, le_rfl, ?_⟩, hr⟩
    simpa [(hk.bill _ c hc).right] using ht
  case inTime pos hpc ht =>
    obtain ⟨⟨hk, c, hc, rfl, hp⟩, hr⟩ := hd
    refine ⟨⟨hk, c, m.clock, hc, rfl, hp, hk.clock, le_rfl, ?_⟩, hr⟩
    simpa [(hk.bill _ c hc).right] using ht
  case acquireLate hpc _ | acquireFree hpc _ =>
    exact ⟨⟨hd.left.left.congr rfl rfl rfl rfl le_rfl, hd.left.right⟩, hd.right⟩
  case expire pos hpc =>
    obtain ⟨⟨hk, c, t, hc, rfl, hp, h₁, h₂, hx⟩, hr⟩ := hd
    refine ⟨⟨.late, nofun, t, g.expire x.plate, h₁, ?_, (hk.expire hc).atTime h₂⟩, hr⟩
    simp [Garage.visit, hc, hp, hx]
  case clear pos hpc hz =>
    obtain ⟨⟨hk, c, t, hc, rfl, _⟩, hr⟩ := hd
    rw [hk.elec hc, zone?_val] at hz
    contradiction
  case free pos z hpc hz =>
    obtain ⟨⟨hk, c, t, hc, rfl, hp, h₁, h₂, hx⟩, hr⟩ := hd
    refine ⟨⟨.left, nofun, t, g.leave x.plate, h₁, ?_, (hk.leave hc hz).atTime h₂⟩, hr⟩
    have hx : t ≤ 25 + c.payT := by omega
    simp [Garage.visit, hc, hp, hx]
  case releaseLate hpc | releaseFree hpc =>
    exact ⟨hd.left.congr rfl rfl rfl rfl le_rfl, hd.right⟩
  case success hpc | reply hpc =>
    obtain ⟨he, rfl⟩ := hd
    exact he.congr rfl rfl rfl rfl le_rfl
  case light hpc => exact hd.congr rfl rfl rfl rfl le_rfl

namespace Payment.Booked

variable {y : Payment} {q : Quote}

theorem comes (hq : Booked g p q) (hk : m.Keeps ((g.quote p q.t).atTime q.t)) (n : ℕ) :
    g.Comes m (.pay p) (.quoted n) (feeReplies q.fee n) := by
  have ⟨c, hc, hs, _, hf⟩ := hq.stay
  exact ⟨q.t, _, hq.clock, by simp [Garage.visit, hc, hf], hk⟩

theorem paid (hq : Booked g p q) (hk : m.Keeps (((g.quote p q.t).credit q.fee).atTime q.t))
    (n : ℕ) : g.Comes m (.pay p) (.paid n)
      (.paymentSuccess p.chars q.slot q.tpass q.fee :: feeReplies q.fee n) := by
  have ⟨c, hc, hs, ht, hf⟩ := hq.stay
  exact ⟨q.t, _, hq.clock, by simp [Garage.visit, hc, hs, ht, hf], hk⟩

-- What the last message reads out of the slot is what the books say about the plate.
theorem slot (hq : Booked g p q) (hk : m.Keeps (((g.quote p q.t).credit q.fee).atTime q.t)) :
    (m.car q.slot).licencePlate = p.chars ∧ (m.car q.slot).pos = q.slot := by
  have ⟨c, hc, hs, _⟩ := hq.stay
  have hg : (((g.quote p q.t).credit q.fee).atTime q.t).stay p = some { c with payT := q.t } := by
    simp [Garage.quote, Garage.rebill, hc]
  exact ⟨(hk.car p q.slot).mpr ⟨_, hg, hs⟩, by simpa [hs] using hk.pos hg⟩

end Payment.Booked

theorem Payment.During.move {y y' : Payment} (hd : y.During g m rs) (h : y.Move pid m m' y') :
    y'.During g m' (((Task.payment y).reply? pid m).toList ++ rs) := by
  cases h
  all_goals simp only [During, ‹Payment.pc _ = _›] at hd
  all_goals simp only [During, Task.reply?_payment, ‹Payment.pc _ = _›]
  case acquireCounting hpc _ => exact ⟨hd.left.congr rfl rfl rfl rfl le_rfl, hd.right⟩
  case found i hpc hl => exact ⟨⟨hd.left, hd.left.stay_of_lookup hl⟩, hd.right⟩
  case notFound hpc hl =>
    exact ⟨.refused hd.left <| by simp [Garage.visit, hd.left.stay_eq_none.mpr hl], hd.right⟩
  case quote i hpc =>
    obtain ⟨⟨hk, c, hc, rfl⟩, hr⟩ := hd
    have he := (hk.bill _ c hc).left
    have hf : (quoteFor m c.slot).fee = c.fee m.clock := by
      rw [quoteFor_fee, hk.elec hc, he, Guest.fee]
    have hq : Booked g y.plate (quoteFor m c.slot) :=
      ⟨⟨c, hc, rfl, congrArg (m.clock - ·) he, hf⟩, hk.clock⟩
    exact ⟨⟨hq, ((hk.setPay hc).atTime le_rfl).congr rfl rfl rfl rfl le_rfl⟩, hr⟩
  case writeFee q hpc =>
    obtain ⟨⟨hq, hk⟩, rfl⟩ := hd
    exact ⟨⟨hq, hk.congr rfl rfl rfl rfl le_rfl⟩, 0, rfl⟩
  case writeWrong q hpc =>
    obtain ⟨⟨hq, hk⟩, n, rfl⟩ := hd
    exact ⟨⟨hq, hk.congr rfl rfl rfl rfl le_rfl⟩, n, rfl⟩
  case writeFeeAgain q hpc =>
    obtain ⟨⟨hq, hk⟩, n, rfl⟩ := hd
    exact ⟨⟨⟨hq.stay, hq.clock⟩, hk.congr rfl rfl rfl rfl le_rfl⟩, n + 1, rfl⟩
  case acquireMark hpc _ | releaseMark hpc | acquireCash hpc _ =>
    exact ⟨⟨hd.left.left, hd.left.right.congr rfl rfl rfl rfl le_rfl⟩, hd.right⟩
  case mark q hpc =>
    obtain ⟨⟨hq, hk⟩, hr⟩ := hd
    have ⟨c, hc, hs, _⟩ := hq.stay
    have hp : m.setPay q.slot q.t = m := by
      have hb := (hk.bill y.plate { c with payT := q.t } <| by
        simp [Garage.atTime, Garage.quote, Garage.rebill, hc]).right
      exact m.setPay_eq_self <| hs ▸ hb
    exact ⟨⟨hq, (hp ▸ hk).congr rfl rfl rfl rfl le_rfl⟩, hr⟩
  case loadCash hpc => exact ⟨⟨hd.left.left, hd.left.right, rfl⟩, hd.right⟩
  case addCash q cash hpc =>
    obtain ⟨⟨hq, hk, rfl⟩, hr⟩ := hd
    exact ⟨⟨hq, hk, rfl⟩, hr⟩
  case storeCash q cash hpc =>
    obtain ⟨⟨hq, hk, rfl⟩, hr⟩ := hd
    exact ⟨⟨hq, hk.credit⟩, hr⟩
  case releaseCash q hpc =>
    exact ⟨⟨hd.left.left, hd.left.right.congr rfl rfl rfl rfl le_rfl⟩, hd.right⟩
  case writeSuccess q hpc =>
    obtain ⟨⟨hq, hk⟩, n, rfl⟩ := hd
    have ⟨hl, hp⟩ := hq.slot hk
    rw [hl, hp]
    exact ⟨.paid n, nofun, (hq.paid hk n).congr rfl rfl rfl rfl le_rfl⟩
  case writeNotFound hpc =>
    obtain ⟨he, rfl⟩ := hd
    exact he.congr rfl rfl rfl rfl le_rfl
  case releaseCounting hpc => exact hd.congr rfl rfl rfl rfl le_rfl

namespace Task

def During (g : Garage) (m : Memory) (rs : List Reply) : Task → Prop
  | entry e    => e.During g m rs
  | exitpark x => x.During g m rs
  | payment y  => y.During g m rs

variable {t t' : Task}

theorem During.move (hd : t.During g m rs) (h : t.Move pid m m' t') :
    t'.During g m' ((t.reply? pid m).toList ++ rs) := by
  cases h
  case entry h    => exact Entry.During.move hd h
  case exitpark h => exact Exitpark.During.move hd h
  case payment h  => exact Payment.During.move hd h

theorem During.read {bytes : List UInt8} (hd : t.During g m rs) (h : t.Read bytes t') :
    t'.During g m rs := by
  cases h
  all_goals simp only [During, Payment.During, ‹Payment.pc _ = _›] at hd
  case fault =>
    obtain ⟨⟨hq, hk⟩, n, rfl⟩ := hd
    exact ⟨.quoted n, _, hq.comes hk n, List.suffix_rfl⟩
  all_goals
    obtain ⟨⟨hq, hk⟩, hr⟩ := hd
    exact ⟨⟨⟨hq.stay, hq.clock⟩, hk⟩, hr⟩

-- A child that is ended at a write has told its driver no more than it was about to.
theorem During.kill (hd : t.During g m rs) (hw : t.writing) : t.kill.During g m rs := by
  cases t
  case entry e =>
    cases hpc : e.pc <;> simp only [writing, Entry.writing, hpc, Bool.false_eq_true] at hw
    simp only [During, Entry.During, hpc] at hd
    obtain ⟨⟨course, _, hc⟩, rfl⟩ := hd
    exact ⟨course, _, hc, List.nil_suffix⟩
  case exitpark x =>
    cases hpc : x.pc <;> simp only [writing, Exitpark.writing, hpc, Bool.false_eq_true] at hw
    all_goals
      simp only [During, Exitpark.During, hpc] at hd
      obtain ⟨⟨course, _, hc⟩, rfl⟩ := hd
      exact ⟨course, _, hc, List.nil_suffix⟩
  case payment y =>
    cases hpc : y.pc <;> simp only [writing, Payment.writing, hpc, Bool.false_eq_true] at hw
    all_goals simp only [During, Payment.During, hpc] at hd
    case writeNotFound =>
      obtain ⟨⟨course, _, hc⟩, rfl⟩ := hd
      exact ⟨course, _, hc, List.nil_suffix⟩
    case writeFee q =>
      obtain ⟨⟨hq, hk⟩, rfl⟩ := hd
      exact ⟨.quoted 0, _, hq.comes hk 0, List.nil_suffix⟩
    case writeWrong q =>
      obtain ⟨⟨hq, hk⟩, n, rfl⟩ := hd
      exact ⟨.quoted n, _, hq.comes hk n, List.suffix_rfl⟩
    case writeFeeAgain q =>
      obtain ⟨⟨hq, hk⟩, n, rfl⟩ := hd
      exact ⟨.quoted (n + 1), _, hq.comes hk (n + 1), List.suffix_cons _ _⟩
    case writeSuccess q =>
      obtain ⟨⟨hq, hk⟩, n, rfl⟩ := hd
      exact ⟨.paid n, _, hq.paid hk n, List.suffix_cons _ _⟩

-- Time may pass at any statement.
theorem During.wait (d : ℕ) (hd : t.During g m rs) :
    t.During g { m with clock := m.clock + d } rs := by
  have ht : m.clock ≤ m.clock + d := by omega
  cases t
  case entry e =>
    simp only [During, Entry.During] at hd ⊢
    split at hd
    case h_1       => exact ⟨hd.left.congr rfl rfl rfl rfl ht, hd.right⟩
    case h_2 | h_3 => exact ⟨⟨hd.left.left.congr rfl rfl rfl rfl ht, hd.left.right⟩, hd.right⟩
    case h_8       => exact hd.congr rfl rfl rfl rfl ht
    case h_9       =>
      have ⟨course, told, hc, hs⟩ := hd
      exact ⟨course, told, hc.congr rfl rfl rfl rfl ht, hs⟩
    case h_10      => contradiction
    all_goals exact ⟨hd.left.congr rfl rfl rfl rfl ht, hd.right⟩
  case exitpark x =>
    simp only [During, Exitpark.During] at hd ⊢
    split at hd
    case h_1 => exact ⟨hd.left.congr rfl rfl rfl rfl ht, hd.right⟩
    case h_2 | h_3 | h_4 =>
      exact ⟨⟨hd.left.left.congr rfl rfl rfl rfl ht, hd.left.right⟩, hd.right⟩
    case h_5 | h_6 | h_7 | h_8 =>
      obtain ⟨⟨hk, c, t, hc, hs, hp, h₁, h₂, hx⟩, hr⟩ := hd
      exact ⟨⟨hk.congr rfl rfl rfl rfl ht, c, t, hc, hs, hp, h₁, h₂.trans ht, hx⟩, hr⟩
    case h_9 | h_10 | h_11 | h_12 => exact ⟨hd.left.congr rfl rfl rfl rfl ht, hd.right⟩
    case h_13 | h_14 => exact hd.congr rfl rfl rfl rfl ht
    case h_15 =>
      have ⟨course, told, hc, hs⟩ := hd
      exact ⟨course, told, hc.congr rfl rfl rfl rfl ht, hs⟩
    all_goals contradiction
  case payment y =>
    simp only [During, Payment.During] at hd ⊢
    split at hd
    case h_1 | h_2 | h_17 => exact ⟨hd.left.congr rfl rfl rfl rfl ht, hd.right⟩
    case h_3 => exact ⟨⟨hd.left.left.congr rfl rfl rfl rfl ht, hd.left.right⟩, hd.right⟩
    case h_13 | h_14 =>
      obtain ⟨⟨hq, hk, hc⟩, hr⟩ := hd
      exact ⟨⟨hq, hk.congr rfl rfl rfl rfl ht, hc⟩, hr⟩
    case h_18 | h_19 => exact hd.congr rfl rfl rfl rfl ht
    case h_20 | h_21 =>
      have ⟨course, told, hc, hs⟩ := hd
      exact ⟨course, told, hc.congr rfl rfl rfl rfl ht, hs⟩
    all_goals exact ⟨⟨hd.left.left, hd.left.right.congr rfl rfl rfl rfl ht⟩, hd.right⟩

end Task

namespace Garage

theorem Comes.visit {course : Course} (h : g.Comes m r course told) (hs : rs <:+ told) :
    ∃ v g', machine.step g v = some g' ∧ m.Keeps g' ∧
      v.seen = { request := r, heard := rs, complete := false } := by
  have ⟨t, g', ht, hv, hk⟩ := h
  let v : Visit := { request := r, time := t, course, heard := rs, complete := false }
  exact ⟨v, g'.atTime t, by simp [v, machine, hv, ht, hs], hk, rfl⟩

theorem Ends.visit (h : g.Ends m r rs) :
    ∃ v g', machine.step g v = some g' ∧ m.Keeps g' ∧
      v.seen = { request := r, heard := rs, complete := true } := by
  have ⟨course, hq, t, g', ht, hv, hk⟩ := h
  let v : Visit := { request := r, time := t, course, heard := rs, complete := true }
  exact ⟨v, g'.atTime t, by simp [v, machine, hv, ht, hq], hk, rfl⟩

end Garage

-- What can be seen of a request that has been handled to its end is a visit of the garage.
theorem Task.During.visit {t : Task} (hd : t.During g m rs) (h : t.ended) :
    ∃ v g', Garage.machine.step g v = some g' ∧ m.Keeps g' ∧
      v.seen = { request := t.request, heard := rs, complete := t.exited } := by
  cases t
  case entry e =>
    cases hpc : e.pc <;> simp only [ended, Entry.ended, hpc, Bool.false_eq_true] at h
    all_goals simp only [During, Entry.During, hpc] at hd
    case exited => simpa [exited, hpc, request] using hd.visit
    case killed =>
      obtain ⟨_, _, hc, hs⟩ := hd
      simpa [exited, hpc, request] using hc.visit hs
  case exitpark x =>
    cases hpc : x.pc <;> simp only [ended, Exitpark.ended, hpc, Bool.false_eq_true] at h
    all_goals simp only [During, Exitpark.During, hpc] at hd
    case exited => simpa [exited, hpc, request] using hd.visit
    case killed =>
      obtain ⟨_, _, hc, hs⟩ := hd
      simpa [exited, hpc, request] using hc.visit hs
  case payment y =>
    cases hpc : y.pc <;> simp only [ended, Payment.ended, hpc, Bool.false_eq_true] at h
    all_goals simp only [During, Payment.During, hpc] at hd
    case exited => simpa [exited, hpc, request] using hd.visit
    case killed | faulted =>
      obtain ⟨_, _, hc, hs⟩ := hd
      simpa [exited, hpc, request] using hc.visit hs

end Parking
