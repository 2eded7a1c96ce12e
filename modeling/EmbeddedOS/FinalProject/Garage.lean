import EmbeddedOS.FinalProject.Operations
import EmbeddedOS.FinalProject.Visits

namespace Parking

structure Guest extends Dues where
  slot : Slot

def Guest.fee (c : Guest) (t : ℤ) : ℤ :=
  feeOf c.slot.zone (t - c.entryT)

-- What the car park is for: the cars that are parked and the money that has been taken, at the time
-- of the last visit. No two cars share a slot, and each one stands in the zone for its kind.
structure Garage where
  stay  : Plate → Option Guest
  cash  : ℤ
  clock : ℤ
  zone  : ∀ {p c}, stay p = some c → p.zone = c.slot.zone
  alone : ∀ {p q c d}, stay p = some c → stay q = some d → c.slot = d.slot → p = q

-- What comes of a visit, as far as the driver decides on it or the gate chooses the slot.
inductive Course
  | refused
  | parked (i : Slot)
  | late
  | left
  | quoted (wrong : ℕ)
  | paid (wrong : ℕ)

-- A visit: the request, the time at which the clock has been read, what came of it, the answers
-- that the driver has got, newest first, and whether these are all of them.
structure Visit where
  request  : Request
  time     : ℤ
  course   : Course
  heard    : List Reply
  complete : Bool

namespace Garage

def empty (clock : ℤ) : Garage where
  stay _ := none
  cash   := 0
  clock  := clock
  zone   := nofun
  alone  := nofun

def free (g : Garage) (z : Zone) : Set Slot :=
  { i | i.zone = z ∧ ∀ p c, g.stay p = some c → c.slot ≠ i }

-- The slot that a gate gives to a car of this zone.
def Gives (g : Garage) (entryNum : ℤ) (z : Zone) (i : Slot) : Prop :=
  if entryNum = 1 then IsLeast (g.free z) i else IsGreatest (g.free z) i

theorem Gives.mem_free {g : Garage} {n : ℤ} {z : Zone} {i : Slot} (h : g.Gives n z i) :
    i ∈ g.free z := by
  rw [Gives] at h
  split at h <;> exact h.left

-- A car takes a free slot, the bill of a car changes, and a car leaves.
def park (g : Garage) (p : Plate) (c : Guest) (h : c.slot ∈ g.free p.zone) : Garage where
  stay  := Function.update g.stay p (some c)
  cash  := g.cash
  clock := g.clock
  zone {q d} hd := by
    by_cases hq : q = p
    case pos => subst hq; simp at hd; exact hd ▸ h.left.symm
    case neg => simp [hq] at hd; exact g.zone hd
  alone {q r d e} hd he hs := by
    by_cases hq : q = p
    case pos =>
      by_contra hn
      subst hq
      simp [Ne.symm hn] at hd he
      exact h.right r e he <| hd ▸ hs.symm
    case neg =>
      by_cases hr : r = p
      case pos =>
        subst hr
        simp [hq] at hd he
        exact absurd (he ▸ hs) <| h.right q d hd
      case neg =>
        simp [hq, hr] at hd he
        exact g.alone hd he hs

def rebill (g : Garage) (p : Plate) (f : Dues → Dues) : Garage where
  stay q := (g.stay q).map fun c => if q = p then { c with toDues := f c.toDues } else c
  cash   := g.cash
  clock  := g.clock
  zone {q d} hd := by
    obtain ⟨c, hc, rfl⟩ := Option.map_eq_some_iff.mp hd
    have hz : q.zone = c.slot.zone := g.zone hc
    split <;> exact hz
  alone {q r d e} hd he hs := by
    obtain ⟨a, ha, rfl⟩ := Option.map_eq_some_iff.mp hd
    obtain ⟨b, hb, rfl⟩ := Option.map_eq_some_iff.mp he
    refine g.alone ha hb ?_
    split at hs <;> split at hs <;> exact hs

def leave (g : Garage) (p : Plate) : Garage where
  stay q := if q = p then none else g.stay q
  cash   := g.cash
  clock  := g.clock
  zone {q d} hd := by
    split at hd
    case isTrue  => contradiction
    case isFalse => exact g.zone hd
  alone {q r d e} hd he hs := by
    split at hd <;> split at he
    case isFalse.isFalse => exact g.alone hd he hs
    all_goals contradiction

-- A quote makes a bill look paid, and a late exit starts it anew.
def quote (g : Garage) (p : Plate) (t : ℤ) : Garage :=
  g.rebill p ({ · with payT := t })

def expire (g : Garage) (p : Plate) : Garage :=
  g.rebill p fun b => { entryT := b.payT, payT := -1 }

-- Money comes in, and time passes.
@[simps]
def credit (g : Garage) (fee : ℤ) : Garage :=
  { g with cash := C.int (g.cash + fee) }

@[simps]
def atTime (g : Garage) (t : ℤ) : Garage :=
  { g with clock := t }

-- What a visit makes of the garage and what the driver is told, newest answer first. There is no
-- result when the visit cannot take this course.
open Classical in
noncomputable def visit (g : Garage) (t : ℤ) : Request → Course → Option (Garage × List Reply)
  | .entry _ p, .refused  =>
    if (g.stay p).isSome then some (g, [.alreadyParked])
    else if g.free p.zone = ∅ then some (g, [.noSpace]) else none
  | .entry n p, .parked i =>
    if h : g.stay p = none ∧ g.Gives n p.zone i
    then some (g.park p { entryT := t, payT := 0, slot := i } h.right.mem_free, [.entrySuccess])
    else none
  | .exit p, .refused     =>
    match g.stay p with
    | none   => some (g, [.noCar])
    | some c => if c.payT = 0 then some (g, [.payFirst]) else none
  | .exit p, .late        =>
    (g.stay p).bind fun c =>
      if c.payT ≠ 0 ∧ t - c.payT > 25 then some (g.expire p, [.repay]) else none
  | .exit p, .left        =>
    (g.stay p).bind fun c =>
      if c.payT ≠ 0 ∧ t - c.payT ≤ 25 then some (g.leave p, [.exitSuccess]) else none
  | .pay p, .refused      => if g.stay p = none then some (g, [.cannotFind]) else none
  | .pay p, .quoted n     =>
    (g.stay p).map fun c => (g.quote p t, feeReplies (c.fee t) n)
  | .pay p, .paid n       =>
    (g.stay p).map fun c =>
      ((g.quote p t).credit (c.fee t),
        .paymentSuccess p.chars c.slot (t - c.entryT) (c.fee t) :: feeReplies (c.fee t) n)
  | _, _                  => none

-- The garage that is visited by one driver after the other. A driver whose connection is broken
-- gets the first answers only, and a quote alone does not end a visit.
open Classical in
noncomputable def machine : Machine Garage Visit where
  step g v :=
    (g.visit v.time v.request v.course).bind fun (g', told) =>
      if g.clock ≤ v.time ∧ v.heard <:+ told ∧
        (v.complete → v.heard = told ∧ ∀ n, v.course ≠ .quoted n)
      then some (g'.atTime v.time) else none

end Garage

-- What can be seen of a visit: the request, the answers and whether they are all of them.
structure Seen where
  request  : Request
  heard    : List Reply
  complete : Bool

def Visit.seen (v : Visit) : Seen :=
  { request := v.request, heard := v.heard, complete := v.complete }

-- The memory of the server keeps the books of the garage.
structure Memory.Keeps (m : Memory) (g : Garage) : Prop where
  car   : ∀ p i, (m.car i).licencePlate = p.chars ↔ ∃ c, g.stay p = some c ∧ c.slot = i
  bill  : ∀ p c, g.stay p = some c →
    (m.car c.slot).entryT = c.entryT ∧ (m.car c.slot).payT = c.payT
  lot   : ∃ l, m.Holds l
  cash  : m.cash = g.cash
  clock : g.clock ≤ m.clock

end Parking
