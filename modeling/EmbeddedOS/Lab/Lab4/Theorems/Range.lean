import EmbeddedOS.Lab.Lab4.Theorems.Lossless

open C Fifo

namespace Mydev

-- A letter is stored inside of `temp`.
def InTemp (s : State) (c : Call) : Prop :=
  ∀ b d, c = .write b → isLetter b → s.device = some d → d.inputCount.toNat < 100

def State.Ordered (s : State) : Prop :=
  ∀ d, s.device = some d → d.outputCount ≤ d.inputCount

-- The letters that have been accepted and not been read yet are at most 100.
def State.Backlogged (s : State) : Prop :=
  (pending (ops s.log)).length ≤ 100

-- As long as the device is in use, its counters are those of the queue.
def State.Keeps (s : State) : Prop :=
  ∀ d, s.device = some d → d.Holds (ops s.log)

variable {s s' : State} {c : Call} {d : Device}

theorem Device.myWrite_full {b : UInt8} (h : isLetter b) (hi : 100 ≤ d.inputCount.toNat) :
    d.myWrite [b] = none := by
  simp [myWrite, overlay, h, hi]

namespace State.Keeps

theorem initial : State.initial.Keeps := by
  intro d hd
  cases hd
  exact .initial

theorem step (hs : s.Keeps) (h : lab4.step s c = some s') : s'.Keeps := by
  cases hd : s.device
  case none => cases c <;> simp [lab4, Mydev.step, hd] at h
  case some d =>
    have hh := hs d hd
    cases c
    case write b =>
      cases (by simpa [lab4, Mydev.step, hd] using h.symm : s' = _)
      by_cases hb : isLetter b
      case neg =>
        intro d' hd'
        cases (Device.myWrite_other hb).symm.trans hd'
        rwa [ops_other hb]
      by_cases hf : fresh (ops s.log) < 100
      case pos =>
        obtain ⟨d₁, hw, hh'⟩ := hh.push hb hf
        intro d' hd'
        cases hw.symm.trans hd'
        rwa [ops_letter hb]
      case neg =>
        intro d' hd'
        have hw := Device.myWrite_full (d := d) hb (by rw [hh.input]; omega)
        cases hw.symm.trans hd'
    case read =>
      obtain ⟨buf, d₁, hr, hh', -⟩ := hh.read
      cases (by simpa [lab4, Mydev.step, hd, hr] using h.symm : s' = _)
      intro d' hd'
      cases hd'
      exact hh'

theorem run (e : lab4.Run .initial s) : s.Keeps :=
  e.invariant .initial (fun _ _ _ hs _ h => hs.step h) e.allSteps_true

theorem ordered (hs : s.Keeps) : s.Ordered :=
  fun d hd => UInt8.le_iff_toNat_le.mpr (hs d hd).output

-- The place of the next letter is the number of letters that have been accepted since the counters
-- were rewound.
theorem inTemp (hs : s.Keeps) (hc : Bounded s c) : InTemp s c :=
  fun b d hw hb hd => (hs d hd).input ▸ hc b hw hb

theorem bounded (hs : s.Keeps) (hc : InTemp s c) (h : (lab4.step s c).isSome) : Bounded s c := by
  intro b hw hb
  cases hd : s.device
  case none   => cases c <;> simp [lab4, Mydev.step, hd] at h
  case some d => exact (hs d hd).input ▸ hc b d hw hb hd

end State.Keeps

-- All letters are stored inside of the array and the counters stay in order exactly if never more
-- than 100 letters are accepted without a read that finds the queue empty. How many of them have
-- been read in the meantime does not matter.
theorem inTemp_iff_bounded (e : lab4.Run .initial s) :
    e.AllSteps InTemp ∧ e.AllStates State.Ordered ↔ e.AllSteps Bounded := by
  have hk := Machine.Run.allSteps_reached State.Keeps.run e
  constructor
  case mp =>
    rintro ⟨hi, -⟩
    exact (hk.and <| hi.and e.allSteps_enabled).mono fun _ _ ⟨hs, hi, h⟩ => hs.bounded hi h
  case mpr =>
    intro hc
    refine ⟨(hk.and hc).mono fun _ _ ⟨hs, hc⟩ => hs.inTemp hc, ?_⟩
    exact Machine.Run.allStates_iff.mpr
      ⟨hk.mono fun _ _ hs => hs.ordered, (State.Keeps.run e).ordered⟩

-- Each letter but the first is read before the next one is written, so that no read finds the queue
-- empty.
def steadyUser (n : ℕ) : List Call :=
  .write 65 :: (List.replicate n [.write 65, .read]).flatten

theorem inTemp_broken : ¬ ∀ (s : State) (e : lab4.Run .initial s), e.AllStates State.Backlogged →
    e.AllSteps InTemp ∧ e.AllStates State.Ordered := by
  intro h
  obtain ⟨s, e, he, hs⟩ := Machine.Run.exists_of_exec lab4
    (fun s _ => (pending (ops s.log)).length < 100) .initial (steadyUser 99)
    (fun s => s.device.map (·.inputCount) = some 100 ∧ (pending (ops s.log)).length < 100)
    (by decide +kernel)
  obtain ⟨hi, hp⟩ := of_decide_eq_true hs
  obtain ⟨d, hd, hi⟩ := Option.map_eq_some_iff.mp hi
  have hs' : lab4.step s (.write 65) = some
      { device := d.myWrite [65], log := .wrote 65 :: s.log } := by simp [lab4, step, hd]
  have hb : e.AllStates State.Backlogged :=
    Machine.Run.allStates_iff.mpr ⟨he.mono fun _ _ hb => (of_decide_eq_true hb).le, hp.le⟩
  have hl : (pending (ops (.wrote 65 :: s.log))).length ≤ 100 := by
    rw [ops_letter rfl, pending, List.length_append]
    exact hp
  obtain ⟨⟨_, ht⟩, _⟩ := h _ (e.step _ hs') ⟨hb, hl⟩
  simpa [hi] using ht 65 d rfl rfl hd

end Mydev
