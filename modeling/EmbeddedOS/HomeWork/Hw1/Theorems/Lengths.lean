import EmbeddedOS.HomeWork.Hw1.Driver
import EmbeddedOS.Library.Inevitable

open C

namespace Hw1

-- The loop ends, after it has displayed each byte behind the distance once and nothing else, all
-- of them from `rec_buf`.
def HandlesLength (recBuf : Vector UInt8 100) (len : ℕ) : Prop :=
  ∃ (l : DisplayLoop) (_ : (displayLoop recBuf len).Run .start l),
    (displayLoop recBuf len).step l () = none ∧
    l.displayed = (List.range' 1 (len - 1)).map (recBuf[·]?) ∧ none ∉ l.displayed

-- The loop has displayed the bytes in front of its counter.
structure DisplayLoop.Counts (recBuf : Vector UInt8 100) (len : ℕ) (l : DisplayLoop) : Prop where
  lower     : 1 ≤ l.i.toNat
  upper     : l.i.toNat ≤ max 1 len
  displayed : l.displayed = (List.range' 1 (l.i.toNat - 1)).map (recBuf[·]?)

variable {recBuf : Vector UInt8 100} {len : ℕ} {l l' : DisplayLoop}

theorem displayLoop_eq_some_iff : (displayLoop recBuf len).step l () = some l' ↔
    l.i.toNat < len ∧ { i := l.i + 1, displayed := l.displayed ++ [recBuf[l.i.toNat]?] } = l' := by
  simp [displayLoop]

theorem displayLoop_eq_none_iff : (displayLoop recBuf len).step l () = none ↔ len ≤ l.i.toNat := by
  simp [displayLoop]

-- No counter of 8 bits reaches 256.
theorem not_ends (h : 256 ≤ len) : (displayLoop recBuf len).step l () ≠ none := by
  have hi := l.i.toNat_lt
  rw [Ne, displayLoop_eq_none_iff]
  omega

theorem succ_toNat (hi : l.i.toNat < len) (hn : len ≤ 255) : (l.i + 1).toNat = l.i.toNat + 1 := by
  rw [UInt8.toNat_add]
  simp
  omega

namespace DisplayLoop.Counts

theorem start : DisplayLoop.start.Counts recBuf len where
  lower     := le_rfl
  upper     := le_max_left _ _
  displayed := rfl

theorem step (hl : l.Counts recBuf len) (hn : len ≤ 255)
    (h : (displayLoop recBuf len).step l () = some l') : l'.Counts recBuf len := by
  obtain ⟨hi, rfl⟩ := displayLoop_eq_some_iff.mp h
  have h₁ := hl.lower
  constructor <;> simp only [succ_toNat hi hn]
  case lower => omega
  case upper => omega
  case displayed =>
    have hr : List.range' 1 l.i.toNat = List.range' 1 (l.i.toNat - 1) ++ [l.i.toNat] := by
      obtain ⟨n, hn⟩ := Nat.exists_eq_add_of_le h₁
      rw [hn, Nat.add_sub_cancel_left, Nat.add_comm, List.range'_1_concat, Nat.add_comm]
    rw [hl.displayed, Nat.add_sub_cancel, hr, List.map_append, List.map_singleton]

theorem run (hn : len ≤ 255) (e : (displayLoop recBuf len).Run .start l) : l.Counts recBuf len :=
  e.invariant start (fun _ _ _ hl _ h => hl.step hn h) e.allSteps_true

-- Where the loop ends, it has displayed all bytes.
theorem displayed_of_end (hl : l.Counts recBuf len)
    (h : (displayLoop recBuf len).step l () = none) :
    l.displayed = (List.range' 1 (len - 1)).map (recBuf[·]?) := by
  have hi := displayLoop_eq_none_iff.mp h
  have h₁ := hl.lower
  have h₂ := hl.upper
  have he : l.i.toNat - 1 = len - 1 := by omega
  rw [hl.displayed, he]

end DisplayLoop.Counts

theorem exists_end (recBuf : Vector UInt8 100) (h : len ≤ 255) :
    ∃ (l : DisplayLoop) (_ : (displayLoop recBuf len).Run .start l),
      (displayLoop recBuf len).step l () = none := by
  have hi : (displayLoop recBuf len).Inevitable
      (fun l => (displayLoop recBuf len).step l () = none) .start := by
    refine .of_bound (I := fun n l => l.Counts recBuf len ∧ len - l.i.toNat = n) ⟨.start, rfl⟩ ?_ ?_
    case refine_1 => exact fun _ l _ hp => ⟨(), Option.isSome_iff_ne_none.mpr hp⟩
    case refine_2 =>
      rintro _ l ⟨⟩ l' ⟨hc, rfl⟩ hs
      have hc' := hc.step h hs
      obtain ⟨hi, rfl⟩ := displayLoop_eq_some_iff.mp hs
      refine .inr ⟨_, ?_, hc', rfl⟩
      have hs' := succ_toNat hi h
      simp only [hs']
      omega
  exact hi.exists_run

-- The loop does its work exactly for the lengths of `rec_buf`. Longer ones make it read behind the
-- array, and from 256 on it never ends.
theorem handlesLength_iff : HandlesLength recBuf len ↔ len ≤ 100 := by
  constructor
  case mp =>
    rintro ⟨l, e, hx, hd, hn⟩
    by_contra hc
    by_cases hl : 256 ≤ len
    case pos => exact not_ends hl hx
    case neg =>
      have hm : 100 ∈ List.range' 1 (len - 1) := List.mem_range'_1.mpr (by omega)
      have h₁₀₀ : recBuf[100]? = none := by simp
      exact hn <| hd ▸ List.mem_map.mpr ⟨100, hm, h₁₀₀⟩
  case mpr =>
    intro h
    have hn : len ≤ 255 := by omega
    have ⟨l, e, hx⟩ := exists_end recBuf hn
    have hd := (DisplayLoop.Counts.run hn e).displayed_of_end hx
    refine ⟨l, e, hx, hd, fun hm => ?_⟩
    rw [hd] at hm
    obtain ⟨i, hi, hg⟩ := List.mem_map.mp hm
    have hi' := List.mem_range'_1.mp hi
    simp at hg
    omega

-- In terms of the events of the driver, the loop does what `displays` says.
theorem displays_eq (hn : len ≤ 255) (e : (displayLoop recBuf len).Run .start l)
    (h : (displayLoop recBuf len).step l () = none) :
    displays recBuf.toList len =
      (l.displayed.mapM fun c : Option UInt8 => c.bind display).map List.flatten := by
  have hd := (DisplayLoop.Counts.run hn e).displayed_of_end h
  rw [hd, displays, List.mapM_map, Option.map_eq_bind]
  simp [Function.comp_def]

theorem handlesLength_broken : ¬ ∀ (recBuf : Vector UInt8 100) (len : ℕ), len < 2 ^ 64 →
    HandlesLength recBuf len := by
  intro h
  have ⟨l, _, hx, _⟩ := h (.replicate 100 48) 256 (by decide)
  exact not_ends le_rfl hx

end Hw1
