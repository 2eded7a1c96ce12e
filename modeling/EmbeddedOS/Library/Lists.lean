import Mathlib

-- Where the elements of a list come from that has been changed at one place.
namespace Lists

variable {α : Type*} {l : List α} {a b c : α} {i j : ℕ}

theorem set_cases (h : (l.set i a)[j]? = some b) : (j = i ∧ b = a) ∨ (j ≠ i ∧ l[j]? = some b) := by
  by_cases hj : j = i
  case neg => exact .inr ⟨hj, by rwa [List.getElem?_set_ne (Ne.symm hj)] at h⟩
  case pos =>
    subst hj
    rw [List.getElem?_set_self'] at h
    obtain ⟨_, _, rfl⟩ := Option.map_eq_some_iff.mp h
    exact .inl ⟨rfl, rfl⟩

theorem append_cases (h : (l ++ [a])[j]? = some b) :
    (j = l.length ∧ b = a) ∨ (j < l.length ∧ l[j]? = some b) := by
  rw [List.getElem?_append] at h
  split at h
  case isTrue hl  => exact .inr ⟨hl, h⟩
  case isFalse hl =>
    have ⟨hk, hb⟩ := List.getElem?_eq_some_iff.mp h
    rw [List.length_singleton] at hk
    exact .inl ⟨by omega, by simpa using hb.symm⟩

-- An element other than the one that has been replaced is still there.
theorem getElem?_set_of_ne (hi : l[i]? = some a) (hj : l[j]? = some b) (hn : b ≠ a) :
    (l.set i c)[j]? = some b := by
  have hne : i ≠ j := by
    rintro rfl
    exact hn <| Option.some.inj <| hj.symm.trans hi
  rwa [List.getElem?_set_ne hne]

theorem mem_set_of_ne (hi : l[i]? = some a) (hb : b ∈ l) (hn : b ≠ a) : b ∈ l.set i c := by
  have ⟨_, hj⟩ := List.getElem?_of_mem hb
  exact List.mem_of_getElem? <| getElem?_set_of_ne hi hj hn

end Lists
