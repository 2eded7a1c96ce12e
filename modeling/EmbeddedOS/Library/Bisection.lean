import Mathlib

namespace Bisection

-- The numbers that are left in a search, from `lower` to `upper`.
@[ext]
structure Bounds where
  lower : ℤ
  upper : ℤ

namespace Bounds

-- The middle, rounded down.
def mid (b : Bounds) : ℤ :=
  (b.upper + b.lower) / 2

def width (b : Bounds) : ℤ :=
  b.upper + 1 - b.lower

def Contains (b : Bounds) (x : ℤ) : Prop :=
  b.lower ≤ x ∧ x ≤ b.upper

-- What is left once the middle has been compared with the number that is searched for.
def halve (x : ℤ) (b : Bounds) : Bounds :=
  if x < b.mid then { b with upper := b.mid - 1 }
  else if b.mid < x then { b with lower := b.mid + 1 }
  else b

-- What is left if the first `n` middles were all too small.
def top (b : Bounds) (n : ℕ) : Bounds where
  lower := b.upper + 1 - b.width / 2 ^ n
  upper := b.upper

-- The greatest number whose search meets no middle from `limit` on. It is the greatest one of the
-- middles that are too small for all numbers above, as long as they are below `limit`.
def reach (limit : ℤ) (b : Bounds) : ℤ :=
  if b.upper < limit then b.upper
  else b.upper - b.width / 2 ^ Nat.log 2 (b.width / (b.upper + 1 - limit)).toNat

variable {b : Bounds} {x limit : ℤ} {n k : ℕ}

section Halve

theorem halve_of_lt (h : x < b.mid) : b.halve x = { b with upper := b.mid - 1 } :=
  if_pos h

theorem halve_of_gt (h : b.mid < x) : b.halve x = { b with lower := b.mid + 1 } := by
  rw [halve, if_neg h.not_gt, if_pos h]

theorem halve_of_eq (h : b.mid = x) : b.halve x = b := by
  rw [halve, if_neg h.not_gt, if_neg h.not_lt]

namespace Contains

theorem lower_le_mid (h : b.Contains x) : b.lower ≤ b.mid := by
  have ⟨hl, hu⟩ := h
  simp only [mid]
  omega

theorem mid_le_upper (h : b.Contains x) : b.mid ≤ b.upper := by
  have ⟨hl, hu⟩ := h
  simp only [mid]
  omega

theorem width_nonneg (h : b.Contains x) : 0 ≤ b.width := by
  have ⟨hl, hu⟩ := h
  simp only [width]
  omega

-- The bounds come nearer to each other, but not beyond the number.
theorem halve_between (h : b.Contains x) :
    (b.lower ≤ (b.halve x).lower ∧ (b.halve x).lower ≤ x) ∧
      x ≤ (b.halve x).upper ∧ (b.halve x).upper ≤ b.upper := by
  have ⟨hl, hu⟩ := h
  have hm := h.lower_le_mid
  have hm' := h.mid_le_upper
  unfold Bounds.halve
  split
  case isTrue hx =>
    exact ⟨⟨le_rfl, hl⟩, Int.le_sub_one_of_lt hx, (Int.sub_le_self _ zero_le_one).trans hm'⟩
  split
  case isTrue hx => exact ⟨⟨hm.trans (Int.le_add_one le_rfl), hx⟩, hu, le_rfl⟩
  case isFalse   => exact ⟨⟨le_rfl, hl⟩, hu, le_rfl⟩

theorem halve (h : b.Contains x) : (b.halve x).Contains x :=
  ⟨h.halve_between.left.right, h.halve_between.right.left⟩

theorem lower_le_halve (h : b.Contains x) : b.lower ≤ (b.halve x).lower :=
  h.halve_between.left.left

theorem halve_upper_le (h : b.Contains x) : (b.halve x).upper ≤ b.upper :=
  h.halve_between.right.right

end Contains

-- A comparison that does not find the number leaves at most one half.
theorem two_mul_width_halve_le (h : b.mid ≠ x) : 2 * (b.halve x).width ≤ b.width := by
  cases h.lt_or_gt
  case inl hx =>
    rw [halve_of_gt hx]
    simp only [width, mid]
    omega
  case inr hx =>
    rw [halve_of_lt hx]
    simp only [width, mid]
    omega

end Halve

-- What is left after `n` comparisons.
section Iterate

theorem contains_iterate (h : b.Contains x) (n : ℕ) : ((halve x)^[n] b).Contains x := by
  induction n
  case zero      => exact h
  case succ n ih =>
    rw [Function.iterate_succ_apply']
    exact ih.halve

@[simp]
theorem top_zero : b.top 0 = b := by
  ext <;> simp [top, width]

theorem width_div_succ : b.width / 2 ^ (n + 1) = b.width / 2 ^ n / 2 := by
  rw [pow_succ, Int.ediv_ediv_of_nonneg (by positivity)]

theorem mid_top : (b.top n).mid = b.upper - b.width / 2 ^ (n + 1) := by
  rw [width_div_succ]
  simp only [mid, top]
  omega

theorem halve_top (h : (b.top n).mid < x) : (b.top n).halve x = b.top (n + 1) := by
  rw [halve_of_gt h, mid_top]
  ext
  case lower => simp only [top]; omega
  case upper => rfl

theorem top_lower_monotone (h : 0 ≤ b.width) : Monotone fun n => (b.top n).lower := by
  refine monotone_nat_of_le_succ fun n => ?_
  have hw : 0 ≤ b.width / 2 ^ n := by positivity
  simp only [top, width_div_succ]
  omega

theorem iterate_eq_top (h : b.Contains x) (ht : (b.top n).Contains x) :
    (halve x)^[n] b = b.top n := by
  have hw := h.width_nonneg
  induction n
  case zero      => simp
  case succ n ih =>
    have ⟨hl, hu⟩ := ht
    have hm : (b.top n).mid < x := by
      rw [mid_top]
      simp only [top] at hl
      omega
    have hc : (b.top n).Contains x := ⟨(top_lower_monotone hw n.le_succ).trans hl, hu⟩
    rw [Function.iterate_succ_apply', ih hc, halve_top hm]

end Iterate

-- The middles that come up.
section Reach

theorem mid_top_lt_iff (hl : limit ≤ b.upper) (hw : 0 ≤ b.width) :
    (b.top n).mid < limit ↔ n < Nat.log 2 (b.width / (b.upper + 1 - limit)).toNat := by
  have hd : 0 < b.upper + 1 - limit := by omega
  have hp : (0 : ℤ) < 2 ^ (n + 1) := by positivity
  calc
    (b.top n).mid < limit ↔ b.upper + 1 - limit ≤ b.width / 2 ^ (n + 1) := by rw [mid_top]; omega
    _ ↔ 2 ^ (n + 1) ≤ b.width / (b.upper + 1 - limit) := by
      rw [Int.le_ediv_iff_mul_le hp, Int.le_ediv_iff_mul_le hd, mul_comm]
    _ ↔ 2 ^ (n + 1) ≤ (b.width / (b.upper + 1 - limit)).toNat := by
      zify
      rw [Int.toNat_of_nonneg (Int.ediv_nonneg hw hd.le)]
    _ ↔ n < Nat.log 2 (b.width / (b.upper + 1 - limit)).toNat := by
      constructor
      case mp  => exact Nat.le_log_of_pow_le one_lt_two
      case mpr =>
        intro h
        refine Nat.pow_le_of_le_log (fun h₀ => ?_) h
        simp [h₀] at h

-- A search goes up at first. From the first middle that is too great, all others are smaller.
theorem iterate_cases (h : b.Contains x) (hx : ∀ n, (b.top n).Contains x → (b.top n).mid < limit)
    (n : ℕ) : ((halve x)^[n] b).upper < limit ∨ ∃ k, (halve x)^[n] b = b.top k := by
  induction n
  case zero      => exact .inr ⟨0, by simp⟩
  case succ n ih =>
    have hc := contains_iterate h n
    rw [Function.iterate_succ_apply']
    cases ih
    case inl hu => exact .inl <| hc.halve_upper_le.trans_lt hu
    case inr hk =>
      have ⟨k, hk⟩ := hk
      rw [hk] at hc ⊢
      rcases lt_trichotomy x (b.top k).mid with hm | hm | hm
      case inl =>
        rw [halve_of_lt hm]
        exact .inl <| (Int.sub_lt_self _ one_pos).trans (hx k hc)
      case inr.inl => exact .inr ⟨k, halve_of_eq hm.symm⟩
      case inr.inr => exact .inr ⟨k + 1, halve_top hm⟩

theorem forall_mid_lt_iff_top (h : b.Contains x) :
    (∀ n, ((halve x)^[n] b).mid < limit) ↔ ∀ n, (b.top n).Contains x → (b.top n).mid < limit := by
  constructor
  case mp =>
    intro hm n ht
    rw [← iterate_eq_top h ht]
    exact hm n
  case mpr =>
    intro ht n
    have hc := contains_iterate h n
    cases iterate_cases h ht n
    case inl hu => exact hc.mid_le_upper.trans_lt hu
    case inr hk =>
      have ⟨k, hk⟩ := hk
      rw [hk] at hc ⊢
      exact ht k hc

-- No middle that comes up in the search for `x` is `limit` or more exactly if `x` is in reach.
theorem forall_mid_lt_iff (h : b.Contains x) :
    (∀ n, ((halve x)^[n] b).mid < limit) ↔ x ≤ b.reach limit := by
  have hw := h.width_nonneg
  have ⟨_, hu⟩ := h
  rw [forall_mid_lt_iff_top h, reach]
  split
  case isTrue hb => exact iff_of_true (fun n hc => hc.mid_le_upper.trans_lt hb) hu
  case isFalse hb =>
    simp only [mid_top_lt_iff (not_lt.mp hb) hw]
    generalize Nat.log 2 _ = m
    constructor
    case mp =>
      intro ht
      by_contra hc
      exact lt_irrefl m <| ht m ⟨by simp only [top]; omega, hu⟩
    case mpr =>
      rintro hx n ⟨ht, -⟩
      by_contra hn
      have hm : (b.top m).lower ≤ x := (top_lower_monotone hw (not_lt.mp hn)).trans ht
      simp only [top] at hm
      omega

end Reach

end Bounds
end Bisection
