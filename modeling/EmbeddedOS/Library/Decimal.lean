import EmbeddedOS.Library.CString

namespace C

-- The digits of a natural number.
def numeral (n : ℕ) : List UInt8 :=
  if n = 0 then [48] else (Nat.digits 10 n).reverse.map fun d => (48 + d).toUInt8

-- What is left of a text behind the blanks, the sign and the digits of its number.
def behindNumber (cs : List UInt8) : List UInt8 :=
  (sign (cs.dropWhile isspace)).snd.dropWhile isdigit

-- A text can be continued by a digit and, as long as it holds nothing but blanks, by a blank or a
-- sign.
def Continues (cs rest : List UInt8) : Prop :=
  ∃ c ∈ rest.head?, isdigit c ∨ (cs.dropWhile isspace = [] ∧ (isspace c ∨ c = 43 ∨ c = 45))
deriving Decidable

section

variable {c : UInt8} {cs rest word : List UInt8} {n : ℤ}

theorem decimal_eq (n : ℤ) :
    decimal n = (if n < 0 then [45] else []) ++ numeral n.natAbs := by
  simp [decimal, numeral]

theorem toNat_digit {d : ℕ} (h : d < 10) : (48 + d).toUInt8.toNat = 48 + d := by
  simp [Nat.toUInt8, UInt8.toNat_ofNat']
  omega

theorem isdigit_digit {d : ℕ} (h : d < 10) : isdigit (48 + d).toUInt8 := by
  simp only [isdigit, UInt8.le_iff_toNat_le, toNat_digit h, Bool.and_eq_true, decide_eq_true_eq]
  simp
  omega

theorem numeral_ne_nil (n : ℕ) : numeral n ≠ [] := by
  unfold numeral
  split
  case isTrue    => simp
  case isFalse h => simp [Nat.digits_ne_nil_iff_ne_zero.mpr h]

theorem isdigit_of_mem_numeral {n : ℕ} : ∀ c ∈ numeral n, isdigit c := by
  intro c hc
  unfold numeral at hc
  split at hc
  case isTrue  => cases List.mem_singleton.mp hc; rfl
  case isFalse =>
    obtain ⟨d, hd, rfl⟩ := List.mem_map.mp hc
    exact isdigit_digit <| Nat.digits_lt_base (by decide) (List.mem_reverse.mp hd)

theorem mem_decimal {b : UInt8} (h : b ∈ decimal n) : b = 45 ∨ isdigit b := by
  rw [decimal_eq, List.mem_append] at h
  rcases h with h | h
  case inl => left; split at h <;> simp_all
  case inr => exact .inr <| isdigit_of_mem_numeral b h

theorem not_mem_decimal {b : UInt8} (h : b ≠ 45) (hd : ¬isdigit b) : b ∉ decimal n := by
  intro hb
  rcases mem_decimal hb with hb | hb
  case inl => exact h hb
  case inr => exact hd hb

theorem toNat_lt_of_isdigit (h : isdigit c) : c.toNat < 128 := by
  simp only [isdigit, Bool.and_eq_true, decide_eq_true_eq, UInt8.le_iff_toNat_le] at h
  have := h.right
  simp at this
  omega

theorem toNat_lt_of_mem_decimal : ∀ b ∈ decimal n, b.toNat < 128 := by
  intro b hb
  rcases mem_decimal hb with rfl | hb
  case inl => decide
  case inr => exact toNat_lt_of_isdigit hb

theorem digitsValue_digits {ds : List ℕ} (h : ∀ d ∈ ds, d < 10) :
    digitsValue (ds.reverse.map fun d => (48 + d).toUInt8) = Nat.ofDigits 10 ds := by
  induction ds
  case nil => rfl
  case cons d ds ih =>
    have hd := toNat_digit <| h d List.mem_cons_self
    have ht := ih fun d hd => h d <| List.mem_cons_of_mem _ hd
    simp only [digitsValue, List.reverse_cons, List.map_append, List.foldl_append] at ht ⊢
    rw [ht, Nat.ofDigits_cons]
    simp only [List.map_cons, List.map_nil, List.foldl_cons, List.foldl_nil, hd]
    simp
    omega

theorem digitsValue_numeral (n : ℕ) : digitsValue (numeral n) = n := by
  unfold numeral
  split
  case isTrue h  => simp [digitsValue, h]
  case isFalse h =>
    rw [digitsValue_digits fun d hd => Nat.digits_lt_base (by decide) hd, Nat.ofDigits_digits]

theorem sign_digit (h : isdigit c) : sign (c :: cs) = (false, c :: cs) := by
  unfold sign
  split
  case h_1 hc => cases hc; contradiction
  case h_2 hc => cases hc; contradiction
  case h_3    => rfl

-- A number is read as what it was printed for.
theorem sign_decimal : sign (decimal n ++ rest) = (decide (n < 0), numeral n.natAbs ++ rest) := by
  rw [decimal_eq]
  split
  case isTrue h  => simp [sign, h]
  case isFalse h =>
    obtain ⟨c, cs, hc⟩ := List.exists_cons_of_ne_nil <| numeral_ne_nil n.natAbs
    have hd := isdigit_of_mem_numeral c (hc ▸ List.mem_cons_self)
    simp [hc, h, sign_digit hd]

theorem isspace_of_isdigit (h : isdigit c) : isspace c = false := by
  simp only [isdigit, isspace, Bool.and_eq_true, decide_eq_true_eq, UInt8.le_iff_toNat_le] at h ⊢
  have hc : c ≠ 32 := by rintro rfl; simp at h
  simp [hc]
  simp at h
  omega

theorem dropWhile_isspace_decimal :
    (decimal n ++ rest).dropWhile isspace = decimal n ++ rest := by
  obtain ⟨c, cs, hc⟩ := List.exists_cons_of_ne_nil <| numeral_ne_nil n.natAbs
  have hd := isspace_of_isdigit <| isdigit_of_mem_numeral c (hc ▸ List.mem_cons_self)
  rw [decimal_eq, hc]
  split
  case isTrue  => simp [isspace]
  case isFalse => simp [hd]

theorem strtol_decimal (h₁ : -2 ^ 63 ≤ n) (h₂ : n < 2 ^ 63) (hr : rest.takeWhile isdigit = []) :
    strtol (decimal n ++ rest) = some n := by
  have hd : (numeral n.natAbs ++ rest).takeWhile isdigit = numeral n.natAbs := by
    rw [List.takeWhile_append_of_pos isdigit_of_mem_numeral, hr, List.append_nil]
  simp only [strtol, dropWhile_isspace_decimal, sign_decimal, hd, numeral_ne_nil, if_false,
    digitsValue_numeral]
  congr 1
  by_cases hn : n < 0
  case pos => simp [hn, abs_of_neg hn]; omega
  case neg => simp [hn, abs_of_nonneg (not_lt.mp hn)]; omega

theorem strtol_cons (h : isspace c) : strtol (c :: cs) = strtol cs := by
  simp [strtol, h]

theorem scanInt_decimal (h₁ : -2 ^ 31 ≤ n) (h₂ : n < 2 ^ 31) (hr : rest.takeWhile isdigit = []) :
    scanInt (decimal n ++ rest) = some n := by
  rw [scanInt, strtol_decimal (by omega) (by omega) hr, Option.map_some, int_eq h₁ h₂]

theorem scanInt_cons (h : isspace c) : scanInt (c :: cs) = scanInt cs := by
  rw [scanInt, strtol_cons h, scanInt]

-- A word is read up to the blank behind it.
theorem scanWord_append (hw : word ≠ []) (hs : ∀ c ∈ word, isspace c = false)
    (hr : rest.takeWhile (!isspace ·) = []) : scanWord (word ++ rest) = some (word, rest) := by
  obtain ⟨c, cs, rfl⟩ := List.exists_cons_of_ne_nil hw
  have hd : ((c :: cs) ++ rest).dropWhile isspace = (c :: cs) ++ rest := by
    simp [hs c List.mem_cons_self]
  have ht : ((c :: cs) ++ rest).takeWhile (!isspace ·) = c :: cs := by
    rw [List.takeWhile_append_of_pos fun d hd => by simp [hs d hd], hr, List.append_nil]
  simp only [scanWord, hd, ht]
  simp

theorem decimal_ne_zero : ∀ c ∈ decimal n, c ≠ 0 := by
  intro c hc
  rw [decimal_eq, List.mem_append] at hc
  cases hc
  case inl hc =>
    split at hc
    case isTrue  => cases List.mem_singleton.mp hc; decide
    case isFalse => contradiction
  case inr hc =>
    rintro rfl
    exact absurd (isdigit_of_mem_numeral 0 hc) (by decide)

theorem numeral_length_le {n k : ℕ} (hk : 0 < k) (h : n < 10 ^ k) : (numeral n).length ≤ k := by
  unfold numeral
  split
  case isTrue  => exact hk
  case isFalse => simpa using (Nat.digits_length_le_iff (by decide) n).mpr h

theorem decimal_length_le (h₁ : -2 ^ 31 ≤ n) (h₂ : n < 2 ^ 31) : (decimal n).length ≤ 11 := by
  have hl := numeral_length_le (n := n.natAbs) (k := 10) (by decide) (by omega)
  rw [decimal_eq, List.length_append]
  split
  case isTrue  => simp; omega
  case isFalse => simp; omega

theorem takeWhile_append_of_stop {α : Type*} {f : α → Bool} {xs ys : List α}
    (h : xs.dropWhile f ≠ [] ∨ ys.takeWhile f = []) : (xs ++ ys).takeWhile f = xs.takeWhile f := by
  rw [List.takeWhile_append]
  split
  case isFalse => rfl
  case isTrue hl =>
    have ht : xs.takeWhile f = xs := (List.takeWhile_prefix f).eq_of_length hl
    have hd : xs.dropWhile f = [] := by
      simpa [ht] using List.takeWhile_append_dropWhile (p := f) (l := xs)
    rw [h.resolve_left (not_not_intro hd), List.append_nil, ht]

theorem dropWhile_append_of_stop {α : Type*} {f : α → Bool} {xs ys : List α}
    (h : xs.dropWhile f ≠ [] ∨ ys.takeWhile f = []) :
    (xs ++ ys).dropWhile f = xs.dropWhile f ++ ys := by
  have hx := List.takeWhile_append_dropWhile (p := f) (l := xs ++ ys)
  rw [takeWhile_append_of_stop h] at hx
  have hy := congrArg (· ++ ys) <| List.takeWhile_append_dropWhile (p := f) (l := xs)
  rw [List.append_assoc] at hy
  exact List.append_cancel_left <| hx.trans hy.symm

theorem sign_append (h : cs ≠ []) :
    sign (cs ++ rest) = ((sign cs).fst, (sign cs).snd ++ rest) := by
  obtain ⟨c, cs, rfl⟩ := List.exists_cons_of_ne_nil h
  by_cases h₁ : c = 45
  case pos => subst h₁; rfl
  case neg =>
    by_cases h₂ : c = 43
    case pos => subst h₂; rfl
    case neg => simp [sign, h₁, h₂]

-- Behind the blanks and the sign, a text that is not continued ends as it did.
theorem sign_dropWhile_append (h : behindNumber cs ≠ [] ∨ ¬Continues cs rest) :
    sign ((cs ++ rest).dropWhile isspace) =
      ((sign (cs.dropWhile isspace)).fst, (sign (cs.dropWhile isspace)).snd ++ rest) := by
  by_cases hb : cs.dropWhile isspace = []
  case neg => rw [List.dropWhile_append, if_neg (by simpa using hb), sign_append hb]
  case pos =>
    have hc : ¬Continues cs rest := h.resolve_left <| not_not_intro <| by
      rw [behindNumber, hb]
      rfl
    rw [List.dropWhile_append, if_pos (by simpa using hb), hb]
    cases rest
    case nil => rfl
    case cons c rest =>
      simp only [Continues, List.head?_cons, Option.mem_def, Option.some.injEq, exists_eq_left', hb,
        true_and, not_or] at hc
      have hr : (c :: rest).dropWhile isspace = c :: rest := by simp [hc.right.left]
      rw [hr]
      simp [sign, hc.right.right]

theorem takeWhile_isdigit_of_not_continues (h : ¬Continues cs rest) :
    rest.takeWhile isdigit = [] := by
  cases rest
  case nil => rfl
  case cons c rest =>
    have hc : ¬isdigit c := fun hd => h ⟨c, rfl, .inl hd⟩
    simp [hc]

-- What stands behind a number has nothing to do with it, unless the number runs into it.
theorem strtol_append (h : behindNumber cs ≠ [] ∨ ¬Continues cs rest) :
    strtol (cs ++ rest) = strtol cs := by
  have ht := takeWhile_append_of_stop <| h.imp id takeWhile_isdigit_of_not_continues
  simp only [strtol, sign_dropWhile_append h, ht]

theorem behindNumber_append_of_stop (h : behindNumber cs ≠ [] ∨ ¬Continues cs rest) :
    behindNumber (cs ++ rest) = behindNumber cs ++ rest := by
  rw [behindNumber, sign_dropWhile_append h]
  exact dropWhile_append_of_stop <| h.imp id takeWhile_isdigit_of_not_continues

theorem atoi_append (h : behindNumber cs ≠ [] ∨ ¬Continues cs rest) :
    atoi (cs ++ rest) = atoi cs := by
  rw [atoi, scanInt, strtol_append h, atoi, scanInt]

end
end C
