import EmbeddedOS.Library.Decimal

namespace C

variable {cs rest word : List UInt8} {n : ℤ}

theorem head_dropWhile {α : Type*} {f : α → Bool} {x : α} {xs : List α}
    (h : x ∈ (xs.dropWhile f).head?) : f x = false := by
  have hn := List.head?_dropWhile_not f xs
  rw [Option.mem_def.mp h] at hn
  exact hn

theorem drop_takeWhile_length {α : Type*} (f : α → Bool) (xs : List α) :
    xs.drop (xs.takeWhile f).length = xs.dropWhile f := by
  have h : (xs.takeWhile f ++ xs.dropWhile f).drop (xs.takeWhile f).length = xs.dropWhile f :=
    List.drop_left
  rwa [List.takeWhile_append_dropWhile] at h

-- A buffer with a NUL holds what stands in front of the first one.
theorem string?_append_zero (cs rest : List UInt8) :
    string? (cs ++ 0 :: rest) = some (cs.takeWhile (· ≠ 0)) := by
  rw [string?, if_pos (by simp), takeWhile_append_of_stop (.inr (by simp))]

theorem sign_suffix (cs : List UInt8) : (sign cs).snd <:+ cs := by
  unfold sign
  split
  case h_1 => exact List.suffix_cons _ _
  case h_2 => exact List.suffix_cons _ _
  case h_3 => exact List.suffix_rfl

theorem behindNumber_suffix (cs : List UInt8) : behindNumber cs <:+ cs :=
  (List.dropWhile_suffix _).trans <| (sign_suffix _).trans (List.dropWhile_suffix _)

-- A text with a number has a digit behind the blanks and the sign.
theorem digits_ne_nil (h : scanInt cs = some n) :
    (sign (cs.dropWhile isspace)).snd.takeWhile isdigit ≠ [] := by
  intro hd
  simp [scanInt, strtol, hd] at h

theorem dropWhile_ne_nil (h : scanInt cs = some n) : cs.dropWhile isspace ≠ [] := by
  intro hd
  have hn := digits_ne_nil h
  rw [hd] at hn
  contradiction

theorem scanInt_append (h : behindNumber cs ≠ [] ∨ ¬Continues cs rest) :
    scanInt (cs ++ rest) = scanInt cs := by
  rw [scanInt, strtol_append h, scanInt]

theorem scanInt_decimal_self (h₁ : -2 ^ 31 ≤ n) (h₂ : n < 2 ^ 31) :
    scanInt (decimal n) = some n := by
  have h : scanInt (decimal n ++ []) = some n := scanInt_decimal h₁ h₂ rfl
  rwa [List.append_nil] at h

theorem behindNumber_decimal_append :
    behindNumber (decimal n ++ rest) = rest.dropWhile isdigit := by
  rw [behindNumber, dropWhile_isspace_decimal, sign_decimal,
    List.dropWhile_append_of_pos isdigit_of_mem_numeral]

theorem behindNumber_decimal : behindNumber (decimal n) = [] := by
  have h : behindNumber (decimal n ++ []) = [] := behindNumber_decimal_append
  rwa [List.append_nil] at h

-- What stands behind a number is what is left of it.
theorem behindNumber_append (hn : cs.dropWhile isspace ≠ []) (h : behindNumber cs = []) :
    behindNumber (cs ++ rest) = rest.dropWhile isdigit := by
  have hd : (cs ++ rest).dropWhile isspace = cs.dropWhile isspace ++ rest := by
    rw [List.dropWhile_append, if_neg (by simpa using hn)]
  have he : ((sign (cs.dropWhile isspace)).snd.dropWhile isdigit).isEmpty := by
    simpa [behindNumber] using h
  rw [behindNumber, hd, sign_append hn, List.dropWhile_append, if_pos he]

-- A number that is read stands in front of what is left.
theorem exists_number (h : scanInt cs = some n) :
    ∃ number, cs = number ++ behindNumber cs ∧ scanInt number = some n ∧
      behindNumber number = [] := by
  obtain ⟨number, hn⟩ := behindNumber_suffix cs
  generalize hr : behindNumber cs = rest at hn ⊢
  subst hn
  have hne : number.dropWhile isspace ≠ [] := by
    intro hd
    have hb : (number ++ rest).dropWhile isspace = rest.dropWhile isspace := by
      rw [List.dropWhile_append, if_pos (by simpa using hd)]
    have h₁ := congrArg List.length <| List.takeWhile_append_dropWhile (p := isdigit)
      (l := (sign ((number ++ rest).dropWhile isspace)).snd)
    have h₂ := (sign_suffix ((number ++ rest).dropWhile isspace)).length_le
    have h₃ := (List.dropWhile_suffix (l := rest) isspace).length_le
    have h₄ := List.length_pos_of_ne_nil (digits_ne_nil h)
    have h₅ := congrArg List.length hr
    rw [← hb] at h₃
    simp only [behindNumber, List.length_append] at h₁ h₅
    omega
  have hd : (number ++ rest).dropWhile isspace = number.dropWhile isspace ++ rest := by
    rw [List.dropWhile_append, if_neg (by simpa using hne)]
  have hs : (sign (number.dropWhile isspace)).snd =
      (sign ((number ++ rest).dropWhile isspace)).snd.takeWhile isdigit := by
    have ht := List.takeWhile_append_dropWhile (p := isdigit)
      (l := (sign ((number ++ rest).dropWhile isspace)).snd)
    have hl : (sign ((number ++ rest).dropWhile isspace)).snd.dropWhile isdigit = rest := hr
    rw [hl] at ht
    refine (List.append_cancel_right (ht.trans ?_)).symm
    rw [hd, sign_append hne]
  have hc : ¬Continues number rest := by
    rintro ⟨c, hc, hd | hd⟩
    case inl =>
      rw [← hr] at hc
      exact absurd hd (by simp [head_dropWhile hc])
    case inr => exact hne hd.left
  refine ⟨number, rfl, ?_, ?_⟩
  case refine_1 => rw [← h, scanInt_append (.inr hc)]
  case refine_2 =>
    rw [behindNumber, hs, List.dropWhile_eq_nil_iff]
    exact fun c hc => List.mem_takeWhile_imp hc

-- The word that is read stands behind blanks, and a blank or nothing stands behind it.
theorem scanWord_eq_some : scanWord cs = some (word, rest) ↔ ∃ blanks, cs = blanks ++ word ++ rest ∧
    (∀ c ∈ blanks, isspace c) ∧ word ≠ [] ∧ (∀ c ∈ word, isspace c = false) ∧
      ∀ c ∈ rest.head?, isspace c := by
  constructor
  case mp =>
    intro h
    simp only [scanWord] at h
    split at h
    case isTrue     => contradiction
    case isFalse hw =>
      cases h
      have hl := drop_takeWhile_length (!isspace ·) (cs.dropWhile isspace)
      refine ⟨cs.takeWhile isspace, ?_, fun c hc => List.mem_takeWhile_imp hc, hw, ?_, ?_⟩
      case refine_1 =>
        rw [List.append_assoc, hl, List.takeWhile_append_dropWhile, List.takeWhile_append_dropWhile]
      case refine_2 => exact fun c hc => by simpa using List.mem_takeWhile_imp hc
      case refine_3 =>
        intro c hc
        rw [hl] at hc
        simpa using head_dropWhile hc
  case mpr =>
    rintro ⟨blanks, rfl, hb, hw, hs, hr⟩
    have hd : (blanks ++ word ++ rest).dropWhile isspace = (word ++ rest).dropWhile isspace := by
      rw [List.append_assoc, List.dropWhile_append_of_pos hb]
    have ht : rest.takeWhile (!isspace ·) = [] := by
      cases rest
      case nil         => rfl
      case cons c rest => simp [hr c rfl]
    have hw := scanWord_append hw hs ht
    rw [scanWord] at hw ⊢
    rwa [hd]

end C
