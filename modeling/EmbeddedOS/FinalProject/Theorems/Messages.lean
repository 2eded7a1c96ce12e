import EmbeddedOS.FinalProject.Theorems.Malformed

open C Text

namespace Parking

-- Whatever is in the arrays before, the message is read as this method, this number and this text,
-- and the text fits into the array for the plate.
def Arrives (method : String) (entryNum : ℤ) (txt message : List Char) : Prop :=
  ∀ a b : List UInt8, a.length = 8 → b.length = 8 →
    ∃ v, (Vars.fresh a b).scan? (utf8 message) = some v ∧ string? v.method = some (ascii method) ∧
      v.entryNum = entryNum ∧ string? v.plate = some (utf8 txt) ∧ (utf8 txt).length ≤ 7

-- A byte of a word.
def inWord (b : UInt8) : Bool :=
  b ≠ 0 && !C.isspace b

-- The bytes of the text that `%s` reads.
def scanned (txt : List Char) : List UInt8 :=
  (utf8 txt).takeWhile inWord

-- A message on the wire.
def wire (method : String) (n : ℤ) (txt : List Char) : List UInt8 :=
  ascii method ++ 33 :: (decimal n ++ 33 :: utf8 txt)

variable {txt : List Char} {method : String} {n : ℤ} {a b : List UInt8}

theorem utf8_windowsName (n : ℤ) : utf8 (windowsName n) = decimal n :=
  utf8_ofNat toNat_lt_of_mem_decimal

theorem utf8_cameraOutput (n : ℤ) (txt : List Char) :
    utf8 (cameraOutput (windowsName n) txt) = wire (cameraMethod <| windowsName n) n txt := by
  have hm : utf8 (cameraMethod <| windowsName n).toList =
      ascii (cameraMethod <| windowsName n) := by
    apply utf8_toList
    unfold cameraMethod
    split <;> simp
  have hs : utf8 "!".toList = [33] := by decide
  simp only [cameraOutput, utf8_append, hm, hs, utf8_windowsName, wire, List.append_assoc,
    List.singleton_append]

theorem utf8_payOutput (txt : List Char) : utf8 (payOutput txt) = wire "Pay" 0 txt := by
  have hp : utf8 "Pay!0!".toList = ascii "Pay" ++ 33 :: (decimal 0 ++ [33]) := by decide
  -- Not by a rewrite with `hp`, which would compare the text with the literal.
  calc
    utf8 (payOutput txt) = utf8 "Pay!0!".toList ++ utf8 txt := utf8_append
    _ = ascii "Pay" ++ 33 :: (decimal 0 ++ [33]) ++ utf8 txt := congrArg (· ++ utf8 txt) hp
    _ = wire "Pay" 0 txt := by
      simp only [wire, List.append_assoc, List.cons_append, List.nil_append]

theorem methods_length_le (hm : ascii method ∈ methods) : (ascii method).length ≤ 5 := by
  have h : ∀ m ∈ methods, m.length ≤ 5 := by decide
  exact h _ hm

theorem methods_plain (hm : ascii method ∈ methods) :
    ascii method ≠ [] ∧ 0 ∉ ascii method ∧ 33 ∉ ascii method := by
  have h : ∀ m ∈ methods, m ≠ [] ∧ 0 ∉ m ∧ 33 ∉ m := by decide
  exact h _ hm

-- The text behind the number, up to its first NUL.
theorem string?_wire (h₁ : -2 ^ 31 ≤ n) (h₂ : n < 2 ^ 31) (hm : ascii method ∈ methods)
    (ht : (utf8 txt).length ≤ 32) : string? (received (wire method n txt)) =
      some (ascii method ++ 33 :: (decimal n ++ 33 :: (utf8 txt).takeWhile (· ≠ 0))) := by
  have hl : (wire method n txt).length ≤ 51 := by
    have hd := decimal_length_le h₁ h₂
    have hm := methods_length_le hm
    simp only [wire, List.length_append, List.length_cons]
    omega
  have hr : received (wire method n txt) =
      wire method n txt ++ 0 :: .replicate (255 - (wire method n txt).length) 0 := by
    rw [received, List.take_of_length_le (by omega), overlay, List.drop_replicate,
      ← List.replicate_succ]
    congr 2
    omega
  have hp : ∀ b ∈ ascii method ++ 33 :: (decimal n ++ [33]), decide (b ≠ 0) = true := by
    intro b hb
    simp only [List.mem_append, List.mem_cons, List.not_mem_nil, or_false] at hb
    rw [decide_eq_true_eq]
    rcases hb with hb | rfl | hb | rfl
    case inl         => exact ne_of_mem_of_not_mem hb (methods_plain hm).right.left
    case inr.inr.inl => exact decimal_ne_zero b hb
    all_goals decide
  have hw : wire method n txt = ascii method ++ 33 :: (decimal n ++ [33]) ++ utf8 txt := by
    simp [wire]
  rw [hr, string?_append_zero, hw, List.takeWhile_append_of_pos hp]
  simp

-- A text that starts with something that is neither blank nor NUL is read as its first word.
theorem scan?_wire (h₁ : -2 ^ 31 ≤ n) (h₂ : n < 2 ^ 31) (hm : ascii method ∈ methods)
    (ht : (utf8 txt).length ≤ 32) (hs : scanned txt ≠ []) (ha : a.length = 8) :
    (Vars.fresh a b).scan? (wire method n txt) = (store? (scanned txt) b).map fun plate =>
      { method := sprintf a (ascii method), entryNum := n, plate } := by
  have hw : ((utf8 txt).takeWhile (· ≠ 0)).takeWhile (!C.isspace ·) = scanned txt := by
    rw [List.takeWhile_takeWhile, scanned]
    congr 1
    funext b
    simp [inWord, Bool.and_comm]
  have hd : ((utf8 txt).takeWhile (· ≠ 0)).dropWhile C.isspace = (utf8 txt).takeWhile (· ≠ 0) := by
    unfold scanned at hs
    cases hu : utf8 txt
    case nil => simp
    case cons b bs =>
      by_cases hb : b ≠ 0 ∧ C.isspace b = false
      case pos => simp [hb.left, hb.right]
      case neg => simp_all [inWord]
  generalize hx : (utf8 txt).takeWhile (· ≠ 0) = text at hw hd
  have hsw : scanWord text = some (scanned txt, text.drop (scanned txt).length) := by
    simp only [scanWord, hd, hw, hs, if_false]
  obtain ⟨blanks, hb, hblanks, hne, hfree, hhead⟩ := scanWord_eq_some.mp hsw
  let f : Fields (ascii method ++ 33 :: (decimal n ++ 33 :: text)) := {
    method := ascii method
    number := decimal n
    blanks
    plate := scanned txt
    rest := text.drop (scanned txt).length
    entryNum := n
    text_eq := by rw [← hb]
    method_ne := (methods_plain hm).left
    method_free := (methods_plain hm).right.right
    number_eq := scanInt_decimal_self h₁ h₂
    number_all := behindNumber_decimal
    blanks_all := hblanks
    plate_ne := hne
    plate_free := hfree
    rest_head := hhead
  }
  have hl : (ascii method).length ≤ 7 := (methods_length_le hm).trans (by decide)
  have ht := hx ▸ string?_wire h₁ h₂ hm ht
  rw [scan?_eq ht, f.sscanf?_eq, Vars.fresh, store?_eq hl ha, Option.bind_some]

-- The texts that arrive are those whose first word is the text without the blanks at its end.
theorem arrives_iff (h₁ : -2 ^ 31 ≤ n) (h₂ : n < 2 ^ 31) (hm : ascii method ∈ methods)
    (ht : (utf8 txt).length ≤ 32) (hs : scanned txt ≠ []) (cs : List Char) {message : List Char}
    (ho : utf8 message = wire method n txt) :
    Arrives method n cs message ↔ scanned txt = utf8 cs ∧ (utf8 cs).length ≤ 7 := by
  have h₀ : 0 ∉ scanned txt := fun h => by simpa [inWord] using List.mem_takeWhile_imp h
  constructor
  case mp =>
    intro h
    obtain ⟨v, hv, -, -, hp, hl⟩ := h (.replicate 8 0) (.replicate 8 0) rfl rfl
    rw [ho, scan?_wire h₁ h₂ hm ht hs rfl] at hv
    obtain ⟨plate, hp', rfl⟩ := Option.map_eq_some_iff.mp hv
    simp only [store?] at hp'
    split at hp'
    case isFalse => contradiction
    case isTrue  =>
      cases hp'
      exact ⟨Option.some.inj <| (string?_sprintf h₀).symm.trans hp, hl⟩
  case mpr =>
    intro ⟨he, hl⟩ a b ha hb
    rw [ho, scan?_wire h₁ h₂ hm ht hs ha, store?_eq (he ▸ hl) hb]
    exact ⟨_, rfl, string?_sprintf (methods_plain hm).right.left, rfl,
      (string?_sprintf h₀).trans (congrArg some he), hl⟩

end Parking
