import EmbeddedOS.FinalProject.Theorems.Messages

open C Text

namespace Parking

-- The messages for a text at a gate.
def outputs (n : ℤ) (txt : List Char) : List (List Char) :=
  [cameraOutput (windowsName n) txt, payOutput txt]

-- The plate that a message is read as.
def storedPlate? (a b : List UInt8) (message : List Char) : Option (List UInt8) :=
  ((Vars.fresh a b).scan? <| utf8 message).bind (string? ·.plate)

-- The text comes through at a gate without the blanks at its end.
structure Survives (n : ℤ) (txt : List Char) : Prop where
  camera : Arrives (cameraMethod <| windowsName n) n (rstrip txt) (cameraOutput (windowsName n) txt)
  pay    : Arrives "Pay" 0 (rstrip txt) (payOutput txt)

-- Two texts come through, and they are taken for the same plate only if they are.
structure Kept (n : ℤ) (txt : List Char) (n' : ℤ) (txt' : List Char) : Prop where
  left  : Survives n txt
  right : Survives n' txt'
  apart : rstrip txt ≠ rstrip txt' → ∀ a b a' b' : List UInt8,
    a.length = 8 → b.length = 8 → a'.length = 8 → b'.length = 8 →
      ∀ o ∈ outputs n txt, ∀ o' ∈ outputs n' txt', storedPlate? a b o ≠ storedPlate? a' b' o'

-- An ASCII character that C takes for a blank.
def Blank (c : Char) : Prop :=
  c.toNat < 128 ∧ C.isspace c.toNat.toUInt8
deriving Decidable

-- The texts that come through: seven ASCII characters, of which the fourth is no blank and no NUL,
-- and a blank.
structure Plain (txt : List Char) : Prop where
  ascii : ∀ c ∈ txt.take 7, c.toNat < 128
  inner : ∀ c ∈ txt[3]?, c.toNat ≠ 0 ∧ ¬Blank c
  last  : ∀ c ∈ txt[7]?, Blank c

variable {txt : List Char} {method : String} {n : ℤ} {a b : List UInt8} {k : Classes}

theorem inWord_of_le {b : UInt8} (h : 128 ≤ b.toNat) : inWord b := by
  have h₀ : b ≠ 0 := by rintro rfl; simp at h
  have h₁ : b ≠ 32 := by rintro rfl; simp at h
  have h₂ : ¬b ≤ 13 := by
    rw [UInt8.le_iff_toNat_le]
    have : (13 : UInt8).toNat = 13 := rfl
    omega
  simp [inWord, C.isspace, h₀, h₁, h₂]

theorem forall_ascii {P : Char → Prop} (h : ∀ k < 128, P (Char.ofNat k)) {c : Char}
    (hc : c.toNat < 128) : P c :=
  Char.ofNat_toNat c ▸ h _ hc

-- The word ends at a blank of Python exactly if C takes it for a blank too.
theorem blank_iff {c : Char} (h : Text.isspace c) :
    Blank c ↔ (String.utf8EncodeChar c).takeWhile inWord = [] := by
  rcases utf8EncodeChar_cases c with ⟨hc, he⟩ | ⟨hc, hl, hb⟩
  case inl =>
    rw [he]
    refine forall_ascii (P := fun c => Text.isspace c →
      (Blank c ↔ [c.toNat.toUInt8].takeWhile inWord = [])) ?_ hc h
    decide
  case inr =>
    obtain ⟨b, bs, he⟩ :=
      List.exists_cons_of_length_pos (by omega : 0 < (String.utf8EncodeChar c).length)
    rw [he] at hb ⊢
    rw [List.takeWhile_cons_of_pos (inWord_of_le <| hb b List.mem_cons_self)]
    exact iff_of_false (fun hn => by have := hn.left; omega) (List.cons_ne_nil _ _)

theorem isspace_of_blank {c : Char} (h : Blank c) : Text.isspace c := by
  refine forall_ascii (P := fun c => Blank c → Text.isspace c) ?_ h.left h
  decide

theorem inWord_of_isAlpha {c : Char} (hc : c.toNat < 128) (h : c.isAlpha) :
    inWord c.toNat.toUInt8 := by
  refine forall_ascii (P := fun c => c.isAlpha → inWord c.toNat.toUInt8) ?_ hc h
  decide

theorem inWord_of_isDigit {c : Char} (hc : c.toNat < 128) (h : c.isDigit) :
    inWord c.toNat.toUInt8 := by
  refine forall_ascii (P := fun c => c.isDigit → inWord c.toNat.toUInt8) ?_ hc h
  decide

theorem inWord_iff {c : Char} (hc : c.toNat < 128) :
    inWord c.toNat.toUInt8 ↔ c.toNat ≠ 0 ∧ ¬Blank c := by
  refine forall_ascii (P := fun c => inWord c.toNat.toUInt8 ↔ c.toNat ≠ 0 ∧ ¬Blank c) ?_ hc
  decide

-- A text that passes the filter.
structure Classes.Accepts (k : Classes) (txt : List Char) : Prop where
  length : txt.length = 8
  alpha  : ∀ c ∈ txt.take 3, k.isalpha c
  digit  : ∀ c ∈ (txt.drop 4).take 3, k.isdigit c

theorem Classes.Accepts.of_accepts (h : k.accepts txt) : k.Accepts txt := by
  simp only [accepts, Bool.and_eq_true, decide_eq_true_eq, List.all_eq_true] at h
  exact ⟨h.left.left, h.left.right, h.right⟩

theorem take_seven (txt : List Char) :
    txt.take 7 = txt.take 3 ++ txt[3]?.toList ++ (txt.drop 4).take 3 := by
  rw [show 7 = 3 + (1 + 3) from rfl, List.take_add, List.take_add, List.take_one, List.head?_drop,
    List.drop_drop, List.append_assoc]

namespace Classes.Accepts

variable (h : k.Accepts txt)

include h

theorem drop_seven : ∃ c, txt[7]? = some c ∧ txt = txt.take 7 ++ [c] := by
  obtain ⟨c, hc⟩ : ∃ c, txt.drop 7 = [c] := List.length_eq_one_iff.mp (by simp [h.length])
  refine ⟨c, ?_, by rw [← hc, List.take_append_drop]⟩
  rw [← List.head?_drop, hc, List.head?_cons]

-- The last of the digits is no blank.
theorem rstrip_take : rstrip (txt.take 7) = txt.take 7 := by
  have hd : (txt.drop 4).take 3 ≠ [] := by
    apply List.ne_nil_of_length_pos
    simp [h.length]
  rw [rstrip, List.rdropWhile_eq_self_iff]
  intro hn
  have hl := List.getLast_mem hd
  have he : (txt.take 7).getLast hn = ((txt.drop 4).take 3).getLast hd := by
    simp only [take_seven]
    exact List.getLast_append_of_ne_nil _ hd
  rw [he, k.isdigit_space _ (h.digit _ hl)]
  exact Bool.false_ne_true

theorem rstrip_eq {c : Char} (hc : txt = txt.take 7 ++ [c]) :
    rstrip txt = if Text.isspace c then txt.take 7 else txt := by
  conv_lhs => rw [hc]
  rw [rstrip, List.rdropWhile_concat]
  split
  case isTrue  => exact h.rstrip_take
  case isFalse => exact hc.symm

-- What passes the filter and is ASCII has nothing that ends a word, but for the fourth character.
theorem inWord_take (ha : ∀ c ∈ txt.take 7, c.toNat < 128) :
    (∀ c ∈ txt.take 7, inWord c.toNat.toUInt8) ↔ ∀ c ∈ txt[3]?, c.toNat ≠ 0 ∧ ¬Blank c := by
  have hm : ∀ c ∈ txt[3]?, c ∈ txt.take 7 := by
    intro c hc
    rw [take_seven]
    simp [Option.mem_def.mp hc]
  constructor
  case mp => exact fun hw c hc => (inWord_iff <| ha c <| hm c hc).mp <| hw c <| hm c hc
  case mpr =>
    intro hi c hc
    have hc' := hc
    rw [take_seven, List.mem_append, List.mem_append, Option.mem_toList] at hc'
    have hl := ha c hc
    rcases hc' with (hc | hc) | hc
    case inl.inl => exact inWord_of_isAlpha hl <| (k.isalpha_ascii c hl).symm.trans (h.alpha c hc)
    case inl.inr => exact (inWord_iff hl).mpr <| hi c hc
    case inr     => exact inWord_of_isDigit hl <| (k.isdigit_ascii c hl).symm.trans (h.digit c hc)

theorem scanned_ne_nil : scanned txt ≠ [] := by
  cases txt
  case nil => exact absurd h.length (by decide)
  case cons c cs =>
    have ha := h.alpha c (by simp)
    rw [scanned, utf8_cons]
    rcases utf8EncodeChar_cases c with ⟨hc, he⟩ | ⟨hc, hl, hb⟩
    case inl =>
      have hw := inWord_of_isAlpha hc <| (k.isalpha_ascii c hc).symm.trans ha
      rw [he, List.singleton_append, List.takeWhile_cons_of_pos hw]
      exact List.cons_ne_nil _ _
    case inr =>
      obtain ⟨b, bs, he⟩ :=
        List.exists_cons_of_length_pos (by omega : 0 < (String.utf8EncodeChar c).length)
      rw [he] at hb ⊢
      rw [List.cons_append, List.takeWhile_cons_of_pos (inWord_of_le <| hb b List.mem_cons_self)]
      exact List.cons_ne_nil _ _

-- The word is the text without the blanks at its end exactly if the text is plain.
theorem scanned_iff :
    scanned txt = utf8 (rstrip txt) ∧ (utf8 (rstrip txt)).length ≤ 7 ↔ Plain txt := by
  obtain ⟨c, hc, he⟩ := h.drop_seven
  have hl : (txt.take 7).length = 7 := by simp [h.length]
  have hu : utf8 txt = utf8 (txt.take 7) ++ String.utf8EncodeChar c := by
    conv_lhs => rw [he]
    rw [utf8_append, utf8_cons, utf8_nil, List.append_nil]
  rw [h.rstrip_eq he, scanned, hu]
  constructor
  case mp =>
    rintro ⟨hs, hlen⟩
    by_cases hb : Text.isspace c
    case neg =>
      rw [if_neg hb] at hlen
      have := length_le_utf8 txt
      have := h.length
      omega
    case pos =>
      rw [if_pos hb] at hs hlen
      have ha := lt_of_utf8_length_le (hlen.trans hl.ge)
      have hw : ∀ b ∈ utf8 (txt.take 7), inWord b := by
        intro b hb
        rw [← hs] at hb
        exact List.mem_takeWhile_imp hb
      rw [List.takeWhile_append_of_pos hw, List.append_right_eq_self] at hs
      refine ⟨ha, (h.inWord_take ha).mp fun x hx => hw _ ?_, fun x hx => ?_⟩
      case refine_1 =>
        rw [utf8_of_lt ha]
        exact List.mem_map_of_mem hx
      case refine_2 => exact Option.some.inj (hc.symm.trans hx) ▸ (blank_iff hb).mpr hs
  case mpr =>
    intro hp
    have hb := hp.last c hc
    have hs := isspace_of_blank hb
    have hw : ∀ b ∈ utf8 (txt.take 7), inWord b := by
      rw [utf8_of_lt hp.ascii, List.forall_mem_map]
      exact (h.inWord_take hp.ascii).mpr hp.inner
    rw [if_pos hs, List.takeWhile_append_of_pos hw, (blank_iff hs).mp hb, List.append_nil]
    exact ⟨rfl, by rw [utf8_of_lt hp.ascii, List.length_map, hl]⟩

end Classes.Accepts

theorem cameraMethod_mem (n : ℤ) : ascii (cameraMethod <| windowsName n) ∈ methods := by
  unfold cameraMethod
  split <;> decide

-- A text comes through exactly if it is plain.
theorem survives_iff (h₁ : -2 ^ 31 ≤ n) (h₂ : n < 2 ^ 31) (h : k.Accepts txt) :
    Survives n txt ↔ Plain txt := by
  have ht : (utf8 txt).length ≤ 32 := by
    have := utf8_length_le txt
    have := h.length
    omega
  have hs := h.scanned_ne_nil
  have hc := arrives_iff h₁ h₂ (cameraMethod_mem n) ht hs (rstrip txt) (utf8_cameraOutput n txt)
  have hp := arrives_iff (by decide) (by decide) (by decide) ht hs (rstrip txt) (utf8_payOutput txt)
  rw [← h.scanned_iff]
  exact ⟨fun hv => hc.mp hv.camera, fun hv => ⟨hc.mpr hv, hp.mpr hv⟩⟩

theorem Arrives.storedPlate?_eq {cs message : List Char} (h : Arrives method n cs message)
    (ha : a.length = 8) (hb : b.length = 8) : storedPlate? a b message = some (utf8 cs) := by
  obtain ⟨v, hv, -, -, hp, -⟩ := h a b ha hb
  rw [storedPlate?, hv, Option.bind_some, hp]

theorem Survives.storedPlate?_eq (h : Survives n txt) {o : List Char} (ho : o ∈ outputs n txt)
    (ha : a.length = 8) (hb : b.length = 8) : storedPlate? a b o = some (utf8 <| rstrip txt) := by
  simp only [outputs, List.mem_cons, List.not_mem_nil, or_false] at ho
  rcases ho with rfl | rfl
  case inl => exact h.camera.storedPlate?_eq ha hb
  case inr => exact h.pay.storedPlate?_eq ha hb

-- Two texts come through, and apart from each other, exactly if both of them are plain.
theorem kept_iff (k : Classes) {n n' : ℤ} {txt txt' : List Char}
    (h₁ : -2 ^ 31 ≤ n ∧ n < 2 ^ 31) (h₂ : -2 ^ 31 ≤ n' ∧ n' < 2 ^ 31)
    (h : k.accepts txt) (h' : k.accepts txt') : Kept n txt n' txt' ↔ Plain txt ∧ Plain txt' := by
  have hs := survives_iff h₁.left h₁.right (.of_accepts h)
  have hs' := survives_iff h₂.left h₂.right (.of_accepts h')
  constructor
  case mp => exact fun hk => ⟨hs.mp hk.left, hs'.mp hk.right⟩
  case mpr =>
    intro ⟨hp, hp'⟩
    refine ⟨hs.mpr hp, hs'.mpr hp', ?_⟩
    intro hne a b a' b' ha hb ha' hb' o ho o' ho' he
    rw [(hs.mpr hp).storedPlate?_eq ho ha hb, (hs'.mpr hp').storedPlate?_eq ho' ha' hb'] at he
    exact hne <| utf8_injective <| Option.some.inj he

-- The classes of ASCII.
def Classes.ascii : Classes where
  isalpha c := c.isAlpha
  isdigit c := c.isDigit
  isalpha_ascii _ _ := rfl
  isdigit_ascii _ _ := rfl
  isdigit_space c h := by
    have hc : c.toNat < 128 := by
      simp only [Char.isDigit, Bool.and_eq_true, decide_eq_true_eq, UInt32.le_iff_toNat_le] at h
      have := h.right
      change c.toNat ≤ 57 at this
      omega
    exact forall_ascii (P := fun c => c.isDigit → Text.isspace c = false) (by decide) hc h

theorem kept_plain :
    Kept 1 ['A', 'B', 'C', '-', '1', '2', '3', '\n'] 3 ['A', 'B', 'C', '-', '1', '2', '4', ' '] :=
  (kept_iff .ascii (by decide) (by decide) (by decide) (by decide)).mpr
    ⟨⟨by simp, by simp [Blank, C.isspace], by simp [Blank, C.isspace]⟩,
      ⟨by simp, by simp [Blank, C.isspace], by simp [Blank, C.isspace]⟩⟩

-- Eight characters without a blank, for which the array has no room.
theorem kept_broken : ¬ ∀ (k : Classes) (n n' : ℤ) (txt txt' : List Char),
    -2 ^ 31 ≤ n ∧ n < 2 ^ 31 → -2 ^ 31 ≤ n' ∧ n' < 2 ^ 31 → k.accepts txt → k.accepts txt' →
      Kept n txt n' txt' := by
  intro h
  have hk := h .ascii 1 1 "ABC-1234".toList "ABC-1234".toList (by decide) (by decide) (by decide)
    (by decide)
  obtain ⟨v, -, -, -, -, hl⟩ := hk.left.pay (.replicate 8 0) (.replicate 8 0) rfl rfl
  revert hl
  decide

end Parking
