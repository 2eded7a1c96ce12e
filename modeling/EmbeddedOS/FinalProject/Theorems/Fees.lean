import EmbeddedOS.FinalProject.Client
import EmbeddedOS.Library.Ascii
import EmbeddedOS.Library.Scan

open C Text

namespace Parking

variable {m : Memory} {y : Payment} {p : Plate} {i : Slot} {n pos tpass fee : ℤ}
variable {cs : List Char} {bs : List UInt8}

-- What the client cuts out of a quote.
def answerTo (n : ℤ) : List UInt8 :=
  decimal n ++ 10 :: .replicate (251 - (decimal n).length) 0

theorem sprintf_fee (h : (decimal n).length ≤ 11) :
    sprintf (.replicate 256 0) (Reply.fee n).text = ascii "Fee:" ++ answerTo n := by
  have h₁ : (ascii "Fee:").length = 4 := by decide
  have h₂ : ascii "\n" = [10] := by decide
  have hr : List.replicate (251 - (decimal n).length) (0 : UInt8) =
      0 :: List.replicate (250 - (decimal n).length) 0 := by
    rw [← List.replicate_succ]
    congr 1
    omega
  have hl : 256 - (4 + (decimal n).length + 1 + 1) = 250 - (decimal n).length := by omega
  simp only [sprintf, overlay, Reply.text, h₂, List.append_assoc, List.length_append, h₁,
    List.length_singleton, List.drop_replicate, answerTo, hr]
  simp [← hl, Nat.add_assoc]

theorem mem_answerTo {b : UInt8} (h : b ∈ answerTo n) : b = 45 ∨ isdigit b ∨ b = 10 ∨ b = 0 := by
  rw [answerTo, List.mem_append, List.mem_cons] at h
  rcases h with h | h | h
  case inl => exact (mem_decimal h).imp id .inl
  case inr.inl => simp [h]
  case inr.inr => simp [List.eq_of_mem_replicate h]

theorem atoi_answerTo (h₁ : -2 ^ 31 ≤ n) (h₂ : n < 2 ^ 31) : atoi (answerTo n ++ bs) = n := by
  rw [answerTo, List.append_assoc, List.cons_append, atoi,
    scanInt_decimal h₁ h₂ (by simp [isdigit])]
  rfl

theorem behindNumber_answerTo : behindNumber (answerTo n ++ bs) ≠ [] := by
  rw [answerTo, List.append_assoc, behindNumber_decimal_append]
  simp [isdigit]

theorem toNat_lt_of_mem_answerTo : ∀ b ∈ answerTo n, b.toNat < 128 := by
  intro b hb
  rcases mem_answerTo hb with rfl | hb | rfl | rfl
  case inr.inl => exact toNat_lt_of_isdigit hb
  all_goals decide

theorem not_isspace {b : UInt8} (h : b = 45 ∨ isdigit b ∨ b = 0) :
    Text.isspace (Char.ofNat b.toNat) = false := by
  simp only [Text.isspace, toNat_ofNat_byte]
  rcases h with rfl | h | rfl
  case inr.inl =>
    simp only [isdigit, Bool.and_eq_true, decide_eq_true_eq, UInt8.le_iff_toNat_le] at h
    have h₁ : 48 ≤ b.toNat := h.left
    have h₂ : b.toNat ≤ 57 := h.right
    simp
    omega
  all_goals decide

-- The client cuts the number out of a quote, with all that stands behind it.
theorem split?_quote :
    split? "Fee:".toList (chars (ascii "Fee:" ++ answerTo n)) = some (chars (answerTo n)) := by
  have hf : chars (ascii "Fee:") = "Fee:".toList := by decide
  have hn : 'F' ∉ chars (answerTo n) := by
    intro h
    obtain ⟨b, hb, he⟩ := mem_chars h
    have he : b = 70 := UInt8.toNat_inj.mp he
    subst he
    exact absurd (mem_answerTo hb) (by decide)
  rw [chars_append, hf, split?_append (by decide) hn]

theorem strip_answerTo (h : (decimal n).length ≤ 11) :
    strip (chars (answerTo n)) = chars (answerTo n) := by
  apply strip_eq_self
  case h₁ =>
    have hn : decimal n ≠ [] := by
      rw [decimal_eq]
      exact List.append_ne_nil_of_right_ne_nil _ (numeral_ne_nil _)
    obtain ⟨b, bs, hb⟩ := List.exists_cons_of_ne_nil hn
    have hd := mem_decimal (hb ▸ List.mem_cons_self : b ∈ decimal n)
    have hs := not_isspace (hd.imp id .inl)
    simpa [answerTo, hb, chars] using hs
  case h₂ =>
    have hr : List.replicate (251 - (decimal n).length) (0 : UInt8) =
        List.replicate (250 - (decimal n).length) 0 ++ [0] := by
      rw [← List.replicate_succ']
      congr 1
      omega
    intro c hc
    rw [answerTo, hr, ← List.cons_append, ← List.append_assoc, chars_append] at hc
    cases List.getLast?_concat.symm.trans hc
    decide

-- The text that a client gets when its payment has been accepted, with whatever stands behind it.
theorem contains_success {plate : List UInt8} {pos tpass fee : ℤ}
    (h : utf8 cs = sprintf bs (Reply.paymentSuccess plate pos tpass fee).text) :
    contains "Payment Success".toList cs := by
  rw [contains_iff]
  refine infix_of_utf8 (by simp) ?_
  rw [h, utf8_toList (by simp)]
  have ht : ascii "$\nPayment Success\nPlease exit within 25 minutes\n" =
      ascii "$\n" ++ ascii "Payment Success" ++ ascii "\nPlease exit within 25 minutes\n" := by
    simp [ascii]
  have h₁ : ascii "Payment Success" <:+:
      ascii "$\nPayment Success\nPlease exit within 25 minutes\n" := ⟨_, _, ht.symm⟩
  have h₂ : ascii "$\nPayment Success\nPlease exit within 25 minutes\n" <:+
      (Reply.paymentSuccess plate pos tpass fee).text := List.suffix_append _ _
  exact h₁.trans <| h₂.isInfix.trans (prefix_sprintf _ _).isInfix

-- The plate is too short to hold the text that would start the loop over.
theorem not_contains_success {pos tpass fee : ℤ} (hb : 87 ∉ bs)
    (h : utf8 cs = sprintf bs (Reply.paymentSuccess p.chars pos tpass fee).text) :
    ¬contains "Wrong Amount".toList cs := by
  rw [contains_iff]
  intro hc
  have hi : ascii "Wrong Amount" <:+: utf8 cs := by
    rw [← utf8_toList (by simp)]
    obtain ⟨xs, ys, hc⟩ := hc
    exact ⟨utf8 xs, utf8 ys, by rw [← utf8_append, ← utf8_append, hc]⟩
  have hs : sprintf bs (Reply.paymentSuccess p.chars pos tpass fee).text =
      ascii "Plate: " ++ p.chars ++ 10 :: (ascii "Pos: " ++ decimal pos ++ ascii "\nPark time: " ++
        decimal tpass ++ ascii " minutes\nTotal Fee: " ++ decimal fee ++
        ascii "$\nPayment Success\nPlease exit within 25 minutes\n" ++ [0] ++
        bs.drop ((Reply.paymentSuccess p.chars pos tpass fee).text ++ [0]).length) := by
    have hp : ascii "\nPos: " = 10 :: ascii "Pos: " := by decide
    simp only [sprintf, overlay, Reply.text, hp, List.append_assoc, List.cons_append]
  have hw : ascii "Wrong Amount" = 87 :: ascii "rong Amount" := by decide
  rw [h, hs, hw] at hi
  refine not_infix (by decide) ?_ (by decide) (by decide) ?_ hi
  case refine_1 =>
    have hd : ∀ n, 87 ∉ decimal n := fun n => not_mem_decimal (by decide) (by decide)
    simp only [List.mem_append, not_or]
    refine ⟨⟨⟨⟨⟨⟨⟨⟨?_, hd pos⟩, ?_⟩, hd tpass⟩, ?_⟩, hd fee⟩, ?_⟩, ?_⟩, ?_⟩
    case refine_6 => exact fun h => hb (List.mem_of_mem_drop h)
    all_goals decide
  case refine_2 =>
    have hl : (ascii "rong Amount").length = 11 := by decide
    have := p.length_le
    omega

theorem not_mem_answerTo : 87 ∉ answerTo n :=
  fun h => absurd (mem_answerTo h) (by decide)

namespace Dialogue

-- The client answers a quote with the number that it has read.
theorem clientStep_quote {y : Payment} (hl : (decimal n).length ≤ 11) :
    clientStep ⟨m, y, .data, [ascii "Fee:" ++ answerTo n], []⟩ =
      some ⟨m, y, .reply, [], [answerTo n]⟩ := by
  have hd : decode (ascii "Fee:" ++ answerTo n) = some (chars (ascii "Fee:" ++ answerTo n)) := by
    have hf : ∀ b ∈ ascii "Fee:", b.toNat < 128 := by simp [ascii]
    refine decode_chars fun b hb => ?_
    rcases List.mem_append.mp hb with hb | hb
    case inl => exact hf b hb
    case inr => exact toNat_lt_of_mem_answerTo b hb
  have hu : utf8 (chars (answerTo n)) = answerTo n := utf8_ofNat toNat_lt_of_mem_answerTo
  simp only [clientStep, recv?, Option.map_some, hd, split?_quote, strip_answerTo hl, hu,
    List.nil_append]

-- The client leaves its loop with the last record.
theorem clientStep_success {y : Payment} {pos tpass fee : ℤ} (hb : 87 ∉ bs) :
    ∃ client : Client, client.ended ∧
      clientStep ⟨m, y, .reply,
          [sprintf bs (Reply.paymentSuccess p.chars pos tpass fee).text], []⟩ =
        some ⟨m, y, client, [], []⟩ := by
  simp only [clientStep, recv?, Option.map_some]
  split
  case h_1 => exact ⟨.raised, rfl, rfl⟩
  case h_2 cs hd =>
    have hu := decode_eq_some.mp hd
    rw [if_neg (not_contains_success hb hu), if_pos (contains_success hu)]
    exact ⟨.closed, rfl, rfl⟩

end Dialogue
end Parking
