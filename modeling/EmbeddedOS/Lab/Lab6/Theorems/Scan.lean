import EmbeddedOS.Lab.Lab6.Client
import EmbeddedOS.Library.Decimal

open C

namespace Atm

-- The word and the number that a whole record is read as.
def Record.word : Record → List UInt8
  | money m => m.op.name
  | exit    => ascii "exit"

def Record.number : Record → ℤ
  | money m => m.amount
  | exit    => 0

variable {r : Record} {rest receive whatToDo : List UInt8}

theorem Operation.name_length (op : Operation) : op.name.length ≤ 8 := by
  cases op <;> decide

theorem Operation.name_plain (op : Operation) : ∀ c ∈ op.name, c ≠ 0 ∧ isspace c = false := by
  have h : op.name.all (fun c => c ≠ 0 && !isspace c) = true := by cases op <;> decide
  simpa using h

namespace Record

theorem text_ne_zero (r : Record) : 0 ∉ r.text := by
  cases r
  case money m =>
    simp only [text, List.mem_append, not_or]
    exact ⟨⟨fun h => (m.op.name_plain 0 h).left rfl, by decide⟩, (decimal_ne_zero 0 · rfl)⟩
  case exit => decide

theorem text_length_le (r : Record) : r.text.length ≤ 20 := by
  cases r
  case money m =>
    have hn := m.op.name_length
    have hd := decimal_length_le m.lower m.upper
    have hs : (ascii " ").length = 1 := rfl
    simp only [text, List.length_append, hs]
    omega
  case exit => decide

-- The blank behind the word, and the number.
theorem scanWord_text (r : Record) :
    ∃ rest, scanWord r.text = some (r.word, rest) ∧ (scanInt rest).getD 0 = r.number := by
  cases r
  case money m =>
    refine ⟨ascii " " ++ decimal m.amount, ?_, ?_⟩
    case refine_1 =>
      rw [text, List.append_assoc]
      refine scanWord_append ?_ (fun c hc => (m.op.name_plain c hc).right) rfl
      cases m.op <;> decide
    case refine_2 =>
      have hi : scanInt (decimal m.amount ++ []) = _ := scanInt_decimal m.lower m.upper rfl
      rw [List.append_nil] at hi
      exact congrArg (Option.getD · 0) <| (scanInt_cons rfl).trans hi
  case exit => exact ⟨[], by decide, by decide⟩

-- A buffer that holds the text of a record is read as the record.
theorem scan_text (r : Record) :
    scan (r.text ++ 0 :: rest) whatToDo = some (r.word, r.number) := by
  have hl : r.word.length < 10 := by
    cases r
    case money m => exact Nat.lt_of_le_of_lt m.op.name_length (by decide)
    case exit    => decide
  have ⟨_, hw, hn⟩ := r.scanWord_text
  simp [scan, string?_append r.text_ne_zero, hw, hl, hn]

theorem bytes_eq (r : Record) : r.bytes = r.text ++ .replicate (128 - r.text.length) 0 := by
  have hl := r.text_length_le
  have hd : 128 - r.text.length = 128 - (r.text.length + 1) + 1 := by omega
  rw [bytes, sprintf, overlay, List.length_append, List.length_singleton, List.drop_replicate, hd,
    List.replicate_succ, List.append_assoc, List.singleton_append]

theorem bytes_length (r : Record) : r.bytes.length = 128 := by
  have hl := r.text_length_le
  rw [bytes_eq, List.length_append, List.length_replicate]
  omega

theorem scan_bytes (r : Record) : scan r.bytes whatToDo = some (r.word, r.number) := by
  have hl := r.text_length_le
  have hd : 128 - r.text.length = 128 - (r.text.length + 1) + 1 := by omega
  rw [bytes_eq, hd, List.replicate_succ, scan_text]

end Record

-- The message of the examples.
def depositTen : Message where
  op     := .deposit
  amount := 10
  lower  := by decide
  upper  := by decide

end Atm
