import Mathlib.Data.List.Basic

-- What has been done to a queue, newest operation first: something was put in, or the queue was
-- asked for its first element and answered.
inductive Fifo.Op (α β : Type*)
  | push (a : α)
  | pop (reply : β)

namespace Fifo

variable {α β : Type*}

-- The elements which have been put in and not been taken out, oldest first.
def pending : List (Op α β) → List α
  | []             => []
  | .push a :: ops => pending ops ++ [a]
  | .pop _ :: ops  => (pending ops).tail

-- All elements which have been put in, oldest first.
def pushed : List (Op α β) → List α
  | []             => []
  | .push a :: ops => pushed ops ++ [a]
  | .pop _ :: ops  => pushed ops

-- The answers that were given while there was something in the queue, oldest first.
def served : List (Op α β) → List β
  | []             => []
  | .push _ :: ops => served ops
  | .pop r :: ops  => if pending ops = [] then served ops else served ops ++ [r]

-- The answers that were given while there was nothing in the queue.
def unserved : List (Op α β) → List β
  | []             => []
  | .push _ :: ops => unserved ops
  | .pop r :: ops  => if pending ops = [] then unserved ops ++ [r] else unserved ops

-- All answers, oldest first.
def replies : List (Op α β) → List β
  | []             => []
  | .push _ :: ops => replies ops
  | .pop r :: ops  => replies ops ++ [r]

-- The number of elements which have been put in since the queue was last asked while it was empty.
def fresh : List (Op α β) → ℕ
  | []             => 0
  | .push _ :: ops => fresh ops + 1
  | .pop _ :: ops  => if pending ops = [] then 0 else fresh ops

-- Each answer stands for the first element of the queue, or says that there is none.
def Answers (value : α → β) (empty : β) : List (Op α β) → Prop
  | []             => True
  | .push _ :: ops => Answers value empty ops
  | .pop r :: ops  => Answers value empty ops ∧ r = ((pending ops).head?.map value).getD empty

theorem mem_pushed {ops : List (Op α β)} {a : α} (h : a ∈ pending ops) : a ∈ pushed ops := by
  induction ops
  case nil => exact h
  case cons op ops ih =>
    cases op
    case push b => exact List.mem_append.mpr <| (List.mem_append.mp h).imp ih id
    case pop r  => exact ih <| List.mem_of_mem_tail h

section

variable {value : α → β} {empty : β} {ops : List (Op α β)}

-- A queue that answers so is lossless: its answers are the elements in the order in which they were
-- put in, up to those that it still holds.
theorem Answers.map_pushed (h : Answers value empty ops) :
    (pushed ops).map value = served ops ++ (pending ops).map value := by
  induction ops
  case nil => rfl
  case cons op ops ih =>
    cases op
    case push a => simp [pushed, served, pending, ih h]
    case pop r =>
      have ⟨ha, hr⟩ := h
      cases hp : pending ops
      case nil       => simp [pushed, served, pending, hp, ih ha]
      case cons a as => simp [pushed, served, pending, hp, ih ha, hr]

theorem Answers.mem_replies (h : Answers value empty ops) {r : β} (hr : r ∈ replies ops) :
    r = empty ∨ ∃ a ∈ pushed ops, r = value a := by
  induction ops
  case nil => simp [replies] at hr
  case cons op ops ih =>
    cases op
    case push a =>
      exact (ih h hr).imp id fun ⟨b, hb, he⟩ => ⟨b, List.mem_append_left _ hb, he⟩
    case pop r' =>
      have ⟨ha, hr'⟩ := h
      rcases List.mem_append.mp hr with hr | hr
      case inl => exact ih ha hr
      case inr =>
        obtain rfl := List.mem_singleton.mp hr
        cases hp : pending ops
        case nil => exact .inl (by simp [hr', hp])
        case cons a as =>
          have hm : a ∈ pushed ops := mem_pushed (by simp [hp])
          exact .inr ⟨a, hm, by simp [hr', hp]⟩

theorem Answers.unserved_eq (h : Answers value empty ops) : ∀ r ∈ unserved ops, r = empty := by
  induction ops
  case nil => simp [unserved]
  case cons op ops ih =>
    cases op
    case push a => exact ih h
    case pop r =>
      have ⟨ha, hr⟩ := h
      cases hp : pending ops
      case nil       => simpa [unserved, hp, hr, or_imp, forall_and] using ih ha
      case cons a as => simpa [unserved, hp] using ih ha

end

-- The contents of a queue that lies in an array between the places of its next answer and of its
-- next element.
def contents (cells : List α) (output input : ℕ) : List α :=
  (cells.take input).drop output

section

variable {cells : List α} {output input : ℕ}

theorem contents_push {a : α} (ho : output ≤ input) (hi : input < cells.length) :
    contents (cells.set input a) output (input + 1) = contents cells output input ++ [a] := by
  have ht : (cells.set input a).take (input + 1) = cells.take input ++ [a] := by
    rw [List.take_succ_eq_append_getElem (by simpa), List.getElem_set_self,
      List.take_set_of_le (Nat.le_refl _)]
  rw [contents, contents, ht, List.drop_append_of_le_length (by simp; omega)]

theorem contents_pop (ho : output < input) (hi : input ≤ cells.length) :
    contents cells output input =
      cells.get ⟨output, by omega⟩ :: contents cells (output + 1) input := by
  have hl : output < (cells.take input).length := by simp; omega
  rw [contents, List.drop_eq_getElem_cons hl]
  simp [contents]

theorem contents_eq_nil_iff (hi : input ≤ cells.length) :
    contents cells output input = [] ↔ input ≤ output := by
  simp [contents, hi]

end
end Fifo
