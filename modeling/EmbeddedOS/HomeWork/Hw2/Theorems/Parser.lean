import EmbeddedOS.HomeWork.Hw2.Parser
import EmbeddedOS.HomeWork.Hw2.Theorems.Isolation

open C

namespace Hw2

-- The first word of a message ends at its first blank.
def firstWord (message : List UInt8) : List UInt8 :=
  message.takeWhile (· ≠ 32)

-- What stands behind the first blank.
def behindBlank (cs : List UInt8) : List UInt8 :=
  cs.drop (cs.idxOf 32 + 1)

section Loops

variable {stop : UInt8} {source : ℕ → Option UInt8} {cs body dest dest' : List UInt8} {i n : ℕ}

-- A loop stays inside of its arrays exactly if it sees its byte in time.
theorem isSome_copyUntil_iff
    (hs : ∀ k < cs.length, i + k < dest.length → (source (i + k)).isSome) :
    (copyUntil stop source cs i dest).isSome ↔ stop ∈ cs.take (dest.length - i + 1) := by
  induction cs generalizing i dest
  case nil => simp [copyUntil]
  case cons c cs hi =>
    rw [copyUntil, List.take_succ_cons, List.mem_cons]
    by_cases hc : c = stop
    case pos => simp [hc]
    case neg =>
      rw [if_neg hc, or_iff_right (Ne.symm hc)]
      by_cases hl : i < dest.length
      case pos =>
        obtain ⟨b, hb⟩ := Option.isSome_iff_exists.mp <| hs 0 (by simp) hl
        have hd : dest.length - i = (dest.set i b).length - (i + 1) + 1 := by simp; omega
        rw [Nat.add_zero] at hb
        simp only [hb, if_pos hl]
        rw [hd]
        refine hi fun k hk hk' => ?_
        rw [Nat.add_right_comm]
        exact hs (k + 1) (by simpa using hk) (by simp at hk'; omega)
      case neg =>
        have hd : dest.length - i = 0 := by omega
        rw [hd]
        cases source i <;> simp [hl]

-- What a loop has copied when it ends.
theorem copyUntil_eq_some (hs : ∀ k, source (i + k) = body[k]?) (hl : i ≤ dest.length)
    (h : copyUntil stop source cs i dest = some (n, dest')) :
    n = i + cs.idxOf stop ∧
      dest' = dest.take i ++ body.take (cs.idxOf stop) ++ dest.drop (i + cs.idxOf stop) := by
  induction cs generalizing i dest body
  case nil => simp [copyUntil] at h
  case cons c cs hi =>
    rw [copyUntil] at h
    by_cases hc : c = stop
    case pos =>
      rw [if_pos hc] at h
      cases h
      simp [hc]
    case neg =>
      rw [if_neg hc] at h
      cases hb : source i
      case none => simp [hb] at h
      case some b =>
        have hb' := hs 0
        rw [Nat.add_zero, hb, ← List.head?_eq_getElem?] at hb'
        obtain ⟨body, rfl⟩ := List.head?_eq_some_iff.mp hb'.symm
        by_cases hd : i < dest.length
        case neg => simp [hb, hd] at h
        simp only [hb, if_pos hd] at h
        have hs' : ∀ k, source (i + 1 + k) = body[k]? := by
          intro k
          rw [Nat.add_right_comm]
          exact hs (k + 1)
        have ⟨hn, hx⟩ := hi hs' (by simpa using hd) h
        have ht : (dest.set i b).take (i + 1) = dest.take i ++ [b] := by
          rw [List.take_succ_eq_append_getElem (by simpa), List.getElem_set_self,
            List.take_set_of_le (Nat.le_refl _)]
        rw [List.idxOf_cons_ne _ hc, hn, hx, ht, List.drop_set_of_lt (by omega)]
        refine ⟨by omega, ?_⟩
        rw [List.append_assoc (dest.take i), List.singleton_append, Nat.succ_eq_add_one,
          List.take_succ_cons, Nat.add_right_comm i 1, Nat.add_assoc]

-- A loop that starts anew.
theorem copyUntil_zero (hs : ∀ k, source k = body[k]?) (hn : cs.idxOf stop ≤ body.length)
    (h : copyUntil stop source cs 0 dest = some (n, dest')) :
    n = cs.idxOf stop ∧ dest' = overlay (body.take (cs.idxOf stop)) dest := by
  have hs' : ∀ k, source (0 + k) = body[k]? := by simpa using hs
  have ⟨hn', hd⟩ := copyUntil_eq_some hs' (Nat.zero_le _) h
  rw [overlay, List.length_take, Nat.min_eq_left hn]
  rw [Nat.zero_add] at hn' hd
  exact ⟨hn', hd⟩

-- A byte that stands early in a buffer is found there.
theorem mem_take_iff (hn : n < cs.length) : stop ∈ cs.take (n + 1) ↔ cs.idxOf stop ≤ n := by
  constructor
  case mp =>
    intro h
    have ha : cs.idxOf stop = (cs.take (n + 1)).idxOf stop := by
      conv_lhs => rw [← List.take_append_drop (n + 1) cs]
      exact List.idxOf_append_of_mem h
    have hl := List.idxOf_lt_length_of_mem h
    rw [List.length_take] at hl
    omega
  case mpr =>
    intro h
    have hl : cs.idxOf stop < cs.length := by omega
    exact List.mem_take_iff_getElem.mpr ⟨_, by omega, List.getElem_idxOf hl⟩

theorem takeWhile_ne_eq_take (stop : UInt8) (cs : List UInt8) :
    cs.takeWhile (· ≠ stop) = cs.take (cs.idxOf stop) := by
  induction cs
  case nil => rfl
  case cons c cs hi =>
    by_cases hc : c = stop
    case pos => simp [hc]
    case neg =>
      rw [List.idxOf_cons_ne _ hc, List.take_succ_cons, ← hi]
      simp [hc]

end Loops

variable {receive orderCheck orderCheck' itemCheck message : List UInt8} {i j : ℕ}

theorem isSome_copyOrder_iff (ho : orderCheck.length = 20) :
    (copyOrder receive orderCheck).isSome ↔ 32 ∈ receive.take 21 := by
  rw [copyOrder, isSome_copyUntil_iff, ho]
  intro k hk _
  simpa using hk

theorem copyOrder_eq_some (h : copyOrder receive orderCheck = some (i, orderCheck')) :
    i = receive.idxOf 32 ∧ orderCheck' = overlay (receive.take (receive.idxOf 32)) orderCheck :=
  copyUntil_zero (fun _ => rfl) List.idxOf_le_length h

theorem isSome_copyItem_iff (hr : receive.length = 256) :
    (copyItem receive i).isSome ↔ 32 ∈ (receive.drop (i + 1)).take 21 := by
  rw [copyItem, isSome_copyUntil_iff, List.length_replicate]
  intro k _ hk
  simp at hk ⊢
  omega

theorem copyItem_eq_some (hr : receive.length = 256)
    (h : copyItem receive i = some (j, itemCheck)) :
    j = (receive.drop (i + 1)).idxOf 32 ∧ j ≤ 20 ∧
      itemCheck = overlay ((receive.drop 6).take j) (.replicate 20 0) := by
  have hm := (isSome_copyItem_iff hr).mp <| Option.isSome_iff_exists.mpr ⟨_, h⟩
  have hj : (receive.drop (i + 1)).idxOf 32 ≤ 20 := by
    by_cases hl : 20 < (receive.drop (i + 1)).length
    case pos => exact (mem_take_iff hl).mp hm
    case neg => exact List.idxOf_le_length.trans (by omega)
  have hs : ∀ k, receive[k + 6]? = (receive.drop 6)[k]? := fun k => by simp [Nat.add_comm]
  have ⟨hn, hi⟩ := copyUntil_zero hs (by simp; omega) h
  exact ⟨hn, by omega, hn ▸ hi⟩

theorem isSome_copyNum_iff (hr : receive.length = 256) :
    (copyNum receive i j).isSome ↔ 0 ∈ (receive.drop (i + j + 2)).take 11 := by
  rw [copyNum, isSome_copyUntil_iff, List.length_replicate]
  intro k hk _
  simp at hk ⊢
  omega

-- Where the loops look for the item and for the number.
theorem drop_idxOf (receive : List UInt8) :
    receive.drop (receive.idxOf 32 + (behindBlank receive).idxOf 32 + 2) =
      behindBlank (behindBlank receive) := by
  rw [behindBlank, behindBlank, List.drop_drop]
  congr 1
  omega

theorem parse_other (hc : copyOrder receive orderCheck = some (i, orderCheck'))
    (ht : text orderCheck' ≠ ascii "order") :
    parse receive orderCheck = some (orderCheck', none) := by
  simp [parse, hc, ht]

theorem parse_order (hc : copyOrder receive orderCheck = some (i, orderCheck'))
    (ht : text orderCheck' = ascii "order") :
    parse receive orderCheck = (copyItem receive i).bind fun item =>
      (copyNum receive i item.fst).map fun num => (orderCheck', some (item.snd, num.snd)) := by
  simp only [parse, hc, ht, Option.bind_eq_bind, Option.bind_some, if_true, Option.map_eq_bind]
  rfl

-- The loops of a message, by what they find in the buffers.
theorem isSome_parse_iff (hr : receive.length = 256) (ho : orderCheck.length = 20) :
    (parse receive orderCheck).isSome ↔ 32 ∈ receive.take 21 ∧
      (text (overlay (receive.take (receive.idxOf 32)) orderCheck) = ascii "order" →
        32 ∈ (behindBlank receive).take 21 ∧ 0 ∈ (behindBlank (behindBlank receive)).take 11) := by
  cases hc : copyOrder receive orderCheck
  case none =>
    have hn : 32 ∉ receive.take 21 := (isSome_copyOrder_iff ho).not.mp (by simp [hc])
    simp [parse, hc, hn]
  case some p =>
    obtain ⟨i, orderCheck'⟩ := p
    have hb := (isSome_copyOrder_iff ho).mp <| Option.isSome_iff_exists.mpr ⟨_, hc⟩
    obtain ⟨rfl, hx⟩ := copyOrder_eq_some hc
    rw [← hx, and_iff_right hb]
    by_cases ht : text orderCheck' = ascii "order"
    case neg => simp [parse_other hc ht, ht]
    case pos =>
      rw [parse_order hc ht, imp_iff_right ht]
      cases hi : copyItem receive (receive.idxOf 32)
      case none =>
        have hn := (isSome_copyItem_iff (i := receive.idxOf 32) hr).not.mp (by simp [hi])
        simp [behindBlank, hn]
      case some p =>
        obtain ⟨j, itemCheck⟩ := p
        have hm := (isSome_copyItem_iff hr).mp <| Option.isSome_iff_exists.mpr ⟨_, hi⟩
        obtain ⟨hj, -, -⟩ := copyItem_eq_some hr hi
        have hn := isSome_copyNum_iff (i := receive.idxOf 32) (j := j) hr
        rw [hj] at hn
        rw [← drop_idxOf, behindBlank, and_iff_right hm, ← hn, ← hj]
        simp

theorem parse_eq_some {order : Option (List UInt8 × List UInt8)}
    (h : parse receive orderCheck = some (orderCheck', order)) :
    orderCheck' = overlay (receive.take (receive.idxOf 32)) orderCheck ∧
      (order.isSome ↔ text orderCheck' = ascii "order") := by
  cases hc : copyOrder receive orderCheck
  case none => simp [parse, hc] at h
  case some p =>
    obtain ⟨i, orderCheck₁⟩ := p
    obtain ⟨rfl, hx⟩ := copyOrder_eq_some hc
    by_cases ht : text orderCheck₁ = ascii "order"
    case neg =>
      cases (parse_other hc ht).symm.trans h
      exact ⟨hx, by simp [ht]⟩
    case pos =>
      rw [parse_order hc ht] at h
      obtain ⟨item, -, h⟩ := Option.bind_eq_some_iff.mp h
      obtain ⟨num, -, h⟩ := Option.map_eq_some_iff.mp h
      cases h
      exact ⟨hx, by simp [ht]⟩

-- The record of a message in the buffer of the server.
def Process.received (p : Process) (message : List UInt8) : List UInt8 :=
  sprintf p.receive message

-- The loops end inside of their arrays, and a message is an order if its first word says so.
def Parses (p : Process) (message : List UInt8) : Prop :=
  ∃ orderCheck order, parse (p.received message) p.orderCheck = some (orderCheck, order) ∧
    (order.isSome ↔ firstWord message = ascii "order")

-- What the loops rely on.
structure Parseable (p : Process) (message : List UInt8) : Prop where
  -- A blank stands among the first bytes of the buffer, in the message or behind it.
  word     : 32 ∈ (p.received message).take 21
  -- `order_check` has a NUL behind the place of 'order',
  fresh    : 32 ∈ message → firstWord message = ascii "order" → p.orderCheck[5]? = some 0
  -- and what it holds does not make another word an 'order'.
  stale    : 32 ∈ message → firstWord message ≠ ascii "order" →
    firstWord message ++ text (p.orderCheck.drop (firstWord message).length) ≠ ascii "order"
  -- An order has a short item and a short number.
  item     : firstWord message = ascii "order" →
    32 ∈ (behindBlank (p.received message)).take 21
  number   : firstWord message = ascii "order" →
    0 ∈ (behindBlank (behindBlank (p.received message))).take 11

variable {p : Process}

theorem received_length (hs : p.Sized) (hm : message.length ≤ 255) :
    (p.received message).length = 256 := by
  rw [Process.received, sprintf, overlay_length (by simp [hs.receive]; omega), hs.receive]

theorem received_eq (p : Process) (message : List UInt8) :
    p.received message = message ++ 0 :: p.receive.drop (message.length + 1) := by
  simp [Process.received, sprintf, overlay]

theorem firstWord_eq (message : List UInt8) :
    firstWord message = message.take (message.idxOf 32) :=
  takeWhile_ne_eq_take 32 message

theorem zero_notMem_firstWord (h : 0 ∉ message) : 0 ∉ firstWord message :=
  fun hm => h <| (List.takeWhile_prefix _).subset hm

theorem text_append (h : 0 ∉ message) (buf : List UInt8) :
    text (message ++ buf) = message ++ text buf :=
  List.takeWhile_append_of_pos fun _ hc => decide_eq_true <| ne_of_mem_of_not_mem hc h

-- What is compared with 'order': the first word, and behind a word that is shorter than the last
-- one the rest of that.
theorem text_orderCheck_of_blank (h₀ : 0 ∉ message) (hm : 32 ∈ message) :
    text (overlay ((p.received message).take ((p.received message).idxOf 32)) p.orderCheck) =
      firstWord message ++ text (p.orderCheck.drop (firstWord message).length) := by
  rw [received_eq, List.idxOf_append_of_mem hm, List.take_append_of_le_length List.idxOf_le_length,
    ← firstWord_eq, overlay, text_append (zero_notMem_firstWord h₀)]

-- Without a blank, the NUL behind the word is copied as well.
theorem text_orderCheck_of_word (h₀ : 0 ∉ message) (hm : 32 ∉ message) :
    text (overlay ((p.received message).take ((p.received message).idxOf 32)) p.orderCheck) =
      firstWord message := by
  have hw : firstWord message = message := by
    rw [firstWord_eq, List.idxOf_eq_length hm, List.take_length]
  rw [received_eq, List.idxOf_append_of_notMem hm, List.idxOf_cons_ne _ (by decide), hw,
    List.take_length_add_append, List.take_succ_cons, overlay, List.append_assoc, text_append h₀]
  simp [text]

-- The word is recognised exactly if the message holds no blank or `order_check` does not get in the
-- way.
theorem recognised_iff (hs : p.Sized) (h₀ : 0 ∉ message) :
    (text (overlay ((p.received message).take ((p.received message).idxOf 32)) p.orderCheck) =
        ascii "order" ↔ firstWord message = ascii "order") ↔
      (32 ∈ message → firstWord message = ascii "order" → p.orderCheck[5]? = some 0) ∧
      (32 ∈ message → firstWord message ≠ ascii "order" →
        firstWord message ++ text (p.orderCheck.drop (firstWord message).length) ≠
          ascii "order") := by
  by_cases hm : 32 ∈ message
  case neg => simp [text_orderCheck_of_word h₀ hm, hm]
  case pos =>
    rw [text_orderCheck_of_blank h₀ hm]
    by_cases hw : firstWord message = ascii "order"
    case neg => simp [hm, hw]
    case pos =>
      have ht := text_overlay_order hs.orderCheck
      rw [overlay, text_append (by decide)] at ht
      simp only [hm, hw, ht]
      simp

theorem parses_iff_parseable (hs : p.Sized) (h₀ : 0 ∉ message) (hm : message.length ≤ 255) :
    Parses p message ↔ Parseable p message := by
  have hi := isSome_parse_iff (received_length hs hm) hs.orderCheck
  have hr := recognised_iff hs h₀
  constructor
  case mp =>
    rintro ⟨orderCheck, order, hp, hx⟩
    obtain ⟨rfl, ho⟩ := parse_eq_some hp
    have ⟨hw, hl⟩ := hi.mp <| Option.isSome_iff_exists.mpr ⟨_, hp⟩
    have ⟨hf, ht⟩ := hr.mp <| ho.symm.trans hx
    have hl' := fun h => hl (ho.mp <| hx.mpr h)
    exact ⟨hw, hf, ht, fun h => (hl' h).left, fun h => (hl' h).right⟩
  case mpr =>
    intro h
    have hx := hr.mpr ⟨h.fresh, h.stale⟩
    obtain ⟨⟨orderCheck, order⟩, hp⟩ := Option.isSome_iff_exists.mp <|
      hi.mpr ⟨h.word, fun ht => ⟨h.item (hx.mp ht), h.number (hx.mp ht)⟩⟩
    obtain ⟨rfl, ho⟩ := parse_eq_some hp
    exact ⟨_, order, hp, ho.trans hx⟩

-- An order of the examples.
def orderTea : List UInt8 :=
  ascii "order tea 3"

theorem parses_iff_parseable_tea :
    Parses .initial orderTea ↔ Parseable .initial orderTea :=
  parses_iff_parseable ⟨List.length_replicate, List.length_replicate⟩ (by decide) (by decide)

-- The first message is a word without a blank behind it.
theorem parses_broken : ¬ ∀ (p : Process) (message : List UInt8), p.Sized → 0 ∉ message →
    message.length ≤ 255 → message ≠ ascii "cancel" → message ≠ ascii "shop list" →
    message ≠ ascii "confirm" → Parses p message := by
  intro h
  obtain ⟨orderCheck, order, hp, -⟩ := h .initial (ascii "hello")
    ⟨List.length_replicate, List.length_replicate⟩ (by decide) (by decide) (by decide) (by decide)
    (by decide)
  have hn : parse (Process.initial.received <| ascii "hello") Process.initial.orderCheck =
      none := by decide +kernel
  cases hn.symm.trans hp

-- The server as a whole handles a message as the loops say.
section Server

theorem text_overlay_zeros (cs : List UInt8) (n : ℕ) :
    text (overlay cs (.replicate n 0)) = text cs := by
  rw [overlay, List.drop_replicate, text, text, List.takeWhile_append]
  split
  case isTrue h =>
    rw [(List.takeWhile_prefix _).eq_of_length h, List.takeWhile_replicate]
    simp
  case isFalse => rfl

theorem mem_take_text_iff {cs : List UInt8} (h : 10 < cs.length) :
    0 ∈ cs.take 11 ↔ (text cs).length ≤ 10 := by
  have hl := List.idxOf_le_length (a := 0) (l := cs)
  rw [mem_take_iff h, text, takeWhile_ne_eq_take, List.length_take, Nat.min_eq_left hl]

-- Where the copies end, in the terms of the server.
theorem isSome_parse_iff_idxOf (hr : receive.length = 256) (ho : orderCheck.length = 20) :
    (parse receive orderCheck).isSome ↔ receive.idxOf 32 ≤ 20 ∧
      (text (overlay (receive.take (receive.idxOf 32)) orderCheck) = ascii "order" →
        (receive.drop (receive.idxOf 32 + 1)).idxOf 32 ≤ 20 ∧
        (text <| receive.drop <|
          receive.idxOf 32 + (receive.drop (receive.idxOf 32 + 1)).idxOf 32 + 2).length ≤ 10) := by
  rw [isSome_parse_iff hr ho, ← drop_idxOf, mem_take_iff (by omega)]
  refine and_congr_right fun hi => imp_congr_right fun _ => ?_
  rw [behindBlank, mem_take_iff (by simp; omega)]
  refine and_congr_right fun hj => mem_take_text_iff ?_
  simp
  omega

theorem order_fault (hs : p.Sized) (h : parse p.receive p.orderCheck = none) :
    p.order.next = .fault := by
  have hn := (isSome_parse_iff_idxOf hs.receive hs.orderCheck).not.mp (by simp [h])
  rw [Process.order]
  split
  case isTrue  => rfl
  case isFalse hi =>
    have hi' := not_lt.mp hi
    obtain ⟨ht, hl⟩ := Classical.not_imp.mp <| (not_and.mp hn) hi'
    have hl' := not_and_or.mp hl
    simp only [not_le] at hl'
    simp only [if_pos ht, Process.orderItem, if_pos hl']

theorem order_other {orderCheck : List UInt8} (hs : p.Sized)
    (h : parse p.receive p.orderCheck = some (orderCheck, none)) :
    p.order = { process := { p with orderCheck }, replies := [], next := .recv } := by
  have ⟨hi, _⟩ := (isSome_parse_iff_idxOf hs.receive hs.orderCheck).mp (by simp [h])
  obtain ⟨hx, ho⟩ := parse_eq_some h
  have ht : text orderCheck ≠ ascii "order" := by simpa using ho
  rw [hx] at ht
  rw [Process.order, if_neg (not_lt.mpr hi), if_neg ht, hx]

theorem copyNum_eq_some {numCheck : List UInt8} {k : ℕ}
    (h : copyNum receive i j = some (k, numCheck)) :
    text numCheck = text (receive.drop (i + j + 2)) := by
  have hs : ∀ k, receive[k + i + j + 2]? = (receive.drop (i + j + 2))[k]? := by
    intro k
    rw [List.getElem?_drop]
    congr 1
    omega
  obtain ⟨-, rfl⟩ := copyUntil_zero hs List.idxOf_le_length h
  rw [text_overlay_zeros, ← takeWhile_ne_eq_take, ← text]
  exact List.takeWhile_idem

theorem parse_eq_some_order {itemCheck numCheck : List UInt8} (hr : receive.length = 256)
    (h : parse receive orderCheck = some (orderCheck', some (itemCheck, numCheck))) :
    text itemCheck =
        text ((receive.drop 6).take <| (receive.drop (receive.idxOf 32 + 1)).idxOf 32) ∧
      text numCheck = text (receive.drop <|
        receive.idxOf 32 + (receive.drop (receive.idxOf 32 + 1)).idxOf 32 + 2) := by
  cases hc : copyOrder receive orderCheck
  case none => simp [parse, hc] at h
  case some p =>
    obtain ⟨i, orderCheck₁⟩ := p
    obtain ⟨rfl, -⟩ := copyOrder_eq_some hc
    by_cases ht : text orderCheck₁ = ascii "order"
    case neg => cases (parse_other hc ht).symm.trans h
    case pos =>
      rw [parse_order hc ht] at h
      obtain ⟨⟨j, item⟩, hi, h⟩ := Option.bind_eq_some_iff.mp h
      obtain ⟨⟨k, num⟩, hn, h⟩ := Option.map_eq_some_iff.mp h
      cases h
      obtain ⟨rfl, -, rfl⟩ := copyItem_eq_some hr hi
      exact ⟨text_overlay_zeros _ _, copyNum_eq_some hn⟩

theorem order_order {orderCheck itemCheck numCheck : List UInt8} (hs : p.Sized)
    (h : parse p.receive p.orderCheck = some (orderCheck, some (itemCheck, numCheck))) :
    p.order =
      match p.book.order (text itemCheck) (atoi <| text numCheck) with
      | some book =>
        if (text numCheck).length = 10 then
          { process := { p with orderCheck }, replies := [], next := .fault }
        else
          { process := { p with orderCheck, book }
            replies := [.order <| strcpy (.replicate 256 0) <| text book.orderTemp]
            next    := .recv }
      | none =>
        { process := { p with orderCheck }
          replies := [.order p.book.orderTemp]
          next    := .recv } := by
  have ⟨hi, hl⟩ := (isSome_parse_iff_idxOf hs.receive hs.orderCheck).mp (by simp [h])
  obtain ⟨hx, ho⟩ := parse_eq_some h
  have ht : text orderCheck = ascii "order" := by simpa using ho
  have ⟨hj, hn⟩ := hl (hx ▸ ht)
  have ⟨hi', hn'⟩ := parse_eq_some_order hs.receive h
  simp only [Process.order, if_neg (not_lt.mpr hi), ← hx, if_pos ht, Process.orderItem]
  rw [← hi', hn']
  exact if_neg (by simpa only [not_or, not_lt] using ⟨hj, hn⟩)

end Server
end Hw2
