import EmbeddedOS.HomeWork.Hw2.Server

open C Delivery

namespace Hw2

-- A message that a client of the shop sends, without the NULs behind it. The first word ends at the
-- first blank.
structure WellFormed (message : List UInt8) : Prop where
  plain  : 0 ∉ message
  fits   : message.length ≤ 255
  known  : message = ascii "cancel" ∨ message = ascii "shop list" ∨ message = ascii "confirm" ∨
    message = ascii "order" ∨ ascii "order " <+: message

-- A history of connections that the server has handled from its start on without a fault.
structure History where
  connections : List (List Received)
  process     : Process
  reached     : Process.initial.after connections = some process

-- The record in which a message is delivered.
def delivered (message : List UInt8) : List UInt8 :=
  sprintf (.replicate 256 0) message

-- What a new connection gets for its messages.
def Process.replies (p : Process) (messages : List (List UInt8)) : List (List UInt8) :=
  (p.accept.connection <| messages.map (.bytes <| delivered ·)).fst.map record

-- The word 'order' is recognised when it is copied over what stands in `order_check`.
def Process.Recognises (p : Process) : Prop :=
  p.orderCheck[5]? = some 0

-- Two processes that a new connection cannot tell apart: orders are recognised by both or by
-- neither, and if they are, the last order that was accepted reads the same.
structure Process.Alike (p q : Process) : Prop where
  orderCheck : p.Recognises ↔ q.Recognises
  orderTemp  : p.Recognises → p.book.orderTemp = q.book.orderTemp

-- The arrays of a process have their sizes.
structure Process.Sized (p : Process) : Prop where
  receive    : p.receive.length = 256
  orderCheck : p.orderCheck.length = 20

-- The processes of two connections that have got the same messages so far.
structure Process.Related (p q : Process) : Prop where
  left       : p.Sized
  right      : q.Sized
  orderCheck : p.Recognises ↔ q.Recognises
  orderTemp  : p.Recognises → p.book.orderTemp = q.book.orderTemp
  orderNum   : p.book.orderNum = q.book.orderNum
  flag       : p.book.flag = q.book.flag
  price      : p.book.price = q.book.price

variable {p q : Process} {message receive : List UInt8} {messages : List (List UInt8)}

namespace Process.Related

theorem book (h : p.Related q) (hr : p.Recognises) : p.book = q.book := by
  have hn := h.orderNum
  have ht := h.orderTemp hr
  have hf := h.flag
  have hp := h.price
  cases hb : p.book
  cases hb' : q.book
  simp_all

theorem withBook (h : p.Related q) (book : Book) :
    Process.Related { p with book } { q with book } :=
  ⟨⟨h.left.receive, h.left.orderCheck⟩, ⟨h.right.receive, h.right.orderCheck⟩, h.orderCheck,
    fun _ => rfl, rfl, rfl, rfl⟩

-- The same record replaces what the two processes have in their buffers.
theorem withReceive (h : p.Related q) (hl : receive.length = 256) :
    Process.Related { p with receive } { q with receive } :=
  ⟨⟨hl, h.left.orderCheck⟩, ⟨hl, h.right.orderCheck⟩, h.orderCheck, h.orderTemp, h.orderNum, h.flag,
    h.price⟩

-- A first word of five letters leaves the byte behind it as it is.
theorem withWord (h : p.Related q) {word : List UInt8} (hl : word.length = 5) :
    Process.Related { p with orderCheck := overlay word p.orderCheck }
      { q with orderCheck := overlay word q.orderCheck } := by
  have hp : (overlay word p.orderCheck)[5]? = p.orderCheck[5]? := by simp [overlay_get, hl]
  have hq : (overlay word q.orderCheck)[5]? = q.orderCheck[5]? := by simp [overlay_get, hl]
  constructor
  case left =>
    exact ⟨h.left.receive, (overlay_length <| by rw [hl, h.left.orderCheck]; decide).trans
      h.left.orderCheck⟩
  case right =>
    exact ⟨h.right.receive, (overlay_length <| by rw [hl, h.right.orderCheck]; decide).trans
      h.right.orderCheck⟩
  case orderCheck => rw [Recognises, Recognises, hp, hq]; exact h.orderCheck
  case orderTemp  => rw [Recognises, hp]; exact h.orderTemp
  case orderNum   => exact h.orderNum
  case flag       => exact h.flag
  case price      => exact h.price

end Process.Related

-- What two related processes do with the same message: the replies are the same, and if they wait
-- for another message then they are still related.
structure Round.Agree (r r' : Round) : Prop where
  next    : r.next = r'.next
  replies : r.replies = r'.replies
  process : r.next = .recv → r.process.Related r'.process

theorem text_overlay_order {orderCheck : List UInt8} (hl : orderCheck.length = 20) :
    text (overlay (ascii "order") orderCheck) = ascii "order" ↔ orderCheck[5]? = some 0 := by
  have hx : (ascii "order").length = 5 := rfl
  have hd := List.drop_eq_getElem_cons (l := orderCheck) (i := 5) (by omega)
  have hg := List.getElem?_eq_getElem (l := orderCheck) (i := 5) (by omega)
  rw [text, overlay, hx, hd, hg]
  have ho : (ascii "order").all (fun c => decide (c ≠ 0)) = true := by decide
  rw [List.takeWhile_append_of_pos (List.all_eq_true.mp ho)]
  by_cases hz : orderCheck.get ⟨5, by omega⟩ = 0
  case pos => simp_all
  case neg => simp_all

theorem Process.Related.orderItem (h : p.Related q) (hr : p.receive = q.receive)
    (hb : p.book = q.book) (i : ℕ) : (p.orderItem i).Agree (q.orderItem i) := by
  simp only [Process.orderItem, ← hr, ← hb]
  split
  case isTrue => exact ⟨rfl, rfl, nofun⟩
  split
  case h_2 => exact ⟨rfl, rfl, fun _ => h⟩
  case h_1 book _ =>
    split
    case isTrue  => exact ⟨rfl, rfl, nofun⟩
    case isFalse =>
      have hw := h.withBook book
      rw [← hr] at hw
      exact ⟨rfl, rfl, fun _ => hw⟩

-- The record of a message, and what the loops find in it.
theorem text_delivered (h : 0 ∉ message) : text (delivered message) = message := by
  have hs : string? (delivered message) = some message := string?_sprintf h
  rw [string?] at hs
  split at hs
  case isTrue  => exact Option.some.inj hs
  case isFalse => contradiction

theorem delivered_length (h : message.length ≤ 255) :
    (delivered message).length = 256 := by
  have hb : (List.replicate 256 (0 : UInt8)).length = 256 := List.length_replicate
  rw [delivered, sprintf, overlay_length, hb]
  rw [hb, List.length_append]
  exact Nat.succ_le_succ h

theorem idxOf_order (h : ascii "order " <+: message) (buf : List UInt8) :
    (sprintf buf message).idxOf 32 = 5 ∧ (sprintf buf message).take 5 = ascii "order" := by
  obtain ⟨rest, rfl⟩ := h
  simp [sprintf, overlay, ascii]

-- Without a blank the first copy does not end in its array.
theorem idxOf_blankless : (delivered (ascii "order")).idxOf 32 = 256 := by
  decide +kernel

-- The process behind the copy of the first word of an order.
def Process.copied (p : Process) : Process :=
  { p with orderCheck := overlay (ascii "order") p.orderCheck }

-- The first word of what has been received is 'order'.
structure Process.Ordered (p : Process) : Prop where
  blank : p.receive.idxOf 32 = 5
  word  : p.receive.take 5 = ascii "order"
  sized : p.Sized

theorem Process.Ordered.recognised (h : p.Ordered) (hr : p.Recognises) :
    p.order = p.copied.orderItem 5 := by
  have ht := (text_overlay_order h.sized.orderCheck).mpr hr
  simp [order, copied, h.blank, h.word, ht]

theorem Process.Ordered.ignored (h : p.Ordered) (hr : ¬p.Recognises) :
    p.order = { process := p.copied, replies := [], next := .recv } := by
  have ht := (text_overlay_order h.sized.orderCheck).not.mpr hr
  simp [order, copied, h.blank, h.word, ht]

theorem Process.Related.order (h : p.Related q) (hr : p.receive = q.receive) (hp : p.Ordered) :
    p.order.Agree q.order := by
  have hq : q.Ordered := ⟨hr ▸ hp.blank, hr ▸ hp.word, h.right⟩
  have hw : p.copied.Related q.copied := h.withWord rfl
  by_cases hrec : p.Recognises
  case pos =>
    rw [hp.recognised hrec, hq.recognised <| h.orderCheck.mp hrec]
    exact hw.orderItem hr (h.book hrec) 5
  case neg =>
    rw [hp.ignored hrec, hq.ignored <| h.orderCheck.not.mp hrec]
    exact ⟨rfl, rfl, fun _ => hw⟩

-- A process that has received the record of a message.
theorem Process.Related.handle (h : p.Related q) (hm : WellFormed message)
    (hp : p.receive = delivered message) (hr : p.receive = q.receive) :
    p.handle.Agree q.handle := by
  have ht : text p.receive = message := hp ▸ text_delivered hm.plain
  have hc := h.price
  simp only [Process.handle, ← hr, ht, ← hc]
  split
  case isTrue => exact ⟨rfl, rfl, nofun⟩
  split
  case isTrue => exact ⟨rfl, rfl, fun _ => h⟩
  split
  case isTrue =>
    split
    case isTrue  => exact ⟨rfl, rfl, fun _ => h⟩
    case isFalse => exact ⟨rfl, rfl, nofun⟩
  case isFalse hc hs hf =>
    rcases hm.known with rfl | rfl | rfl | rfl | ho
    case inl => contradiction
    case inr.inl => contradiction
    case inr.inr.inl => contradiction
    case inr.inr.inr.inl =>
      have hi : p.receive.idxOf 32 = 256 := hp ▸ idxOf_blankless
      have hi' : q.receive.idxOf 32 = 256 := hr ▸ hi
      simp only [Process.order, hi, hi']
      exact ⟨rfl, rfl, nofun⟩
    case inr.inr.inr.inr =>
      have ⟨hb, hw⟩ := idxOf_order ho (.replicate 256 0)
      exact h.order hr ⟨hp ▸ hb, hp ▸ hw, h.left⟩

theorem Process.Sized.recv_delivered (h : p.Sized) (hm : message.length ≤ 255) :
    p.recv (.bytes <| delivered message) = some { p with receive := delivered message } := by
  have hl := delivered_length hm
  have ho : overlay ((delivered message).take 256) p.receive = delivered message := by
    rw [List.take_of_length_le hl.le, overlay_eq (h.receive.trans hl.symm).le]
  have hpos : 0 < (delivered message).length := by rw [hl]; decide
  obtain ⟨c, cs, hc⟩ := List.exists_cons_of_length_pos hpos
  rw [hc] at ho ⊢
  simp only [recv, ho]

-- Two related processes cannot be told apart by well-formed messages.
theorem Process.Related.connection (h : p.Related q) (hm : ∀ m ∈ messages, WellFormed m) :
    (p.connection <| messages.map (.bytes <| delivered ·)).fst =
      (q.connection <| messages.map (.bytes <| delivered ·)).fst := by
  induction messages generalizing p q
  case nil => rfl
  case cons m ms ih =>
    have hw := hm m List.mem_cons_self
    have hh := (h.withReceive <| delivered_length hw.fits).handle hw rfl rfl
    simp only [List.map_cons, Process.connection, h.left.recv_delivered hw.fits,
      h.right.recv_delivered hw.fits]
    rw [← hh.next, ← hh.replies]
    split
    case h_1 hn =>
      have hi := ih (hh.process hn) fun m h => hm m <| List.mem_cons_of_mem _ h
      simpa using hi
    case h_2 => rfl
    case h_3 => rfl

namespace Process.Sized

-- No message changes the size of an array.
theorem recv (h : p.Sized) {r : Received} (hr : p.recv r = some q) : q.Sized := by
  cases r
  case eof   => contradiction
  case error => cases hr; exact h
  case bytes bytes =>
    cases bytes <;> cases hr
    case cons c cs =>
      refine ⟨(overlay_length ?_).trans h.receive, h.orderCheck⟩
      rw [h.receive]
      exact List.length_take_le _ _

theorem orderItem (h : p.Sized) (i : ℕ) : (p.orderItem i).process.Sized := by
  simp only [Process.orderItem]
  split
  case isTrue => exact h
  split
  case h_2 => exact h
  split
  case isTrue  => exact h
  case isFalse => exact ⟨h.receive, h.orderCheck⟩

theorem handle (h : p.Sized) : p.handle.process.Sized := by
  unfold Process.handle
  split
  case isTrue => exact h
  split
  case isTrue => exact h
  split
  case isTrue => split <;> exact h
  simp only [Process.order]
  split
  case isTrue => exact h
  case isFalse hi =>
    have hs : Process.Sized { p with
        orderCheck := overlay (p.receive.take (p.receive.idxOf 32)) p.orderCheck } := by
      refine ⟨h.receive, (overlay_length ?_).trans h.orderCheck⟩
      rw [h.orderCheck]
      exact (List.length_take_le _ _).trans (not_lt.mp hi)
    split
    case isTrue  => exact hs.orderItem _
    case isFalse => exact hs

theorem connection (h : p.Sized) {rs : List Received} {replies : List Reply}
    (hc : p.connection rs = (replies, some q)) : q.Sized := by
  induction rs generalizing p replies
  case nil => cases hc; exact h
  case cons r rs ih =>
    simp only [Process.connection] at hc
    split at hc
    case h_1 => cases hc; exact h
    case h_2 p' hr =>
      have hs := (h.recv hr).handle
      split at hc
      case h_1 =>
        obtain ⟨-, hc⟩ := Prod.mk.inj hc
        exact ih hs (Prod.ext rfl hc)
      case h_2 => cases hc; exact hs
      case h_3 => cases hc

theorem after (h : p.Sized) {cs : List (List Received)} (ha : p.after cs = some q) : q.Sized := by
  induction cs generalizing p
  case nil => cases ha; exact h
  case cons c cs ih =>
    obtain ⟨p', hc, ha⟩ := Option.bind_eq_some_iff.mp ha
    have hp : p.accept.Sized := ⟨h.receive, h.orderCheck⟩
    exact ih (hp.connection (Prod.ext rfl hc)) ha

theorem initial : Process.initial.Sized :=
  ⟨List.length_replicate, List.length_replicate⟩

end Process.Sized

-- An order of an unknown item, which is answered by what the last accepted order has left behind.
def unknownItem : List UInt8 :=
  ascii "order ? 1"

theorem unknownItem_wellFormed : WellFormed unknownItem where
  plain := by decide
  fits  := by decide
  known := .inr <| .inr <| .inr <| .inr <| by decide

-- The process of a new connection that has received the order of the unknown item.
def Process.asked (p : Process) : Process :=
  { p.accept with receive := delivered unknownItem }

theorem Process.Sized.asked_ordered (h : p.Sized) : p.asked.Ordered := by
  have ho : ascii "order " <+: unknownItem := by decide
  have ⟨hb, hw⟩ := idxOf_order ho (.replicate 256 0)
  exact ⟨hb, hw, delivered_length unknownItem_wellFormed.fits, h.orderCheck⟩

theorem Process.asked_handle (p : Process) : p.asked.handle = p.asked.order := by
  have ht : text p.asked.receive = unknownItem := text_delivered unknownItem_wellFormed.plain
  have hc : unknownItem ≠ ascii "cancel" := by decide
  have hs : unknownItem ≠ ascii "shop list" := by decide
  have hf : unknownItem ≠ ascii "confirm" := by decide
  simp [handle, ht, hc, hs, hf]

theorem Process.asked_orderItem (p : Process) :
    p.asked.copied.orderItem 5 =
      { process := p.asked.copied, replies := [.order p.book.orderTemp], next := .recv } := by
  have hr : p.asked.copied.receive = delivered unknownItem := rfl
  have hb : p.asked.copied.book.orderTemp = p.book.orderTemp := rfl
  have hj : ((delivered unknownItem).drop 6).idxOf 32 = 1 := by decide +kernel
  have hn : text ((delivered unknownItem).drop 8) = ascii "1" := by decide +kernel
  have hi : text (((delivered unknownItem).drop 6).take 1) = ascii "?" := by decide +kernel
  have ho : p.asked.copied.book.order (ascii "?") (atoi (ascii "1")) = none := rfl
  have hl : (ascii "1").length ≤ 10 := by decide
  simp [orderItem, hr, hj, hn, hi, ho, hb, hl]

theorem Process.Sized.replies_asked (h : p.Sized) (hn : p.asked.order.next = .recv) :
    p.replies [unknownItem] = p.asked.order.replies.map record := by
  have hs : p.accept.Sized := ⟨h.receive, h.orderCheck⟩
  have hd : p.accept.recv (.bytes <| delivered unknownItem) = some p.asked :=
    hs.recv_delivered unknownItem_wellFormed.fits
  simp [Process.replies, Process.connection, hd, asked_handle, hn]

theorem Process.Sized.replies_recognised (h : p.Sized) (hr : p.Recognises) :
    p.replies [unknownItem] = [p.book.orderTemp] := by
  have ho := h.asked_ordered.recognised (show p.asked.Recognises from hr)
  rw [asked_orderItem] at ho
  rw [h.replies_asked (by rw [ho]), ho]
  rfl

theorem Process.Sized.replies_ignored (h : p.Sized) (hr : ¬p.Recognises) :
    p.replies [unknownItem] = [] := by
  have ho := h.asked_ordered.ignored (show ¬p.asked.Recognises from hr)
  rw [h.replies_asked (by rw [ho]), ho]
  rfl

-- The new connection gets the same replies after both histories, whatever it sends, if and only if
-- these have left the two processes alike.
theorem isolated_iff (h h' : History) :
    (∀ messages, (∀ m ∈ messages, WellFormed m) →
      h.process.replies messages = h'.process.replies messages) ↔ h.process.Alike h'.process := by
  have hs := Process.Sized.initial.after h.reached
  have hs' := Process.Sized.initial.after h'.reached
  constructor
  case mpr =>
    intro ha messages hm
    refine congrArg (List.map record) <| Process.Related.connection ?_ hm
    exact ⟨⟨hs.receive, hs.orderCheck⟩, ⟨hs'.receive, hs'.orderCheck⟩, ha.orderCheck, ha.orderTemp,
      rfl, rfl, rfl⟩
  case mp =>
    intro hr
    have hu := hr [unknownItem] (by simp [unknownItem_wellFormed])
    by_cases hp : h.process.Recognises
    case pos =>
      rw [hs.replies_recognised hp] at hu
      by_cases hq : h'.process.Recognises
      case pos =>
        rw [hs'.replies_recognised hq] at hu
        exact ⟨iff_of_true hp hq, fun _ => List.singleton_inj.mp hu⟩
      case neg =>
        rw [hs'.replies_ignored hq] at hu
        contradiction
    case neg =>
      rw [hs.replies_ignored hp] at hu
      by_cases hq : h'.process.Recognises
      case pos =>
        rw [hs'.replies_recognised hq] at hu
        contradiction
      case neg => exact ⟨iff_of_false hp hq, fun hr => absurd hr hp⟩

-- Nothing has happened, or a customer has sent a word that starts with 'order'.
def noHistory : History where
  connections := []
  process     := .initial
  reached     := rfl

set_option maxRecDepth 4000 in
def longWord : History where
  connections := [[.bytes <| ascii "ordering tea 1"]]
  process     := (Process.initial.after [[.bytes <| ascii "ordering tea 1"]]).get (by decide)
  reached     := by simp

set_option maxRecDepth 4000 in
theorem isolated_broken : ¬ ∀ (h h' : History) (messages : List (List UInt8)),
    (∀ m ∈ messages, WellFormed m) → h.process.replies messages = h'.process.replies messages := by
  intro h
  have hp : noHistory.process.Recognises := rfl
  have hq : ¬longWord.process.Recognises := by
    rw [Process.Recognises]
    decide
  have hs := Process.Sized.initial.after noHistory.reached
  have hs' := Process.Sized.initial.after longWord.reached
  have hu := h noHistory longWord [unknownItem] (by simp [unknownItem_wellFormed])
  rw [hs.replies_recognised hp, hs'.replies_ignored hq] at hu
  contradiction

end Hw2
