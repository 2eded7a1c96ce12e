import EmbeddedOS.HomeWork.Hw3.Platform

open C

namespace Delivery

-- The ways through the statements of `Delivery_platform`: what must be the case in front of a
-- statement, what it makes of the memory and where the thread goes on.
inductive Platform.Move (pid : ℕ) (m : Memory) (p : Platform) : Memory → Platform → Prop
  | cancel (hpc : p.pc = .handle)
    (hr : string? p.receive = some (ascii "cancel\n") ∨ string? p.receive = some (ascii "No\n")) :
    Move pid m p m (p.goto .closed)
  | yes (k : Courier) (hpc : p.pc = .handle) (hr : string? p.receive = some (ascii "Yes\n"))
    (hw : p.who = some k) : Move pid m p m (p.goto <| .addYes k)
  | yesUnasked (hpc : p.pc = .handle) (hr : string? p.receive = some (ascii "Yes\n"))
    (hw : p.who = none) : Move pid m p m (p.goto <| .sendWait 0)
  | shopList (hpc : p.pc = .handle) (hr : string? p.receive = some (ascii "shop list\n")) :
    Move pid m p m (p.goto <| .send .shopList)
  | confirmFree (hpc : p.pc = .handle) (hr : string? p.receive = some (ascii "confirm\n"))
    (hp : p.book.price = 0) :
    Move pid m p (m.note <| .confirmed pid 0) (p.goto <| .send .pleaseOrder)
  | confirm (hpc : p.pc = .handle) (hr : string? p.receive = some (ascii "confirm\n"))
    (hp : p.book.price ≠ 0) :
    Move pid m p (m.note <| .confirmed pid p.book.price) (p.goto .readFirst)
  | order (receive : List UInt8) (book : Book) (hpc : p.pc = .handle)
    (hr : string? p.receive = some receive) (ho : (scanOrder receive).orderCheck = ascii "order")
    (hb : p.book.order (scanOrder receive).itemCheck (scanOrder receive).numCheck = some book) :
    Move pid m p m
      { p with
        book
        pc := .send <| .order <| sprintf (.replicate 256 0) <| book.orderTemp.takeWhile (· ≠ 0) }
  | orderRefused (receive : List UInt8) (hpc : p.pc = .handle)
    (hr : string? p.receive = some receive) (ho : (scanOrder receive).orderCheck = ascii "order")
    (hb : p.book.order (scanOrder receive).itemCheck (scanOrder receive).numCheck = none) :
    Move pid m p m (p.goto <| .send <| .order p.book.orderTemp)
  | ignore (receive : List UInt8) (hpc : p.pc = .handle)
    (hr : string? p.receive = some receive) (ho : (scanOrder receive).orderCheck ≠ ascii "order") :
    Move pid m p m (p.goto .recv)
  | overlong (receive : List UInt8) (hpc : p.pc = .handle)
    (hr : string? p.receive = some receive) (hf : ¬(scanOrder receive).fits) :
    Move pid m p m (p.goto .faulted)
  | unterminated (hpc : p.pc = .handle) (hr : string? p.receive = none) :
    Move pid m p m (p.goto .faulted)
  | addYes (k : Courier) (temp : ℤ) (hpc : p.pc = .addYes k)
    (ht : temp = C.int (m.deliveryWaitingTime k + p.book.flag)) :
    Move pid m p ((m.setWaitingTime k temp).note <| .committed pid k p.book.flag)
      (p.goto <| .sendWait temp)
  | readFirst (hpc : p.pc = .readFirst) :
    Move pid m p m
      (p.goto <| .readSecond <| C.int (m.deliveryWaitingTime .first + p.book.flag))
  | readSecond (temp1 : ℤ) (hpc : p.pc = .readSecond temp1) :
    Move pid m p m
      (p.goto <| .choose temp1 <| C.int (m.deliveryWaitingTime .second + p.book.flag))
  | choose (temp1 temp2 : ℤ) (k : Courier) (temp : ℤ) (hpc : p.pc = .choose temp1 temp2)
    (hk : (k, temp) = if temp1 < temp2 then (.first, temp1) else (.second, temp2))
    (ht : temp1 < 30 ∨ temp2 < 30) :
    Move pid m p m ({ p with who := some k }.goto <| .writeBack k temp)
  | chooseLong (temp1 temp2 : ℤ) (k : Courier) (temp : ℤ) (hpc : p.pc = .choose temp1 temp2)
    (hk : (k, temp) = if temp1 < temp2 then (.first, temp1) else (.second, temp2))
    (ht : ¬(temp1 < 30 ∨ temp2 < 30)) :
    Move pid m p m ({ p with who := some k }.goto <| .send .longWait)
  | writeBack (k : Courier) (temp : ℤ) (hpc : p.pc = .writeBack k temp) :
    Move pid m p ((m.setWaitingTime k temp).note <| .committed pid k p.book.flag)
      (p.goto <| .sendWait temp)
  | sendWait (temp : ℤ) (hpc : p.pc = .sendWait temp) :
    Move pid m p (m.note <| .sent pid p.book.flag .waitFew) (p.goto <| .sleep temp)
  | sleep (i : ℤ) (hpc : p.pc = .sleep i) (hi : i > 0) :
    Move pid m p m (p.goto <| .sleep (i - 1))
  | wake (i : ℤ) (hpc : p.pc = .sleep i) (hi : ¬i > 0) :
    Move pid m p m (p.goto .deliver)
  | deliver (hpc : p.pc = .deliver) :
    Move pid m p (m.note <| .sent pid p.book.flag <| .arrived p.book.price) (p.goto .closed)
  | send (r : Reply) (hpc : p.pc = .send r) :
    Move pid m p (m.note <| .sent pid p.book.flag r) (p.goto .recv)

variable {m m' : Memory} {p p' : Platform} {pid : ℕ}

theorem Platform.Move.of_handle {receive : List UInt8} (hpc : p.pc = .handle)
    (hr : string? p.receive = some receive) (h : p.handle pid m receive = (m', p')) :
    p.Move pid m m' p' := by
  simp only [handle] at h
  split at h
  case isTrue hc =>
    cases h
    cases hc
    case inl hc => exact .cancel hpc (.inl <| hc ▸ hr)
    case inr hc => exact .cancel hpc (.inr <| hc ▸ hr)
  split at h
  case isTrue hy =>
    subst hy
    split at h <;> cases h
    case h_1 k hw => exact .yes k hpc hr hw
    case h_2 hw   => exact .yesUnasked hpc hr hw
  split at h
  case isTrue hs => cases h; exact .shopList hpc (hs ▸ hr)
  split at h
  case isTrue hc =>
    subst hc
    split at h <;> cases h
    case isTrue hp  => exact .confirmFree hpc hr hp
    case isFalse hp => exact .confirm hpc hr hp
  split at h
  case isTrue hf => cases h; exact .overlong receive hpc hr hf
  split at h
  case isTrue ho =>
    split at h <;> cases h
    case h_1 book hb => exact .order receive book hpc hr ho hb
    case h_2 hb      => exact .orderRefused receive hpc hr ho hb
  case isFalse ho => cases h; exact .ignore receive hpc hr ho

theorem Platform.Move.of_step (h : p.step pid m = some (m', p')) : p.Move pid m m' p' := by
  cases hpc : p.pc <;> simp only [step, hpc] at h
  case handle =>
    split at h
    case h_1 receive hr => exact .of_handle hpc hr <| Option.some.inj h
    case h_2 hr         => cases h; exact .unterminated hpc hr
  case addYes k           => cases h; exact .addYes k _ hpc rfl
  case readFirst          => cases h; exact .readFirst hpc
  case readSecond temp1   => cases h; exact .readSecond temp1 hpc
  case writeBack k temp   => cases h; exact .writeBack k temp hpc
  case sendWait temp      => cases h; exact .sendWait temp hpc
  case deliver            => cases h; exact .deliver hpc
  case send r             => cases h; exact .send r hpc
  case choose temp1 temp2 =>
    split at h <;> cases h
    case isTrue ht  => exact .choose temp1 temp2 _ _ hpc rfl ht
    case isFalse ht => exact .chooseLong temp1 temp2 _ _ hpc rfl ht
  case sleep i =>
    split at h <;> cases h
    case isTrue hi  => exact .sleep i hpc hi
    case isFalse hi => exact .wake i hpc hi
  all_goals contradiction

-- Only `recv` leads to the comparisons of a message.
theorem Platform.step_pc (hpc : p.pc ≠ .handle) (h : p.step pid m = some (m', p')) :
    p'.pc ≠ .handle := by
  cases Move.of_step h
  all_goals first | contradiction | nofun

-- What `recv` returns changes its own thread only, which has been waiting for it.
theorem Platform.input_eq {i : Input} (hi : i ≠ .run) (h : p.input pid m i = some (m', p')) :
    m' = m ∧ p.pc = .recv ∧ p'.book = p.book ∧ p'.who = p.who ∧
      (p'.pc = .handle ∨ p'.pc = .closed) := by
  cases i <;> simp only [input] at h
  case run => contradiction
  all_goals
    split at h
    case isFalse => contradiction
  case bytes.isTrue hb => cases h; exact ⟨rfl, hb.left, rfl, rfl, .inl rfl⟩
  case error.isTrue hb => cases h; exact ⟨rfl, hb, rfl, rfl, .inl rfl⟩
  case eof.isTrue hb   => cases h; exact ⟨rfl, hb, rfl, rfl, .inr rfl⟩

end Delivery
