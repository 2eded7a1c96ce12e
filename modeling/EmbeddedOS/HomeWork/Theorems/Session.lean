import EmbeddedOS.HomeWork.Session
import EmbeddedOS.HomeWork.Hw2.Theorems.Parser
import EmbeddedOS.HomeWork.Hw3.Command
import EmbeddedOS.Library.Scan

open C Delivery

namespace Session

variable {item : Word} {n : Numeral} {x : Request} {xs : List Request} {text : List UInt8}
variable {pid k : ℕ} {m m' : Memory} {p p' : Platform} {b : Book}

section Request

theorem Numeral.isdigit_or (n : Numeral) : ∀ c ∈ n.text, c = 45 ∨ isdigit c := by
  intro c hc
  rcases List.mem_append.mp hc with hc | hc
  case inr => exact .inr <| n.plain c hc
  case inl =>
    split at hc
    case isTrue  => exact .inl <| List.mem_singleton.mp hc
    case isFalse => contradiction

theorem Numeral.zero_notMem (n : Numeral) : 0 ∉ n.text :=
  fun h => by simpa [isdigit] using n.isdigit_or 0 h

theorem Numeral.length_le (n : Numeral) : n.text.length ≤ 9 := by
  have h := n.fits
  rw [text, List.length_append]
  split at h <;> simp_all [ascii]

theorem Word.zero_notMem (item : Word) : 0 ∉ item.text :=
  fun h => (item.plain 0 h).left rfl

theorem Word.blank_notMem (item : Word) : 32 ∉ item.text :=
  fun h => by simpa [isspace] using item.plain 32 h

theorem Request.order_eq (item : Word) (n : Numeral) :
    (Request.order item n).text = ascii "order " ++ (item.text ++ 32 :: n.text) := by
  simp [text, ascii]

theorem Request.order_ne {cs : List UInt8} (hc : cs[0]? ≠ some 111) (rest : List UInt8) :
    (Request.order item n).text ++ rest ≠ cs := by
  rintro rfl
  simp [order_eq, ascii] at hc

theorem Request.zero_notMem (x : Request) : 0 ∉ x.text := by
  cases x
  case order item n =>
    rw [order_eq]
    simpa [item.zero_notMem, n.zero_notMem] using by decide
  all_goals decide

theorem Request.length_le (x : Request) : x.text.length ≤ 35 := by
  cases x
  case order item n =>
    have := item.fits
    have := n.length_le
    simp [order_eq, ascii]
    omega
  all_goals decide

-- The record of a message is the buffer of a string.
theorem pad_eq (h : text.length ≤ 255) : pad text = sprintf (.replicate 256 0) text := by
  have hr : (256 - text.length : ℕ) = (256 - (text.length + 1)) + 1 := by omega
  rw [pad, hr, List.replicate_succ, sprintf, overlay, List.length_append, List.length_singleton,
    List.drop_replicate, List.append_assoc, List.singleton_append]

theorem pad_length (h : text.length ≤ 256) : (pad text).length = 256 := by
  simp [pad, h]

variable {book : Book}

theorem serve_accept (h : b.order item.text (atoi n.text) = some book) :
    serve b (.order item n) =
      ([.order <| sprintf (.replicate 256 0) <| Hw2.text book.orderTemp], book, .recv) := by
  simp only [serve, h]

theorem serve_reject (h : b.order item.text (atoi n.text) = none) :
    serve b (.order item n) = ([.order b.orderTemp], b, .recv) := by
  simp only [serve, h]

end Request

section Hw2

open Hw2

-- An HW2 process in front of a message that is part of a session.
structure Ready (q : Process) : Prop where
  sized      : q.Sized
  recognises : q.Recognises

variable {q : Process}

theorem Ready.withReceive (h : Ready q) {receive : List UInt8} (hl : receive.length = 256) :
    Ready { q with receive } :=
  ⟨⟨hl, h.sized.orderCheck⟩, h.recognises⟩

theorem Ready.copied (h : Ready q) : Ready q.copied := by
  have hl := h.sized.orderCheck
  refine ⟨⟨h.sized.receive, (overlay_length <| hl ▸ by decide).trans hl⟩, ?_⟩
  have ho : (overlay (ascii "order") q.orderCheck)[5]? = q.orderCheck[5]? := by
    rw [overlay_get, if_neg (by decide)]
  exact ho.trans h.recognises

-- What the loops find behind the word 'order'.
theorem orderItem_eq {rest : List UInt8}
    (hd : q.receive.drop 6 = item.text ++ 32 :: (n.text ++ 0 :: rest)) :
    q.orderItem 5 =
      match q.book.order item.text (atoi n.text) with
      | some book =>
        { process := { q with book }
          replies := [.order <| strcpy (.replicate 256 0) <| Hw2.text book.orderTemp]
          next    := .recv }
      | none => { process := q, replies := [.order q.book.orderTemp], next := .recv } := by
  have hj : (q.receive.drop 6).idxOf 32 = item.text.length := by
    rw [hd, List.idxOf_append_of_notMem item.blank_notMem, List.idxOf_cons_self, Nat.add_zero]
  have hi : Hw2.text ((q.receive.drop 6).take item.text.length) = item.text := by
    rw [hd, List.take_left, Hw2.text, List.takeWhile_eq_self_iff]
    exact fun c hc => decide_eq_true (item.plain c hc).left
  have hn : Hw2.text (q.receive.drop (5 + item.text.length + 2)) = n.text := by
    have hs : 5 + item.text.length + 2 = 6 + (item.text.length + 1) := by omega
    rw [hs, ← List.drop_drop, hd, ← List.drop_drop, List.drop_left, List.drop_one, List.tail_cons,
      text_append n.zero_notMem]
    simp [Hw2.text]
  have hf := item.fits
  have hl := n.length_le
  have hf' : ¬(item.text.length > 20 ∨ n.text.length > 10) := by omega
  have hl' : n.text.length ≠ 10 := by omega
  simp only [Process.orderItem, Nat.reduceAdd, hj, hi, hn]
  refine (if_neg hf').trans ?_
  cases q.book.order item.text (atoi n.text)
  case none      => rfl
  case some book => exact if_neg hl'

theorem delivered_order (item : Word) (n : Numeral) : ∃ rest,
    (delivered (Request.order item n).text).drop 6 = item.text ++ 32 :: (n.text ++ 0 :: rest) := by
  refine ⟨(List.replicate 256 0).drop ((Request.order item n).text ++ [0]).length, ?_⟩
  have ho : (ascii "order ").length = 6 := rfl
  rw [delivered, sprintf, overlay, Request.order_eq, List.append_assoc, List.append_assoc,
    List.append_assoc, ← ho, List.drop_left]
  simp only [List.cons_append, List.append_assoc, List.nil_append]

-- What a message comes to is what it is meant for, and the process is ready for the next one.
structure Serves (q : Process) (x : Request) (r : Round) : Prop where
  replies : r.replies = (serve q.book x).fst
  book    : r.process.book = (serve q.book x).snd.fst
  next    : r.next = (serve q.book x).snd.snd
  ready   : Ready r.process

theorem Ready.order (h : Ready q) (hr : q.receive = delivered (Request.order item n).text) :
    Serves q (.order item n) q.order := by
  have hm : ascii "order " <+: (Request.order item n).text := by
    rw [Request.order_eq]
    exact List.prefix_append _ _
  have ⟨hb, hw⟩ := idxOf_order hm (.replicate 256 0)
  have ⟨rest, hd⟩ := delivered_order item n
  have ho : q.order = q.copied.orderItem 5 :=
    Process.Ordered.recognised ⟨hr ▸ hb, hr ▸ hw, h.sized⟩ h.recognises
  rw [ho, orderItem_eq (q := q.copied) (hr ▸ hd)]
  have hc : q.copied.book = q.book := rfl
  rw [hc]
  cases hn : q.book.order item.text (atoi n.text)
  case none =>
    have hs := serve_reject hn
    exact ⟨by rw [hs], by rw [hs]; rfl, by rw [hs], h.copied⟩
  case some book =>
    have hs := serve_accept hn
    have hb : Ready { q.copied with book } :=
      ⟨⟨h.copied.sized.receive, h.copied.sized.orderCheck⟩, h.copied.recognises⟩
    exact ⟨by rw [hs]; rfl, by rw [hs], by rw [hs], hb⟩

theorem Ready.handle (h : Ready q) (hr : q.receive = delivered x.text) : Serves q x q.handle := by
  have ht : Hw2.text q.receive = x.text := hr ▸ text_delivered x.zero_notMem
  rw [Process.handle, ht]
  cases x
  case shopList =>
    have h₁ : ascii "shop list" ≠ ascii "cancel" := by decide
    rw [Request.text, if_neg h₁, if_pos rfl]
    exact ⟨rfl, rfl, rfl, h⟩
  case confirm =>
    have h₁ : ascii "confirm" ≠ ascii "cancel" := by decide
    have h₂ : ascii "confirm" ≠ ascii "shop list" := by decide
    rw [Request.text, if_neg h₁, if_neg h₂, if_pos rfl]
    by_cases hp : q.book.price = 0
    case pos => simp only [hp, if_true]; constructor <;> simp [serve, hp, h]
    case neg => simp only [hp, if_false]; constructor <;> simp [serve, hp, h]
  case cancel =>
    rw [Request.text, if_pos rfl]
    exact ⟨rfl, rfl, rfl, h⟩
  case order item n =>
    rw [← List.append_nil (Request.order item n).text, if_neg (Request.order_ne (by decide) _),
      if_neg (Request.order_ne (by decide) _), if_neg (Request.order_ne (by decide) _)]
    exact h.order hr

theorem recv_pad (hs : q.Sized) (hl : text.length ≤ 255) :
    q.recv (.bytes <| pad text) = some { q with receive := delivered text } := by
  rw [pad_eq hl]
  exact hs.recv_delivered hl

-- The replies of a connection are those of its turns.
theorem connection_turns (hs : q.Sized) :
    (q.connection <| xs.map (.bytes <| pad ·.text)).fst = (q.turns xs).flatMap Turn.replies := by
  induction xs generalizing q
  case nil => rfl
  case cons x xs hi =>
    have hl : x.text.length ≤ 255 := x.length_le.trans (by decide)
    have hs' : Process.Sized { q with receive := delivered x.text } :=
      ⟨delivered_length hl, hs.orderCheck⟩
    simp only [List.map_cons, Process.connection, Process.turns, recv_pad hs hl, List.flatMap_cons]
    split
    case h_1 hn => rw [if_pos hn, hi hs'.handle]; rfl
    case h_2 hn => simp [hn, turn]
    case h_3 hn => simp [hn, turn]

-- A connection is a session.
theorem turns_process (h : Ready q) : q.turns xs = turns q.book xs := by
  induction xs generalizing q
  case nil => rfl
  case cons x xs hi =>
    have hl : x.text.length ≤ 255 := x.length_le.trans (by decide)
    have hs := (h.withReceive <| delivered_length hl).handle (x := x) rfl
    simp only [Process.turns, recv_pad h.sized hl, turns, hs.replies, hs.book, hs.next,
      hi hs.ready]

end Hw2

section Hw3

-- A newline behind a number is no part of it.
theorem scanInt_newline (n : Numeral) : scanInt (n.text ++ [10]) = scanInt n.text := by
  cases hn : n.text
  case nil => exact scanInt_cons (by decide)
  case cons c cs =>
    refine scanInt_append <| .inr ?_
    have hc : isspace c = false := by
      rcases n.isdigit_or c (hn ▸ List.mem_cons_self) with rfl | hd
      case inl => decide
      case inr => exact isspace_of_isdigit hd
    simp [Continues, isdigit, hc]

theorem scanOrder_eq (item : Word) (n : Numeral) :
    scanOrder ((Request.order item n).text ++ ascii "\n") =
      { orderCheck := ascii "order", itemCheck := item.text, numCheck := atoi n.text } := by
  have ho : (Request.order item n).text ++ ascii "\n" =
      ascii "order" ++ 32 :: (item.text ++ 32 :: (n.text ++ [10])) := by
    simp [Request.order_eq, ascii]
  have hw : scanWord ((Request.order item n).text ++ ascii "\n") =
      some (ascii "order", 32 :: (item.text ++ 32 :: (n.text ++ [10]))) := by
    rw [ho]
    exact scanWord_append (by decide) (by simp [ascii, isspace]) (by simp [isspace])
  have hi : scanWord (32 :: (item.text ++ 32 :: (n.text ++ [10]))) =
      some (item.text, 32 :: (n.text ++ [10])) := by
    refine scanWord_eq_some.mpr ⟨[32], rfl, by simp [isspace], item.word, ?_, by simp [isspace]⟩
    exact fun c hc => (item.plain c hc).right
  simp only [scanOrder, hw, hi]
  rw [scanInt_cons (by decide), scanInt_newline, atoi]

-- An HW3 session between two messages, while both of the couriers are idle.
structure Rests (m : Memory) (p : Platform) : Prop where
  pc      : p.pc = .recv
  idle    : ∀ k, m.deliveryWaitingTime k = 0
  receive : p.receive.length = 256
  flag    : 0 ≤ p.book.flag ∧ p.book.flag ≤ 8

-- The session in front of the comparisons of a message.
def received (p : Platform) (x : Request) : Platform :=
  { p with receive := pad (x.text ++ ascii "\n"), pc := .handle }

theorem received_length (x : Request) : (pad <| x.text ++ ascii "\n").length = 256 := by
  refine pad_length ?_
  have := x.length_le
  simp [ascii]
  omega

theorem input_pad (h : Rests m p) (x : Request) :
    p.input pid m (.bytes <| pad <| x.text ++ ascii "\n") = some (m, received p x) := by
  have hl := received_length x
  have ho : overlay (pad (x.text ++ ascii "\n")) p.receive = pad (x.text ++ ascii "\n") :=
    overlay_eq (h.receive.trans hl.symm).le
  have hc : p.pc = .recv ∧ 1 ≤ (pad (x.text ++ ascii "\n")).length ∧
      (pad (x.text ++ ascii "\n")).length ≤ 256 := ⟨h.pc, by omega, by omega⟩
  simp only [Platform.input, if_pos hc, ho, received]

theorem step_received (pid : ℕ) (m : Memory) (p : Platform) (x : Request) :
    (received p x).step pid m = some ((received p x).handle pid m <| x.text ++ ascii "\n") := by
  have hz : 0 ∉ x.text ++ ascii "\n" := by
    simpa [x.zero_notMem] using by decide
  have hl : (x.text ++ ascii "\n").length ≤ 255 := by
    have := x.length_le
    simp [ascii]
    omega
  have hs : string? (received p x).receive = some (x.text ++ ascii "\n") := by
    rw [received, pad_eq hl]
    exact string?_sprintf hz
  have hpc : (received p x).pc = .handle := rfl
  simp only [Platform.step, hpc, hs]

-- What a message comes to.
structure Performs (pid : ℕ) (m : Memory) (p : Platform) (x : Request) (s : Memory × Platform) :
    Prop where
  log   : ∃ es, s.fst.log = es ++ m.log ∧ replies pid es = (serve p.book x).fst
  book  : s.snd.book = (serve p.book x).snd.fst
  next  : s.snd.pc.next? = some (serve p.book x).snd.snd
  rests : (serve p.book x).snd.snd = .recv → Rests s.fst s.snd

theorem settle_step (h : p.step pid m = some (m', p')) :
    Pool.settle platforms pid .run (k + 1) m p = Pool.settle platforms pid .run k m' p' :=
  Pool.settle_succ h

theorem settle_closed (h : p.pc = .closed) : Pool.settle platforms pid .run k m p = (m, p) := by
  refine Pool.settle_of_stuck ?_
  simp [platforms, Platform.input, Platform.step, h]

-- A reply is sent, and then the session waits for the next message.
theorem settle_send {r : Reply} (h : p.pc = .send r) :
    Pool.settle platforms pid .run (k + 1) m p =
      (m.note <| .sent pid p.book.flag r, p.goto .recv) := by
  have hs : p.step pid m = some (m.note <| .sent pid p.book.flag r, p.goto .recv) := by
    simp [Platform.step, h]
  rw [settle_step hs]
  refine Pool.settle_of_stuck ?_
  simp [platforms, Platform.input, Platform.step]

theorem settle_sleep (i : ℕ) : Pool.settle platforms pid .run (k + i + 2) m (p.goto <| .sleep i) =
    (m.note <| .sent pid p.book.flag <| .arrived p.book.price, p.goto .closed) := by
  induction i
  case zero =>
    have h₁ : (p.goto <| .sleep (0 : ℕ)).step pid m = some (m, p.goto .deliver) := by
      simp [Platform.step, Platform.goto]
    have h₂ : (p.goto .deliver).step pid m =
        some (m.note <| .sent pid p.book.flag <| .arrived p.book.price, p.goto .closed) := by
      simp [Platform.step, Platform.goto]
    rw [Nat.add_zero, settle_step h₁, settle_step h₂, settle_closed rfl]
  case succ i hi =>
    have h : (p.goto <| .sleep (i + 1 : ℕ)).step pid m = some (m, p.goto <| .sleep i) := by
      have hp : (0 : ℤ) < i + 1 := by omega
      simp [Platform.step, Platform.goto, hp]
    have hk : k + (i + 1) + 2 = (k + i + 2) + 1 := by omega
    rw [hk, settle_step h, hi]

-- Both of the couriers would take as long as the way to the shop, so that the second one is chosen.
theorem settle_confirm (pid : ℕ) {f : ℕ} (hi : ∀ k, m.deliveryWaitingTime k = 0)
    (hf : p.book.flag = f) (hle : f ≤ 8) :
    Pool.settle platforms pid .run (k + f + 7) m (p.goto .readFirst) =
      ((((m.setWaitingTime .second f).note <| .committed pid .second f).note <|
        .sent pid f .waitFew).note <| .sent pid f <| .arrived p.book.price,
        { p with who := some .second, pc := .closed }) := by
  have ht : C.int f = f := C.int_eq (by omega) (by omega)
  have h₁ : (p.goto .readFirst).step pid m = some (m, p.goto <| .readSecond f) := by
    simp [Platform.step, Platform.goto, hi, hf, ht]
  have h₂ : (p.goto <| .readSecond f).step pid m = some (m, p.goto <| .choose f f) := by
    simp [Platform.step, Platform.goto, hi, hf, ht]
  have h₃ : (p.goto <| .choose f f).step pid m =
      some (m, { p with who := some .second, pc := .writeBack .second f }) := by
    have : (f : ℤ) < 30 := by omega
    simp [Platform.step, Platform.goto, this]
  have h₄ : ({ p with who := some .second, pc := .writeBack .second f } : Platform).step pid m =
      some ((m.setWaitingTime .second f).note <| .committed pid .second f,
        { p with who := some .second, pc := .sendWait f }) := by
    simp [Platform.step, Platform.goto, hf]
  have h₅ (m : Memory) :
      ({ p with who := some .second, pc := .sendWait f } : Platform).step pid m =
        some (m.note <| .sent pid f .waitFew,
          ({ p with who := some .second } : Platform).goto <| .sleep f) := by
    simp [Platform.step, Platform.goto, hf]
  have hk : k + f + 7 = (k + f + 2) + 1 + 1 + 1 + 1 + 1 := rfl
  rw [hk, settle_step h₁, settle_step h₂, settle_step h₃, settle_step h₄, settle_step (h₅ _),
    settle_sleep, hf]
  rfl

theorem replies_sent {f : ℤ} {r : Reply} : replies pid [.sent pid f r] = [r] := by
  simp [replies]

theorem Performs.send {r : Reply} (ms : List Event) (hm : m'.log = ms ++ m.log)
    (hr : replies pid (.sent pid p'.book.flag r :: ms) = (serve p.book x).fst)
    (hb : p'.book = (serve p.book x).snd.fst) (hn : (serve p.book x).snd.snd = .recv)
    (hs : Rests m' (p'.goto .recv)) :
    Performs pid m p x (m'.note <| .sent pid p'.book.flag r, p'.goto .recv) := by
  constructor
  case log   => exact ⟨_, by rw [Memory.note, hm, List.cons_append], hr⟩
  case book  => exact hb
  case next  => rw [hn]; rfl
  case rests => exact fun _ => ⟨hs.pc, hs.idle, hs.receive, hs.flag⟩

theorem order_flag {book : Book} {cs : List UInt8} {i : ℤ} (h : b.order cs i = some book) :
    0 ≤ book.flag ∧ book.flag ≤ 8 := by
  rw [Book.order] at h
  split at h
  case h_2 => contradiction
  case h_1 shop item _ =>
    split at h
    case isFalse => contradiction
    case isTrue  =>
      have hf : 0 ≤ shop.flag ∧ shop.flag ≤ 8 := by cases shop <;> decide
      cases h
      exact hf

theorem Performs.order (h : Rests m p) : Performs pid m p (.order item n) <|
    Pool.settle platforms pid .run (k + 2) m <| received p (.order item n) := by
  have hf : (scanOrder ((Request.order item n).text ++ ascii "\n")).fits := by
    rw [scanOrder_eq]
    simpa [Scanned.fits, Nat.lt_succ_iff] using ⟨by decide, item.fits⟩
  have hc : ¬((Request.order item n).text ++ ascii "\n" = ascii "cancel\n" ∨
      (Request.order item n).text ++ ascii "\n" = ascii "No\n") :=
    not_or.mpr ⟨Request.order_ne (by decide) _, Request.order_ne (by decide) _⟩
  have hs := step_received pid m p (.order item n)
  rw [Platform.handle, if_neg hc, if_neg (Request.order_ne (by decide) _),
    if_neg (Request.order_ne (by decide) _), if_neg (Request.order_ne (by decide) _),
    if_neg (not_not_intro hf), scanOrder_eq, if_pos rfl] at hs
  have hb : (received p (.order item n)).book = p.book := rfl
  cases hn : p.book.order item.text (atoi n.text)
  case none =>
    simp only [hb, hn] at hs
    rw [settle_step hs, settle_send rfl]
    have ho := serve_reject hn
    refine .send [] rfl ?_ ?_ ?_ ⟨rfl, h.idle, received_length _, h.flag⟩
    case refine_1 => rw [ho, replies_sent]
    case refine_2 => rw [ho]; rfl
    case refine_3 => rw [ho]
  case some book =>
    simp only [hb, hn] at hs
    rw [settle_step hs, settle_send rfl]
    have ho := serve_accept hn
    refine .send [] rfl ?_ ?_ ?_ ⟨rfl, h.idle, received_length _, order_flag hn⟩
    case refine_1 => rw [ho, replies_sent]; rfl
    case refine_2 => rw [ho]
    case refine_3 => rw [ho]

-- Sixteen statements are enough for every message.
theorem performs (pid : ℕ) (h : Rests m p) (hk : 16 ≤ k) (x : Request) :
    Performs pid m p x <| Pool.settle platforms pid .run k m <| received p x := by
  have hs := step_received pid m p x
  cases x
  case order item n =>
    obtain ⟨k, rfl⟩ := Nat.exists_eq_add_of_le' (by omega : 2 ≤ k)
    exact .order h
  case shopList =>
    obtain ⟨k, rfl⟩ := Nat.exists_eq_add_of_le' (by omega : 2 ≤ k)
    have hs : (received p .shopList).step pid m =
        some (m, (received p .shopList).goto <| .send .shopList) := hs
    rw [settle_step hs, settle_send rfl]
    refine .send [] rfl ?_ rfl rfl ⟨rfl, h.idle, received_length _, h.flag⟩
    exact replies_sent
  case cancel =>
    obtain ⟨k, rfl⟩ := Nat.exists_eq_add_of_le' (by omega : 1 ≤ k)
    have hs : (received p .cancel).step pid m = some (m, (received p .cancel).goto .closed) := hs
    rw [settle_step hs, settle_closed rfl]
    exact ⟨⟨[], rfl, rfl⟩, rfl, rfl, nofun⟩
  case confirm =>
    have hc : (received p .confirm).step pid m = some (if p.book.price = 0
        then (m.note <| .confirmed pid 0, (received p .confirm).goto <| .send .pleaseOrder)
        else (m.note <| .confirmed pid p.book.price, (received p .confirm).goto .readFirst)) := hs
    by_cases hp : p.book.price = 0
    case pos =>
      obtain ⟨k, rfl⟩ := Nat.exists_eq_add_of_le' (by omega : 2 ≤ k)
      have ho : serve p.book .confirm = ([.pleaseOrder], p.book, .recv) := by simp [serve, hp]
      rw [if_pos hp] at hc
      rw [settle_step hc, settle_send rfl]
      refine .send [.confirmed pid 0] rfl ?_ ?_ ?_ ⟨rfl, h.idle, received_length _, h.flag⟩
      case refine_1 => rw [ho]; simp [replies]
      case refine_2 => rw [ho]; rfl
      case refine_3 => rw [ho]
    case neg =>
      have ho : serve p.book .confirm = ([.waitFew, .arrived p.book.price], p.book, .close) := by
        simp [serve, hp]
      obtain ⟨f, hf⟩ := Int.eq_ofNat_of_zero_le h.flag.left
      have hle : f ≤ 8 := by have := h.flag.right; omega
      obtain ⟨k, rfl⟩ := Nat.exists_eq_add_of_le' (by omega : f + 7 + 1 ≤ k)
      rw [if_neg hp] at hc
      have hr := settle_confirm (k := k) (m := m.note <| .confirmed pid p.book.price)
        (p := received p .confirm) pid h.idle hf hle
      have hk : k + (f + 7 + 1) = (k + f + 7) + 1 := by omega
      rw [hk, settle_step hc, hr]
      constructor
      case log   => exact ⟨[_, _, _, _], rfl, by rw [ho]; simp [replies]; rfl⟩
      case book  => rw [ho]; rfl
      case next  => rw [ho]; rfl
      case rests => rw [ho]; nofun

theorem turns_ended (h : p.pc ≠ .recv) : p.turns pid k m xs = [] := by
  cases xs
  case nil  => rfl
  case cons => simp [Platform.turns, Platform.input, h]

-- A session of the platform is a session, as long as it is the only one.
theorem turns_platform (h : Rests m p) (hk : 16 ≤ k) : p.turns pid k m xs = turns p.book xs := by
  induction xs generalizing m p
  case nil => rfl
  case cons x xs hi =>
    have hs := performs pid h hk x
    obtain ⟨es, hl, hr⟩ := hs.log
    have ht : List.take (List.length (es ++ m.log) - m.log.length) (es ++ m.log) = es := by
      simp
    simp only [Platform.turns, input_pad h, turns, hl, ht, hr, hs.book, hs.next]
    refine congrArg _ ?_
    by_cases hn : (serve p.book x).snd.snd = .recv
    case pos => rw [if_pos hn, hi (hs.rests hn), hs.book]
    case neg =>
      have hpc := hs.next
      refine (turns_ended ?_).trans (if_neg hn).symm
      intro hc
      rw [hc] at hpc
      exact hn (Option.some.inj hpc).symm

end Hw3

-- The first connection of the server and a session of the platform cannot be told apart by the
-- messages of a customer who never has to wait for others.
theorem same_session (pid : ℕ) (hi : ∀ k, m.deliveryWaitingTime k = 0) (hk : 16 ≤ k)
    (xs : List Request) :
    Platform.start.turns pid k m xs = Hw2.Process.initial.accept.turns xs := by
  have h₃ : Rests m .start := ⟨rfl, hi, List.length_replicate, by decide⟩
  have h₂ : Ready Hw2.Process.initial.accept := ⟨.initial, rfl⟩
  rw [turns_platform h₃ hk, turns_process h₂]
  rfl

-- Three cups of tea.
def threeTeas : List Request :=
  [.order ⟨ascii "tea", by decide, by simp [ascii, isspace], by decide⟩
    ⟨false, ascii "3", by simp [ascii, isdigit], by decide⟩, .confirm]

theorem same_session_tea : Platform.start.turns 0 16 State.initial.mem threeTeas =
    Hw2.Process.initial.accept.turns threeTeas :=
  same_session 0 (fun _ => rfl) le_rfl threeTeas

end Session
