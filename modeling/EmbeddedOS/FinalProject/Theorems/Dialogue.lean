import EmbeddedOS.FinalProject.Theorems.Alone
import EmbeddedOS.FinalProject.Theorems.Fees
import EmbeddedOS.Library.Inevitable

open C Text

namespace Parking.Dialogue

variable {m m' : Memory} {pid : ℕ} {p : Plate} {i : Slot} {rodata : List UInt8}
variable {d : Dialogue} {y' : Payment} {P : Dialogue → Prop}

-- The loop of the client has been left, and no reply of the client has been refused.
def Over (pid : ℕ) (m : Memory) (d : Dialogue) : Prop :=
  d.client.ended ∧ d.mem.log.count (.replied pid .wrongAmount) =
    m.log.count (.replied pid .wrongAmount)

theorem serverStep_of_move (h : d.payment.Move pid d.mem m' y') :
    d.serverStep pid rodata = some { d with
      mem := m', payment := y',
      records := d.records ++ (d.payment.record? rodata d.mem).toList } := by
  have hn : ∀ q, d.payment.pc ≠ .await q := by cases h <;> simp [*]
  unfold serverStep
  split
  case h_1 q hq => exact absurd hq (hn q)
  case h_2      => rw [h.step, Option.map_some]

theorem clientStep_waiting (h : d.recv? = none) : d.clientStep = none := by
  unfold clientStep
  split
  case h_1 | h_2 => rw [h, Option.map_none]
  all_goals rfl

-- A client that waits for a record leaves the turn to the server.
theorem inevitable_move {pc pc' : Payment.Pc} {client : Client}
    {replies : List (List UInt8)} (hP : ∀ d, P d → d.client.ended) (hc : client.ended = false)
    (hn : Payment.closed { plate := p, pc } = false)
    (h : Payment.Move pid m { plate := p, pc } m' { plate := p, pc := pc' }) :
    (dialogue pid rodata).Inevitable P ⟨m, { plate := p, pc }, client, [], replies⟩ ↔
      (dialogue pid rodata).Inevitable P ⟨m', { plate := p, pc := pc' }, client,
        (Payment.record? rodata m { plate := p, pc }).toList, replies⟩ := by
  apply Machine.Inevitable.iff_of_step (a := .server)
  case hp => exact fun hp => by simpa [hc] using hP _ hp
  case h  => exact serverStep_of_move h
  case ho =>
    intro b hb
    cases b
    case server => contradiction
    case client =>
      exact clientStep_waiting <| by simp only [recv?, hn, Bool.false_eq_true, if_false]

theorem fee_fits (m : Memory) (i : Slot) :
    -2 ^ 31 ≤ (Payment.quoteFor m i).fee ∧ (Payment.quoteFor m i).fee < 2 ^ 31 :=
  C.int_fits _

theorem fee_length_le (m : Memory) (i : Slot) : (decimal (Payment.quoteFor m i).fee).length ≤ 11 :=
  decimal_length_le (fee_fits m i).left (fee_fits m i).right

theorem buf_quoteFor (m : Memory) (i : Slot) :
    (Payment.quoteFor m i).buf = ascii "Fee:" ++ answerTo (Payment.quoteFor m i).fee :=
  sprintf_fee (fee_length_le m i)

-- The quote once its answer has been read.
def answered (m : Memory) (i : Slot) : Quote :=
  (Payment.quoteFor m i).read (answerTo (Payment.quoteFor m i).fee)

-- The server accepts this answer.
theorem serverStep_answer {replies : List (List UInt8)} {client : Client} :
    serverStep pid rodata ⟨m', { plate := p, pc := .await (Payment.quoteFor m i) }, client, [],
        answerTo (Payment.quoteFor m i).fee :: replies⟩ =
      some ⟨m', { plate := p, pc := .acquireMark (answered m i) }, client, [], replies⟩ := by
  have ha : atoi (answered m i).buf = (answered m i).fee :=
    atoi_answerTo (fee_fits m i).left (fee_fits m i).right
  have hb : behindNumber (answered m i).buf ≠ [] := behindNumber_answerTo
  rw [answered] at ha hb ⊢
  simp only [serverStep, Payment.read, Payment.compare, if_neg hb, if_pos ha, Option.map_some]
  rfl

theorem inevitable_quote (hP : ∀ d, P d → d.client.ended) :
    (dialogue pid rodata).Inevitable P ⟨m', { plate := p, pc := .await (Payment.quoteFor m i) },
        .data, [(Payment.quoteFor m i).buf], []⟩ ↔
      (dialogue pid rodata).Inevitable P ⟨m', { plate := p, pc := .await (Payment.quoteFor m i) },
        .reply, [], [answerTo (Payment.quoteFor m i).fee]⟩ := by
  rw [buf_quoteFor]
  apply Machine.Inevitable.iff_of_step (a := .client)
  case hp => exact fun hp => by simpa [Client.ended] using hP _ hp
  case h  => exact clientStep_quote (fee_length_le m i)
  case ho =>
    intro b hb
    cases b
    case server => rfl
    case client => contradiction

theorem inevitable_answer (hP : ∀ d, P d → d.client.ended) :
    (dialogue pid rodata).Inevitable P ⟨m', { plate := p, pc := .await (Payment.quoteFor m i) },
        .reply, [], [answerTo (Payment.quoteFor m i).fee]⟩ ↔
      (dialogue pid rodata).Inevitable P ⟨m', { plate := p, pc := .acquireMark (answered m i) },
        .reply, [], []⟩ := by
  apply Machine.Inevitable.iff_of_step (a := .server)
  case hp => exact fun hp => by simpa [Client.ended] using hP _ hp
  case h  =>
    have hs : serverStep pid rodata ⟨m', { plate := p, pc := .await (Payment.quoteFor m i) },
      .reply, [], [answerTo (Payment.quoteFor m i).fee]⟩ = _ := serverStep_answer
    exact hs
  case ho =>
    intro b hb
    cases b
    case server => contradiction
    case client => rfl

-- Up to the accepted answer there is only one way to go.
theorem inevitable_accepted (hP : ∀ d, P d → d.client.ended)
    (hl : m.lookup p = some i) (hc : 0 < m.semCounting) :
    (dialogue pid rodata).Inevitable P (start m p) ↔
      (dialogue pid rodata).Inevitable P ⟨(m.handle pid (.pay p)).fst,
        { plate := p, pc := .acquireMark (answered m i) }, .reply, [], []⟩ := by
  rw [Memory.handle_pay_found hl hc]
  change (dialogue pid rodata).Inevitable P
    ⟨m, { plate := p, pc := .acquireCounting }, .data, [], []⟩ ↔ _
  refine Iff.trans (inevitable_move hP rfl rfl (.acquireCounting rfl hc)) ?_
  refine Iff.trans (inevitable_move hP rfl rfl (.found i rfl hl)) ?_
  refine Iff.trans (inevitable_move hP rfl rfl (.quote i rfl)) ?_
  refine Iff.trans (inevitable_move hP rfl rfl (.writeFee _ rfl)) ?_
  exact (inevitable_quote hP).trans (inevitable_answer hP)

theorem not_mem_buf_answered : 87 ∉ (answered m i).buf := by
  change 87 ∉ answerTo (Payment.quoteFor m i).fee ++ (Payment.quoteFor m i).buf.drop _
  rw [buf_quoteFor]
  intro h
  rcases List.mem_append.mp h with h | h
  case inl => exact not_mem_answerTo h
  case inr =>
    rcases List.mem_append.mp (List.mem_of_mem_drop h) with h | h
    case inl => exact absurd h (by decide)
    case inr => exact not_mem_answerTo h

-- A record with which the client leaves its loop, whatever else the server still does.
theorem inevitable_last {record : List UInt8} (h : ∀ (m : Memory) (y : Payment),
      ∃ client : Client, client.ended ∧
        clientStep ⟨m, y, .reply, [record], []⟩ = some ⟨m, y, client, [], []⟩)
    (hm : m'.log.count (.replied pid .wrongAmount) = m.log.count (.replied pid .wrongAmount)) :
    (dialogue pid rodata).Inevitable (Over pid m)
      ⟨m', { plate := p, pc := .releaseCounting }, .reply, [record], []⟩ := by
  have hc : ∀ (m'' : Memory) (y : Payment), m''.log = m'.log → ∀ d,
      (dialogue pid rodata).step ⟨m'', y, .reply, [record], []⟩ .client = some d →
        (dialogue pid rodata).Inevitable (Over pid m) d := by
    intro m'' y hl d hd
    have ⟨client, hc, hs⟩ := h m'' y
    cases Option.some.inj <| hs.symm.trans hd
    exact .now ⟨hc, by rw [hl, hm]⟩
  have hi : ∀ (m'' : Memory) (y : Payment),
      ((dialogue pid rodata).step ⟨m'', y, .reply, [record], []⟩ .client).isSome := by
    intro m'' y
    have ⟨client, hc, hs⟩ := h m'' y
    simp [dialogue, hs]
  refine .later ⟨.client, hi _ _⟩ fun a d hd => ?_
  cases a
  case client => exact hc _ _ rfl d hd
  case server =>
    have hs : serverStep pid rodata ⟨m', { plate := p, pc := .releaseCounting }, .reply, [record],
        []⟩ = some ⟨m'.unlockCounting, { plate := p, pc := .exited }, .reply, [record], []⟩ :=
      serverStep_of_move (.releaseCounting rfl)
    cases Option.some.inj <| hs.symm.trans hd
    refine .later ⟨.client, hi _ _⟩ fun a d hd => ?_
    cases a
    case client => exact hc m'.unlockCounting _ rfl d hd
    case server => contradiction

-- A payment that has accepted its answer comes to its end, if the slot still has the plate.
theorem inevitable_paid {q : Quote} (hs : 0 < m'.semMutex) (hb : 87 ∉ q.buf)
    (hp : (m'.car q.slot).licencePlate = p.chars)
    (hm : m'.log.count (.replied pid .wrongAmount) = m.log.count (.replied pid .wrongAmount)) :
    (dialogue pid rodata).Inevitable (Over pid m)
      ⟨m', { plate := p, pc := .acquireMark q }, .reply, [], []⟩ := by
  have hP : ∀ d, Over pid m d → d.client.ended := fun d h => h.left
  refine Iff.mpr (inevitable_move hP rfl rfl (.acquireMark _ rfl hs)) ?_
  refine Iff.mpr (inevitable_move hP rfl rfl (.mark _ rfl)) ?_
  refine Iff.mpr (inevitable_move hP rfl rfl (.releaseMark _ rfl)) ?_
  refine Iff.mpr (inevitable_move hP rfl rfl (.acquireCash _ rfl (Nat.succ_pos _))) ?_
  refine Iff.mpr (inevitable_move hP rfl rfl (.loadCash _ rfl)) ?_
  refine Iff.mpr (inevitable_move hP rfl rfl (.addCash _ _ rfl)) ?_
  refine Iff.mpr (inevitable_move hP rfl rfl (.storeCash _ _ rfl)) ?_
  refine Iff.mpr (inevitable_move hP rfl rfl (.releaseCash _ rfl)) ?_
  refine Iff.mpr (inevitable_move hP rfl rfl (.writeSuccess _ rfl)) ?_
  have hr : ∀ m'' : Memory, (m''.car q.slot).licencePlate = p.chars → ∀ (m : Memory) (y : Payment),
      ∃ client : Client, client.ended ∧ clientStep ⟨m, y, .reply, (Payment.record? rodata m''
        { plate := p, pc := .writeSuccess q }).toList, []⟩ = some ⟨m, y, client, [], []⟩ := by
    intro m'' hp m y
    simp only [Payment.record?, hp, Option.toList_some]
    exact clientStep_success hb
  exact inevitable_last (hr _ (by simp [hp])) (by simp [hm])

-- A payment that finds its car and is held up by no semaphore comes to its end.
theorem inevitable_over (hl : m.lookup p = some i) (hc : 0 < m.semCounting)
    (hs : 0 < m.semMutex) : (dialogue pid rodata).Inevitable (Over pid m) (start m p) := by
  rw [inevitable_accepted (fun d h => h.left) hl hc, Memory.handle_pay_found hl hc]
  apply inevitable_paid
  case hs => exact hs
  case hb => exact not_mem_buf_answered
  case hp => simp [answered, Quote.read, Memory.lookup_eq_some hl]
  case hm => simp

-- The record that says that the car was not found.
def notFound : List UInt8 :=
  sprintf (.replicate 256 0) Reply.cannotFind.text

theorem decode_notFound : ∃ cs, decode notFound = some cs ∧ split? "Fee:".toList cs = none := by
  have ht : ∀ b ∈ Reply.cannotFind.text ++ [0], b.toNat < 128 ∧ b ≠ 70 := by
    simp [Reply.text, ascii]
  have hb : ∀ b ∈ notFound, b.toNat < 128 ∧ b ≠ 70 := by
    intro b hb
    rcases List.mem_append.mp hb with hb | hb
    case inl => exact ht b hb
    case inr => cases List.eq_of_mem_replicate (List.mem_of_mem_drop hb); decide
  refine ⟨chars notFound, decode_chars fun b h => (hb b h).left, ?_⟩
  have hf : 'F' ∉ chars notFound := by
    intro h
    obtain ⟨b, h, he⟩ := mem_chars h
    exact (hb b h).right <| UInt8.toNat_inj.mp he
  rw [split?, cut?_eq_none (by decide) hf, Option.map_none]

-- A payment that has not found the car, with a client that knows nothing but to read on.
structure Lost (p : Plate) (d : Dialogue) : Prop where
  client  : d.client = .data
  plate   : d.payment.plate = p
  lookup  : d.mem.lookup p = none
  pc      : d.payment.pc ∈ [.acquireCounting, .scan, .writeNotFound, .releaseCounting, .exited]
  records : ∀ record ∈ d.records, record = notFound

theorem Lost.clientStep (h : Lost p d) (hs : d.clientStep = some d') : Lost p d' := by
  have hr : ∀ bytes d'', d.recv? = some (bytes, d'') →
      (∃ cs, decode bytes = some cs ∧ split? "Fee:".toList cs = none) ∧ Lost p d'' := by
    intro bytes d'' hr
    unfold recv? at hr
    split at hr
    case h_1 record records hd =>
      cases hr
      have hn := h.records
      rw [hd, List.forall_mem_cons] at hn
      exact ⟨hn.left ▸ decode_notFound, h.client, h.plate, h.lookup, h.pc, hn.right⟩
    case h_2 =>
      split at hr
      case isFalse => contradiction
      case isTrue  => cases hr; exact ⟨⟨[], decode_utf8 [], rfl⟩, h⟩
  simp only [Dialogue.clientStep, h.client, Option.map_eq_some_iff] at hs
  obtain ⟨⟨bytes, d''⟩, hd, hs⟩ := hs
  obtain ⟨⟨cs, hc, hn⟩, hl⟩ := hr _ _ hd
  simp only [hc, hn] at hs
  exact hs ▸ hl

theorem Lost.serverStep (h : Lost p d) (hs : d.serverStep pid rodata = some d') : Lost p d' := by
  have hn : ∀ q, d.payment.pc ≠ .await q := fun q hq => absurd h.pc (by simp [hq])
  have hr : ∀ record ∈ (d.payment.record? rodata d.mem).toList, record = notFound := by
    have hp := h.pc
    unfold Payment.record?
    split
    case h_5 => exact fun record hr => List.mem_singleton.mp hr
    case h_6 => simp
    all_goals simp_all
  unfold Dialogue.serverStep at hs
  split at hs
  case h_1 q hq => exact absurd hq (hn q)
  case h_2 =>
    obtain ⟨⟨m', y'⟩, hm, rfl⟩ := Option.map_eq_some_iff.mp hs
    have hd : ∀ record ∈ d.records ++ (d.payment.record? rodata d.mem).toList,
        record = notFound :=
      List.forall_mem_append.mpr ⟨h.records, hr⟩
    cases Payment.Move.of_step hm
    case acquireCounting | notFound | writeNotFound | releaseCounting =>
      exact ⟨h.client, h.plate, h.lookup, by simp, hd⟩
    case found i hpc hl => simp [h.plate, h.lookup] at hl
    all_goals
      have := h.pc
      simp [*] at this

theorem Lost.start (h : m.lookup p = none) : Lost p (start m p) :=
  ⟨rfl, rfl, h, List.mem_cons_self, by simp [Dialogue.start]⟩

-- A client whose car is not found reads on for ever.
theorem not_inevitable_of_lost {P : Dialogue → Prop} (hP : ∀ d, P d → d.client.ended)
    (h : m.lookup p = none) : ¬(dialogue pid rodata).Inevitable P (start m p) := by
  apply Machine.Inevitable.not_of_invariant (I := Lost p) (Lost.start h)
  case hs =>
    intro d a d' hd hs
    cases a
    case server => exact hd.serverStep hs
    case client => exact hd.clientStep hs
  case hI =>
    intro d hd hp
    have he := hP d hp
    rw [hd.client] at he
    contradiction

-- A payment that a semaphore holds up leaves its client waiting.
theorem not_inevitable_of_blocked (h : m.semCounting = 0) :
    ¬(dialogue pid rodata).Inevitable (Over pid m) (start m p) := by
  apply Machine.Inevitable.not_of_stuck
  case hp => exact fun hp => by simpa [Dialogue.start, Client.ended] using hp.left
  case h =>
    intro a
    cases a
    case server =>
      simp [dialogue, Dialogue.serverStep, Dialogue.start, Payment.step, Memory.lockCounting, h]
    case client => rfl

theorem not_inevitable_of_held (hl : m.lookup p = some i) (hc : 0 < m.semCounting)
    (h : m.semMutex = 0) : ¬(dialogue pid rodata).Inevitable (Over pid m) (start m p) := by
  rw [inevitable_accepted (fun d h => h.left) hl hc]
  have hm : (m.handle pid (.pay p)).fst.semMutex = 0 := by simp [Memory.handle_pay_found hl hc, h]
  apply Machine.Inevitable.not_of_stuck
  case hp => exact fun hp => by simpa [Client.ended] using hp.left
  case h =>
    intro a
    cases a
    case server => simp [dialogue, Dialogue.serverStep, Payment.step, Memory.lockMutex, hm]
    case client => rfl

-- The loop of the client comes to its end, with the first answer accepted, exactly if the car is
-- found and the payment is not held up.
theorem inevitable_iff (m : Memory) (pid : ℕ) (p : Plate) (rodata : List UInt8) :
    (dialogue pid rodata).Inevitable (Over pid m) (start m p) ↔
      (∃ i, m.lookup p = some i) ∧ 0 < m.semCounting ∧ 0 < m.semMutex := by
  constructor
  case mpr => exact fun ⟨⟨i, hl⟩, hc, hs⟩ => inevitable_over hl hc hs
  case mp =>
    intro h
    have hc : 0 < m.semCounting :=
      Nat.pos_of_ne_zero fun hc => not_inevitable_of_blocked hc h
    cases hl : m.lookup p
    case none => exact absurd h <| not_inevitable_of_lost (fun d h => h.left) hl
    case some i =>
      exact ⟨⟨i, rfl⟩, hc, Nat.pos_of_ne_zero fun hs => not_inevitable_of_held hl hc hs h⟩

-- A car that never came. The server answers `Cannot find your car` and closes the connection.
theorem inevitable_broken : ¬ ∀ (m : Memory) (pid : ℕ) (p : Plate) (rodata : List UInt8),
    0 < m.semCounting → 0 < m.semMutex →
      (dialogue pid rodata).Inevitable (·.client.ended) (start m p) := by
  intro h
  refine not_inevitable_of_lost (fun d h => h) ?_ (h (.initial 0) 1 .a [] (by decide) (by decide))
  decide

end Parking.Dialogue
