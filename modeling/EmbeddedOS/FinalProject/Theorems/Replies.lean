import EmbeddedOS.FinalProject.Theorems.Alone
import EmbeddedOS.Library.Decimal

open C

namespace Parking

-- How a payment fares with a list of replies: it takes one of them for its fee, with this many in
-- front of it, it refuses all of them, or it is stopped at the end of its buffer.
inductive Fate
  | accepts (n : ℕ)
  | refuses
  | faults
deriving DecidableEq

-- With one more reply that is refused first.
def Fate.later : Fate → Fate
  | accepts n => accepts (n + 1)
  | refuses   => refuses
  | faults    => faults

def Fate.accepted : Fate → Bool
  | accepts _        => true
  | refuses | faults => false

-- What the own bytes of the replies call for: the first one that is the fee is taken.
def Fate.own (fee : ℤ) (rs : List (List UInt8)) : Fate :=
  (rs.findIdx? (atoi · = fee)).elim .refuses .accepts

-- A payment that is alone gets these replies one by one and goes on as far as it can after each of
-- them. This is how it fares, and the memory in the end.
def takes (pid : ℕ) : Memory → Child → List (List UInt8) → Fate × Memory
  | m, _, []      => (.refuses, m)
  | m, c, r :: rs =>
    match c.step pid m (.reply r) with
    | none        => (.refuses, m)
    | some (m, c) =>
      let s := Pool.settle server pid .run 10 m c
      if s.snd.task.exited then (.accepts 0, s.fst)
      else if s.snd.task.ended then (.faults, s.fst)
      else (takes pid s.fst s.snd rs).map .later id

-- The payment takes the first reply that is the fee, and it adds the fee to `*cash` then. It
-- refuses the replies in front of it, and all of them if there is none.
structure Accepts (pid : ℕ) (m : Memory) (c : Child) (fee : ℤ) (rs : List (List UInt8)) : Prop where
  fate : (takes pid m c rs).fst = .own fee rs
  cash : (takes pid m c rs).snd.cash =
    if (Fate.own fee rs).accepted then C.int (m.cash + fee) else m.cash

namespace Fate

variable {fee : ℤ} {r : List UInt8} {rs : List (List UInt8)} {f g : Fate}

theorem own_cons : own fee (r :: rs) = if atoi r = fee then .accepts 0 else (own fee rs).later := by
  simp only [own, List.findIdx?_cons, decide_eq_true_eq]
  split
  case isTrue  => rfl
  case isFalse => cases rs.findIdx? (atoi · = fee) <;> rfl

@[simp]
theorem accepted_later : f.later.accepted = f.accepted := by
  cases f <;> rfl

theorem later_injective : Function.Injective later := by
  intro f g h
  cases f <;> cases g <;> simp_all [later]

theorem own_ne_faults : own fee rs ≠ .faults := by
  unfold own
  cases rs.findIdx? (atoi · = fee) <;> exact nofun

end Fate

namespace Quote

-- The buffer in front of the next reply.
def again (q : Quote) : Quote :=
  { q with buf := sprintf q.buf (Reply.feeAgain q.fee).text }

-- What the buffer still holds behind a reply.
def behind (q : Quote) (r : List UInt8) : List UInt8 :=
  q.buf.drop r.length

-- The number of a reply ends inside of the reply, or the buffer goes on behind the reply with a
-- byte that does not continue it.
def ReadsReply (q : Quote) (r : List UInt8) : Prop :=
  behindNumber r ≠ [] ∨ (q.behind r ≠ [] ∧ ¬Continues r (q.behind r))

-- This holds of all replies up to the first one that is the fee.
def ReadsReplies : Quote → List (List UInt8) → Prop
  | _, []      => True
  | q, r :: rs => q.ReadsReply r ∧ (atoi r ≠ q.fee → (q.read r).again.ReadsReplies rs)

-- Up to the first reply that is the fee, the number always ends inside of the buffer.
def EndsReplies : Quote → List (List UInt8) → Prop
  | _, []      => True
  | q, r :: rs =>
    behindNumber (q.read r).buf ≠ [] ∧ (atoi r ≠ q.fee → (q.read r).again.EndsReplies rs)

-- The loop of the payment, as a function of the replies.
def takes : Quote → List (List UInt8) → Fate
  | _, []      => .refuses
  | q, r :: rs =>
    if behindNumber (q.read r).buf = [] then .faults
    else if atoi (q.read r).buf = q.fee then .accepts 0
    else ((q.read r).again.takes rs).later

variable {q : Quote} {r : List UInt8} {rs : List (List UInt8)}

-- A reply that the payment reads as it is: its number ends, and it is the number of its own bytes.
theorem ReadsReply.read (h : q.ReadsReply r) :
    behindNumber (q.read r).buf ≠ [] ∧ atoi (q.read r).buf = atoi r := by
  have hs : behindNumber r ≠ [] ∨ ¬Continues r (q.behind r) := h.imp id And.right
  have hb : behindNumber (q.read r).buf = behindNumber r ++ q.behind r :=
    behindNumber_append_of_stop hs
  refine ⟨?_, atoi_append hs⟩
  rw [hb]
  rcases h with h | ⟨h, _⟩
  case inl => exact List.append_ne_nil_of_left_ne_nil h _
  case inr => exact List.append_ne_nil_of_right_ne_nil _ h

-- The loop takes the first reply that is the fee if it reads all replies up to this one as they
-- are.
theorem takes_of_readsReplies (h : q.ReadsReplies rs) : q.takes rs = .own q.fee rs := by
  induction rs generalizing q
  case nil => rfl
  case cons r rs hi =>
    have ⟨hr, hs⟩ := h
    have ⟨hb, ha⟩ := hr.read
    have hf : (q.read r).again.fee = q.fee := rfl
    rw [takes, if_neg hb, ha, Fate.own_cons]
    split
    case isTrue      => rfl
    case isFalse hne => rw [hi (hs hne), hf]

-- It can only do so if it never leaves the buffer.
theorem endsReplies_of_takes (h : q.takes rs = .own q.fee rs) : q.EndsReplies rs := by
  induction rs generalizing q
  case nil => trivial
  case cons r rs hi =>
    rw [takes] at h
    split at h
    case isTrue     => exact absurd h.symm Fate.own_ne_faults
    case isFalse hb =>
      refine ⟨hb, fun hne => hi ?_⟩
      have hf : (q.read r).again.fee = q.fee := rfl
      rw [Fate.own_cons, if_neg hne] at h
      split at h
      case isTrue  => cases ho : Fate.own q.fee rs <;> simp [ho, Fate.later] at h
      case isFalse => exact hf ▸ Fate.later_injective h

end Quote

variable {m : Memory} {pid : ℕ} {p : Plate} {q : Quote} {r : List UInt8} {rs : List (List UInt8)}
variable {i : Slot}

-- A reply that is accepted brings the payment to its end, a reply that is refused brings it back to
-- its `read`.
theorem settle_accepted (pid : ℕ) (p : Plate) (q : Quote) (hs : 0 < m.semMutex) :
    (Pool.settle server pid .run 10 m (payAt p (.acquireMark q))).fst.cash =
        C.int (m.cash + q.fee) ∧
      (Pool.settle server pid .run 10 m (payAt p (.acquireMark q))).snd = payAt p .exited := by
  rw [settle_pay (.acquireMark q rfl hs), settle_pay (.mark q rfl), settle_pay (.releaseMark q rfl),
    settle_pay (.acquireCash q rfl (by simp)), settle_pay (.loadCash q rfl),
    settle_pay (.addCash q _ rfl), settle_pay (.storeCash q _ rfl), settle_pay (.releaseCash q rfl),
    settle_pay (.writeSuccess q rfl), settle_pay (.releaseCounting rfl)]
  exact ⟨rfl, rfl⟩

theorem settle_refused :
    Pool.settle server pid .run 10 m (payAt p (.writeWrong q)) =
      ((m.note <| .replied pid .wrongAmount).note <| .replied pid <| .feeAgain q.fee,
        payAt p (.await q.again)) := by
  rw [settle_pay (.writeWrong q rfl), settle_pay (.writeFeeAgain q rfl), settle_pay_await]
  rfl

theorem step_faulted (hr : 1 ≤ r.length ∧ r.length ≤ 256) (hb : behindNumber (q.read r).buf = []) :
    (payAt p (.await q)).step pid m (.reply r) = some (m, payAt p .faulted) := by
  simp only [Child.step, if_pos hr, payAt, Task.read, Payment.read, Payment.compare, if_pos hb]
  rfl

theorem step_accepted (hr : 1 ≤ r.length ∧ r.length ≤ 256) (hb : behindNumber (q.read r).buf ≠ [])
    (h : atoi (q.read r).buf = q.fee) :
    (payAt p (.await q)).step pid m (.reply r) = some (m, payAt p (.acquireMark (q.read r))) := by
  have hf : atoi (q.read r).buf = (q.read r).fee := h
  simp only [Child.step, if_pos hr, payAt, Task.read, Payment.read, Payment.compare, if_neg hb,
    if_pos hf]
  rfl

theorem step_refused (hr : 1 ≤ r.length ∧ r.length ≤ 256) (hb : behindNumber (q.read r).buf ≠ [])
    (h : atoi (q.read r).buf ≠ q.fee) :
    (payAt p (.await q)).step pid m (.reply r) = some (m, payAt p (.writeWrong (q.read r))) := by
  have hf : atoi (q.read r).buf ≠ (q.read r).fee := h
  simp only [Child.step, if_pos hr, payAt, Task.read, Payment.read, Payment.compare, if_neg hb,
    if_neg hf]
  rfl

theorem takes_eq (pid : ℕ) (p : Plate) (q : Quote) (hs : 0 < m.semMutex)
    (hr : ∀ r ∈ rs, 1 ≤ r.length ∧ r.length ≤ 256) :
    (takes pid m (payAt p (.await q)) rs).fst = q.takes rs ∧
      (takes pid m (payAt p (.await q)) rs).snd.cash =
        if (q.takes rs).accepted then C.int (m.cash + q.fee) else m.cash := by
  induction rs generalizing m q
  case nil => exact ⟨rfl, rfl⟩
  case cons r rs hi =>
    rw [List.forall_mem_cons] at hr
    rw [takes, Quote.takes]
    by_cases hb : behindNumber (q.read r).buf = []
    case pos =>
      have he : (payAt p .faulted).task.exited = false := rfl
      have hn : (payAt p .faulted).task.ended = true := rfl
      have hst : Pool.settle server pid .run 10 m (payAt p .faulted) = (m, payAt p .faulted) :=
        Pool.settle_of_stuck rfl
      simp [step_faulted hr.left hb, hst, he, hn, hb, Fate.accepted]
    case neg =>
      by_cases ha : atoi (q.read r).buf = q.fee
      case pos =>
        have ⟨hc, he⟩ := settle_accepted pid p (q.read r) hs
        have hx : (payAt p .exited).task.exited = true := rfl
        simp only [step_accepted hr.left hb ha, he, hx, hb, ha, if_true, if_false]
        exact ⟨trivial, hc⟩
      case neg =>
        have ⟨h₁, h₂⟩ := hi (m := (m.note <| .replied pid .wrongAmount).note <|
          .replied pid <| .feeAgain (q.read r).fee) (q := (q.read r).again) hs hr.right
        have he : (payAt p (.await (q.read r).again)).task.exited = false := rfl
        have hn : (payAt p (.await (q.read r).again)).task.ended = false := rfl
        simp only [step_refused hr.left hb ha, settle_refused, he, hn, hb, ha, if_false,
          Bool.false_eq_true]
        refine ⟨congrArg Fate.later h₁, ?_⟩
        have hf : (q.read r).again.fee = q.fee := rfl
        simpa [hf] using h₂

-- The fee that is quoted is accepted, and nothing else, if the payment reads the replies as they
-- are, and only if it never reads behind its buffer.
theorem accepts_of_readsReplies (hl : m.lookup p = some i) (hc : 0 < m.semCounting)
    (hs : 0 < m.semMutex) (hr : ∀ r ∈ rs, 1 ≤ r.length ∧ r.length ≤ 256) (pid : ℕ) :
    ((Payment.quoteFor m i).ReadsReplies rs → Accepts pid (m.handle pid (.pay p)).fst
      (m.handle pid (.pay p)).snd (Payment.quoteFor m i).fee rs) ∧
    (Accepts pid (m.handle pid (.pay p)).fst (m.handle pid (.pay p)).snd
      (Payment.quoteFor m i).fee rs → (Payment.quoteFor m i).EndsReplies rs) := by
  obtain ⟨m', hh, hm⟩ : ∃ m', m.handle pid (.pay p) =
      (m', payAt p (.await <| Payment.quoteFor m i)) ∧ m'.semMutex = m.semMutex :=
    ⟨_, Memory.handle_pay_found hl hc, rfl⟩
  have ⟨h₁, h₂⟩ := takes_eq pid p (Payment.quoteFor m i) (hm ▸ hs) hr
  rw [hh]
  constructor
  case left =>
    intro h
    have ht := Quote.takes_of_readsReplies h
    exact ⟨h₁.trans ht, ht ▸ h₂⟩
  case right => exact fun h => Quote.endsReplies_of_takes <| h₁.symm.trans h.fate

-- A car that has been in this slot for a while.
def Memory.stayed (i : Slot) (t : ℤ) : Memory :=
  { (Memory.initial 1700000000).park 0 .a i with clock := 1700000000 + t }

-- The client gets the fee right the second time, with no byte behind it, which makes the text
-- 'Fee:20$' into '20e:20$'.
set_option maxRecDepth 8000 in
theorem accepts_second_reply :
    Accepts 1 ((Memory.stayed 8 1).handle 1 (.pay .a)).fst
      ((Memory.stayed 8 1).handle 1 (.pay .a)).snd (Payment.quoteFor (.stayed 8 1) 8).fee
      [ascii "40\n", ascii "20"] :=
  (accepts_of_readsReplies (by decide) (by decide) (by decide) (by decide) 1).left
    ⟨.inl (by decide), fun _ => ⟨.inr ⟨by decide, by decide⟩, fun _ => trivial⟩⟩

-- The fee is 1200$. The reply '1200' makes the text 'Fee:1200' into '12001200'.
set_option maxRecDepth 8000 in
theorem accepts_broken : ¬ ∀ (m : Memory) (pid : ℕ) (p : Plate) (i : Slot) (rs : List (List UInt8)),
    m.lookup p = some i → 0 < m.semCounting → 0 < m.semMutex →
    (∀ r ∈ rs, 1 ≤ r.length ∧ r.length ≤ 256) → 0 ≤ (Payment.quoteFor m i).fee →
    Accepts pid (m.handle pid (.pay p)).fst (m.handle pid (.pay p)).snd
      (Payment.quoteFor m i).fee rs := by
  intro h
  have h := (h (.stayed 8 1770) 1 .a 8 [ascii "1200"] (by decide) (by decide) (by decide)
    (by decide) (by decide)).fate
  exact absurd h (by decide)

end Parking
