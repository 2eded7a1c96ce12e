import EmbeddedOS.FinalProject.Service
import EmbeddedOS.FinalProject.Theorems.Accept
import EmbeddedOS.FinalProject.Theorems.Malformed
import EmbeddedOS.Library.Lists
import EmbeddedOS.Library.Refinement

open C Unix

namespace Parking

-- A message that has the form of this request.
def Fields.Are {text : List UInt8} (f : Fields text) : Request → Prop
  | .entry n p => f.method = ascii "Entry" ∧ f.entryNum = n ∧ f.plate = p.chars
  | .exit p    => f.method = ascii "Exit" ∧ f.plate = p.chars
  | .pay p     => f.method = ascii "Pay" ∧ f.plate = p.chars

def Sent (bytes : List UInt8) (r : Request) : Prop :=
  ∃ text, string? (received bytes) = some text ∧ ∃ f : Fields text, f.Are r

theorem Fields.Are.mem_methods {text : List UInt8} {f : Fields text} {r : Request} (h : f.Are r) :
    f.method ∈ methods := by
  cases r
  case entry => simp [methods, h.left]
  case exit  => simp [methods, h.left]
  case pay   => simp [methods, show f.method = _ from h.left]

-- What the messages of the connections were when this child made this of the one it was forked for.
-- Where `accept` had failed there was none.
def Acceptor.Asks (m : Acceptor) (i : ℕ) (d : Dispatch) : Prop :=
  ∃ o method plate, m.served[i]? = some o ∧ (∀ n ∈ o, n < m.inbox.length) ∧
    method.length = 8 ∧ plate.length = 8 ∧
    ((Vars.fresh method plate).scan? ((o.bind (m.inbox[·]?)).getD [])).map Vars.dispatch = some d

-- The requests that have been asked for, and those that a run of `system` gets.
def asked? (s : Service) : Service.Action → Option Request
  | .sscanf i method plate =>
    match s.front.children[i]?.bind (·.proc.dispatch? method plate) with
    | some (.request r) => some r
    | _                 => none
  | _ => none

def spawned? : Action → Option Request
  | .spawn r => some r
  | _        => none

-- The children and the requests, in the order of the processes: each of them stems from one child,
-- and no two children stem from one connection.
structure Service.Dispatched (s : Service) (rs : List Request) : Prop where
  serving      : ∀ {i pid : ℕ}, s.stages[i]? = some (.serving pid) →
    ∃ r, rs[pid]? = some r ∧ s.front.main.Asks i (.request r)
  idle         : ∀ {i : ℕ}, s.stages[i]? = some .idle → s.front.main.Asks i .exit
  unique       : ∀ {i j pid : ℕ}, s.stages[i]? = some (.serving pid) →
    s.stages[j]? = some (.serving pid) → i = j
  exists_child : ∀ {pid : ℕ}, pid < rs.length → ∃ i : ℕ, s.stages[i]? = some (.serving pid)
  connections  : s.front.main.served.reduceOption.Nodup

variable {m m' : Acceptor} {s s' : Service} {i pid : ℕ} {d : Dispatch} {r : Request}
variable {bytes method plate : List UInt8} {rs : List Request} {st : Stage}

section Message

theorem Plate.ofArray?_eq {array chars : List UInt8} (ha : string? array = some chars)
    (hn : chars ≠ []) (hl : chars.length ≤ 7) :
    ∃ p, Plate.ofArray? array = some p ∧ p.chars = chars := by
  have h := And.intro hn <| And.intro hl <| zero_not_mem_string? ha
  exact ⟨⟨chars, hn, hl, h.right.right⟩, by rw [ofArray?, ha, Option.bind_some, dif_pos h], rfl⟩

-- With all three parts in the variables it is the method that decides.
theorem dispatch_of_hold {v : Vars} {text : List UInt8} {f : Fields text} (h : v.Hold f) :
    (∃ r, v.dispatch = .request r ∧ f.Are r) ∨ v.dispatch = .exit ∧ f.method ∉ methods := by
  have ⟨p, hp, hc⟩ := Plate.ofArray?_eq h.plate.right f.plate_ne h.plate.left
  have he : ∀ t, equals v.method t = decide (f.method = ascii t) := by
    intro t
    simp [equals, h.method.right]
  simp only [Vars.dispatch, he, Dispatch.call, hp, Option.elim_some, decide_eq_true_eq]
  split_ifs with h₁ h₂ h₃
  case pos => exact .inl ⟨_, rfl, h₁, h.entryNum.symm, hc.symm⟩
  case pos => exact .inl ⟨_, rfl, h₂, hc.symm⟩
  case pos => exact .inl ⟨_, rfl, h₃, hc.symm⟩
  case neg => exact .inr ⟨rfl, by simp [methods, h₁, h₂, h₃]⟩

-- A regular message is split into its three parts, or the child exits.
theorem scan?_of_regular (h : Regular bytes) (hm : method.length = 8) (hp : plate.length = 8) :
    ∃ text v, string? (received bytes) = some text ∧
      (Vars.fresh method plate).scan? bytes = some v ∧
      ((∃ f : Fields text, v.Hold f) ∨ v.dispatch = .exit ∧ IsEmpty (Fields text)) := by
  obtain ⟨text, ht, hw, hl, hf, hr⟩ := h
  refine ⟨text, ?_⟩
  rw [scan?_eq ht]
  by_cases hn : Nonempty (Fields text)
  case pos =>
    obtain ⟨f⟩ := hn
    have hl := f.takeWhile_eq ▸ hl
    have hs₁ : f.method ⊆ text := f.takeWhile_eq ▸ List.takeWhile_subset _
    have hs₂ : f.plate ⊆ text := fun c hc => by rw [f.text_eq]; simp [hc]
    refine ⟨⟨sprintf method f.method, f.entryNum, sprintf plate f.plate⟩, ht, ?_, .inl ⟨f, ?_⟩⟩
    case refine_1 =>
      rw [f.sscanf?_eq, Vars.fresh, store?_eq hl hm, store?_eq (hf f) hp, Option.bind_some,
        Option.map_some]
    case refine_2 => exact ⟨⟨hl, string?_store _ ht hs₁⟩, rfl, hf f, string?_store _ ht hs₂⟩
  case neg =>
    have he := not_nonempty_iff.mp hn
    obtain ⟨n, hs⟩ := sscanf?_of_isEmpty he hw (.fresh method plate)
    rw [Vars.fresh, store?_eq hl hm, Option.map_some] at hs
    have hs' := string?_store method ht <| List.takeWhile_subset (· ≠ 33)
    exact ⟨_, ht, hs, .inr ⟨dispatch_of_not_mem hs' (mt hr hn), he⟩⟩

-- What a child makes of a regular message is what has been sent.
theorem sent_of_dispatch (h : Regular bytes) (hm : method.length = 8) (hp : plate.length = 8)
    (hd : ((Vars.fresh method plate).scan? bytes).map Vars.dispatch = some d) :
    (∀ r, d = .request r → Sent bytes r) ∧ (d = .exit → ∀ r, ¬Sent bytes r) := by
  obtain ⟨text, v, ht, hv, hf⟩ := scan?_of_regular h hm hp
  rw [hv] at hd
  cases hd
  rcases hf with ⟨f, hf⟩ | ⟨he, hf⟩
  case inl =>
    rcases dispatch_of_hold hf with ⟨r, hr, ha⟩ | ⟨he, hn⟩
    case inl =>
      refine ⟨fun r' h' => ⟨text, ht, f, ?_⟩, by simp [hr]⟩
      cases hr.symm.trans h'
      exact ha
    case inr =>
      refine ⟨by simp [he], fun _ r ⟨text', ht', f', ha⟩ => hn ?_⟩
      cases Option.some.inj <| ht.symm.trans ht'
      rw [← f.takeWhile_eq, f'.takeWhile_eq]
      exact ha.mem_methods
  case inr =>
    refine ⟨by simp [he], fun _ r ⟨text', ht', f', _⟩ => ?_⟩
    cases Option.some.inj <| ht.symm.trans ht'
    exact hf.elim f'

-- With a regular message, a child never stops at its `sscanf` and never serves an array without a
-- plate.
theorem dispatch_of_regular (h : Regular bytes) (hm : method.length = 8) (hp : plate.length = 8) :
    ∃ d, ((Vars.fresh method plate).scan? bytes).map Vars.dispatch = some d ∧
      (d = .exit ∨ ∃ r, d = .request r) := by
  obtain ⟨text, v, _, hv, hf⟩ := scan?_of_regular h hm hp
  refine ⟨v.dispatch, by rw [hv, Option.map_some], ?_⟩
  rcases hf with ⟨f, hf⟩ | ⟨he, _⟩
  case inl =>
    rcases dispatch_of_hold hf with ⟨r, hr, _⟩ | ⟨he, _⟩
    case inl => exact .inr ⟨r, hr⟩
    case inr => exact .inl he
  case inr => exact .inl he

end Message

section Front

theorem Acceptor.Asks.mono (h : m.Asks i d) (he : m.Extends m') : m'.Asks i d := by
  obtain ⟨o, method, plate, ho, hk, hm, hp, hd⟩ := h
  obtain ⟨t, ht⟩ := he.served
  obtain ⟨u, hu⟩ := he.inbox
  have hl := (List.getElem?_eq_some_iff.mp ho).fst
  refine ⟨o, method, plate, ?_, fun n hn => (hk n hn).trans_le he.inbox.length_le, hm, hp, ?_⟩
  case refine_1 => rw [← ht, List.getElem?_append_left hl, ho]
  case refine_2 =>
    cases o
    case none   => exact hd
    case some n =>
      rw [Option.bind_some] at hd ⊢
      rwa [← hu, List.getElem?_append_left (hk n rfl)]

theorem Received.Child.asks {c : Received} (h : c.Child m i) (hm : method.length = 8)
    (hp : plate.length = 8) (hd : c.dispatch? method plate = some d) : m.Asks i d := by
  obtain ⟨o, ho, hr⟩ := h
  refine ⟨o, method, plate, ho, hr.known, hm, hp, ?_⟩
  rw [← hd, dispatch?, hr.text]
  rfl

theorem Acceptor.Orderly.nodup_served {n : ℕ} {x : Acceptor.Input} {o : Option Received}
    (h : m.Orderly n) (hn : m.served.reduceOption.Nodup) (hs : m.step x = some (m', o)) :
    m'.served.reduceOption.Nodup := by
  cases Move.of_step hs
  case forkOk hpc =>
    have hp := (h.fork hpc).nodup_iff.mpr List.nodup_range
    have hc : [m.current?].reduceOption = m.current?.toList := by cases m.current? <;> rfl
    rw [List.reduceOption_append, hc]
    refine hp.sublist ?_
    exact (List.sublist_append_left _ _).append_right _
  all_goals exact hn

-- What `main` and the ends of children leave as it is.
theorem extends_of_front {f f' : Front} {a : Family.Action Acceptor.Input Empty}
    (hs : front.step f a = some f') :
    f.main.Extends f'.main ∧ f.children.length ≤ f'.children.length := by
  have hr : f.main.Extends f.main := ⟨List.prefix_rfl, List.prefix_rfl, .refl _⟩
  cases Family.Move.of_step hs
  case main hm      => exact ⟨.of_step hm, by simp [Family.fork]⟩
  case child x _ _ _ _ => exact x.elim
  case exit         => exact ⟨hr, by simp [Family.setChild]⟩
  case deliver      => exact ⟨hr, le_rfl⟩
  case reap         => exact ⟨hr, by simp [Family.setChild]⟩
  case ret          => exact ⟨hr, le_rfl⟩

theorem nodup_of_front {f f' : Front} {a : Family.Action Acceptor.Input Empty}
    (h : f.main.Orderly f.children.length) (hn : f.main.served.reduceOption.Nodup)
    (hs : front.step f a = some f') : f'.main.served.reduceOption.Nodup := by
  cases Family.Move.of_step hs
  case main hm => exact h.nodup_served hn hm
  all_goals exact hn

end Front

namespace Service

inductive Move (s : Service) : Action → Service → Prop
  | front {a f} (hs : Parking.front.step s.front a = some f) : Move s (.front a) { s with
      front  := f
      stages := s.stages.rightpad f.children.length .received }
  | idle {i : ℕ} {c : Unix.Child Received} {method plate : List UInt8}
    (hi : s.stages[i]? = some .received) (hc : s.front.children[i]? = some c)
    (hm : method.length = 8) (hp : plate.length = 8)
    (hd : c.proc.dispatch? method plate = some .exit) :
    Move s (.sscanf i method plate) { s with stages := s.stages.set i .idle }
  | request {i : ℕ} {c : Unix.Child Received} {method plate : List UInt8} {r : Request} {p : State}
    (hi : s.stages[i]? = some .received) (hc : s.front.children[i]? = some c)
    (hm : method.length = 8) (hp : plate.length = 8)
    (hd : c.proc.dispatch? method plate = some (.request r))
    (hs : system.step s.pool (.spawn r) = some p) :
    Move s (.sscanf i method plate) { s with
      pool   := p
      stages := s.stages.set i (.serving s.pool.procs.length) }
  | act {i pid : ℕ} {x : Input} {p : State} (hi : s.stages[i]? = some (.serving pid))
    (hs : system.step s.pool (.act pid x) = some p) : Move s (.act i x) { s with pool := p }
  | time {d : ℕ} {p : State} (hs : system.step s.pool (.env d) = some p) :
    Move s (.time d) { s with pool := p }

theorem Move.of_step {a : Action} (h : service.step s a = some s') : Move s a s' := by
  cases a
  case front a =>
    obtain ⟨_, h⟩ := Option.ite_none_right_eq_some.mp h
    obtain ⟨f, hf, rfl⟩ := Option.map_eq_some_iff.mp h
    exact .front hf
  case time d =>
    simp only [service, step, Option.map_eq_some_iff] at h
    obtain ⟨p, hp, rfl⟩ := h
    exact .time hp
  case act i x =>
    simp only [service, step] at h
    split at h
    case h_2       => contradiction
    case h_1 pid hi =>
      obtain ⟨p, hp, rfl⟩ := Option.map_eq_some_iff.mp h
      exact .act hi hp
  case sscanf i method plate =>
    simp only [service, step, Option.ite_none_right_eq_some] at h
    obtain ⟨⟨hi, hm, hp⟩, h⟩ := h
    split at h
    case h_3 => contradiction
    case h_1 hd =>
      obtain ⟨c, hc, hd⟩ := Option.bind_eq_some_iff.mp hd
      cases h
      exact .idle hi hc hm hp hd
    case h_2 r hd =>
      obtain ⟨c, hc, hd⟩ := Option.bind_eq_some_iff.mp hd
      obtain ⟨p, hs, rfl⟩ := Option.map_eq_some_iff.mp h
      exact .request hi hc hm hp hd hs

end Service

-- What is seen of the server are the requests, and these are what `system` gets.
theorem service_refines : Machine.Refines service system (fun _ _ => True) asked? spawned?
    fun s t => s.pool = t where
  step := by
    rintro s a s' _ rfl - hs
    cases Service.Move.of_step hs
    case front                     => exact ⟨none, _, rfl, rfl, rfl⟩
    case idle hc _ _ hd            => exact ⟨none, _, rfl, by simp [asked?, hc, hd], rfl⟩
    case act pid x p _ hp          => exact ⟨some (.act pid x), p, hp, rfl, rfl⟩
    case time d p hp               => exact ⟨some (.env d), p, hp, rfl, rfl⟩
    case request r p _ hc _ _ hd hp =>
      exact ⟨some (.spawn r), p, hp, by simp [asked?, hc, hd, spawned?], rfl⟩

-- The children of `main`, and the requests so far in their order.
structure Service.Linked (s : Service) (rs : List Request) : Prop where
  front      : Family.All Acceptor.Orderly Received.Child s.front
  stages     : s.stages.length = s.front.children.length
  procs      : s.pool.procs.length = rs.length
  dispatched : s.Dispatched rs

theorem getElem?_rightpad {l : List Stage} {n : ℕ} (h : l[i]? = some st) :
    (l.rightpad n .received)[i]? = some st := by
  have hl := (List.getElem?_eq_some_iff.mp h).fst
  rw [List.rightpad, List.getElem?_append_left hl, h]

theorem getElem?_of_rightpad {l : List Stage} {n : ℕ} (h : (l.rightpad n .received)[i]? = some st)
    (hn : st ≠ .received) : l[i]? = some st := by
  rw [List.rightpad, List.getElem?_append] at h
  split at h
  case isTrue => exact h
  case isFalse =>
    have hm := List.mem_of_getElem? h
    exact absurd (List.eq_of_mem_replicate hm) hn

namespace Service.Linked

theorem initial (clock : ℤ) : (initial clock).Linked [] where
  front      := ⟨Acceptor.orderly_initial, nofun⟩
  stages     := rfl
  procs      := rfl
  dispatched := {
    serving      := nofun
    idle         := nofun
    unique       := nofun
    exists_child := nofun
    connections  := .nil
  }

theorem front_step (h : s.Linked rs) {f : Front} {a : Family.Action Acceptor.Input Empty}
    (hs : Parking.front.step s.front a = some f) : Linked { s with
      front  := f
      stages := s.stages.rightpad f.children.length .received } rs := by
  have ⟨he, hl⟩ := extends_of_front hs
  have hd := h.dispatched
  refine ⟨h.front.of_step acceptLoop_keeps hs, ?_, h.procs, ?_⟩
  case refine_1 =>
    have hn := h.stages
    simp only [List.rightpad, List.length_append, List.length_replicate]
    omega
  case refine_2 =>
    constructor
    case serving =>
      intro i pid hi
      have ⟨r, hr, ha⟩ := hd.serving <| getElem?_of_rightpad hi nofun
      exact ⟨r, hr, ha.mono he⟩
    case idle => exact fun hi => (hd.idle <| getElem?_of_rightpad hi nofun).mono he
    case unique =>
      exact fun hi hj => hd.unique (getElem?_of_rightpad hi nofun) (getElem?_of_rightpad hj nofun)
    case exists_child =>
      intro pid hp
      have ⟨i, hi⟩ := hd.exists_child hp
      exact ⟨i, getElem?_rightpad hi⟩
    case connections => exact nodup_of_front h.front.left hd.connections hs

theorem idle (h : s.Linked rs) (hi : s.stages[i]? = some .received)
    (ha : s.front.main.Asks i .exit) : Linked { s with stages := s.stages.set i .idle } rs where
  front      := h.front
  stages     := List.length_set.trans h.stages
  procs      := h.procs
  dispatched := by
    have hd := h.dispatched
    constructor
    case connections => exact hd.connections
    case serving =>
      intro j pid hj
      rcases Lists.set_cases hj with ⟨_, hj⟩ | ⟨_, hj⟩
      case inl => cases hj
      case inr => exact hd.serving hj
    case idle =>
      intro j hj
      rcases Lists.set_cases hj with ⟨rfl, _⟩ | ⟨_, hj⟩
      case inl => exact ha
      case inr => exact hd.idle hj
    case unique =>
      intro j k pid hj hk
      exact hd.unique ((Lists.set_cases hj).resolve_left nofun).right
        ((Lists.set_cases hk).resolve_left nofun).right
    case exists_child =>
      intro pid hp
      have ⟨j, hj⟩ := hd.exists_child hp
      exact ⟨j, Lists.getElem?_set_of_ne hi hj nofun⟩

-- The new process is the next one, so that no child serves it so far.
theorem request (h : s.Linked rs) (hi : s.stages[i]? = some .received)
    (ha : s.front.main.Asks i (.request r)) {p : State} (hp : p.procs.length = rs.length + 1) :
    Linked { s with pool := p, stages := s.stages.set i (.serving s.pool.procs.length) }
      (rs ++ [r]) where
  front      := h.front
  stages     := List.length_set.trans h.stages
  procs      := by simpa using hp
  dispatched := by
    have hd := h.dispatched
    have hlt : ∀ {j pid : ℕ}, s.stages[j]? = some (.serving pid) → pid < rs.length := by
      intro j pid hj
      have ⟨_, hr, _⟩ := hd.serving hj
      exact (List.getElem?_eq_some_iff.mp hr).fst
    rw [h.procs]
    constructor
    case connections => exact hd.connections
    case serving =>
      intro j pid hj
      rcases Lists.set_cases hj with ⟨rfl, he⟩ | ⟨_, hj⟩
      case inl => cases he; exact ⟨r, List.getElem?_concat_length, ha⟩
      case inr =>
        have ⟨r', hr, ha'⟩ := hd.serving hj
        exact ⟨r', by rwa [List.getElem?_append_left (hlt hj)], ha'⟩
    case idle => exact fun hj => hd.idle ((Lists.set_cases hj).resolve_left nofun).right
    case unique =>
      intro j k pid hj hk
      rcases Lists.set_cases hj with ⟨rfl, he⟩ | ⟨_, hj'⟩ <;>
        rcases Lists.set_cases hk with ⟨rfl, he'⟩ | ⟨_, hk'⟩
      case inl.inl => rfl
      case inl.inr => cases he; exact absurd (hlt hk') (lt_irrefl _)
      case inr.inl => cases he'; exact absurd (hlt hj') (lt_irrefl _)
      case inr.inr => exact hd.unique hj' hk'
    case exists_child =>
      intro pid hp
      rw [List.length_append, List.length_singleton, Nat.lt_succ_iff_lt_or_eq] at hp
      rcases hp with hp | rfl
      case inl =>
        have ⟨j, hj⟩ := hd.exists_child hp
        exact ⟨j, Lists.getElem?_set_of_ne hi hj nofun⟩
      case inr => exact ⟨i, List.getElem?_set_self (List.getElem?_eq_some_iff.mp hi).fst⟩

theorem of_pool (h : s.Linked rs) {p : State} (hp : p.procs.length = s.pool.procs.length) :
    Linked { s with pool := p } rs :=
  ⟨h.front, h.stages, hp.trans h.procs, { h.dispatched with }⟩

theorem step {a : Action} (h : s.Linked rs) (hs : service.step s a = some s') :
    s'.Linked (rs ++ (asked? s a).toList) := by
  cases Move.of_step hs
  case front hf => exact (List.append_nil rs).symm ▸ h.front_step hf
  case idle hi hc hm hp hd =>
    have ha := (h.front.right _ _ hc).asks hm hp hd
    simpa [asked?, hc, hd] using h.idle hi ha
  case request r p hi hc hm hp hd hr =>
    have ha := (h.front.right _ _ hc).asks hm hp hd
    have hl : p.procs.length = rs.length + 1 := by simp [Pool.spawn_eq hr, h.procs]
    simpa [asked?, hc, hd] using h.request hi ha hl
  case act p _ hx =>
    have ⟨t⟩ := Pool.Acts.of_step hx
    exact (List.append_nil rs).symm ▸ h.of_pool (by rw [t.procs, List.length_set])
  case time p hx =>
    obtain ⟨m, _, rfl⟩ := Pool.env_eq hx
    exact (List.append_nil rs).symm ▸ h.of_pool rfl

-- A child that has been forked for a regular message can always go on.
theorem sscanf_isSome (h : s.Linked rs) {n : ℕ} (ho : s.front.main.served[i]? = some (some n))
    (hb : s.front.main.inbox[n]? = some bytes) (hr : Regular bytes) (hm : method.length = 8)
    (hp : plate.length = 8) (hi : s.stages[i]? = some .received) :
    (service.step s (.sscanf i method plate)).isSome := by
  have hlt : i < s.front.children.length := h.stages ▸ (List.getElem?_eq_some_iff.mp hi).fst
  obtain ⟨c, hc⟩ : ∃ c, s.front.children[i]? = some c := ⟨_, List.getElem?_eq_getElem hlt⟩
  have ⟨o, ho', hs⟩ := h.front.right _ _ hc
  obtain rfl := Option.some.inj <| ho.symm.trans ho'
  obtain ⟨d, hd, hx⟩ := dispatch_of_regular hr hm hp
  have hd : c.proc.dispatch? method plate = some d := by
    rw [Received.dispatch?, hs.text, Option.bind_some, hb, Option.getD_some]
    exact hd
  simp only [service, Service.step, hi, hm, hp, and_self, if_true, hc, Option.bind_some, hd]
  rcases hx with rfl | ⟨r, rfl⟩
  case inl => rfl
  case inr => rfl

end Service.Linked

-- The whole server is `system` with the requests that its children have found in what came on their
-- connections. Each process stems from one child and each child from a connection of its own. Where
-- the message of a connection is regular, its child can go on, the process has the request that has
-- been sent, and there is none if no request has been sent.
theorem connections_served {clock : ℤ} (e : service.Run (.initial clock) s) :
    ∃ f : system.Run (.initial clock) s.pool,
      f.history (fun _ a => spawned? a) = e.history asked? ∧
      s.Dispatched (e.history asked?).reverse ∧
      ∀ {i n : ℕ} {bytes : List UInt8}, s.front.main.served[i]? = some (some n) →
        s.front.main.inbox[n]? = some bytes → Regular bytes →
        (∀ {pid : ℕ}, s.stages[i]? = some (.serving pid) →
          ∃ r, (e.history asked?).reverse[pid]? = some r ∧ Sent bytes r) ∧
        (s.stages[i]? = some .idle → ∀ r, ¬Sent bytes r) ∧
        (s.stages[i]? = some .received → ∀ {method plate : List UInt8}, method.length = 8 →
          plate.length = 8 → (service.step s (.sscanf i method plate)).isSome) := by
  have h₀ : (Service.initial clock).pool = .initial clock := rfl
  obtain ⟨_, f, rfl, hf⟩ := service_refines.run h₀ e e.allSteps_true
  have h := e.invariant_history (f := asked?) (I := fun s l => s.Linked l.reverse)
    (Service.Linked.initial clock)
    (fun s a s' l h _ hs => by cases ho : asked? s a <;> simpa [ho] using h.step hs) e.allSteps_true
  have hd := h.dispatched
  refine ⟨f, hf, hd, fun {i n bytes} ho hb hr => ?_⟩
  have hs : ∀ {d}, s.front.main.Asks i d →
      (∀ r, d = .request r → Sent bytes r) ∧ (d = .exit → ∀ r, ¬Sent bytes r) := by
    rintro d ⟨o, method, plate, ho', _, hm, hp, hd⟩
    cases Option.some.inj <| ho.symm.trans ho'
    rw [Option.bind_some, hb, Option.getD_some] at hd
    exact sent_of_dispatch hr hm hp hd
  refine ⟨fun hi => ?_, fun hi => (hs (hd.idle hi)).right rfl,
    fun hi _ _ hm hp => h.sscanf_isSome ho hb hr hm hp hi⟩
  have ⟨r, hr, ha⟩ := hd.serving hi
  exact ⟨r, hr, (hs ha).left r rfl⟩

end Parking
