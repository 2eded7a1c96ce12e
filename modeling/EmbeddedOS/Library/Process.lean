import EmbeddedOS.Library.Inevitable

namespace Unix

-- The descriptor table of a process: what each descriptor is open on.
abbrev Table (φ : Type*) :=
  List (Option φ)

namespace Table

variable {φ : Type*} {t : Table φ} {f : φ} {fd old new k : ℤ}

-- What a system call finds under a descriptor.
def file? (t : Table φ) (fd : ℤ) : Option φ :=
  if 0 ≤ fd then t[fd.toNat]?.join else none

-- A new file gets the lowest descriptor that is free.
def lowest (t : Table φ) : ℕ :=
  t.findIdx Option.isNone

def put (t : Table φ) (i : ℕ) (o : Option φ) : Table φ :=
  (t.rightpad (i + 1) none).set i o

def install (t : Table φ) (f : φ) : Table φ :=
  t.put t.lowest (some f)

-- `close` and `dup2` do nothing but fail when the descriptor is not open.
def close (t : Table φ) (fd : ℤ) : Table φ :=
  if (t.file? fd).isSome then t.put fd.toNat none else t

def dup2 (t : Table φ) (old new : ℤ) : Table φ :=
  match t.file? old with
  | some f => if 0 ≤ new then t.put new.toNat (some f) else t
  | none   => t

theorem nonneg_of_file? (h : t.file? fd = some f) : 0 ≤ fd := by
  by_contra hn
  simp [file?, hn] at h

theorem mem_of_file? (h : t.file? fd = some f) : some f ∈ t := by
  rw [file?, if_pos (nonneg_of_file? h)] at h
  exact List.mem_of_getElem? (Option.join_eq_some_iff.mp h)

theorem getElem?_put (i j : ℕ) (o : Option φ) :
    (t.put i o)[j]?.join = if j = i then o else t[j]?.join := by
  have hp : (t.rightpad (i + 1) none)[j]?.join = t[j]?.join := by
    rw [List.rightpad, List.getElem?_append]
    split
    case isTrue  => rfl
    case isFalse h =>
      rw [List.getElem?_eq_none (not_lt.mp h), List.getElem?_replicate]
      split <;> rfl
  have hl : i < (t.rightpad (i + 1) none).length := by
    simp only [List.rightpad, List.length_append, List.length_replicate]
    omega
  by_cases hj : j = i
  case pos => subst hj; rw [put, List.getElem?_set_self hl, Option.join_some, if_pos rfl]
  case neg => rw [put, List.getElem?_set_ne (Ne.symm hj), if_neg hj, hp]

theorem file?_put (i : ℕ) (o : Option φ) :
    (t.put i o).file? k = if k = i then o else t.file? k := by
  by_cases hk : 0 ≤ k
  case pos =>
    have he : k = i ↔ k.toNat = i := by omega
    simp only [file?, hk, if_true, getElem?_put, he]
  case neg =>
    have he : k ≠ i := by omega
    simp [file?, hk, he]

theorem file?_lowest : t.file? t.lowest = none := by
  simp only [file?, Int.natCast_nonneg, if_true, Int.toNat_natCast]
  by_cases h : t.lowest < t.length
  case pos =>
    have hn : t[t.lowest].isNone := List.findIdx_getElem (w := h)
    rw [List.getElem?_eq_getElem h, Option.isNone_iff_eq_none.mp hn, Option.join_some]
  case neg => rw [List.getElem?_eq_none (not_lt.mp h), Option.join_none]

theorem file?_install : (t.install f).file? k = if k = t.lowest then some f else t.file? k :=
  file?_put _ _

theorem file?_close : (t.close fd).file? k = if k = fd then none else t.file? k := by
  simp only [close]
  split
  case isTrue h =>
    obtain ⟨f, hf⟩ := Option.isSome_iff_exists.mp h
    rw [file?_put, Int.toNat_of_nonneg (nonneg_of_file? hf)]
  case isFalse h =>
    split
    case isTrue he => exact he ▸ Option.not_isSome_iff_eq_none.mp h
    case isFalse   => rfl

theorem file?_dup2 (h : t.file? old = some f) (hn : 0 ≤ new) :
    (t.dup2 old new).file? k = if k = new then some f else t.file? k := by
  simp only [dup2, h, if_pos hn, file?_put, Int.toNat_of_nonneg hn]

end Table

-- A process that has ended is a zombie until its parent has waited for it.
inductive Status
  | running
  | zombie
  | reaped
deriving DecidableEq

-- What a child still takes: its end, the signal, the handler and the call that waits for it.
def Status.cost : Status → ℕ
  | running => 4
  | zombie  => 1
  | reaped  => 0

structure Child (π : Type*) where
  proc   : π
  status : Status

-- A process, the children it has forked in that order, and its `SIGCHLD`: a signal that is pending
-- already is not queued twice, and while the handler runs the next one has to wait.
structure Family (σ π : Type*) where
  main     : σ
  children : List (Child π)
  sigchld  : Bool
  handling : Bool

namespace Family

-- What the processes of a family run. A step of `main` may fork a child. While `main` is in the
-- handler of `SIGCHLD` it takes those steps only that are handlers of other signals.
structure Program (σ π ι κ : Type*) where
  alive      : σ → Bool
  main       : σ → ι → Option (σ × Option π)
  interrupts : ι → Bool
  child      : π → κ → Option π

inductive Action (ι κ : Type*)
  | main (x : ι)
  | child (i : ℕ) (x : κ)
  | exit (i : ℕ)               -- a child ends or is killed
  | deliver                    -- the handler of `SIGCHLD` is entered
  | waitpid (i : Option ℕ)     -- `waitpid(-1, NULL, WNOHANG)`, `none` when no child has ended
deriving DecidableEq

variable {σ π ι κ : Type*} {P : Program σ π ι κ} {s s' : Family σ π} {i : ℕ}

def setChild (s : Family σ π) (i : ℕ) (c : Child π) : Family σ π :=
  { s with children := s.children.set i c }

def fork (s : Family σ π) (m : σ) (o : Option π) : Family σ π :=
  { s with main := m, children := s.children ++ o.toList.map (⟨·, .running⟩) }

-- The handler is the loop `while (waitpid(-1, NULL, WNOHANG) > 0);`.
def step (P : Program σ π ι κ) (s : Family σ π) : Action ι κ → Option (Family σ π)
  | .main x =>
    if s.handling ∧ ¬P.interrupts x then none
    else (P.main s.main x).map fun (m, o) => s.fork m o
  | .child i x =>
    s.children[i]?.bind fun c =>
      if c.status = .running then (P.child c.proc x).map (s.setChild i ⟨·, .running⟩) else none
  | .exit i =>
    s.children[i]?.bind fun c =>
      if c.status = .running
      then some { s.setChild i ⟨c.proc, .zombie⟩ with sigchld := true }
      else none
  | .deliver =>
    if P.alive s.main ∧ s.sigchld ∧ ¬s.handling
    then some { s with sigchld := false, handling := true }
    else none
  | .waitpid (some i) =>
    s.children[i]?.bind fun c =>
      if P.alive s.main ∧ s.handling ∧ c.status = .zombie
      then some <| s.setChild i ⟨c.proc, .reaped⟩
      else none
  | .waitpid none =>
    if P.alive s.main ∧ s.handling ∧ ∀ c ∈ s.children, c.status ≠ .zombie
    then some { s with handling := false }
    else none

def machine (P : Program σ π ι κ) : Machine (Family σ π) (Action ι κ) where
  step := step P

-- What a step does.
inductive Move (P : Program σ π ι κ) (s : Family σ π) : Action ι κ → Family σ π → Prop
  | main {x m o} (hm : P.main s.main x = some (m, o)) : Move P s (.main x) (s.fork m o)
  | child {i c x p} (hc : s.children[i]? = some c) (hr : c.status = .running)
    (hp : P.child c.proc x = some p) : Move P s (.child i x) (s.setChild i ⟨p, .running⟩)
  | exit {i c} (hc : s.children[i]? = some c) (hr : c.status = .running) :
    Move P s (.exit i) { s.setChild i ⟨c.proc, .zombie⟩ with sigchld := true }
  | deliver (hp : s.sigchld = true) (hh : s.handling = false) :
    Move P s .deliver { s with sigchld := false, handling := true }
  | reap {i c} (hc : s.children[i]? = some c) (hh : s.handling = true) (hz : c.status = .zombie) :
    Move P s (.waitpid (some i)) (s.setChild i ⟨c.proc, .reaped⟩)
  | ret (hh : s.handling = true) (hz : ∀ c ∈ s.children, c.status ≠ .zombie) :
    Move P s (.waitpid none) { s with handling := false }

theorem Move.of_step {a : Action ι κ} (h : (machine P).step s a = some s') : Move P s a s' := by
  cases a
  case main x =>
    simp only [machine, step, Option.ite_none_left_eq_some, Option.map_eq_some_iff] at h
    obtain ⟨_, ⟨m, o⟩, hm, rfl⟩ := h
    exact .main hm
  case child i x =>
    obtain ⟨c, hc, h⟩ := Option.bind_eq_some_iff.mp h
    simp only [Option.ite_none_right_eq_some, Option.map_eq_some_iff] at h
    obtain ⟨hr, p, hp, rfl⟩ := h
    exact .child hc hr hp
  case exit i =>
    obtain ⟨c, hc, h⟩ := Option.bind_eq_some_iff.mp h
    simp only [Option.ite_none_right_eq_some, Option.some.injEq] at h
    obtain ⟨hr, rfl⟩ := h
    exact .exit hc hr
  case deliver =>
    simp only [machine, step, Option.ite_none_right_eq_some, Option.some.injEq] at h
    obtain ⟨⟨_, hp, hh⟩, rfl⟩ := h
    exact .deliver hp (Bool.eq_false_of_not_eq_true hh)
  case waitpid i =>
    cases i
    case none =>
      simp only [machine, step, Option.ite_none_right_eq_some, Option.some.injEq] at h
      obtain ⟨⟨_, hh, hz⟩, rfl⟩ := h
      exact .ret hh hz
    case some i =>
      obtain ⟨c, hc, h⟩ := Option.bind_eq_some_iff.mp h
      simp only [Option.ite_none_right_eq_some, Option.some.injEq] at h
      obtain ⟨⟨_, hh, hz⟩, rfl⟩ := h
      exact .reap hc hh hz

section Invariant

variable {I : σ → ℕ → Prop} {C : σ → ℕ → π → Prop}

-- What the steps of a program keep: `I m n` of `main` when it has `n` children, and `C m i p` of
-- its child `i`.
structure Keeps (P : Program σ π ι κ) (I : σ → ℕ → Prop) (C : σ → ℕ → π → Prop) : Prop where
  main  : ∀ {m n x m' o}, I m n → P.main m x = some (m', o) → I m' (n + o.toList.length)
  fork  : ∀ {m n x m' p}, I m n → P.main m x = some (m', some p) → C m' n p
  frame : ∀ {m n x m' o i p}, I m n → P.main m x = some (m', o) → C m i p → C m' i p
  child : ∀ {m i p x p'}, C m i p → P.child p x = some p' → C m i p'

def All (I : σ → ℕ → Prop) (C : σ → ℕ → π → Prop) (s : Family σ π) : Prop :=
  I s.main s.children.length ∧ ∀ i c, s.children[i]? = some c → C s.main i c.proc

theorem All.setChild {p : π} {q : Status} (h : All I C s) (hp : C s.main i p) :
    All I C (s.setChild i ⟨p, q⟩) := by
  refine ⟨by simpa [Family.setChild] using h.left, fun j d hd => ?_⟩
  by_cases hj : i = j
  case pos =>
    subst hj
    have ⟨hl, _⟩ := List.getElem?_eq_some_iff.mp hd
    rw [Family.setChild, List.getElem?_set_self (by simpa [Family.setChild] using hl)] at hd
    cases hd
    exact hp
  case neg => exact h.right j d <| by rwa [Family.setChild, List.getElem?_set_ne hj] at hd

theorem All.of_step (k : Keeps P I C) {a : Action ι κ} (h : All I C s)
    (hs : (machine P).step s a = some s') : All I C s' := by
  cases Move.of_step hs
  case main x m o hm =>
    refine ⟨by simpa [Family.fork] using k.main h.left hm, fun i c hc => ?_⟩
    rw [Family.fork, List.getElem?_append] at hc
    split at hc
    case isTrue     => exact k.frame h.left hm (h.right i c hc)
    case isFalse hi =>
      cases o
      case none   => simp at hc
      case some p =>
        have ⟨hl, hc⟩ := List.getElem?_eq_some_iff.mp hc
        obtain rfl : i = s.children.length := by simp at hl; omega
        exact (by simpa using hc : _ = c) ▸ k.fork h.left hm
  case child hc _ hp => exact h.setChild (k.child (h.right _ _ hc) hp)
  case exit hc _     => have hp := h.right _ _ hc; exact h.setChild hp
  case deliver       => exact h
  case reap hc _ _   => have hp := h.right _ _ hc; exact h.setChild hp
  case ret           => exact h

theorem All.of_run (k : Keeps P I C) {s₀ : Family σ π} (h₀ : All I C s₀)
    (e : (machine P).Run s₀ s) : All I C s :=
  e.invariant h₀ (fun _ _ _ h _ hs => h.of_step k hs) e.allSteps_true

end Invariant

-- No child that has ended is forgotten: its signal is pending or the handler is at work.
def Collected (s : Family σ π) : Prop :=
  s.sigchld = false → s.handling = false → ∀ c ∈ s.children, c.status ≠ .zombie

theorem Collected.of_step {a : Action ι κ} (h : Collected s)
    (hs : (machine P).step s a = some s') : Collected s' := by
  intro hp hh c hc
  cases Move.of_step hs
  case main o _ =>
    rcases List.mem_append.mp hc with hc | hc
    case inl => exact h hp hh c hc
    case inr =>
      obtain ⟨p, _, rfl⟩ := List.mem_map.mp hc
      simp
  case child =>
    rcases List.mem_or_eq_of_mem_set hc with hc | rfl
    case inl => exact h hp hh c hc
    case inr => simp
  case exit    => cases hp
  case deliver => cases hh
  case reap ht _ => exact absurd (ht.symm.trans hh) (by simp)
  case ret hz  => exact hz c hc

theorem collected {s₀ : Family σ π} (h₀ : Collected s₀) (e : (machine P).Run s₀ s) : Collected s :=
  e.invariant h₀ (fun _ _ _ h _ hs => h.of_step hs) e.allSteps_true

section Progress

def cost (s : Family σ π) : ℕ :=
  (s.children.map (Status.cost ·.status)).sum + 2 * s.sigchld.toNat + s.handling.toNat

theorem cost_setChild {c d : Child π} (hc : s.children[i]? = some c) :
    (s.setChild i d).cost + c.status.cost = s.cost + d.status.cost := by
  have ⟨hl, hc⟩ := List.getElem?_eq_some_iff.mp hc
  have ho := List.sum_set (s.children.map (Status.cost ·.status)) i c.status.cost
  have hn := List.sum_set (s.children.map (Status.cost ·.status)) i d.status.cost
  have he : (s.children.map (Status.cost ·.status)).set i c.status.cost
      = s.children.map (Status.cost ·.status) := by
    simp [← hc, ← List.map_set]
  rw [he] at ho
  simp only [List.length_map, hl, if_true] at ho hn
  simp only [cost, setChild, List.map_set]
  omega

-- The steps of a family whose processes do nothing more than end.
def Action.Rests : Action ι κ → Bool
  | main _ | child _ _ => false
  | _                  => true

def resting (P : Program σ π ι κ) : Machine (Family σ π) (Action ι κ) :=
  (machine P).restrict fun _ a => a.Rests

theorem resting_enabled (hm : P.alive s.main = true) (h : Collected s)
    (hn : ¬∀ c ∈ s.children, c.status = .reaped) : ∃ a, ((resting P).step s a).isSome := by
  simp only [not_forall] at hn
  obtain ⟨c, hc, hr⟩ := hn
  obtain ⟨i, hi⟩ := List.getElem?_of_mem hc
  cases hs : c.status
  case running =>
    exact ⟨.exit i, by simp [resting, Machine.restrict, Action.Rests, machine, step, hi, hs]⟩
  case zombie =>
    by_cases hh : s.handling = true
    case pos =>
      exact ⟨.waitpid (some i), by
        simp [resting, Machine.restrict, Action.Rests, machine, step, hi, hs, hm, hh]⟩
    case neg =>
      have hp : s.sigchld = true := by
        by_contra hn
        exact h (eq_false_of_ne_true hn) (eq_false_of_ne_true hh) c hc hs
      exact ⟨.deliver, by
        simp [resting, Machine.restrict, Action.Rests, machine, step, hm, hh, hp]⟩
  case reaped => contradiction

theorem Move.cost_lt {a : Action ι κ} (h : Move P s a s') (hr : a.Rests = true) :
    s'.cost < s.cost ∧ s'.main = s.main := by
  cases h <;> simp only [Action.Rests, reduceCtorEq] at hr
  case exit i c hc hs =>
    have hd := cost_setChild (d := ⟨c.proc, .zombie⟩) hc
    have hb := s.sigchld.toNat_le
    refine ⟨?_, rfl⟩
    simp only [hs, Status.cost, cost, setChild, Bool.toNat_true] at hd ⊢
    omega
  case deliver hp hh => simp [cost, hp, hh]
  case reap i c hc _ hz =>
    have hd := cost_setChild (d := ⟨c.proc, .reaped⟩) hc
    rw [hz] at hd
    exact ⟨by simp only [Status.cost] at hd; omega, rfl⟩
  case ret hh _ => simp [cost, hh]

-- While `main` waits for the next event, each of its children is waited for once it has ended.
theorem reaps (hm : P.alive s.main = true) (h : Collected s) :
    (resting P).Inevitable (fun s => ∀ c ∈ s.children, c.status = .reaped) s := by
  refine .of_bound (I := fun n s => n = s.cost ∧ P.alive s.main = true ∧ Collected s)
    ⟨rfl, hm, h⟩ (fun _ _ h hn => resting_enabled h.right.left h.right.right hn) ?_
  intro n s a s' ⟨hn, hm, h⟩ hs
  have ⟨hr, hs⟩ := Machine.restrict_eq_some_iff.mp hs
  have ⟨hc, he⟩ := (Move.of_step hs).cost_lt hr
  exact .inr ⟨s'.cost, hn ▸ hc, rfl, he ▸ hm, h.of_step hs⟩

end Progress

end Family
end Unix
