import EmbeddedOS.Library.Machine

-- Any number of sequential processes over one shared memory. A process is named by its index, new
-- processes are added at the end and a process that has ended keeps its place.
structure Pool (μ π : Type*) where
  mem   : μ
  procs : List π

namespace Pool

-- What a pool can run: how a process starts on a request, the atomic step that a process takes on
-- an input, and what the environment does to the memory by itself.
structure Program (μ π ρ ι ε : Type*) where
  spawn : ρ → π
  step  : ℕ → μ → π → ι → Option (μ × π)
  env   : μ → ε → Option μ

inductive Action (ρ ι ε : Type*)
  | spawn (r : ρ)
  | act (pid : ℕ) (x : ι)
  | env (x : ε)

variable {μ π ρ ι ε : Type*}

def Action.actor? : Action ρ ι ε → Option ℕ
  | act pid _ => some pid
  | _ => none

def step (P : Program μ π ρ ι ε) (s : Pool μ π) : Action ρ ι ε → Option (Pool μ π)
  | .spawn r   => some { s with procs := s.procs ++ [P.spawn r] }
  | .act pid x =>
    s.procs[pid]?.bind fun p =>
      (P.step pid s.mem p x).map fun (m, p') => { mem := m, procs := s.procs.set pid p' }
  | .env x     => (P.env s.mem x).map ({ s with mem := · })

def machine (P : Program μ π ρ ι ε) : Machine (Pool μ π) (Action ρ ι ε) where
  step := step P

variable {P : Program μ π ρ ι ε} {s s' : Pool μ π} {pid : ℕ} {x : ι}

-- What a step of one process does to the pool.
structure Acts (P : Program μ π ρ ι ε) (s : Pool μ π) (pid : ℕ) (x : ι) (s' : Pool μ π) where
  {pre post : π}
  get   : s.procs[pid]? = some pre
  step  : P.step pid s.mem pre x = some (s'.mem, post)
  procs : s'.procs = s.procs.set pid post

theorem Acts.of_step (h : (machine P).step s (.act pid x) = some s') :
    Nonempty (Acts P s pid x s') := by
  obtain ⟨p, hp, h⟩ := Option.bind_eq_some_iff.mp h
  obtain ⟨⟨m, p'⟩, hs, h⟩ := Option.map_eq_some_iff.mp h
  cases h
  exact ⟨⟨hp, hs, rfl⟩⟩

namespace Acts

theorem get_post (a : Acts P s pid x s') : s'.procs[pid]? = some a.post := by
  have ⟨hlt, _⟩ := List.getElem?_eq_some_iff.mp a.get
  rw [a.procs, List.getElem?_set_self hlt]

theorem get_other (a : Acts P s pid x s') {j : ℕ} (hj : j ≠ pid) :
    s'.procs[j]? = s.procs[j]? := by
  rw [a.procs, List.getElem?_set_ne hj.symm]

theorem get_cases (a : Acts P s pid x s') {j : ℕ} {q : π} (hq : s'.procs[j]? = some q) :
    (j = pid ∧ q = a.post) ∨ (j ≠ pid ∧ s.procs[j]? = some q) := by
  by_cases hj : j = pid
  case pos => subst hj; exact .inl ⟨rfl, Option.some.inj <| hq.symm.trans a.get_post⟩
  case neg => exact .inr ⟨hj, a.get_other hj ▸ hq⟩

end Acts

theorem spawn_eq {r : ρ} (h : (machine P).step s (.spawn r) = some s') :
    s' = { s with procs := s.procs ++ [P.spawn r] } := by
  cases h; rfl

theorem spawn_cases {r : ρ} (h : (machine P).step s (.spawn r) = some s') {j : ℕ} {q : π}
    (hq : s'.procs[j]? = some q) : q = P.spawn r ∨ s.procs[j]? = some q := by
  cases spawn_eq h
  rw [List.getElem?_append] at hq
  split at hq
  case isTrue  => exact .inr hq
  case isFalse =>
    have ⟨_, hq⟩ := List.getElem?_eq_some_iff.mp hq
    exact .inl <| by simpa using hq.symm

theorem env_eq {x : ε} (h : (machine P).step s (.env x) = some s') :
    ∃ m, P.env s.mem x = some m ∧ s' = { s with mem := m } := by
  obtain ⟨m, hm, h⟩ := Option.map_eq_some_iff.mp h
  exact ⟨m, hm, h.symm⟩

-- All processes but the one that acts.
def others (s : Pool μ π) (a : Action ρ ι ε) : List π :=
  match a.actor? with
  | some pid => s.procs.eraseIdx pid
  | none     => s.procs

theorem mem_others {j : ℕ} {q : π} (hj : j ≠ pid) (hq : s.procs[j]? = some q) :
    q ∈ s.others (.act pid x : Action ρ ι ε) :=
  List.mem_eraseIdx_iff_getElem?.mpr ⟨j, hj, hq⟩

theorem mem_of_others {a : Action ρ ι ε} {q : π} (hq : q ∈ s.others a) : q ∈ s.procs := by
  cases a
  case act   => exact List.mem_of_mem_eraseIdx hq
  case spawn => exact hq
  case env   => exact hq

namespace Acts

theorem mem_pre (a : Acts P s pid x s') : a.pre ∈ s.procs :=
  List.mem_of_getElem? a.get

theorem mem_cases (a : Acts P s pid x s') {q : π} (hq : q ∈ s'.procs) :
    q = a.post ∨ q ∈ s.others (.act pid x : Action ρ ι ε) := by
  have ⟨_, hj⟩ := List.getElem?_of_mem hq
  exact (a.get_cases hj).imp And.right fun ⟨hn, hj⟩ => mem_others hn hj

end Acts

-- A process that takes its steps while no other process moves.
def solo (P : Program μ π ρ ι ε) (pid : ℕ) : List ι → μ → π → Option (μ × π)
  | [], m, p      => some (m, p)
  | x :: xs, m, p => (P.step pid m p x).bind fun (m, p) => solo P pid xs m p

theorem solo_cons {xs : List ι} {m m' : μ} {p p' : π} (h : P.step pid m p x = some (m', p')) :
    solo P pid (x :: xs) m p = solo P pid xs m' p' := by
  rw [solo, h, Option.bind_some]

theorem solo_append {xs ys : List ι} {m : μ} {p : π} :
    solo P pid (xs ++ ys) m p = (solo P pid xs m p).bind fun (m, p) => solo P pid ys m p := by
  induction xs generalizing m p
  case nil => rfl
  case cons x xs hi =>
    rw [List.cons_append, solo, solo, Option.bind_assoc]
    exact congrArg _ <| funext fun _ => hi

-- A run can be continued by one process alone.
theorem exists_run_of_solo {C : Pool μ π → Action ρ ι ε → Prop} {s₀ : Pool μ π} {xs : List ι}
    {m : μ} {p p' : π} (e : (machine P).Run s₀ s) (he : e.AllSteps C) (hp : s.procs[pid]? = some p)
    (h : solo P pid xs s.mem p = some (m, p'))
    (hC : ∀ t x, t.others (.act pid x : Action ρ ι ε) = s.others (.act pid x : Action ρ ι ε) →
      C t (.act pid x)) :
    ∃ f : (machine P).Run s₀ { mem := m, procs := s.procs.set pid p' }, f.AllSteps C := by
  induction xs generalizing s p
  case nil =>
    cases h
    have ⟨hlt, hget⟩ := List.getElem?_eq_some_iff.mp hp
    rw [← hget, List.set_getElem_self]
    exact ⟨e, he⟩
  case cons x xs hi =>
    obtain ⟨⟨m₁, p₁⟩, hs, h⟩ := Option.bind_eq_some_iff.mp h
    have hst : (machine P).step s (.act pid x) =
        some { mem := m₁, procs := s.procs.set pid p₁ } := by
      simp only [machine, step, hp, Option.bind_some, hs, Option.map_some]
    have hlt := (List.getElem?_eq_some_iff.mp hp).fst
    have hr := hi (e.step _ hst) ⟨he, hC s x rfl⟩ (List.getElem?_set_self hlt) h
      fun t y ht => hC t y <| ht.trans List.eraseIdx_set_eq
    rwa [List.set_set] at hr

-- A process that takes its steps as long as it can, alone and with the same input each time.
def settle (P : Program μ π ρ ι ε) (pid : ℕ) (x : ι) : ℕ → μ → π → μ × π
  | 0, m, p     => (m, p)
  | n + 1, m, p => (P.step pid m p x).elim (m, p) fun (m, p) => settle P pid x n m p

theorem settle_succ {n : ℕ} {m m' : μ} {p p' : π} (h : P.step pid m p x = some (m', p')) :
    settle P pid x (n + 1) m p = settle P pid x n m' p' := by
  rw [settle, h, Option.elim_some]

theorem settle_of_stuck {n : ℕ} {m : μ} {p : π} (h : P.step pid m p x = none) :
    settle P pid x n m p = (m, p) := by
  cases n
  case zero => rfl
  case succ => rw [settle, h, Option.elim_none]

section OneByOne

variable {ended : π → Bool} {r : ρ} {xs : List (ι ⊕ ε)}

-- One process alone over the shared memory, and the environment.
def alone (P : Program μ π ρ ι ε) (pid : ℕ) : Machine (μ × π) (ι ⊕ ε) where
  step s
    | .inl x => P.step pid s.fst s.snd x
    | .inr x => (P.env s.fst x).map (·, s.snd)

-- A process that is alone can take its steps for as long as it can.
theorem exists_run_of_settle (pid : ℕ) (x : ι) (n : ℕ) (m : μ) (p : π) :
    Nonempty ((alone P pid).Run (m, p) (settle P pid x n m p)) := by
  induction n generalizing m p
  case zero => exact ⟨.refl⟩
  case succ n hi =>
    cases hs : P.step pid m p x
    case none => rw [settle_of_stuck hs]; exact ⟨.refl⟩
    case some s =>
      obtain ⟨e⟩ := hi s.fst s.snd
      have ht : (alone P pid).step (m, p) (.inl x) = some s := hs
      have ⟨f, _⟩ := Machine.Run.cons (C := fun _ _ => True) ht trivial e e.allSteps_true
      rw [settle_succ hs]
      exact ⟨f⟩

-- A pool that handles each request to its end before it gets the next one. A label is a request
-- with what happens to its process and to the environment meanwhile.
def oneByOne (P : Program μ π ρ ι ε) (ended : π → Bool) :
    Machine (Pool μ π) (ρ × List (ι ⊕ ε)) where
  step s a :=
    ((alone P s.procs.length).exec (fun _ _ => true) (s.mem, P.spawn a.fst) a.snd).bind
      fun (m, p) => if ended p then some { mem := m, procs := s.procs ++ [p] } else none

-- What the handling of one request does to the pool.
structure Handles (P : Program μ π ρ ι ε) (ended : π → Bool) (s : Pool μ π) (r : ρ)
    (s' : Pool μ π) where
  {post : π}
  run   : (alone P s.procs.length).Run (s.mem, P.spawn r) (s'.mem, post)
  ended : ended post
  procs : s'.procs = s.procs ++ [post]

theorem Handles.of_step (h : (oneByOne P ended).step s (r, xs) = some s') :
    Nonempty (Handles P ended s r s') := by
  obtain ⟨⟨m, p⟩, he, h⟩ := Option.bind_eq_some_iff.mp h
  obtain ⟨e, -⟩ := Machine.Run.of_exec he
  dsimp only at h
  split at h
  case isTrue hp  => cases h; exact ⟨⟨e, hp, rfl⟩⟩
  case isFalse    => contradiction

-- What a process does alone, it can do in the pool.
theorem exists_run_of_alone {s₀ : Pool μ π} {a b : μ × π} (e : (machine P).Run s₀ s)
    (f : (alone P pid).Run a b) (hm : s.mem = a.fst) (hp : s.procs[pid]? = some a.snd) :
    Nonempty ((machine P).Run s₀ { mem := b.fst, procs := s.procs.set pid b.snd }) := by
  induction f
  case refl =>
    have ⟨hlt, hget⟩ := List.getElem?_eq_some_iff.mp hp
    rw [← hm, ← hget, List.set_getElem_self]
    exact ⟨e⟩
  case step b c f x h hi =>
    obtain ⟨e⟩ := hi
    have hlt : pid < s.procs.length := (List.getElem?_eq_some_iff.mp hp).fst
    cases x
    case inl x =>
      have hs : (machine P).step { mem := b.fst, procs := s.procs.set pid b.snd } (.act pid x) =
          some { mem := c.fst, procs := s.procs.set pid c.snd } := by
        have h : P.step pid b.fst b.snd x = some c := h
        simp [machine, step, hlt, h]
      exact ⟨e.step _ hs⟩
    case inr x =>
      obtain ⟨m, hx, rfl⟩ := Option.map_eq_some_iff.mp h
      exact ⟨e.step (.env x) <| by simp [machine, step, hx]⟩

theorem Handles.exists_run {s₀ : Pool μ π} (h : Handles P ended s r s')
    (e : (machine P).Run s₀ s) : Nonempty ((machine P).Run s₀ s') := by
  have hs : (machine P).step s (.spawn r) =
      some { s with procs := s.procs ++ [P.spawn r] } := rfl
  have hr := exists_run_of_alone (e.step _ hs) h.run rfl (by simp)
  rwa [List.set_append_right _ _ le_rfl, Nat.sub_self, List.set_cons_zero, ← h.procs] at hr

-- A pool that handles its requests one by one reaches no other states than the pool itself.
theorem oneByOne_run {s₀ : Pool μ π} (e : (oneByOne P ended).Run s₀ s) :
    Nonempty ((machine P).Run s₀ s) := by
  induction e
  case refl => exact ⟨.refl⟩
  case step e a h hi =>
    obtain ⟨f⟩ := hi
    have ⟨h⟩ := Handles.of_step h
    exact h.exists_run f

end OneByOne

section Total

variable {A : Type*} [AddCommGroup A] {value : π → A}

-- The sum of a value over all processes.
def total (value : π → A) (s : Pool μ π) : A :=
  (s.procs.map value).sum

theorem total_act (a : Acts P s pid x s') :
    s'.total value + value a.pre = s.total value + value a.post := by
  have ⟨hlt, hget⟩ := List.getElem?_eq_some_iff.mp a.get
  simp only [total, a.procs, List.map_set, List.sum_set', List.length_map, hlt, dif_pos,
    List.getElem_map, hget]
  abel

theorem total_spawn (h : ∀ r, value (P.spawn r) = 0) {r : ρ}
    (hs : (machine P).step s (.spawn r) = some s') : s'.total value = s.total value := by
  cases spawn_eq hs
  simp [total, h]

theorem total_eq_zero (h : ∀ p ∈ s.procs, value p = 0) : s.total value = 0 :=
  List.sum_eq_zero <| by simpa using h

end Total

-- A pool is annotated when its memory satisfies `I` and each process satisfies its own assertion.
structure Annotated (I : μ → Prop) (L : μ → ℕ → π → Prop) (s : Pool μ π) : Prop where
  mem   : I s.mem
  procs : ∀ {pid p}, s.procs[pid]? = some p → L s.mem pid p

section Annotation

variable (P) (C : Pool μ π → Action ρ ι ε → Prop) (I : μ → Prop) (L : μ → ℕ → π → Prop)

-- The proof obligations for local assertions over a shared memory: each step that meets `C` keeps
-- the memory invariant, establishes the assertion of the process that takes it, and does not
-- interfere with the assertions of the others.
structure Annotation : Prop where
  spawn : ∀ {m pid} (r : ρ), I m → L m pid (P.spawn r)
  env   : ∀ {m m' x}, I m → P.env m x = some m' → I m' ∧ ∀ {pid p}, L m pid p → L m' pid p
  step  : ∀ {s pid x s'}, Annotated I L s → C s (.act pid x) → (a : Acts P s pid x s') →
    I s'.mem ∧ L s'.mem pid a.post
  other : ∀ {s pid x s'}, Annotated I L s → C s (.act pid x) → Acts P s pid x s' →
    ∀ {j q}, j ≠ pid → s.procs[j]? = some q → L s'.mem j q

end Annotation

namespace Annotation

variable {C : Pool μ π → Action ρ ι ε → Prop} {I : μ → Prop} {L : μ → ℕ → π → Prop}

theorem preserves (A : Annotation P C I L) {a : Action ρ ι ε} (hs : Annotated I L s) (hc : C s a)
    (h : (machine P).step s a = some s') : Annotated I L s' := by
  cases a
  case spawn r =>
    have hm : s'.mem = s.mem := by rw [spawn_eq h]
    refine ⟨hm ▸ hs.mem, fun {pid p} hp => hm ▸ ?_⟩
    rcases spawn_cases h hp with rfl | hp
    case inl => exact A.spawn r hs.mem
    case inr => exact hs.procs hp
  case act pid x =>
    have ⟨a⟩ := Acts.of_step h
    have ⟨hm, hl⟩ := A.step hs hc a
    refine ⟨hm, fun {j q} hq => ?_⟩
    rcases a.get_cases hq with ⟨rfl, rfl⟩ | ⟨hj, hq⟩
    case inl => exact hl
    case inr => exact A.other hs hc a hj hq
  case env x =>
    obtain ⟨m, hm, rfl⟩ := env_eq h
    have ⟨hi, hl⟩ := A.env hs.mem hm
    exact ⟨hi, fun hp => hl (hs.procs hp)⟩

theorem run (A : Annotation P C I L) {s₀ : Pool μ π} (h₀ : Annotated I L s₀)
    (e : (machine P).Run s₀ s) (hc : e.AllSteps C) : Annotated I L s :=
  e.invariant h₀ (fun _ _ _ => A.preserves) hc

end Annotation
end Pool
