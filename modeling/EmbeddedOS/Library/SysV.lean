import EmbeddedOS.Library.Pool

-- Programs that create System V semaphores of their own when they start.
namespace SysV

-- A call at the start of a program: the exclusive creation of the semaphore with a key, or any call
-- that may fail, in which case some semaphores are removed again before the program exits.
inductive Call (κ : Type*)
  | semget (key : κ)
  | check (cleanup : List κ)

-- The handler of `SIGINT` removes the semaphores of `handler` one by one, and a strict one exits at
-- the first that it cannot remove. The program that has started serves its clients, where it may or
-- may not exit on a failure.
structure Program (κ : Type*) where
  startup : List (Call κ)
  handler : List κ
  strict  : Bool
  fails   : Bool

inductive Pc (κ : Type*)
  | startup (j : ℕ)
  | exiting (keys : List κ)
  | handler (keys : List κ)
  | ended
deriving DecidableEq

-- The variables of the identifiers are zero at first.
structure Process (κ : Type*) where
  ids : κ → ℤ
  pc  : Pc κ

-- The identifiers of the semaphores that exist. Who has created an identifier, and for which key,
-- is not part of the kernel; none is used twice.
structure Kernel (κ : Type*) where
  sems    : κ → Option ℕ
  creator : ℕ → Option (ℕ × κ)

inductive Input
  | ok (id : ℕ)    -- the next call succeeds, and the identifier if it creates one
  | fail
  | sigint           -- the signal does not interrupt its own handler
  | kill             -- the process ends where it is
deriving DecidableEq

variable {κ : Type*}

namespace Kernel

def initial : Kernel κ where
  sems _    := none
  creator _ := none

def Has (m : Kernel κ) (key : κ) (id : ℤ) : Prop :=
  ∃ n ∈ m.sems key, (n : ℤ) = id

instance (m : Kernel κ) (key : κ) (id : ℤ) : Decidable (m.Has key id) :=
  inferInstanceAs (Decidable (∃ n ∈ m.sems key, (n : ℤ) = id))

-- `semctl(id, 0, IPC_RMID, 0)`, which fails if there is no such semaphore.
def remove (m : Kernel κ) (id : ℤ) : Kernel κ :=
  { m with sems := fun key => if m.Has key id then none else m.sems key }

def create [DecidableEq κ] (m : Kernel κ) (pid : ℕ) (key : κ) (id : ℕ) : Kernel κ where
  sems    := Function.update m.sems key (some id)
  creator := Function.update m.creator id (some (pid, key))

end Kernel

namespace Process

def goto (p : Process κ) (pc : Pc κ) : Process κ :=
  { p with pc }

variable [DecidableEq κ]

def set (p : Process κ) (key : κ) (id : ℤ) : Process κ :=
  { p with ids := Function.update p.ids key id }

variable [Fintype κ]

def step (P : Program κ) (pid : ℕ) (m : Kernel κ) (p : Process κ) : Input →
    Option (Kernel κ × Process κ)
  | .ok id =>
    match p.pc with
    | .startup j        =>
      match P.startup[j]? with
      | some (.semget key) =>
        if m.sems key = none ∧ m.creator id = none
        then some (m.create pid key id, (p.set key id).goto <| .startup (j + 1))
        else none
      | some (.check _)    => some (m, p.goto <| .startup (j + 1))
      | none               => some (m, p)
    | .exiting []       => some (m, p.goto .ended)
    | .exiting (k :: ks) => some (m.remove (p.ids k), p.goto <| .exiting ks)
    | .handler []       => some (m, p.goto .ended)
    | .handler (k :: ks) =>
      if P.strict ∧ ¬∃ key, m.Has key (p.ids k)
      then some (m, p.goto .ended)
      else some (m.remove (p.ids k), p.goto <| .handler ks)
    | .ended            => none
  | .fail =>
    match p.pc with
    | .startup j =>
      match P.startup[j]? with
      | some (.semget key) => some (m, (p.set key (-1)).goto <| .exiting [])
      | some (.check keys) => some (m, p.goto <| .exiting keys)
      | none               => if P.fails then some (m, p.goto <| .exiting []) else none
    | _          => none
  | .sigint =>
    match p.pc with
    | .startup _ | .exiting _ => some (m, p.goto <| .handler P.handler)
    | .handler _ | .ended     => none
  | .kill =>
    match p.pc with
    | .ended => none
    | _      => some (m, p.goto .ended)

end Process

-- Any number of processes that run the same program.
def Program.pool [DecidableEq κ] [Fintype κ] (P : Program κ) :
    Pool.Program (Kernel κ) (Process κ) Unit Input Empty where
  spawn _  := { ids := fun _ => 0, pc := .startup 0 }
  step     := Process.step P
  env _ x  := nomatch x

abbrev Action :=
  Pool.Action Unit Input Empty

def start (κ : Type*) : Pool (Kernel κ) (Process κ) where
  mem   := .initial
  procs := []

section

variable {P : Program κ} {m m' : Kernel κ} {p p' : Process κ} {pid i j n : ℕ} {id : ℤ} {key : κ}
variable {x : Input}

theorem Kernel.remove_eq_some :
    (m.remove id).sems key = some n ↔ m.sems key = some n ∧ n ≠ id := by
  by_cases hh : m.Has key id
  case pos =>
    refine iff_of_false (by simp [remove, hh]) fun ⟨h, hn⟩ => ?_
    have ⟨k, hk, he⟩ := hh
    cases hk.symm.trans h
    exact hn he
  case neg =>
    simp only [remove, hh, if_false]
    exact ⟨fun h => ⟨h, fun he => hh ⟨n, h, he⟩⟩, And.left⟩

-- The semaphore that the process is about to remove.
def Process.removes? (p : Process κ) : Option κ :=
  match p.pc with
  | .exiting keys | .handler keys => keys.head?
  | _ => none

-- A process that is told to end before it has created a semaphore has a zero in its variable, and
-- so removes the semaphore with the identifier 0 instead. Here this is not one of another process.
def Process.Spares (m : Kernel κ) (pid : ℕ) (p : Process κ) : Prop :=
  ∀ key ∈ p.removes?, p.ids key = 0 → ∀ k, m.sems k = some 0 → m.creator 0 = some (pid, k)

instance [DecidableEq κ] [Fintype κ] (m : Kernel κ) (pid : ℕ) (p : Process κ) :
    Decidable (p.Spares m pid) :=
  inferInstanceAs (Decidable (∀ key ∈ p.removes?, _ → ∀ _, _ → _))

def Spares (s : Pool (Kernel κ) (Process κ)) : Action → Prop
  | .act pid (.ok _) => ∀ p ∈ s.procs[pid]?, p.Spares s.mem pid
  | _                => True

instance [DecidableEq κ] [Fintype κ] (s : Pool (Kernel κ) (Process κ)) (a : Action) :
    Decidable (Spares s a) :=
  match a with
  | .act pid (.ok _) => inferInstanceAs (Decidable (∀ p ∈ s.procs[pid]?, p.Spares s.mem pid))
  | .act _ .fail | .act _ .sigint | .act _ .kill | .spawn _ | .env _ => isTrue trivial

-- Each identifier that a process knows is one that it has created itself, and as long as the
-- process has not been told to end, its semaphores are there.
structure Owns (P : Program κ) (m : Kernel κ) (pid : ℕ) (p : Process κ) : Prop where
  created : ∀ key, p.ids key = 0 ∨ p.ids key = -1 ∨
    ∃ n : ℕ, p.ids key = n ∧ m.creator n = some (pid, key)
  held    : ∀ {j key}, p.pc = .startup j → .semget key ∈ P.startup.take j →
    ∃ n : ℕ, p.ids key = n ∧ m.sems key = some n ∧ m.creator n = some (pid, key)

theorem mem_take_succ {c : Call κ} (hc : P.startup[j]? = some c)
    (h : .semget key ∈ P.startup.take (j + 1)) :
    .semget key ∈ P.startup.take j ∨ c = .semget key := by
  rw [List.take_add_one, hc, Option.toList_some, List.mem_append, List.mem_singleton] at h
  exact h.imp_right Eq.symm

namespace Owns

-- What a process removes is no semaphore of another one.
theorem ne_ids (h : Owns P m pid p) (hs : p.Spares m pid) {k : κ} (hr : p.removes? = some k)
    (hk : m.sems key = some n) (hc : m.creator n = some (i, key)) (hne : pid ≠ i) :
    (n : ℤ) ≠ p.ids k := by
  intro he
  rcases h.created k with h | h | ⟨n', h, hc'⟩
  case inl =>
    obtain rfl : n = 0 := by omega
    cases (hs k hr h key hk).symm.trans hc
    exact hne rfl
  case inr.inl => omega
  case inr.inr =>
    obtain rfl : n = n' := by omega
    cases hc'.symm.trans hc
    exact hne rfl

theorem goto (h : Owns P m pid p) {pc : Pc κ} (hpc : ∀ j, pc ≠ .startup j) :
    Owns P m pid (p.goto pc) where
  created    := h.created
  held hpc' _ := absurd hpc' (hpc _)

theorem goto_check (h : Owns P m pid p) (hpc : p.pc = .startup j) {keys : List κ}
    (hc : P.startup[j]? = some (.check keys)) : Owns P m pid (p.goto <| .startup (j + 1)) where
  created     := h.created
  held hpc' hk := by
    cases hpc'
    exact h.held hpc <| (mem_take_succ hc hk).resolve_right nofun

end Owns

-- A process that is past the creation of a semaphore.
def Process.Past (P : Program κ) (key : κ) (p : Process κ) : Prop :=
  ∃ j, p.pc = .startup j ∧ .semget key ∈ P.startup.take j

theorem Owns.past (h : Owns P m pid p) (hp : p.Past P key) :
    ∃ n : ℕ, m.sems key = some n ∧ m.creator n = some (pid, key) := by
  have ⟨j, hpc, hk⟩ := hp
  have ⟨n, _, h⟩ := h.held hpc hk
  exact ⟨n, h⟩

variable [DecidableEq κ]

namespace Kernel

theorem create_sems (h : m.sems key = none) {k : κ} {n' : ℕ} (hk : m.sems k = some n') :
    (m.create pid key n).sems k = some n' := by
  refine (Function.update_of_ne ?_ _ _).trans hk
  rintro rfl
  simp [h] at hk

theorem create_creator (h : m.creator n = none) {n' : ℕ} {o : ℕ × κ} (ho : m.creator n' = some o) :
    (m.create pid key n).creator n' = some o := by
  refine (Function.update_of_ne ?_ _ _).trans ho
  rintro rfl
  simp [h] at ho

end Kernel

namespace Owns

theorem semget (h : Owns P m pid p) (hpc : p.pc = .startup j)
    (hc : P.startup[j]? = some (.semget key)) (hs : m.sems key = none) (hi : m.creator n = none) :
    Owns P (m.create pid key n) pid ((p.set key n).goto <| .startup (j + 1)) where
  created k := by
    by_cases hk : k = key
    case pos =>
      subst hk
      exact .inr <| .inr ⟨n, Function.update_self _ _ _, Function.update_self _ _ _⟩
    case neg =>
      have hp : (p.set key n).ids k = p.ids k := Function.update_of_ne hk _ _
      exact hp ▸ (h.created k).imp_right (Or.imp_right fun ⟨n', hn, hc'⟩ =>
        ⟨n', hn, Kernel.create_creator hi hc'⟩)
  held {_ k} hpc' hk := by
    cases hpc'
    by_cases he : k = key
    case pos =>
      subst he
      exact ⟨n, Function.update_self _ _ _, Function.update_self _ _ _, Function.update_self _ _ _⟩
    case neg =>
      have hk := (mem_take_succ hc hk).resolve_right fun h => he (Call.semget.inj h).symm
      have ⟨n', hn, hs', hc'⟩ := h.held hpc hk
      exact ⟨n', (Function.update_of_ne he _ _).trans hn, Kernel.create_sems hs hs',
        Kernel.create_creator hi hc'⟩

theorem denied (h : Owns P m pid p) : Owns P m pid ((p.set key (-1)).goto <| .exiting []) where
  created k := by
    by_cases hk : k = key
    case pos =>
      subst hk
      exact .inr <| .inl <| Function.update_self _ _ _
    case neg =>
      have hp : (p.set key (-1)).ids k = p.ids k := Function.update_of_ne hk _ _
      exact hp ▸ h.created k
  held hpc _ := nomatch hpc

end Owns

variable [Fintype κ]

-- What a step does, as far as the semaphores are concerned.
inductive Move (P : Program κ) (pid : ℕ) (m : Kernel κ) (p : Process κ) :
    Input → Kernel κ → Process κ → Prop
  | semget {j : ℕ} {key : κ} {id : ℕ} (hpc : p.pc = .startup j)
    (hc : P.startup[j]? = some (.semget key)) (hs : m.sems key = none) (hi : m.creator id = none) :
    Move P pid m p (.ok id) (m.create pid key id) ((p.set key id).goto <| .startup (j + 1))
  | check {j : ℕ} {keys : List κ} {id : ℕ} (hpc : p.pc = .startup j)
    (hc : P.startup[j]? = some (.check keys)) :
    Move P pid m p (.ok id) m (p.goto <| .startup (j + 1))
  | serve {j id : ℕ} (hpc : p.pc = .startup j) (hc : P.startup[j]? = none) :
    Move P pid m p (.ok id) m p
  | denied {j : ℕ} {key : κ} (hpc : p.pc = .startup j)
    (hc : P.startup[j]? = some (.semget key)) :
    Move P pid m p .fail m ((p.set key (-1)).goto <| .exiting [])
  | failed {j : ℕ} {keys : List κ} (hpc : p.pc = .startup j)
    (hc : P.startup[j]? = some (.check keys)) :
    Move P pid m p .fail m (p.goto <| .exiting keys)
  | stopped {j : ℕ} (hpc : p.pc = .startup j) (hc : P.startup[j]? = none) (hf : P.fails = true) :
    Move P pid m p .fail m (p.goto <| .exiting [])
  | exit {id : ℕ} (hpc : p.pc = .exiting [] ∨ p.pc = .handler []) :
    Move P pid m p (.ok id) m (p.goto .ended)
  | clean {key : κ} {keys : List κ} {id : ℕ} (hpc : p.pc = .exiting (key :: keys)) :
    Move P pid m p (.ok id) (m.remove (p.ids key)) (p.goto <| .exiting keys)
  | remove {key : κ} {keys : List κ} {id : ℕ} (hpc : p.pc = .handler (key :: keys)) :
    Move P pid m p (.ok id) (m.remove (p.ids key)) (p.goto <| .handler keys)
  | refused {key : κ} {keys : List κ} {id : ℕ} (hpc : p.pc = .handler (key :: keys))
    (hs : P.strict = true) (hn : ¬∃ k, m.Has k (p.ids key)) :
    Move P pid m p (.ok id) m (p.goto .ended)
  | sigint (hpc : (∃ j, p.pc = .startup j) ∨ ∃ keys, p.pc = .exiting keys) :
    Move P pid m p .sigint m (p.goto <| .handler P.handler)
  | kill : Move P pid m p .kill m (p.goto .ended)

theorem Move.of_step (h : p.step P pid m x = some (m', p')) : Move P pid m p x m' p' := by
  cases x <;> cases hpc : p.pc <;> simp only [Process.step, hpc, reduceCtorEq] at h
  case ok.startup j =>
    cases hc : P.startup[j]?
    case none =>
      rw [hc] at h
      cases h
      exact .serve hpc hc
    case some c =>
      cases c <;> simp only [hc] at h
      case check =>
        cases h
        exact .check hpc hc
      case semget =>
        simp only [Option.ite_none_right_eq_some] at h
        obtain ⟨⟨hs, hi⟩, h⟩ := h
        cases h
        exact .semget hpc hc hs hi
  case ok.exiting keys =>
    cases keys <;> cases h
    case nil  => exact .exit (.inl hpc)
    case cons => exact .clean hpc
  case ok.handler keys =>
    cases keys
    case nil =>
      cases h
      exact .exit (.inr hpc)
    case cons =>
      dsimp only at h
      split at h
      case isTrue hn =>
        cases h
        exact .refused hpc hn.left hn.right
      case isFalse =>
        cases h
        exact .remove hpc
  case fail.startup j =>
    cases hc : P.startup[j]?
    case none =>
      simp only [hc, Option.ite_none_right_eq_some] at h
      obtain ⟨hf, h⟩ := h
      cases h
      exact .stopped hpc hc hf
    case some c =>
      cases c <;> simp only [hc] at h <;> cases h
      case check  => exact .failed hpc hc
      case semget => exact .denied hpc hc
  case sigint.startup => cases h; exact .sigint (.inl ⟨_, hpc⟩)
  case sigint.exiting => cases h; exact .sigint (.inr ⟨_, hpc⟩)
  all_goals
    cases h
    exact .kill

omit [Fintype κ] in
theorem Owns.move (h : Owns P m pid p) (hs : Move P pid m p x m' p') : Owns P m' pid p' := by
  cases hs
  case semget hpc hc hk hi  => exact h.semget hpc hc hk hi
  case check hpc hc         => exact h.goto_check hpc hc
  case serve                => exact h
  case denied               => exact h.denied
  case clean                => exact ⟨h.created, nofun⟩
  case remove               => exact ⟨h.created, nofun⟩
  all_goals exact h.goto nofun

omit [Fintype κ] in
-- What one process creates or removes is of no concern to the others.
theorem Owns.leaves (h : Owns P m pid p) (hp : ∀ id, x = .ok id → p.Spares m pid)
    (hs : Move P pid m p x m' p') (hne : pid ≠ i) (hk : m.sems key = some n)
    (hc : m.creator n = some (i, key)) :
    m'.sems key = some n ∧ m'.creator n = some (i, key) := by
  cases hs
  case semget hf hi => exact ⟨Kernel.create_sems hf hk, Kernel.create_creator hi hc⟩
  case clean hpc | remove hpc =>
    refine ⟨Kernel.remove_eq_some.mpr ⟨hk, h.ne_ids (hp _ rfl) ?_ hk hc hne⟩, hc⟩
    simp [Process.removes?, hpc]
  all_goals exact ⟨hk, hc⟩

omit [Fintype κ] in
theorem Move.creator {o : ℕ × κ} (hs : Move P pid m p x m' p') (ho : m.creator n = some o) :
    m'.creator n = some o := by
  cases hs
  case semget hi => exact Kernel.create_creator hi ho
  all_goals exact ho

omit [Fintype κ] in
theorem Owns.frame {q : Process κ} (h : Owns P m i q) (hp : Owns P m pid p)
    (hx : ∀ id, x = .ok id → p.Spares m pid) (hs : Move P pid m p x m' p') (hne : pid ≠ i) :
    Owns P m' i q where
  created k   := (h.created k).imp_right <| Or.imp_right fun ⟨n, hn, hc⟩ => ⟨n, hn, hs.creator hc⟩
  held hpc hk := by
    have ⟨n, hn, hk, hc⟩ := h.held hpc hk
    exact ⟨n, hn, hp.leaves hx hs hne hk hc⟩

omit [DecidableEq κ] [Fintype κ] in
theorem Spares.of_ok {s : Pool (Kernel κ) (Process κ)} (h : Spares s (.act pid x))
    (hp : s.procs[pid]? = some p) (id : ℕ) (hx : x = .ok id) : p.Spares s.mem pid := by
  subst hx
  exact h p hp

theorem annotation : Pool.Annotation P.pool Spares (fun _ => True) (Owns P) where
  spawn _ _ := ⟨fun _ => .inl rfl, fun hpc hk => by cases hpc; simp at hk⟩
  env {_ _ x} := nomatch x
  step hs _ a := ⟨trivial, (hs.procs a.get).move <| .of_step a.step⟩
  other hs hc a _ _ hj hq :=
    (hs.procs hq).frame (hs.procs a.get) (hc.of_ok a.get) (.of_step a.step) hj.symm

section Runs

variable {s s₁ s' : Pool (Kernel κ) (Process κ)} {q : Process κ}

abbrev Program.machine (P : Program κ) : Machine (Pool (Kernel κ) (Process κ)) Action :=
  Pool.machine P.pool

theorem annotated (e : P.machine.Run (start κ) s) (hc : e.AllSteps Spares) :
    Pool.Annotated (fun _ => True) (Owns P) s :=
  annotation.run ⟨trivial, fun hp => by simp [start] at hp⟩ e hc

-- The process `i` has ended, or is about to, and has left its semaphore behind.
structure Abandoned (P : Program κ) (key : κ) (i : ℕ) (s : Pool (Kernel κ) (Process κ)) : Prop where
  owns : Pool.Annotated (fun _ => True) (Owns P) s
  left : ∃ n : ℕ, s.mem.sems key = some n ∧ s.mem.creator n = some (i, key)
  gone : ∃ p, s.procs[i]? = some p ∧ (p.pc = .exiting [] ∨ p.pc = .ended)

-- Nobody tells the process `i` to end.
def Unasked (i : ℕ) (_ : Pool (Kernel κ) (Process κ)) (a : Action) : Prop :=
  a ≠ .act i .sigint

omit [Fintype κ] in
theorem Move.gone (hs : Move P pid m p x m' p') (hx : x ≠ .sigint)
    (hpc : p.pc = .exiting [] ∨ p.pc = .ended) : m' = m ∧ p'.pc = .ended := by
  cases hs
  case sigint => contradiction
  case exit   => exact ⟨rfl, rfl⟩
  case kill   => exact ⟨rfl, rfl⟩
  all_goals simp_all

theorem Abandoned.step {x : Action} (h : Abandoned P key i s) (hn : Spares s x)
    (hu : Unasked i s x) (hs : P.machine.step s x = some s') : Abandoned P key i s' := by
  have hs' := annotation.preserves h.owns hn hs
  have ⟨n, hk, hc⟩ := h.left
  have ⟨p, hp, hpc⟩ := h.gone
  cases x
  case env x => nomatch x
  case spawn =>
    cases Pool.spawn_eq hs
    have ⟨hl, _⟩ := List.getElem?_eq_some_iff.mp hp
    exact ⟨hs', h.left, p, by rw [List.getElem?_append_left hl, hp], hpc⟩
  case act pid x =>
    have ⟨t⟩ := Pool.Acts.of_step hs
    have hm := Move.of_step t.step
    by_cases hi : pid = i
    case pos =>
      subst hi
      obtain rfl := Option.some.inj (t.get.symm.trans hp)
      have ⟨hm, hpc'⟩ := hm.gone (fun hx => hu (hx ▸ rfl)) hpc
      exact ⟨hs', ⟨n, hm ▸ hk, hm ▸ hc⟩, t.post, t.get_post, .inr hpc'⟩
    case neg =>
      have ⟨hk', hc'⟩ := (h.owns.procs t.get).leaves (hn.of_ok t.get) hm hi hk hc
      exact ⟨hs', ⟨n, hk', hc'⟩, p, (t.get_other (Ne.symm hi)).trans hp, hpc⟩

omit [DecidableEq κ] [Fintype κ] in
-- As long as it is left behind, nobody gets past its creation.
theorem Abandoned.not_past (h : Abandoned P key i s) (hj : s.procs[j]? = some q) :
    ¬q.Past P key := by
  intro hq
  have ⟨n, hk, hc⟩ := h.left
  have ⟨n', hk', hc'⟩ := (h.owns.procs hj).past hq
  cases hk.symm.trans hk'
  cases hc.symm.trans hc'
  have ⟨p, hp, hpc⟩ := h.gone
  cases hp.symm.trans hj
  have ⟨_, hq, _⟩ := hq
  simp [hq] at hpc

-- A program that cleans up nothing leaves its semaphore behind when a call fails.
theorem Abandoned.of_step (hc : ∀ keys, .check keys ∈ P.startup → keys = [])
    (h : Pool.Annotated (fun _ => True) (Owns P) s) (hp : s.procs[i]? = some p) (hq : p.Past P key)
    {x : Input} (hx : x = .fail ∨ x = .kill) (hs : P.machine.step s (.act i x) = some s') :
    Abandoned P key i s' := by
  have hn : Spares s (.act i x) := by rcases hx with rfl | rfl <;> trivial
  have hs' := annotation.preserves h hn hs
  have ⟨t⟩ := Pool.Acts.of_step hs
  obtain rfl := Option.some.inj (t.get.symm.trans hp)
  have ⟨n, hk, hcr⟩ := (h.procs hp).past hq
  have hm : s'.mem = s.mem ∧ (t.post.pc = .exiting [] ∨ t.post.pc = .ended) := by
    have hmv := Move.of_step t.step
    generalize t.post = p', s'.mem = m' at hmv
    rcases hx with rfl | rfl <;> cases hmv
    case inl.denied          => exact ⟨rfl, .inl rfl⟩
    case inl.failed hpc hcal =>
      obtain rfl := hc _ (List.mem_of_getElem? hcal)
      exact ⟨rfl, .inl rfl⟩
    case inl.stopped         => exact ⟨rfl, .inl rfl⟩
    case inr.kill            => exact ⟨rfl, .inr rfl⟩
  exact ⟨hs', ⟨n, hm.left ▸ hk, hm.left ▸ hcr⟩, t.post, t.get_post, hm.right⟩

-- From then on nobody gets past its creation any more.
theorem never_past (hc : ∀ keys, .check keys ∈ P.startup → keys = [])
    (e : P.machine.Run (start κ) s) (he : e.AllSteps Spares) (hp : s.procs[i]? = some p)
    (hq : p.Past P key) {x : Input} (hx : x = .fail ∨ x = .kill)
    (hs : P.machine.step s (.act i x) = some s₁) (f : P.machine.Run s₁ s')
    (hf : f.AllSteps fun s a => Spares s a ∧ Unasked i s a) :
    ∀ q ∈ s'.procs, ¬q.Past P key := by
  have ha := Abandoned.of_step hc (annotated e he) hp hq hx hs
  have ha := f.invariant ha (fun _ _ _ h hn hs => h.step hn.left hn.right hs) hf
  intro q hq
  have ⟨_, hj⟩ := List.getElem?_of_mem hq
  exact ha.not_past hj

-- A process that is still going to remove its semaphore.
def Process.Tends (P : Program κ) (key : κ) (p : Process κ) : Prop :=
  match p.pc with
  | .startup j    => .semget key ∈ P.startup.take j
  | .exiting keys => key ∈ keys
  | .handler keys => key ∈ keys ∧ (P.strict → keys.head? = some key)
  | .ended        => False

-- There is no semaphore with the key unless the process that has created it is still going to
-- remove it.
def Tended (P : Program κ) (key : κ) (s : Pool (Kernel κ) (Process κ)) : Prop :=
  ∀ n, s.mem.sems key = some n → ∃ p ∈ s.procs, p.ids key = n ∧ p.Tends P key

-- A process at a call that removes the semaphore if it fails.
def Process.CleansUp (P : Program κ) (key : κ) (p : Process κ) : Prop :=
  ∃ j, p.pc = .startup j ∧ ∃ keys, P.startup[j]? = some (.check keys) ∧ key ∈ keys

-- Nobody is killed, and nobody who has created the semaphore fails at a call after which it is not
-- removed.
def Tidy (P : Program κ) (key : κ) (s : Pool (Kernel κ) (Process κ)) : Action → Prop
  | .act _ .kill   => False
  | .act pid .fail => ∀ p ∈ s.procs[pid]?, p.Past P key → p.CleansUp P key
  | _              => True

-- The handler removes the semaphore, and what it may fail to remove comes later.
def Program.Removes (P : Program κ) (key : κ) : Prop :=
  key ∈ P.handler ∧ (P.strict → P.handler.head? = some key)

omit [DecidableEq κ] [Fintype κ] in
theorem Process.CleansUp.of_pc (h : p.CleansUp P key) (hpc : p.pc = .startup j) :
    ∃ keys, P.startup[j]? = some (.check keys) ∧ key ∈ keys := by
  have ⟨_, hpc', h⟩ := h
  cases hpc.symm.trans hpc'
  exact h

omit [Fintype κ] in
theorem Process.Tends.move (ht : p.Tends P key) (hh : P.Removes key) (hi : p.ids key = n)
    (hk : m.sems key = some n) (hs : Move P pid m p x m' p') (hk' : m'.sems key = some n)
    (hx : x ≠ .kill) (hf : x = .fail → p.Past P key → p.CleansUp P key) :
    p'.ids key = n ∧ p'.Tends P key := by
  cases hs
  case semget j k id hpc hc hs hi' =>
    simp only [Tends, hpc] at ht
    have hne : key ≠ k := by
      rintro rfl
      simp [hs] at hk
    exact ⟨(Function.update_of_ne hne _ _).trans hi, List.take_subset_take_left _ j.le_succ ht⟩
  case check j keys id hpc hc =>
    simp only [Tends, hpc] at ht
    exact ⟨hi, List.take_subset_take_left _ j.le_succ ht⟩
  case serve => exact ⟨hi, ht⟩
  case denied j k hpc hc =>
    simp only [Tends, hpc] at ht
    have ⟨_, hc', _⟩ := (hf rfl ⟨j, hpc, ht⟩).of_pc hpc
    cases hc.symm.trans hc'
  case failed j keys hpc hc =>
    simp only [Tends, hpc] at ht
    have ⟨_, hc', hk⟩ := (hf rfl ⟨j, hpc, ht⟩).of_pc hpc
    cases hc.symm.trans hc'
    exact ⟨hi, hk⟩
  case stopped j hpc hc hs =>
    simp only [Tends, hpc] at ht
    have ⟨_, hc', _⟩ := (hf rfl ⟨j, hpc, ht⟩).of_pc hpc
    cases hc.symm.trans hc'
  case exit hpc =>
    rcases hpc with hpc | hpc <;> simp [Tends, hpc] at ht
  case clean k keys id hpc =>
    simp only [Tends, hpc] at ht
    have hne : key ≠ k := by
      rintro rfl
      exact (Kernel.remove_eq_some.mp hk').right hi.symm
    exact ⟨hi, (List.mem_cons.mp ht).resolve_left hne⟩
  case remove k keys id hpc =>
    simp only [Tends, hpc] at ht
    have hne : key ≠ k := by
      rintro rfl
      exact (Kernel.remove_eq_some.mp hk').right hi.symm
    refine ⟨hi, (List.mem_cons.mp ht.left).resolve_left hne, fun hs => ?_⟩
    exact absurd (Option.some.inj <| ht.right hs).symm hne
  case refused k keys id hpc hs hn =>
    simp only [Tends, hpc] at ht
    obtain rfl : k = key := Option.some.inj <| ht.right hs
    exact absurd ⟨k, n, hk, hi.symm⟩ hn
  case sigint => exact ⟨hi, hh⟩
  case kill   => contradiction

theorem Tended.step {x : Action} (h : Tended P key s) (hh : P.Removes key) (ht : Tidy P key s x)
    (hs : P.machine.step s x = some s') : Tended P key s' := by
  intro n hn
  cases x
  case env x => nomatch x
  case spawn =>
    cases Pool.spawn_eq hs
    have ⟨p, hp, h⟩ := h n hn
    exact ⟨p, List.mem_append_left _ hp, h⟩
  case act pid x =>
    have ⟨t⟩ := Pool.Acts.of_step hs
    have hmv := Move.of_step t.step
    by_cases hk : s.mem.sems key = some n
    case pos =>
      have ⟨p, hp, hi, hpt⟩ := h n hk
      have ⟨i, hget⟩ := List.getElem?_of_mem hp
      by_cases hne : i = pid
      case neg => exact ⟨p, List.mem_of_getElem? <| (t.get_other hne).trans hget, hi, hpt⟩
      case pos =>
        subst hne
        obtain rfl := Option.some.inj (t.get.symm.trans hget)
        refine ⟨t.post, List.mem_of_getElem? t.get_post, hpt.move hh hi hk hmv hn ?_ ?_⟩
        all_goals rintro rfl
        exacts [ht, ht _ hget]
    case neg =>
      -- Only the process that has just created the semaphore can be the reason.
      refine ⟨t.post, List.mem_of_getElem? t.get_post, ?_⟩
      have hr : ∀ id, (s.mem.remove id).sems key ≠ some n :=
        fun id he => hk (Kernel.remove_eq_some.mp he).left
      generalize t.post = p', s'.mem = m' at hmv hn
      cases hmv
      case semget j k id hc hf hi hpc =>
        have he : key = k := by
          by_contra hne
          exact hk <| (Function.update_of_ne hne _ _).symm.trans hn
        subst he
        have hi : (s.mem.create pid key id).sems key = some id := Function.update_self _ _ _
        obtain rfl := Option.some.inj <| hi.symm.trans hn
        refine ⟨Function.update_self _ _ _, ?_⟩
        exact List.mem_of_getElem? <| (List.getElem?_take_of_lt j.lt_succ_self).trans hc
      case clean  => exact absurd hn (hr _)
      case remove => exact absurd hn (hr _)
      all_goals exact absurd hn hk

end Runs

end
end SysV
