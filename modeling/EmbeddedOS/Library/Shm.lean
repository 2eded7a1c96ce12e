import EmbeddedOS.Library.Lists
import EmbeddedOS.Library.Machine

-- System V semaphores and shared memory segments that a process has created, and that it shares
-- with the children that it forks. All of them run the same handler when they are told to end.
namespace Shm

-- How many processes have a segment attached, and whether it has been marked to be destroyed, which
-- it is as soon as nobody has it attached.
structure Segment where
  nattch : ℕ
  dest   : Bool
deriving DecidableEq

namespace Segment

variable (g : Segment)

def attach : Segment :=
  { g with nattch := g.nattch + 1 }

def detach : Option Segment :=
  if g.nattch ≤ 1 ∧ g.dest then none else some { g with nattch := g.nattch - 1 }

-- `shmctl(shmid, IPC_RMID, NULL)`
def remove : Option Segment :=
  if g.nattch = 0 then none else some { g with dest := true }

end Segment

-- The statements of a handler: a semaphore is removed, where a failure is only reported, a segment
-- is detached, and it is removed, where the process exits if it fails.
inductive Statement (κ φ : Type*)
  | semctl (sem : κ)
  | shmdt (seg : φ)
  | shmctl (seg : φ)
deriving DecidableEq

inductive Pc
  | serving
  | handling (j : ℕ)
  | ended
deriving DecidableEq

-- The semaphores that exist, the segments that exist, and the processes.
structure System (κ φ : Type*) where
  sems  : κ → Bool
  segs  : φ → Option Segment
  procs : List Pc

-- The second removal of a segment that is still attached may succeed or fail. The signal does not
-- interrupt its own handler.
inductive Action
  | fork (i : ℕ)
  | sigint (i : ℕ)
  | run (i : ℕ) (ok : Bool)    -- the next statement of the handler
  | exit (i : ℕ)               -- the process ends where it is
deriving DecidableEq

variable {κ φ : Type*} [DecidableEq κ] [DecidableEq φ] {P : List (Statement κ φ)}

-- A process has all segments attached until it detaches them.
def Pc.attached (P : List (Statement κ φ)) (k : φ) : Pc → Bool
  | serving    => true
  | handling j => .shmdt k ∉ P.take j
  | ended      => false

namespace System

def start (κ φ : Type*) : System κ φ where
  sems _ := true
  segs _ := some ⟨1, false⟩
  procs  := [.serving]

variable (s : System κ φ)

def goto (i : ℕ) (pc : Pc) : System κ φ :=
  { s with procs := s.procs.set i pc }

def setSeg (k : φ) (o : Option Segment) : System κ φ :=
  { s with segs := Function.update s.segs k o }

def detach (k : φ) : System κ φ :=
  s.setSeg k ((s.segs k).bind Segment.detach)

-- The end of a process detaches what it still has attached.
def exit (P : List (Statement κ φ)) (i : ℕ) (pc : Pc) : System κ φ where
  sems   := s.sems
  segs k := if pc.attached P k then (s.segs k).bind Segment.detach else s.segs k
  procs  := s.procs.set i .ended

-- The statement `j` of the handler, and the exit behind its last one.
def handle (P : List (Statement κ φ)) (i j : ℕ) (ok : Bool) : System κ φ :=
  match P[j]? with
  | none             => s.exit P i (.handling j)
  | some (.semctl k) => { s with sems := Function.update s.sems k false }.goto i (.handling (j + 1))
  | some (.shmdt k)  =>
    (if Pc.attached P k (.handling j) then s.detach k else s).goto i (.handling (j + 1))
  | some (.shmctl k) =>
    match s.segs k with
    | none   => s.exit P i (.handling j)
    | some g =>
      if g.dest ∧ ¬ok then s.exit P i (.handling j)
      else (s.setSeg k g.remove).goto i (.handling (j + 1))

def step (P : List (Statement κ φ)) : Action → Option (System κ φ)
  | .fork i   =>
    if s.procs[i]? = some .serving
    then some { s with segs := Option.map Segment.attach ∘ s.segs, procs := s.procs ++ [.serving] }
    else none
  | .sigint i => if s.procs[i]? = some .serving then some (s.goto i (.handling 0)) else none
  | .run i ok =>
    match s.procs[i]? with
    | some (.handling j) => some (s.handle P i j ok)
    | _                  => none
  | .exit i   =>
    match s.procs[i]? with
    | some .ended | none => none
    | some pc            => some (s.exit P i pc)

end System

def machine (P : List (Statement κ φ)) : Machine (System κ φ) Action where
  step s := s.step P

-- Nobody is killed inside of the handler.
def Calm (s : System κ φ) : Action → Prop
  | .exit i => s.procs[i]? = some .serving
  | _       => True

instance (s : System κ φ) (a : Action) : Decidable (Calm s a) :=
  match a with
  | .exit _                        => inferInstanceAs (Decidable (_ = _))
  | .fork _ | .sigint _ | .run _ _ => inferInstanceAs (Decidable True)

-- The signals of a run.
def sigint? (_ : System κ φ) : Action → Option ℕ
  | .sigint i => some i
  | _         => none

section

variable {s s' : System κ φ} {i j n p : ℕ} {k : φ} {o : Option Segment} {g : Segment} {pc pc' : Pc}

-- What becomes of a segment that has been removed: it is marked, or it is gone.
def Removed (o : Option Segment) : Prop :=
  ∀ g ∈ o, g.dest = true

theorem removed_attach : Removed (o.map Segment.attach) ↔ Removed o := by
  cases o <;> simp [Removed, Segment.attach]

theorem removed_detach : Removed (o.bind Segment.detach) ↔ Removed o := by
  cases o
  case none => rfl
  case some g =>
    by_cases h : g.nattch ≤ 1 ∧ g.dest = true
    case pos => simp [Removed, Segment.detach, h]
    case neg => simp [Removed, Segment.detach, h]

theorem removed_remove : Removed g.remove := by
  unfold Segment.remove
  split <;> simp [Removed]

-- The kernel keeps the books on a segment that `n` processes have attached.
def Fits : Option Segment → ℕ → Prop
  | none, n   => n = 0
  | some g, n => g.nattch = n ∧ (g.dest = true → n ≠ 0)

theorem Fits.attach (h : Fits o n) (hn : n ≠ 0) : Fits (o.map Segment.attach) (n + 1) := by
  cases o
  case none   => exact absurd h hn
  case some g => exact ⟨congrArg (· + 1) h.left, fun _ => n.succ_ne_zero⟩

theorem Fits.detach (h : Fits o (n + 1)) : Fits (o.bind Segment.detach) n := by
  cases o
  case none => exact absurd h n.succ_ne_zero
  case some g =>
    have hg : g.nattch = n + 1 := h.left
    by_cases hd : g.nattch ≤ 1 ∧ g.dest = true
    case pos =>
      simp only [Option.bind_some, Segment.detach, hd, and_self, if_true, Fits]
      omega
    case neg =>
      simp only [Option.bind_some, Segment.detach, hd, if_false, Fits]
      exact ⟨by omega, fun hd' hn => hd ⟨by omega, hd'⟩⟩

theorem Fits.remove (h : Fits (some g) n) : Fits g.remove n := by
  unfold Segment.remove
  split
  case isTrue hn  => exact h.left.symm.trans hn
  case isFalse hn => exact ⟨h.left, fun _ he => hn (h.left.trans he)⟩

-- Only its own `shmdt` detaches a segment.
theorem attached_succ : Pc.attached P k (.handling (j + 1)) =
    (Pc.attached P k (.handling j) && decide (P[j]? ≠ some (.shmdt k))) := by
  simp only [Pc.attached, List.take_add_one, List.mem_append, Option.mem_toList, not_or,
    Bool.decide_and, ne_eq]

def System.users (P : List (Statement κ φ)) (s : System κ φ) (k : φ) : ℕ :=
  s.procs.countP (Pc.attached P k)

theorem users_set {procs : List Pc} (hi : procs[i]? = some pc) (pc' : Pc) (k : φ) :
    (procs.set i pc').countP (Pc.attached P k) + (Pc.attached P k pc).toNat =
      procs.countP (Pc.attached P k) + (Pc.attached P k pc').toNat := by
  have ⟨hl, hg⟩ := List.getElem?_eq_some_iff.mp hi
  have hc : 0 < procs.countP (Pc.attached P k) ∨ Pc.attached P k pc = false := by
    by_cases ha : Pc.attached P k pc = true
    case pos => exact .inl <| List.countP_pos_iff.mpr ⟨pc, List.mem_of_getElem? hi, ha⟩
    case neg => exact .inr <| eq_false_of_ne_true ha
  rw [List.countP_set hl, hg]
  cases h₁ : Pc.attached P k pc <;> cases h₂ : Pc.attached P k pc' <;> simp_all

-- What the steps are, as far as the objects are concerned.
inductive Move (P : List (Statement κ φ)) (s : System κ φ) : Action → System κ φ → Prop
  | fork {i : ℕ} (hi : s.procs[i]? = some .serving) : Move P s (.fork i)
    { s with segs := Option.map Segment.attach ∘ s.segs, procs := s.procs ++ [.serving] }
  | sigint {i : ℕ} (hi : s.procs[i]? = some .serving) :
    Move P s (.sigint i) (s.goto i (.handling 0))
  | semctl {i j : ℕ} {k : κ} {ok : Bool} (hi : s.procs[i]? = some (.handling j))
    (hj : P[j]? = some (.semctl k)) : Move P s (.run i ok)
      ({ s with sems := Function.update s.sems k false }.goto i (.handling (j + 1)))
  | shmdt {i j : ℕ} {k : φ} {ok : Bool} (hi : s.procs[i]? = some (.handling j))
    (hj : P[j]? = some (.shmdt k)) : Move P s (.run i ok)
      ((if Pc.attached P k (.handling j) then s.detach k else s).goto i (.handling (j + 1)))
  | shmctl {i j : ℕ} {k : φ} {g : Segment} {ok : Bool} (hi : s.procs[i]? = some (.handling j))
    (hj : P[j]? = some (.shmctl k)) (hg : s.segs k = some g) :
    Move P s (.run i ok) ((s.setSeg k g.remove).goto i (.handling (j + 1)))
  | failed {i j : ℕ} {k : φ} {ok : Bool} (hi : s.procs[i]? = some (.handling j))
    (hj : P[j]? = some (.shmctl k)) (hg : Removed (s.segs k)) :
    Move P s (.run i ok) (s.exit P i (.handling j))
  | done {i j : ℕ} {ok : Bool} (hi : s.procs[i]? = some (.handling j)) (hj : P[j]? = none) :
    Move P s (.run i ok) (s.exit P i (.handling j))
  | exit {i : ℕ} {pc : Pc} (hi : s.procs[i]? = some pc) : Move P s (.exit i) (s.exit P i pc)

theorem Move.of_step {a : Action} (h : (machine P).step s a = some s') : Move P s a s' := by
  cases a
  case fork i =>
    obtain ⟨hi, h⟩ := Option.ite_none_right_eq_some.mp h
    cases h
    exact .fork hi
  case sigint i =>
    obtain ⟨hi, h⟩ := Option.ite_none_right_eq_some.mp h
    cases h
    exact .sigint hi
  case exit i =>
    simp only [machine, System.step] at h
    split at h
    case h_3 pc _ _ hi => cases h; exact .exit hi
    all_goals contradiction
  case run i ok =>
    simp only [machine, System.step] at h
    split at h
    case h_2 => contradiction
    case h_1 j hi =>
      cases h
      unfold System.handle
      split
      case h_1 hj => exact .done hi hj
      case h_2 hj => exact .semctl hi hj
      case h_3 hj => exact .shmdt hi hj
      case h_4 k hj =>
        split
        case h_1 hg => exact .failed hi hj (by simp [Removed, hg])
        case h_2 g hg =>
          split
          case isTrue hd  => exact .failed hi hj (by simp [Removed, hg, hd.left])
          case isFalse hd => exact .shmctl hi hj hg

namespace System

omit [DecidableEq κ] in
theorem segs_setSeg_self : ((s.setSeg k o).goto i pc).segs k = o :=
  Function.update_self _ _ _

omit [DecidableEq κ] in
theorem segs_setSeg_of_ne {k' : φ} (hk : k' ≠ k) :
    ((s.setSeg k o).goto i pc).segs k' = s.segs k' :=
  Function.update_of_ne hk _ _

end System

def System.Sound (P : List (Statement κ φ)) (s : System κ φ) : Prop :=
  ∀ k, Fits (s.segs k) (s.users P k)

namespace System.Sound

theorem start : (start κ φ).Sound P := by
  intro k
  exact ⟨rfl, nofun⟩

theorem fork (h : s.Sound P) (hi : s.procs[i]? = some .serving) :
    Sound P
      { s with segs := Option.map Segment.attach ∘ s.segs, procs := s.procs ++ [.serving] } := by
  intro k
  have hu : s.users P k ≠ 0 :=
    (List.countP_pos_iff.mpr ⟨_, List.mem_of_getElem? hi, rfl⟩).ne'
  have ha := (h k).attach hu
  simpa [users, Pc.attached] using ha

-- A process goes on, and has a segment attached as before, or it no longer has it.
theorem kept (h : s.Sound P) (hi : s.procs[i]? = some pc)
    (hk : pc'.attached P k = pc.attached P k) :
    Fits (s.segs k) ((s.procs.set i pc').countP (Pc.attached P k)) := by
  have hu := users_set (P := P) hi pc' k
  rw [hk, Nat.add_right_cancel_iff] at hu
  exact (congrArg (Fits (s.segs k)) hu).mpr (h k)

theorem released (h : s.Sound P) (hi : s.procs[i]? = some pc) (hk : pc.attached P k = true)
    (hk' : pc'.attached P k = false) :
    Fits ((s.segs k).bind Segment.detach) ((s.procs.set i pc').countP (Pc.attached P k)) := by
  have hu := users_set (P := P) hi pc' k
  rw [hk, hk', Bool.toNat_true, Bool.toNat_false, Nat.add_zero] at hu
  exact Fits.detach <| (congrArg (Fits (s.segs k)) hu).mpr (h k)

theorem exit (h : s.Sound P) (hi : s.procs[i]? = some pc) : (s.exit P i pc).Sound P := by
  intro k
  simp only [System.exit]
  split
  case isTrue hk  => exact h.released hi hk rfl
  case isFalse hk => exact h.kept hi (eq_false_of_ne_true hk).symm

theorem shmdt (h : s.Sound P) (hi : s.procs[i]? = some (.handling j))
    (hj : P[j]? = some (.shmdt k)) :
    ((if Pc.attached P k (.handling j) then s.detach k else s).goto i
      (.handling (j + 1))).Sound P := by
  intro k'
  by_cases hk : k' = k
  case pos =>
    subst hk
    have hn : Pc.attached P k' (.handling (j + 1)) = false := by simp [attached_succ, hj]
    split
    case isTrue ha =>
      rw [detach, segs_setSeg_self]
      exact h.released hi ha hn
    case isFalse ha => exact h.kept hi (hn.trans (eq_false_of_ne_true ha).symm)
  case neg =>
    have hs : Fits (s.segs k')
        ((s.procs.set i (.handling (j + 1))).countP (Pc.attached P k')) :=
      h.kept hi (by simp [attached_succ, hj, Ne.symm hk])
    split
    case isTrue  => rw [detach, segs_setSeg_of_ne hk]; exact hs
    case isFalse => exact hs

theorem shmctl (h : s.Sound P) (hi : s.procs[i]? = some (.handling j))
    (hj : P[j]? = some (.shmctl k)) (hg : s.segs k = some g) :
    ((s.setSeg k g.remove).goto i (.handling (j + 1))).Sound P := by
  intro k'
  have hs : Fits (s.segs k') ((s.procs.set i (.handling (j + 1))).countP (Pc.attached P k')) :=
    h.kept hi (by simp [attached_succ, hj])
  by_cases hk : k' = k
  case pos =>
    subst hk
    rw [segs_setSeg_self]
    exact Fits.remove (hg ▸ hs)
  case neg => rw [segs_setSeg_of_ne hk]; exact hs

theorem of_move {a : Action} (h : s.Sound P) (hs : Move P s a s') : s'.Sound P := by
  cases hs
  case fork hi         => exact h.fork hi
  case sigint hi       => exact fun _ => h.kept hi (by simp [Pc.attached])
  case semctl hi hj    => exact fun _ => h.kept hi (by simp [attached_succ, hj])
  case shmdt hi hj     => exact h.shmdt hi hj
  case shmctl hi hj hg => exact h.shmctl hi hj hg
  case failed hi _ _   => exact h.exit hi
  case done hi _       => exact h.exit hi
  case exit hi         => exact h.exit hi

end System.Sound

-- How far the handler has been executed by the process that is ahead of all others: so much has
-- been removed, and no more. After a signal there always is such a process until it is through.
structure Leads (P : List (Statement κ φ)) (s : System κ φ) (p : ℕ) (signals : List ℕ) : Prop where
  le     : p ≤ P.length
  behind : ∀ {j}, .handling j ∈ s.procs → j ≤ p
  sems   : ∀ k, s.sems k = false ↔ .semctl k ∈ P.take p
  segs   : ∀ k, Removed (s.segs k) ↔ .shmctl k ∈ P.take p
  ahead  : signals ≠ [] → p = P.length ∨ .handling p ∈ s.procs
  unled  : signals = [] → p = 0 ∧ ∀ j, .handling j ∉ s.procs

omit [DecidableEq κ] [DecidableEq φ] in
theorem mem_take_max {x y : Statement κ φ} (hj : P[j]? = some x) (hp : j ≤ p) :
    y ∈ P.take (max p (j + 1)) ↔ y ∈ P.take p ∨ x = y := by
  rcases hp.eq_or_lt with rfl | hlt
  case inl => simp [List.take_add_one, hj, eq_comm]
  case inr =>
    rw [max_eq_left hlt]
    refine ⟨.inl, fun h => h.elim id ?_⟩
    rintro rfl
    exact List.mem_of_getElem? <| (List.getElem?_take_of_lt hlt).trans hj

namespace Leads

variable {signals : List ℕ}

omit [DecidableEq κ] [DecidableEq φ] in
theorem fork (h : Leads P s p signals) : Leads P
    { s with segs := Option.map Segment.attach ∘ s.segs, procs := s.procs ++ [.serving] }
    p signals where
  le        := h.le
  behind hj := h.behind <| by simpa using hj
  sems      := h.sems
  segs k    := removed_attach.trans (h.segs k)
  ahead hs  := (h.ahead hs).imp_right <| List.mem_append_left _
  unled hs  := ⟨(h.unled hs).left, fun j hj => (h.unled hs).right j <| by simpa using hj⟩

omit [DecidableEq κ] [DecidableEq φ] in
theorem sigint (h : Leads P s p signals) (hi : s.procs[i]? = some .serving) :
    Leads P (s.goto i (.handling 0)) p (i :: signals) where
  le       := h.le
  behind {j} hj := by
    rcases List.mem_or_eq_of_mem_set hj with hj | hj
    case inl => exact h.behind hj
    case inr => cases hj; exact p.zero_le
  sems     := h.sems
  segs     := h.segs
  unled    := nofun
  ahead _  := by
    by_cases hs : signals = []
    case pos =>
      obtain ⟨rfl, _⟩ := h.unled hs
      exact .inr <| List.mem_set (List.getElem?_eq_some_iff.mp hi).fst _
    case neg => exact (h.ahead hs).imp_right fun hm => Lists.mem_set_of_ne hi hm nofun

-- A process that ends, unless it is the one ahead and not through.
theorem exit (h : Leads P s p signals) (hi : s.procs[i]? = some pc)
    (hp : p = P.length ∨ pc ≠ .handling p) : Leads P (s.exit P i pc) p signals where
  le        := h.le
  behind hj := h.behind <| (List.mem_or_eq_of_mem_set hj).resolve_right nofun
  sems      := h.sems
  segs k    := by
    refine .trans ?_ (h.segs k)
    simp only [System.exit]
    split
    case isTrue  => exact removed_detach
    case isFalse => rfl
  ahead hs  := by
    rcases hp with hp | hp
    case inl => exact .inl hp
    case inr => exact (h.ahead hs).imp_right fun hm => Lists.mem_set_of_ne hi hm hp.symm
  unled hs  := by
    refine ⟨(h.unled hs).left, fun j hj => (h.unled hs).right j ?_⟩
    exact (List.mem_or_eq_of_mem_set hj).resolve_right nofun

omit [DecidableEq κ] [DecidableEq φ] in
-- A process that executes its next statement `x`, with what it does to the objects.
theorem advance (h : Leads P s p signals) {x : Statement κ φ}
    (hi : s.procs[i]? = some (.handling j)) (hj : P[j]? = some x)
    (hp : s'.procs = s.procs.set i (.handling (j + 1)))
    (hs : ∀ k, s'.sems k = false ↔ s.sems k = false ∨ x = .semctl k)
    (hg : ∀ k, Removed (s'.segs k) ↔ Removed (s.segs k) ∨ x = .shmctl k) :
    Leads P s' (max p (j + 1)) signals := by
  have hle := h.behind <| List.mem_of_getElem? hi
  have ⟨hl, _⟩ := List.getElem?_eq_some_iff.mp hj
  constructor
  case le => exact max_le h.le hl
  case sems => exact fun k => by rw [hs, h.sems, mem_take_max hj hle]
  case segs => exact fun k => by rw [hg, h.segs, mem_take_max hj hle]
  case unled => exact fun hs => absurd (List.mem_of_getElem? hi) <| (h.unled hs).right j
  case behind =>
    intro m hm
    rcases List.mem_or_eq_of_mem_set (hp ▸ hm) with hm | hm
    case inl => exact le_max_of_le_left <| h.behind hm
    case inr => cases hm; exact le_max_right _ _
  case ahead =>
    intro hs
    rw [hp]
    rcases hle.eq_or_lt with rfl | hlt
    case inl =>
      rw [max_eq_right j.le_succ]
      exact .inr <| List.mem_set (List.getElem?_eq_some_iff.mp hi).fst _
    case inr =>
      rw [max_eq_left hlt]
      refine (h.ahead hs).imp_right fun hm => Lists.mem_set_of_ne hi hm ?_
      rintro he
      cases he
      exact hlt.ne rfl

omit [DecidableEq φ] in
theorem semctl (h : Leads P s p signals) {k : κ} (hi : s.procs[i]? = some (.handling j))
    (hj : P[j]? = some (.semctl k)) :
    Leads P ({ s with sems := Function.update s.sems k false }.goto i (.handling (j + 1)))
      (max p (j + 1)) signals := by
  refine h.advance hi hj rfl (fun k' => ?_) (by simp [System.goto])
  by_cases hk : k' = k
  case pos => simp [System.goto, hk]
  case neg => simp [System.goto, Function.update_of_ne hk, Ne.symm hk]

theorem shmdt (h : Leads P s p signals) {k : φ} (hi : s.procs[i]? = some (.handling j))
    (hj : P[j]? = some (.shmdt k)) :
    Leads P ((if Pc.attached P k (.handling j) then s.detach k else s).goto i (.handling (j + 1)))
      (max p (j + 1)) signals := by
  split
  case isFalse => exact h.advance hi hj rfl (by simp [System.goto]) (by simp [System.goto])
  case isTrue =>
    refine h.advance hi hj rfl (by simp [System.goto, System.detach, System.setSeg]) fun k' => ?_
    by_cases hk : k' = k
    case pos =>
      subst hk
      rw [System.detach, System.segs_setSeg_self, removed_detach]
      simp
    case neg => rw [System.detach, System.segs_setSeg_of_ne hk]; simp

omit [DecidableEq κ] in
theorem shmctl (h : Leads P s p signals) {k : φ} (hi : s.procs[i]? = some (.handling j))
    (hj : P[j]? = some (.shmctl k)) :
    Leads P ((s.setSeg k g.remove).goto i (.handling (j + 1))) (max p (j + 1)) signals := by
  refine h.advance hi hj rfl (by simp [System.goto, System.setSeg]) fun k' => ?_
  by_cases hk : k' = k
  case pos =>
    subst hk
    rw [System.segs_setSeg_self]
    exact iff_of_true removed_remove (.inr rfl)
  case neg => rw [System.segs_setSeg_of_ne hk]; simp [Ne.symm hk]

-- Whoever finds a segment removed is not ahead, since a segment is removed by one statement only.
theorem failed (h : Leads P s p signals) (hP : P.Nodup) {k : φ}
    (hi : s.procs[i]? = some (.handling j)) (hj : P[j]? = some (.shmctl k))
    (hg : Removed (s.segs k)) : Leads P (s.exit P i (.handling j)) p signals := by
  refine h.exit hi <| .inr fun he => ?_
  cases he
  have ⟨m, hm⟩ := List.getElem?_of_mem <| (h.segs k).mp hg
  have hlt : m < j := by
    have ⟨hl, _⟩ := List.getElem?_eq_some_iff.mp hm
    simp only [List.length_take] at hl
    omega
  rw [List.getElem?_take_of_lt hlt] at hm
  have hl := (List.getElem?_eq_some_iff.mp hj).fst
  exact hlt.ne <| (List.getElem?_inj (hlt.trans hl) hP).mp <| hm.trans hj.symm

theorem of_step (h : Leads P s p signals) (hP : P.Nodup) {a : Action} (hc : Calm s a)
    (hs : (machine P).step s a = some s') :
    ∃ p', Leads P s' p' ((sigint? s a).toList ++ signals) := by
  cases Move.of_step hs
  case fork            => exact ⟨p, h.fork⟩
  case sigint hi       => exact ⟨p, h.sigint hi⟩
  case semctl hi hj    => exact ⟨_, h.semctl hi hj⟩
  case shmdt hi hj     => exact ⟨_, h.shmdt hi hj⟩
  case shmctl hi hj hg => exact ⟨_, h.shmctl hi hj⟩
  case failed hi hj hg => exact ⟨p, h.failed hP hi hj hg⟩
  case done hi hj      =>
    have hl := h.behind <| List.mem_of_getElem? hi
    exact ⟨p, h.exit hi <| .inl <| h.le.antisymm <| (List.getElem?_eq_none_iff.mp hj).trans hl⟩
  case exit hi         =>
    cases Option.some.inj <| hi.symm.trans hc
    exact ⟨p, h.exit hi <| .inr nofun⟩

end Leads

section Runs

variable (e : (machine P).Run (.start κ φ) s) (he : e.AllSteps Calm)

omit [DecidableEq κ] [DecidableEq φ] in
theorem leads_start : Leads P (.start κ φ) 0 [] where
  le         := Nat.zero_le _
  behind hj  := by simp [System.start] at hj
  sems       := by simp [System.start]
  segs       := by simp [System.start, Removed]
  ahead hs   := absurd rfl hs
  unled _    := ⟨rfl, by simp [System.start]⟩

include he

theorem exists_leads (hP : P.Nodup) : ∃ p, Leads P s p (e.history sigint?) :=
  e.invariant_history (I := fun s l => ∃ p, Leads P s p l) ⟨0, leads_start⟩
    (fun _ _ _ _ ⟨_, h⟩ hc hs => h.of_step hP hc hs) he

-- When all processes have ended, everything that the handler removes is gone, if any of them has
-- been told to end, however many of them ran the handler and in which order. If not, everything is
-- still there.
theorem cleared (hP : P.Nodup) (hs : ∀ pc ∈ s.procs, pc = .ended) :
    (e.history sigint? ≠ [] → (∀ k, .semctl k ∈ P → s.sems k = false) ∧
      ∀ k, .shmctl k ∈ P → s.segs k = none) ∧
    (e.history sigint? = [] → (∀ k, s.sems k = true) ∧ ∀ k, (s.segs k).isSome) := by
  have ⟨p, h⟩ := exists_leads e he hP
  have hf : s.Sound P := e.invariant System.Sound.start
    (fun _ _ _ h _ hs => h.of_move <| Move.of_step hs) e.allSteps_true
  have hu : ∀ k, s.users P k = 0 := by
    intro k
    refine List.countP_eq_zero.mpr fun pc hpc => ?_
    simp [hs pc hpc, Pc.attached]
  constructor
  case left =>
    intro hl
    have hn : .handling p ∉ s.procs := fun hm => nomatch hs _ hm
    have hp : P.take p = P := by rw [(h.ahead hl).resolve_right hn, List.take_length]
    refine ⟨fun k hk => (h.sems k).mpr (hp.symm ▸ hk), fun k hk => ?_⟩
    have hr : Removed (s.segs k) := (h.segs k).mpr (hp.symm ▸ hk)
    have hk := hf k
    rw [hu k] at hk
    cases hg : s.segs k
    case none   => rfl
    case some g =>
      rw [hg] at hr hk
      exact absurd rfl <| hk.right (hr g rfl)
  case right =>
    intro hl
    obtain ⟨rfl, _⟩ := h.unled hl
    refine ⟨fun k => ?_, fun k => ?_⟩
    case refine_1 => exact Bool.eq_true_of_not_eq_false <| (h.sems k).not.mpr (by simp)
    case refine_2 =>
      have hr := (h.segs k).not.mpr (by simp)
      exact Option.isSome_iff_ne_none.mpr fun hn => hr (by simp [Removed, hn])

end Runs

end

end Shm
