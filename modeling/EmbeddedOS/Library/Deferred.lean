import EmbeddedOS.Library.Pool

namespace Pool

variable {μ π ρ ι ε κ ν : Type*} {P : Program μ π ρ ι ε}
variable {C : Pool μ π → Action ρ ι ε → Prop}
variable {original copy : μ → κ → ν} {owed : π → Option (κ × ν)}
variable {s s' : Pool μ π} {pid : ℕ} {x : ι}

-- One step of a process that keeps a copy up to date by writes of its own: it leaves both sides
-- alone, or it changes an entry of the original and then owes the write to the copy, or it makes
-- the write that it owes.
inductive Deferred [DecidableEq κ] (original copy original' copy' : κ → ν)
    (owed owed' : Option (κ × ν)) : Prop
  | quiet (ho : owed' = owed) (hor : original' = original) (hc : copy' = copy)
  | change (k : κ) (v : ν) (ho : owed = none) (ho' : owed' = some (k, v))
      (hor : original' = Function.update original k v) (hc : copy' = copy)
  | write (k : κ) (v : ν) (ho : owed = some (k, v)) (ho' : owed' = none)
      (hor : original' = original) (hc : copy' = Function.update copy k v)

-- The obligations of a copy that is written later: an entry of the original is only changed while
-- no other process owes a write for this entry.
structure WriteBehind [DecidableEq κ] (P : Program μ π ρ ι ε)
    (C : Pool μ π → Action ρ ι ε → Prop) (original copy : μ → κ → ν) (owed : π → Option (κ × ν)) :
    Prop where
  spawn : ∀ r, owed (P.spawn r) = none
  env   : ∀ {m m' x}, P.env m x = some m' → original m' = original m ∧ copy m' = copy m
  step  : ∀ {s pid x s'}, C s (.act pid x) → (a : Acts P s pid x s') →
    Deferred (original s.mem) (copy s.mem) (original s'.mem) (copy s'.mem)
      (owed a.pre) (owed a.post)
  alone : ∀ {s pid x s' k v}, C s (.act pid x) → (a : Acts P s pid x s') → owed a.pre = none →
    owed a.post = some (k, v) → ∀ q ∈ s.others (.act pid x : Action ρ ι ε), ∀ w,
      owed q ≠ some (k, w)

-- The copy agrees with the original except where exactly one process owes the write.
structure InSync (original copy : μ → κ → ν) (owed : π → Option (κ × ν)) (s : Pool μ π) : Prop where
  value  : ∀ {i : ℕ} {p : π} {k v}, s.procs[i]? = some p → owed p = some (k, v) →
    original s.mem k = v
  unique : ∀ {i j : ℕ} {p q : π} {k v w}, s.procs[i]? = some p → s.procs[j]? = some q →
    owed p = some (k, v) → owed q = some (k, w) → i = j
  copy   : ∀ k, (∀ p ∈ s.procs, ∀ v, owed p ≠ some (k, v)) → copy s.mem k = original s.mem k

namespace InSync

theorem spawn (hs : InSync original copy owed s) {r : ρ} (hr : owed (P.spawn r) = none)
    (h : (machine P).step s (.spawn r) = some s') : InSync original copy owed s' := by
  have hm : s'.mem = s.mem := by rw [spawn_eq h]
  have hold : ∀ {i : ℕ} {p : π} {k v}, s'.procs[i]? = some p → owed p = some (k, v) →
      s.procs[i]? = some p := by
    intro i p k v hp ho
    refine (spawn_cases h hp).resolve_left fun he => ?_
    simp [he, hr] at ho
  constructor
  case value  => exact fun hp ho => hm ▸ hs.value (hold hp ho) ho
  case unique => exact fun hp hq ho ho' => hs.unique (hold hp ho) (hold hq ho') ho ho'
  case copy =>
    intro k hn
    rw [hm]
    refine hs.copy k fun p hp v => hn p ?_ v
    rw [spawn_eq h]
    exact List.mem_append_left _ hp

theorem quiet (hs : InSync original copy owed s) (a : Acts P s pid x s')
    (ho : owed a.post = owed a.pre) (hor : original s'.mem = original s.mem)
    (hc : copy s'.mem = copy s.mem) : InSync original copy owed s' := by
  have hold : ∀ {i : ℕ} {p : π}, s'.procs[i]? = some p → ∃ q, s.procs[i]? = some q ∧
      owed q = owed p := by
    intro i p hp
    rcases a.get_cases hp with ⟨rfl, rfl⟩ | ⟨_, hp⟩
    case inl => exact ⟨_, a.get, ho.symm⟩
    case inr => exact ⟨_, hp, rfl⟩
  constructor
  case value =>
    intro i p k v hp hv
    have ⟨q, hq, he⟩ := hold hp
    exact hor ▸ hs.value hq (he ▸ hv)
  case unique =>
    intro i j p q k v w hp hq hv hw
    have ⟨p', hp', he⟩ := hold hp
    have ⟨q', hq', he'⟩ := hold hq
    exact hs.unique hp' hq' (he ▸ hv) (he' ▸ hw)
  case copy =>
    intro k hn
    rw [hor, hc]
    refine hs.copy k fun p hp v hv => ?_
    have ⟨i, hp⟩ := List.getElem?_of_mem hp
    by_cases hi : i = pid
    case pos =>
      subst hi
      have he := Option.some.inj <| hp.symm.trans a.get
      exact hn _ (List.mem_of_getElem? a.get_post) v (by rw [ho, ← he, hv])
    case neg => exact hn p (List.mem_of_getElem? <| a.get_other hi ▸ hp) v hv

variable [DecidableEq κ]

theorem change (hs : InSync original copy owed s) (a : Acts P s pid x s') {k : κ} {v : ν}
    (ho : owed a.pre = none) (ho' : owed a.post = some (k, v))
    (hor : original s'.mem = Function.update (original s.mem) k v) (hc : copy s'.mem = copy s.mem)
    (ha : ∀ q ∈ s.others (.act pid x : Action ρ ι ε), ∀ w, owed q ≠ some (k, w)) :
    InSync original copy owed s' := by
  have hne : ∀ {j : ℕ} {q : π} {k' w}, j ≠ pid → s.procs[j]? = some q → owed q = some (k', w) →
      k' ≠ k := by
    rintro j q k' w hj hq hw rfl
    exact ha q (mem_others hj hq) w hw
  have hpost : ∀ {k' w}, owed a.post = some (k', w) → k' = k ∧ w = v := by
    intro k' w hw
    simpa [ho', eq_comm] using hw
  constructor
  case value =>
    intro i p k' w hp hw
    rw [hor]
    rcases a.get_cases hp with ⟨rfl, rfl⟩ | ⟨hi, hp⟩
    case inl =>
      have ⟨hk, hv⟩ := hpost hw
      rw [hk, hv, Function.update_self]
    case inr =>
      rw [Function.update_of_ne (hne hi hp hw)]
      exact hs.value hp hw
  case unique =>
    intro i j p q k' w w' hp hq hw hw'
    rcases a.get_cases hp with ⟨hi, rfl⟩ | ⟨hi, hp⟩ <;>
      rcases a.get_cases hq with ⟨hj, rfl⟩ | ⟨hj, hq⟩
    case inl.inl => rw [hi, hj]
    case inl.inr => exact absurd (hpost hw).left (hne hj hq hw')
    case inr.inl => exact absurd (hpost hw').left (hne hi hp hw)
    case inr.inr => exact hs.unique hp hq hw hw'
  case copy =>
    intro k' hn
    have hk : k' ≠ k := by
      rintro rfl
      exact hn _ (List.mem_of_getElem? a.get_post) v ho'
    rw [hc, hor, Function.update_of_ne hk]
    refine hs.copy k' fun p hp w hw => ?_
    have ⟨i, hp⟩ := List.getElem?_of_mem hp
    by_cases hi : i = pid
    case pos =>
      subst hi
      have he := Option.some.inj <| hp.symm.trans a.get
      simp [← he, hw] at ho
    case neg => exact hn p (List.mem_of_getElem? <| a.get_other hi ▸ hp) w hw

theorem write (hs : InSync original copy owed s) (a : Acts P s pid x s') {k : κ} {v : ν}
    (ho : owed a.pre = some (k, v)) (ho' : owed a.post = none)
    (hor : original s'.mem = original s.mem) (hc : copy s'.mem = Function.update (copy s.mem) k v) :
    InSync original copy owed s' := by
  have hold : ∀ {i : ℕ} {p : π} {k' w}, s'.procs[i]? = some p → owed p = some (k', w) →
      s.procs[i]? = some p := by
    intro i p k' w hp hw
    rcases a.get_cases hp with ⟨rfl, rfl⟩ | ⟨_, hp⟩
    case inl => simp [ho'] at hw
    case inr => exact hp
  constructor
  case value  => exact fun hp hw => hor ▸ hs.value (hold hp hw) hw
  case unique => exact fun hp hq hw hw' => hs.unique (hold hp hw) (hold hq hw') hw hw'
  case copy =>
    intro k' hn
    rw [hor, hc]
    by_cases hk : k' = k
    case pos => rw [hk, Function.update_self, hs.value a.get ho]
    case neg =>
      rw [Function.update_of_ne hk]
      refine hs.copy k' fun p hp w hw => ?_
      have ⟨i, hp⟩ := List.getElem?_of_mem hp
      by_cases hi : i = pid
      case pos =>
        subst hi
        have he := Option.some.inj <| hp.symm.trans a.get
        simp [← he, hw, hk] at ho
      case neg => exact hn p (List.mem_of_getElem? <| a.get_other hi ▸ hp) w hw

theorem preserves (W : WriteBehind P C original copy owed) {a : Action ρ ι ε}
    (hs : InSync original copy owed s) (hc : C s a) (h : (machine P).step s a = some s') :
    InSync original copy owed s' := by
  cases a
  case spawn r => exact hs.spawn (W.spawn r) h
  case act pid x =>
    have ⟨a⟩ := Acts.of_step h
    cases W.step hc a
    case quiet ho hor hcp        => exact hs.quiet a ho hor hcp
    case change ho ho' hor hcp => exact hs.change a ho ho' hor hcp <| W.alone hc a ho ho'
    case write ho ho' hor hcp  => exact hs.write a ho ho' hor hcp
  case env x =>
    obtain ⟨m, hm, rfl⟩ := env_eq h
    have ⟨ho, hc⟩ := W.env hm
    constructor
    case value  => exact fun hp hv => ho ▸ hs.value hp hv
    case unique => exact hs.unique
    case copy   => exact fun k hn => ho ▸ hc ▸ hs.copy k hn

theorem run (W : WriteBehind P C original copy owed) {s₀ : Pool μ π}
    (h₀ : InSync original copy owed s₀) (e : (machine P).Run s₀ s) (hc : e.AllSteps C) :
    InSync original copy owed s :=
  e.invariant h₀ (fun _ _ _ => preserves W) hc

end InSync
end Pool
