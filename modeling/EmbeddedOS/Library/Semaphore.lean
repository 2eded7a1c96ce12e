import EmbeddedOS.Library.Pool

namespace Pool

variable {μ π ρ ι ε : Type*} {P : Program μ π ρ ι ε} {s s' : Pool μ π} {pid : ℕ} {x : ι}

-- The number of processes that are inside a section.
def count (inside : π → Bool) (s : Pool μ π) : ℕ :=
  s.procs.countP inside

-- The units of a semaphore: those that are free and those that are taken by a process inside the
-- section which the semaphore guards.
def units (value : μ → ℕ) (inside : π → Bool) (s : Pool μ π) : ℕ :=
  value s.mem + s.count inside

variable {value : μ → ℕ} {inside : π → Bool}

theorem count_act (a : Acts P s pid x s') :
    s'.count inside + (inside a.pre).toNat = s.count inside + (inside a.post).toNat := by
  obtain ⟨hlt, hget⟩ := List.getElem?_eq_some_iff.mp a.get
  have hpos : inside a.pre = true → 0 < s.procs.countP inside := fun h =>
    List.countP_pos_iff.mpr ⟨_, List.mem_of_getElem? a.get, h⟩
  simp only [count, a.procs, List.countP_set hlt, hget]
  cases hpre : inside a.pre <;> cases inside a.post <;> simp
  all_goals
    have := hpos hpre
    omega

theorem units_act (a : Acts P s pid x s') :
    s'.units value inside + (value s.mem + (inside a.pre).toNat) =
      s.units value inside + (value s'.mem + (inside a.post).toNat) := by
  have : s'.count inside + _ = s.count inside + _ := count_act a
  simp only [units]
  omega

theorem units_spawn (h : ∀ r, inside (P.spawn r) = false) {r : ρ}
    (hs : (machine P).step s (.spawn r) = some s') :
    s'.units value inside = s.units value inside := by
  cases spawn_eq hs
  simp [units, count, h]

theorem two_le_count {i j : ℕ} {p q : π} (hlt : i < j) (hp : s.procs[i]? = some p)
    (hq : s.procs[j]? = some q) (ip : inside p) (iq : inside q) : 2 ≤ s.count inside := by
  obtain ⟨hi, rfl⟩ := List.getElem?_eq_some_iff.mp hp
  obtain ⟨hj, rfl⟩ := List.getElem?_eq_some_iff.mp hq
  have h₁ : 0 < (s.procs.take j).countP inside :=
    List.countP_pos_iff.mpr ⟨_, List.mem_take_iff_getElem.mpr ⟨i, by omega, rfl⟩, ip⟩
  have h₂ : 0 < (s.procs.drop j).countP inside :=
    List.countP_pos_iff.mpr ⟨_, List.mem_drop_iff_getElem.mpr ⟨0, by omega, rfl⟩, iq⟩
  rw [count, ← s.procs.take_append_drop j, List.countP_append]
  omega

-- Two processes that are inside a section of which at most one unit is taken are the same.
theorem exclusive (h : s.count inside ≤ 1) {i j : ℕ} {p q : π} (hp : s.procs[i]? = some p)
    (hq : s.procs[j]? = some q) (ip : inside p) (iq : inside q) : i = j := by
  rcases Nat.lt_trichotomy i j with hlt | heq | hgt
  case inl     => have := two_le_count hlt hp hq ip iq; omega
  case inr.inl => exact heq
  case inr.inr => have := two_le_count hgt hq hp iq ip; omega

theorem not_inside_of_count_eq_zero (h : s.count inside = 0) {p : π}
    (hp : s.procs[pid]? = some p) : inside p = false := by
  simpa using List.countP_eq_zero.mp h p (List.mem_of_getElem? hp)

-- A semaphore is used with discipline when each step that meets `C` takes a unit exactly if its
-- process enters the section, and gives it back exactly if its process leaves the section.
structure Disciplined (P : Program μ π ρ ι ε) (C : Pool μ π → Action ρ ι ε → Prop)
    (value : μ → ℕ) (inside : π → Bool) : Prop where
  spawn : ∀ r, inside (P.spawn r) = false
  env   : ∀ {m m' x}, P.env m x = some m' → value m' = value m
  step  : ∀ {s pid x s'}, C s (.act pid x) → (a : Acts P s pid x s') →
    value s'.mem + (inside a.post).toNat = value s.mem + (inside a.pre).toNat

namespace Disciplined

variable {C : Pool μ π → Action ρ ι ε → Prop}

theorem preserves (D : Disciplined P C value inside) {a : Action ρ ι ε} (hc : C s a)
    (h : (machine P).step s a = some s') : s'.units value inside = s.units value inside := by
  cases a
  case spawn r => exact units_spawn D.spawn h
  case act pid x =>
    have ⟨a⟩ := Acts.of_step h
    have : s'.units value inside + _ = s.units value inside + _ := units_act a
    have := D.step hc a
    omega
  case env x =>
    obtain ⟨m, hm, rfl⟩ := env_eq h
    simp [units, count, D.env hm]

-- The units of a semaphore that is used with discipline are never lost and never made up.
theorem run (D : Disciplined P C value inside) {s₀ : Pool μ π} (e : (machine P).Run s₀ s)
    (hc : e.AllSteps C) : s.units value inside = s₀.units value inside := by
  let I : Pool μ π → Prop := fun s => s.units value inside = s₀.units value inside
  have h₀ : I s₀ := rfl
  have hs : I s := e.invariant h₀ (fun _ _ _ hi hc h => (D.preserves hc h).trans hi) hc
  exact hs

end Disciplined
end Pool
