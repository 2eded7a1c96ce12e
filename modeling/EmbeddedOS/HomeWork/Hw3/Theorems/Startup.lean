import EmbeddedOS.HomeWork.Hw3.Startup

open SysV

namespace Delivery

variable {s s₁ s' : Pool (Kernel Courier) (Process Courier)} {p : Process Courier} {i : ℕ}

theorem main_check {keys : List Courier} (h : .check keys ∈ main.startup) : keys = [] := by
  simpa [main] using h

-- A platform that ends after it has created a semaphore, be it because of a call that fails or
-- because it is killed, locks out all platforms that are started later: nobody gets past the
-- creation of that semaphore any more. Only a signal that still reaches the platform itself, before
-- it has ended, may help.
theorem locked_out {k : Courier} (e : main.machine.Run (start Courier) s) (he : e.AllSteps Spares)
    (hp : s.procs[i]? = some p) (hk : p.Past main k) {x : SysV.Input}
    (hx : x = .fail ∨ x = .kill) (hs : main.machine.step s (.act i x) = some s₁)
    (f : main.machine.Run s₁ s') (hf : f.AllSteps fun s a => Spares s a ∧ Unasked i s a) :
    ∀ q ∈ s'.procs, ¬q.Past main k :=
  never_past (fun _ => main_check) e he hp hk hx hs f hf

def unaskedStep (s : Pool (Kernel Courier) (Process Courier)) : SysV.Action → Bool
  | .act _ .sigint => false
  | a              => Spares s a

theorem spares_of_unaskedStep {a : SysV.Action} (h : unaskedStep s a = true) :
    Spares s a ∧ Unasked i s a := by
  cases a
  case env x   => nomatch x
  case spawn   => exact ⟨trivial, nofun⟩
  case act _ x => cases x <;> simp_all [unaskedStep, Unasked]

-- The platform has both of its semaphores when it finds that it has been called without a port. The
-- next one, which is called with a port, fails.
theorem locked_out_of_usage :
    ∃ (s s₁ s' : Pool (Kernel Courier) (Process Courier)) (e : main.machine.Run (start Courier) s)
      (_ : main.machine.step s (.act 0 .fail) = some s₁) (_ : main.machine.Run s₁ s'),
      e.AllSteps Spares ∧ s'.procs.length = 2 ∧ ∀ q ∈ s'.procs, ¬q.Past main .first := by
  have ⟨s, e, he, hs⟩ := Machine.Run.exists_of_exec main.machine unaskedStep (start Courier)
    [.spawn (), .act 0 (.ok 0), .act 0 (.ok 0), .act 0 (.ok 1), .act 0 (.ok 1)]
    (fun s => s.procs[0]?.any (·.pc = .startup 4) ∧
      ((main.machine.step s (.act 0 .fail)).bind (main.machine.exec unaskedStep ·
        [.spawn (), .act 0 (.ok 0), .act 1 .fail])).any (·.procs.length = 2)) (by decide +kernel)
  simp only [decide_eq_true_eq, Option.any_eq_true] at hs
  obtain ⟨⟨p, hp, hpc⟩, s', h, hl⟩ := hs
  obtain ⟨s₁, hs, h⟩ := Option.bind_eq_some_iff.mp h
  obtain ⟨f, hf⟩ := Machine.Run.of_exec h
  have he := he.mono fun _ _ h => (spares_of_unaskedStep (i := 0) h).left
  have hf := hf.mono fun _ _ => spares_of_unaskedStep (i := 0)
  have hk : p.Past main .first := ⟨4, hpc, by simp [main]⟩
  exact ⟨s, s₁, s', e, hs, f, he, hl, locked_out e he hp hk (.inl rfl) hs f hf⟩

end Delivery
