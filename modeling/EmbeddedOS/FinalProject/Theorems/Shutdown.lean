import EmbeddedOS.FinalProject.Shutdown
import EmbeddedOS.FinalProject.Theorems.Leftover

open Shm

namespace Parking

variable {s : System Semaphore Shared} {g : Segments} {pins : ℕ → ℤ} {clock : ℤ}

theorem handler_nodup : handler.Nodup := by
  decide

theorem semctl_mem_handler (k : Semaphore) : .semctl k ∈ handler := by
  cases k <;> decide

theorem shmctl_mem_handler (k : Shared) : .shmctl k ∈ handler := by
  cases k <;> decide

-- The next server finds nothing, whatever there has been.
theorem boot_of_cleared (hs : ∀ k, s.sems k = false) (hg : ∀ k, s.segs k = none) :
    boot s g pins clock = some { Memory.initial clock with pins := darken pins } := by
  have hm : (g.mapped fun k => (s.segs k).isSome) = Segments.zeroed := by
    simp [Segments.mapped, hg]
  rw [boot, if_neg (by simp [hs]), hm, Segments.startUp, darkenAll_eq, Option.map_some]
  rfl

-- Once the server and all of its children have ended, there is nothing left of their semaphores and
-- segments if any of them has been interrupted, and the next server starts with an empty car park.
-- If none of them has been, everything is left, and no server can start.
theorem shutdown_clears (e : (machine handler).Run (.start Semaphore Shared) s)
    (he : e.AllSteps Calm) (hs : ∀ pc ∈ s.procs, pc = .ended) :
    (e.history sigint? ≠ [] →
      (∀ k, s.sems k = false) ∧ (∀ k, s.segs k = none) ∧ ∀ g pins clock,
        boot s g pins clock = some { Memory.initial clock with pins := darken pins }) ∧
    (e.history sigint? = [] →
      (∀ k, s.sems k = true) ∧ (∀ k, (s.segs k).isSome) ∧ ∀ g pins clock,
        boot s g pins clock = none) := by
  have ⟨hc, hk⟩ := cleared e he handler_nodup hs
  constructor
  case left =>
    intro hl
    have ⟨hs, hg⟩ := hc hl
    have hs := fun k => hs k (semctl_mem_handler k)
    have hg := fun k => hg k (shmctl_mem_handler k)
    exact ⟨hs, hg, fun _ _ _ => boot_of_cleared hs hg⟩
  case right =>
    intro hl
    have ⟨hs, hg⟩ := hk hl
    exact ⟨hs, hg, fun _ _ _ => if_pos (.inl (hs _))⟩

-- The server has two children when it is interrupted together with one of them, which gets ahead of
-- it. The other one ends by itself in the meantime.
def interruptedTogether : List Shm.Action :=
  [.fork 0, .fork 0, .sigint 0, .sigint 1] ++ .replicate 3 (.run 0 true) ++
    .replicate 4 (.run 1 true) ++ [.exit 2] ++ .replicate 2 (.run 1 true) ++ [.run 0 true] ++
    .replicate 5 (.run 1 true)

theorem shutdown_clears_of_interruptedTogether :
    ∃ (s : System Semaphore Shared) (e : (machine handler).Run (.start Semaphore Shared) s),
      e.AllSteps Calm ∧ (∀ pc ∈ s.procs, pc = .ended) ∧ s.procs.length = 3 ∧
      (∀ k, s.sems k = false) ∧ (∀ k, s.segs k = none) ∧ ∀ g pins clock,
        boot s g pins clock = some { Memory.initial clock with pins := darken pins } := by
  have ⟨s, e, he, hf⟩ := Machine.Run.exists_of_exec (machine handler) (fun s a => Calm s a)
    (.start Semaphore Shared) interruptedTogether (fun s => s.procs.all (· = .ended) ∧
      s.procs.length = 3 ∧ s.sems .mutex = false) (by decide +kernel)
  simp only [decide_eq_true_eq, List.all_eq_true] at he hf
  obtain ⟨hs, hl, hm⟩ := hf
  have h := shutdown_clears e he hs
  exact ⟨s, e, he, hs, hl, h.left fun hn => by simp [(h.right hn).left] at hm⟩

end Parking
