import EmbeddedOS.Lab.Lab6.Startup

open SysV

namespace Atm

variable {s : Pool (Kernel Unit) (Process Unit)} {p : Process Unit} {id : ℕ}

theorem Serves.past (h : Serves p) : p.Past main () :=
  ⟨6, h, by simp [main]⟩

end Atm
