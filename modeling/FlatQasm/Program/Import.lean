import FlatQasm.Grammar.Program
import FlatQasm.Program.ToCircuit

/-!
# Circuits from source text
-/

namespace FlatQasm

/-- The circuit that a source text stands for. -/
def Circuit.ofSource (source : String) (rule : HeaderRule) : Except ImportError Circuit := do
  let program ← Program.parse source rule
  program.toCircuit

end FlatQasm
