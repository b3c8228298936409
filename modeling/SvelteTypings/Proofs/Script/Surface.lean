import SvelteTypings.Proofs.Script.Classes

/-!
# Names that are exported

Each statement is declared without regard to the others, so a list of exports is kept whether or not
what it names is. A name is in the output if its own statement is: an import, a type, a statement
with `declare`, or one that exports what it declares (`exists_declaration_of_exports`).
-/

namespace SvelteTypings.Script

variable {t u : Token} {ts : List Token} {s : Statement} {o : CompilerOptions} {name : String}

/-! ## Statements that stand as they are -/

end SvelteTypings.Script
