import SvelteTypings.Path.Basic

/-!
# Lexical normalisation

`normalize` removes `.` and resolves `..` by the text of the path alone. A `..` at the front of a
relative path has nothing to take away: it stays, and the next `..` takes it away like a name.
-/

namespace SvelteTypings.Path

/-- The path written for a component that is pushed. -/
def Component.path : Component → Path
  | .root => Path.root
  | .current => ⟨[dot]⟩
  | .parent => ⟨[dot, dot]⟩
  | .name bytes => ⟨bytes⟩

/-- Takes one component of a path into account: `p` is the part already normalised. -/
def step (p : Path) : Component → Path
  | .current => p
  | .parent => (p.parent?).getD (p.join Component.parent.path)
  | c => p.join c.path

/-- The path with `.` removed and `..` resolved by name. -/
def normalize (p : Path) : Path := p.components.foldl step empty

end SvelteTypings.Path
