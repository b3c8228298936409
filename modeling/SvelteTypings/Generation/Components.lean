import SvelteTypings.Generation.Run

/-!
# Declarations of components

A run for the components of a configuration and all that they lead to.
-/

namespace SvelteTypings.Generation

structure Generated (α : Type) where
  result : Except Failure α
  passes : List Pass
  log : Log

/-- The table of the listed components, and the messages on the way. A component that has
declarations already, or lies outside the source root, is left out. -/
def initialTable (c : Config) (transformer : Transformer) (fs : FileSystem) (cwd : Path) :
    List Path → Table → Except Failure Table × Log
  | [], t => (.ok t, [])
  | listed :: rest, t =>
    let component := listed.normalize
    match mayType fs component with
    | .error e => (.error e, [])
    | .ok false => initialTable c transformer fs cwd rest t
    | .ok true =>
      match c.destination? component with
      | none =>
        let (result, log) := initialTable c transformer fs cwd rest t
        (result, warn ("Skipping " ++ component.relativeTo cwd ++ ", it is outside the source root")
          :: log)
      | some destination =>
        match synthesize fs transformer component with
        | .error e => (.error e, [])
        | .ok source =>
          initialTable c transformer fs cwd rest (t.insert { component, source, destination })

/-- What the run for a configuration works with. -/
def Config.setting (c : Config) (transformer : Transformer) (compiler : Compiler) (fs : FileSystem)
    (cwd : Path) : Setting where
  compiler := compiler
  options := c.options.declarationOnly
  discovery := discoverComponent c fs transformer
  fs := fs
  cwd := cwd

/-- Generates the declarations of the listed components and of those that they lead to. -/
def generate (c : Config) (transformer : Transformer) (compiler : Compiler) (fs : FileSystem)
    (cwd : Path) : Generated Table :=
  let (initial, log) := initialTable c transformer fs cwd c.components .empty
  match initial with
  | .error e => ⟨.error e, [], log⟩
  | .ok t =>
    let run := (c.setting transformer compiler fs cwd).run c.maxPasses t
    let log := log ++ run.log
    match run.result with
    | .error e => ⟨.error e, run.passes, log⟩
    | .ok _ => ⟨.ok run.table, run.passes, log ++ [info "declaration generation settled"]⟩

end SvelteTypings.Generation
