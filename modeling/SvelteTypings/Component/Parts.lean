import SvelteTypings.Component.Blocks
import SvelteTypings.Component.Event
import SvelteTypings.Component.Slot

/-!
# The parts of a component

Everything about a component that its types depend on.
-/

namespace SvelteTypings.Component

structure Parts where
  moduleScript : Option String
  imports : List String
  /-- The instance script without imports, and without `export` in front of declarations. -/
  body : String
  properties : List Property
  /-- `none` if the events have no types. -/
  events : Option (List Event)
  /-- In the order of their names. -/
  slots : List Slot
deriving DecidableEq

def Parts.ofBlocks (b : Blocks) : Parts :=
  let script := (b.instanceScript.getD "").toList
  let hoisted := hoist script
  { moduleScript := b.moduleScript
    imports := hoisted.imports.map String.ofList
    body := String.ofList hoisted.body
    properties := Component.properties script
    events := events? script
    slots := Component.slots b.markup.toList }

def parts (source : String) : Except Unclosed Parts := (blocks source).map Parts.ofBlocks

end SvelteTypings.Component
