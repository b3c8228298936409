import SvelteTypings.Json.Basic
import SvelteTypings.Path.Basic

/-!
# Compiler options

The options of a project that matter here, and the others as they came, to be passed on.
-/

namespace SvelteTypings

structure CompilerOptions where
  declaration : Bool := false
  emitDeclarationOnly : Bool := false
  strict : Option Bool := none
  declarationDir : Option Path := none
  allowJs : Option Bool := none
  removeComments : Option Bool := none
  /-- The members that have no field of their own. -/
  other : Json.Members := []
deriving Inhabited

namespace CompilerOptions

/-- The options with which nothing but declarations is emitted. -/
def declarationOnly (o : CompilerOptions) : CompilerOptions :=
  { o with declaration := true, emitDeclarationOnly := true }

def isStrict (o : CompilerOptions) : Bool := o.strict.getD false
def allowsJs (o : CompilerOptions) : Bool := o.allowJs.getD false
def removesComments (o : CompilerOptions) : Bool := o.removeComments.getD false

/-! ## As JSON -/

/-- The keys that have a field of their own. -/
def fieldKeys : List String :=
  ["declaration", "emitDeclarationOnly", "strict", "declarationDir", "allowJs", "removeComments"]

/-- A flag that may be left out but not be null. -/
def flag? (ms : Json.Members) (key : String) : Option Bool :=
  match ms.get? key with
  | none => some false
  | some (.bool b) => some b
  | some _ => none

/-- A flag that may be left out or be null. -/
def optionalFlag? (ms : Json.Members) (key : String) : Option (Option Bool) :=
  match ms.get? key with
  | none => some none
  | some .null => some none
  | some (.bool b) => some (some b)
  | some _ => none

/-- A path that may be left out or be null. -/
def optionalPath? (ms : Json.Members) (key : String) : Option (Option Path) :=
  match ms.get? key with
  | none => some none
  | some .null => some none
  | some (.string s) => some (some (Path.ofString s))
  | some _ => none

/-- The options given by the members of an object, if those with a field have the right type. -/
def ofMembers? (ms : Json.Members) : Option CompilerOptions := do
  let declaration ← flag? ms "declaration"
  let emitDeclarationOnly ← flag? ms "emitDeclarationOnly"
  let strict ← optionalFlag? ms "strict"
  let declarationDir ← optionalPath? ms "declarationDir"
  let allowJs ← optionalFlag? ms "allowJs"
  let removeComments ← optionalFlag? ms "removeComments"
  return { declaration, emitDeclarationOnly, strict, declarationDir, allowJs, removeComments,
           other := ms.filter fun m => !fieldKeys.contains m.1 }

def ofJson? : Json → Option CompilerOptions
  | .object ms => ofMembers? ms
  | _ => none

/-- Sets a member if there is a value for it. -/
def setSome (key : String) (value : Option Json) (ms : Json.Members) : Json.Members :=
  match value with
  | some v => ms.set key v
  | none => ms

/-- The options as an object. Fields without a value are left out. -/
def toJson (o : CompilerOptions) : Json :=
  .object <|
    setSome "removeComments" (o.removeComments.map .bool) <|
    setSome "allowJs" (o.allowJs.map .bool) <|
    setSome "declarationDir" (o.declarationDir.map fun p => .string p.display) <|
    setSome "strict" (o.strict.map .bool) <|
    Json.Members.set "emitDeclarationOnly" (.bool o.emitDeclarationOnly) <|
    Json.Members.set "declaration" (.bool o.declaration) o.other

end CompilerOptions

end SvelteTypings
