import SvelteTypings.Text.Utf8

/-!
# Paths

A path is a sequence of bytes, kept as it was written. Two spellings of one path differ in doubled
separators, in `.` segments and in a separator at the end; what they have in common is the list of
`components`, and paths are compared and ordered by it.

The bytes split into a *lead* (the separator of an absolute path, or the `.` that starts a relative
one) and a *body* of segments between separators. A segment that is empty or `.` is *void*: it names
nothing and is no component.
-/

namespace SvelteTypings

structure Path where
  bytes : List UInt8
deriving DecidableEq, Inhabited

namespace Path

def separator : UInt8 := 47
def dot : UInt8 := 46

def ofString (s : String) : Path := ⟨Text.encode s⟩

/-- The path as a text to show, with U+FFFD for what is not UTF-8. -/
def display (p : Path) : String := Text.decodeLossy p.bytes

def empty : Path := ⟨[]⟩
def root : Path := ⟨[separator]⟩

/-! ## Segments -/

abbrev Segment := List UInt8

/-- Puts a byte in front of the first segment. -/
def consByte (b : UInt8) : List Segment → List Segment
  | [] => [[b]]
  | s :: ss => (b :: s) :: ss

/-- The parts between separators: one more than there are separators. -/
def split : List UInt8 → List Segment
  | [] => [[]]
  | b :: bytes => if b = separator then [] :: split bytes else consByte b (split bytes)

/-- Segments with separators between them. -/
def joined : List Segment → List UInt8
  | [] => []
  | [s] => s
  | s :: ss => s ++ separator :: joined ss

/-- A segment that names nothing. -/
def isVoid (s : Segment) : Bool := s = [] || s = [dot]

/-- What a path starts with, apart from its segments. -/
inductive Lead where
  | absolute
  | here
  | none
deriving DecidableEq

def Lead.bytes : Lead → List UInt8
  | .absolute => [separator]
  | .here => [dot]
  | .none => []

/-- The lead of a path and the bytes after it. -/
def cutLead : List UInt8 → Lead × List UInt8
  | [] => (.none, [])
  | b :: bytes =>
    if b = separator then (.absolute, bytes)
    else if b = dot ∧ (bytes = [] ∨ bytes.head? = some separator) then (.here, bytes)
    else (.none, b :: bytes)

def lead (p : Path) : Lead := (cutLead p.bytes).1

def segments (p : Path) : List Segment := split (cutLead p.bytes).2

def dropVoidEnd (ss : List Segment) : List Segment := (ss.reverse.dropWhile isVoid).reverse

/-! ## Components -/

inductive Component where
  | root
  | current
  | parent
  | name (bytes : List UInt8)
deriving DecidableEq

/-- The component that a segment names, if it is not void. -/
def Component.ofSegment? (s : Segment) : Option Component :=
  if isVoid s then none else if s = [dot, dot] then some .parent else some (.name s)

def Lead.components : Lead → List Component
  | .absolute => [.root]
  | .here => [.current]
  | .none => []

/-- What a path denotes, apart from its spelling. -/
def components (p : Path) : List Component :=
  p.lead.components ++ p.segments.filterMap Component.ofSegment?

def isAbsolute (p : Path) : Bool := p.bytes.head? = some separator

/-- Two spellings of one path. -/
def same (p q : Path) : Bool := p.components = q.components

theorem same_iff (p q : Path) : p.same q ↔ p.components = q.components := by simp [same]

theorem same_refl (p : Path) : p.same p := by simp [same]

/-- The components of `p` begin with those of `base`. -/
def startsWith (p base : Path) : Bool := base.components.isPrefixOf p.components

/-- The name at the end of a path. -/
def fileName? (p : Path) : Option (List UInt8) :=
  match p.components.getLast? with
  | some (.name bytes) => some bytes
  | _ => none

/-! ## Order

Paths are ordered by their components, one after the other: the root first, then `.`, then `..`,
then names by their bytes. So `/a/x` stands before `/a-b/x`. -/

def compareBytes : List UInt8 → List UInt8 → Ordering := Ord.compare

def Component.rank : Component → Nat
  | .root => 0
  | .current => 1
  | .parent => 2
  | .name _ => 3

def Component.bytes : Component → List UInt8
  | .name bytes => bytes
  | _ => []

def Component.compare : Component → Component → Ordering :=
  compareLex (compareOn Component.rank) (compareOn Component.bytes)

def compareComponents : List Component → List Component → Ordering :=
  List.compareLex Component.compare

def compare (p q : Path) : Ordering := compareComponents p.components q.components

instance : Std.TransCmp Component.compare := inferInstanceAs (Std.TransCmp (compareLex _ _))

instance : Std.LawfulEqCmp Component.compare where
  eq_of_compare {a b} h := by
    obtain ⟨hrank, hbytes⟩ := compareLex_eq_eq.1 h
    have hr : a.rank = b.rank := Std.LawfulEqCmp.eq_of_compare hrank
    have hb : a.bytes = b.bytes := Std.LawfulEqCmp.eq_of_compare hbytes
    cases a <;> cases b <;> simp_all [Component.rank, Component.bytes]

instance : Std.TransCmp compareComponents := inferInstanceAs (Std.TransCmp (List.compareLex _))

instance : Std.LawfulEqCmp compareComponents :=
  inferInstanceAs (Std.LawfulEqCmp (List.compareLex _))

/-- Paths that stand at one place of the order are spellings of one path. -/
theorem compare_eq_iff {p q : Path} : p.compare q = .eq ↔ p.same q := by
  rw [same_iff]
  show compareComponents p.components q.components = .eq ↔ _
  exact Std.LawfulEqCmp.compare_eq_iff_eq

theorem compare_gt_iff {p q : Path} : p.compare q = .gt ↔ q.compare p = .lt := by
  show compareComponents p.components q.components = .gt ↔
    compareComponents q.components p.components = .lt
  exact Std.OrientedCmp.gt_iff_lt

theorem compare_trans {p q r : Path} (hpq : p.compare q = .lt) (hqr : q.compare r = .lt) :
    p.compare r = .lt := by
  show compareComponents p.components r.components = .lt
  exact Std.TransCmp.lt_trans hpq hqr

/-! ## Joining and taking apart -/

/-- `p` with `q` after it; an absolute `q` stands alone. -/
def join (p q : Path) : Path :=
  if q.isAbsolute then q
  else if p.bytes = [] ∨ p.bytes.getLast? = some separator then ⟨p.bytes ++ q.bytes⟩
  else ⟨p.bytes ++ separator :: q.bytes⟩

/-- The path without its last component. The root and the empty path have no parent. -/
def parent? (p : Path) : Option Path :=
  match dropVoidEnd p.segments with
  | [] => if p.lead = .here then some empty else none
  | s :: ss => some ⟨p.lead.bytes ++ joined (dropVoidEnd (s :: ss).dropLast)⟩

/-- The path and everything it lies in, innermost first. The bound is the number of components:
each step to the parent takes one away. -/
def ancestorsFrom : Nat → Path → List Path
  | 0, p => [p]
  | n + 1, p =>
    match p.parent? with
    | some q => p :: ancestorsFrom n q
    | none => [p]

/-- The path and everything it lies in, innermost first. -/
def ancestors (p : Path) : List Path := ancestorsFrom p.components.length p

/-- Drops void segments and the first `n` others. -/
def dropNamed : Nat → List Segment → List Segment
  | _, [] => []
  | n, s :: ss =>
    if isVoid s then dropNamed n ss
    else match n with
      | 0 => s :: ss
      | n + 1 => dropNamed n ss

/-- The part of `p` below `base`. It keeps the spelling between its first and its last name; below
an empty `base` it keeps the lead as well. -/
def below? (p base : Path) : Option Path :=
  if p.startsWith base then
    match base.components.length with
    | 0 => some ⟨p.lead.bytes ++ joined (dropVoidEnd p.segments)⟩
    | n + 1 =>
      let named := if p.lead = .none then n + 1 else n
      some ⟨joined (dropVoidEnd (dropNamed named p.segments))⟩
  else none

end Path

end SvelteTypings
