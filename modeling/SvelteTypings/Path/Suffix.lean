import SvelteTypings.Path.Normalize

/-!
# Suffixes and roots

The files that belong to one component differ in a suffix that is appended to the whole name:
`Button.svelte`, `Button.svelte.tsx`, `Button.svelte.d.ts`. The suffix is a matter of bytes, so it
also applies to names that are not UTF-8.
-/

namespace SvelteTypings.Path

/-- Ends the name of an intermediate file. -/
def intermediateSuffix : String := ".tsx"

/-- Ends the name of a hand-written typed file. -/
def typedSuffix : String := ".ts"

/-- Ends the name of a declaration file. -/
def declarationSuffix : String := ".d.ts"

/-- The path with a suffix after its last byte. -/
def appendSuffix (p : Path) (suffix : String) : Path := ⟨p.bytes ++ Text.encode suffix⟩

def hasSuffix (p : Path) (suffix : String) : Bool := (Text.encode suffix).isSuffixOf p.bytes

theorem hasSuffix_iff {p : Path} {s : String} : p.hasSuffix s ↔ Text.encode s <:+ p.bytes := by
  rw [hasSuffix, List.isSuffixOf_iff_suffix]

theorem hasSuffix_iff_exists {p : Path} {s : String} :
    p.hasSuffix s ↔ ∃ q : Path, p = q.appendSuffix s := by
  rw [hasSuffix_iff]
  refine ⟨?_, ?_⟩
  · rintro ⟨b, hb⟩
    exact ⟨⟨b⟩, congrArg Path.mk hb.symm⟩
  · rintro ⟨q, rfl⟩
    exact List.suffix_append q.bytes _

theorem hasSuffix_appendSuffix (p : Path) (s : String) : (p.appendSuffix s).hasSuffix s :=
  hasSuffix_iff_exists.2 ⟨p, rfl⟩

/-- A path has a suffix that a longer suffix of it ends in. -/
theorem hasSuffix_of_hasSuffix {p : Path} {s t : String} (h : p.hasSuffix t)
    (hst : Text.encode s <:+ Text.encode t) : p.hasSuffix s :=
  hasSuffix_iff.2 (hst.trans (hasSuffix_iff.1 h))

/-- Of two suffixes of a path one ends in the other. -/
theorem suffix_or_suffix {p : Path} {s t : String} (hs : p.hasSuffix s) (ht : p.hasSuffix t) :
    Text.encode s <:+ Text.encode t ∨ Text.encode t <:+ Text.encode s :=
  List.suffix_or_suffix_of_suffix (hasSuffix_iff.1 hs) (hasSuffix_iff.1 ht)

/-- The path before the suffix it ends in. -/
def stripSuffix? (p : Path) (suffix : String) : Option Path :=
  if p.hasSuffix suffix then some ⟨p.bytes.take (p.bytes.length - (Text.encode suffix).length)⟩
  else none

theorem stripSuffix?_eq_some_iff (p q : Path) (suffix : String) :
    p.stripSuffix? suffix = some q ↔ p = q.appendSuffix suffix := by
  obtain ⟨b⟩ := p
  obtain ⟨c⟩ := q
  simp only [stripSuffix?, hasSuffix, appendSuffix, Option.ite_none_right_eq_some,
    Option.some.injEq, Path.mk.injEq, List.isSuffixOf_iff_suffix]
  constructor
  · rintro ⟨⟨d, rfl⟩, h⟩
    simp only [List.length_append, Nat.add_sub_cancel, List.take_left'] at h
    rw [h]
  · rintro rfl
    simp

theorem stripSuffix?_appendSuffix (p : Path) (suffix : String) :
    (p.appendSuffix suffix).stripSuffix? suffix = some p :=
  (stripSuffix?_eq_some_iff _ _ _).2 rfl

/-- The path before the first of the suffixes that it ends in, or the path itself. -/
def stem (suffixes : List String) (p : Path) : Path :=
  (suffixes.findSome? p.stripSuffix?).getD p

/-- Moves a path below `source` to the same place below `target`. -/
def remapRoot? (p source target : Path) : Option Path := (p.below? source).map target.join

end SvelteTypings.Path
