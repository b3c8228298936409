import SvelteTypings.Proofs.Path.Walk
import SvelteTypings.Proofs.Path.Named

/-!
# Where a path leads from any start

A path leads some levels up from where it starts, and from there down along names: its
*displacement*. Joining to a deep directory and normalising follows the displacement
(`normalize_join_eq`). Normalising the path alone keeps the names but counts the levels only modulo
two (`normalize_eq_kept`): a `..` that has nothing to take away stays, and the next `..` takes it
away like a name. So normalisation preserves what a relative path denotes exactly if the path leads
one level up at most (`normalize_join_normalize_iff`).
-/

namespace SvelteTypings.Path

/-! ## Displacements -/

/-- So many levels up, then down along names. -/
structure Displacement where
  up : Nat
  names : List Segment
deriving DecidableEq

namespace Displacement

/-- Goes on by one component: `..` goes back over a name if there is one, else a level up. -/
def go (m : Displacement) : Component → Displacement
  | .name n => { m with names := m.names ++ [n] }
  | .parent =>
    if m.names = [] then { m with up := m.up + 1 } else { m with names := m.names.dropLast }
  | _ => m

/-- The segments that normalisation keeps of a path with this displacement. -/
def kept (m : Displacement) : List Segment := (if m.up % 2 = 0 then [] else [upward]) ++ m.names

/-- Where the displacement ends when it starts in a directory. -/
def reached (m : Displacement) (directory : List Segment) : List Segment :=
  directory.take (directory.length - m.up) ++ m.names

end Displacement

/-- Where a path leads from where it starts. -/
def displacement (p : Path) : Displacement := p.components.foldl Displacement.go ⟨0, []⟩

namespace Displacement

variable {m : Displacement} {c : Component} {cs : List Component} {directory : List Segment}

theorem go_parent_of_nil (h : m.names = []) : m.go .parent = { m with up := m.up + 1 } := if_pos h

theorem go_parent_of_ne_nil (h : m.names ≠ []) :
    m.go .parent = { m with names := m.names.dropLast } := if_neg h

theorem up_le_up_go (m : Displacement) (c : Component) : m.up ≤ (m.go c).up := by
  unfold go
  split
  · exact Nat.le_refl _
  · split
    · exact Nat.le_succ _
    · exact Nat.le_refl _
  · exact Nat.le_refl _

theorem up_le_up_foldl (m : Displacement) (cs : List Component) : m.up ≤ (cs.foldl go m).up := by
  induction cs generalizing m with
  | nil => exact Nat.le_refl _
  | cons c cs ih => exact Nat.le_trans (up_le_up_go m c) (ih (m.go c))

/-- **A step of the normalisation**: above the start it goes back and forth between nothing and one
`..`. -/
theorem pushed_kept (m : Displacement) (c : Component) : pushed m.kept c = (m.go c).kept := by
  cases c with
  | root => rfl
  | current => rfl
  | name n =>
    show m.kept ++ [n] = (if m.up % 2 = 0 then [] else [upward]) ++ (m.names ++ [n])
    rw [kept, List.append_assoc]
  | parent =>
    show (if m.kept = [] then [upward] else m.kept.dropLast) = _
    by_cases hnames : m.names = []
    · -- one level more: what was even is odd now
      rw [go_parent_of_nil hnames]
      unfold kept
      rcases Nat.mod_two_eq_zero_or_one m.up with hup | hup
      · have hnext : (m.up + 1) % 2 ≠ 0 := by omega
        simp [hnames, hup, hnext]
      · have hnext : (m.up + 1) % 2 = 0 := by omega
        simp [hnames, hup, hnext]
    · have hkept : m.kept ≠ [] := fun h => hnames (List.append_eq_nil_iff.1 h).2
      rw [go_parent_of_ne_nil hnames, if_neg hkept, kept, List.dropLast_append_of_ne_nil hnames]
      rfl

/-- **A step of the normalisation from a directory** that is deep enough. -/
theorem pushed_reached (h : (m.go c).up ≤ directory.length) :
    pushed (m.reached directory) c = (m.go c).reached directory := by
  cases c with
  | root => rfl
  | current => rfl
  | name n =>
    show m.reached directory ++ [n] = directory.take (directory.length - m.up) ++ (m.names ++ [n])
    rw [reached, List.append_assoc]
  | parent =>
    show (if m.reached directory = [] then [upward] else (m.reached directory).dropLast) = _
    by_cases hnames : m.names = []
    · rw [go_parent_of_nil hnames] at h ⊢
      have hlt : m.up + 1 ≤ directory.length := h
      have hne : m.reached directory ≠ [] := by
        intro hnil
        have hlength := congrArg List.length hnil
        simp only [reached, hnames, List.append_nil, List.length_take, List.length_nil] at hlength
        omega
      have hlevel : min (directory.length - m.up) directory.length - 1 =
          directory.length - (m.up + 1) := by omega
      rw [if_neg hne, reached, reached, hnames, List.append_nil, List.append_nil,
        List.dropLast_eq_take, List.length_take, hlevel, List.take_take,
        Nat.min_eq_left (by omega)]
    · have hne : m.reached directory ≠ [] := fun h => hnames (List.append_eq_nil_iff.1 h).2
      rw [go_parent_of_ne_nil hnames, if_neg hne, reached, List.dropLast_append_of_ne_nil hnames]
      rfl

theorem foldl_pushed_kept (m : Displacement) (cs : List Component) :
    cs.foldl pushed m.kept = (cs.foldl go m).kept := by
  induction cs generalizing m with
  | nil => rfl
  | cons c cs ih => rw [List.foldl_cons, List.foldl_cons, pushed_kept, ih]

theorem foldl_pushed_reached (h : (cs.foldl go m).up ≤ directory.length) :
    cs.foldl pushed (m.reached directory) = (cs.foldl go m).reached directory := by
  induction cs generalizing m with
  | nil => rfl
  | cons c cs ih =>
    have hc : (m.go c).up ≤ directory.length := Nat.le_trans (up_le_up_foldl (m.go c) cs) h
    rw [List.foldl_cons, List.foldl_cons, pushed_reached hc, ih h]

/-- Names are gone down along. -/
theorem foldl_go_ofPlain {ss : List Segment} (h : upward ∉ ss) (m : Displacement) :
    (ss.map Component.ofPlain).foldl go m = { m with names := m.names ++ ss } := by
  induction ss generalizing m with
  | nil => rw [List.append_nil]; rfl
  | cons s ss ih =>
    rw [List.mem_cons, not_or] at h
    have hs : m.go (Component.ofPlain s) = { m with names := m.names ++ [s] } := by
      rw [Component.ofPlain, if_neg (Ne.symm h.1)]
      rfl
    rw [List.map_cons, List.foldl_cons, hs, ih h.2, List.append_assoc]
    rfl

/-- The names that are gone down along stand on the way. -/
theorem mem_names_foldl {n : Segment} (h : n ∈ (cs.foldl go m).names) :
    n ∈ m.names ∨ .name n ∈ cs := by
  induction cs generalizing m with
  | nil => exact Or.inl h
  | cons c cs ih =>
    rcases ih h with hnow | hlater
    · cases c with
      | root => exact Or.inl hnow
      | current => exact Or.inl hnow
      | name n' =>
        rcases List.mem_append.1 hnow with hbefore | hlast
        · exact Or.inl hbefore
        · exact Or.inr (List.mem_singleton.1 hlast ▸ List.mem_cons_self)
      | parent =>
        by_cases hnames : m.names = []
        · rw [go_parent_of_nil hnames] at hnow
          exact Or.inl hnow
        · rw [go_parent_of_ne_nil hnames] at hnow
          exact Or.inl ((List.dropLast_sublist _).mem hnow)
    · exact Or.inr (List.mem_cons_of_mem c hlater)

/-- From a deep directory, the levels can be told by where the displacement ends. -/
theorem reached_eq_iff {k : Nat} (h : m.up ≤ directory.length) (hk : k ≤ directory.length) :
    (⟨k, m.names⟩ : Displacement).reached directory = m.reached directory ↔ k = m.up := by
  constructor
  · intro heq
    have hlength := congrArg List.length heq
    simp only [reached, List.length_append, List.length_take] at hlength
    omega
  · rintro rfl
    rfl

end Displacement

/-! ## Normalising a path alone -/

variable {p directory : Path}

/-- **Normalisation keeps the names, and of the levels whether they are odd.** -/
theorem normalize_eq_kept (p : Path) : p.normalize = written p.isAbsolute p.displacement.kept := by
  rw [normalize_eq_written]
  congr 1
  exact Displacement.foldl_pushed_kept ⟨0, []⟩ p.components

theorem tidy_kept (p : Path) : Tidy p.displacement.kept := by
  have hkept : p.components.foldl pushed [] = p.displacement.kept :=
    Displacement.foldl_pushed_kept ⟨0, []⟩ p.components
  rw [← hkept]
  exact tidy_foldl_pushed tidy_nil fun _ => plain_of_name_mem_components

/-- A `..` is never among the names that a path leads down along. -/
theorem upward_not_mem_names (p : Path) : upward ∉ p.displacement.names := by
  intro hmem
  rcases Displacement.mem_names_foldl hmem with hnil | hname
  · exact absurd hnil List.not_mem_nil
  · exact (plain_of_name_mem_components hname).2 rfl

/-- A normalised relative path leads one level up at most. -/
theorem displacement_normalize (h : p.isAbsolute = false) :
    p.normalize.displacement = ⟨p.displacement.up % 2, p.displacement.names⟩ := by
  have hcomponents : p.normalize.components = p.displacement.kept.map Component.ofPlain := by
    rw [normalize_eq_kept, components_written (tidy_kept p).plain, h]
    rfl
  have hnames := Displacement.foldl_go_ofPlain (upward_not_mem_names p)
  rw [displacement, hcomponents]
  unfold Displacement.kept
  rcases Nat.mod_two_eq_zero_or_one p.displacement.up with hup | hup
  · rw [hup, if_pos rfl, List.nil_append, hnames]
    rfl
  · rw [hup, if_neg (by decide), List.map_append, List.foldl_append, hnames]
    rfl

/-! ## Normalising behind a directory -/

/-- An absolute path without `..` is left as it is, its spelling apart. -/
theorem foldl_pushed_named {cs : List Component} (h : .parent ∉ cs) (ss : List Segment) :
    cs.foldl pushed ss = ss ++ cs.filterMap Component.segment? := by
  induction cs generalizing ss with
  | nil => exact (List.append_nil ss).symm
  | cons c cs ih =>
    rw [List.mem_cons, not_or] at h
    rw [List.foldl_cons, ih h.2]
    cases c with
    | parent => exact absurd rfl h.1
    | root => rfl
    | current => rfl
    | name n =>
      have hn : (Component.name n).segment? = some n := rfl
      rw [List.filterMap_cons_some hn, pushed, List.append_assoc]
      rfl

/-- **Joining and normalising follows the displacement**, when the directory is deep enough. -/
theorem normalize_join_eq (hd : directory.isAbsolute) (hdown : .parent ∉ directory.components)
    (hp : p.isAbsolute = false) (hdeep : p.displacement.up ≤ directory.named.length) :
    (directory.join p).normalize = written true (p.displacement.reached directory.named) := by
  have hstart : directory.components.foldl pushed [] =
      (⟨0, []⟩ : Displacement).reached directory.named := by
    rw [foldl_pushed_named hdown, Displacement.reached, Nat.sub_zero, List.take_length,
      List.append_nil]
    rfl
  rw [normalize_eq_written, isAbsolute_join p hd, components_join hd hp, List.foldl_append,
    ← foldl_pushed_components hp, hstart]
  exact congrArg (written true) (Displacement.foldl_pushed_reached hdeep)

theorem named_normalize_join (hd : directory.isAbsolute) (hdown : .parent ∉ directory.components)
    (hp : p.isAbsolute = false) (hdeep : p.displacement.up ≤ directory.named.length) :
    (directory.join p).normalize.named = p.displacement.reached directory.named := by
  have hplain : ∀ s ∈ p.displacement.reached directory.named, Plain s := by
    intro s hs
    rcases List.mem_append.1 hs with hs | hs
    · obtain ⟨c, hc, hsegment⟩ := List.mem_filterMap.1 (List.mem_of_mem_take hs)
      cases c with
      | name n =>
        obtain rfl : n = s := Option.some.inj hsegment
        exact (plain_of_name_mem_components hc).1
      | parent => exact absurd hc hdown
      | root => exact absurd hsegment (by simp [Component.segment?])
      | current => exact absurd hsegment (by simp [Component.segment?])
    · exact (tidy_kept p).plain s (List.mem_append_right _ hs)
  rw [normalize_join_eq hd hdown hp hdeep, named_written hplain]

/-- **What normalisation preserves.** A second normalisation changes no byte. An absolute path
denotes the same before and after. A relative path does exactly if it leads one level up at most: of
more levels only the parity is kept, so that behind every directory that is deep enough the two
paths part. -/
theorem normalize_join_normalize_iff (p : Path) (hd : directory.isAbsolute)
    (hdown : .parent ∉ directory.components)
    (hdeep : p.isAbsolute = false → p.displacement.up ≤ directory.named.length) :
    p.normalize.normalize = p.normalize ∧
      ((directory.join p.normalize).normalize = (directory.join p).normalize ↔
        p.isAbsolute ∨ p.displacement.up ≤ 1) := by
  have hidempotent := (isCanonical_normalize p).normalize_eq
  refine ⟨hidempotent, ?_⟩
  by_cases hp : p.isAbsolute
  · have hnormal : p.normalize.isAbsolute := by rw [isAbsolute_normalize]; exact hp
    -- an absolute path stands alone behind the directory
    rw [join, if_pos hnormal, join, if_pos hp, hidempotent]
    simp [hp]
  · have hrelative : p.isAbsolute = false := by simpa using hp
    have hle := hdeep hrelative
    have hnormal : p.normalize.isAbsolute = false := by rw [isAbsolute_normalize]; exact hrelative
    have hmod : p.normalize.displacement.up ≤ directory.named.length := by
      rw [displacement_normalize hrelative]
      show p.displacement.up % 2 ≤ _
      omega
    have hlevels : (directory.join p.normalize).normalize = (directory.join p).normalize ↔
        p.displacement.up % 2 = p.displacement.up := by
      rw [← Displacement.reached_eq_iff hle (by omega)]
      constructor
      · intro heq
        have hnamed := congrArg named heq
        rw [named_normalize_join hd hdown hnormal hmod, named_normalize_join hd hdown hrelative hle,
          displacement_normalize hrelative] at hnamed
        exact hnamed
      · intro heq
        rw [normalize_join_eq hd hdown hnormal hmod, normalize_join_eq hd hdown hrelative hle,
          displacement_normalize hrelative, heq]
    rw [hlevels]
    simp only [hrelative, Bool.false_eq_true, false_or]
    omega

/-- A path that leads up and down, one level up in all. -/
theorem normalize_join_normalize_sibling :
    (ofString "/a/b").isAbsolute ∧ .parent ∉ (ofString "/a/b").components ∧
      (ofString "c/../.././d//e").displacement.up ≤ (ofString "/a/b").named.length ∧
      ((ofString "/a/b").join (ofString "c/../.././d//e").normalize).normalize =
        ((ofString "/a/b").join (ofString "c/../.././d//e")).normalize := by
  have hd : (ofString "/a/b").isAbsolute := by decide
  have hdown : .parent ∉ (ofString "/a/b").components := by decide
  have hdeep : (ofString "c/../.././d//e").displacement.up ≤ (ofString "/a/b").named.length := by
    decide
  have hiff := normalize_join_normalize_iff (ofString "c/../.././d//e") hd hdown fun _ => hdeep
  exact ⟨hd, hdown, hdeep, hiff.2.2 (by decide)⟩

/-- **A path that leads two levels up loses both.** -/
theorem normalize_grandparent :
    (ofString "../..").normalize = empty ∧
      ((ofString "/a/b/c").join (ofString "../..").normalize).normalize = ofString "/a/b/c" ∧
      ((ofString "/a/b/c").join (ofString "../..")).normalize = ofString "/a" := by
  decide

end SvelteTypings.Path
