import Mathlib.Data.List.Perm.Subperm
import SvelteTypings.Proofs.FileSystem.Disk
import SvelteTypings.Proofs.Path.Below
import SvelteTypings.Proofs.Path.Displacement

/-!
# Where absolute paths lead

On a disk an absolute path leads down along the names of its displacement: where it climbs above the
root, it stays at the root (`location_eq_names`). The normalised path tells where it leads, and
whether it climbs an odd number of times (`normalize_eq_iff`). So a file has two normalised absolute
paths (`normalize_mem_spellings`), and a list of such paths in which none stands twice is no longer
than twice the disk (`length_le_of_nodup`).
-/

namespace SvelteTypings.Disk

open SvelteTypings.Path (Segment Displacement Component upward written)

variable {d : Disk} {p q : Path} {ss : List Segment} {text : String}

/-! ## Locations -/

theorem step_names (m : Displacement) (s : Segment) :
    step m.names s = ((Component.ofSegment? s).toList.foldl Displacement.go m).names := by
  unfold step Component.ofSegment?
  by_cases hvoid : Path.isVoid s
  · rw [if_pos hvoid, if_pos hvoid]
    rfl
  · rw [if_neg hvoid, if_neg hvoid]
    by_cases hup : s = upward
    · rw [if_pos hup, if_pos hup]
      show _ = (m.go .parent).names
      by_cases hnames : m.names = []
      · -- there is nothing above the root
        rw [Displacement.go_parent_of_nil hnames, hnames]
        rfl
      · rw [Displacement.go_parent_of_ne_nil hnames]
    · rw [if_neg hup, if_neg hup]
      rfl

theorem foldl_step_names (m : Displacement) (ss : List Segment) :
    ss.foldl step m.names =
      ((ss.filterMap Component.ofSegment?).foldl Displacement.go m).names := by
  induction ss generalizing m with
  | nil => rfl
  | cons s ss ih =>
    rw [List.foldl_cons, step_names, ih, ← List.foldl_append]
    congr 2
    cases hs : Component.ofSegment? s with
    | none => rw [List.filterMap_cons_none hs]; rfl
    | some c => rw [List.filterMap_cons_some hs]; rfl

/-- **An absolute path leads down along its names**, from the root. -/
theorem location_eq_names (hp : p.isAbsolute) (d : Disk) :
    d.location p = p.displacement.names := by
  have hstart : d.start p = [] := if_pos hp
  rw [location, hstart, Path.displacement, Path.components_eq_split, Path.lead_of_isAbsolute hp]
  exact foldl_step_names ⟨0, []⟩ (Path.split p.bytes)

/-- **What normalisation tells**: where an absolute path leads, and whether it climbs above the root
an odd number of times. -/
theorem normalize_eq_iff (hp : p.isAbsolute) (hq : q.isAbsolute) (d : Disk) :
    p.normalize = q.normalize ↔ d.location p = d.location q ∧
      p.displacement.up % 2 = q.displacement.up % 2 := by
  rw [Path.normalize_eq_kept, Path.normalize_eq_kept, hp, hq, location_eq_names hp,
    location_eq_names hq]
  have hpnames := Path.upward_not_mem_names p
  have hqnames := Path.upward_not_mem_names q
  constructor
  · intro h
    have hcomponents := congrArg Path.components h
    rw [Path.components_written (Path.tidy_kept p).plain,
      Path.components_written (Path.tidy_kept q).plain] at hcomponents
    have hkept := Path.map_ofPlain_injective (List.append_cancel_left hcomponents)
    unfold Displacement.kept at hkept
    -- a `..` in front tells the odd paths from the even ones
    rcases Nat.mod_two_eq_zero_or_one p.displacement.up with hpup | hpup <;>
      rcases Nat.mod_two_eq_zero_or_one q.displacement.up with hqup | hqup
    · rw [hpup, hqup] at hkept ⊢
      exact ⟨hkept, rfl⟩
    · rw [hpup, hqup] at hkept
      have hmem : upward ∈ [] ++ p.displacement.names := hkept ▸ List.mem_cons_self
      exact absurd hmem hpnames
    · rw [hpup, hqup] at hkept
      have hmem : upward ∈ [] ++ q.displacement.names := hkept ▸ List.mem_cons_self
      exact absurd hmem hqnames
    · rw [hpup, hqup] at hkept ⊢
      exact ⟨(List.cons.inj hkept).2, rfl⟩
  · rintro ⟨hnames, hup⟩
    unfold Displacement.kept
    rw [hnames, hup]

/-! ## Files -/

theorem stat_eq_ok {n : Node} (h : d.stat p = .ok n) : d.node? (d.location p) = some n := by
  obtain ⟨⟨⟩, -, h⟩ := bind_eq_ok.1 h
  obtain ⟨l, hwalk, h⟩ := bind_eq_ok.1 h
  have hl : l = d.location p := walk_eq_foldl hwalk
  subst hl
  split at h
  · next hn => exact hn.trans (congrArg some (Except.ok.inj h))
  · exact absurd h (by simp)

theorem exists_stat_of_readText (h : d.readText p = .ok text) :
    ∃ bytes, d.stat p = .ok (.file bytes) := by
  unfold readText readBytes at h
  cases hstat : d.stat p with
  | error e => exact absurd h (by simp [hstat])
  | ok n =>
    cases n with
    | directory => exact absurd h (by simp [hstat])
    | file bytes => exact ⟨bytes, rfl⟩

/-- A text is read from something below the root. -/
theorem location_mem_of_readText (h : d.readText p = .ok text) :
    d.location p ≠ [] ∧ d.location p ∈ d.nodes.map Prod.fst := by
  obtain ⟨bytes, hstat⟩ := exists_stat_of_readText h
  have hnode := stat_eq_ok hstat
  unfold node? at hnode
  split at hnode
  · exact absurd hnode (by simp)
  · next hroot =>
    obtain ⟨e, he, -⟩ := Option.map_eq_some_iff.1 hnode
    have hlocation : e.1 = d.location p := by simpa using List.find?_some he
    exact ⟨hroot, List.mem_map.2 ⟨e, List.mem_of_find?_eq_some he, hlocation⟩⟩

/-- The normalised absolute paths under which something can be read. -/
def spellings (d : Disk) : List Path :=
  (d.nodes.map Prod.fst).flatMap fun l => [written true l, written true (upward :: l)]

theorem normalize_mem_spellings (hp : p.isAbsolute) (h : d.readText p = .ok text) :
    p.normalize ∈ d.spellings := by
  refine List.mem_flatMap.2 ⟨d.location p, (location_mem_of_readText h).2, ?_⟩
  rw [Path.normalize_eq_kept, hp, location_eq_names hp, Displacement.kept]
  split
  · exact List.mem_cons_self
  · exact List.mem_cons_of_mem _ List.mem_cons_self

/-- **So many paths at most can be read** without reading one again. -/
theorem length_le_of_nodup {ps : List Path} (hnodup : ps.Nodup) (h : ∀ p ∈ ps, p ∈ d.spellings) :
    ps.length ≤ 2 * d.nodes.length := by
  have hlength : d.spellings.length = 2 * d.nodes.length := by
    simp [spellings, List.length_flatMap, Function.comp_def, Nat.mul_comm]
  rw [← hlength]
  exact (List.subperm_of_subset hnodup h).length_le

end SvelteTypings.Disk
