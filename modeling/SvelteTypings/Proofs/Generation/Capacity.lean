import SvelteTypings.Proofs.FileSystem.Memory
import SvelteTypings.Proofs.Generation.Loading
import SvelteTypings.Proofs.Path.Named

/-!
# How many files a program can hold

A program never holds more files than its host has announced. Every file of a program is the
intermediate file of a listed component, or behind it stands a real file: the very file that is
loaded, or the component that it was discovered for. A component can be discovered under few
spellings only, since its path is rooted once the suffix stands after it
(`Path.mem_beforeSuffix`), so each real file gives four files of a program at most
(`mem_possibleFiles`).
-/

namespace SvelteTypings.Generation

open SvelteTypings.Path (IsRooted isSuffix_intermediate)

variable {c : Config} {transformer : Transformer} {m : MemoryFiles} {p : Path} {start t : Table}
  {roots queue : List Path} {program : Program}

/-! ## The files of a program -/

/-- The files of a program that a real file can stand behind. -/
def filesBehind (q : Path) : List Path :=
  Path.written true q.named :: q.beforeSuffix.map Table.keyFor

/-- All files that a program can hold, when a table is known at the beginning. -/
def possibleFiles (m : MemoryFiles) (start : Table) : List Path :=
  start.keys ++ m.files.keys.flatMap filesBehind

theorem length_possibleFiles (m : MemoryFiles) (start : Table) :
    (possibleFiles m start).length = start.size + 4 * m.files.size := by
  have hfour : ∀ qs : List Path, (qs.flatMap filesBehind).length = 4 * qs.length := by
    intro qs
    rw [List.length_flatMap]
    show (qs.map fun _ => 4).sum = _
    rw [List.map_const', List.sum_replicate_nat, Nat.mul_comm]
  have hsize : m.files.keys.length = m.files.size := List.length_map _
  have hstart : start.keys.length = start.size := List.length_map _
  rw [possibleFiles, List.length_append, hfour, hsize, hstart]

/-- **Whatever is there is a possible file.** -/
theorem mem_possibleFiles (hstart : ∀ k, c.Lists m.fileSystem k → k ∈ start.keys) (hp : IsRooted p)
    (h : c.Available m.fileSystem p) : p ∈ possibleFiles m start := by
  rcases h with (hlists | ⟨component, rfl, hdiscovers⟩) | hfile
  · exact List.mem_append_left _ (hstart p hlists)
  · obtain ⟨q, hq, hsame⟩ := MemoryFiles.exists_key_of_isFile hdiscovers.isFile
    refine List.mem_append_right _ (List.mem_flatMap.2 ⟨q, hq, List.mem_cons_of_mem _ ?_⟩)
    exact List.mem_map_of_mem (Path.mem_beforeSuffix isSuffix_intermediate hp hsame)
  · obtain ⟨q, hq, hsame⟩ := MemoryFiles.exists_key_of_isFile hfile
    refine List.mem_append_right _ (List.mem_flatMap.2 ⟨q, hq, ?_⟩)
    rw [hp.eq_written hsame]
    exact List.mem_cons_self

/-- **A program holds no more files than were announced**, and fewer as long as one is left to load.
-/
theorem Config.Loading.length_files_lt
    (h : c.Loading m.fileSystem transformer start roots (p :: queue) program t)
    (hstart : ∀ k, c.Lists m.fileSystem k → k ∈ start.keys) (hnew : ¬ program.files.contains p) :
    program.files.size < 4 * m.files.size + start.size := by
  have hp := h.queued p List.mem_cons_self
  have hnot : p ∉ program.files.keys := fun hmem => hnew (PathMap.contains_of_mem_keys hmem)
  have hnodup : (p :: program.files.keys).Nodup :=
    List.nodup_cons.2 ⟨hnot, PathMap.nodup_keys program.files⟩
  have hsub : p :: program.files.keys ⊆ possibleFiles m start := by
    intro q hq
    rcases List.mem_cons.1 hq with rfl | hq
    · exact mem_possibleFiles hstart hp.typed.rooted hp.available
    · have hloaded := h.loadable hq
      exact mem_possibleFiles hstart hloaded.typed.rooted hloaded.available
  have hlength := hnodup.length_le_of_subset hsub
  have hsize : program.files.keys.length = program.files.size := List.length_map _
  rw [length_possibleFiles, List.length_cons, hsize] at hlength
  omega

end SvelteTypings.Generation
