import SvelteTypings.FileSystem.Memory
import SvelteTypings.Proofs.Path.Map

/-!
# Files in memory

Files in memory are found under every spelling of their path, and each of them can be read. Only the
message that a file is missing shows how the path was spelled.
-/

namespace SvelteTypings.MemoryFiles

variable {m : MemoryFiles} {p q : Path} {text : String}

/-! ## Reading -/

theorem read_eq_ok_iff : m.read p = .ok text ↔ m.files.get? p = some text := by
  rw [read]
  cases m.files.get? p <;> simp

/-- What is a file and no directory is among the files, so it has a text. -/
theorem exists_text_of_isFile (h : m.fileSystem.isFile p) : ∃ text, m.read p = .ok text := by
  have hparts : (m.files.contains p || m.isDirectory p) && !m.isDirectory p := h
  have hcontains : m.files.contains p := by
    cases hc : m.files.contains p <;> cases hd : m.isDirectory p <;> simp_all
  cases hget : m.files.get? p with
  | none => exact absurd hcontains (PathMap.get?_eq_none_iff.1 hget)
  | some text => exact ⟨text, read_eq_ok_iff.2 hget⟩

theorem contains_of_read (h : m.read p = .ok text) : m.files.contains p := by
  obtain ⟨q, hq, hsame⟩ := PathMap.get?_eq_some_iff.1 (read_eq_ok_iff.1 h)
  exact PathMap.contains_iff.2 ⟨q, PathMap.mem_keys_of_mem hq, hsame⟩

/-- What is a file is found among the files under some spelling. -/
theorem exists_key_of_isFile (h : m.fileSystem.isFile p) : ∃ q ∈ m.files.keys, q.same p := by
  obtain ⟨text, hread⟩ := exists_text_of_isFile h
  exact PathMap.contains_iff.1 (contains_of_read hread)

theorem exists_textOf?_of_isFile (h : m.fileSystem.isFile p) :
    ∃ text, m.fileSystem.textOf? p = .ok (some text) := by
  obtain ⟨text, htext⟩ := exists_text_of_isFile h
  refine ⟨text, ?_⟩
  rw [FileSystem.textOf?, if_pos h]
  have hread : m.fileSystem.read p = .ok text := htext
  rw [hread]

/-- A path that a file lies strictly below is a directory. -/
theorem isDirectory_of_below (h : m.read q = .ok text) (hbelow : q.startsWith p)
    (hne : ¬ q.same p) : m.isDirectory p := by
  obtain ⟨q', hq', hsame⟩ := PathMap.get?_eq_some_iff.1 (read_eq_ok_iff.1 h)
  rw [Path.same_iff] at hsame
  refine List.any_eq_true.2 ⟨q', PathMap.mem_keys_of_mem hq', ?_⟩
  rw [Path.startsWith, ← hsame] at hbelow
  rw [Path.same_iff, ← hsame, ← Path.same_iff, Bool.not_eq_true] at hne
  rw [hne, Path.startsWith, hbelow]
  rfl

/-! ## Spellings -/

theorem isDirectory_congr (h : p.same q) : m.isDirectory p = m.isDirectory q := by
  rw [Path.same_iff] at h
  simp only [isDirectory, Path.same, Path.startsWith, h]

theorem present_congr (h : p.same q) : m.fileSystem.present p = m.fileSystem.present q := by
  show (m.files.contains p || m.isDirectory p) = (m.files.contains q || m.isDirectory q)
  rw [PathMap.contains_congr h, isDirectory_congr h]

theorem isFile_congr (h : p.same q) : m.fileSystem.isFile p = m.fileSystem.isFile q := by
  have hdirectory : m.fileSystem.isDirectory p = m.fileSystem.isDirectory q := isDirectory_congr h
  rw [FileSystem.isFile, FileSystem.isFile, present_congr h, hdirectory]

theorem read_congr (h : p.same q) (hread : m.read p = .ok text) : m.read q = .ok text := by
  rw [read_eq_ok_iff] at hread ⊢
  rw [← PathMap.get?_congr h]
  exact hread

end SvelteTypings.MemoryFiles
