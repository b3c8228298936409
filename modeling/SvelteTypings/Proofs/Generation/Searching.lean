import SvelteTypings.Proofs.Compiler.Searching
import SvelteTypings.Proofs.Generation.Addressing

/-!
# The overlay in a full search

A question to the overlay may discover a component, so leaving a question out could change what a
run finds. It does not (`run_resolve_inFull`): behind a candidate that is left out there is no
component, as the directory that the candidate lies in has no file at all.
-/

namespace SvelteTypings.Generation

open Resolution (Prunable candidates isIndex resolve resolveInFull)

variable {σ : Type} {host : Host σ} {c : Config} {transformer : Transformer} {m : MemoryFiles}
  {cwd base p : Path} {t : Table}

/-! ## Real files -/

/-- The host answers questions from the given files alone and is not changed by them. -/
structure ReadsFrom (host : Host σ) (fs : FileSystem) : Prop where
  fileExists : ∀ s p, host.fileExists s p = (.ok (fs.isFile p), s)
  directoryExists : ∀ s p, host.directoryExists s p = fs.isDirectory p

theorem readsFrom_capturing (fs : FileSystem) (cwd : Path) : ReadsFrom (Host.capturing fs cwd) fs :=
  ⟨fun _ _ => rfl, fun _ _ => rfl⟩

theorem prunable_files (h : ReadsFrom host m.fileSystem) (hbase : Path.IsCanonical base) :
    Prunable host (fun _ => True) base (candidates base) where
  keeps _ _ _ := trivial
  steady s s' _ _ := by rw [h.directoryExists, h.directoryExists]
  absent s _ hno p hp hindex := by
    rw [h.directoryExists] at hno
    rw [h.fileExists, Resolution.isFile_of_isIndex hbase hp hindex hno]

/-! ## The overlay -/

/-- Nothing is discovered behind a path that is no intermediate file of a real file. -/
theorem discoverComponent_eq_none {fs : FileSystem}
    (h : ∀ component, p = Table.keyFor component → fs.isFile component = false) :
    discoverComponent c fs transformer p = .ok none := by
  rw [discoverComponent]
  cases hstrip : p.stripSuffix? Path.intermediateSuffix with
  | none => rfl
  | some component =>
    have hfile := h component ((Path.stripSuffix?_eq_some_iff _ _ _).1 hstrip)
    simp [hfile]

theorem prunable_overlay (hroot : ¬ m.files.contains Path.root)
    (hempty : ¬ m.files.contains Path.empty) (hbase : Path.IsCanonical base) :
    Prunable (c.host m.fileSystem transformer cwd) (c.Admitted m.fileSystem transformer) base
      (candidates base) where
  keeps t p ht := by
    have hafter : c.Admitted m.fileSystem transformer
        ((c.setting transformer Emission.compile m.fileSystem cwd).after t
          (.called (.fileExists p))) := ht.after _
    exact hafter
  steady _ _ _ _ := rfl
  absent t ht hno p hp hindex := by
    have hbehind : ∀ component text, m.read component = .ok text →
        ¬ p.same (component.appendSuffix Path.intermediateSuffix) := fun _ _ =>
      Resolution.not_same_keyFor_of_isIndex hroot hempty hbase hp hindex hno
    have hnew : ¬ t.contains p := by
      intro hcontains
      obtain ⟨k, hk, hsame⟩ := Table.contains_iff.1 hcontains
      obtain ⟨e, he⟩ := Table.mem_keys_iff.1 hk
      obtain ⟨text, transformed, hread, -⟩ := (ht k e he).source
      exact hbehind e.component text hread ((ht k e he).key ▸ Path.same_symm hsame)
    have hnothing : discoverComponent c m.fileSystem transformer p = .ok none := by
      refine discoverComponent_eq_none fun component hkey => ?_
      rw [← Bool.not_eq_true]
      intro hfile
      obtain ⟨text, hread⟩ := MemoryFiles.exists_text_of_isFile hfile
      exact hbehind component text hread (hkey ▸ Path.same_refl p)
    show overlayExists (discoverComponent c m.fileSystem transformer) m.fileSystem t p = _
    rw [overlayExists, if_neg hnew, hnothing]
    simp only [Resolution.isFile_of_isIndex hbase hp hindex hno]

/-- **Leaving index files out changes nothing.** For files in memory, none of them under the root or
the empty path, resolution ends as the search of all candidates does, with the same result, also
when it fails, and with the same state. This holds of every host that reads from the files, and of
the overlay at every table of a run. On any host, resolution asks for a directory at most once, and
for nothing after it has found a file. -/
theorem run_resolve_inFull (m : MemoryFiles) (specifier : String) (importer : Path)
    (hroot : ¬ m.files.contains Path.root) (hempty : ¬ m.files.contains Path.empty) :
    (∀ (σ : Type) (host : Host σ) (s : σ), ReadsFrom host m.fileSystem →
      (resolve specifier importer).run host s = (resolveInFull specifier importer).run host s) ∧
    (∀ (c : Config) (transformer : Transformer) (compiler : Compiler) (cwd : Path) (t : Table),
      c.Occurs transformer compiler m.fileSystem cwd t →
        (resolve specifier importer).run (c.host m.fileSystem transformer cwd) t =
          (resolveInFull specifier importer).run (c.host m.fileSystem transformer cwd) t) ∧
    ∀ (σ : Type) (host : Host σ) (s : σ),
      ((resolve specifier importer).questions host s).countP Question.isDirectory ≤ 1 ∧
        EndsAtHit ((resolve specifier importer).questions host s) := by
  refine ⟨?_, ?_, ?_⟩
  · intro σ host s hreads
    exact Resolution.run_resolve_eq (fun base hbase => prunable_files hreads hbase) trivial
  · intro c transformer compiler cwd t ht
    exact Resolution.run_resolve_eq (fun base hbase => prunable_overlay hroot hempty hbase)
      ht.admitted
  · intro σ host s
    exact Resolution.questions_resolve host specifier importer s

/-- From the pair, `..` means the root, in which every candidate lies. -/
theorem run_resolve_inFull_upward :
    (resolve ".." (.ofString "/s/A.svelte.tsx")).run (Host.capturing pairFiles.fileSystem .root)
        .empty =
      (resolveInFull ".." (.ofString "/s/A.svelte.tsx")).run
        (Host.capturing pairFiles.fileSystem .root) .empty ∧
    ∃ t, pair.result = .ok t ∧
      (resolve ".." (.ofString "/s/A.svelte.tsx")).run
          (pairConfig.host pairFiles.fileSystem (fun text _ => .ok text) .root) t =
        (resolveInFull ".." (.ofString "/s/A.svelte.tsx")).run
          (pairConfig.host pairFiles.fileSystem (fun text _ => .ok text) .root) t := by
  obtain ⟨t, ht, -⟩ := exists_pair
  have hboth := run_resolve_inFull pairFiles ".." (.ofString "/s/A.svelte.tsx") (by decide)
    (by decide)
  exact ⟨hboth.1 _ _ _ (readsFrom_capturing _ _), t, ht,
    hboth.2.1 pairConfig _ Emission.compile .root t (.returned ht)⟩

end SvelteTypings.Generation
