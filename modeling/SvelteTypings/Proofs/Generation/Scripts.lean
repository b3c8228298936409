import SvelteTypings.Generation.Scripts
import SvelteTypings.Proofs.Compiler.Emission
import SvelteTypings.Proofs.FileSystem.Memory
import SvelteTypings.Proofs.Generation.Listing

/-!
# Which declarations a script gets

Declarations are kept by the path that the compiler writes them to, and handed to the scripts in the
order in which these are listed. Scripts that differ in the suffix of their language only have one
such path. What is kept there are the declarations of the last of them in path order, and the first
that is listed gets them (`output_of_generateScripts`). So a script that shares its path with no
other gets its own declarations, and one of two that share it does not.
-/

namespace SvelteTypings.Generation

open SvelteTypings.Path (IsRooted)
open Emission (declarationPath shouldEmit sourceSuffixes Decides Kept)

variable {c : Config} {m : MemoryFiles} {cwd p script : Path} {before after scripts : List Path}
  {writes : PathMap String} {found : PathMap ScriptDeclaration}

/-! ## Listed scripts -/

/-- The list may be handed over: different scripts under the source root, written normalised. -/
structure Config.ListsScripts (c : Config) (scripts : List Path) : Prop where
  absolute : ∀ p ∈ scripts, p.isAbsolute
  normalised : ∀ p ∈ scripts, p.normalize = p
  ending : ∀ p ∈ scripts, ∃ s ∈ sourceSuffixes, p.hasSuffix s
  below : ∀ p ∈ scripts, c.isUnderSource p
  distinct : scripts.Nodup

theorem Config.ListsScripts.isScript (h : c.ListsScripts scripts) (hp : p ∈ scripts) :
    IsScript p :=
  ⟨Path.isRooted_of_normalize_eq (h.absolute p hp) (h.normalised p hp), h.ending p hp⟩

/-- A script has a destination, unless it is the source root itself. -/
theorem Config.ListsScripts.exists_destination? (h : c.ListsScripts scripts) (hp : p ∈ scripts)
    (hne : p ≠ c.sourceRoot) : ∃ destination, c.destination? (scriptStem p) = some destination := by
  obtain ⟨s, hs, heq⟩ := Emission.exists_stem (h.ending p hp)
  have hrooted : IsRooted ((scriptStem p).appendSuffix s) := heq ▸ (h.isScript hp).rooted
  have hbelow : ((scriptStem p).appendSuffix s).startsWith c.sourceRoot := heq ▸ h.below p hp
  cases hdestination : c.destination? (scriptStem p) with
  | some destination => exact ⟨destination, rfl⟩
  | none =>
    rcases Path.startsWith_of_appendSuffix (isSuffix_of_mem_sourceSuffixes hs) hrooted hbelow with
      hstem | hsame
    · exact absurd hstem (destination?_eq_none_iff.1 hdestination)
    · have hroot := hrooted.canonical.eq_of_same (Path.isCanonical_normalize c.source) hsame
      exact absurd (heq.trans hroot) hne

/-! ## Handing out -/

theorem get?_assign_of_not_mem (h : ∀ p ∈ scripts, ¬ p.same script) :
    (assign c scripts writes found).get? script = found.get? script := by
  induction scripts generalizing writes found with
  | nil => rfl
  | cons p scripts ih =>
    obtain ⟨hp, hscripts⟩ := List.forall_mem_cons.1 h
    rw [assign]
    cases c.destination? (scriptStem p) with
    | none => exact ih hscripts
    | some destination =>
      refine (ih hscripts).trans ?_
      rw [PathMap.get?_insert, if_neg hp]

/-- Handing out the declarations of a script takes those of the scripts that share its path. -/
theorem get?_erase_declarationPath (hp : IsScript p) (hscript : IsScript script)
    (writes : PathMap String) :
    (writes.erase (declarationPath p)).get? (declarationPath script) =
      if declarationPath script = declarationPath p then none
      else writes.get? (declarationPath script) := by
  have hpath : (declarationPath p).same (declarationPath script) ↔
      declarationPath script = declarationPath p := by
    refine ⟨fun h => ?_, fun h => h ▸ Path.same_refl _⟩
    exact ((Emission.isRooted_declarationPath hp).eq_of_same
      (Emission.isRooted_declarationPath hscript) h).symm
  rw [PathMap.get?_erase]
  simp only [hpath]

/-- A script gets what was written to its path, unless another one has got it before. -/
theorem get?_assign (hscripts : ∀ p ∈ before ++ script :: after, IsScript p)
    (hdistinct : (before ++ script :: after).Nodup) (hfound : found.get? script = none) :
    (assign c (before ++ script :: after) writes found).get? script =
      (c.destination? (scriptStem script)).map fun destination =>
        ⟨destination, if declarationPath script ∈ before.map declarationPath then none
          else writes.get? (declarationPath script)⟩ := by
  have hscript := hscripts script (by simp)
  have hsame : ∀ p, IsScript p → p ≠ script → ¬ p.same script := fun p hp hne hsame =>
    hne (hp.rooted.eq_of_same hscript.rooted hsame)
  -- The scripts before this one are passed over one by one; each may take a file that was written.
  induction before generalizing writes found with
  | nil =>
    have hafter : ∀ p ∈ after, ¬ p.same script := by
      intro p hp
      refine hsame p (hscripts p (List.mem_cons_of_mem _ hp)) ?_
      rintro rfl
      exact (List.nodup_cons.1 hdistinct).1 hp
    rw [List.nil_append, assign]
    cases hdestination : c.destination? (scriptStem script) with
    | none => exact (get?_assign_of_not_mem hafter).trans hfound
    | some destination =>
      refine (get?_assign_of_not_mem hafter).trans ?_
      rw [PathMap.get?_insert, if_pos (Path.same_refl script)]
      rfl
  | cons p before ih =>
    obtain ⟨hp, hscripts⟩ := List.forall_mem_cons.1 hscripts
    obtain ⟨hnot, hdistinct⟩ := List.nodup_cons.1 hdistinct
    have hne : p ≠ script := fun heq => hnot (heq ▸ by simp)
    rw [List.cons_append, assign, List.map_cons]
    cases hdestination : c.destination? (scriptStem p) with
    | none =>
      refine (ih hscripts hdistinct hfound).trans ?_
      by_cases heq : declarationPath script = declarationPath p
      · -- they have one stem, so neither has a destination
        have hstem : scriptStem script = scriptStem p := Path.appendSuffix_injective heq
        rw [hstem, hdestination]
        rfl
      · simp only [List.mem_cons, heq, false_or]
    | some destination =>
      have hfound' : (found.insert p ⟨destination, writes.get? (declarationPath p)⟩).get? script =
          none := by
        rw [PathMap.get?_insert, if_neg (hsame p hp hne)]
        exact hfound
      refine (ih hscripts hdistinct hfound').trans ?_
      congr 1
      funext destination
      refine congrArg (ScriptDeclaration.mk destination) ?_
      show ite _ none ((writes.erase (declarationPath p)).get? (declarationPath script)) = _
      rw [get?_erase_declarationPath hp hscript]
      by_cases heq : declarationPath script = declarationPath p
      · rw [if_pos heq, if_pos (List.mem_cons.2 (Or.inl heq)), ite_self]
      · simp only [List.mem_cons, heq, false_or, if_false]

/-! ## Runs -/

/-- Scripts that are all under the source root are compiled as they are listed. -/
theorem exists_assign_of_generateScripts (hlists : c.ListsScripts scripts) (hne : scripts ≠ [])
    (h : (generateScripts c scripts Emission.compile m.fileSystem cwd).result = .ok found) :
    ∃ output writes, found = assign c scripts writes .empty ∧
      Session.Returns (Host.capturing m.fileSystem cwd)
        (Emission.compile scripts c.options.declarationOnly) .empty output writes := by
  have hall : scripts.filter c.isUnderSource = scripts := List.filter_eq_self.2 hlists.below
  have hempty : ¬ scripts.isEmpty := by simpa using hne
  rw [generateScripts, hall, if_neg hempty] at h
  dsimp only at h
  split at h
  · exact absurd h (by simp)
  · next output hresult => exact ⟨output, _, (Except.ok.inj h).symm, hresult, rfl⟩

/-- **What a script gets are the declarations of the last file in path order** among those that its
declaration file can be made from, if no script that is listed before it has got them. So a script
whose declaration file can be made from it alone gets its own declarations. -/
theorem output_of_generateScripts (c : Config) (m : MemoryFiles) (cwd script : Path)
    (before after : List Path) {found : PathMap ScriptDeclaration}
    (hlists : c.ListsScripts (before ++ script :: after))
    (h : (generateScripts c (before ++ script :: after) Emission.compile m.fileSystem cwd).result =
      .ok found) :
    (∃ output, found.get? script = (c.destination? (scriptStem script)).map (⟨·, output⟩) ∧
      ∀ text, output = some text ↔ (∀ p ∈ before, declarationPath p ≠ declarationPath script) ∧
        Kept m.fileSystem c.options.declarationOnly (before ++ script :: after)
          (declarationPath script) text) ∧
      (script ≠ c.sourceRoot → m.fileSystem.isFile script →
        shouldEmit c.options.declarationOnly script →
          (∀ p ∈ before, declarationPath p ≠ declarationPath script) →
            (∀ file, m.fileSystem.Leads (before ++ script :: after) file →
              shouldEmit c.options.declarationOnly file →
                declarationPath file = declarationPath script → file = script) →
              ∃ destination source, m.fileSystem.textOf? script = .ok (some source) ∧
                found.get? script = some ⟨destination,
                  some (Script.declarations c.options.declarationOnly source)⟩) := by
  obtain ⟨output, writes, rfl, hreturns⟩ := exists_assign_of_generateScripts hlists (by simp) h
  have hscripts := fun p hp => hlists.isScript (p := p) hp
  have hmem : script ∈ before ++ script :: after := by simp
  have hrooted := Emission.isRooted_declarationPath (hscripts script hmem)
  have hgets : (assign c (before ++ script :: after) writes .empty).get? script = _ :=
    get?_assign hscripts hlists.distinct rfl
  have houtput : ∀ text, (if declarationPath script ∈ before.map declarationPath then none
      else writes.get? (declarationPath script)) = some text ↔
        (∀ p ∈ before, declarationPath p ≠ declarationPath script) ∧
          Kept m.fileSystem c.options.declarationOnly (before ++ script :: after)
            (declarationPath script) text := by
    intro text
    have hfirst : (∀ p ∈ before, declarationPath p ≠ declarationPath script) ↔
        declarationPath script ∉ before.map declarationPath := by simp
    rw [hfirst, ← Emission.get?_of_compile hscripts hrooted hreturns]
    split
    · next htaken => simp [htaken]
    · next hfree => simp [hfree]
  refine ⟨⟨_, hgets, houtput⟩, ?_⟩
  intro hne hfile hemits hfirst halone
  obtain ⟨destination, hdestination⟩ := hlists.exists_destination? hmem hne
  obtain ⟨source, hsource⟩ := MemoryFiles.exists_textOf?_of_isFile hfile
  -- no other file decides what is at the path of the script, so the script does
  have hdecides : Decides m.fileSystem c.options.declarationOnly (before ++ script :: after)
      (declarationPath script) script :=
    ⟨.root hmem hfile, hemits, rfl, fun other hother hemits' hgoes =>
      Or.inl (halone other hother hemits' hgoes)⟩
  have hown := (houtput _).2 ⟨hfirst, script, source, hdecides, hsource, rfl⟩
  refine ⟨destination, source, hsource, ?_⟩
  rw [hgets, hdestination, Option.map_some, hown]

/-- Two scripts, of which the first imports the other. -/
def importingScripts : MemoryFiles :=
  .ofList [(.ofString "/s/a.ts", "import { b } from './b';\nexport const a: number = b;\n"),
    (.ofString "/s/b.ts", "export const b: number = 1;\n")]

def scriptConfig : Config := { source := .ofString "/s", output := .ofString "/o" }

/-- The script that is imported, and listed behind the one that imports it, gets its own
declarations. -/
theorem output_of_generateScripts_importing :
    ∃ found source, (generateScripts scriptConfig [.ofString "/s/a.ts", .ofString "/s/b.ts"]
        Emission.compile importingScripts.fileSystem .root).result = .ok found ∧
      importingScripts.fileSystem.textOf? (.ofString "/s/b.ts") = .ok (some source) ∧
        (found.get? (.ofString "/s/b.ts")).map ScriptDeclaration.output =
          some (some (Script.declarations scriptConfig.options.declarationOnly source)) := by
  have hlists : scriptConfig.ListsScripts [.ofString "/s/a.ts", .ofString "/s/b.ts"] :=
    ⟨by decide, by decide, by decide, by decide, by decide⟩
  obtain ⟨found, hfound⟩ := Option.isSome_iff_exists.1
    (show (generateScripts scriptConfig [.ofString "/s/a.ts", .ofString "/s/b.ts"] Emission.compile
      importingScripts.fileSystem .root).result.toOption.isSome by decide +kernel)
  have hresult := eq_ok_of_toOption hfound
  -- whatever is led to is one of the two files
  have hfiles : ∀ file, importingScripts.fileSystem.Leads [.ofString "/s/a.ts", .ofString "/s/b.ts"]
      file → file ∈ importingScripts.files.keys := by
    intro file hleads
    have hscript := hleads.isScript fun p hp => hlists.isScript hp
    obtain ⟨k, hk, hsame⟩ := MemoryFiles.exists_key_of_isFile hleads.isFile
    have hkeys : ∀ k ∈ importingScripts.files.keys, k.isAbsolute ∧ k.normalize = k := by
      decide
    have hrooted : IsRooted k := Path.isRooted_of_normalize_eq (hkeys k hk).1 (hkeys k hk).2
    exact hrooted.eq_of_same hscript.rooted hsame ▸ hk
  have halone : ∀ file ∈ importingScripts.files.keys,
      declarationPath file = declarationPath (.ofString "/s/b.ts") → file = .ofString "/s/b.ts" := by
    decide
  obtain ⟨destination, source, hsource, hget⟩ :=
    (output_of_generateScripts scriptConfig importingScripts .root (.ofString "/s/b.ts")
      [.ofString "/s/a.ts"] [] hlists hresult).2 (by decide) (by decide) (by decide)
      (by decide) fun file hleads _ hgoes => halone file (hfiles file hleads) hgoes
  exact ⟨found, source, hresult, hsource, by rw [hget]; rfl⟩

/-- Two scripts that have one declaration file. -/
def twinScripts : MemoryFiles :=
  .ofList [(.ofString "/s/a.ts", "export const a: number = 1;\n"),
    (.ofString "/s/a.tsx", "export const b: string = \"\";\n")]

/-- Of two scripts that have one declaration file the first that is listed gets the declarations of
the other one, which gets none. -/
theorem exists_generateScripts_twins :
    scriptConfig.ListsScripts [.ofString "/s/a.ts", .ofString "/s/a.tsx"] ∧
      (∀ p ∈ [Path.ofString "/s/a.ts", .ofString "/s/a.tsx"], twinScripts.fileSystem.isFile p ∧
        shouldEmit scriptConfig.options.declarationOnly p) ∧
      twinScripts.fileSystem.textOf? (.ofString "/s/a.ts") =
        .ok (some "export const a: number = 1;\n") ∧
      Script.declarations scriptConfig.options.declarationOnly "export const a: number = 1;\n" =
        "export declare const a: number;\n" ∧
      ∃ found, (generateScripts scriptConfig [.ofString "/s/a.ts", .ofString "/s/a.tsx"]
          Emission.compile twinScripts.fileSystem .root).result = .ok found ∧
        found.get? (.ofString "/s/a.ts") =
          some ⟨.ofString "/o/a.d.ts", some "export declare const b: string;\n"⟩ ∧
        found.get? (.ofString "/s/a.tsx") = some ⟨.ofString "/o/a.d.ts", none⟩ := by
  have hentries : (generateScripts scriptConfig [.ofString "/s/a.ts", .ofString "/s/a.tsx"]
      Emission.compile twinScripts.fileSystem .root).result.toOption.map (fun found =>
        (found.get? (.ofString "/s/a.ts"), found.get? (.ofString "/s/a.tsx"))) =
      some (some ⟨.ofString "/o/a.d.ts", some "export declare const b: string;\n"⟩,
        some ⟨.ofString "/o/a.d.ts", none⟩) := by decide +kernel
  obtain ⟨found, hfound, hgets⟩ := Option.map_eq_some_iff.1 hentries
  exact ⟨⟨by decide, by decide, by decide, by decide, by decide⟩, by decide, rfl,
    by decide +kernel, found, eq_ok_of_toOption hfound, congrArg Prod.fst hgets,
    congrArg Prod.snd hgets⟩

end SvelteTypings.Generation
