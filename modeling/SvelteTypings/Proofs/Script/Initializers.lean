import Mathlib.Data.List.Basic
import SvelteTypings.Proofs.Script.Bodies

/-!
# Types from initializers

What an initializer shows needs no bound on how deep functions are looked into (`infer_eq`).
-/

namespace SvelteTypings.Script

variable {t : Token} {ts us params after : List Token} {o : CompilerOptions} {k : Kind} {d : Nat}
  {f g : List Token → Inferred}

/-! ## Parts are shorter -/

theorem Search.length_cut? {σ : Type} {S : Search σ} {s : σ} {parts : List Token × List Token}
    (hfound : ∀ s t kept, S.found s t = some kept → kept.length ≤ 1)
    (h : S.cut? s ts = some parts) :
    parts.1.length + parts.2.length ≤ ts.length ∧ parts.2.length < ts.length := by
  induction ts generalizing s parts with
  | nil => exact absurd h (by simp [cut?])
  | cons t ts ih =>
    rw [cut?] at h
    cases hstep : S.step s t with
    | some s₁ =>
      rw [hstep] at h
      obtain ⟨parts, hparts, rfl⟩ := Option.map_eq_some_iff.1 h
      have hlater := ih hparts
      simp only [consBefore, List.length_cons]
      omega
    | none =>
      rw [hstep] at h
      obtain ⟨kept, hkept, rfl⟩ := Option.map_eq_some_iff.1 h
      have hlength := hfound s t kept hkept
      simp only [List.length_cons]
      omega

theorem length_of_cutTop? {before : List Token} (h : cutTop? k d ts = some (before, after)) :
    after.length < ts.length := by
  rw [cutTop?_eq] at h
  exact (Search.length_cut? (by simp [topSearch]) h).2

theorem length_of_mem_splitTop (h : us ∈ splitTop k d ts) : us.length ≤ ts.length := by
  induction ts generalizing d us with
  | nil =>
    obtain rfl : us = [] := by simpa [splitTop] using h
    exact Nat.le_refl _
  | cons t ts ih =>
    rw [splitTop] at h
    split at h
    · rcases List.mem_cons.1 h with rfl | h
      · exact Nat.zero_le _
      · exact Nat.le_succ_of_le (ih h)
    · generalize hruns : splitTop k (depthAfter d t.kind) ts = runs at h
      have hlater : ∀ vs ∈ runs, vs.length ≤ ts.length := fun vs hvs => ih (hruns ▸ hvs)
      cases runs with
      | nil =>
        obtain rfl : us = [t] := by simpa [consRun] using h
        simp
      | cons run runs =>
        obtain ⟨hrun, hruns⟩ := List.forall_mem_cons.1 hlater
        rcases List.mem_cons.1 h with rfl | h
        · exact Nat.succ_le_succ hrun
        · exact Nat.le_succ_of_le (hruns us h)

theorem length_dropParamModifiers (ts : List Token) :
    (dropParamModifiers ts).length ≤ ts.length := by
  fun_induction dropParamModifiers ts with
  | case1 t u ts _ ih => exact Nat.le_succ_of_le ih
  | case2 => exact Nat.le_refl _
  | case3 => exact Nat.le_refl _

theorem length_of_typeParams? {text : String} (h : typeParams? ts = some (text, after)) :
    after.length ≤ ts.length := by
  cases ts with
  | nil => exact absurd h (by simp [typeParams?])
  | cons t ts =>
    rw [typeParams?] at h
    split at h
    · obtain ⟨⟨inside, rest⟩, hcut, h⟩ := Option.bind_eq_some_iff.1 h
      obtain ⟨_, -, h⟩ := Option.bind_eq_some_iff.1 h
      obtain ⟨-, rfl⟩ := Prod.mk.inj (Option.some.inj h)
      rw [cutAngle?_eq] at hcut
      exact Nat.le_succ_of_le (Nat.le_of_lt (Search.length_cut? (by simp [angleSearch]) hcut).2)
    · obtain ⟨-, rfl⟩ := Prod.mk.inj (Option.some.inj h)
      exact Nat.le_refl _

theorem length_of_parenthesized? (h : parenthesized? ts = some (params, after)) :
    params.length < ts.length := by
  cases ts with
  | nil => exact absurd h (by simp [parenthesized?])
  | cons t ts =>
    rw [parenthesized?] at h
    split at h
    · rw [cutClosing?_eq] at h
      exact Nat.lt_succ_of_le
        (Nat.le_trans (Nat.le_add_right _ _) (Search.length_cut? (by simp [closingSearch]) h).1)
    · exact absurd h (by simp)

/-! ## No bound -/

/-- Initializers of parameters are shorter than the parameters. -/
theorem paramsWith_congr (h : ∀ us : List Token, us.length < ts.length → f us = g us) :
    paramsWith f ts = paramsWith g ts := by
  rw [paramsWith, paramsWith]
  refine congrArg _ (List.filterMap_congr fun param hparam => ?_)
  dsimp only
  cases hcut : cutTop? .equals 0 (dropParamModifiers param) with
  | none => rfl
  | some parts =>
    have hinit : parts.2.length < ts.length := by
      have hcut' := length_of_cutTop? hcut
      have hdrop := length_dropParamModifiers param
      have hmem := length_of_mem_splitTop hparam
      omega
    dsimp only
    rw [h parts.2 hinit]

/-- Parameters are shorter than the function. -/
theorem arrowWith?_congr (h : ∀ us : List Token, us.length < ts.length → f us = g us) :
    arrowWith? f o ts = arrowWith? g o ts := by
  rw [arrowWith?, arrowWith?]
  dsimp only
  refine Option.bind_congr fun ⟨generics, rest⟩ hgenerics => ?_
  refine Option.bind_congr fun ⟨params, after⟩ hparams => ?_
  have hlength : params.length ≤ ts.length := by
    have hrest : rest.length ≤ ts.length :=
      Nat.le_trans (length_of_typeParams? hgenerics) (by split <;> simp)
    exact Nat.le_trans (Nat.le_of_lt (length_of_parenthesized? hparams)) hrest
  rw [paramsWith_congr fun us hus => h us (Nat.lt_of_lt_of_le hus hlength)]

/-- What is left of a run without a `;` at its end is no longer. -/
theorem length_dropSemicolon (ts : List Token) : (dropSemicolon ts).length ≤ ts.length := by
  rw [dropSemicolon]
  split
  · exact (List.dropLast_sublist ts).length_le
  · exact Nat.le_refl _

theorem inferWithin_congr {n m : Nat} (hn : ts.length < n) (hm : ts.length < m)
    (constant : Bool) : inferWithin o n constant ts = inferWithin o m constant ts := by
  induction n generalizing m constant ts with
  | zero => exact absurd hn (Nat.not_lt_zero _)
  | succ n ih =>
    cases m with
    | zero => exact absurd hm (Nat.not_lt_zero _)
    | succ m =>
      have hlength := length_dropSemicolon ts
      have harrow : arrowWith? (inferWithin o n false) o (dropSemicolon ts) =
          arrowWith? (inferWithin o m false) o (dropSemicolon ts) :=
        arrowWith?_congr fun us hus => ih (by omega) (by omega) false
      rw [inferWithin, inferWithin, harrow]

/-- **What an initializer shows,** without a bound. -/
theorem infer_eq (o : CompilerOptions) (constant : Bool) (ts : List Token) :
    infer o constant ts =
      ((shallowType? constant (dropSemicolon ts)).or
        ((arrowWith? (infer o false) o (dropSemicolon ts)).map .type)).getD
          (.type (fallbackType o)) := by
  have harrow : arrowWith? (inferWithin o ts.length false) o (dropSemicolon ts) =
      arrowWith? (infer o false) o (dropSemicolon ts) :=
    arrowWith?_congr fun us hus =>
      inferWithin_congr (Nat.lt_of_lt_of_le hus (length_dropSemicolon ts)) (Nat.lt_succ_self _) false
  rw [infer, inferWithin, harrow]
  cases shallowType? constant (dropSemicolon ts) with
  | some found => rfl
  | none => cases arrowWith? (infer o false) o (dropSemicolon ts) <;> rfl

end SvelteTypings.Script
