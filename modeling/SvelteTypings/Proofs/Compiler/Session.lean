import SvelteTypings.Compiler.Session

/-!
# How sessions end, and what hosts keep

`Returns` says of a session that it ends well, and with which result and state; `Fails` says that it
fails, and how. Both take a sequence of sessions apart (`returns_bind_iff`, `fails_bind_iff`), so
what a compiler does is read off step by step. A property of the state that no single call breaks
holds when the session ends, however it ends (`keeps_run`).
-/

namespace SvelteTypings

theorem eq_ok_of_toOption {ε α : Type} {r : Except ε α} {a : α} (h : r.toOption = some a) :
    r = .ok a := by
  cases r with
  | error e => exact absurd h (by simp [Except.toOption])
  | ok b => exact congrArg Except.ok (Option.some.inj h)

namespace Session

variable {σ α β : Type} {host : Host σ}

/-! ## Success -/

/-- The session ends well, with a result and a state. -/
def Returns (host : Host σ) (x : Session α) (s : σ) (a : α) (t : σ) : Prop :=
  (x.run host s).result = .ok a ∧ (x.run host s).state = t

/-- A sequence ends as its second part does when the first has ended well, and else as the first. -/
theorem run_bind (host : Host σ) (x : Session α) (k : α → Session β) (s : σ) :
    (x >>= k).run host s =
      match (x.run host s).result with
      | .ok a =>
        let e := (k a).run host (x.run host s).state
        ⟨e.result, e.state, (x.run host s).log ++ e.log⟩
      | .error e => ⟨.error e, (x.run host s).state, (x.run host s).log⟩ := by
  show (x.bind k).run host s = _
  induction x generalizing s with
  | done r => cases r <;> rfl
  | fileExists p next ih => exact ih (host.fileExists s p).1 (host.fileExists s p).2
  | textOf p next ih => exact ih (host.textOf s p) s
  | save p text next ih => exact ih (host.save s p text).1 (host.save s p text).2
  | directoryExists p next ih => exact ih (host.directoryExists s p) s
  | currentDirectory next ih => exact ih host.currentDirectory s
  | capacity next ih => exact ih (host.capacity s) s
  | note m next ih =>
    rw [bind, run, run, ih]
    cases (next.run host s).result <;> rfl

/-- Of three sessions in a row it does not matter which two are taken together. -/
theorem bind_bind {γ : Type} (x : Session α) (k : α → Session β) (l : β → Session γ) :
    x >>= k >>= l = x >>= fun a => k a >>= l := by
  show (x.bind k).bind l = x.bind fun a => (k a).bind l
  induction x with
  | done r => cases r <;> rfl
  | fileExists p next ih => exact congrArg (Session.fileExists p) (funext ih)
  | textOf p next ih => exact congrArg (Session.textOf p) (funext ih)
  | save p text next ih => exact congrArg (Session.save p text) (funext ih)
  | directoryExists p next ih => exact congrArg (Session.directoryExists p) (funext ih)
  | currentDirectory next ih => exact congrArg Session.currentDirectory (funext ih)
  | capacity next ih => exact congrArg Session.capacity (funext ih)
  | note m next ih => exact congrArg (Session.note m) ih

theorem returns_bind_iff {x : Session α} {k : α → Session β} {s u : σ} {b : β} :
    Returns host (x >>= k) s b u ↔ ∃ a t, Returns host x s a t ∧ Returns host (k a) t b u := by
  rw [Returns, run_bind]
  cases hx : (x.run host s).result with
  | error e =>
    refine ⟨?_, ?_⟩
    · rintro ⟨h, -⟩
      exact absurd h (by simp)
    · rintro ⟨a, t, ⟨h, -⟩, -⟩
      rw [hx] at h
      exact absurd h (by simp)
  | ok a =>
    refine ⟨?_, ?_⟩
    · intro h
      exact ⟨a, _, ⟨hx, rfl⟩, h⟩
    · rintro ⟨a', t, ⟨h, rfl⟩, hk⟩
      rw [hx, Except.ok.injEq] at h
      rw [h]
      exact hk

theorem returns_pure_iff {a b : α} {s t : σ} :
    Returns host (pure a : Session α) s b t ↔ a = b ∧ s = t := by
  show (Except.ok a = Except.ok b ∧ s = t) ↔ _
  rw [Except.ok.injEq]

theorem Returns.bind {x : Session α} {k : α → Session β} {s t u : σ} {a : α} {b : β}
    (hx : Returns host x s a t) (hk : Returns host (k a) t b u) : Returns host (x >>= k) s b u :=
  returns_bind_iff.2 ⟨a, t, hx, hk⟩

theorem returns_pure (a : α) (s : σ) : Returns host (pure a : Session α) s a s := ⟨rfl, rfl⟩

/-- A session ends in one way only. -/
theorem Returns.unique {x : Session α} {s t t' : σ} {a a' : α} (h : Returns host x s a t)
    (h' : Returns host x s a' t') : a = a' ∧ t = t' :=
  ⟨Except.ok.inj (h.1.symm.trans h'.1), h.2.symm.trans h'.2⟩

theorem not_returns_fail {e : Failure} {a : α} {s t : σ} :
    ¬ Returns host (fail e : Session α) s a t := by
  rintro ⟨h, -⟩
  exact absurd h (by simp [fail, run])

theorem returns_exists?_iff {p : Path} {b : Bool} {s t : σ} :
    Returns host (exists? p) s b t ↔ host.fileExists s p = (.ok b, t) := by
  show ((host.fileExists s p).1 = .ok b ∧ (host.fileExists s p).2 = t) ↔ _
  rw [Prod.ext_iff]

theorem returns_read?_iff {p : Path} {text : Option String} {s t : σ} :
    Returns host (read? p) s text t ↔ host.textOf s p = .ok text ∧ s = t :=
  Iff.rfl

theorem returns_write_iff {p : Path} {text : String} {u : Unit} {s t : σ} :
    Returns host (write p text) s u t ↔ host.save s p text = (.ok u, t) := by
  show ((host.save s p text).1 = .ok u ∧ (host.save s p text).2 = t) ↔ _
  rw [Prod.ext_iff]

theorem returns_isDirectory_iff {p : Path} {b : Bool} {s t : σ} :
    Returns host (isDirectory p) s b t ↔ host.directoryExists s p = b ∧ s = t := by
  show (Except.ok _ = Except.ok b ∧ s = t) ↔ _
  rw [Except.ok.injEq]

theorem returns_directory_iff {p : Path} {s t : σ} :
    Returns host directory s p t ↔ host.currentDirectory = p ∧ s = t := by
  show (Except.ok _ = Except.ok p ∧ s = t) ↔ _
  rw [Except.ok.injEq]

theorem returns_bound_iff {n : Nat} {s t : σ} :
    Returns host bound s n t ↔ host.capacity s = n ∧ s = t := by
  show (Except.ok _ = Except.ok n ∧ s = t) ↔ _
  rw [Except.ok.injEq]

theorem returns_report_iff {m : String} {u : Unit} {s t : σ} :
    Returns host (report m) s u t ↔ s = t := by
  show (Except.ok _ = Except.ok u ∧ s = t) ↔ _
  simp

/-! ## Failure -/

/-- The session fails. -/
def Fails (host : Host σ) (x : Session α) (s : σ) (e : Failure) : Prop :=
  (x.run host s).result = .error e

theorem Returns.not_fails {x : Session α} {s t : σ} {a : α} {e : Failure}
    (h : Returns host x s a t) : ¬ Fails host x s e := by
  intro hfails
  rw [Fails, h.1] at hfails
  exact absurd hfails (by simp)

/-- A session ends well or fails. -/
theorem returns_or_fails (host : Host σ) (x : Session α) (s : σ) :
    (∃ a t, Returns host x s a t) ∨ ∃ e, Fails host x s e := by
  cases h : (x.run host s).result with
  | ok a => exact Or.inl ⟨a, _, h, rfl⟩
  | error e => exact Or.inr ⟨e, h⟩

/-- A sequence fails in its first part, or in the second after the first has ended well. -/
theorem fails_bind_iff {x : Session α} {k : α → Session β} {s : σ} {e : Failure} :
    Fails host (x >>= k) s e ↔
      Fails host x s e ∨ ∃ a t, Returns host x s a t ∧ Fails host (k a) t e := by
  rw [Fails, run_bind]
  cases hx : (x.run host s).result with
  | error e' =>
    show Except.error e' = Except.error e ↔ _
    rw [Fails, hx, Except.error.injEq, Except.error.injEq]
    refine ⟨Or.inl, ?_⟩
    rintro (h | ⟨a, t, ⟨h, -⟩, -⟩)
    · exact h
    · rw [hx] at h
      exact absurd h (by simp)
  | ok a =>
    refine ⟨fun h => Or.inr ⟨a, _, ⟨hx, rfl⟩, h⟩, ?_⟩
    rintro (h | ⟨a', t, ⟨h, rfl⟩, hk⟩)
    · rw [Fails, hx] at h
      exact absurd h (by simp)
    · rw [hx, Except.ok.injEq] at h
      rw [h]
      exact hk

theorem not_fails_pure {a : α} {s : σ} {e : Failure} : ¬ Fails host (pure a : Session α) s e :=
  (returns_pure a s).not_fails

theorem not_fails_isDirectory {p : Path} {s : σ} {e : Failure} :
    ¬ Fails host (isDirectory p) s e :=
  (returns_isDirectory_iff.2 ⟨rfl, rfl⟩).not_fails

theorem not_fails_directory {s : σ} {e : Failure} : ¬ Fails host directory s e :=
  (returns_directory_iff.2 ⟨rfl, rfl⟩).not_fails

theorem not_fails_bound {s : σ} {e : Failure} : ¬ Fails host bound s e :=
  (returns_bound_iff.2 ⟨rfl, rfl⟩).not_fails

theorem not_fails_report {m : String} {s : σ} {e : Failure} : ¬ Fails host (report m) s e :=
  (returns_report_iff (u := ()).2 rfl).not_fails

theorem fails_exists?_iff {p : Path} {s : σ} {e : Failure} :
    Fails host (exists? p) s e ↔ (host.fileExists s p).1 = .error e :=
  Iff.rfl

end Session

/-! ## What a host keeps -/

/-- No call breaks a property of the state. Only two kinds of call can change the state at all. -/
structure Host.Keeps {σ : Type} (host : Host σ) (P : σ → Prop) : Prop where
  fileExists : ∀ s p, P s → P (host.fileExists s p).2
  save : ∀ s p text, P s → P (host.save s p text).2

/-- What every call keeps a whole session keeps, also one that fails. -/
theorem Session.keeps_run {σ α : Type} {host : Host σ} {P : σ → Prop} (h : host.Keeps P)
    (x : Session α) (s : σ) (hs : P s) : P (x.run host s).state := by
  induction x generalizing s with
  | done r => exact hs
  | fileExists p next ih => exact ih _ _ (h.fileExists s p hs)
  | textOf p next ih => exact ih _ _ hs
  | save p text next ih => exact ih _ _ (h.save s p text hs)
  | directoryExists p next ih => exact ih _ _ hs
  | currentDirectory next ih => exact ih _ _ hs
  | capacity next ih => exact ih _ _ hs
  | note m next ih => exact ih _ hs

end SvelteTypings
