import SvelteTypings.Proofs.Compiler.Session

/-!
# The states a session goes through

Of the calls of a session only questions for files and writes can change the state. The *moments* of
a session are these calls in order, each with the state before and after it, so a statement about
all moments is a statement about every state in between, also when the session fails later.
-/

namespace SvelteTypings

/-! ## Moments -/

/-- One change of a state. -/
structure Moment (ε σ : Type) where
  before : σ
  event : ε
  after : σ

/-- The same change, with another account of what it comes from. -/
def Moment.relabel {ε ε' σ : Type} (f : ε → ε') (m : Moment ε σ) : Moment ε' σ :=
  ⟨m.before, f m.event, m.after⟩

/-- The moments lead from one state to another, each going on from what the one before has left. -/
def Linked {ε σ : Type} : σ → List (Moment ε σ) → σ → Prop
  | s, [], t => s = t
  | s, m :: ms, t => m.before = s ∧ Linked m.after ms t

section Linked

variable {ε ε' σ : Type} {s t u : σ} {ms ms' : List (Moment ε σ)}

theorem Linked.append (h : Linked s ms t) (h' : Linked t ms' u) : Linked s (ms ++ ms') u := by
  induction ms generalizing s with
  | nil =>
    cases h
    exact h'
  | cons m ms ih => exact ⟨h.1, ih h.2⟩

theorem Linked.relabel (f : ε → ε') (h : Linked s ms t) : Linked s (ms.map (·.relabel f)) t := by
  induction ms generalizing s with
  | nil => exact h
  | cons m ms ih => exact ⟨h.1, ih h.2⟩

/-- What no moment breaks holds before and after each of them, and at the end. -/
theorem Linked.invariant {P : σ → Prop} (h : Linked s ms t) (hs : P s)
    (hstep : ∀ m ∈ ms, P m.before → P m.after) :
    (∀ m ∈ ms, P m.before ∧ P m.after) ∧ P t := by
  induction ms generalizing s with
  | nil =>
    cases h
    exact ⟨fun m hm => absurd hm List.not_mem_nil, hs⟩
  | cons m ms ih =>
    obtain ⟨rfl, hrest⟩ := h
    have hafter : P m.after := hstep m List.mem_cons_self hs
    obtain ⟨hall, hlast⟩ := ih hrest hafter fun n hn => hstep n (List.mem_cons_of_mem m hn)
    refine ⟨?_, hlast⟩
    intro n hn
    rcases List.mem_cons.1 hn with rfl | hn
    · exact ⟨hs, hafter⟩
    · exact hall n hn

/-- What holds after some moment and is not broken by the later ones holds at the end. -/
theorem Linked.from_moment {P : σ → Prop} (h : Linked s ms t)
    (hstep : ∀ m ∈ ms, P m.before → P m.after) : ∀ m ∈ ms, P m.after → P t := by
  induction ms generalizing s with
  | nil => exact fun m hm => absurd hm List.not_mem_nil
  | cons m ms ih =>
    have hrest : ∀ n ∈ ms, P n.before → P n.after := fun n hn => hstep n (List.mem_cons_of_mem m hn)
    intro n hn hafter
    rcases List.mem_cons.1 hn with rfl | hn
    · exact (h.2.invariant hafter hrest).2
    · exact ih h.2 hrest n hn hafter

end Linked

/-! ## Calls -/

/-- A call that can change the state of a host. -/
inductive Call where
  | fileExists (p : Path)
  | save (p : Path) (text : String)
deriving DecidableEq

/-- What is written by a call, and where. -/
def Call.saved? : Call → Option (Path × String)
  | .fileExists _ => none
  | .save p text => some (p, text)

/-- The state that a call leaves. -/
def Host.after {σ : Type} (host : Host σ) (s : σ) : Call → σ
  | .fileExists p => (host.fileExists s p).2
  | .save p text => (host.save s p text).2

namespace Session

variable {σ α β : Type} {host : Host σ}

/-- The moments of a session, in order. -/
def moments (host : Host σ) : Session α → σ → List (Moment Call σ)
  | .done _, _ => []
  | .fileExists p next, s =>
    let (answer, t) := host.fileExists s p
    ⟨s, .fileExists p, t⟩ :: (next answer).moments host t
  | .textOf p next, s => (next (host.textOf s p)).moments host s
  | .save p text next, s =>
    let (answer, t) := host.save s p text
    ⟨s, .save p text, t⟩ :: (next answer).moments host t
  | .directoryExists p next, s => (next (host.directoryExists s p)).moments host s
  | .currentDirectory next, s => (next host.currentDirectory).moments host s
  | .capacity next, s => (next (host.capacity s)).moments host s
  | .note _ next, s => next.moments host s

theorem linked_moments (x : Session α) (s : σ) :
    Linked s (x.moments host s) (x.run host s).state := by
  induction x generalizing s with
  | done r => rfl
  | fileExists p next ih => exact ⟨rfl, ih _ _⟩
  | textOf p next ih => exact ih _ s
  | save p text next ih => exact ⟨rfl, ih _ _⟩
  | directoryExists p next ih => exact ih _ s
  | currentDirectory next ih => exact ih _ s
  | capacity next ih => exact ih _ s
  | note m next ih => exact ih s

/-- The state after a moment is the one that its call leaves. -/
theorem after_of_mem_moments (x : Session α) (s : σ) :
    ∀ m ∈ x.moments host s, m.after = host.after m.before m.event := by
  induction x generalizing s with
  | done r => exact fun m hm => absurd hm List.not_mem_nil
  | fileExists p next ih =>
    intro m hm
    rcases List.mem_cons.1 hm with rfl | hm
    · rfl
    · exact ih _ _ m hm
  | textOf p next ih => exact ih _ s
  | save p text next ih =>
    intro m hm
    rcases List.mem_cons.1 hm with rfl | hm
    · rfl
    · exact ih _ _ m hm
  | directoryExists p next ih => exact ih _ s
  | currentDirectory next ih => exact ih _ s
  | capacity next ih => exact ih _ s
  | note m next ih => exact ih s

/-- A sequence goes through the moments of its first part and then, if that has ended well, through
those of its second. -/
theorem moments_bind (x : Session α) (k : α → Session β) (s : σ) :
    (x >>= k).moments host s = x.moments host s ++
      match (x.run host s).result with
      | .ok a => (k a).moments host (x.run host s).state
      | .error _ => [] := by
  show (x.bind k).moments host s = _
  induction x generalizing s with
  | done r => cases r <;> rfl
  | fileExists p next ih => exact congrArg (List.cons _) (ih _ _)
  | textOf p next ih => exact ih _ s
  | save p text next ih => exact congrArg (List.cons _) (ih _ _)
  | directoryExists p next ih => exact ih _ s
  | currentDirectory next ih => exact ih _ s
  | capacity next ih => exact ih _ s
  | note m next ih => exact ih s

/-! ## Writes -/

/-- What a session writes, in order. -/
def saves (host : Host σ) (x : Session α) (s : σ) : List (Path × String) :=
  (x.moments host s).filterMap fun m => m.event.saved?

/-- The session writes nothing, from whatever state. -/
def WritesNothing (host : Host σ) (x : Session α) : Prop := ∀ s, x.saves host s = []

theorem saves_bind (x : Session α) (k : α → Session β) (s : σ) :
    (x >>= k).saves host s = x.saves host s ++
      match (x.run host s).result with
      | .ok a => (k a).saves host (x.run host s).state
      | .error _ => [] := by
  rw [saves, moments_bind, List.filterMap_append]
  cases (x.run host s).result <;> rfl

theorem Returns.saves_bind {x : Session α} {k : α → Session β} {s t : σ} {a : α}
    (h : Returns host x s a t) :
    (x >>= k).saves host s = x.saves host s ++ (k a).saves host t := by
  rw [Session.saves_bind, h.1, h.2]

theorem WritesNothing.bind {x : Session α} {k : α → Session β} (hx : x.WritesNothing host)
    (hk : ∀ a, (k a).WritesNothing host) : (x >>= k).WritesNothing host := by
  intro s
  rw [saves_bind, hx s]
  cases (x.run host s).result with
  | ok a => exact hk a _
  | error e => rfl

end Session

end SvelteTypings
