import SchemeTyping.Proofs.Checker.Mirror

/-!
# Invariants of the checker

Every rule preserves an invariant of the checker's state that the few changes preserve which rules
make to the state (`Stable`).  The proof runs the checker in lockstep with itself: both runs succeed
alike, so they return, and the state that both leave satisfies the invariant (`Stable.inStep`).

One of the changes is to postpone a definition.  The invariant may say where waiting definitions
are.  It may also say which names are reported as unbound: a name is only if the surroundings do not
have it.
-/

set_option autoImplicit false

namespace SchemeTyping.Check

variable {α : Type} {I : CheckerState → Prop}

/-- The relation that pairs a state with itself if it satisfies `I`. -/
def Twice (I : CheckerState → Prop) (s t : CheckerState) : Prop := s = t ∧ I s

/-- The step `x` preserves `I` and does not fail. -/
abbrev Keeps (I : CheckerState → Prop) (x : Check α) : Prop := Mirrors Never (Twice I) Eq x x

theorem keeps_iff {x : Check α} :
    Keeps I x ↔ ∀ s, I s → Ensures x s (fun _ s' ↦ I s') fun _ _ ↦ False := by
  refine ⟨fun h s hs ↦ ?_, fun h ↦ .of_exists ?_⟩
  · obtain ⟨a, s', _, _, hrun, -, rfl, rfl, hs'⟩ := h.exists_run ⟨rfl, hs⟩
    exact (ensures_ok hrun).2 hs'
  · rintro s _ ⟨rfl, hs⟩
    have h := h s hs
    rcases hrun : x.run s with ⟨fault | a, s'⟩
    · exact ((ensures_error hrun).1 h).elim
    · exact ⟨a, s', a, s', rfl, rfl, rfl, rfl, (ensures_ok hrun).1 h⟩

/-- The changes that the rules make to a state preserve `I`, in an area that has the children of its
expressions and in which names are bound in slots. -/
structure Stable (w : Surroundings) (area : Place → Expr → Prop)
    (I : CheckerState → Prop) : Prop where
  slotted : ∀ {p : Place} {e : Expr}, area p e → e.Slotted
  children : ∀ {p : Place} {e : Expr}, area p e → Row area p 0 e.children
  record : ∀ {p : Place} {e : Expr} (T : Ty) {s : CheckerState}, area p e → I s →
    I { s with cache := s.cache.insert (keyAt w p) T }
  report : ∀ (p : Place) {d : Diagnostic} {s : CheckerState}, Sayable w d s → I s →
    I { s with errors := s.errors.insert p d }
  typeOf : ∀ name : String, Keeps I (w.typeOf name)
  newGroup : ∀ {s : CheckerState}, I s → I { s with groups := s.groups + 1 }
  settle : ∀ (group : Option Nat) (name : String) (T : Ty) {s : CheckerState}, I s →
    I (s.settle group name T)
  postpone : ∀ {spot : Spot} {name : String} {declared : Option Ty} {value : Expr} (c : Context)
    {s : CheckerState}, area spot.place (.define (.binding name declared) value) → I s →
    I { s with definitions :=
          s.definitions.insert name (waiting c spot (.binding name declared) value) }

variable {w : Surroundings} {area : Place → Expr → Prop}

theorem Stable.inStep (h : Stable w area I) : InStep w w area (fun _ ↦ True) (Twice I) Eq where
  slotted := h.slotted
  children := h.children
  revision _ := rfl
  cached := by
    rintro p e s _ - ⟨rfl, -⟩
    rfl
  record := by
    rintro p e T s _ harea ⟨rfl, hs⟩
    exact ⟨rfl, h.record T harea hs⟩
  report := by
    rintro p e d s _ - hd ⟨rfl, hs⟩
    exact ⟨rfl, h.report p hd hs⟩
  typeOf _ := h.typeOf _
  types := by
    rintro c _ rfl
    rfl
  fixed _ := rfl
  newGroup := by
    rintro Γ s _ ⟨rfl, hs⟩
    exact ⟨⟨rfl, h.newGroup hs⟩, rfl⟩
  insert := by
    rintro Γ g g' name T ⟨⟩
    rfl
  settle := by
    rintro Γ g g' name T s _ ⟨⟩ ⟨rfl, hs⟩
    exact ⟨rfl, h.settle _ name T hs⟩
  postpone := by
    rintro spot name declared value c _ s _ harea rfl ⟨rfl, hs⟩
    exact ⟨rfl, h.postpone c harea hs⟩

/-- **Checking preserves an invariant** that is `Stable`. -/
theorem Stable.synth (h : Stable w area I) (c : Context) (spot : Spot)
    (expected : Option Ty) {e : Expr} (harea : area spot.place e) :
    Keeps I (synth w c spot expected e) :=
  h.inStep.synth (fun _ _ ↦ trivial) c c spot expected rfl harea

end SchemeTyping.Check
