import SchemeTyping.Proofs.Inference.Unify

/-!
# Sequences of calls

A user of the inference makes unknowns and unifies types, in any order, and may continue after a
call has failed.  `endless` says whether some call of a sequence fails because replacing unknowns
does not end.

## What is here

* `calls_acyclic` — without such a call the store stays acyclic, so `apply` and `resolve` end for
  every type; a call fails that way exactly if it leaves a cycle, and not on types without `any` and
  the gradual type.
* `calls_make_cycle` — a call does make a cycle.  `any` is unified with every type without being
  bound to it, so the copy of a solution that is written back can mention an unknown that was
  solved, after the copy was made, by a type with the first unknown in it.
-/

set_option autoImplicit false

namespace SchemeTyping.Infer

open Ty

/-- A call that makes an unknown or unifies two types. -/
inductive Call
  | newUnknown (stem : String)
  | unify (t₁ t₂ : Ty) (e₁ e₂ : Option Mention)

namespace Call

/-- Performs a call. -/
def perform : Call → Infer Ty
  | .newUnknown stem => Infer.newUnknown stem
  | .unify t₁ t₂ e₁ e₂ => Infer.unify t₁ t₂ e₁ e₂

/-- The types of a call. -/
def types : Call → List Ty
  | .newUnknown _ => []
  | .unify t₁ t₂ _ _ => [t₁, t₂]

end Call

/-- A node that is neither `any` nor the gradual type. -/
def Specific (n : Node) : Prop := n.tag? ≠ some "Any" ∧ n.tag? ≠ some "?"

instance : DecidablePred Specific := fun _ ↦ inferInstanceAs (Decidable (_ ∧ _))

/-- The state after a sequence of calls, some of which may fail. -/
def after (s : InferenceState) (calls : List Call) : InferenceState :=
  calls.foldl (fun s c ↦ (c.perform.run s).2) s

/-- Whether the call fails because replacing unknowns does not end. -/
def endlessAt (s : InferenceState) (c : Call) : Bool := (c.perform.run s).1 = .error .unbounded

/-- Whether some call of the sequence fails because replacing unknowns does not end. -/
def endless (s : InferenceState) : List Call → Bool
  | [] => false
  | c :: calls => endlessAt s c || endless (c.perform.run s).2 calls

variable {s : InferenceState} {c : Call} {calls : List Call}

/-! ## One call -/

/-- A call preserves acyclicity, or fails because it has made a cycle. -/
theorem perform_acyclic (hwf : s.store.WF) (hs : s.store.Acyclic) (c : Call) :
    (c.perform.run s).2.store.WF ∧
      ((c.perform.run s).2.store.Acyclic ↔ ¬ endlessAt s c = true) := by
  cases c with
  | newUnknown stem =>
    refine ⟨(Forest.value?_add hwf _ _).1, fun _ ↦ ?_, fun _ ↦ acyclic_add hwf hs _⟩
    rw [endlessAt, decide_eq_true_eq]
    exact nofun
  | unify t₁ t₂ e₁ e₂ =>
    have h := ensures_unify_acyclic t₁ t₂ e₁ e₂ hwf hs
    rw [endlessAt, decide_eq_true_eq, Call.perform]
    rcases hrun : (unify t₁ t₂ e₁ e₂).run s with ⟨f | w, s'⟩
    · rw [ensures_error hrun] at h
      exact ⟨h.1.wf, by simpa using h.2⟩
    · rw [ensures_ok hrun] at h
      exact ⟨h.1.wf, fun _ ↦ nofun, fun _ ↦ h.2⟩

theorem specific_con (tag : String) (arity : Nat) (h : Specific (.con tag arity)) :
    tag ≠ "Any" ∧ tag ≠ "?" :=
  ⟨fun e ↦ h.1 (congrArg some e), fun e ↦ h.2 (congrArg some e)⟩

/-- A call on `Specific` types does not make a cycle. -/
theorem perform_specific (hwf : s.store.WF) (hs : s.store.Acyclic) (hv : s.store.Built Specific)
    (hc : ∀ t ∈ c.types, t.Built Specific) :
    (c.perform.run s).2.store.Built Specific ∧ ¬ endlessAt s c = true := by
  rw [endlessAt, decide_eq_true_eq]
  cases c with
  | newUnknown stem =>
    refine ⟨fun k t ht ↦ ?_, by rintro ⟨⟩⟩
    replace ht := ((Forest.value?_add hwf _ _).2 k).symm.trans ht
    split at ht
    · cases ht
      exact built_unknown.2 (by decide)
    · exact hv k t ht
  | unify t₁ t₂ e₁ e₂ =>
    have h := ensures_unify_solves specific_con e₁ e₂ hwf hs hv (hc t₁ (by simp [Call.types]))
      (hc t₂ (by simp [Call.types]))
    rw [Call.perform]
    rcases hrun : (unify t₁ t₂ e₁ e₂).run s with ⟨f | w, s'⟩
    · rw [ensures_error hrun] at h
      exact ⟨h.2.built, by simpa using h.1⟩
    · rw [ensures_ok hrun] at h
      exact ⟨h.1.built, by simp⟩

/-! ## All calls -/

theorem acyclic_after (hwf : s.store.WF) (hs : s.store.Acyclic) (h : ¬ endless s calls = true) :
    (after s calls).store.WF ∧ (after s calls).store.Acyclic := by
  induction calls generalizing s with
  | nil => exact ⟨hwf, hs⟩
  | cons c calls ih =>
    rw [endless, Bool.or_eq_true, not_or] at h
    obtain ⟨hwf', hs'⟩ := perform_acyclic hwf hs c
    exact ih hwf' (hs'.2 h.1) h.2

theorem not_endless_of_specific (hwf : s.store.WF) (hs : s.store.Acyclic)
    (hv : s.store.Built Specific) (hc : ∀ c ∈ calls, ∀ t ∈ c.types, t.Built Specific) :
    ¬ endless s calls = true := by
  induction calls generalizing s with
  | nil => simp [endless]
  | cons c calls ih =>
    rw [List.forall_mem_cons] at hc
    obtain ⟨hwf', hs'⟩ := perform_acyclic hwf hs c
    obtain ⟨hv', hend⟩ := perform_specific hwf hs hv hc.1
    rw [endless, Bool.or_eq_true, not_or]
    exact ⟨hend, ih hwf' (hs'.2 hend) hv' hc.2⟩

/-- **Calls and cycles.**  Until a call is `endlessAt`, the store is acyclic, and `apply` and
`resolve` end for every type.  The next call is `endlessAt` exactly if it makes a cycle.  On types
without `any` and the gradual type no call is. -/
theorem calls_acyclic (calls : List Call) :
    (¬ endless .initial calls = true →
      (after .initial calls).store.Acyclic ∧ (∀ t, (after .initial calls).store.settles t = true) ∧
      (∀ t id, (after .initial calls).store.resolve t = .unknown id →
        (after .initial calls).store.next? id = none) ∧
      ∀ c, (after .initial (calls ++ [c])).store.Acyclic ↔
        ¬ endlessAt (after .initial calls) c = true) ∧
    ((∀ c ∈ calls, ∀ t ∈ c.types, t.Built Specific) → ¬ endless .initial calls = true) := by
  refine ⟨fun h ↦ ?_, not_endless_of_specific wf_initial acyclic_initial fun k t ht ↦ ?_⟩
  · obtain ⟨hwf, hs⟩ := acyclic_after wf_initial acyclic_initial h
    refine ⟨hs, hs.settles, fun t id ↦ Store.next?_resolve hs, fun c ↦ ?_⟩
    rw [after, List.foldl_append]
    exact (perform_acyclic hwf hs c).2
  · exact absurd ((value?_initial k).symm.trans ht) nofun

/-- Calls after which one more makes a cycle. -/
def tangle : List Call :=
  [.newUnknown "", .newUnknown "", .newUnknown "",
    .unify (.unknown "#2") (list any) none none,
    .unify (.unknown "#1") (.con "T" [.con "T" [any, any, any], .unknown "#2", .unknown "#2"])
      none none]

/-- The call that makes the cycle.  The second parameter is copied while the third unknown has no
solution; the third parameter then solves it by a list of the first unknown, and the copy is written
back. -/
def knot : Call :=
  .unify (.unknown "#1") (.con "T" [.unknown "#1", list (list (.unknown "#3")),
    list (list (list (.unknown "#1")))]) none none

theorem calls_acyclic_tangle :
    ((after .initial tangle).store.Acyclic ∧ endlessAt (after .initial tangle) knot = true ∧
      ¬ (after .initial (tangle ++ [knot])).store.Acyclic) ∧
    ¬ endless .initial [.newUnknown "a", .unify (.unknown "a#1") (list integer) none none] =
      true := by
  obtain ⟨hs, -, -, hnext⟩ := (calls_acyclic tangle).1 (by decide +kernel)
  have hknot : endlessAt (after .initial tangle) knot = true := by decide +kernel
  exact ⟨⟨hs, hknot, fun h ↦ (hnext knot).1 h hknot⟩, (calls_acyclic _).2 (by decide +kernel)⟩

/-- An unknown leads back to itself after calls on types without variables and quantifiers. -/
theorem calls_make_cycle :
    (∀ c ∈ tangle ++ [knot], ∀ t ∈ c.types, t.Built fun n ↦ n ≠ .var ∧ n ≠ .all) ∧
      ∃ id, Relation.TransGen (after .initial (tangle ++ [knot])).store.Leads id id := by
  refine ⟨by decide +kernel, ?_⟩
  by_contra h
  have hs : (after .initial (tangle ++ [knot])).store.Acyclic := fun id hid ↦ h ⟨id, hid⟩
  have hend : ¬ (after .initial (tangle ++ [knot])).store.settles (.unknown "#1") = true := by
    decide +kernel
  exact hend (hs.settles _)

end SchemeTyping.Infer
