import SchemeTyping.Proofs.Expr.Text
import SchemeTyping.Proofs.Outcome

/-!
# The shape of expressions that were read

An edit can put any expression where a name is bound, the reader cannot: in what it returns, the
slots of names are holes and bindings, and a declared type has no unknowns.  `Formed` says so of one
expression, and `formed_of_readAll` of all parts of the expressions of a source text.
-/

set_option autoImplicit false

namespace SchemeTyping

/-- A type that was read has no unknowns. -/
theorem Ty.unknowns_of_ofDatum {t : Ty} {d : Datum} (h : Ty.ofDatum d = .ok t) :
    t.unknowns = [] := by
  induction t generalizing d with
  | var name => rfl
  | unknown id => cases understood_of_ofDatum h
  | con tag ps ih =>
    rw [unknowns_con, List.flatMap_eq_nil_iff]
    cases understood_of_ofDatum h with
    | tag => exact nofun
    | con _ _ hrow =>
      intro q hq
      obtain ⟨d', -, hd'⟩ := exists_mem_of_forall₂ hrow.flip hq
      exact ih q hq hd'
  | variadic min max ps ih =>
    rw [unknowns_variadic, List.flatMap_eq_nil_iff]
    cases understood_of_ofDatum h with
    | variadic _ hrow =>
      intro q hq
      obtain ⟨d', -, hd'⟩ := exists_mem_of_forall₂ hrow.flip hq
      exact ih q hq hd'
  | all bound body ih =>
    cases understood_of_ofDatum h with
    | all _ hbody => exact ih hbody

namespace Expr

/-- Every slot for a name has an `identifier?`, and a declared type has no unknowns. -/
def Formed : Expr → Prop
  | .binding _ (some t) => t.unknowns = []
  | .define name _ => name.identifier?.isSome
  | .letIn bindings _ | .letrec bindings _ => ∀ b ∈ bindings, b.1.identifier?.isSome
  | .lambda params _ => ∀ p ∈ params, p.identifier?.isSome
  | _ => True

variable {d : Datum} {e : Expr}

theorem formed_of_binderOfDatum (h : binderOfDatum d = .ok e) :
    e.identifier?.isSome ∧ e.All Formed := by
  rw [binderOfDatum.eq_def] at h
  split at h
  · split at h
    · cases h
      exact ⟨rfl, all_iff.2 ⟨trivial, by simp [children]⟩⟩
    · split at h
      · cases h
        exact ⟨rfl, all_iff.2 ⟨trivial, by simp [children]⟩⟩
      · cases h
  · split at h
    · obtain ⟨t, ht, h⟩ := bind_eq_ok_iff.1 h
      cases h
      exact ⟨rfl, all_iff.2 ⟨Ty.unknowns_of_ofDatum ht, by simp [children]⟩⟩
    · cases h
  · cases h

/-- The slots of bindings that were read have an `identifier?`, and all children are formed. -/
theorem formed_of_bindings {ds : List Datum} {bindings : List (Expr × Expr)}
    (h : List.Forall₂ (Pair binderOfDatum) ds bindings)
    (ih : ∀ b ∈ bindings, ∀ {d}, ofDatum d = .ok b.2 → b.2.All Formed) :
    (∀ b ∈ bindings, b.1.identifier?.isSome) ∧
      ∀ c ∈ bindings.flatMap fun b ↦ [b.1, b.2], c.All Formed := by
  have hbs : ∀ b ∈ bindings, (b.1.identifier?.isSome ∧ b.1.All Formed) ∧ b.2.All Formed := by
    intro b hb
    obtain ⟨_, -, x, y, -, hx, hy⟩ := exists_mem_of_forall₂ h.flip hb
    exact ⟨formed_of_binderOfDatum hx, ih b hb hy⟩
  exact ⟨fun b hb ↦ (hbs b hb).1.1, forall_mem_pairs.2 fun b hb ↦ ⟨(hbs b hb).1.2, (hbs b hb).2⟩⟩

theorem formed_of_row {ds : List Datum} {es : List Expr}
    (h : List.Forall₂ (fun d e ↦ ofDatum d = .ok e) ds es)
    (ih : ∀ e ∈ es, ∀ {d}, ofDatum d = .ok e → e.All Formed) : ∀ e ∈ es, e.All Formed := by
  intro e he
  obtain ⟨d, -, hd⟩ := exists_mem_of_forall₂ h.flip he
  exact ih e he hd

theorem formed_of_ofDatum (h : ofDatum d = .ok e) : e.All Formed := by
  induction e generalizing d with
  | number | bool | string | null | hole | var => exact all_iff.2 ⟨trivial, by simp [children]⟩
  | binding name declared => cases understood_of_ofDatum h
  | list es ih =>
    cases understood_of_ofDatum h with
    | list _ hrow => exact all_iff.2 ⟨trivial, formed_of_row hrow ih⟩
  | sequence es ih =>
    cases understood_of_ofDatum h with
    | sequence _ hrow => exact all_iff.2 ⟨trivial, formed_of_row hrow ih⟩
  | call called args ihc ih =>
    cases understood_of_ofDatum h with
    | call _ hcalled hrow =>
      exact all_iff.2 ⟨trivial, List.forall_mem_cons.2 ⟨ihc hcalled, formed_of_row hrow ih⟩⟩
  | define name value _ ih =>
    cases understood_of_ofDatum h with
    | define _ hname hvalue =>
      obtain ⟨hbinder, hformed⟩ := formed_of_binderOfDatum hname
      exact all_iff.2 ⟨hbinder, List.forall_mem_cons.2 ⟨hformed,
        List.forall_mem_singleton.2 (ih hvalue)⟩⟩
  | letIn bindings body ih ihb =>
    cases understood_of_ofDatum h with
    | letIn _ hrow hbody =>
      obtain ⟨hbinders, hformed⟩ := formed_of_bindings hrow fun b hb ↦ (ih b hb).2
      exact all_iff.2 ⟨hbinders, List.forall_mem_append.2 ⟨hformed,
        List.forall_mem_singleton.2 (ihb hbody)⟩⟩
  | letrec bindings body ih ihb =>
    cases understood_of_ofDatum h with
    | letrec _ hrow hbody =>
      obtain ⟨hbinders, hformed⟩ := formed_of_bindings hrow fun b hb ↦ (ih b hb).2
      exact all_iff.2 ⟨hbinders, List.forall_mem_append.2 ⟨hformed,
        List.forall_mem_singleton.2 (ihb hbody)⟩⟩
  | lambda params body _ ihb =>
    cases understood_of_ofDatum h with
    | lambda _ hrow hbody =>
      have hparams : ∀ p ∈ params, p.identifier?.isSome ∧ p.All Formed := by
        intro p hp
        obtain ⟨d', -, hd'⟩ := exists_mem_of_forall₂ hrow.flip hp
        exact formed_of_binderOfDatum hd'
      exact all_iff.2 ⟨fun p hp ↦ (hparams p hp).1, List.forall_mem_append.2
        ⟨fun p hp ↦ (hparams p hp).2, List.forall_mem_singleton.2 (ihb hbody)⟩⟩
  | branch c t e ihc iht ihe =>
    cases understood_of_ofDatum h with
    | branch _ hc ht he => exact all_iff.2 ⟨trivial, by simp [children, ihc hc, iht ht, ihe he]⟩
  | cond cases ih =>
    cases understood_of_ofDatum h with
    | cond _ hrow =>
      refine all_iff.2 ⟨trivial, forall_mem_pairs.2 fun b hb ↦ ?_⟩
      obtain ⟨_, -, x, y, -, hx, hy⟩ := exists_mem_of_forall₂ hrow.flip hb
      exact ⟨(ih b hb).1 hx, (ih b hb).2 hy⟩

theorem exists_ofDatum_of_readAll {source : String} {es : List Expr} (h : readAll source = .ok es)
    (he : e ∈ es) : ∃ d, ofDatum d = .ok e := by
  obtain ⟨ds, -, h⟩ := bind_eq_ok_iff.1 h
  obtain ⟨d, -, hd⟩ := exists_mem_of_forall₂ (mapM_eq_ok_iff.1 h).flip he
  exact ⟨d, hd⟩

/-- Every part of an expression of a source text is `Formed`. -/
theorem formed_of_readAll {source : String} {es : List Expr} (h : readAll source = .ok es)
    (he : e ∈ es) : e.All Formed :=
  have ⟨_, hd⟩ := exists_ofDatum_of_readAll h he
  formed_of_ofDatum hd

end Expr

end SchemeTyping
