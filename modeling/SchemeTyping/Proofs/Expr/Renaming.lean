import Mathlib.Data.List.Forall2
import Mathlib.Data.List.Induction
import SchemeTyping.Proofs.Expr
import SchemeTyping.Proofs.Outcome

/-!
# Renaming of local names

Two expressions are equal up to the names that they bind if they have the same shape and every name
refers to corresponding binders in both.  `Renamed` says so, under a `Scope` that relates the names
of the one to those of the other.  A binder adds a pair of names to the scope and removes the pairs
that have one of the two, on either side.

Renaming may change what is shadowed: a name that a binder of one expression shadows, and that is
not used below, need not be shadowed by the corresponding binder of the other.  `Renamed True`
excludes this for names that the expressions bind themselves, `Renamed False` does not.
-/

set_option autoImplicit false

namespace SchemeTyping

/-- A relation between the names of two expressions. -/
@[ext] structure Scope where
  names : String → String → Prop
  /-- The pairs of `names` that the expressions bind themselves. -/
  locals : String → String → Prop

namespace Scope

/-- The relation `r` below a binder that binds `p.1` on the left and `p.2` on the right. -/
def under (p : String × String) (r : String → String → Prop) (x y : String) : Prop :=
  x = p.1 ∧ y = p.2 ∨ x ≠ p.1 ∧ y ≠ p.2 ∧ r x y

/-- The scope outside of all binders, where a name is related to itself. -/
def outside : Scope := ⟨Eq, fun _ _ ↦ False⟩

/-- The scope below a binder. -/
def bind (Γ : Scope) (p : String × String) : Scope := ⟨under p Γ.names, under p Γ.locals⟩

/-- The scope below binders for `ps`, the first outermost. -/
def bindAll (Γ : Scope) (ps : List (String × String)) : Scope := ps.foldl bind Γ

/-- A binder for `p` shadows the same local names on both sides. -/
def Even (Γ : Scope) (p : String × String) : Prop := ∀ x y, Γ.locals x y → (x = p.1 ↔ y = p.2)

/-- Binders for the pairs, each below those before it, shadow the same local names on both sides. -/
def EvenAll (Γ : Scope) : List (String × String) → Prop
  | [] => True
  | p :: ps => Γ.Even p ∧ (Γ.bind p).EvenAll ps

end Scope

/-- The names in two lists of slots, pairwise. -/
def slotPairs (slots slots' : List Expr) : List (String × String) :=
  (slots.filterMap Expr.name?).zip (slots'.filterMap Expr.name?)

/-- The scope below binders with the given slots. -/
def Scope.enter (Γ : Scope) (slots slots' : List Expr) : Scope := Γ.bindAll (slotPairs slots slots')

mutual

/-- Two expressions are equal up to the names that they bind.  If `keep`, then every binder shadows
the same local names in both. -/
inductive Renamed (keep : Prop) : Scope → Expr → Expr → Prop
  | number {Γ : Scope} (n : Number) : Renamed keep Γ (.number n) (.number n)
  | bool {Γ : Scope} (b : Bool) : Renamed keep Γ (.bool b) (.bool b)
  | string {Γ : Scope} (s : String) : Renamed keep Γ (.string s) (.string s)
  | null {Γ : Scope} : Renamed keep Γ .null .null
  | hole {Γ : Scope} : Renamed keep Γ .hole .hole
  | var {Γ : Scope} {x y : String} (h : Γ.names x y) : Renamed keep Γ (.var x) (.var y)
  | binding {Γ : Scope} {x y : String} (h : Γ.names x y) (declared : Option Ty) :
    Renamed keep Γ (.binding x declared) (.binding y declared)
  | list {Γ : Scope} {es es' : List Expr} (h : RenamedRow keep Γ es es') :
    Renamed keep Γ (.list es) (.list es')
  | sequence {Γ : Scope} {es es' : List Expr} (h : RenamedRow keep Γ es es') :
    Renamed keep Γ (.sequence es) (.sequence es')
  | call {Γ : Scope} {f f' : Expr} {es es' : List Expr} (hf : Renamed keep Γ f f')
    (h : RenamedRow keep Γ es es') : Renamed keep Γ (.call f es) (.call f' es')
  | branch {Γ : Scope} {c c' t t' e e' : Expr} (hc : Renamed keep Γ c c') (ht : Renamed keep Γ t t')
    (he : Renamed keep Γ e e') : Renamed keep Γ (.branch c t e) (.branch c' t' e')
  | cond {Γ : Scope} {cs cs' : List (Expr × Expr)}
    (hconditions : RenamedRow keep Γ (cs.map (·.1)) (cs'.map (·.1)))
    (hvalues : RenamedRow keep Γ (cs.map (·.2)) (cs'.map (·.2))) :
    Renamed keep Γ (.cond cs) (.cond cs')
  | define {Γ : Scope} {n n' v v' : Expr} (even : keep → Γ.EvenAll (slotPairs [n] [n']))
    (hname : Renamed keep (Γ.enter [n] [n']) n n') (hvalue : Renamed keep (Γ.enter [n] [n']) v v') :
    Renamed keep Γ (.define n v) (.define n' v')
  /-- The values are outside of the scope of the names. -/
  | letIn {Γ : Scope} {bs bs' : List (Expr × Expr)} {e e' : Expr}
    (even : keep → Γ.EvenAll (slotPairs (bs.map (·.1)) (bs'.map (·.1))))
    (hnames : RenamedRow keep (Γ.enter (bs.map (·.1)) (bs'.map (·.1))) (bs.map (·.1))
      (bs'.map (·.1)))
    (hvalues : RenamedRow keep Γ (bs.map (·.2)) (bs'.map (·.2)))
    (hbody : Renamed keep (Γ.enter (bs.map (·.1)) (bs'.map (·.1))) e e') :
    Renamed keep Γ (.letIn bs e) (.letIn bs' e')
  /-- The values are in the scope of the names. -/
  | letrec {Γ : Scope} {bs bs' : List (Expr × Expr)} {e e' : Expr}
    (even : keep → Γ.EvenAll (slotPairs (bs.map (·.1)) (bs'.map (·.1))))
    (hnames : RenamedRow keep (Γ.enter (bs.map (·.1)) (bs'.map (·.1))) (bs.map (·.1))
      (bs'.map (·.1)))
    (hvalues : RenamedRow keep (Γ.enter (bs.map (·.1)) (bs'.map (·.1))) (bs.map (·.2))
      (bs'.map (·.2)))
    (hbody : Renamed keep (Γ.enter (bs.map (·.1)) (bs'.map (·.1))) e e') :
    Renamed keep Γ (.letrec bs e) (.letrec bs' e')
  | lambda {Γ : Scope} {ps ps' : List Expr} {e e' : Expr}
    (even : keep → Γ.EvenAll (slotPairs ps ps')) (hparams : RenamedRow keep (Γ.enter ps ps') ps ps')
    (hbody : Renamed keep (Γ.enter ps ps') e e') :
    Renamed keep Γ (.lambda ps e) (.lambda ps' e')

/-- As `Renamed`, for the expressions of two lists pairwise. -/
inductive RenamedRow (keep : Prop) : Scope → List Expr → List Expr → Prop
  | nil {Γ : Scope} : RenamedRow keep Γ [] []
  | cons {Γ : Scope} {e e' : Expr} {es es' : List Expr} (h : Renamed keep Γ e e')
    (hs : RenamedRow keep Γ es es') : RenamedRow keep Γ (e :: es) (e' :: es')

end

variable {keep : Prop} {Γ Δ : Scope} {e e' : Expr}

theorem renamedRow_iff {es es' : List Expr} :
    RenamedRow keep Γ es es' ↔ List.Forall₂ (Renamed keep Γ) es es' := by
  induction es generalizing es' with
  | nil =>
    refine ⟨fun h ↦ ?_, fun h ↦ ?_⟩ <;> cases h
    · exact .nil
    · exact .nil
  | cons e es ih =>
    refine ⟨fun h ↦ ?_, fun h ↦ ?_⟩
    · cases h with
      | cons h hs => exact .cons h (ih.1 hs)
    · cases h with
      | cons h hs => exact .cons h (ih.2 hs)

/-! ## Scopes -/

namespace Scope

/-- `names` and `locals` together are one-to-one. -/
def Unambiguous (Γ : Scope) : Prop :=
  ∀ x y x' y', Γ.names x y ∨ Γ.locals x y → Γ.names x' y' ∨ Γ.locals x' y' → (x = x' ↔ y = y')

theorem Unambiguous.names (h : Γ.Unambiguous) {x y x' y' : String} (hxy : Γ.names x y)
    (hxy' : Γ.names x' y') : x = x' ↔ y = y' :=
  h x y x' y' (.inl hxy) (.inl hxy')

theorem unambiguous_outside : outside.Unambiguous := fun _ _ _ _ h h' ↦ by
  rw [show _ = _ from h.resolve_right id, show _ = _ from h'.resolve_right id]

/-- The pairs below a binder for `p`: `p` itself, or pairs of `Γ` that share no name with it. -/
theorem bind_cases {p : String × String} {x y : String}
    (h : (Γ.bind p).names x y ∨ (Γ.bind p).locals x y) :
    x = p.1 ∧ y = p.2 ∨ x ≠ p.1 ∧ y ≠ p.2 ∧ (Γ.names x y ∨ Γ.locals x y) := by
  rcases h with (h | ⟨hx, hy, h⟩) | (h | ⟨hx, hy, h⟩)
  · exact .inl h
  · exact .inr ⟨hx, hy, .inl h⟩
  · exact .inl h
  · exact .inr ⟨hx, hy, .inr h⟩

theorem Unambiguous.bind (h : Γ.Unambiguous) (p : String × String) : (Γ.bind p).Unambiguous := by
  intro x y x' y' hxy hxy'
  rcases bind_cases hxy with ⟨rfl, rfl⟩ | ⟨hx, hy, hxy⟩ <;>
    rcases bind_cases hxy' with ⟨rfl, rfl⟩ | ⟨hx', hy', hxy'⟩
  · exact iff_of_true rfl rfl
  · exact iff_of_false (Ne.symm hx') (Ne.symm hy')
  · exact iff_of_false hx hy
  · exact h x y x' y' hxy hxy'

theorem Unambiguous.bindAll (h : Γ.Unambiguous) (ps : List (String × String)) :
    (Γ.bindAll ps).Unambiguous := by
  induction ps generalizing Γ with
  | nil => exact h
  | cons p ps ih => exact ih (h.bind p)

theorem bindAll_concat (Γ : Scope) (ps : List (String × String)) (p : String × String) :
    Γ.bindAll (ps ++ [p]) = (Γ.bindAll ps).bind p :=
  List.foldl_concat ..

theorem evenAll_concat {ps : List (String × String)} {p : String × String} :
    Γ.EvenAll (ps ++ [p]) ↔ Γ.EvenAll ps ∧ (Γ.bindAll ps).Even p := by
  induction ps generalizing Γ with
  | nil => simp [EvenAll, bindAll]
  | cons q ps ih => rw [List.cons_append, EvenAll, ih, EvenAll, and_assoc]; rfl

/-- A pair of `ps` is in the scope below `ps` if no pair of `ps` has only one of its names. -/
theorem bound_bindAll (Γ : Scope) {ps : List (String × String)} {a b : String} (hmem : (a, b) ∈ ps)
    (hps : ∀ p ∈ ps, (p.1 = a ↔ p.2 = b)) :
    (Γ.bindAll ps).names a b ∧ (Γ.bindAll ps).locals a b := by
  induction ps using List.reverseRecOn with
  | nil => cases hmem
  | append_singleton ps p ih =>
    rw [List.forall_mem_append, List.forall_mem_singleton] at hps
    rw [bindAll_concat]
    by_cases hp : p.1 = a
    · exact ⟨.inl ⟨hp.symm, (hps.2.1 hp).symm⟩, .inl ⟨hp.symm, (hps.2.1 hp).symm⟩⟩
    · have hmem' :=
        (List.mem_append.1 hmem).resolve_right fun h ↦ hp (by rw [← List.mem_singleton.1 h])
      have hb : b ≠ p.2 := fun h ↦ hp (hps.2.2 h.symm)
      exact (ih hmem' hps.1).imp (fun h ↦ .inr ⟨Ne.symm hp, hb, h⟩) fun h ↦ .inr ⟨Ne.symm hp, hb, h⟩

/-- To bind a pair again does not change the scope. -/
theorem bind_eq_self {p : String × String} (h : Γ.Unambiguous)
    (hp : Γ.names p.1 p.2 ∧ Γ.locals p.1 p.2) : Γ.bind p = Γ := by
  have hunder : ∀ r : String → String → Prop, (∀ x y, r x y → Γ.names x y ∨ Γ.locals x y) →
    r p.1 p.2 →
      under p r = r := by
    intro r hr hrp
    funext x y
    refine propext ⟨?_, fun hxy ↦ ?_⟩
    · rintro (⟨rfl, rfl⟩ | ⟨-, -, hxy⟩)
      · exact hrp
      · exact hxy
    · have heq := h x y p.1 p.2 (hr x y hxy) (.inl hp.1)
      by_cases hx : x = p.1
      · exact .inl ⟨hx, heq.1 hx⟩
      · exact .inr ⟨hx, fun hy ↦ hx (heq.2 hy), hxy⟩
  exact Scope.ext (hunder _ (fun _ _ ↦ .inl) hp.1) (hunder _ (fun _ _ ↦ .inr) hp.2)

/-- Every local name is related to itself. -/
def Diagonal (Γ : Scope) : Prop := ∀ x y, Γ.locals x y → x = y

theorem Diagonal.bind (h : Γ.Diagonal) (a : String) : (Γ.bind (a, a)).Diagonal := by
  rintro x y (⟨rfl, rfl⟩ | ⟨-, -, hxy⟩)
  · rfl
  · exact h x y hxy

theorem Diagonal.evenAll (h : Γ.Diagonal) (xs : List String) : Γ.EvenAll (xs.zip xs) := by
  induction xs generalizing Γ with
  | nil => trivial
  | cons a xs ih => exact ⟨fun x y hxy ↦ by rw [h x y hxy], ih (h.bind a)⟩

theorem Diagonal.bindAll (h : Γ.Diagonal) (xs : List String) :
    (Γ.bindAll (xs.zip xs)).Diagonal := by
  induction xs generalizing Γ with
  | nil => exact h
  | cons a xs ih => exact ih (h.bind a)

/-- The scope that relates the names of `N` to themselves. -/
def only (N : String → Prop) : Scope := ⟨fun x y ↦ x = y ∧ N x, Eq⟩

theorem diagonal_only (N : String → Prop) : (only N).Diagonal := fun _ _ h ↦ h

theorem unambiguous_only (N : String → Prop) : (only N).Unambiguous := fun _ _ _ _ h h' ↦ by
  rw [h.elim And.left id, h'.elim And.left id]

end Scope

/-! ## Slots -/

theorem length_slotNames {slots slots' : List Expr}
    (h : List.Forall₂ (Renamed keep Γ) slots slots') :
    (slots.filterMap Expr.name?).length = (slots'.filterMap Expr.name?).length := by
  induction h with
  | nil => rfl
  | cons h _ ih => cases h <;> simpa [List.filterMap_cons, Expr.name?] using ih

/-! ## Children -/

/-- `List.Forall₂` on pairs from its components. -/
theorem forall₂_pairs {r r' : Expr → Expr → Prop} {bs bs' : List (Expr × Expr)}
    (h : List.Forall₂ r (bs.map (·.1)) (bs'.map (·.1)))
    (h' : List.Forall₂ r' (bs.map (·.2)) (bs'.map (·.2))) :
    List.Forall₂ (fun b b' ↦ r b.1 b'.1 ∧ r' b.2 b'.2) bs bs' := by
  rw [List.forall₂_map_left_iff, List.forall₂_map_right_iff] at h h'
  exact h.mp (fun _ _ h h' ↦ ⟨h, h'⟩) h'

theorem forall₂_flatMap_pairs {r : Expr → Expr → Prop} {bs bs' : List (Expr × Expr)}
    (h : List.Forall₂ r (bs.map (·.1)) (bs'.map (·.1)))
    (h' : List.Forall₂ r (bs.map (·.2)) (bs'.map (·.2))) :
    List.Forall₂ r (bs.flatMap fun b ↦ [b.1, b.2]) (bs'.flatMap fun b ↦ [b.1, b.2]) :=
  List.rel_flatMap (forall₂_pairs h h') fun _ _ hb ↦ .cons hb.1 (.cons hb.2 .nil)

/-- The children of renamed expressions are renamed, each in some scope. -/
theorem Renamed.children (h : Renamed keep Γ e e') :
    List.Forall₂ (fun c c' ↦ ∃ Δ, Renamed keep Δ c c') e.children e'.children := by
  have hrow : ∀ {Δ es es'}, RenamedRow keep Δ es es' →
      List.Forall₂ (fun c c' ↦ ∃ Δ, Renamed keep Δ c c') es es' :=
    fun h ↦ (renamedRow_iff.1 h).imp fun _ _ h ↦ ⟨_, h⟩
  cases h with
  | number | bool | string | null | hole | var | binding => exact .nil
  | list h | sequence h => exact hrow h
  | call hf h => exact .cons ⟨_, hf⟩ (hrow h)
  | branch hc ht he => exact .cons ⟨_, hc⟩ (.cons ⟨_, ht⟩ (.cons ⟨_, he⟩ .nil))
  | cond hconditions hvalues => exact forall₂_flatMap_pairs (hrow hconditions) (hrow hvalues)
  | define _ hname hvalue => exact .cons ⟨_, hname⟩ (.cons ⟨_, hvalue⟩ .nil)
  | letIn _ hnames hvalues hbody | letrec _ hnames hvalues hbody =>
    exact List.rel_append (forall₂_flatMap_pairs (hrow hnames) (hrow hvalues))
      (.cons ⟨_, hbody⟩ .nil)
  | lambda _ hparams hbody => exact List.rel_append (hrow hparams) (.cons ⟨_, hbody⟩ .nil)

/-- A predicate that `Renamed` preserves holds of all parts of `e'` if it does of those of `e`. -/
theorem Renamed.all {p : Expr → Prop}
    (hp : ∀ {Δ : Scope} {c c' : Expr}, Renamed keep Δ c c' → p c → p c')
    (h : Renamed keep Γ e e') (he : e.All p) : e'.All p := by
  induction e using Expr.childInduction generalizing Γ e' with
  | h e ih =>
    rw [Expr.all_iff] at he ⊢
    refine ⟨hp h he.1, fun c' hc' ↦ ?_⟩
    obtain ⟨c, hc, Δ, hcc'⟩ := exists_mem_of_forall₂ h.children.flip hc'
    exact ih c hc hcc' (he.2 c hc)

/-! ## The two sides -/

/-- The related names of `Γ` are names of `Δ` on the left and of `Δ'` on the right, where they are
related to themselves. -/
structure Scope.Sides (Γ Δ Δ' : Scope) : Prop where
  names : ∀ x y, Γ.names x y → Δ.names x x ∧ Δ'.names y y
  left : Δ.Diagonal
  right : Δ'.Diagonal

theorem Scope.Sides.bindAll {Γ Δ Δ' : Scope} (h : Γ.Sides Δ Δ') {xs ys : List String}
    (hlen : xs.length = ys.length) :
    (Γ.bindAll (xs.zip ys)).Sides (Δ.bindAll (xs.zip xs)) (Δ'.bindAll (ys.zip ys)) := by
  refine ⟨?_, h.left.bindAll xs, h.right.bindAll ys⟩
  have hnames := h.names
  clear h
  induction xs generalizing Γ Δ Δ' ys with
  | nil =>
    cases ys with
    | nil => exact hnames
    | cons y ys => cases hlen
  | cons a xs ih =>
    cases ys with
    | nil => cases hlen
    | cons b ys =>
      refine ih (Nat.succ.inj hlen) ?_
      rintro x y (⟨rfl, rfl⟩ | ⟨hx, hy, hxy⟩)
      · exact ⟨.inl ⟨rfl, rfl⟩, .inl ⟨rfl, rfl⟩⟩
      · exact ⟨.inr ⟨hx, hx, (hnames x y hxy).1⟩, .inr ⟨hy, hy, (hnames x y hxy).2⟩⟩

theorem Scope.Sides.enter {Γ Δ Δ' Θ : Scope} (h : Γ.Sides Δ Δ') {slots slots' : List Expr}
    (hslots : List.Forall₂ (Renamed keep Θ) slots slots') :
    (Γ.enter slots slots').Sides (Δ.enter slots slots) (Δ'.enter slots' slots') :=
  h.bindAll (length_slotNames hslots)

/-- If `e` is renamed to `e'` in `Γ`, each of the two is a renaming of itself on its side of `Γ`. -/
def Sided (e : Expr) : Prop :=
  ∀ {keep : Prop} {Γ Δ Δ' : Scope} {e' : Expr}, Renamed keep Γ e e' → Γ.Sides Δ Δ' →
    Renamed True Δ e e ∧ Renamed True Δ' e' e'

theorem sided_row {es es' : List Expr} {Δ Δ' : Scope} (ih : ∀ e ∈ es, Sided e)
    (h : RenamedRow keep Γ es es') (hΓ : Γ.Sides Δ Δ') :
    RenamedRow True Δ es es ∧ RenamedRow True Δ' es' es' := by
  induction es generalizing es' with
  | nil =>
    cases h
    exact ⟨.nil, .nil⟩
  | cons e es ih' =>
    rw [List.forall_mem_cons] at ih
    cases h with
    | cons h hs =>
      have hhead := ih.1 h hΓ
      have htail := ih' ih.2 hs
      exact ⟨.cons hhead.1 htail.1, .cons hhead.2 htail.2⟩

theorem sided (e : Expr) : Sided e := by
  induction e with
  | number | bool | string | null | hole =>
    intro keep Γ Δ Δ' e' h hΓ
    cases h
    exact ⟨by constructor, by constructor⟩
  | var x =>
    intro keep Γ Δ Δ' e' h hΓ
    cases h with
    | var h => exact ⟨.var (hΓ.names _ _ h).1, .var (hΓ.names _ _ h).2⟩
  | binding x declared =>
    intro keep Γ Δ Δ' e' h hΓ
    cases h with
    | binding h => exact ⟨.binding (hΓ.names _ _ h).1 _, .binding (hΓ.names _ _ h).2 _⟩
  | list es ih =>
    intro keep Γ Δ Δ' e' h hΓ
    cases h with
    | list h => exact (sided_row ih h hΓ).imp .list .list
  | sequence es ih =>
    intro keep Γ Δ Δ' e' h hΓ
    cases h with
    | sequence h => exact (sided_row ih h hΓ).imp .sequence .sequence
  | call called args ihc ih =>
    intro keep Γ Δ Δ' e' h hΓ
    cases h with
    | call hf h =>
      have hargs := sided_row ih h hΓ
      exact (ihc hf hΓ).imp (.call · hargs.1) (.call · hargs.2)
  | branch c t e ihc iht ihe =>
    intro keep Γ Δ Δ' e' h hΓ
    cases h with
    | branch hc ht he =>
      have hc := ihc hc hΓ
      have ht := iht ht hΓ
      exact (ihe he hΓ).imp (.branch hc.1 ht.1) (.branch hc.2 ht.2)
  | cond cases ih =>
    intro keep Γ Δ Δ' e' h hΓ
    cases h with
    | cond hconditions hvalues =>
      have hconditions := sided_row (List.forall_mem_map.2 fun c hc ↦ (ih c hc).1) hconditions hΓ
      have hvalues := sided_row (List.forall_mem_map.2 fun c hc ↦ (ih c hc).2) hvalues hΓ
      exact ⟨.cond hconditions.1 hvalues.1, .cond hconditions.2 hvalues.2⟩
  | define name value ihn ih =>
    intro keep Γ Δ Δ' e' h hΓ
    cases h with
    | define _ hname hvalue =>
      have hΓ' := hΓ.enter (.cons hname .nil)
      have hname := ihn hname hΓ'
      exact (ih hvalue hΓ').imp (.define (fun _ ↦ hΓ.left.evenAll _) hname.1)
        (.define (fun _ ↦ hΓ.right.evenAll _) hname.2)
  | letIn bindings body ih ihb =>
    intro keep Γ Δ Δ' e' h hΓ
    cases h with
    | letIn _ hnames hvalues hbody =>
      have hΓ' := hΓ.enter (renamedRow_iff.1 hnames)
      have hnames := sided_row (List.forall_mem_map.2 fun b hb ↦ (ih b hb).1) hnames hΓ'
      have hvalues := sided_row (List.forall_mem_map.2 fun b hb ↦ (ih b hb).2) hvalues hΓ
      exact (ihb hbody hΓ').imp (.letIn (fun _ ↦ hΓ.left.evenAll _) hnames.1 hvalues.1)
        (.letIn (fun _ ↦ hΓ.right.evenAll _) hnames.2 hvalues.2)
  | letrec bindings body ih ihb =>
    intro keep Γ Δ Δ' e' h hΓ
    cases h with
    | letrec _ hnames hvalues hbody =>
      have hΓ' := hΓ.enter (renamedRow_iff.1 hnames)
      have hnames := sided_row (List.forall_mem_map.2 fun b hb ↦ (ih b hb).1) hnames hΓ'
      have hvalues := sided_row (List.forall_mem_map.2 fun b hb ↦ (ih b hb).2) hvalues hΓ'
      exact (ihb hbody hΓ').imp (.letrec (fun _ ↦ hΓ.left.evenAll _) hnames.1 hvalues.1)
        (.letrec (fun _ ↦ hΓ.right.evenAll _) hnames.2 hvalues.2)
  | lambda params body ih ihb =>
    intro keep Γ Δ Δ' e' h hΓ
    cases h with
    | lambda _ hparams hbody =>
      have hΓ' := hΓ.enter (renamedRow_iff.1 hparams)
      have hparams := sided_row ih hparams hΓ'
      exact (ihb hbody hΓ').imp (.lambda (fun _ ↦ hΓ.left.evenAll _) hparams.1)
        (.lambda (fun _ ↦ hΓ.right.evenAll _) hparams.2)

/-- The names on the left of `Γ`, related to themselves. -/
def Scope.left (Γ : Scope) : Scope := .only fun x ↦ ∃ y, Γ.names x y

/-- The names on the right of `Γ`, related to themselves. -/
def Scope.right (Γ : Scope) : Scope := .only fun y ↦ ∃ x, Γ.names x y

theorem Scope.sides_self (Γ : Scope) : Γ.Sides Γ.left Γ.right :=
  ⟨fun x y h ↦ ⟨⟨rfl, y, h⟩, rfl, x, h⟩, diagonal_only _, diagonal_only _⟩

end SchemeTyping
