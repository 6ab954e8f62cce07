import SchemeTyping.Expr.Basic

/-!
# Induction on expressions

## What is here

* `Expr.induction` — induction with a hypothesis for every child.
* `Expr.parts`, `Expr.All` — an expression with everything below it, the slots of bound names
  included, and predicates on all of these.
* `defineCount_eq_countP` — `defineCount` counts the definitions among the parts.
-/

set_option autoImplicit false

namespace SchemeTyping.Expr

/-- Induction on `Expr`, with a hypothesis for every child. -/
@[elab_as_elim, induction_eliminator]
theorem induction {P : Expr → Prop} (number : ∀ n, P (.number n)) (bool : ∀ b, P (.bool b))
    (string : ∀ s, P (.string s)) (null : P .null) (list : ∀ es, (∀ e ∈ es, P e) → P (.list es))
    (hole : P .hole) (binding : ∀ name declared, P (.binding name declared))
    (var : ∀ name, P (.var name))
    (call : ∀ called args, P called → (∀ e ∈ args, P e) → P (.call called args))
    (define : ∀ name value, P name → P value → P (.define name value))
    (letIn : ∀ bindings body, (∀ b ∈ bindings, P b.1 ∧ P b.2) → P body → P (.letIn bindings body))
    (letrec : ∀ bindings body, (∀ b ∈ bindings, P b.1 ∧ P b.2) → P body → P (.letrec bindings body))
    (lambda : ∀ params body, (∀ e ∈ params, P e) → P body → P (.lambda params body))
    (sequence : ∀ es, (∀ e ∈ es, P e) → P (.sequence es))
    (branch : ∀ c t e, P c → P t → P e → P (.branch c t e))
    (cond : ∀ cases, (∀ b ∈ cases, P b.1 ∧ P b.2) → P (.cond cases)) (e : Expr) : P e :=
  @Expr.rec P (fun es ↦ ∀ e ∈ es, P e) (fun bs ↦ ∀ b ∈ bs, P b.1 ∧ P b.2) (fun b ↦ P b.1 ∧ P b.2)
    number bool string null list hole binding var call define letIn letrec lambda sequence
      branch cond
    (fun _ h ↦ absurd h List.not_mem_nil)
    (fun _ _ he hes _ h ↦ (List.mem_cons.1 h).elim (fun h ↦ h ▸ he) (hes _))
    (fun _ h ↦ absurd h List.not_mem_nil)
    (fun _ _ hb hbs _ h ↦ (List.mem_cons.1 h).elim (fun h ↦ h ▸ hb) (hbs _))
    (fun _ _ h h' ↦ ⟨h, h'⟩) e

mutual

/-- The expression and everything below it. -/
def parts : Expr → List Expr
  | .list es => .list es :: partsList es
  | .call called args => .call called args :: (called.parts ++ partsList args)
  | .define name value => .define name value :: (name.parts ++ value.parts)
  | .letIn bindings body => .letIn bindings body :: (partsPairs bindings ++ body.parts)
  | .letrec bindings body => .letrec bindings body :: (partsPairs bindings ++ body.parts)
  | .lambda params body => .lambda params body :: (partsList params ++ body.parts)
  | .sequence es => .sequence es :: partsList es
  | .branch c t e => .branch c t e :: (c.parts ++ t.parts ++ e.parts)
  | .cond cases => .cond cases :: partsPairs cases
  | e => [e]

/-- As `parts`, for the expressions of a list. -/
def partsList : List Expr → List Expr
  | [] => []
  | e :: es => e.parts ++ partsList es

/-- As `parts`, for the expressions of a list of pairs. -/
def partsPairs : List (Expr × Expr) → List Expr
  | [] => []
  | (d, e) :: es => d.parts ++ e.parts ++ partsPairs es

end

/-- Every part of `e` satisfies `p`. -/
def All (p : Expr → Prop) (e : Expr) : Prop := ∀ q ∈ e.parts, p q

instance (p : Expr → Prop) [DecidablePred p] (e : Expr) : Decidable (e.All p) :=
  inferInstanceAs (Decidable (∀ q ∈ e.parts, p q))

theorem partsList_eq_flatMap (es : List Expr) : partsList es = es.flatMap parts := by
  induction es with
  | nil => rfl
  | cons e es ih => rw [partsList, ih, List.flatMap_cons]

theorem partsPairs_eq_flatMap (bs : List (Expr × Expr)) :
    partsPairs bs = (bs.flatMap fun b ↦ [b.1, b.2]).flatMap parts := by
  induction bs with
  | nil => rfl
  | cons b bs ih => simp [partsPairs, ih]

theorem parts_eq (e : Expr) : e.parts = e :: e.children.flatMap parts := by
  cases e <;> simp [parts, children, partsList_eq_flatMap, partsPairs_eq_flatMap]

/-- `e.All p` by the children of `e`. -/
theorem all_iff {p : Expr → Prop} {e : Expr} : e.All p ↔ p e ∧ ∀ c ∈ e.children, c.All p := by
  simp only [All, parts_eq e, List.forall_mem_cons, List.mem_flatMap]
  exact and_congr_right fun _ ↦
    ⟨fun h c hc q hq ↦ h q ⟨c, hc, hq⟩, fun h q ⟨c, hc, hq⟩ ↦ h c hc q hq⟩

theorem forall_mem_pairs {p : Expr → Prop} {bs : List (Expr × Expr)} :
    (∀ c ∈ bs.flatMap fun b ↦ [b.1, b.2], p c) ↔ ∀ b ∈ bs, p b.1 ∧ p b.2 := by
  induction bs with
  | nil => simp
  | cons b bs ih => rw [List.flatMap_cons, List.forall_mem_append, ih, List.forall_mem_cons]; simp

/-- Induction on `Expr`, with one hypothesis for all children. -/
theorem childInduction {P : Expr → Prop} (h : ∀ e, (∀ c ∈ e.children, P c) → P e)
    (e : Expr) : P e := by
  induction e with
  | number | bool | string | null | hole | binding | var => exact h _ (by simp [children])
  | list es ih | sequence es ih => exact h _ ih
  | call called args ihc ih => exact h _ (List.forall_mem_cons.2 ⟨ihc, ih⟩)
  | define name value ihn ihv => exact h _ (by simp [children, ihn, ihv])
  | letIn bindings body ih ihb | letrec bindings body ih ihb =>
    exact h _ (List.forall_mem_append.2 ⟨forall_mem_pairs.2 ih, by simpa using ihb⟩)
  | lambda params body ih ihb => exact h _ (List.forall_mem_append.2 ⟨ih, by simpa using ihb⟩)
  | branch c t e ihc iht ihe => exact h _ (by simp [children, ihc, iht, ihe])
  | cond cases ih => exact h _ (forall_mem_pairs.2 ih)

theorem mem_parts_self (e : Expr) : e ∈ e.parts := by
  rw [parts_eq]
  exact List.mem_cons_self

theorem defineCountList_eq {es : List Expr}
    (h : ∀ e ∈ es, e.defineCount = e.parts.countP isDefine) :
    defineCountList es = (partsList es).countP isDefine := by
  induction es with
  | nil => rfl
  | cons e es ih =>
    rw [List.forall_mem_cons] at h
    rw [defineCountList, partsList, List.countP_append, h.1, ih h.2]

theorem defineCountPairs_eq {bs : List (Expr × Expr)} (h : ∀ b ∈ bs,
      b.1.defineCount = b.1.parts.countP isDefine ∧ b.2.defineCount = b.2.parts.countP isDefine) :
    defineCountPairs bs = (partsPairs bs).countP isDefine := by
  induction bs with
  | nil => rfl
  | cons b bs ih =>
    rw [List.forall_mem_cons] at h
    rw [defineCountPairs, partsPairs, List.countP_append, List.countP_append, h.1.1, h.1.2, ih h.2]

/-- `e.defineCount` is the number of definitions among the parts of `e`. -/
theorem defineCount_eq_countP (e : Expr) : e.defineCount = e.parts.countP isDefine := by
  induction e with
  | number | bool | string | null | hole | binding | var => rfl
  | list es ih | sequence es ih => simp [defineCount, parts, isDefine, defineCountList_eq ih]
  | call called args ihc ih => simp [defineCount, parts, isDefine, ihc, defineCountList_eq ih]
  | define name value ihn ihv =>
    rw [defineCount, parts, List.countP_cons_of_pos rfl, List.countP_append, ihn, ihv]
  | letIn bindings body ih ihb | letrec bindings body ih ihb =>
    simp [defineCount, parts, isDefine, ihb, defineCountPairs_eq ih]
  | lambda params body ih ihb => simp [defineCount, parts, isDefine, ihb, defineCountList_eq ih]
  | branch c t e ihc iht ihe => simp [defineCount, parts, isDefine, ihc, iht, ihe, Nat.add_assoc]
  | cond cases ih => simp [defineCount, parts, isDefine, defineCountPairs_eq ih]

theorem defineCount_eq_zero_iff {e : Expr} : e.defineCount = 0 ↔ e.All fun q ↦ ¬ q.isDefine := by
  rw [defineCount_eq_countP, List.countP_eq_zero]
  rfl

theorem All.bindings {p : Expr → Prop} {bs : List (Expr × Expr)} {body : Expr}
    (h : ∀ c ∈ (bs.flatMap fun b ↦ [b.1, b.2]) ++ [body], c.All p) :
    (∀ b ∈ bs, b.1.All p ∧ b.2.All p) ∧ body.All p := by
  rw [List.forall_mem_append, List.forall_mem_singleton] at h
  exact ⟨forall_mem_pairs.1 h.1, h.2⟩

/-! ## Numbers of children -/

theorem child?_natCast (e : Expr) (i : Nat) : e.child? i = e.children[i]? :=
  if_neg (by omega)

theorem getElem?_pairs (bs : List (Expr × Expr)) (i : Nat) :
    (bs.flatMap fun b ↦ [b.1, b.2])[2 * i]? = (bs.map (·.1))[i]? ∧
      (bs.flatMap fun b ↦ [b.1, b.2])[2 * i + 1]? = (bs.map (·.2))[i]? := by
  induction bs generalizing i with
  | nil => simp
  | cons b bs ih =>
    cases i with
    | zero => exact ⟨rfl, rfl⟩
    | succ i => exact ih i

theorem length_pairs (bs : List (Expr × Expr)) :
    (bs.flatMap fun b ↦ [b.1, b.2]).length = 2 * bs.length := by
  induction bs with
  | nil => rfl
  | cons b bs ih =>
    rw [List.flatMap_cons, List.length_append, ih, List.length_cons]
    simp only [List.length_cons, List.length_nil]
    omega

theorem getElem?_body (bs : List (Expr × Expr)) (body : Expr) :
    ((bs.flatMap fun b ↦ [b.1, b.2]) ++ [body])[2 * bs.length]? = some body := by
  rw [← length_pairs, List.getElem?_concat_length]

/-- A member of the flattened pairs `bs`, followed by `rest`: a first or second component, or one of
`rest`. -/
theorem getElem?_pairs_cases {bs : List (Expr × Expr)} {rest : List Expr} {n : Nat} {c : Expr}
    (h : ((bs.flatMap fun b ↦ [b.1, b.2]) ++ rest)[n]? = some c) :
    (∃ i b, bs[i]? = some b ∧ (n = 2 * i ∧ c = b.1 ∨ n = 2 * i + 1 ∧ c = b.2)) ∨
      2 * bs.length ≤ n ∧ rest[n - 2 * bs.length]? = some c := by
  by_cases hlt : n < 2 * bs.length
  · left
    rw [List.getElem?_append_left (by rwa [length_pairs])] at h
    obtain ⟨b, hb⟩ : ∃ b, bs[n / 2]? = some b := ⟨_, List.getElem?_eq_getElem (by omega)⟩
    refine ⟨n / 2, b, hb, ?_⟩
    rcases Nat.mod_two_eq_zero_or_one n with hmod | hmod
    · have hn : n = 2 * (n / 2) := by omega
      rw [hn, (getElem?_pairs bs _).1, List.getElem?_map, hb] at h
      exact .inl ⟨hn, (Option.some.inj h).symm⟩
    · have hn : n = 2 * (n / 2) + 1 := by omega
      rw [hn, (getElem?_pairs bs _).2, List.getElem?_map, hb] at h
      exact .inr ⟨hn, (Option.some.inj h).symm⟩
  · right
    rw [List.getElem?_append_right (by rw [length_pairs]; omega), length_pairs] at h
    exact ⟨by omega, h⟩

end SchemeTyping.Expr
