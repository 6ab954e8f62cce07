import Mathlib.Data.List.Basic
import SchemeTyping.Proofs.Expr
import SchemeTyping.Proofs.Outcome
import SchemeTyping.Tree.Basic

/-!
# Edits of a tree

`Edit.replaceAt` puts an expression at a path of a tree.

## What is here

* `Expr.children_setChild` — `setChild` and `children` number the children alike, although
  `setChild` counts through the pairs of bindings and cases and `children` flattens them.  The rest
  follows from it.
* `Expr.atOrHole?_setAt_append`, `Expr.atOrHole?_setAt_of_apart`, `Expr.setAt_self` — the laws of
  `Expr.setAt`: what is read at the path and below it, what is read elsewhere, and that putting what
  is there already changes nothing.
* `Edit.run_replaceAt_cases` — an edit is `Expr.setAt` with a new revision, or an error that leaves
  the tree as it was.
* `Edit.replaceAt_lands` — all of this together, with the error for every path that does not exist.
-/

set_option autoImplicit false

namespace SchemeTyping

namespace Expr

/-! ## One child -/

theorem flatMap_setPair (bs : List (Expr × Expr)) (n : Nat) (c : Expr) :
    ((setPair bs n c).flatMap fun b ↦ [b.1, b.2]) = (bs.flatMap fun b ↦ [b.1, b.2]).set n c := by
  induction bs, n, c using setPair.induct with
  | case1 | case2 | case3 => rfl
  | case4 p ps n c ih =>
    rw [setPair, List.flatMap_cons, ih]
    rfl

theorem setPair_self {bs : List (Expr × Expr)} {n : Nat} {c : Expr}
    (h : (bs.flatMap fun b ↦ [b.1, b.2])[n]? = some c) : setPair bs n c = bs := by
  induction bs, n, c using setPair.induct with
  | case1 => rfl
  | case2 p ps c | case3 p ps c =>
    obtain rfl : _ = c := Option.some.inj h
    rfl
  | case4 p ps n c ih => rw [setPair, ih h]

/-- `setChild i c` sets the child at `i`. -/
theorem children_setChild (e : Expr) (i : Nat) (c : Expr) :
    (e.setChild i c).children = e.children.set i c := by
  cases e with
  | list es | sequence es => rfl
  | call called args => cases i <;> rfl
  | define name value => rcases i with _ | _ | i <;> rfl
  | letIn bindings body | letrec bindings body =>
    simp only [setChild]
    split
    · next hi =>
      rw [hi, ← length_pairs]
      simp [children]
    · next hi =>
      simp only [children, flatMap_setPair, List.set_append]
      split
      · rfl
      · -- Past the body there is nothing to replace.
        next hlen =>
        rw [List.set_eq_of_length_le (by omega), List.set_eq_of_length_le]
        rw [length_pairs] at hlen ⊢
        simp only [List.length_singleton]
        omega
  | lambda params body =>
    simp only [setChild]
    split
    · next hi => simp [children, hi]
    · next hi =>
      simp only [children, List.set_append]
      split
      · rfl
      · rw [List.set_eq_of_length_le (by omega), List.set_eq_of_length_le]
        simp only [List.length_singleton]
        omega
  | branch p t e => rcases i with _ | _ | _ | i <;> rfl
  | cond cases => exact flatMap_setPair cases i c
  | _ => rfl

/-- To replace a child by itself does not change the expression. -/
theorem setChild_self {e c : Expr} {i : Nat} (h : e.children[i]? = some c) :
    e.setChild i c = e := by
  have set_self {es : List Expr} {n : Nat} (h : es[n]? = some c) : es.set n c = es := by
    obtain ⟨hn, rfl⟩ := List.getElem?_eq_some_iff.1 h
    exact List.set_getElem_self hn
  have hlt : i < e.children.length := (List.getElem?_eq_some_iff.1 h).1
  cases e with
  | list es | sequence es =>
    have hes : es[i]? = some c := h
    rw [setChild, set_self hes]
  | call called args =>
    cases i with
    | zero => rw [setChild, Option.some.inj h]
    | succ n =>
      have hargs : args[n]? = some c := h
      rw [setChild, set_self hargs]
  | define name value =>
    obtain rfl | rfl : i = 0 ∨ i = 1 := by
      simp only [children, List.length_cons, List.length_nil] at hlt
      omega
    all_goals rw [setChild, Option.some.inj h]
  | letIn bindings body | letrec bindings body =>
    simp only [setChild]
    split
    · next hi =>
      rw [hi] at h
      rw [Option.some.inj ((getElem?_body bindings body).symm.trans h)]
    · next hi =>
      simp only [children, List.length_append, length_pairs, List.length_singleton] at hlt
      rw [children, List.getElem?_append_left (by rw [length_pairs]; omega)] at h
      rw [setPair_self h]
  | lambda params body =>
    simp only [setChild]
    split
    · next hi =>
      rw [hi, children, List.getElem?_concat_length] at h
      rw [Option.some.inj h]
    · next hi =>
      simp only [children, List.length_append, List.length_singleton] at hlt
      rw [children, List.getElem?_append_left (by omega)] at h
      rw [set_self h]
  | branch p t e =>
    obtain rfl | rfl | rfl : i = 0 ∨ i = 1 ∨ i = 2 := by
      simp only [children, List.length_cons, List.length_nil] at hlt
      omega
    all_goals rw [setChild, Option.some.inj h]
  | cond cases => rw [setChild, setPair_self h]
  | _ => simp [children] at h

theorem getElem?_of_child? {e c : Expr} {i : Int} (h : e.child? i = some c) :
    0 ≤ i ∧ e.children[i.toNat]? = some c := by
  rw [child?] at h
  split at h
  · cases h
  · exact ⟨by omega, h⟩

/-- `child?` after `setChild`. -/
theorem child?_setChild {e c : Expr} {i : Int} (h : e.child? i = some c) (d : Expr) (j : Int) :
    (e.setChild i.toNat d).child? j = if j = i then some d else e.child? j := by
  obtain ⟨hi, hc⟩ := getElem?_of_child? h
  have hlt : i.toNat < e.children.length := (List.getElem?_eq_some_iff.1 hc).1
  rw [child?, child?, children_setChild, List.getElem?_set]
  by_cases hj : j < 0
  · have hne : j ≠ i := by omega
    rw [if_pos hj, if_pos hj, if_neg hne]
  · by_cases hji : j = i
    · subst hji
      rw [if_neg hj, if_pos rfl, if_pos rfl, if_pos hlt]
    · have hne : i.toNat ≠ j.toNat := by omega
      rw [if_neg hj, if_neg hne, if_neg hji, if_neg hj]

/-! ## What is at a path -/

theorem at?_append (e : Expr) (p q : Path) : e.at? (p ++ q) = (e.at? p).bind (·.at? q) := by
  induction p generalizing e with
  | nil => rfl
  | cons i p ih =>
    rw [List.cons_append, at?, at?]
    cases e.child? i with
    | none => rfl
    | some c => exact ih c

theorem at?_concat (e : Expr) (p : Path) (i : Int) :
    e.at? (p ++ [i]) = (e.at? p).bind (·.child? i) := by
  rw [at?_append]
  congr 1
  funext d
  rw [at?]
  exact Option.bind_fun_some (d.child? i)

theorem atOrHole?_cons {e c : Expr} {i : Int} (h : e.child? i = some c) (p : Path) :
    e.atOrHole? (i :: p) = c.atOrHole? p := by
  cases p with
  | nil =>
    rw [atOrHole?.eq_2, h]
    rfl
  | cons j p => rw [atOrHole?, h, Option.bind_some]

/-- `atOrHole? (i :: p)` depends on the child at `i` only. -/
theorem atOrHole?_congr {e e' : Expr} {i : Int} (h : e.child? i = e'.child? i) (p : Path) :
    e.atOrHole? (i :: p) = e'.atOrHole? (i :: p) := by
  cases p <;> rw [atOrHole?, atOrHole?, h]

theorem atOrHole?_of_at? {e c : Expr} {p : Path} (h : e.at? p = some c) :
    e.atOrHole? p = some c := by
  induction p generalizing e with
  | nil => exact h
  | cons i p ih =>
    obtain ⟨d, hd, hc⟩ := Option.bind_eq_some_iff.1 h
    rw [atOrHole?_cons hd, ih hc]

/-- What `atOrHole?` finds is at the path, or a hole. -/
theorem at?_or_hole {e c : Expr} {p : Path} (h : e.atOrHole? p = some c) :
    e.at? p = some c ∨ c = .hole := by
  induction p generalizing e with
  | nil => exact .inl h
  | cons i p ih =>
    cases hd : e.child? i with
    | some d =>
      rw [atOrHole?_cons hd] at h
      rw [at?, hd]
      exact ih h
    | none =>
      cases p with
      | nil =>
        rw [atOrHole?, hd] at h
        exact .inr (Option.some.inj h).symm
      | cons j p =>
        rw [atOrHole?, hd] at h
        cases h

/-- `nodeAt` gives what is at the path. -/
theorem nodeAt_of_at? {e c : Expr} {path : Path} (h : e.at? path = some c) :
    e.nodeAt path = .ok c := by
  rw [nodeAt, atOrHole?_of_at? h]

/-! ## What is at a path after an edit -/

/-- Below `p`, `e.setAt p new` has what `new` has. -/
theorem atOrHole?_setAt_append {e old : Expr} {p : Path} (h : e.at? p = some old) (new : Expr)
    (q : Path) : (e.setAt p new).atOrHole? (p ++ q) = new.atOrHole? q := by
  induction p generalizing e with
  | nil => rfl
  | cons i p ih =>
    obtain ⟨c, hc, hold⟩ := Option.bind_eq_some_iff.1 h
    rw [setAt, hc, List.cons_append]
    have hchild := child?_setChild hc (c.setAt p new) i
    rw [if_pos rfl] at hchild
    rw [atOrHole?_cons hchild, ih hold]

/-- `e.setAt p new` has what `e` has at every path that neither extends `p` nor is extended by
it. -/
theorem atOrHole?_setAt_of_apart {p r : Path} (hpr : ¬ p <+: r) (hrp : ¬ r <+: p) (e new : Expr) :
    (e.setAt p new).atOrHole? r = e.atOrHole? r := by
  induction p generalizing e r with
  | nil => exact absurd List.nil_prefix hpr
  | cons i p ih =>
    cases r with
    | nil => exact absurd List.nil_prefix hrp
    | cons j r =>
      rw [setAt]
      cases hc : e.child? i with
      | none => rfl
      | some c =>
        have hchild := child?_setChild hc (c.setAt p new) j
        by_cases hji : j = i
        · subst hji
          rw [if_pos rfl] at hchild
          rw [List.prefix_cons_inj] at hpr hrp
          rw [atOrHole?_cons hchild, atOrHole?_cons hc, ih hpr hrp]
        · rw [if_neg hji] at hchild
          exact atOrHole?_congr hchild r

/-- To put what is at `p` already does not change the expression. -/
theorem setAt_self {e old : Expr} {p : Path} (h : e.at? p = some old) : e.setAt p old = e := by
  induction p generalizing e with
  | nil => exact (Option.some.inj h).symm
  | cons i p ih =>
    obtain ⟨c, hc, hold⟩ := Option.bind_eq_some_iff.1 h
    rw [setAt, hc]
    change e.setChild i.toNat (c.setAt p old) = e
    rw [ih hold, setChild_self (getElem?_of_child? hc).2]

end Expr

/-! ## When an edit succeeds -/

namespace Edit

variable {t : Tree} {p : Path}

/-- If `p` leads to `parent`, the edit succeeds exactly if `parent` has a child at `i`. -/
theorem run_setChildAt {parent : Expr} (h : t.root.nodeAt p = .ok parent) (i : Int) (new : Expr) :
    (setChildAt p i new).run t =
      if (parent.child? i).isSome then (.ok (), { t with root := t.root.setAt (p ++ [i]) new })
      else (.error (.noChild i parent.kind), t) := by
  rw [setChildAt, run_get_bind, h]
  dsimp only
  cases parent.child? i <;> rfl

theorem run_setChildAt_of_error {error : PathError} (h : t.root.nodeAt p = .error error) (i : Int)
    (new : Expr) : (setChildAt p i new).run t = (.error error, t) := by
  rw [setChildAt, run_get_bind, h]
  rfl

/-- Below the root, `replaceAt` sets a child and then makes the new revision. -/
theorem replaceAt_concat (p : Path) (i : Int) (new : Expr) :
    replaceAt (p ++ [i]) new = (do
      setChildAt p i new
      modify fun t ↦ { t with revision := t.revision + 1 }) := by
  rw [replaceAt, List.getLast?_concat, List.dropLast_concat]

/-- `replaceAt p` succeeds if `p` exists. -/
theorem run_replaceAt_of_at? {old : Expr} (h : t.root.at? p = some old) (new : Expr) :
    (replaceAt p new).run t =
      (.ok (), { t with root := t.root.setAt p new, revision := t.revision + 1 }) := by
  rcases List.eq_nil_or_concat' p with rfl | ⟨q, i, rfl⟩
  · rfl
  · rw [Expr.at?_concat] at h
    obtain ⟨parent, hparent, hchild⟩ := Option.bind_eq_some_iff.1 h
    have hset := run_setChildAt (Expr.nodeAt_of_at? hparent) i new
    rw [hchild] at hset
    rw [replaceAt_concat, run_bind_ok hset]
    rfl

/-- `replaceAt p` fails if `p` does not exist, and leaves the tree as it was.  Either `nodeAt` fails
before the last step, or the last step finds no child: the hole that is read where a child is
missing has no children either. -/
theorem run_replaceAt_of_at?_eq_none (h : t.root.at? p = none) (new : Expr) :
    ∃ error, (replaceAt p new).run t = (.error error, t) ∧ ∃ q i, p = q ++ [i] ∧
      (t.root.nodeAt q = .error (.invalidPath q) ∧ error = .invalidPath q ∨
        ∃ parent, t.root.nodeAt q = .ok parent ∧ error = .noChild i parent.kind) := by
  rcases List.eq_nil_or_concat' p with rfl | ⟨q, i, rfl⟩
  · cases h
  · rw [Expr.at?_concat] at h
    rw [replaceAt_concat]
    cases hparent : t.root.atOrHole? q with
    | none =>
      have hnode : t.root.nodeAt q = .error (.invalidPath q) := by rw [Expr.nodeAt, hparent]
      exact ⟨_, run_bind_error (run_setChildAt_of_error hnode i new) _, q, i, rfl,
        .inl ⟨hnode, rfl⟩⟩
    | some parent =>
      have hnode : t.root.nodeAt q = .ok parent := by rw [Expr.nodeAt, hparent]
      have hchild : parent.child? i = none := by
        rcases Expr.at?_or_hole hparent with hat | rfl
        · rwa [hat] at h
        · rw [Expr.child?]
          split <;> rfl
      have hset := run_setChildAt hnode i new
      rw [hchild] at hset
      exact ⟨_, run_bind_error hset _, q, i, rfl, .inr ⟨parent, hnode, rfl⟩⟩

/-- `replaceAt` sets the expression and makes a new revision, or it fails and changes nothing. -/
theorem run_replaceAt_cases (t : Tree) (p : Path) (new : Expr) :
    (replaceAt p new).run t =
        (.ok (), { t with root := t.root.setAt p new, revision := t.revision + 1 }) ∨
      ∃ error, (replaceAt p new).run t = (.error error, t) := by
  cases h : t.root.at? p with
  | some old => exact .inl (run_replaceAt_of_at? h new)
  | none =>
    obtain ⟨error, hrun, -⟩ := run_replaceAt_of_at?_eq_none h new
    exact .inr ⟨error, hrun⟩

/-- **An edit lands at its path and nowhere else, or it fails and changes nothing.**  If the path
`p` exists, `replaceAt` makes the next revision of the tree.  There `p` leads to `new`, and `p ++ q`
leads to what `q` leads to in `new`; a path that neither extends `p` nor is extended by it is read
as before, also where it is read as a hole or is invalid; and to put what is there already does not
change the root.  If `p` does not exist, there is an error, and the tree that is left has the root
and the revision it had. -/
theorem replaceAt_lands (t : Tree) (p : Path) (new : Expr) :
    (∀ old, t.root.at? p = some old →
      ∃ t', (replaceAt p new).run t = (.ok (), t') ∧ t'.number = t.number ∧
        t'.revision = t.revision + 1 ∧ t'.root.nodeAt p = .ok new ∧
        (∀ q, t'.root.nodeAt (p ++ q) = (new.nodeAt q).mapError fun _ ↦ .invalidPath (p ++ q)) ∧
        (∀ r, ¬ p <+: r → ¬ r <+: p → t'.root.nodeAt r = t.root.nodeAt r) ∧
        (new = old → t'.root = t.root)) ∧
    (t.root.at? p = none →
      ∃ error t', (replaceAt p new).run t = (.error error, t') ∧
        t'.number = t.number ∧ t'.root = t.root ∧ t'.revision = t.revision ∧
        ∃ q i, p = q ++ [i] ∧
          (t.root.nodeAt q = .error (.invalidPath q) ∧ error = .invalidPath q ∨
            ∃ parent, t.root.nodeAt q = .ok parent ∧ error = .noChild i parent.kind)) := by
  refine ⟨fun old hold ↦ ?_, fun hnone ↦ ?_⟩
  · have hbelow := Expr.atOrHole?_setAt_append hold new
    refine ⟨_, run_replaceAt_of_at? hold new, rfl, rfl, ?_, ?_, ?_, ?_⟩
    · have hhere := hbelow []
      rw [List.append_nil] at hhere
      rw [Expr.nodeAt, hhere]
      rfl
    · intro q
      rw [Expr.nodeAt, hbelow, Expr.nodeAt]
      cases new.atOrHole? q <;> rfl
    · intro r hpr hrp
      rw [Expr.nodeAt, Expr.nodeAt, Expr.atOrHole?_setAt_of_apart hpr hrp]
    · rintro rfl
      exact Expr.setAt_self hold
  · obtain ⟨error, hrun, herror⟩ := run_replaceAt_of_at?_eq_none hnone new
    exact ⟨error, t, hrun, rfl, rfl, rfl, herror⟩

/-- A binding, a parameter and a case are above the edited argument.  Below it, a missing child of
`new` is read as a hole; beside it, so is a missing child of the parameter list; and below that,
nothing can be put. -/
theorem replaceAt_lands_in_cond :
    let t : Tree := ⟨1, .letIn [(.binding "x" none, .bool true)]
      (.lambda [.binding "y" none] (.cond [(.call (.var "f") [.var "y"], .var "x")])), 4⟩
    let new : Expr := .call (.var "g") [.var "x"]
    t.root.at? [2, 1, 0, 1] = some (.var "y") ∧
      (∃ t', (replaceAt [2, 1, 0, 1] new).run t = (.ok (), t') ∧ t'.revision = 5 ∧
        t'.root.nodeAt [2, 1, 0, 1] = .ok new ∧ t'.root.nodeAt [2, 1, 0, 1, 1] = .ok (.var "x") ∧
        t'.root.nodeAt [2, 1, 0, 1, 2] = .ok .hole ∧
        t'.root.nodeAt [2, 1, 0, 1, 2, 0] = .error (.invalidPath [2, 1, 0, 1, 2, 0]) ∧
        t'.root.nodeAt [2, 1, 1] = .ok (.var "x") ∧ t'.root.nodeAt [2, 5] = .ok .hole) ∧
      t.root.at? [2, 5, 0] = none ∧
      ∃ error t', (replaceAt [2, 5, 0] new).run t = (.error error, t') ∧
        t'.root = t.root ∧ t'.revision = 4 := by
  intro t new
  obtain ⟨t', hok, -, hrevision, hhere, hbelow, hbeside, -⟩ :=
    (replaceAt_lands t [2, 1, 0, 1] new).1 (.var "y") rfl
  obtain ⟨error, t'', herror, -, hroot, hrevision', -⟩ := (replaceAt_lands t [2, 5, 0] new).2 rfl
  refine ⟨rfl, ?_, rfl, error, t'', herror, hroot, hrevision'⟩
  exact ⟨t', hok, hrevision, hhere, hbelow [1], hbelow [2], hbelow [2, 0],
    hbeside [2, 1, 1] (by decide) (by decide), hbeside [2, 5] (by decide) (by decide)⟩

end Edit

end SchemeTyping
