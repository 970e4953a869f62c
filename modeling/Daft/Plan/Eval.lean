import Daft.Plan.TransformDown

/-! # What a plan computes on one row

Modelled from the spec's plan algebra: a `Projection` outputs one column per expression, named
by it; a `UDFProject` its passthrough columns, then its UDF expression; a scan selects columns.
Every function, a UDF or `list_map` included, is pure, and every other operator is an opaque
function of rows. A row is a list of named values; a column reads the first value of its name.
-/
namespace Daft

/-- The meaning of every function and opaque operator. -/
structure Interpretation where
  func : Func → List Int → Int
  unary : Nat → List String → List (String × Int) → Option (List (String × Int))
  binary : Nat → List String → List (String × Int) → List (String × Int) →
    Option (List (String × Int))
  unary_schema : ∀ op s row out, unary op s row = some out → out.map Prod.fst = s
  binary_schema : ∀ op s left right out, binary op s left right = some out → out.map Prod.fst = s

namespace Expr

mutual
/-- The value of an expression on a row; `none` when it reads a column the row lacks. -/
def eval (I : Interpretation) (row : List (String × Int)) : Expr → Option Int
  | column n => row.lookup n
  | literal v => some v
  | .alias e _ => e.eval I row
  | function f inputs => (evalList I row inputs).map (I.func f)
def evalList (I : Interpretation) (row : List (String × Int)) : List Expr → Option (List Int)
  | [] => some []
  | e :: es => do
    let v ← e.eval I row
    let vs ← evalList I row es
    pure (v :: vs)
end

end Expr

/-- The row a list of expressions produces: one column per expression, named by it. -/
def evalExprs (I : Interpretation) (row : List (String × Int)) :
    List Expr → Option (List (String × Int))
  | [] => some []
  | e :: es => do
    let v ← e.eval I row
    let vs ← evalExprs I row es
    pure ((e.name, v) :: vs)

namespace LogicalPlan

/-- The row a plan produces from one input row. -/
def eval (I : Interpretation) (input : List (String × Int)) : LogicalPlan → Option (List (String × Int))
  | source s => evalExprs I input (s.map Expr.column)
  | project child projection => child.eval I input >>= fun row => evalExprs I row projection
  | udfProject child u passthroughColumns =>
    child.eval I input >>= fun row => evalExprs I row (passthroughColumns ++ [u])
  | unary op s child => child.eval I input >>= I.unary op s
  | binary op s left right => do
    let l ← left.eval I input
    let r ← right.eval I input
    I.binary op s l r

end LogicalPlan

section EvalExprs
variable {I : Interpretation} {row : List (String × Int)}

@[simp] theorem evalExprs_nil : evalExprs I row [] = some [] := rfl

theorem evalExprs_cons_eq_some {e : Expr} {es : List Expr} {out : List (String × Int)} :
    evalExprs I row (e :: es) = some out ↔
      ∃ v vs, e.eval I row = some v ∧ evalExprs I row es = some vs ∧ out = (e.name, v) :: vs := by
  simp only [evalExprs, Option.bind_eq_bind, Option.bind_eq_some, Option.pure_def, Option.some.injEq]
  constructor
  · rintro ⟨v, hv, vs, hvs, rfl⟩; exact ⟨v, vs, hv, hvs, rfl⟩
  · rintro ⟨v, vs, hv, hvs, rfl⟩; exact ⟨v, hv, vs, hvs, rfl⟩

theorem evalExprs_append {xs ys : List Expr} {out : List (String × Int)}
    (h : evalExprs I row (xs ++ ys) = some out) :
    ∃ a b, evalExprs I row xs = some a ∧ evalExprs I row ys = some b ∧ out = a ++ b := by
  induction xs generalizing out with
  | nil => exact ⟨[], out, rfl, h, rfl⟩
  | cons x xs ih =>
    obtain ⟨v, vs, hv, hvs, rfl⟩ := evalExprs_cons_eq_some.mp h
    obtain ⟨a, b, ha, hb, rfl⟩ := ih hvs
    exact ⟨(x.name, v) :: a, b, evalExprs_cons_eq_some.mpr ⟨v, a, hv, ha, rfl⟩, hb, rfl⟩

theorem evalExprs_keys {exprs : List Expr} {out : List (String × Int)}
    (h : evalExprs I row exprs = some out) : out.map Prod.fst = exprs.map Expr.name := by
  induction exprs generalizing out with
  | nil => cases h; rfl
  | cons e es ih =>
    obtain ⟨v, vs, -, hvs, rfl⟩ := evalExprs_cons_eq_some.mp h
    simp [ih hvs]

theorem evalExprs_lookup {exprs : List Expr} {out : List (String × Int)}
    (h : evalExprs I row exprs = some out) (n : String) :
    out.lookup n = (exprs.find? (·.name == n)).bind (·.eval I row) := by
  induction exprs generalizing out with
  | nil => cases h; rfl
  | cons e es ih =>
    obtain ⟨v, vs, hv, hvs, rfl⟩ := evalExprs_cons_eq_some.mp h
    by_cases hn : e.name = n
    · subst hn
      simp [List.lookup_cons, List.find?_cons, hv]
    · have h1 : (n == e.name) = false := beq_eq_false_iff_ne.mpr (Ne.symm hn)
      have h2 : (e.name == n) = false := beq_eq_false_iff_ne.mpr hn
      simp only [List.lookup_cons, List.find?_cons, h1, h2, ih hvs]

theorem lookup_eq_none_of_not_mem {n : String} (h : n ∉ row.map Prod.fst) : row.lookup n = none :=
  List.lookup_eq_none_iff.mpr fun _ hp => bne_iff_ne.mpr fun h' => h (h' ▸ List.mem_map_of_mem _ hp)

theorem isSome_lookup_of_mem {n : String} (h : n ∈ row.map Prod.fst) : (row.lookup n).isSome := by
  obtain ⟨p, hp, rfl⟩ := List.mem_map.mp h
  exact List.lookup_isSome_iff.mpr ⟨p, hp, beq_self_eq_true _⟩

theorem evalExprs_isSome : ∀ {es : List Expr}, (∀ e ∈ es, (e.eval I row).isSome) →
    ∃ out, evalExprs I row es = some out
  | [], _ => ⟨[], rfl⟩
  | e :: es, h => by
    obtain ⟨v, hv⟩ := Option.isSome_iff_exists.mp (h e (List.mem_cons_self _ _))
    obtain ⟨vs, hvs⟩ := evalExprs_isSome fun x hx => h x (List.mem_cons_of_mem _ hx)
    exact ⟨_, evalExprs_cons_eq_some.mpr ⟨v, vs, hv, hvs, rfl⟩⟩

theorem evalExprs_congr {row' : List (String × Int)} :
    ∀ {es es' : List Expr}, List.Forall₂ (fun e e' => e.name = e'.name ∧ e.eval I row = e'.eval I row') es es' →
      evalExprs I row es = evalExprs I row' es'
  | [], [], .nil => rfl
  | _ :: _, _ :: _, .cons ⟨hn, hv⟩ hs => by simp only [evalExprs, hn, hv, evalExprs_congr hs]

theorem bind_find?_columns (n : String) :
    ∀ names : List String, ((names.map Expr.column).find? (·.name == n)).bind (·.eval I row) =
      if n ∈ names then row.lookup n else none
  | [] => rfl
  | m :: names => by
    by_cases hm : m = n
    · subst hm; simp [Expr.eval]
    · have hm' : (m == n) = false := beq_eq_false_iff_ne.mpr hm
      simp only [List.map_cons, List.find?_cons, Expr.name_column, hm', bind_find?_columns n names,
        List.mem_cons, Ne.symm hm, false_or]

theorem evalExprs_passthrough_isSome {p : String → Bool} {tail : List Expr}
    (h : ∀ e ∈ tail, (e.eval I row).isSome) :
    ∃ out, evalExprs I row (((row.map Prod.fst).filter p).map Expr.column ++ tail) = some out :=
  evalExprs_isSome fun e he => by
    rcases List.mem_append.mp he with he | he
    · obtain ⟨m, hm, rfl⟩ := List.mem_map.mp he
      exact isSome_lookup_of_mem (List.mem_filter.mp hm).1
    · exact h e he

theorem lookup_evalExprs_passthrough {p : String → Bool} {tail : List Expr} {out : List (String × Int)}
    (htail : ∀ e ∈ tail, p e.name = false)
    (h : evalExprs I row (((row.map Prod.fst).filter p).map Expr.column ++ tail) = some out)
    (n : String) :
    out.lookup n = if p n then row.lookup n else (tail.find? (·.name == n)).bind (·.eval I row) := by
  obtain ⟨a, b, ha, hb, rfl⟩ := evalExprs_append h
  rw [List.lookup_append, evalExprs_lookup ha, bind_find?_columns, evalExprs_lookup hb]
  simp only [List.mem_filter]
  cases hp : p n
  · simp
  · have hnone : tail.find? (·.name == n) = none :=
      List.find?_eq_none.mpr fun e he hn => by
        have := htail e he
        rw [beq_iff_eq.mp hn, hp] at this
        cases this
    by_cases hn : n ∈ row.map Prod.fst
    · simp [hn, hnone]
    · simp [hn, hnone, lookup_eq_none_of_not_mem hn]

end EvalExprs

theorem LogicalPlan.eval_keys (I : Interpretation) (input : List (String × Int)) :
    ∀ {p : LogicalPlan} {row : List (String × Int)}, p.eval I input = some row →
      row.map Prod.fst = p.schema
  | .source s, _, h => by
    have h := evalExprs_keys (show evalExprs I input (s.map Expr.column) = some _ from h)
    simpa [schema, Function.comp_def] using h
  | .project child projection, _, h => by
    obtain ⟨r, -, h⟩ := Option.bind_eq_some.mp (by simpa only [eval, Option.bind_eq_bind] using h)
    exact evalExprs_keys h
  | .udfProject child u pass, _, h => by
    obtain ⟨r, -, h⟩ := Option.bind_eq_some.mp (by simpa only [eval, Option.bind_eq_bind] using h)
    simpa [schema] using evalExprs_keys h
  | .unary op s child, _, h => by
    obtain ⟨r, -, h⟩ := Option.bind_eq_some.mp (by simpa only [eval, Option.bind_eq_bind] using h)
    exact I.unary_schema _ _ _ _ h
  | .binary op s left right, _, h => by
    obtain ⟨l, -, h⟩ := Option.bind_eq_some.mp (by simpa only [eval, Option.bind_eq_bind] using h)
    obtain ⟨r, -, h⟩ := Option.bind_eq_some.mp h
    exact I.binary_schema _ _ _ _ _ h

namespace LogicalPlan

/-- Two plans produce the same row from every input row, under every interpretation. -/
def Equiv (p q : LogicalPlan) : Prop := ∀ I x, p.eval I x = q.eval I x

theorem Equiv.trans {p q r : LogicalPlan} (h1 : p.Equiv q) (h2 : q.Equiv r) : p.Equiv r :=
  fun I x => (h1 I x).trans (h2 I x)

theorem equiv_withNewChildren :
    ∀ (p : LogicalPlan) {cs : List LogicalPlan}, List.Forall₂ Equiv cs p.children →
      (p.withNewChildren cs).Equiv p
  | source _, _, _ => fun _ _ => rfl
  | project .., _ :: _, .cons h _ | udfProject .., _ :: _, .cons h _ | unary .., _ :: _, .cons h _ =>
    fun I x => by simp only [withNewChildren, eval, h I x]
  | binary .., _ :: _ :: _, .cons h (.cons h' _) => fun I x => by
    simp only [withNewChildren, eval, h I x, h' I x]

end LogicalPlan

theorem transformDown_equiv {f : LogicalPlan → Except DaftError (Transformed LogicalPlan)}
    {G : LogicalPlan → Prop}
    (hf : ∀ node t, f node = .ok t → (∀ q ∈ node.subtrees, G q) → t.data.Equiv node)
    (hG : ∀ node t, f node = .ok t → (∀ q ∈ node.subtrees, G q) → ∀ q ∈ t.data.subtrees, G q)
    {fuel : Nat} {node : LogicalPlan} {r : Transformed LogicalPlan} (hn : ∀ q ∈ node.subtrees, G q)
    (h : transformDown f fuel node = .ok r) : r.data.Equiv node :=
  transformDown_rel LogicalPlan.equiv_withNewChildren LogicalPlan.Equiv.trans hf hG hn h

end Daft
