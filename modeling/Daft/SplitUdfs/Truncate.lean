import Daft.Dsl.TreeNode
import Daft.Plan.LogicalPlan

/-! # The two truncating rewriters of `split_udfs.rs`

`TruncateRootUDF` lifts every input that computes something of the UDF its alias chain ends at;
`TruncateAnyUDFChildren` lifts every UDF child of the nodes it walks until it meets a `list_map`.
Both record the columns they meet. Each is the pre-order walk `rewrite` drives: the arm of
`f_down` for a node, then the walk of the children that arm returned.
-/
namespace Daft.SplitUdfs
open Expr

/-- `exists_skip_list_map`: the walk ends at the first `list_map` it meets, or at the first
node satisfying `f`, and reports whether it ended on the latter. -/
def existsSkipListMap (expr : Expr) (f : Expr → Bool) : Bool :=
  (expr.apply (fun found n =>
    if n.isListMap then (found, .stop) else if f n then (true, .stop) else (found, .continue))
    false).1

/-- `is_udf_and_should_truncate_children`: the alias chain at the root ends at a UDF. -/
def isUdfAndShouldTruncateChildren (expr : Expr) : Bool :=
  (expr.apply (fun cond e => match e with
    | .alias .. => (cond, .continue)
    | _ => if e.isUdf then (cond, .stop) else (false, .stop)) true).1

def anyBeforeListMap (f : Expr → Bool) : List Expr → Bool
  | [] => false
  | n :: ns => !n.isListMap && (f n || anyBeforeListMap f ns)

@[simp] theorem anyBeforeListMap_nil (f : Expr → Bool) : anyBeforeListMap f [] = false := rfl

theorem anyBeforeListMap_cons (f : Expr → Bool) (n : Expr) (ns : List Expr) :
    anyBeforeListMap f (n :: ns) = (!n.isListMap && (f n || anyBeforeListMap f ns)) := rfl

theorem anyBeforeListMap_append (f : Expr → Bool) (xs ys : List Expr) :
    anyBeforeListMap f (xs ++ ys) =
      (anyBeforeListMap f xs || (!xs.any isListMap && anyBeforeListMap f ys)) := by
  induction xs with
  | nil => simp
  | cons x xs ih => cases h : x.isListMap <;> simp [anyBeforeListMap_cons, ih, h, Bool.or_assoc]

private theorem scan_existsSkipListMap (f : Expr → Bool) :
    ∀ ns : List Expr, (scan (fun found n =>
      if n.isListMap then (found, .stop) else if f n then (true, .stop) else (found, .continue))
      false ns).1 = anyBeforeListMap f ns
  | [] => rfl
  | n :: ns => by
    cases h1 : n.isListMap <;> cases h2 : f n <;>
      simp [scan_cons, anyBeforeListMap_cons, h1, h2, scan_existsSkipListMap f ns]

theorem existsSkipListMap_eq (e : Expr) (f : Expr → Bool) :
    existsSkipListMap e f = anyBeforeListMap f e.preorder := by
  rw [existsSkipListMap, apply_eq_scan (fun s n => by cases n.isListMap <;> cases f n <;> simp),
    scan_existsSkipListMap]

@[simp] theorem existsSkipListMap_alias (e : Expr) (n : String) (f : Expr → Bool) :
    existsSkipListMap (e.alias n) f = (f (e.alias n) || existsSkipListMap e f) := by
  simp [existsSkipListMap_eq, anyBeforeListMap_cons]

@[simp] theorem existsSkipListMap_column (n : String) :
    existsSkipListMap (column n) isUdf = false := rfl

mutual
/-- Modelled from the spec: `exists_skipping_list_map(e, pred)`, which does not visit the subtree
of a `list_map` and goes on with the rest of the tree. -/
def existsSkippingListMap (f : Expr → Bool) : Expr → Bool
  | column n => f (column n)
  | literal v => f (literal v)
  | .alias e n => f (e.alias n) || existsSkippingListMap f e
  | function .listMap _ => false
  | function (.builtin b) inputs =>
    f (function (.builtin b) inputs) || existsSkippingListMapList f inputs
  | function (.udf u) inputs => f (function (.udf u) inputs) || existsSkippingListMapList f inputs
def existsSkippingListMapList (f : Expr → Bool) : List Expr → Bool
  | [] => false
  | e :: es => existsSkippingListMap f e || existsSkippingListMapList f es
end

mutual
theorem existsSkippingListMap_of_anyBeforeListMap {f : Expr → Bool} :
    ∀ {e : Expr}, anyBeforeListMap f e.preorder = true → existsSkippingListMap f e = true
  | column _, h | literal _, h => by
    simpa [preorder, anyBeforeListMap_cons, existsSkippingListMap, Expr.isListMap] using h
  | .alias e n, h => by
    simp only [preorder_alias, anyBeforeListMap_cons, isListMap_alias, Bool.not_false,
      Bool.true_and, Bool.or_eq_true] at h
    simp only [existsSkippingListMap, Bool.or_eq_true]
    exact h.imp_right existsSkippingListMap_of_anyBeforeListMap
  | function .listMap _, h => by simp [preorder_function, anyBeforeListMap_cons, Expr.isListMap] at h
  | function (.builtin _) _, h | function (.udf _) _, h => by
    simp only [preorder_function, anyBeforeListMap_cons, Expr.isListMap, Bool.not_false,
      Bool.true_and, Bool.or_eq_true] at h
    simp only [existsSkippingListMap, Bool.or_eq_true]
    exact h.imp_right existsSkippingListMapList_of_anyBeforeListMap
theorem existsSkippingListMapList_of_anyBeforeListMap {f : Expr → Bool} :
    ∀ {es : List Expr}, anyBeforeListMap f (preorderList es) = true →
      existsSkippingListMapList f es = true
  | [], h => by simp at h
  | e :: es, h => by
    simp only [preorderList_cons, anyBeforeListMap_append, Bool.or_eq_true, Bool.and_eq_true] at h
    simp only [existsSkippingListMapList, Bool.or_eq_true]
    exact h.imp existsSkippingListMap_of_anyBeforeListMap
      fun h => existsSkippingListMapList_of_anyBeforeListMap h.2
end

/-- What the code's walk finds the spec's walk finds too; the converse fails once a `list_map`
comes before a UDF outside its subtree, since the code's walk stops there. -/
theorem existsSkippingListMap_of_existsSkipListMap {e : Expr} {f : Expr → Bool}
    (h : existsSkipListMap e f = true) : existsSkippingListMap f e = true :=
  existsSkippingListMap_of_anyBeforeListMap (existsSkipListMap_eq e f ▸ h)

@[simp] theorem isUdfAndShouldTruncateChildren_alias (e : Expr) (n : String) :
    isUdfAndShouldTruncateChildren (e.alias n) = isUdfAndShouldTruncateChildren e := rfl

theorem isUdfAndShouldTruncateChildren_function (f : Func) (inputs : List Expr) :
    isUdfAndShouldTruncateChildren (function f inputs) = (function f inputs).isUdf := by
  cases f <;> rfl

theorem isUdf_eq_false_of_isUdfAndShouldTruncateChildren {e : Expr}
    (h : isUdfAndShouldTruncateChildren e = false) : e.isUdf = false := by
  cases e with
  | function f inputs => rwa [isUdfAndShouldTruncateChildren_function] at h
  | _ => rfl

/-- The name `__{rewriter}_{stage}-{expr}-{k}__` of a lifted child. -/
def intermediateName (rewriter : String) (stageIdx exprIdx k : Nat) : String :=
  "__" ++ rewriter ++ "_" ++ toString stageIdx ++ "-" ++ toString exprIdx ++ "-" ++ toString k ++
    "__"

/-- The column arm of both rewriters: the column joins `new_children` unless an entry of that
name is already there. -/
def pushColumn (newChildren : List Expr) (name : String) : List Expr :=
  if (newChildren.map Expr.name).contains name then newChildren else newChildren ++ [column name]

/-- The loop both rewriters run over a node's children: each child `lift` selects is pushed to
`new_children`, aliased to the next intermediate name of `rewriter`, and replaced by a column of
that name; the others are kept. Returns the new `new_children` and the new children. -/
def liftChildren (lift : Expr → Bool) (rewriter : String) (stageIdx exprIdx : Nat) :
    List Expr → Nat → List Expr → List Expr × List Expr
  | newChildren, _, [] => (newChildren, [])
  | newChildren, k, e :: es =>
    if lift e then
      let n := intermediateName rewriter stageIdx exprIdx k
      Prod.map id (column n :: ·)
        (liftChildren lift rewriter stageIdx exprIdx (newChildren ++ [e.alias n]) (k + 1) es)
    else Prod.map id (e :: ·) (liftChildren lift rewriter stageIdx exprIdx newChildren k es)

structure TruncateRootUdf where
  newChildren : List Expr
  stageIdx : Nat
  exprIdx : Nat

namespace TruncateRootUdf

def new (stageIdx exprIdx : Nat) : TruncateRootUdf := ⟨[], stageIdx, exprIdx⟩

def visitColumn (r : TruncateRootUdf) (name : String) : TruncateRootUdf :=
  { r with newChildren := pushColumn r.newChildren name }

/-- The UDF arm: each input that requires computation is pushed, aliased to the next
intermediate name, and replaced by a column of that name. -/
def truncateInputs (r : TruncateRootUdf) (k : Nat) (es : List Expr) : TruncateRootUdf × List Expr :=
  Prod.map (fun newChildren => { r with newChildren }) id
    (liftChildren requiresComputation "TruncateRootUDF" r.stageIdx r.exprIdx r.newChildren k es)

mutual
/-- `expr.rewrite(&mut TruncateRootUDF)`. A column is recorded; a UDF has its inputs truncated
and the new inputs are walked; `list_map` and every other node are kept and their children
walked. -/
def rewrite (r : TruncateRootUdf) : Expr → TruncateRootUdf × Expr
  | column n => (r.visitColumn n, column n)
  | literal v => (r, literal v)
  | .alias e n => Prod.map id (·.alias n) (rewrite r e)
  | function .listMap inputs => Prod.map id (function .listMap) (rewriteList r inputs)
  | function (.builtin b) inputs => Prod.map id (function (.builtin b)) (rewriteList r inputs)
  | function (.udf u) inputs =>
    match truncateInputs r 0 inputs with
    | (r', news) => Prod.map id (function (.udf u)) (rewriteNew r' inputs news)
def rewriteList (r : TruncateRootUdf) : List Expr → TruncateRootUdf × List Expr
  | [] => (r, [])
  | e :: es =>
    match rewrite r e with
    | (r', e') => Prod.map id (e' :: ·) (rewriteList r' es)
/-- The walk of a truncated UDF's new inputs `ns`: a lifted input is now a column, met by the
column arm; a kept input is walked. -/
def rewriteNew (r : TruncateRootUdf) : List Expr → List Expr → TruncateRootUdf × List Expr
  | e :: es, n :: ns =>
    match (if e.requiresComputation then (r.visitColumn n.name, n) else rewrite r e) with
    | (r', n') => Prod.map id (n' :: ·) (rewriteNew r' es ns)
  | [], _ => (r, [])
  | _ :: _, [] => (r, [])
end

end TruncateRootUdf

structure TruncateAnyUdfChildren where
  newChildren : List Expr
  stageIdx : Nat
  exprIdx : Nat
  isListMap : Bool

namespace TruncateAnyUdfChildren

def new (stageIdx exprIdx : Nat) : TruncateAnyUdfChildren := ⟨[], stageIdx, exprIdx, false⟩

/-- The column arm, which an earlier `list_map` switches off. -/
def visitColumn (r : TruncateAnyUdfChildren) (name : String) : TruncateAnyUdfChildren :=
  if r.isListMap then r else { r with newChildren := pushColumn r.newChildren name }

/-- The last arm: each UDF child is pushed, aliased to the next intermediate name, and
replaced by a column of that name. The counter starts again at 0 for every node. -/
def truncateInputs (r : TruncateAnyUdfChildren) (k : Nat) (es : List Expr) :
    TruncateAnyUdfChildren × List Expr :=
  Prod.map (fun newChildren => { r with newChildren }) id
    (liftChildren isUdf "TruncateAnyUDFChildren" r.stageIdx r.exprIdx r.newChildren k es)

def unreachableUdf : DaftError :=
  .unreachable "TruncateAnyUDFChildren should never run on a UDF expression"

mutual
/-- `expr.rewrite(&mut TruncateAnyUDFChildren)`. Once `is_list_map` is set every node is kept.
Before that a UDF is the `unreachable!` arm, a column is recorded, `list_map` sets the flag,
and any other node with UDF children has them truncated and its new children walked. -/
def rewrite (r : TruncateAnyUdfChildren) :
    Expr → Except DaftError (TruncateAnyUdfChildren × Expr)
  | column n => .ok (r.visitColumn n, column n)
  | literal v => .ok (r, literal v)
  | .alias e n =>
    if !r.isListMap && e.isUdf then
      let c := intermediateName "TruncateAnyUDFChildren" r.stageIdx r.exprIdx 0
      .ok ({ r with newChildren := r.newChildren ++ [e.alias c] }.visitColumn c, (column c).alias n)
    else Prod.map id (·.alias n) <$> rewrite r e
  | function f inputs =>
    if r.isListMap then Prod.map id (function f) <$> rewriteList r inputs
    else match f with
      | .udf _ => .error unreachableUdf
      | .listMap => Prod.map id (function .listMap) <$> rewriteList { r with isListMap := true } inputs
      | .builtin b =>
        if inputs.any isUdf then
          match truncateInputs r 0 inputs with
          | (r', news) => Prod.map id (function (.builtin b)) <$> rewriteNew r' inputs news
        else Prod.map id (function (.builtin b)) <$> rewriteList r inputs
def rewriteList (r : TruncateAnyUdfChildren) :
    List Expr → Except DaftError (TruncateAnyUdfChildren × List Expr)
  | [] => .ok (r, [])
  | e :: es => do
    let (r', e') ← rewrite r e
    Prod.map id (e' :: ·) <$> rewriteList r' es
/-- The walk of a node's new children `ns`: a lifted UDF child is now a column, met by the
column arm; a kept child is walked. -/
def rewriteNew (r : TruncateAnyUdfChildren) :
    List Expr → List Expr → Except DaftError (TruncateAnyUdfChildren × List Expr)
  | e :: es, n :: ns => do
    let (r', n') ← if e.isUdf then .ok (r.visitColumn n.name, n) else rewrite r e
    Prod.map id (n' :: ·) <$> rewriteNew r' es ns
  | [], _ => .ok (r, [])
  | _ :: _, [] => .ok (r, [])
end

end TruncateAnyUdfChildren

end Daft.SplitUdfs
