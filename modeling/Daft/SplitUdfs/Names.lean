import Mathlib.Data.List.Nodup
import Daft.SplitUdfs.StageShape

/-! # Names of lifted entries

`split_projection` keeps one truncated expression per entry (`splitProjection_length`) and merges
lifted entries by name, first name wins (`splitProjection_remaining_nodup`). The counter `k` of
`__{rewriter}_{stage}-{expr}-{k}__` restarts at each truncated node, so two nodes of one
expression that lift a UDF child share a name: the merge drops the second, and what it computed.
-/
namespace Daft.SplitUdfs
open Expr

namespace SplitState

/-- `new_children_seen` holds exactly the names of `new_children`, each once. -/
def NamesDistinct (st : SplitState) : Prop :=
  st.newChildrenSeen = st.newChildren.map Expr.name ∧ (st.newChildren.map Expr.name).Nodup

theorem NamesDistinct.merge {st : SplitState} (h : st.NamesDistinct) (cs : List Expr) :
    (st.merge cs).NamesDistinct := by
  induction cs generalizing st with
  | nil => exact h
  | cons c cs ih =>
    refine ih ?_
    split
    · exact h
    · next hc =>
      obtain ⟨h1, h2⟩ := h
      rw [h1] at hc
      refine ⟨by simp [h1], ?_⟩
      rw [List.map_append, List.map_singleton, ← List.concat_eq_append]
      exact h2.concat (by simpa using hc)

@[simp] theorem namesDistinct_pushTruncated (st : SplitState) (e : Expr) :
    (st.pushTruncated e).NamesDistinct ↔ st.NamesDistinct := Iff.rfl

end SplitState

theorem splitStep_namesDistinct {stageIdx exprIdx : Nat} {st st' : SplitState} {e : Expr}
    (hst : st.NamesDistinct) (h : splitStep stageIdx st exprIdx e = .ok st') : st'.NamesDistinct := by
  obtain ⟨t, added, -, rfl⟩ := splitStep_eq_ok h
  exact (SplitState.namesDistinct_pushTruncated _ _ |>.mpr hst).merge _

theorem splitLoop_namesDistinct {stageIdx : Nat} :
    ∀ {st st' : SplitState} {exprIdx : Nat} {exprs : List Expr}, st.NamesDistinct →
      splitLoop stageIdx st exprIdx exprs = .ok st' → st'.NamesDistinct
  | _, _, _, [], hst, h => by cases h; exact hst
  | _, _, _, _ :: _, hst, h => by
    obtain ⟨st1, h1, h2⟩ := except_bind_eq_ok.mp h
    exact splitLoop_namesDistinct (splitStep_namesDistinct hst h1) h2

/-- The entries of `remaining` have pairwise distinct names. -/
theorem splitProjection_remaining_nodup {projection truncated remaining : List Expr}
    {stageIdx : Nat} (h : splitProjection projection stageIdx = .ok (truncated, remaining)) :
    (remaining.map Expr.name).Nodup := by
  obtain ⟨st, h1, h2⟩ := except_map_eq_ok.mp h
  simp only [Prod.mk.injEq] at h2
  exact h2.2 ▸ (splitLoop_namesDistinct
    (show SplitState.NamesDistinct ⟨[], [], []⟩ from ⟨rfl, List.nodup_nil⟩) h1).2

theorem splitProjection_remaining_nodup_two_udfs :
    ∃ truncated remaining, splitProjection
        [(function (.builtin 0) [function (.udf 0) [column "a"], function (.udf 1) [column "b"]]).alias "x"] 0 =
      .ok (truncated, remaining) ∧ remaining.length = 2 ∧ (remaining.map Expr.name).Nodup :=
  ⟨_, _, rfl, rfl, @splitProjection_remaining_nodup
    [(function (.builtin 0) [function (.udf 0) [column "a"], function (.udf 1) [column "b"]]).alias "x"] _ _ 0 rfl⟩

theorem splitLoop_truncated_length {stageIdx : Nat} :
    ∀ {st st' : SplitState} {exprIdx : Nat} {exprs : List Expr},
      splitLoop stageIdx st exprIdx exprs = .ok st' →
      st'.truncatedExprs.length = st.truncatedExprs.length + exprs.length
  | _, _, _, [], h => by cases h; rfl
  | _, _, _, _ :: _, h => by
    obtain ⟨st1, h1, h2⟩ := except_bind_eq_ok.mp h
    obtain ⟨t, ht, -⟩ := splitStep_truncated h1
    rw [splitLoop_truncated_length h2, ht]
    simp only [List.length_append, List.length_cons, List.length_nil]
    omega

theorem splitProjection_length {projection truncated remaining : List Expr} {stageIdx : Nat}
    (h : splitProjection projection stageIdx = .ok (truncated, remaining)) :
    truncated.length = projection.length := by
  obtain ⟨st, h1, h2⟩ := except_map_eq_ok.mp h
  simp only [Prod.mk.injEq] at h2
  simpa [← h2.1] using splitLoop_truncated_length h1

/-- The bindings `N ↦ c` of the lifted entries `Alias(c, N)` of `remaining`. -/
def liftedBindings (remaining : List Expr) : List (String × Expr) :=
  remaining.filterMap fun
    | .alias c n => some (n, c)
    | _ => none

mutual
/-- Puts back, for each column that `σ` binds, the expression lifted under that name. -/
def substitute (σ : List (String × Expr)) : Expr → Expr
  | column n => (σ.lookup n).getD (column n)
  | literal v => literal v
  | .alias e n => (substitute σ e).alias n
  | function f inputs => function f (substituteList σ inputs)
def substituteList (σ : List (String × Expr)) : List Expr → List Expr
  | [] => []
  | e :: es => substitute σ e :: substituteList σ es
end

/-- The two UDF children of `add(neg(udf0(col a)), neg(udf1(col b)))` sit under different nodes,
so both are lifted as `__TruncateAnyUDFChildren_0-0-0__`; the merge keeps the first, and putting
the lifted entries back gives `add(neg(udf0(col a)), neg(udf0(col a)))`. -/
theorem splitProjection_lifted_name_collision :
    splitProjection [(function (.builtin 0) [function (.builtin 1) [function (.udf 0) [column "a"]],
        function (.builtin 1) [function (.udf 1) [column "b"]]]).alias "x"] 0 =
      .ok ([(function (.builtin 0) [function (.builtin 1) [column "__TruncateAnyUDFChildren_0-0-0__"],
          function (.builtin 1) [column "__TruncateAnyUDFChildren_0-0-0__"]]).alias "x"],
        [(function (.udf 0) [column "a"]).alias "__TruncateAnyUDFChildren_0-0-0__"]) ∧
    substitute (liftedBindings [(function (.udf 0) [column "a"]).alias "__TruncateAnyUDFChildren_0-0-0__"])
        ((function (.builtin 0) [function (.builtin 1) [column "__TruncateAnyUDFChildren_0-0-0__"],
          function (.builtin 1) [column "__TruncateAnyUDFChildren_0-0-0__"]]).alias "x") ≠
      (function (.builtin 0) [function (.builtin 1) [function (.udf 0) [column "a"]],
        function (.builtin 1) [function (.udf 1) [column "b"]]]).alias "x" :=
  ⟨rfl, by decide⟩

/-- The UDF a stage expression applies, under its aliases. -/
def rootUdfId : Expr → Option Nat
  | .alias e _ => rootUdfId e
  | function (.udf u) _ => some u
  | _ => none

mutual
/-- The UDFs an expression calls outside every `list_map` subtree, in pre-order. -/
def udfIdsSkippingListMap : Expr → List Nat
  | column _ | literal _ => []
  | .alias e _ => udfIdsSkippingListMap e
  | function .listMap _ => []
  | function (.builtin _) inputs => udfIdsSkippingListMapList inputs
  | function (.udf u) inputs => u :: udfIdsSkippingListMapList inputs
def udfIdsSkippingListMapList : List Expr → List Nat
  | [] => []
  | e :: es => udfIdsSkippingListMap e ++ udfIdsSkippingListMapList es
end

/-- The projection `add(neg(udf0(col a)), neg(udf1(col b))) AS x` calls two UDFs, and the plan
built for it has a stage for `udf0` only: `udf1` is evaluated nowhere. -/
theorem tryOptimize_drops_colliding_udf :
    udfIdsSkippingListMap ((function (.builtin 0) [function (.builtin 1) [function (.udf 0) [column "a"]],
        function (.builtin 1) [function (.udf 1) [column "b"]]]).alias "x") = [0, 1] ∧
    ∃ r, tryOptimize 8 (.project (.source ["a", "b"])
        [(function (.builtin 0) [function (.builtin 1) [function (.udf 0) [column "a"]],
          function (.builtin 1) [function (.udf 1) [column "b"]]]).alias "x"]) = .ok r ∧
      (udfProjectHeaders r.data).filterMap (rootUdfId ·.1) = [0] :=
  ⟨rfl, _, rfl, rfl⟩

def nodeExprs : LogicalPlan → List Expr
  | .project _ projection => projection
  | .udfProject _ project passthroughColumns => project :: passthroughColumns
  | _ => []

def planExprs (p : LogicalPlan) : List Expr := p.subtrees.flatMap nodeExprs

/-- When the dropped entry holds a `list_map`, the `list_map` is gone: `list_map(col b)` under
`udf1` in `add(neg(udf0(col a)), neg(udf1(list_map(col b))))` occurs in no expression of the
output. -/
theorem tryOptimize_loses_listMap :
    ∃ r, tryOptimize 8 (.project (.source ["a", "b"])
        [(function (.builtin 0) [function (.builtin 1) [function (.udf 0) [column "a"]],
          function (.builtin 1) [function (.udf 1) [function .listMap [column "b"]]]]).alias "x"]) =
        .ok r ∧
      ∀ e ∈ planExprs r.data, function .listMap [column "b"] ∉ e.preorder :=
  ⟨_, rfl, by decide⟩

end Daft.SplitUdfs
