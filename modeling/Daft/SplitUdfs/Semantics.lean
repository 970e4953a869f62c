import Daft.Plan.Eval
import Daft.SplitUdfs.Chain

/-! # What the rewritten plan computes

The stateless `Project` of the chain keeps only the child's columns that no stateless stage
names (`eval_statelessProject_shadows`), so a UDF argument naming an input column that a
stateless stage shadows reads the stage's value instead of the input's.
-/
namespace Daft.SplitUdfs
open Expr

theorem find?_statelessPassthroughColumns_eq_none {child : LogicalPlan} {stateless : List Expr}
    {n : String} (hn : n ∈ stateless.map Expr.name) :
    (statelessPassthroughColumns child stateless).find? (·.name == n) = none := by
  refine List.find?_eq_none.mpr fun x hx => ?_
  obtain ⟨m, -, hm⟩ := List.mem_filterMap.mp hx
  by_cases hs : (stateless.map Expr.name).contains m = true
  · rw [if_pos hs] at hm
    cases hm
  · simp only [hs, Bool.false_eq_true, ite_false, Option.some.injEq] at hm
    subst hm
    rintro h
    rw [name_column, beq_iff_eq] at h
    subst h
    exact hs (List.elem_eq_true_of_mem hn)

theorem eval_statelessProject_shadows {I : Interpretation} {input row out : List (String × Int)}
    {child : LogicalPlan} {stateless : List Expr} {n : String}
    (hrow : child.eval I input = some row)
    (h : (LogicalPlan.project child (statelessPassthroughColumns child stateless ++ stateless)).eval
      I input = some out)
    (hn : n ∈ stateless.map Expr.name) :
    out.lookup n = (stateless.find? (·.name == n)).bind (·.eval I row) := by
  simp only [LogicalPlan.eval, hrow, Option.bind_eq_bind, Option.some_bind] at h
  rw [evalExprs_lookup h, List.find?_append, find?_statelessPassthroughColumns_eq_none hn,
    Option.none_or]

/-- `[col a + 1 AS a, udf(col a) AS b]` over `[a]` resolves and has distinct names, but the
stateless stage `col a + 1 AS a` shadows `a` in the pre-project, and the UDF stage reads it:
with every function the sum of its arguments and `a = 1`, the projection gives `b = 1` and the
rewritten plan `b = 2`. -/
theorem tryOptimize_udf_reads_shadowed_column :
    unresolvedColumn ["a"]
        [(function (.builtin 0) [column "a", literal 1]).alias "a", (function (.udf 0) [column "a"]).alias "b"] =
      none ∧
    ∃ (I : Interpretation) (r : Transformed LogicalPlan),
      tryOptimize 8 (.project (.source ["a"])
        [(function (.builtin 0) [column "a", literal 1]).alias "a", (function (.udf 0) [column "a"]).alias "b"]) =
        .ok r ∧
      LogicalPlan.eval I [("a", 1)] (.project (.source ["a"])
        [(function (.builtin 0) [column "a", literal 1]).alias "a", (function (.udf 0) [column "a"]).alias "b"]) =
        some [("a", 2), ("b", 1)] ∧
      r.data.eval I [("a", 1)] = some [("a", 2), ("b", 2)] :=
  ⟨rfl, ⟨fun _ args => args.sum, fun _ _ _ => none, fun _ _ _ _ => none, by simp, by simp⟩,
    _, rfl, rfl, rfl⟩

end Daft.SplitUdfs
