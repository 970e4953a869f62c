import Daft.Plan.TransformDown
import Daft.SplitUdfs.Split

/-! # What one rewrite of a projection returns

A successful `recursive_optimize_project` reports its plan unchanged when no expression has a UDF
before a `list_map`, and otherwise returns the final selection over the chain `buildStages` puts
on the input or the recursion's result (`recursiveOptimizeProject_eq_ok`, `buildStages_eq_ok`).
-/
namespace Daft.SplitUdfs
open Expr

@[simp] theorem unresolvedColumn_map_entryAlias (schema : List String) (exprs : List Expr) :
    unresolvedColumn schema (exprs.map entryAlias) = unresolvedColumn schema exprs := by
  simp [unresolvedColumn, List.flatMap_map]

theorem tryOptimizeProject_eq_ok {projection : Project} {plan : LogicalPlan}
    {t : Transformed LogicalPlan} (h : tryOptimizeProject projection plan = .ok t) :
    unresolvedColumn projection.input.schema projection.projection = none ∧
      recursiveOptimizeProject (heightList (projection.projection.map entryAlias))
        ⟨projection.input, projection.projection.map entryAlias⟩ plan 0 = .ok t := by
  obtain ⟨ap, hap, h⟩ := except_bind_eq_ok.mp h
  obtain ⟨hu, rfl⟩ := Project.tryNew_eq_ok hap
  exact ⟨by simpa using hu, h⟩

theorem udfStages_cons_eq_ok {child u : LogicalPlan} {a : Expr} {stages : List Expr}
    (h : udfStages child (a :: stages) = .ok u) :
    unresolvedColumn child.schema (a :: (child.schema.map column).filter (·.name != a.name)) = none ∧
      udfStages (UdfProject.toPlan ⟨child, a, (child.schema.map column).filter (·.name != a.name)⟩)
        stages = .ok u := by
  obtain ⟨up, hup, h⟩ := except_bind_eq_ok.mp h
  obtain ⟨hres, rfl⟩ := UdfProject.tryNew_eq_ok hup
  exact ⟨hres, h⟩

theorem udfStages_onProjects {P : List String → List Expr → Prop} :
    ∀ {child u : LogicalPlan} {exprs : List Expr}, udfStages child exprs = .ok u →
      (∀ q ∈ child.subtrees, OnProjects P q) → ∀ q ∈ u.subtrees, OnProjects P q
  | _, _, [], h, hc => by cases h; exact hc
  | _, _, _ :: _, h, hc => by
    refine udfStages_onProjects (udfStages_cons_eq_ok h).2 fun q hq => ?_
    rcases List.mem_cons.mp hq with rfl | hq
    · trivial
    · exact hc q hq

theorem buildStages_eq_ok {projection : Project} {child : LogicalPlan} {truncated : List Expr}
    {t : Transformed LogicalPlan} (h : buildStages projection child truncated = .ok t) :
    ∃ u, unresolvedColumn child.schema
        (statelessPassthroughColumns child (truncated.filter (!existsSkipListMap · isUdf)) ++
          truncated.filter (!existsSkipListMap · isUdf)) = none ∧
      udfStages (.project child
        (statelessPassthroughColumns child (truncated.filter (!existsSkipListMap · isUdf)) ++
          truncated.filter (!existsSkipListMap · isUdf)))
        (truncated.filter (existsSkipListMap · isUdf)) = .ok u ∧
      unresolvedColumn u.schema (projection.projection.map (column ·.name)) = none ∧
      t = .yes (.project u (projection.projection.map (column ·.name))) := by
  simp only [buildStages, List.partition_eq_filter_filter] at h
  obtain ⟨pre, hpre, h1⟩ := except_bind_eq_ok.mp h
  obtain ⟨u, hu, h2⟩ := except_bind_eq_ok.mp h1
  obtain ⟨fs, hfs, h3⟩ := except_bind_eq_ok.mp h2
  obtain ⟨hres, rfl⟩ := Project.tryNew_eq_ok hfs
  obtain ⟨hpres, rfl⟩ := Project.tryNew_eq_ok hpre
  exact ⟨u, hpres, hu, hres, (Except.ok.inj h3).symm⟩

/-- The pre-project can fail on a plan that resolves: `TruncateAnyUDFChildren` records no column
at or below a `list_map`, so for `add(udf(col b), list_map(col a)) AS x` the stateless stage
reads `a`, which the recursion's result, selecting only the lifted UDF, does not produce. -/
theorem tryOptimize_listMap_column_not_found :
    unresolvedColumn ["a", "b"]
        [(function (.builtin 0) [function (.udf 0) [column "b"], function .listMap [column "a"]]).alias "x"] =
      none ∧
    tryOptimize 8 (.project (.source ["a", "b"])
        [(function (.builtin 0) [function (.udf 0) [column "b"], function .listMap [column "a"]]).alias "x"]) =
      .error (.fieldNotFound "a") :=
  ⟨rfl, rfl⟩

/-- `recursive_optimize_project` returns its plan unchanged in the base case, and otherwise
the chain built over the input, or over what the recursion on `remaining` returned. -/
theorem recursiveOptimizeProject_eq_ok {fuel : Nat} {projection : Project} {plan : LogicalPlan}
    {k : Nat} {t : Transformed LogicalPlan}
    (h : recursiveOptimizeProject fuel projection plan k = .ok t) :
    (t = .no plan ∧ ∀ e ∈ projection.projection, existsSkipListMap e isUdf = false) ∨
    ∃ truncated remaining child,
      splitProjection projection.projection k = .ok (truncated, remaining) ∧
      ((child = projection.input ∧ remaining.all isColumn = true) ∨ ∃ fuel' t', fuel = fuel' + 1 ∧
        unresolvedColumn projection.input.schema remaining = none ∧
        recursiveOptimizeProject fuel' ⟨projection.input, remaining⟩
          (.project projection.input remaining) (k + 1) = .ok t' ∧ child = t'.data) ∧
      buildStages projection child truncated = .ok t := by
  rw [recursiveOptimizeProject] at h
  split at h
  · next hbase =>
    exact .inl ⟨(Except.ok.inj h).symm, by simpa using hbase⟩
  · split at h
    · cases h
    · next truncated remaining hsplit =>
      obtain ⟨child, hchild, hb⟩ := except_bind_eq_ok.mp h
      refine .inr ⟨truncated, remaining, child, hsplit, ?_, hb⟩
      split at hchild
      · next hall => exact .inl ⟨(Except.ok.inj hchild).symm, hall⟩
      · obtain ⟨np, hnp, hrec⟩ := except_bind_eq_ok.mp hchild
        obtain ⟨hres, rfl⟩ := Project.tryNew_eq_ok hnp
        cases fuel with
        | zero => cases hrec
        | succ fuel' =>
          obtain ⟨t', ht', rfl⟩ := except_map_eq_ok.mp hrec
          exact .inr ⟨fuel', t', rfl, hres, ht', rfl⟩

theorem recursiveOptimizeProject_schema {fuel : Nat} {projection : Project} {plan : LogicalPlan}
    {k : Nat} {t : Transformed LogicalPlan} (h : recursiveOptimizeProject fuel projection plan k = .ok t) :
    t.data = plan ∨ t.data.schema = projection.projection.map Expr.name := by
  rcases recursiveOptimizeProject_eq_ok h with ⟨rfl, -⟩ | ⟨_, _, _, -, -, hb⟩
  · exact .inl rfl
  · obtain ⟨-, -, -, -, rfl⟩ := buildStages_eq_ok hb
    exact .inr (by simp [Transformed.yes, LogicalPlan.schema, Function.comp_def])

end Daft.SplitUdfs
