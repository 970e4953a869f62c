import Daft.SplitUdfs.Chain

/-! # Running `SplitUDFs` twice changes nothing

The rule's result for a `Project` is that `Project`, or a final selection of columns built by
`Project::try_new`: either way it resolves and has no UDF before a `list_map`. Every node of a
successful run's output is of this kind (`tryOptimize_nodeStable`), the rule reports each such
node unchanged, and a second run with the same fuel returns the plan as it is.
-/
namespace Daft.SplitUdfs
open Expr

/-- A node the rule leaves as it is: a `Project` that resolves against its input and has no
UDF before a `list_map`, or any other operator. -/
def NodeStable : LogicalPlan → Prop :=
  OnProjects fun schema projection => unresolvedColumn schema projection = none ∧
    ∀ e ∈ projection, existsSkipListMap e isUdf = false

theorem rule_schema {node : LogicalPlan} {t : Transformed LogicalPlan} (h : rule node = .ok t) :
    t.data.schema = node.schema := by
  cases node with
  | project input projection =>
    rcases recursiveOptimizeProject_schema (tryOptimizeProject_eq_ok h).2 with h | h <;> rw [h]
    simp [LogicalPlan.schema]
  | _ => cases h; rfl

theorem recursiveOptimizeProject_nodeStable {fuel k : Nat} {projection : Project} {plan : LogicalPlan}
    {t : Transformed LogicalPlan} (h : recursiveOptimizeProject fuel projection plan k = .ok t)
    (hplan : (∀ e ∈ projection.projection, existsSkipListMap e isUdf = false) → NodeStable plan) :
    NodeStable t.data := by
  rcases recursiveOptimizeProject_eq_ok h with ⟨rfl, hbase⟩ | ⟨_, _, _, -, -, hb⟩
  · exact hplan hbase
  · obtain ⟨u, -, -, hu, rfl⟩ := buildStages_eq_ok hb
    exact ⟨hu, by simp⟩

theorem rule_nodeStable {node : LogicalPlan} {t : Transformed LogicalPlan}
    (h : rule node = .ok t) : NodeStable t.data := by
  cases node with
  | project input projection =>
    obtain ⟨hres, h⟩ := tryOptimizeProject_eq_ok h
    exact recursiveOptimizeProject_nodeStable h fun hbase =>
      ⟨hres, fun e he => by simpa using hbase _ (List.mem_map_of_mem entryAlias he)⟩
  | _ => cases h; trivial

theorem rule_of_nodeStable {q : LogicalPlan} (h : NodeStable q) : rule q = .ok (.no q) := by
  cases q with
  | project input projection =>
    obtain ⟨hres, hs⟩ := h
    have hany : (projection.map entryAlias).any (existsSkipListMap · isUdf) = false := by
      simpa using hs
    simp only [rule, tryOptimizeProject, Project.tryNew, unresolvedColumn_map_entryAlias, hres,
      except_ok_bind]
    rw [recursiveOptimizeProject, hany]
    rfl
  | _ => rfl

theorem tryOptimize_nodeStable {fuel : Nat} {p : LogicalPlan} {r : Transformed LogicalPlan}
    (h : tryOptimize fuel p = .ok r) : ∀ q ∈ r.data.subtrees, NodeStable q :=
  transformDown_subtrees (fun _ _ => rule_schema) (fun _ _ => rule_nodeStable)
    (fun _ _ => onProjects_withNewChildren) h

/-- The spec's invariant fails: `exists_skip_list_map` ends its whole walk at a `list_map`, so for
`add(list_map(col a), udf(col b)) AS x` it finds no UDF, and the rule leaves in place a `Project`
whose UDF lies outside every `list_map` subtree, where `exists_skipping_list_map` finds it. -/
theorem tryOptimize_keeps_udf_after_listMap :
    tryOptimize 2 (.project (.source ["a", "b"])
        [(function (.builtin 0) [function .listMap [column "a"], function (.udf 0) [column "b"]]).alias "x"]) =
      .ok ⟨.project (.source ["a", "b"])
        [(function (.builtin 0) [function .listMap [column "a"], function (.udf 0) [column "b"]]).alias "x"],
        false⟩ ∧
    existsSkipListMap ((function (.builtin 0)
      [function .listMap [column "a"], function (.udf 0) [column "b"]]).alias "x") isUdf = false ∧
    existsSkippingListMap isUdf ((function (.builtin 0)
      [function .listMap [column "a"], function (.udf 0) [column "b"]]).alias "x") = true :=
  ⟨rfl, rfl, rfl⟩

/-- `SplitUDFs` is idempotent: a second run, with the fuel the first run had, returns the first
run's plan and reports it unchanged. -/
theorem tryOptimize_idempotent {fuel : Nat} {p : LogicalPlan} {r : Transformed LogicalPlan}
    (h : tryOptimize fuel p = .ok r) : tryOptimize fuel r.data = .ok ⟨r.data, false⟩ :=
  transformDown_of_no (fun q hq => rule_of_nodeStable (tryOptimize_nodeStable h q hq))
    (transformDown_depth h)

theorem tryOptimize_idempotent_udf_stage :
    tryOptimize 4 (.project (.source ["a", "b"])
        [(function (.udf 0) [column "a"]).alias "x", column "b"]) =
      .ok ⟨.project (.udfProject (.project (.source ["a", "b"]) [column "a", column "b"])
        ((function (.udf 0) [column "a"]).alias "x") [column "a", column "b"])
        [column "x", column "b"], true⟩ ∧
    tryOptimize 4 (.project (.udfProject (.project (.source ["a", "b"]) [column "a", column "b"])
        ((function (.udf 0) [column "a"]).alias "x") [column "a", column "b"])
        [column "x", column "b"]) =
      .ok ⟨.project (.udfProject (.project (.source ["a", "b"]) [column "a", column "b"])
        ((function (.udf 0) [column "a"]).alias "x") [column "a", column "b"])
        [column "x", column "b"], false⟩ :=
  ⟨rfl, @tryOptimize_idempotent 4 (.project (.source ["a", "b"])
    [(function (.udf 0) [column "a"]).alias "x", column "b"]) ⟨_, true⟩ rfl⟩

end Daft.SplitUdfs
