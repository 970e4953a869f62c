import Daft.SplitUdfs.Resolution

/-! # The pass finishes

Below a rewritten `Project`, `transform_down` meets only nodes the rule leaves as they are
(`recursiveOptimizeProject_settles`). So a node settles once its children do, and by induction
over the plan, on a plan whose `Project`s resolve and hold no `list_map`, enough fuel always gives
a result (`tryOptimize_terminates`).
-/
namespace Daft.SplitUdfs
open Expr

theorem settles_of_nodeStable {q : LogicalPlan} (hq : NodeStable q)
    (hc : ∀ c ∈ q.children, Settles rule c) : Settles rule q :=
  Settles.of_ok (rule_of_nodeStable hq) hc

theorem udfStages_settles :
    ∀ {child u : LogicalPlan} {exprs : List Expr}, udfStages child exprs = .ok u →
      Settles rule child → Settles rule u
  | _, _, [], h, hc => by cases h; exact hc
  | _, _, _ :: _, h, hc => udfStages_settles (udfStages_cons_eq_ok h).2
    (settles_of_nodeStable trivial (List.forall_mem_singleton.mpr hc))

theorem buildStages_settles {projection : Project} {child : LogicalPlan} {truncated : List Expr}
    {t : Transformed LogicalPlan} (h : buildStages projection child truncated = .ok t)
    (hc : Settles rule child) : ∀ c ∈ t.data.children, Settles rule c := by
  obtain ⟨u, hpre, hu, -, rfl⟩ := buildStages_eq_ok h
  exact List.forall_mem_singleton.mpr (udfStages_settles hu (settles_of_nodeStable
    ⟨hpre, statelessProject_udfFree child truncated⟩ (List.forall_mem_singleton.mpr hc)))

theorem recursiveOptimizeProject_settles {fuel k : Nat} {projection : Project} {plan : LogicalPlan}
    {t : Transformed LogicalPlan} (h : recursiveOptimizeProject fuel projection plan k = .ok t)
    (hplan : (∀ e ∈ projection.projection, existsSkipListMap e isUdf = false) →
      ∀ c ∈ plan.children, Settles rule c)
    (hin : Settles rule projection.input) : ∀ c ∈ t.data.children, Settles rule c := by
  rcases recursiveOptimizeProject_eq_ok h with ⟨rfl, hfree⟩ | ⟨truncated, remaining, child, -, hchild, hb⟩
  · exact hplan hfree
  refine buildStages_settles hb ?_
  rcases hchild with ⟨rfl, -⟩ | ⟨fuel', t', rfl, hres, hrec, rfl⟩
  · exact hin
  · exact settles_of_nodeStable (recursiveOptimizeProject_nodeStable hrec fun hfree => ⟨hres, hfree⟩)
      (recursiveOptimizeProject_settles hrec (fun _ => List.forall_mem_singleton.mpr hin) hin)
termination_by fuel

theorem rule_settles {node : LogicalPlan} (hn : ResolvedWithoutListMap node)
    (hc : ∀ c ∈ node.children, Settles rule c) : Settles rule node := by
  obtain ⟨t, ht⟩ := rule_ok hn
  refine Settles.of_ok ht ?_
  cases node with
  | project input projection =>
    exact recursiveOptimizeProject_settles (tryOptimizeProject_eq_ok ht).2 (fun _ => hc)
      (hc input (List.mem_singleton_self _))
  | _ => cases ht; exact hc

/-- On a plan whose `Project`s all resolve against their inputs and hold no `list_map`, the pass
finishes: from some fuel on, `transform_down` returns a plan. -/
theorem tryOptimize_terminates {p : LogicalPlan} (hp : ∀ q ∈ p.subtrees, ResolvedWithoutListMap q) :
    ∃ N, ∀ fuel, N ≤ fuel → ∃ r, tryOptimize fuel p = .ok r := by
  suffices h : ∀ p : LogicalPlan, (∀ q ∈ p.subtrees, ResolvedWithoutListMap q) → Settles rule p from
    h p hp
  exact LogicalPlan.induction_children fun p ih hp =>
    rule_settles (hp p (LogicalPlan.mem_subtrees_self p)) fun c hc =>
      ih c hc fun q hq => hp q (LogicalPlan.subtrees_subset_of_mem_children hc hq)

theorem tryOptimize_terminates_nested_udf :
    (∀ q ∈ (LogicalPlan.project (.source ["a", "b"])
        [(function (.builtin 0) [function (.udf 1) [function (.udf 0) [column "a"]], column "b"]).alias "x"]).subtrees,
      ResolvedWithoutListMap q) ∧
    ∃ N, ∀ fuel, N ≤ fuel → ∃ r, tryOptimize fuel (.project (.source ["a", "b"])
        [(function (.builtin 0) [function (.udf 1) [function (.udf 0) [column "a"]], column "b"]).alias "x"]) =
          .ok r :=
  ⟨by decide, tryOptimize_terminates (by decide)⟩

end Daft.SplitUdfs
