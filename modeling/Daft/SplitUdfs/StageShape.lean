import Daft.SplitUdfs.Chain

/-! # The shape of every `UDFProject` stage the rule builds

A stage's expression is a root UDF (`splitProjection_actorPool`): a UDF under aliases whose
arguments compute nothing, so the only UDF of the expression, with the input's columns passed
through. A run of the rule only adds such stages (`tryOptimize_udfStageShape`).
-/
namespace Daft.SplitUdfs
open Expr

def udfProjectHeader : LogicalPlan → List (Expr × List Expr)
  | .udfProject _ project passthroughColumns => [(project, passthroughColumns)]
  | _ => []

def udfProjectHeaders (p : LogicalPlan) : List (Expr × List Expr) :=
  p.subtrees.flatMap udfProjectHeader

@[simp] theorem udfProjectHeaders_project (input : LogicalPlan) (projection : List Expr) :
    udfProjectHeaders (.project input projection) = udfProjectHeaders input := by
  simp [udfProjectHeaders, LogicalPlan.subtrees, udfProjectHeader]

@[simp] theorem udfProjectHeaders_udfProject (input : LogicalPlan) (project : Expr)
    (passthroughColumns : List Expr) :
    udfProjectHeaders (.udfProject input project passthroughColumns) =
      (project, passthroughColumns) :: udfProjectHeaders input := by
  simp [udfProjectHeaders, LogicalPlan.subtrees, udfProjectHeader]

theorem udfProjectHeader_withNewChildren (q : LogicalPlan) (cs : List LogicalPlan) :
    udfProjectHeader (q.withNewChildren cs) = udfProjectHeader q := by
  unfold LogicalPlan.withNewChildren; split <;> rfl

/-- A `UDFProject` stage as the rule means to build it: one UDF, at the root under aliases, over
arguments that compute nothing, and bare columns passed through. -/
structure UdfStageShape (stage : Expr × List Expr) : Prop where
  rootUdf : RootUdf stage.1
  singleUdf : stage.1.preorder.countP isUdf = 1
  passthroughColumns : ∀ c ∈ stage.2, c.isColumn = true

theorem countP_isUdf_preorderList_eq_zero {es : List Expr}
    (h : ∀ a ∈ es, a.requiresComputation = false) : (preorderList es).countP isUdf = 0 := by
  induction es with
  | nil => rfl
  | cons e es ih =>
    simp only [preorderList_cons, List.countP_append, ih fun a ha => h a (List.mem_cons_of_mem _ ha),
      List.countP_eq_zero]
    simpa using requiresComputation_eq_false (h e (List.mem_cons_self _ _))

theorem RootUdf.countP_isUdf {e : Expr} (h : RootUdf e) : e.preorder.countP isUdf = 1 := by
  induction h with
  | udf hargs =>
    simp [preorder_function, List.countP_cons, countP_isUdf_preorderList_eq_zero hargs, isUdf]
  | «alias» n _ ih => simpa [List.countP_cons] using ih

theorem udfStages_headers :
    ∀ {child u : LogicalPlan} {exprs : List Expr}, udfStages child exprs = .ok u →
      ∀ x ∈ udfProjectHeaders u, x ∈ udfProjectHeaders child ∨
        (x.1 ∈ exprs ∧ ∀ c ∈ x.2, c.isColumn = true)
  | _, _, [], h => by cases h; exact fun x hx => .inl hx
  | child, _, expr :: exprs, h => by
    obtain ⟨-, h⟩ := udfStages_cons_eq_ok h
    intro x hx
    rcases udfStages_headers h x hx with hx | ⟨hx, hc⟩
    · rw [UdfProject.toPlan, udfProjectHeaders_udfProject, List.mem_cons] at hx
      rcases hx with rfl | hx
      · exact .inr ⟨List.mem_cons_self _ _, fun c hc => by
          obtain ⟨⟨n, -, rfl⟩, -⟩ := by simpa using hc
          rfl⟩
      · exact .inl hx
    · exact .inr ⟨List.mem_cons_of_mem _ hx, hc⟩

theorem recursiveOptimizeProject_headers {fuel : Nat} {projection : Project} {plan : LogicalPlan}
    {k : Nat} {t : Transformed LogicalPlan} (h : recursiveOptimizeProject fuel projection plan k = .ok t) :
    ∀ x ∈ udfProjectHeaders t.data, x ∈ udfProjectHeaders plan ∨
      x ∈ udfProjectHeaders projection.input ∨ UdfStageShape x := by
  intro x hx
  rcases recursiveOptimizeProject_eq_ok h with ⟨rfl, -⟩ | ⟨truncated, remaining, child, hsplit, hchild, hb⟩
  · exact .inl hx
  obtain ⟨u, -, hu, -, rfl⟩ := buildStages_eq_ok hb
  rcases udfStages_headers hu x (by simpa [Transformed.yes] using hx) with hx | ⟨hx, hc⟩
  · rw [udfProjectHeaders_project] at hx
    rcases hchild with ⟨rfl, -⟩ | ⟨fuel', t', rfl, -, hrec, rfl⟩
    · exact .inr (.inl hx)
    · rcases recursiveOptimizeProject_headers hrec x hx with hx | hx | hx
      · exact .inr (.inl (by simpa using hx))
      · exact .inr (.inl hx)
      · exact .inr (.inr hx)
  · obtain ⟨hx, hs⟩ := List.mem_filter.mp hx
    have hroot := splitProjection_actorPool hsplit x.1 hx hs
    exact .inr (.inr ⟨hroot, hroot.countP_isUdf, hc⟩)
termination_by fuel

theorem rule_headers {node : LogicalPlan} {t : Transformed LogicalPlan} (h : rule node = .ok t) :
    ∀ x ∈ udfProjectHeaders t.data, x ∈ udfProjectHeaders node ∨ UdfStageShape x := by
  cases node with
  | project input projection =>
    intro x hx
    rcases recursiveOptimizeProject_headers (tryOptimizeProject_eq_ok h).2 x hx with hx | hx | hx
    · exact .inl hx
    · exact .inl (by simpa using hx)
    · exact .inr hx
  | _ => cases h; exact fun x hx => .inl hx

/-- Every `UDFProject` of a successful run's output was in the input plan or is a stage of the
intended shape: one UDF under aliases, over arguments that compute nothing, passing through bare
columns. -/
theorem tryOptimize_udfStageShape {fuel : Nat} {p : LogicalPlan} {r : Transformed LogicalPlan}
    (h : tryOptimize fuel p = .ok r) :
    ∀ x ∈ udfProjectHeaders r.data, x ∈ udfProjectHeaders p ∨ UdfStageShape x :=
  transformDown_headers udfProjectHeader_withNewChildren (fun _ _ => rule_headers) h

theorem tryOptimize_udfStageShape_nested_udf :
    ∃ r, tryOptimize 7 (.project (.source ["a"])
        [(function (.udf 1) [function (.udf 0) [column "a"]]).alias "x"]) = .ok r ∧
      (udfProjectHeaders r.data).length = 2 ∧
      ∀ x ∈ udfProjectHeaders r.data, x ∈ udfProjectHeaders (.project (.source ["a"])
        [(function (.udf 1) [function (.udf 0) [column "a"]]).alias "x"]) ∨ UdfStageShape x :=
  ⟨_, rfl, rfl, @tryOptimize_udfStageShape 7 (.project (.source ["a"])
    [(function (.udf 1) [function (.udf 0) [column "a"]]).alias "x"]) _ rfl⟩

end Daft.SplitUdfs
