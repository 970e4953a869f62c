import Daft.Dsl.TreeNode

/-! # Logical plans, the projection constructors and `transform_down`

A plan node's schema is the list of its output column names. Only the two projection kinds the
rule builds keep their expressions; a scan is a `source`, every other operator an opaque node.
`Project::try_new` and `UDFProject::try_new`, absent from the source, follow the spec's error
design: construction fails when an expression reads a column the input does not produce.
-/
namespace Daft

inductive DaftError where
  | fieldNotFound (name : String)
  | unreachable (msg : String)
  | fuelExhausted
  deriving DecidableEq, Repr

section ExceptLemmas
variable {ε α β : Type}

@[simp] theorem except_map_ok (f : α → β) (a : α) : f <$> (Except.ok a : Except ε α) = .ok (f a) :=
  rfl
@[simp] theorem except_map_error (f : α → β) (e : ε) :
    f <$> (Except.error e : Except ε α) = .error e := rfl
@[simp] theorem except_ok_bind (a : α) (f : α → Except ε β) : (Except.ok a >>= f) = f a := rfl
@[simp] theorem except_error_bind (e : ε) (f : α → Except ε β) :
    (Except.error e >>= f) = .error e := rfl

theorem except_bind_eq_ok {x : Except ε α} {f : α → Except ε β} {b : β} :
    x >>= f = .ok b ↔ ∃ a, x = .ok a ∧ f a = .ok b := by
  cases x <;> simp

theorem except_map_eq_ok {x : Except ε α} {f : α → β} {b : β} :
    f <$> x = .ok b ↔ ∃ a, x = .ok a ∧ f a = b := by
  cases x <;> simp

theorem except_map_snd_eq_ok {σ : Type} {x : Except ε (σ × α)} {f : α → β} {s : σ} {b : β} :
    Prod.map id f <$> x = .ok (s, b) ↔ ∃ a, x = .ok (s, a) ∧ f a = b := by
  rcases x with _ | ⟨s', a⟩
  · simp
  · constructor
    · rintro ⟨⟩
      exact ⟨a, rfl, rfl⟩
    · rintro ⟨a, ⟨⟩, rfl⟩
      rfl

theorem except_bind_eq_error {x : Except ε α} {f : α → Except ε β} {e : ε} :
    x >>= f = .error e ↔ x = .error e ∨ ∃ a, x = .ok a ∧ f a = .error e := by
  cases x <;> simp

theorem except_map_eq_error {x : Except ε α} {f : α → β} {e : ε} : f <$> x = .error e ↔ x = .error e := by
  cases x <;> simp

end ExceptLemmas

inductive LogicalPlan where
  | source (schema : List String)
  | project (input : LogicalPlan) (projection : List Expr)
  | udfProject (input : LogicalPlan) (project : Expr) (passthroughColumns : List Expr)
  | unary (op : Nat) (schema : List String) (input : LogicalPlan)
  | binary (op : Nat) (schema : List String) (left right : LogicalPlan)
  deriving DecidableEq, Repr

namespace LogicalPlan

/-- Modelled from the spec: `schema_of`, the output column names in order. A `UDFProject`
outputs its passthrough columns and then its UDF expression. -/
def schema : LogicalPlan → List String
  | source s => s
  | project _ projection => projection.map Expr.name
  | udfProject _ u passthrough => passthrough.map Expr.name ++ [u.name]
  | unary _ s _ => s
  | binary _ s _ _ => s

def children : LogicalPlan → List LogicalPlan
  | source _ => []
  | project input _ => [input]
  | udfProject input _ _ => [input]
  | unary _ _ input => [input]
  | binary _ _ left right => [left, right]

def withNewChildren : LogicalPlan → List LogicalPlan → LogicalPlan
  | source s, _ => source s
  | project _ e, c :: _ => project c e
  | udfProject _ u p, c :: _ => udfProject c u p
  | unary op s _, c :: _ => unary op s c
  | binary op s _ _, l :: r :: _ => binary op s l r
  | p, _ => p

@[simp] theorem schema_withNewChildren (p : LogicalPlan) (cs : List LogicalPlan) :
    (p.withNewChildren cs).schema = p.schema := by
  unfold withNewChildren; split <;> rfl

@[simp] theorem withNewChildren_children (p : LogicalPlan) : p.withNewChildren p.children = p := by
  cases p <;> rfl

end LogicalPlan

def unresolvedColumn (schema : List String) (exprs : List Expr) : Option String :=
  (exprs.flatMap Expr.getRequiredColumns).find? (fun c => !schema.contains c)

structure Project where
  input : LogicalPlan
  projection : List Expr
  deriving DecidableEq, Repr

def Project.toPlan (p : Project) : LogicalPlan := .project p.input p.projection

/-- Modelled from the spec: `Project::try_new` resolves every expression against the input
schema and fails with the first column it cannot find. -/
def Project.tryNew (input : LogicalPlan) (projection : List Expr) : Except DaftError Project :=
  match unresolvedColumn input.schema projection with
  | some c => .error (.fieldNotFound c)
  | none => .ok ⟨input, projection⟩

structure UdfProject where
  input : LogicalPlan
  project : Expr
  passthroughColumns : List Expr
  deriving DecidableEq, Repr

def UdfProject.toPlan (p : UdfProject) : LogicalPlan := .udfProject p.input p.project p.passthroughColumns

/-- Modelled from the spec: `UDFProject::try_new` resolves the UDF expression and the
passthrough columns against the input schema. -/
def UdfProject.tryNew (input : LogicalPlan) (project : Expr) (passthroughColumns : List Expr) :
    Except DaftError UdfProject :=
  match unresolvedColumn input.schema (project :: passthroughColumns) with
  | some c => .error (.fieldNotFound c)
  | none => .ok ⟨input, project, passthroughColumns⟩

theorem Project.tryNew_eq_ok {input : LogicalPlan} {projection : List Expr} {p : Project}
    (h : Project.tryNew input projection = .ok p) :
    unresolvedColumn input.schema projection = none ∧ p = ⟨input, projection⟩ := by
  unfold Project.tryNew at h; split at h <;> simp_all

theorem Project.tryNew_eq_error {input : LogicalPlan} {projection : List Expr} {e : DaftError}
    (h : Project.tryNew input projection = .error e) : ∃ c, e = .fieldNotFound c := by
  unfold Project.tryNew at h; split at h <;> cases h
  exact ⟨_, rfl⟩

theorem UdfProject.tryNew_eq_error {input : LogicalPlan} {project : Expr} {pass : List Expr}
    {e : DaftError} (h : UdfProject.tryNew input project pass = .error e) : ∃ c, e = .fieldNotFound c := by
  unfold UdfProject.tryNew at h; split at h <;> cases h
  exact ⟨_, rfl⟩

theorem UdfProject.tryNew_eq_ok {input : LogicalPlan} {project : Expr} {pass : List Expr}
    {p : UdfProject} (h : UdfProject.tryNew input project pass = .ok p) :
    unresolvedColumn input.schema (project :: pass) = none ∧ p = ⟨input, project, pass⟩ := by
  unfold UdfProject.tryNew at h; split at h <;> simp_all

theorem unresolvedColumn_eq_none {schema : List String} {exprs : List Expr} :
    unresolvedColumn schema exprs = none ↔ ∀ e ∈ exprs, ∀ c ∈ e.getRequiredColumns, c ∈ schema := by
  simp [unresolvedColumn, List.find?_eq_none]

theorem Project.tryNew_of_resolved {input : LogicalPlan} {projection : List Expr}
    (h : unresolvedColumn input.schema projection = none) :
    Project.tryNew input projection = .ok ⟨input, projection⟩ := by
  simp [Project.tryNew, h]

theorem UdfProject.tryNew_of_resolved {input : LogicalPlan} {project : Expr} {pass : List Expr}
    (h : unresolvedColumn input.schema (project :: pass) = none) :
    UdfProject.tryNew input project pass = .ok ⟨input, project, pass⟩ := by
  simp [UdfProject.tryNew, h]

/-- `map_until_stop_and_collect` over a node's children: every rewriter here continues. -/
def mapUntilStopAndCollect {α : Type} (g : α → Except DaftError (Transformed α)) :
    List α → Except DaftError (Transformed (List α))
  | [] => .ok ⟨[], false⟩
  | x :: xs => do
    let y ← g x
    let ys ← mapUntilStopAndCollect g xs
    pure ⟨y.data :: ys.data, y.transformed || ys.transformed⟩

/-- `TreeNode::transform_down`: `f` rewrites a node, and the walk then goes on into the
children of what `f` returned. The walk is given `fuel` levels; the source has no bound. -/
def transformDown (f : LogicalPlan → Except DaftError (Transformed LogicalPlan)) :
    Nat → LogicalPlan → Except DaftError (Transformed LogicalPlan)
  | 0, _ => .error .fuelExhausted
  | fuel + 1, node => do
    let t ← f node
    let cs ← mapUntilStopAndCollect (transformDown f fuel) t.data.children
    pure ⟨t.data.withNewChildren cs.data, t.transformed || cs.transformed⟩

end Daft
