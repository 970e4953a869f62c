import Mathlib.Data.List.Basic

/-! # Expressions of daft-dsl as the UDF-splitting rule sees them

Only the variants `split_udfs.rs` distinguishes are kept apart: resolved basic columns,
literals, aliases, and function applications, where the function is the builtin `ListMap`,
a UDF with an external runtime, or any other builtin. Arithmetic and comparison nodes are
builtins of the last kind; the rule never looks inside them.
-/
namespace Daft

/-- The function an `Expr.function` node applies. -/
inductive Func where
  | listMap
  | builtin (id : Nat)
  | udf (id : Nat)
  deriving DecidableEq, Repr

inductive Expr where
  | column (name : String)
  | literal (value : Int)
  | «alias» (expr : Expr) (name : String)
  | function (func : Func) (inputs : List Expr)
  deriving Repr

namespace Expr

mutual
def decEq : (a b : Expr) → Decidable (a = b)
  | column n, column m => if h : n = m then isTrue (h ▸ rfl) else isFalse (by rintro ⟨⟩; exact h rfl)
  | literal n, literal m => if h : n = m then isTrue (h ▸ rfl) else isFalse (by rintro ⟨⟩; exact h rfl)
  | .alias a n, .alias b m =>
    match decEq a b with
    | isTrue ha => if h : n = m then isTrue (ha ▸ h ▸ rfl) else isFalse (by rintro ⟨⟩; exact h rfl)
    | isFalse ha => isFalse (by rintro ⟨⟩; exact ha rfl)
  | function f as, function g bs =>
    if hf : f = g then
      match decEqList as bs with
      | isTrue ha => isTrue (hf ▸ ha ▸ rfl)
      | isFalse ha => isFalse (by rintro ⟨⟩; exact ha rfl)
    else isFalse (by rintro ⟨⟩; exact hf rfl)
  | column _, literal _ | column _, .alias .. | column _, function ..
  | literal _, column _ | literal _, .alias .. | literal _, function ..
  | .alias .., column _ | .alias .., literal _ | .alias .., function ..
  | function .., column _ | function .., literal _ | function .., .alias .. =>
    isFalse (by rintro ⟨⟩)
def decEqList : (as bs : List Expr) → Decidable (as = bs)
  | [], [] => isTrue rfl
  | a :: as, b :: bs =>
    match decEq a b, decEqList as bs with
    | isTrue h1, isTrue h2 => isTrue (h1 ▸ h2 ▸ rfl)
    | isFalse h1, _ => isFalse (by rintro ⟨⟩; exact h1 rfl)
    | _, isFalse h2 => isFalse (by rintro ⟨⟩; exact h2 rfl)
  | [], _ :: _ | _ :: _, [] => isFalse (by rintro ⟨⟩)
end

instance : DecidableEq Expr := decEq

/-- Modelled from the spec: `Expr::name`, the output name of an expression. An alias or a
column supplies its own name; a literal is named `literal`; any other node takes the name of
its first input, the deterministic default daft-dsl uses. -/
def name : Expr → String
  | column n => n
  | literal _ => "literal"
  | .alias _ n => n
  | function _ [] => ""
  | function _ (e :: _) => e.name

def children : Expr → List Expr
  | .alias e _ => [e]
  | function _ inputs => inputs
  | _ => []

/-- `with_new_children`: the node with its children replaced, in order. -/
def withNewChildren : Expr → List Expr → Expr
  | .alias _ n, e :: _ => .alias e n
  | function f _, inputs => function f inputs
  | e, _ => e

/-- `is_udf`: the root is a UDF. An alias of a UDF is not one. -/
def isUdf : Expr → Bool
  | function (.udf _) _ => true
  | _ => false

/-- `is_list_map`: the root is the builtin `ListMap`. -/
def isListMap : Expr → Bool
  | function .listMap _ => true
  | _ => false

def isAlias : Expr → Bool
  | .alias .. => true
  | _ => false

/-- `matches!(e, Expr::Column(Column::Resolved(_)))`. -/
def isColumn : Expr → Bool
  | column _ => true
  | _ => false

/-- Modelled from the spec: `requires_computation`, false for columns and literals, true for
every function; an alias computes what its input computes. -/
def requiresComputation : Expr → Bool
  | column _ => false
  | literal _ => false
  | .alias e _ => e.requiresComputation
  | function .. => true

mutual
/-- Every node of the tree in pre-order, the order in which `TreeNode` walks visit them. -/
def preorder : Expr → List Expr
  | .alias e n => .alias e n :: e.preorder
  | function f inputs => function f inputs :: preorderList inputs
  | column n => [column n]
  | literal v => [literal v]
def preorderList : List Expr → List Expr
  | [] => []
  | e :: es => e.preorder ++ preorderList es
end

mutual
def height : Expr → Nat
  | .alias e _ => e.height + 1
  | function _ inputs => heightList inputs + 1
  | column _ => 0
  | literal _ => 0
def heightList : List Expr → Nat
  | [] => 0
  | e :: es => max e.height (heightList es)
end

@[simp] theorem name_column (n : String) : (column n).name = n := rfl
@[simp] theorem name_alias (e : Expr) (n : String) : (e.alias n).name = n := rfl
@[simp] theorem isUdf_column (n : String) : (column n).isUdf = false := rfl
@[simp] theorem isUdf_alias (e : Expr) (n : String) : (e.alias n).isUdf = false := rfl
@[simp] theorem isListMap_column (n : String) : (column n).isListMap = false := rfl
@[simp] theorem isListMap_alias (e : Expr) (n : String) : (e.alias n).isListMap = false := rfl
@[simp] theorem isColumn_column (n : String) : (column n).isColumn = true := rfl
@[simp] theorem isColumn_alias (e : Expr) (n : String) : (e.alias n).isColumn = false := rfl
@[simp] theorem isAlias_alias (e : Expr) (n : String) : (e.alias n).isAlias = true := rfl
@[simp] theorem height_column (n : String) : (column n).height = 0 := rfl
@[simp] theorem height_alias (e : Expr) (n : String) : (e.alias n).height = e.height + 1 := rfl
@[simp] theorem preorder_column (n : String) : (column n).preorder = [column n] := rfl
@[simp] theorem preorder_alias (e : Expr) (n : String) :
    (e.alias n).preorder = e.alias n :: e.preorder := rfl
@[simp] theorem preorderList_nil : preorderList [] = [] := rfl
@[simp] theorem preorderList_cons (e : Expr) (es : List Expr) :
    preorderList (e :: es) = e.preorder ++ preorderList es := rfl
@[simp] theorem heightList_nil : heightList [] = 0 := rfl
@[simp] theorem heightList_cons (e : Expr) (es : List Expr) :
    heightList (e :: es) = max e.height (heightList es) := rfl

theorem preorder_function (f : Func) (inputs : List Expr) :
    (function f inputs).preorder = function f inputs :: preorderList inputs := rfl

theorem preorder_eq_cons (e : Expr) : e.preorder = e :: preorderList e.children := by
  cases e <;> simp [preorder, children, preorderList]

theorem mem_preorder_self (e : Expr) : e ∈ e.preorder := by
  rw [preorder_eq_cons]; exact List.mem_cons_self _ _

theorem mem_preorderList {x : Expr} {es : List Expr} :
    x ∈ preorderList es ↔ ∃ c ∈ es, x ∈ c.preorder := by
  induction es with
  | nil => simp
  | cons e es ih => simp [ih]

theorem preorder_subset_preorderList {c : Expr} {es : List Expr} (h : c ∈ es) :
    c.preorder ⊆ preorderList es :=
  fun _ hx => mem_preorderList.mpr ⟨c, h, hx⟩

theorem le_heightList {e : Expr} {es : List Expr} (h : e ∈ es) : e.height ≤ heightList es := by
  induction es with
  | nil => cases h
  | cons x xs ih =>
    rcases List.mem_cons.mp h with rfl | h
    · exact le_max_left _ _
    · exact (ih h).trans (le_max_right _ _)

theorem height_lt_of_mem_children {e c : Expr} (h : c ∈ e.children) : c.height < e.height := by
  cases e with
  | «alias» e n => simp [children] at h; subst h; simp
  | function f inputs => exact Nat.lt_succ_of_le (le_heightList h)
  | column _ | literal _ => cases h

theorem preorder_subset_of_mem {e x : Expr} (h : x ∈ e.preorder) : x.preorder ⊆ e.preorder := by
  rw [preorder_eq_cons] at h
  rcases List.mem_cons.mp h with rfl | h
  · exact fun _ hy => hy
  · obtain ⟨c, hc, hx⟩ := mem_preorderList.mp h
    have := height_lt_of_mem_children hc
    rw [preorder_eq_cons e]
    exact fun y hy => List.mem_cons_of_mem _ (preorder_subset_preorderList hc
      (preorder_subset_of_mem hx hy))
termination_by e.height

theorem height_le_of_mem_preorder {e x : Expr} (h : x ∈ e.preorder) : x.height ≤ e.height := by
  rw [preorder_eq_cons] at h
  rcases List.mem_cons.mp h with rfl | h
  · exact Nat.le_refl _
  · obtain ⟨c, hc, hx⟩ := mem_preorderList.mp h
    have := height_lt_of_mem_children hc
    exact Nat.le_of_lt (Nat.lt_of_le_of_lt (height_le_of_mem_preorder hx) this)
termination_by e.height

theorem height_lt_of_mem_preorderList_children {e x : Expr} (h : x ∈ preorderList e.children) :
    x.height < e.height :=
  let ⟨_, hc, hx⟩ := mem_preorderList.mp h
  Nat.lt_of_le_of_lt (height_le_of_mem_preorder hx) (height_lt_of_mem_children hc)

theorem requiresComputation_eq_false :
    ∀ {e : Expr}, e.requiresComputation = false → ∀ c ∈ e.preorder, c.isUdf = false
  | column _, _ => by simp
  | literal _, _ => by simp [preorder, isUdf]
  | .alias e _, h => by simpa using requiresComputation_eq_false (e := e) h
  | function .., h => by simp [requiresComputation] at h

end Expr

end Daft
