import Daft.Dsl.Expr

/-! # `TreeNode` visits over expressions

`apply` walks a tree in pre-order, and after each node its visitor either continues, skips
the node's children (`jump`) or ends the whole walk (`stop`). A visitor that never jumps sees a
prefix of the pre-order list (`apply_eq_scan`); every predicate the rule computes with `apply`
is characterised through that list.
-/
namespace Daft

inductive TreeNodeRecursion where
  | continue
  | jump
  | stop
  deriving DecidableEq, Repr

/-- A rewrite result: the new value and whether anything changed. Every rewriter of the rule
answers `Continue`, so the recursion field of the Rust struct is left out. -/
structure Transformed (α : Type) where
  data : α
  transformed : Bool
  deriving DecidableEq, Repr

def Transformed.yes {α : Type} (a : α) : Transformed α := ⟨a, true⟩
def Transformed.no {α : Type} (a : α) : Transformed α := ⟨a, false⟩

/-- `visit_children`: what a node's visit returns once the visitor answered `r` on it;
`walk` visits the children. -/
def TreeNodeRecursion.visitChildren {σ : Type} (r : TreeNodeRecursion) (s : σ)
    (walk : σ → σ × TreeNodeRecursion) : σ × TreeNodeRecursion :=
  match r with
  | .continue => walk s
  | .jump => (s, .continue)
  | .stop => (s, .stop)

namespace Expr
variable {σ : Type}

mutual
/-- `TreeNode::apply`. An alias has one child, whose own visit is the alias's children visit. -/
def apply (f : σ → Expr → σ × TreeNodeRecursion) (s : σ) : Expr → σ × TreeNodeRecursion
  | .alias e n => (f s (.alias e n)).2.visitChildren (f s (.alias e n)).1 (fun s => e.apply f s)
  | function g inputs =>
    (f s (function g inputs)).2.visitChildren (f s (function g inputs)).1
      (fun s => applyList f s inputs)
  | column n => (f s (column n)).2.visitChildren (f s (column n)).1 (fun s => (s, .continue))
  | literal v => (f s (literal v)).2.visitChildren (f s (literal v)).1 (fun s => (s, .continue))
def applyList (f : σ → Expr → σ × TreeNodeRecursion) (s : σ) : List Expr → σ × TreeNodeRecursion
  | [] => (s, .continue)
  | e :: es => if (e.apply f s).2 = .stop then e.apply f s else applyList f (e.apply f s).1 es
end

def scan (f : σ → Expr → σ × TreeNodeRecursion) (s : σ) : List Expr → σ × TreeNodeRecursion
  | [] => (s, .continue)
  | n :: ns => if (f s n).2 = .stop then f s n else scan f (f s n).1 ns

@[simp] theorem scan_nil (f : σ → Expr → σ × TreeNodeRecursion) (s : σ) :
    scan f s [] = (s, .continue) := rfl

theorem scan_cons (f : σ → Expr → σ × TreeNodeRecursion) (s : σ) (n : Expr) (ns : List Expr) :
    scan f s (n :: ns) = if (f s n).2 = .stop then f s n else scan f (f s n).1 ns := rfl

theorem scan_append (f : σ → Expr → σ × TreeNodeRecursion) (s : σ) (xs ys : List Expr) :
    scan f s (xs ++ ys) = if (scan f s xs).2 = .stop then scan f s xs else scan f (scan f s xs).1 ys := by
  induction xs generalizing s with
  | nil => simp
  | cons x xs ih =>
    simp only [List.cons_append, scan_cons]
    split <;> simp_all

def NoJump (f : σ → Expr → σ × TreeNodeRecursion) : Prop := ∀ s n, (f s n).2 ≠ .jump

private theorem visitChildren_eq {f : σ → Expr → σ × TreeNodeRecursion} (hf : NoJump f)
    {s : σ} {n : Expr} {walk : σ → σ × TreeNodeRecursion} :
    (f s n).2.visitChildren (f s n).1 walk =
      if (f s n).2 = .stop then f s n else walk (f s n).1 := by
  have := hf s n
  cases h : f s n with
  | mk s' r => cases r <;> simp_all [TreeNodeRecursion.visitChildren]

mutual
theorem apply_eq_scan {f : σ → Expr → σ × TreeNodeRecursion} (hf : NoJump f) :
    ∀ (s : σ) (e : Expr), e.apply f s = scan f s e.preorder
  | s, .alias e n => by
    rw [apply, visitChildren_eq hf, preorder_alias, scan_cons, apply_eq_scan hf]
  | s, function g inputs => by
    rw [apply, visitChildren_eq hf, preorder_function, scan_cons, applyList_eq_scan hf]
  | s, column n => by rw [apply, visitChildren_eq hf]; rfl
  | s, literal v => by rw [apply, visitChildren_eq hf]; rfl
theorem applyList_eq_scan {f : σ → Expr → σ × TreeNodeRecursion} (hf : NoJump f) :
    ∀ (s : σ) (es : List Expr), applyList f s es = scan f s (preorderList es)
  | s, [] => rfl
  | s, e :: es => by
    rw [applyList, preorderList_cons, scan_append, apply_eq_scan hf, applyList_eq_scan hf]
end

/-- `TreeNode::exists`: some node of the tree satisfies `p`. -/
def «exists» (e : Expr) (p : Expr → Bool) : Bool :=
  (e.apply (fun found n => if p n then (true, .stop) else (found, .continue)) false).1

private theorem scan_exists (p : Expr → Bool) :
    ∀ ns : List Expr,
      (scan (fun found n => if p n then (true, .stop) else (found, .continue)) false ns).1 = ns.any p
  | [] => rfl
  | n :: ns => by cases h : p n <;> simp [scan_cons, h, scan_exists p ns]

theorem exists_eq_any (e : Expr) (p : Expr → Bool) : e.exists p = e.preorder.any p := by
  rw [Expr.exists, apply_eq_scan (fun s n => by cases p n <;> simp), scan_exists]

/-- `get_required_columns`: the name of every column node, in pre-order. -/
def getRequiredColumns (e : Expr) : List String :=
  (e.apply (fun cols n => match n with
    | column name => (cols ++ [name], .continue)
    | _ => (cols, .continue)) []).1

private theorem scan_requiredColumns :
    ∀ (cols : List String) (ns : List Expr),
      (scan (fun cols n => match n with
        | column name => (cols ++ [name], .continue)
        | _ => (cols, .continue)) cols ns).1 = cols ++ (ns.filter isColumn).map name
  | cols, [] => by simp
  | cols, n :: ns => by
    cases n <;> simp [scan_cons, scan_requiredColumns _ ns, isColumn]

theorem getRequiredColumns_eq (e : Expr) :
    e.getRequiredColumns = (e.preorder.filter isColumn).map name := by
  rw [getRequiredColumns, apply_eq_scan (fun s n => by cases n <;> simp), scan_requiredColumns]
  simp

theorem mem_getRequiredColumns {e : Expr} {c : String} :
    c ∈ e.getRequiredColumns ↔ column c ∈ e.preorder := by
  rw [getRequiredColumns_eq]
  constructor
  · intro h
    obtain ⟨z, hz, rfl⟩ := List.mem_map.mp h
    obtain ⟨hz, hc⟩ := List.mem_filter.mp hz
    cases z <;> simp_all [isColumn]
  · exact fun h => List.mem_map.mpr ⟨column c, List.mem_filter.mpr ⟨h, rfl⟩, rfl⟩

theorem getRequiredColumns_subset {e x : Expr} (h : x ∈ e.preorder) :
    x.getRequiredColumns ⊆ e.getRequiredColumns :=
  fun _ hc => mem_getRequiredColumns.mpr (preorder_subset_of_mem h (mem_getRequiredColumns.mp hc))

theorem mem_getRequiredColumns_function {f : Func} {inputs : List Expr} {c : String} :
    c ∈ (function f inputs).getRequiredColumns ↔ ∃ x ∈ inputs, c ∈ x.getRequiredColumns := by
  simp [mem_getRequiredColumns, preorder_function, mem_preorderList]

@[simp] theorem exists_alias (e : Expr) (n : String) (p : Expr → Bool) :
    (e.alias n).exists p = (p (e.alias n) || e.exists p) := by
  simp [exists_eq_any]

@[simp] theorem getRequiredColumns_alias (e : Expr) (n : String) :
    (e.alias n).getRequiredColumns = e.getRequiredColumns := by
  simp [getRequiredColumns_eq, isColumn]

@[simp] theorem getRequiredColumns_column (n : String) : (column n).getRequiredColumns = [n] := rfl

@[simp] theorem getRequiredColumns_literal (v : Int) : (literal v).getRequiredColumns = [] := rfl

end Expr

end Daft
