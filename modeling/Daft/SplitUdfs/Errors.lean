import Daft.SplitUdfs.Split

/-! # The errors the pass returns

Only `Project::try_new` and `UDFProject::try_new`, on a column they cannot resolve, and the
model's fuel fail. `TruncateAnyUDFChildren` starts only on an expression that is not a UDF under
aliases, and then meets no UDF while its flag is unset (`splitStep_ok`): the `unreachable!` arm,
the one panic of the pass, is reached on no plan.
-/
namespace Daft.SplitUdfs
open Expr

theorem udfStages_eq_error :
    ∀ {child : LogicalPlan} {exprs : List Expr} {e : DaftError}, udfStages child exprs = .error e →
      ∃ c, e = .fieldNotFound c
  | _, [], _, h => by cases h
  | _, _ :: _, _, h => by
    rcases except_bind_eq_error.mp h with h | ⟨_, -, h⟩
    · exact UdfProject.tryNew_eq_error h
    · exact udfStages_eq_error h

theorem buildStages_eq_error {projection : Project} {child : LogicalPlan} {truncated : List Expr}
    {e : DaftError} (h : buildStages projection child truncated = .error e) : ∃ c, e = .fieldNotFound c := by
  simp only [buildStages, List.partition_eq_filter_filter] at h
  rcases except_bind_eq_error.mp h with h | ⟨_, -, h⟩
  · exact Project.tryNew_eq_error h
  rcases except_bind_eq_error.mp h with h | ⟨_, -, h⟩
  · exact udfStages_eq_error h
  rcases except_bind_eq_error.mp h with h | ⟨_, -, h⟩
  · exact Project.tryNew_eq_error h
  · cases h

theorem recursiveOptimizeProject_eq_error {fuel k : Nat} {projection : Project} {plan : LogicalPlan}
    {e : DaftError} (h : recursiveOptimizeProject fuel projection plan k = .error e) :
    (∃ c, e = .fieldNotFound c) ∨ e = .fuelExhausted := by
  obtain ⟨truncated, remaining, hsplit⟩ := splitProjection_ok projection.projection k
  rw [recursiveOptimizeProject, hsplit] at h
  split at h
  · cases h
  rcases except_bind_eq_error.mp h with h | ⟨_, -, h⟩
  · split at h
    · cases h
    rcases except_bind_eq_error.mp h with h | ⟨_, -, h⟩
    · exact .inl (Project.tryNew_eq_error h)
    cases fuel with
    | zero => cases h; exact .inr rfl
    | succ fuel => exact recursiveOptimizeProject_eq_error (except_map_eq_error.mp h)
  · exact .inl (buildStages_eq_error h)
termination_by fuel

theorem rule_eq_error {node : LogicalPlan} {e : DaftError} (h : rule node = .error e) :
    (∃ c, e = .fieldNotFound c) ∨ e = .fuelExhausted := by
  cases node with
  | project input projection =>
    rcases except_bind_eq_error.mp h with h | ⟨_, -, h⟩
    · exact .inl (Project.tryNew_eq_error h)
    · exact recursiveOptimizeProject_eq_error h
  | _ => cases h

theorem tryOptimize_eq_error {fuel : Nat} {p : LogicalPlan} {e : DaftError}
    (h : tryOptimize fuel p = .error e) : (∃ c, e = .fieldNotFound c) ∨ e = .fuelExhausted :=
  transformDown_eq_error (fun _ _ => rule_eq_error) (.inr rfl) h

/-- `split_projection` hands `TruncateAnyUDFChildren` an expression that is not a UDF under
aliases and holds one, and the walk from there succeeds: it meets no UDF while its flag is
unset. So no run of the pass, on any plan and with any fuel, ends in the `unreachable!` arm. -/
theorem tryOptimize_never_unreachable :
    (∀ (stageIdx exprIdx : Nat) (e : Expr), isUdfAndShouldTruncateChildren e = false →
      e.exists isUdf = true →
        ∃ r e', (TruncateAnyUdfChildren.new stageIdx exprIdx).rewrite e = .ok (r, e')) ∧
    ∀ (fuel : Nat) (p : LogicalPlan) (msg : String), tryOptimize fuel p ≠ .error (.unreachable msg) := by
  refine ⟨fun s i e hroot _ => ?_, fun fuel p msg h => ?_⟩
  · obtain ⟨r, e', h, -⟩ := TruncateAnyUdfChildren.rewrite_clean (r := .new s i) rfl e
      (isUdf_eq_false_of_isUdfAndShouldTruncateChildren hroot)
    exact ⟨r, e', h⟩
  · rcases tryOptimize_eq_error h with ⟨c, hc⟩ | hc <;> cases hc

theorem tryOptimize_never_unreachable_udf_child :
    isUdfAndShouldTruncateChildren (function (.builtin 0) [function (.udf 0) [column "a"], column "b"]) =
        false ∧
      (function (.builtin 0) [function (.udf 0) [column "a"], column "b"]).exists isUdf = true ∧
      (∃ r e', (TruncateAnyUdfChildren.new 0 0).rewrite
        (function (.builtin 0) [function (.udf 0) [column "a"], column "b"]) = .ok (r, e')) ∧
      tryOptimize 12 (.project (.source ["a", "b"])
        [function (.builtin 0) [function (.udf 0) [column "a"], column "b"]]) ≠
        .error TruncateAnyUdfChildren.unreachableUdf :=
  ⟨by decide, by decide, tryOptimize_never_unreachable.1 0 0 _ (by decide) (by decide),
    tryOptimize_never_unreachable.2 12 _ _⟩

end Daft.SplitUdfs
