import Daft.SplitUdfs.Errors

/-! # `recursive_optimize_project` terminates

The number of UDFs does not decrease from one level to the next, since a lifted UDF child
reappears in `remaining`; the height does. After entry aliasing every expression with a UDF is an
alias, so each entry of `remaining` is strictly lower than the highest expression split, and
the recursion nests at most that height less one calls.
-/
namespace Daft.SplitUdfs
open Expr

theorem except_bind_ne_error {ε α β : Type} {x : Except ε α} {f : α → Except ε β} {e : ε}
    (hx : x ≠ .error e) (hf : ∀ a, x = .ok a → f a ≠ .error e) : x >>= f ≠ .error e := by
  cases x with
  | error e' => simpa using hx
  | ok a => exact hf a rfl

theorem except_map_ne_error {ε α β : Type} {x : Except ε α} {f : α → β} {e : ε}
    (hx : x ≠ .error e) : f <$> x ≠ .error e := by
  cases x <;> simp_all

theorem ne_fuelExhausted_of_fieldNotFound {α : Type} {x : Except DaftError α}
    (h : ∀ {e}, x = .error e → ∃ c, e = .fieldNotFound c) : x ≠ .error .fuelExhausted := fun hx => by
  obtain ⟨c, hc⟩ := h hx
  cases hc

theorem one_le_of_lifted {b : Nat} {z : Expr} (hz : Lifted b z) (hc : z.isColumn = false) :
    1 ≤ b := by
  rcases hz with hz | ⟨ha, hb⟩
  · simp_all
  · cases z <;> simp_all [isAlias]; omega

theorem recursiveOptimizeProject_ne_fuelExhausted :
    ∀ (fuel : Nat) (projection : Project) (plan : LogicalPlan) (recursiveCount : Nat),
      AliasedEntries projection.projection → heightList projection.projection ≤ fuel + 1 →
      recursiveOptimizeProject fuel projection plan recursiveCount ≠ .error .fuelExhausted := by
  intro fuel
  induction fuel with
  | zero => ?_
  | succ fuel ih => ?_
  all_goals
    intro projection plan recursiveCount ha hfuel
    obtain ⟨truncated, remaining, hsplit⟩ := splitProjection_ok projection.projection recursiveCount
    have hrem := splitProjection_remaining ha hsplit
    rw [recursiveOptimizeProject]
    split
    · simp
    rw [hsplit]
    refine except_bind_ne_error ?_ fun _ _ => ne_fuelExhausted_of_fieldNotFound buildStages_eq_error
    split
    · simp
    obtain ⟨z, hz, hzc⟩ : ∃ z ∈ remaining, z.isColumn = false := by
      rename_i hall; simpa using hall
    have h1 := one_le_of_lifted (hrem z hz) hzc
    refine except_bind_ne_error (ne_fuelExhausted_of_fieldNotFound Project.tryNew_eq_error)
      fun newProject hp => ?_
    obtain ⟨-, rfl⟩ := Project.tryNew_eq_ok hp
  · exfalso; omega
  · exact except_map_ne_error <| ih _ _ _ (aliasedEntries_of_lifted hrem)
      (heightList_le fun e he => by have := (hrem e he).height_le; omega)

theorem aliasedEntries_map_entryAlias (projection : List Expr) :
    AliasedEntries (projection.map entryAlias) := by
  intro e he hu
  obtain ⟨e, -, rfl⟩ := List.mem_map.mp he
  exact isAlias_entryAlias hu

/-- `recursive_optimize_project`, started by `try_optimize_project` at depth 0 on the
entry-aliased projection, nests fewer recursive calls than the height of the entry-aliased
expressions: given that much fuel it never runs out. -/
theorem recursiveOptimizeProject_terminates (projection : Project) (plan : LogicalPlan)
    (fuel : Nat) (hfuel : heightList (projection.projection.map entryAlias) ≤ fuel + 1) :
    recursiveOptimizeProject fuel ⟨projection.input, projection.projection.map entryAlias⟩ plan 0 ≠
      .error .fuelExhausted :=
  recursiveOptimizeProject_ne_fuelExhausted fuel _ plan 0
    (aliasedEntries_map_entryAlias _) hfuel

theorem recursiveOptimizeProject_terminates_nested_udf :
    heightList ([function (.udf 1) [function (.udf 0) [column "a"]]].map entryAlias) ≤ 2 + 1 ∧
      recursiveOptimizeProject 2 ⟨.source ["a"],
        [function (.udf 1) [function (.udf 0) [column "a"]]].map entryAlias⟩ (.source ["a"]) 0 ≠
        .error .fuelExhausted :=
  ⟨by decide, recursiveOptimizeProject_terminates ⟨.source ["a"],
    [function (.udf 1) [function (.udf 0) [column "a"]]]⟩ (.source ["a"]) 2 (by decide)⟩

end Daft.SplitUdfs
