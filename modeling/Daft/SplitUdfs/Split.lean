import Daft.SplitUdfs.Rule
import Daft.SplitUdfs.Coverage

/-! # What `split_projection` returns

Each truncated expression that still has a UDF before a `list_map` is a root UDF
(`splitProjection_actorPool`). When every expression with a UDF is an alias, every entry of
`remaining` is a column or an alias strictly lower than the highest expression of the
projection (`splitProjection_remaining`): this is the measure the recursion decreases.
-/
namespace Daft.SplitUdfs
open Expr

theorem anyBeforeListMap_imp_any {f : Expr → Bool} :
    ∀ {ns : List Expr}, anyBeforeListMap f ns = true → ns.any f = true
  | [], h => by simp at h
  | n :: ns, h => by
    cases hf : f n
    · simp only [anyBeforeListMap_cons, hf, Bool.false_or, Bool.and_eq_true] at h
      simp [anyBeforeListMap_imp_any h.2]
    · simp [hf]

theorem existsSkipListMap_eq_false {e : Expr} (h : e.exists isUdf = false) :
    existsSkipListMap e isUdf = false := by
  rw [exists_eq_any] at h
  rw [existsSkipListMap_eq]
  cases h' : anyBeforeListMap isUdf e.preorder
  · rfl
  · simp [anyBeforeListMap_imp_any h'] at h

theorem exists_isUdf_of_isUdfAndShouldTruncateChildren :
    ∀ {e : Expr}, isUdfAndShouldTruncateChildren e = true → e.exists isUdf = true
  | .alias e n, h => by
    have ih := exists_isUdf_of_isUdfAndShouldTruncateChildren (e := e) (by simpa using h)
    rw [exists_eq_any] at ih ⊢
    simpa using ih
  | function f inputs, h => by
    rw [isUdfAndShouldTruncateChildren_function] at h
    simp [exists_eq_any, preorder_function, h]
  | column _, h | literal _, h => by cases h

/-- Every expression with a UDF is an alias: true of the entry-aliased projection and of every
`remaining` list. -/
def AliasedEntries (projection : List Expr) : Prop :=
  ∀ e ∈ projection, e.exists isUdf = true → e.isAlias = true

namespace SplitState

@[simp] theorem merge_truncatedExprs (st : SplitState) (cs : List Expr) :
    (st.merge cs).truncatedExprs = st.truncatedExprs := by
  induction cs generalizing st with
  | nil => rfl
  | cons c cs ih => simp only [merge, ih]; split <;> rfl

theorem mem_merge_newChildren {st : SplitState} {cs : List Expr} {z : Expr}
    (h : z ∈ (st.merge cs).newChildren) : z ∈ st.newChildren ∨ z ∈ cs := by
  induction cs generalizing st with
  | nil => exact .inl h
  | cons c cs ih =>
    simp only [merge] at h
    rcases ih h with h | h
    · split at h
      · exact .inl h
      · simp only [List.mem_append, List.mem_singleton] at h
        rcases h with h | rfl
        · exact .inl h
        · exact .inr (List.mem_cons_self _ _)
    · exact .inr (List.mem_cons_of_mem _ h)

@[simp] theorem pushTruncated_truncatedExprs (st : SplitState) (e : Expr) :
    (st.pushTruncated e).truncatedExprs = st.truncatedExprs ++ [e] := rfl

@[simp] theorem pushTruncated_newChildren (st : SplitState) (e : Expr) :
    (st.pushTruncated e).newChildren = st.newChildren := rfl

end SplitState

theorem mem_of_appended_nil {P : Expr → Prop} {l : List Expr} (h : Appended P [] l) :
    ∀ z ∈ l, P z := by
  obtain ⟨added, rfl, h⟩ := h
  simpa using h

theorem truncateAny_rewrite_alias {r r' : TruncateAnyUdfChildren} {x e' : Expr} {n : String}
    (hr : r.isListMap = false) (hx : x.isUdf = false)
    (h : r.rewrite (x.alias n) = .ok (r', e')) : ∃ x', r.rewrite x = .ok (r', x') ∧ e' = x'.alias n := by
  simp only [TruncateAnyUdfChildren.rewrite, hr, hx, Bool.not_false, Bool.and_false,
    Bool.false_eq_true, ite_false] at h
  obtain ⟨x1, h1, rfl⟩ := except_map_snd_eq_ok.mp h
  exact ⟨x1, h1, rfl⟩

/-- The three arms of one step of the loop: a root UDF is walked by `TruncateRootUDF`, another
entry with a UDF by `TruncateAnyUDFChildren`, and an entry without UDF is kept with its columns
recorded. `t` is what the step pushes to `truncated_exprs`, `added` what it merges into
`new_children`. -/
inductive SplitStepArm (stageIdx exprIdx : Nat) (e : Expr) : Expr → List Expr → Prop
  | rootUdf : isUdfAndShouldTruncateChildren e = true →
      SplitStepArm stageIdx exprIdx e ((TruncateRootUdf.new stageIdx exprIdx).rewrite e).2
        ((TruncateRootUdf.new stageIdx exprIdx).rewrite e).1.newChildren
  | anyUdfChildren {r : TruncateAnyUdfChildren} {t : Expr} : isUdfAndShouldTruncateChildren e = false →
      e.exists isUdf = true → (TruncateAnyUdfChildren.new stageIdx exprIdx).rewrite e = .ok (r, t) →
      SplitStepArm stageIdx exprIdx e t r.newChildren
  | noUdf : isUdfAndShouldTruncateChildren e = false → e.exists isUdf = false →
      SplitStepArm stageIdx exprIdx e e (e.getRequiredColumns.map column)

theorem splitStep_eq_ok {stageIdx exprIdx : Nat} {st st' : SplitState} {e : Expr}
    (h : splitStep stageIdx st exprIdx e = .ok st') :
    ∃ t added, SplitStepArm stageIdx exprIdx e t added ∧ st' = (st.pushTruncated t).merge added := by
  unfold splitStep at h
  split at h
  · next hroot => cases h; exact ⟨_, _, .rootUdf hroot, rfl⟩
  · next hroot =>
    split at h
    · next hex =>
      obtain ⟨⟨r, t⟩, h1, rfl⟩ := except_map_eq_ok.mp h
      exact ⟨t, r.newChildren, .anyUdfChildren (by simpa using hroot) hex h1, rfl⟩
    · next hex => cases h; exact ⟨_, _, .noUdf (by simpa using hroot) (by simpa using hex), rfl⟩

theorem splitStep_truncated {stageIdx exprIdx : Nat} {st st' : SplitState} {e : Expr}
    (h : splitStep stageIdx st exprIdx e = .ok st') :
    ∃ t, st'.truncatedExprs = st.truncatedExprs ++ [t] ∧
      (existsSkipListMap t isUdf = true → RootUdf t) := by
  obtain ⟨t, added, harm, rfl⟩ := splitStep_eq_ok h
  refine ⟨t, by simp, fun hs => ?_⟩
  cases harm with
  | rootUdf hroot => exact TruncateRootUdf.rewrite_rootUdf _ hroot
  | anyUdfChildren hroot _ h1 =>
    obtain ⟨r'', e'', h2, -, hc⟩ := TruncateAnyUdfChildren.rewrite_clean (r := .new stageIdx exprIdx)
      rfl e (isUdf_eq_false_of_isUdfAndShouldTruncateChildren hroot)
    rw [h1, Except.ok.injEq, Prod.mk.injEq] at h2
    rw [existsSkipListMap_eq, h2.2, hc] at hs
    cases hs
  | noUdf _ hex =>
    rw [existsSkipListMap_eq_false hex] at hs
    cases hs

theorem splitStep_newChildren {stageIdx exprIdx : Nat} {st st' : SplitState} {e : Expr}
    (he : e.exists isUdf = true → e.isAlias = true)
    (h : splitStep stageIdx st exprIdx e = .ok st') :
    ∀ z ∈ st'.newChildren, z ∈ st.newChildren ∨ Lifted (e.height - 1) z := by
  obtain ⟨t, added, harm, rfl⟩ := splitStep_eq_ok h
  intro z hz
  refine (SplitState.mem_merge_newChildren hz).imp_right fun hadded => ?_
  cases harm with
  | rootUdf hroot =>
    cases e with
    | «alias» x n =>
      simp only [TruncateRootUdf.rewrite, Prod.map_fst, id] at hadded
      exact (mem_of_appended_nil (TruncateRootUdf.rewrite_covers _ x).1 z hadded).lifted
    | _ => simp [exists_isUdf_of_isUdfAndShouldTruncateChildren hroot, isAlias] at he
  | anyUdfChildren hroot hex h1 =>
    cases e with
    | «alias» x n =>
      obtain ⟨x', h2, -⟩ := truncateAny_rewrite_alias rfl
        (isUdf_eq_false_of_isUdfAndShouldTruncateChildren (by simpa using hroot)) h1
      exact (mem_of_appended_nil (TruncateAnyUdfChildren.rewrite_covers h2).1 z hadded).lifted
    | _ => simp [hex, isAlias] at he
  | noUdf =>
    obtain ⟨c, -, rfl⟩ := List.mem_map.mp hadded
    exact lifted_column _ _

theorem Lifted.height_le {h : Nat} {z : Expr} (hz : Lifted h z) : z.height ≤ h := by
  rcases hz with hz | ⟨-, hz⟩
  · cases z <;> simp_all [isColumn]
  · exact hz

theorem heightList_le {es : List Expr} {b : Nat} (h : ∀ e ∈ es, e.height ≤ b) : heightList es ≤ b := by
  induction es with
  | nil => exact Nat.zero_le _
  | cons e es ih => exact max_le (h e (List.mem_cons_self _ _)) (ih fun x hx => h x (List.mem_cons_of_mem _ hx))

theorem splitLoop_actorPool {stageIdx : Nat} :
    ∀ {st st' : SplitState} {exprIdx : Nat} {exprs : List Expr},
      splitLoop stageIdx st exprIdx exprs = .ok st' →
      (∀ t ∈ st.truncatedExprs, existsSkipListMap t isUdf = true → RootUdf t) →
      ∀ t ∈ st'.truncatedExprs, existsSkipListMap t isUdf = true → RootUdf t
  | _, _, _, [], h, hst => by cases h; exact hst
  | st, _, _, e :: es, h, hst => by
    obtain ⟨st1, h1, h2⟩ := except_bind_eq_ok.mp h
    obtain ⟨t, ht, hroot⟩ := splitStep_truncated h1
    refine splitLoop_actorPool h2 fun x hx => ?_
    rw [ht, List.mem_append, List.mem_singleton] at hx
    rcases hx with hx | rfl
    · exact hst x hx
    · exact hroot

theorem splitLoop_remaining {stageIdx : Nat} {b : Nat} :
    ∀ {st st' : SplitState} {exprIdx : Nat} {exprs : List Expr},
      AliasedEntries exprs → (∀ e ∈ exprs, e.height ≤ b + 1) →
      splitLoop stageIdx st exprIdx exprs = .ok st' →
      (∀ z ∈ st.newChildren, Lifted b z) → ∀ z ∈ st'.newChildren, Lifted b z
  | _, _, _, [], _, _, h, hst => by cases h; exact hst
  | st, _, _, e :: es, ha, hb, h, hst => by
    obtain ⟨st1, h1, h2⟩ := except_bind_eq_ok.mp h
    refine splitLoop_remaining (fun x hx => ha x (List.mem_cons_of_mem _ hx))
      (fun x hx => hb x (List.mem_cons_of_mem _ hx)) h2 fun z hz => ?_
    rcases splitStep_newChildren (ha e (List.mem_cons_self _ _)) h1 z hz with hz | hz
    · exact hst z hz
    · exact hz.mono (by have := hb e (List.mem_cons_self _ _); omega)

theorem splitProjection_actorPool {projection truncated remaining : List Expr} {stageIdx : Nat}
    (h : splitProjection projection stageIdx = .ok (truncated, remaining)) :
    ∀ t ∈ truncated, existsSkipListMap t isUdf = true → RootUdf t := by
  obtain ⟨st, h1, h2⟩ := except_map_eq_ok.mp h
  simp only [Prod.mk.injEq] at h2
  exact h2.1 ▸ splitLoop_actorPool h1 (by simp)

theorem splitProjection_remaining {projection truncated remaining : List Expr} {stageIdx : Nat}
    (ha : AliasedEntries projection)
    (h : splitProjection projection stageIdx = .ok (truncated, remaining)) :
    ∀ z ∈ remaining, Lifted (heightList projection - 1) z := by
  obtain ⟨st, h1, h2⟩ := except_map_eq_ok.mp h
  simp only [Prod.mk.injEq] at h2
  refine h2.2 ▸ splitLoop_remaining ha (fun e he => ?_) h1 (by simp)
  have := le_heightList he
  omega

theorem aliasedEntries_of_lifted {b : Nat} {es : List Expr} (h : ∀ z ∈ es, Lifted b z) :
    AliasedEntries es := by
  intro z hz _
  rcases h z hz with hc | ⟨ha, -⟩
  · cases z <;> simp_all [isColumn, exists_eq_any, isUdf]
  · exact ha

/-- `split_projection` never fails: `TruncateAnyUDFChildren` is only started on an expression
whose root is not a UDF, and from there it never reaches its `unreachable!` arm. -/
theorem splitStep_ok (stageIdx : Nat) (st : SplitState) (exprIdx : Nat) (e : Expr) :
    ∃ st', splitStep stageIdx st exprIdx e = .ok st' := by
  unfold splitStep
  split
  · exact ⟨_, rfl⟩
  · next hroot =>
    split
    · obtain ⟨r', e', h, -⟩ := TruncateAnyUdfChildren.rewrite_clean
        (r := .new stageIdx exprIdx) rfl e
        (isUdf_eq_false_of_isUdfAndShouldTruncateChildren (by simpa using hroot))
      exact ⟨_, by rw [h]; rfl⟩
    · exact ⟨_, rfl⟩

theorem splitLoop_ok (stageIdx : Nat) :
    ∀ (st : SplitState) (exprIdx : Nat) (exprs : List Expr),
      ∃ st', splitLoop stageIdx st exprIdx exprs = .ok st'
  | st, _, [] => ⟨st, rfl⟩
  | st, exprIdx, e :: es => by
    obtain ⟨st1, h1⟩ := splitStep_ok stageIdx st exprIdx e
    obtain ⟨st2, h2⟩ := splitLoop_ok stageIdx st1 (exprIdx + 1) es
    exact ⟨st2, by simp [splitLoop, h1, h2]⟩

theorem splitProjection_ok (projection : List Expr) (stageIdx : Nat) :
    ∃ truncated remaining, splitProjection projection stageIdx = .ok (truncated, remaining) := by
  obtain ⟨st, h⟩ := splitLoop_ok stageIdx ⟨[], [], []⟩ 0 projection
  exact ⟨st.truncatedExprs, st.newChildren, by simp [splitProjection, h]⟩

end Daft.SplitUdfs
