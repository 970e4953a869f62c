import Daft.SplitUdfs.Coverage
import Daft.SplitUdfs.Idempotence
import Daft.SplitUdfs.Names
import Daft.SplitUdfs.Termination

/-! # Every stage resolves on projections without `list_map`

Without `list_map` each truncated expression reads only names of `remaining`, and each entry of
`remaining` only columns its projection entry reads (`splitProjection_covers`), so every `try_new`
of the chain succeeds (`buildStages_ok`, `recursiveOptimizeProject_ok`). Over a plan of such
projections the pass fails only by running out of `transform_down` fuel (`tryOptimize_resolves`).
-/
namespace Daft.SplitUdfs
open Expr

namespace SplitState

theorem names_merge {st : SplitState} (h : st.newChildrenSeen = st.newChildren.map Expr.name)
    (cs : List Expr) {n : String} (hn : n ∈ st.newChildren.map Expr.name ∨ n ∈ cs.map Expr.name) :
    n ∈ (st.merge cs).newChildren.map Expr.name := by
  induction cs generalizing st with
  | nil => simpa using hn
  | cons c cs ih =>
    simp only [List.map_cons, List.mem_cons] at hn
    simp only [merge]
    split
    · next hc =>
      have hc : c.name ∈ st.newChildren.map Expr.name := by simpa [h] using hc
      exact ih h (hn.elim .inl fun hn => hn.elim (fun hn => .inl (hn ▸ hc)) .inr)
    · refine ih (by simp [h]) (hn.elim (fun hn => .inl ?_) fun hn => hn.elim (fun hn => .inl ?_) .inr)
      · rw [List.map_append]; exact List.mem_append_left _ hn
      · rw [List.map_append]; exact List.mem_append_right _ (by simp [hn])

theorem merge_covers {st : SplitState} {e t : Expr} {cs : List Expr} (hst : st.NamesDistinct)
    (hc : Covers (cs.map Expr.name) t) (hcs : ∀ z ∈ cs, SubEntry e z) :
    Covers (((st.pushTruncated t).merge cs).newChildren.map Expr.name) t ∧
      (∀ n ∈ st.newChildren.map Expr.name,
        n ∈ ((st.pushTruncated t).merge cs).newChildren.map Expr.name) ∧
      ∀ z ∈ ((st.pushTruncated t).merge cs).newChildren, z ∈ st.newChildren ∨ SubEntry e z :=
  ⟨hc.mono fun _ hn => @names_merge (st.pushTruncated t) hst.1 cs _ (.inr hn),
    fun _ hn => @names_merge (st.pushTruncated t) hst.1 cs _ (.inl hn),
    fun z hz => (mem_merge_newChildren hz).imp_right (hcs z)⟩

end SplitState

theorem TruncateAnyUdfChildren.rewrite_alias_name {r r' : TruncateAnyUdfChildren} {x e' : Expr}
    {n : String} (h : r.rewrite (x.alias n) = .ok (r', e')) : e'.name = n := by
  simp only [TruncateAnyUdfChildren.rewrite] at h
  split at h
  · simp only [Except.ok.injEq, Prod.mk.injEq] at h
    rw [← h.2]; rfl
  · obtain ⟨e1, -, rfl⟩ := except_map_snd_eq_ok.mp h
    rfl

theorem splitStep_name {stageIdx exprIdx : Nat} {st st' : SplitState} {e : Expr}
    (he : e.exists isUdf = true → e.isAlias = true) (h : splitStep stageIdx st exprIdx e = .ok st') :
    st'.truncatedExprs.map Expr.name = st.truncatedExprs.map Expr.name ++ [e.name] := by
  obtain ⟨t, added, harm, rfl⟩ := splitStep_eq_ok h
  cases harm with
  | rootUdf hroot =>
    cases e with
    | «alias» x n => simp [TruncateRootUdf.rewrite]
    | _ => simp [exists_isUdf_of_isUdfAndShouldTruncateChildren hroot, isAlias] at he
  | anyUdfChildren _ hex h1 =>
    cases e with
    | «alias» x n => simp [TruncateAnyUdfChildren.rewrite_alias_name h1]
    | _ => simp [hex, isAlias] at he
  | noUdf => simp

theorem splitLoop_names {stageIdx : Nat} :
    ∀ {st st' : SplitState} {exprIdx : Nat} {exprs : List Expr}, AliasedEntries exprs →
      splitLoop stageIdx st exprIdx exprs = .ok st' →
      st'.truncatedExprs.map Expr.name = st.truncatedExprs.map Expr.name ++ exprs.map Expr.name
  | _, _, _, [], _, h => by cases h; simp
  | _, _, _, e :: _, ha, h => by
    obtain ⟨st1, h1, h2⟩ := except_bind_eq_ok.mp h
    rw [splitLoop_names (fun x hx => ha x (List.mem_cons_of_mem _ hx)) h2,
      splitStep_name (ha e (List.mem_cons_self _ _)) h1]
    simp

theorem splitProjection_names {projection truncated remaining : List Expr} {stageIdx : Nat}
    (ha : AliasedEntries projection)
    (h : splitProjection projection stageIdx = .ok (truncated, remaining)) :
    truncated.map Expr.name = projection.map Expr.name := by
  obtain ⟨st, h1, h2⟩ := except_map_eq_ok.mp h
  simp only [Prod.mk.injEq] at h2
  simpa [← h2.1] using splitLoop_names ha h1

theorem splitStep_covers {stageIdx exprIdx : Nat} {st st' : SplitState} {e : Expr}
    (hst : st.NamesDistinct) (hl : ListMapFree e) (h : splitStep stageIdx st exprIdx e = .ok st') :
    ∃ t, st'.truncatedExprs = st.truncatedExprs ++ [t] ∧ ListMapFree t ∧
      Covers (st'.newChildren.map Expr.name) t ∧
      (∀ n ∈ st.newChildren.map Expr.name, n ∈ st'.newChildren.map Expr.name) ∧
      ∀ z ∈ st'.newChildren, z ∈ st.newChildren ∨ SubEntry e z := by
  obtain ⟨t, added, harm, rfl⟩ := splitStep_eq_ok h
  cases harm with
  | rootUdf =>
    obtain ⟨h1, h2⟩ := TruncateRootUdf.rewrite_covers (.new stageIdx exprIdx) e
    exact ⟨_, by simp, (h2 hl).2, SplitState.merge_covers hst (h2 hl).1 (mem_of_appended_nil h1)⟩
  | anyUdfChildren _ _ h1 =>
    obtain ⟨h2, h3⟩ := TruncateAnyUdfChildren.rewrite_covers h1
    obtain ⟨-, h3, h4⟩ := h3 rfl hl
    exact ⟨_, by simp, h4, SplitState.merge_covers hst h3 (mem_of_appended_nil h2)⟩
  | noUdf =>
    refine ⟨e, by simp, hl, SplitState.merge_covers hst (fun c hc => by simpa using hc) ?_⟩
    intro z hz
    obtain ⟨c, hc, rfl⟩ := List.mem_map.mp hz
    exact .inl ⟨c, rfl, mem_getRequiredColumns.mp hc⟩

theorem splitLoop_covers {stageIdx : Nat} :
    ∀ {st st' : SplitState} {exprIdx : Nat} {exprs : List Expr}, st.NamesDistinct →
      (∀ e ∈ exprs, ListMapFree e) → splitLoop stageIdx st exprIdx exprs = .ok st' →
      (∀ t ∈ st.truncatedExprs, ListMapFree t ∧ Covers (st.newChildren.map Expr.name) t) →
      (∀ t ∈ st'.truncatedExprs, ListMapFree t ∧ Covers (st'.newChildren.map Expr.name) t) ∧
        ∀ z ∈ st'.newChildren, z ∈ st.newChildren ∨ ∃ e ∈ exprs, SubEntry e z
  | _, _, _, [], _, _, h, hst => by cases h; exact ⟨hst, fun z hz => .inl hz⟩
  | _, _, _, e :: _, hd, hl, h, hst => by
    obtain ⟨st1, h1, h2⟩ := except_bind_eq_ok.mp h
    obtain ⟨t, ht, htl, htc, hmono, hsub⟩ := splitStep_covers hd (hl e (List.mem_cons_self _ _)) h1
    obtain ⟨h3, h4⟩ := splitLoop_covers (splitStep_namesDistinct hd h1)
      (fun x hx => hl x (List.mem_cons_of_mem _ hx)) h2 fun x hx => by
        rw [ht, List.mem_append, List.mem_singleton] at hx
        rcases hx with hx | rfl
        · exact ⟨(hst x hx).1, (hst x hx).2.mono hmono⟩
        · exact ⟨htl, htc⟩
    refine ⟨h3, fun z hz => ?_⟩
    rcases h4 z hz with hz | ⟨x, hx, hz⟩
    · exact (hsub z hz).imp_right fun hz => ⟨e, List.mem_cons_self _ _, hz⟩
    · exact .inr ⟨x, List.mem_cons_of_mem _ hx, hz⟩

theorem splitProjection_covers {projection truncated remaining : List Expr} {stageIdx : Nat}
    (hl : ∀ e ∈ projection, ListMapFree e)
    (h : splitProjection projection stageIdx = .ok (truncated, remaining)) :
    (∀ t ∈ truncated, ListMapFree t ∧ Covers (remaining.map Expr.name) t) ∧
      ∀ z ∈ remaining, ∃ e ∈ projection, SubEntry e z := by
  obtain ⟨st, h1, h2⟩ := except_map_eq_ok.mp h
  simp only [Prod.mk.injEq] at h2
  obtain ⟨rfl, rfl⟩ := h2
  obtain ⟨h3, h4⟩ := splitLoop_covers
    (show SplitState.NamesDistinct ⟨[], [], []⟩ from ⟨rfl, List.nodup_nil⟩) hl h1 (by simp)
  exact ⟨h3, fun z hz => (h4 z hz).resolve_left (by simp)⟩

theorem statelessPassthroughColumns_column {child : LogicalPlan} {stateless : List Expr} {z : Expr}
    (h : z ∈ statelessPassthroughColumns child stateless) : ∃ n ∈ child.schema, z = column n := by
  obtain ⟨n, hn, hz⟩ := List.mem_filterMap.mp h
  split at hz
  · cases hz
  · exact ⟨n, hn, (Option.some.inj hz).symm⟩

theorem statelessProject_udfFree (child : LogicalPlan) (truncated : List Expr) :
    ∀ e ∈ statelessPassthroughColumns child (truncated.filter (!existsSkipListMap · isUdf)) ++
      truncated.filter (!existsSkipListMap · isUdf), existsSkipListMap e isUdf = false := fun e he => by
  rcases List.mem_append.mp he with he | he
  · obtain ⟨n, -, rfl⟩ := statelessPassthroughColumns_column he
    exact existsSkipListMap_column n
  · simpa using (List.mem_filter.mp he).2

theorem mem_statelessProject_schema (child : LogicalPlan) (stateless : List Expr) {n : String}
    (hn : n ∈ child.schema) :
    n ∈ (statelessPassthroughColumns child stateless ++ stateless).map Expr.name := by
  rw [List.map_append, List.mem_append]
  by_cases hs : n ∈ stateless.map Expr.name
  · exact .inr hs
  · exact .inl (List.mem_map.mpr ⟨column n, List.mem_filterMap.mpr ⟨n, hn, by simp [hs]⟩, rfl⟩)

theorem udfStages_ok : ∀ {child : LogicalPlan} {exprs : List Expr},
    (∀ e ∈ exprs, Covers child.schema e) →
    ∃ u, udfStages child exprs = .ok u ∧ (∀ n ∈ child.schema, n ∈ u.schema) ∧
      ∀ e ∈ exprs, e.name ∈ u.schema
  | child, [], _ => ⟨child, rfl, fun _ h => h, by simp⟩
  | child, e :: _, hc => by
    have hres : unresolvedColumn child.schema
        (e :: (child.schema.map column).filter (fun c => c.name != e.name)) = none := by
      refine unresolvedColumn_eq_none.mpr (List.forall_mem_cons.mpr ⟨hc e (List.mem_cons_self _ _), ?_⟩)
      intro z hz
      obtain ⟨n, hn, rfl⟩ := List.mem_map.mp (List.mem_filter.mp hz).1
      exact covers_column.mpr hn
    have hschema : ∀ n ∈ child.schema, n ∈ (LogicalPlan.udfProject child e
        ((child.schema.map column).filter (fun c => c.name != e.name))).schema := by
      intro n hn
      simp only [LogicalPlan.schema, List.mem_append, List.mem_singleton]
      by_cases h : n = e.name
      · exact .inr h
      · exact .inl (List.mem_map.mpr ⟨column n,
          List.mem_filter.mpr ⟨List.mem_map_of_mem _ hn, by simpa using h⟩, rfl⟩)
    obtain ⟨u, hu, h1, h2⟩ := udfStages_ok fun x hx => (hc x (List.mem_cons_of_mem _ hx)).mono hschema
    refine ⟨u, ?_, fun n hn => h1 n (hschema n hn),
      List.forall_mem_cons.mpr ⟨h1 _ (by simp [LogicalPlan.schema]), h2⟩⟩
    simp only [udfStages, UdfProject.tryNew_of_resolved hres, except_ok_bind, UdfProject.toPlan]
    exact hu

theorem buildStages_ok {projection : Project} {child : LogicalPlan} {truncated : List Expr}
    (hcols : ∀ t ∈ truncated, Covers child.schema t)
    (hnames : projection.projection.map Expr.name = truncated.map Expr.name) :
    ∃ t, buildStages projection child truncated = .ok t := by
  have hpre : unresolvedColumn child.schema
      (statelessPassthroughColumns child (truncated.filter (!existsSkipListMap · isUdf)) ++
        truncated.filter (!existsSkipListMap · isUdf)) = none := by
    refine unresolvedColumn_eq_none.mpr fun z hz => ?_
    rcases List.mem_append.mp hz with hz | hz
    · obtain ⟨n, hn, rfl⟩ := statelessPassthroughColumns_column hz
      exact covers_column.mpr hn
    · exact hcols z (List.mem_filter.mp hz).1
  obtain ⟨u, hu, h1, h2⟩ := @udfStages_ok (.project child
      (statelessPassthroughColumns child (truncated.filter (!existsSkipListMap · isUdf)) ++
        truncated.filter (!existsSkipListMap · isUdf)))
    (truncated.filter (existsSkipListMap · isUdf))
    fun x hx => (hcols x (List.mem_filter.mp hx).1).mono fun _ => mem_statelessProject_schema _ _
  have hfin : unresolvedColumn u.schema (projection.projection.map (column ·.name)) = none := by
    refine unresolvedColumn_eq_none.mpr fun z hz => ?_
    obtain ⟨e, he, rfl⟩ := List.mem_map.mp hz
    obtain ⟨t, ht, hte⟩ := List.mem_map.mp (hnames ▸ List.mem_map_of_mem Expr.name he)
    rw [getRequiredColumns_column, List.forall_mem_singleton, ← hte]
    cases hs : existsSkipListMap t isUdf
    · refine h1 _ (List.mem_map.mpr ⟨t, List.mem_append_right _ ?_, rfl⟩)
      exact List.mem_filter.mpr ⟨ht, by simp [hs]⟩
    · exact h2 t (List.mem_filter.mpr ⟨ht, hs⟩)
  exact ⟨_, by simp only [buildStages, List.partition_eq_filter_filter, Function.comp_def,
    Project.tryNew_of_resolved hpre, except_ok_bind, Project.toPlan, hu, Project.tryNew_of_resolved hfin]; rfl⟩

theorem mem_schema_of_all_isColumn {schema : List String} {remaining : List Expr}
    (hc : remaining.all isColumn = true) (hr : ∀ z ∈ remaining, Covers schema z) :
    ∀ n ∈ remaining.map Expr.name, n ∈ schema := by
  intro n hn
  obtain ⟨z, hz, rfl⟩ := List.mem_map.mp hn
  have hzc := List.all_eq_true.mp hc z hz
  cases z <;> simp [isColumn] at hzc
  exact covers_column.mp (hr _ hz)

theorem recursiveOptimizeProject_ok :
    ∀ (fuel : Nat) (projection : Project) (plan : LogicalPlan) (k : Nat),
      (∀ e ∈ projection.projection, Covers projection.input.schema e) →
      AliasedEntries projection.projection → (∀ e ∈ projection.projection, ListMapFree e) →
      heightList projection.projection ≤ fuel + 1 →
      ∃ t, recursiveOptimizeProject fuel projection plan k = .ok t := by
  intro fuel
  induction fuel with
  | zero => ?_
  | succ fuel ih => ?_
  all_goals
    intro projection plan k hres ha hl hfuel
    obtain ⟨truncated, remaining, hsplit⟩ := splitProjection_ok projection.projection k
    obtain ⟨htr, hrem⟩ := splitProjection_covers hl hsplit
    have hlift := splitProjection_remaining ha hsplit
    have hres' : ∀ z ∈ remaining, Covers projection.input.schema z := fun z hz =>
      let ⟨e, he, hz⟩ := hrem z hz; hz.covers (hres e he)
    have hbuild : ∀ child : LogicalPlan, (∀ n ∈ remaining.map Expr.name, n ∈ child.schema) →
        ∃ t, buildStages projection child truncated = .ok t := fun child hc =>
      buildStages_ok (fun t ht => (htr t ht).2.mono hc) (splitProjection_names ha hsplit).symm
    rw [recursiveOptimizeProject]
    split
    · exact ⟨_, rfl⟩
    simp only [hsplit]
    split
    · next hall =>
      obtain ⟨t, ht⟩ := hbuild _ (mem_schema_of_all_isColumn hall hres')
      exact ⟨t, except_bind_eq_ok.mpr ⟨_, rfl, ht⟩⟩
    obtain ⟨z, hz, hzc⟩ : ∃ z ∈ remaining, z.isColumn = false := by
      rename_i hall; simpa using hall
    have h1 := one_le_of_lifted (hlift z hz) hzc
  · exfalso; omega
  · obtain ⟨t', ht'⟩ := ih ⟨projection.input, remaining⟩ (.project projection.input remaining) (k + 1)
      hres' (aliasedEntries_of_lifted hlift)
      (fun z hz => let ⟨e, he, hz⟩ := hrem z hz; hz.listMapFree (hl e he))
      (heightList_le fun e he => by have := (hlift e he).height_le; omega)
    obtain ⟨t, ht⟩ := hbuild t'.data fun n hn => by
      rcases recursiveOptimizeProject_schema ht' with h | h <;> rw [h] <;> exact hn
    refine ⟨t, except_bind_eq_ok.mpr ⟨t'.data, except_bind_eq_ok.mpr ⟨_,
      Project.tryNew_of_resolved (unresolvedColumn_eq_none.mpr hres'), ?_⟩, ht⟩⟩
    show Transformed.data <$> _ = _
    rw [Project.toPlan, ht']
    rfl

/-- A `Project` that resolves against its input and holds no `list_map`, or any other operator. -/
def ResolvedWithoutListMap : LogicalPlan → Prop :=
  OnProjects fun schema projection =>
    unresolvedColumn schema projection = none ∧ ∀ e ∈ projection, ListMapFree e

instance : DecidablePred ResolvedWithoutListMap := inferInstanceAs (DecidablePred (OnProjects _))

theorem listMapFree_entryAlias {e : Expr} (h : ListMapFree e) : ListMapFree (entryAlias e) := by
  rcases entryAlias_eq e with he | he <;> rw [he]
  · exact h
  · exact listMapFree_alias.mpr h

theorem recursiveOptimizeProject_resolved {fuel : Nat} {projection : Project} {plan : LogicalPlan}
    {k : Nat} {t : Transformed LogicalPlan} (h : recursiveOptimizeProject fuel projection plan k = .ok t)
    (hplan : ∀ q ∈ plan.subtrees, ResolvedWithoutListMap q)
    (hin : ∀ q ∈ projection.input.subtrees, ResolvedWithoutListMap q)
    (hl : ∀ e ∈ projection.projection, ListMapFree e) :
    ∀ q ∈ t.data.subtrees, ResolvedWithoutListMap q := by
  rcases recursiveOptimizeProject_eq_ok h with ⟨rfl, -⟩ | ⟨truncated, remaining, child, hsplit, hchild, hb⟩
  · exact hplan
  obtain ⟨htr, hrem⟩ := splitProjection_covers hl hsplit
  obtain ⟨u, hpre, hu, hfin, rfl⟩ := buildStages_eq_ok hb
  have hchild : ∀ q ∈ child.subtrees, ResolvedWithoutListMap q := by
    rcases hchild with ⟨rfl, -⟩ | ⟨fuel', t', rfl, hres, hrec, rfl⟩
    · exact hin
    have hlr : ∀ z ∈ remaining, ListMapFree z := fun z hz =>
      let ⟨e, he, hz⟩ := hrem z hz; hz.listMapFree (hl e he)
    refine recursiveOptimizeProject_resolved hrec (fun q hq => ?_) hin hlr
    rcases List.mem_cons.mp hq with rfl | hq
    · exact ⟨hres, hlr⟩
    · exact hin q hq
  intro q hq
  rcases List.mem_cons.mp hq with rfl | hq
  · refine ⟨hfin, fun z hz => ?_⟩
    obtain ⟨e, -, rfl⟩ := List.mem_map.mp hz
    exact listMapFree_column _
  refine udfStages_onProjects hu (fun q hq => ?_) q hq
  rcases List.mem_cons.mp hq with rfl | hq
  · refine ⟨hpre, fun z hz => ?_⟩
    rcases List.mem_append.mp hz with hz | hz
    · obtain ⟨n, -, rfl⟩ := statelessPassthroughColumns_column hz
      exact listMapFree_column n
    · exact (htr z (List.mem_filter.mp hz).1).1
  · exact hchild q hq
termination_by fuel

theorem rule_ok {node : LogicalPlan} (hn : ResolvedWithoutListMap node) : ∃ t, rule node = .ok t := by
  cases node with
  | project input projection =>
    obtain ⟨hres, hl⟩ := hn
    have hres' : unresolvedColumn input.schema (projection.map entryAlias) = none := by simpa using hres
    obtain ⟨t, ht⟩ := recursiveOptimizeProject_ok _ ⟨input, projection.map entryAlias⟩
      (.project input projection) 0 (unresolvedColumn_eq_none.mp hres')
      (aliasedEntries_map_entryAlias _)
      (fun _ hx => by obtain ⟨e, he, rfl⟩ := List.mem_map.mp hx; exact listMapFree_entryAlias (hl e he))
      (Nat.le_succ _)
    exact ⟨t, by simp only [rule, tryOptimizeProject, Project.tryNew_of_resolved hres', except_ok_bind, ht]⟩
  | _ => exact ⟨_, rfl⟩

theorem rule_resolved {node : LogicalPlan} {t : Transformed LogicalPlan} (h : rule node = .ok t)
    (hn : ∀ q ∈ node.subtrees, ResolvedWithoutListMap q) : ∀ q ∈ t.data.subtrees, ResolvedWithoutListMap q := by
  cases node with
  | project input projection =>
    obtain ⟨-, hl⟩ := hn _ (LogicalPlan.mem_subtrees_self _)
    exact recursiveOptimizeProject_resolved (tryOptimizeProject_eq_ok h).2 hn
      (fun q hq => hn q (List.mem_cons_of_mem _ hq))
      fun _ hx => by obtain ⟨e, he, rfl⟩ := List.mem_map.mp hx; exact listMapFree_entryAlias (hl e he)
  | _ => cases h; exact hn

/-- On a plan whose `Project`s all resolve against their inputs and hold no `list_map`, every
`Project::try_new` and `UDFProject::try_new` of the rule succeeds: the pass fails only by running
out of `transform_down` fuel, and every `Project` of its result again resolves and holds no
`list_map`. -/
theorem tryOptimize_resolves {fuel : Nat} {p : LogicalPlan}
    (hp : ∀ q ∈ p.subtrees, ResolvedWithoutListMap q) :
    (∀ e, tryOptimize fuel p = .error e → e = .fuelExhausted) ∧
      ∀ r, tryOptimize fuel p = .ok r → ∀ q ∈ r.data.subtrees, ResolvedWithoutListMap q :=
  ⟨fun _ h => transformDown_error_of_invariant (fun _ hn => rule_ok hn)
      (fun _ _ ht hn => rule_resolved ht hn) hp h,
    fun _ h => transformDown_invariant (fun _ _ => rule_schema) (fun _ _ ht hn => rule_resolved ht hn)
      (fun _ _ => onProjects_withNewChildren) hp h⟩

theorem tryOptimize_resolves_nested_udf :
    (∀ q ∈ (LogicalPlan.project (.source ["a", "b"])
        [(function (.builtin 0) [function (.udf 1) [function (.udf 0) [column "a"]], column "b"]).alias "x"]).subtrees,
      ResolvedWithoutListMap q) ∧
    ((∀ e, tryOptimize 8 (.project (.source ["a", "b"])
        [(function (.builtin 0) [function (.udf 1) [function (.udf 0) [column "a"]], column "b"]).alias "x"]) =
          .error e → e = .fuelExhausted) ∧
      ∀ r, tryOptimize 8 (.project (.source ["a", "b"])
        [(function (.builtin 0) [function (.udf 1) [function (.udf 0) [column "a"]], column "b"]).alias "x"]) =
          .ok r → ∀ q ∈ r.data.subtrees, ResolvedWithoutListMap q) :=
  ⟨by decide, tryOptimize_resolves (by decide)⟩

end Daft.SplitUdfs
