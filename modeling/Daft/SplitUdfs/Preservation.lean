import Daft.SplitUdfs.Restore
import Daft.SplitUdfs.Semantics

/-! # The split computes what the projection computed

Reading a truncated expression from the row `remaining` computes is reading its projection entry
on the input (`eval_substitute`). The chain hands each stage the row it expects unless a UDF entry
reads a column another entry names (`NoShadow`). On plans that avoid this and the name clashes of
`Names` (`SplitSafe`), the rewritten plan computes every row as before (`tryOptimize_eval`).
-/
namespace Daft.SplitUdfs
open Expr LogicalPlan

section Substitution
variable {I : Interpretation}

mutual
theorem eval_substitute {σ : List (String × Expr)} {row row' : List (String × Int)} :
    ∀ {e : Expr}, (∀ c, column c ∈ e.preorder → row'.lookup c = (substitute σ (column c)).eval I row) →
      e.eval I row' = (substitute σ e).eval I row
  | column n, h => h n (List.mem_singleton_self _)
  | literal _, _ => rfl
  | .alias e n, h => by
    rw [substitute]
    exact eval_substitute (e := e) fun c hc => h c (by simp [hc])
  | function f inputs, h => by
    rw [substitute]
    simp only [Expr.eval,
      @evalList_substitute σ row row' inputs fun c hc => h c (by simp [preorder_function, hc])]
termination_by structural e => e
theorem evalList_substitute {σ : List (String × Expr)} {row row' : List (String × Int)} :
    ∀ {es : List Expr}, (∀ c, column c ∈ preorderList es →
        row'.lookup c = (substitute σ (column c)).eval I row) →
      evalList I row' es = evalList I row (substituteList σ es)
  | [], _ => rfl
  | e :: es, h => by
    rw [substituteList]
    simp only [Expr.evalList, eval_substitute (e := e) fun c hc => h c (by simp [hc]),
      @evalList_substitute σ row row' es fun c hc => h c (by simp [hc])]
termination_by structural es => es
end

theorem eval_congr {row row' : List (String × Int)} {e : Expr}
    (h : ∀ c, column c ∈ e.preorder → row.lookup c = row'.lookup c) : e.eval I row = e.eval I row' := by
  rw [@eval_substitute I [] row' row e h, substitute_of_unbound (σ := []) fun _ _ => rfl]

mutual
theorem eval_isSome {row : List (String × Int)} :
    ∀ {e : Expr}, (∀ c, column c ∈ e.preorder → c ∈ row.map Prod.fst) → (e.eval I row).isSome
  | column n, h => isSome_lookup_of_mem (h n (List.mem_singleton_self _))
  | literal _, _ => rfl
  | .alias e _, h => eval_isSome (e := e) fun c hc => h c (by simp [hc])
  | function f inputs, h => by
    obtain ⟨vs, hvs⟩ := Option.isSome_iff_exists.mp
      (@evalList_isSome row inputs fun c hc => h c (by simp [preorder_function, hc]))
    simp [Expr.eval, hvs]
termination_by structural e => e
theorem evalList_isSome {row : List (String × Int)} :
    ∀ {es : List Expr}, (∀ c, column c ∈ preorderList es → c ∈ row.map Prod.fst) →
      (evalList I row es).isSome
  | [], _ => rfl
  | e :: es, h => by
    obtain ⟨v, hv⟩ := Option.isSome_iff_exists.mp (eval_isSome (e := e) fun c hc => h c (by simp [hc]))
    obtain ⟨vs, hvs⟩ := Option.isSome_iff_exists.mp
      (@evalList_isSome row es fun c hc => h c (by simp [hc]))
    simp [Expr.evalList, hv, hvs]
termination_by structural es => es
end

theorem Covers.eval_isSome {row : List (String × Int)} {e : Expr} (h : Covers (row.map Prod.fst) e) :
    (e.eval I row).isSome :=
  Daft.SplitUdfs.eval_isSome fun c hc => h c (mem_getRequiredColumns.mpr hc)

@[simp] theorem eval_entryAlias (row : List (String × Int)) (e : Expr) :
    (entryAlias e).eval I row = e.eval I row := by
  rcases entryAlias_eq e with h | h <;> rw [h]; rfl

theorem find?_name_of_nodup {e : Expr} :
    ∀ {es : List Expr}, (es.map Expr.name).Nodup → e ∈ es → es.find? (·.name == e.name) = some e
  | x :: xs, hnd, he => by
    rw [List.map_cons, List.nodup_cons] at hnd
    rcases List.mem_cons.mp he with rfl | he
    · simp
    · have hne : (x.name == e.name) = false :=
        beq_eq_false_iff_ne.mpr fun h' => hnd.1 (h' ▸ List.mem_map_of_mem _ he)
      rw [List.find?_cons, hne]
      exact find?_name_of_nodup hnd.2 he

theorem lookup_evalExprs_of_mem {row : List (String × Int)} {e : Expr} :
    ∀ {es : List Expr} {out : List (String × Int)}, evalExprs I row es = some out →
      (es.map Expr.name).Nodup → e ∈ es → out.lookup e.name = e.eval I row
  | x :: xs, _, h, hnd, he => by
    obtain ⟨v, vs, hv, hvs, rfl⟩ := evalExprs_cons_eq_some.mp h
    rw [List.map_cons, List.nodup_cons] at hnd
    rcases List.mem_cons.mp he with rfl | he
    · simp [List.lookup_cons, hv]
    · have hne : (e.name == x.name) = false :=
        beq_eq_false_iff_ne.mpr fun h' => hnd.1 (h' ▸ List.mem_map_of_mem _ he)
      rw [List.lookup_cons, hne]
      exact lookup_evalExprs_of_mem hvs hnd.2 he

end Substitution

/-- No expression with a UDF reads a column another expression names, unless that expression is
the column itself. -/
def NoShadow (projection : List Expr) : Prop :=
  ∀ e ∈ projection, e.exists isUdf = true → ∀ c ∈ e.getRequiredColumns,
    ∀ e' ∈ projection, e'.name = c → e' = e ∨ e' = column c

instance : DecidablePred NoShadow := fun _ => inferInstanceAs (Decidable (∀ _ ∈ _, _))

/-- What the recursion keeps at stage `s` of a projection over an input of schema `schema`. -/
structure SplitLevel (s : Nat) (schema : List String) (projection : List Expr) : Prop where
  covers : ∀ e ∈ projection, Covers schema e
  aliased : AliasedEntries projection
  listMapFree : ∀ e ∈ projection, ListMapFree e
  nodup : (projection.map Expr.name).Nodup
  schemaFresh : ∀ c ∈ schema, ∀ s', ¬ IsIntermediate s' c
  namesFresh : ∀ e ∈ projection, ∀ s', s ≤ s' → ¬ IsIntermediate s' e.name
  noShadow : NoShadow projection
  oneLiftSite : ∀ e ∈ projection, ∀ x ∈ e.preorder, liftSites x ≤ 1

/-- What a split at stage `s` returns: truncated expressions of the entries' names that
`remaining` puts back together, reading only names of `remaining`, whose entries have distinct
names and are columns or aliases under intermediate names of stage `s`. -/
structure Truncation (s : Nat) (projection truncated remaining : List Expr) : Prop where
  restored : List.Forall₂ (fun e t => t.name = e.name ∧
    substitute (liftedBindings remaining) t = e ∧ (e.exists isUdf = true ∨ t = e)) projection truncated
  covers : ∀ t ∈ truncated, Covers (remaining.map Expr.name) t
  nodup : (remaining.map Expr.name).Nodup
  named : ∀ z ∈ remaining, NamedBefore s projection.length z

theorem Forall₂.and_map_eq {α β γ : Type} {R : α → β → Prop} {f : β → γ} {g : α → γ} :
    ∀ {xs : List α} {ys : List β}, List.Forall₂ R xs ys → ys.map f = xs.map g →
      List.Forall₂ (fun x y => f y = g x ∧ R x y) xs ys
  | [], [], .nil, _ => .nil
  | _ :: _, _ :: _, .cons h hs, hm => by
    simp only [List.map_cons, List.cons.injEq] at hm
    exact .cons ⟨hm.1, h⟩ (Forall₂.and_map_eq hs hm.2)

namespace SplitLevel
variable {s : Nat} {schema : List String} {projection : List Expr}

theorem columns_fresh (hL : SplitLevel s schema projection) {e : Expr} (he : e ∈ projection) :
    ∀ c ∈ e.getRequiredColumns, ∀ s', ¬ IsIntermediate s' c :=
  fun c hc => hL.schemaFresh c (hL.covers e he c hc)

theorem truncation (hL : SplitLevel s schema projection) {truncated remaining : List Expr}
    (h : splitProjection projection s = .ok (truncated, remaining)) :
    Truncation s projection truncated remaining := by
  have hnd : (remaining.map Expr.name).Nodup := by
    obtain ⟨st, h1, h2⟩ := except_map_eq_ok.mp h
    simp only [Prod.mk.injEq] at h2
    exact h2.2 ▸ (splitLoop_namesDistinct
      (show SplitState.NamesDistinct ⟨[], [], []⟩ from ⟨rfl, List.nodup_nil⟩) h1).2
  obtain ⟨hnamed, hres⟩ := splitProjection_restores
    (fun e he => ⟨hL.listMapFree e he, hL.columns_fresh he, hL.oneLiftSite e he⟩) h
  refine ⟨?_, fun t ht => ((splitProjection_covers hL.listMapFree h).1 t ht).2, hnd, hnamed⟩
  refine ((List.forall₂_and_left _ _).mpr ⟨fun _ h => h,
    Forall₂.and_map_eq hres (splitProjection_names hL.aliased h)⟩).imp fun e t ⟨hmem, hn, hr, he⟩ =>
      ⟨hn, substitute_liftedBindings hnd hnamed (hL.columns_fresh hmem) hr, he⟩

theorem remaining (hL : SplitLevel s schema projection) {truncated remaining : List Expr}
    (hT : Truncation s projection truncated remaining)
    (hsub : ∀ z ∈ remaining, ∃ e ∈ projection, SubEntry e z) : SplitLevel (s + 1) schema remaining where
  covers z hz := let ⟨e, he, hz⟩ := hsub z hz; hz.covers (hL.covers e he)
  aliased z hz hu := by
    rcases hT.named z hz with ⟨c, rfl, -⟩ | ⟨x, n, rfl, -⟩
    · simp [exists_eq_any, isUdf] at hu
    · rfl
  listMapFree z hz := let ⟨e, he, hz⟩ := hsub z hz; hz.listMapFree (hL.listMapFree e he)
  nodup := hT.nodup
  schemaFresh := hL.schemaFresh
  namesFresh z hz s' hs' := by
    rcases hT.named z hz with ⟨c, rfl, hc⟩ | ⟨x, n, rfl, rw, i, k, hrw, -, rfl⟩
    · exact hc s'
    · rintro ⟨rw', i', k', hrw', h⟩
      have := (intermediateName_inj hrw hrw' h).2.1
      omega
  noShadow z hz _ c hc z' hz' hn := by
    obtain ⟨e, he, hze⟩ := hsub z hz
    have hcf := hL.schemaFresh c (hze.covers (hL.covers e he) c hc)
    rcases hT.named z' hz' with ⟨c', rfl, -⟩ | ⟨x, n, rfl, rw, i, k, hrw, -, rfl⟩
    · exact .inr (by rw [← hn]; rfl)
    · exact absurd ⟨rw, i, k, hrw, hn.symm⟩ (hcf s)
  oneLiftSite z hz x hx := by
    obtain ⟨e, he, hze⟩ := hsub z hz
    rcases hze with ⟨c, rfl, -⟩ | ⟨y, hy, n, rfl⟩
    · rw [preorder_column, List.mem_singleton] at hx
      subst hx
      exact Nat.zero_le 1
    · have hye : y ∈ e.preorder := by rw [preorder_eq_cons]; exact List.mem_cons_of_mem _ hy
      rw [preorder_alias, List.mem_cons] at hx
      rcases hx with rfl | hx
      · unfold liftSites
        split
        · exact le_refl 1
        · exact hL.oneLiftSite e he y hye
      · exact hL.oneLiftSite e he x (preorder_subset_of_mem hye hx)

end SplitLevel

section Chain
variable {I : Interpretation} {x : List (String × Int)}

theorem statelessPassthroughColumns_eq (child : LogicalPlan) (stateless : List Expr) :
    statelessPassthroughColumns child stateless =
      (child.schema.filter fun m => !(stateless.map Expr.name).contains m).map column := by
  unfold statelessPassthroughColumns
  generalize child.schema = names
  induction names with
  | nil => rfl
  | cons m ms ih =>
    simp only [List.filterMap_cons, List.filter_cons]
    by_cases h : (stateless.map Expr.name).contains m = true
    · simp only [h, ite_true, Bool.not_true, Bool.false_eq_true, ite_false, ih]
    · simp only [h, Bool.false_eq_true, ite_false, Bool.not_false, ite_true, List.map_cons, ih]

theorem statelessProject_eval {child : LogicalPlan} {stateless : List Expr} {rowC : List (String × Int)}
    (hc : child.eval I x = some rowC) (hnd : (stateless.map Expr.name).Nodup)
    (hs : ∀ t ∈ stateless, (t.eval I rowC).isSome) :
    ∃ rowP, (project child (statelessPassthroughColumns child stateless ++ stateless)).eval I x =
        some rowP ∧ (∀ n ∉ stateless.map Expr.name, rowP.lookup n = rowC.lookup n) ∧
      ∀ t ∈ stateless, rowP.lookup t.name = t.eval I rowC := by
  rw [statelessPassthroughColumns_eq, ← LogicalPlan.eval_keys I x hc]
  obtain ⟨rowP, hP⟩ := evalExprs_passthrough_isSome (p := fun m => !(stateless.map Expr.name).contains m) hs
  have hl := lookup_evalExprs_passthrough (fun t ht => by simpa using ⟨t, ht, rfl⟩) hP
  refine ⟨rowP, by simp only [LogicalPlan.eval, hc, Option.bind_eq_bind, Option.some_bind, hP],
    fun n hn => by rw [hl, if_pos (by simpa using hn)], fun t ht => ?_⟩
  rw [hl, if_neg (by simpa [and_assoc] using List.mem_map_of_mem Expr.name ht), find?_name_of_nodup hnd ht]
  rfl

theorem udfStage_eval {child : LogicalPlan} {a : Expr} {row : List (String × Int)}
    (hc : child.eval I x = some row) (hs : (a.eval I row).isSome) :
    ∃ row1, (UdfProject.toPlan ⟨child, a, (child.schema.map column).filter (·.name != a.name)⟩).eval I x =
        some row1 ∧ row1.lookup a.name = a.eval I row ∧ ∀ n, n ≠ a.name → row1.lookup n = row.lookup n := by
  have hpass : (child.schema.map column).filter (·.name != a.name) =
      ((row.map Prod.fst).filter (· != a.name)).map column := by
    rw [LogicalPlan.eval_keys I x hc, List.filter_map]; rfl
  obtain ⟨row1, h1⟩ := evalExprs_passthrough_isSome (p := (· != a.name)) (List.forall_mem_singleton.mpr hs)
  have hl := lookup_evalExprs_passthrough (p := (· != a.name)) (by simp) h1
  refine ⟨row1, ?_, by simpa using hl a.name, fun n hn => by simpa [hn] using hl n⟩
  simp only [UdfProject.toPlan, LogicalPlan.eval, hc, Option.bind_eq_bind, Option.some_bind, hpass, h1]

theorem udfStages_eval :
    ∀ {child u : LogicalPlan} {stages : List Expr} {row : List (String × Int)},
      udfStages child stages = .ok u → child.eval I x = some row → (stages.map Expr.name).Nodup →
      (∀ a ∈ stages, (a.eval I row).isSome) →
      (∀ a ∈ stages, ∀ c, column c ∈ a.preorder → ∀ a' ∈ stages, a'.name = c → a' = a) →
      ∃ rowU, u.eval I x = some rowU ∧ (∀ n ∉ stages.map Expr.name, rowU.lookup n = row.lookup n) ∧
        ∀ a ∈ stages, rowU.lookup a.name = a.eval I row
  | _, _, [], _, h, hc, _, _, _ => by cases h; exact ⟨_, hc, fun _ _ => rfl, by simp⟩
  | child, _, a :: stages, row, h, hc, hnd, hs, hr => by
    obtain ⟨-, h⟩ := udfStages_cons_eq_ok h
    obtain ⟨row1, hstage, hself, hother⟩ := udfStage_eval hc (hs a (List.mem_cons_self _ _))
    obtain ⟨hna, hnd⟩ := List.nodup_cons.mp hnd
    -- the later stages read no column the stage adds
    have hsame : ∀ a' ∈ stages, a'.eval I row1 = a'.eval I row := fun a' ha' =>
      eval_congr fun c hc => hother c fun hca => hna <| by
        rw [hr a' (List.mem_cons_of_mem _ ha') c hc a (List.mem_cons_self _ _) hca.symm]
        exact List.mem_map_of_mem _ ha'
    obtain ⟨rowU, hU, hUn, hUa⟩ := udfStages_eval h hstage hnd
      (fun a' ha' => hsame a' ha' ▸ hs a' (List.mem_cons_of_mem _ ha'))
      fun a' ha' c hc a'' ha'' hn =>
        hr a' (List.mem_cons_of_mem _ ha') c hc a'' (List.mem_cons_of_mem _ ha'') hn
    refine ⟨rowU, hU, fun n hn => ?_, fun a' ha' => ?_⟩
    · rw [List.map_cons, List.mem_cons, not_or] at hn
      rw [hUn n hn.2, hother n hn.1]
    · rcases List.mem_cons.mp ha' with rfl | ha'
      · rw [hUn _ hna, hself]
      · rw [hUa a' ha', hsame a' ha']

theorem udfStages_eval_none :
    ∀ {child u : LogicalPlan} {stages : List Expr}, udfStages child stages = .ok u →
      child.eval I x = none → u.eval I x = none
  | _, _, [], h, hc => by cases h; exact hc
  | _, _, _ :: _, h, hc => by
    obtain ⟨-, h⟩ := udfStages_cons_eq_ok h
    exact udfStages_eval_none h (by simp [UdfProject.toPlan, LogicalPlan.eval, hc])

end Chain

mutual
theorem mem_preorder_substitute {σ : List (String × Expr)} {c : String} (hσ : σ.lookup c = none) :
    ∀ {t : Expr}, column c ∈ t.preorder → column c ∈ (substitute σ t).preorder
  | column n, h => by
    rw [preorder_column, List.mem_singleton, column.injEq] at h
    subst h
    simp [substitute, hσ]
  | literal _, h => h
  | .alias t n, h => by
    rw [preorder_alias, List.mem_cons] at h
    rcases h with h | h
    · cases h
    · rw [substitute, preorder_alias]
      exact List.mem_cons_of_mem _ (mem_preorder_substitute hσ h)
  | function f inputs, h => by
    rw [preorder_function, List.mem_cons] at h
    rcases h with h | h
    · cases h
    · rw [substitute, preorder_function]
      exact List.mem_cons_of_mem _ (mem_preorderList_substitute hσ h)
termination_by structural t => t
theorem mem_preorderList_substitute {σ : List (String × Expr)} {c : String} (hσ : σ.lookup c = none) :
    ∀ {ts : List Expr}, column c ∈ preorderList ts → column c ∈ preorderList (substituteList σ ts)
  | [], h => h
  | t :: ts, h => by
    rw [preorderList_cons, List.mem_append] at h
    rw [substituteList, preorderList_cons, List.mem_append]
    exact h.imp (mem_preorder_substitute hσ) (mem_preorderList_substitute hσ)
termination_by structural ts => ts
end

theorem exists_of_existsSkipListMap {t : Expr} (h : existsSkipListMap t isUdf = true) :
    t.exists isUdf = true := by
  rw [exists_eq_any]; rw [existsSkipListMap_eq] at h; exact anyBeforeListMap_imp_any h

theorem name_not_mem_filter {p : Expr → Bool} {l : List Expr} {t : Expr} (hnd : (l.map Expr.name).Nodup)
    (ht : t ∈ l) (hp : p t = false) : t.name ∉ (l.filter p).map Expr.name := fun h => by
  obtain ⟨a, ha, hn⟩ := List.mem_map.mp h
  obtain ⟨ha, hpa⟩ := List.mem_filter.mp ha
  rw [List.inj_on_of_nodup_map hnd ha ht hn, hp] at hpa
  cases hpa

namespace Truncation
variable {s : Nat} {schema : List String} {projection truncated remaining : List Expr}
  {I : Interpretation} {row0 rowP rowC : List (String × Int)}

theorem lookup_remaining (hT : Truncation s projection truncated remaining)
    (hrow : ∀ z ∈ remaining, rowC.lookup z.name = z.eval I row0) {c : String}
    (hc : c ∈ remaining.map Expr.name) :
    rowC.lookup c = (substitute (liftedBindings remaining) (column c)).eval I row0 := by
  obtain ⟨z, hz, rfl⟩ := List.mem_map.mp hc
  rw [hrow z hz]
  rcases hT.named z hz with ⟨c, rfl, -⟩ | ⟨x, n, rfl, -⟩
  · have hnone : (liftedBindings remaining).lookup c = none :=
      lookup_liftedBindings_eq_none fun x hx =>
        absurd (List.inj_on_of_nodup_map hT.nodup hx hz rfl) (by simp)
    simp [substitute, hnone]
  · simp [substitute, lookup_liftedBindings_of_mem hT.nodup hz, Expr.eval]

theorem eval (hT : Truncation s projection truncated remaining)
    (hrow : ∀ z ∈ remaining, rowC.lookup z.name = z.eval I row0) :
    List.Forall₂ (fun e t => t.name = e.name ∧ t.eval I rowC = e.eval I row0 ∧
      (e.exists isUdf = true ∨ t = e)) projection truncated := by
  have hmem : List.Forall₂ (fun e t => t ∈ truncated ∧ (t.name = e.name ∧
      substitute (liftedBindings remaining) t = e ∧ (e.exists isUdf = true ∨ t = e))) projection truncated :=
    (((List.forall₂_and_left _ _).mpr ⟨fun _ h => h, hT.restored.flip⟩).flip).imp fun _ _ h => h
  refine hmem.imp fun e t ⟨ht, hn, hsub, hu⟩ => ⟨hn, ?_, hu⟩
  rw [← hsub]
  exact eval_substitute fun c hc =>
    hT.lookup_remaining hrow (hT.covers t ht c (mem_getRequiredColumns.mpr hc))

theorem names_eq (hT : Truncation s projection truncated remaining) :
    truncated.map Expr.name = projection.map Expr.name :=
  Forall₂.map_eq (fun _ _ h => h.1) hT.restored

theorem read_named (hL : SplitLevel s schema projection) (hT : Truncation s projection truncated remaining)
    {a t : Expr} (ha : a ∈ truncated) (hau : a.exists isUdf = true) {c : String}
    (hc : column c ∈ a.preorder) (ht : t ∈ truncated) (hn : t.name = c) : t = a ∨ t = column c := by
  obtain ⟨ea, hea, hna, hsa, hua⟩ := Forall₂.exists_of_mem hT.restored a ha
  obtain ⟨et, het, hnt, -, hut⟩ := Forall₂.exists_of_mem hT.restored t ht
  cases hσ : (liftedBindings remaining).lookup c with
  | some x =>
    exfalso
    rcases hT.named _ (mem_of_lookup_liftedBindings hσ) with ⟨c', hz, -⟩ | ⟨y, n, hz, rw, i, k, hrw, -, hk⟩
    · cases hz
    · cases hz
      exact hL.namesFresh et het s le_rfl ⟨rw, i, k, hrw, hnt ▸ hn ▸ hk⟩
  | none =>
    have hce : c ∈ ea.getRequiredColumns :=
      mem_getRequiredColumns.mpr (hsa ▸ mem_preorder_substitute hσ hc)
    rcases hL.noShadow ea hea (hua.elim id fun h => h ▸ hau) c hce et het (hnt ▸ hn) with rfl | rfl
    · exact .inl (List.inj_on_of_nodup_map (hT.names_eq ▸ hL.nodup) ht ha (hnt.trans hna.symm))
    · exact .inr (hut.resolve_left (by simp [exists_eq_any, isUdf]))

theorem eval_udfStage (hL : SplitLevel s schema projection) (hT : Truncation s projection truncated remaining)
    (hPn : ∀ n ∉ (truncated.filter (!existsSkipListMap · isUdf)).map Expr.name, rowP.lookup n = rowC.lookup n)
    (hPS : ∀ t ∈ truncated.filter (!existsSkipListMap · isUdf), rowP.lookup t.name = t.eval I rowC)
    {a : Expr} (ha : a ∈ truncated.filter (existsSkipListMap · isUdf)) : a.eval I rowP = a.eval I rowC :=
  eval_congr fun c hc => by
    obtain ⟨ha, has⟩ := List.mem_filter.mp ha
    by_cases hsc : c ∈ (truncated.filter (!existsSkipListMap · isUdf)).map Expr.name
    · obtain ⟨t, ht, rfl⟩ := List.mem_map.mp hsc
      obtain ⟨ht', hts⟩ := List.mem_filter.mp ht
      rw [hPS t ht]
      rcases hT.read_named hL ha (exists_of_existsSkipListMap has) hc ht' rfl with h | h
      · rw [h, has] at hts; cases hts
      · rw [h]; rfl
    · exact hPn c hsc

theorem read_udfStage (hL : SplitLevel s schema projection) (hT : Truncation s projection truncated remaining)
    {a a' : Expr} (ha : a ∈ truncated.filter (existsSkipListMap · isUdf))
    (ha' : a' ∈ truncated.filter (existsSkipListMap · isUdf)) {c : String} (hc : column c ∈ a.preorder)
    (hn : a'.name = c) : a' = a := by
  obtain ⟨ha, has⟩ := List.mem_filter.mp ha
  obtain ⟨ha', has'⟩ := List.mem_filter.mp ha'
  refine (hT.read_named hL ha (exists_of_existsSkipListMap has) hc ha' hn).resolve_right fun h => ?_
  rw [h, existsSkipListMap_column] at has'
  cases has'

end Truncation

theorem buildStages_eval {input child : LogicalPlan} {projection truncated remaining : List Expr}
    {s : Nat} {t : Transformed LogicalPlan} {I : Interpretation} {x row0 rowC : List (String × Int)}
    (hL : SplitLevel s input.schema projection) (hT : Truncation s projection truncated remaining)
    (hin : input.eval I x = some row0) (hc : child.eval I x = some rowC)
    (hrow : ∀ z ∈ remaining, rowC.lookup z.name = z.eval I row0)
    (h : buildStages ⟨input, projection⟩ child truncated = .ok t) :
    t.data.eval I x = evalExprs I row0 projection := by
  obtain ⟨u, -, hu, -, rfl⟩ := buildStages_eq_ok h
  have hET := hT.eval hrow
  have hTnd : (truncated.map Expr.name).Nodup := hT.names_eq ▸ hL.nodup
  have hTsome : ∀ t ∈ truncated, (t.eval I rowC).isSome := fun t ht => by
    obtain ⟨e, he, -, hv, -⟩ := Forall₂.exists_of_mem hET t ht
    rw [hv]
    exact Covers.eval_isSome (by rw [LogicalPlan.eval_keys I x hin]; exact hL.covers e he)
  obtain ⟨rowP, hP, hPn, hPS⟩ := @statelessProject_eval I x _ (truncated.filter (!existsSkipListMap · isUdf))
    _ hc (hTnd.sublist ((List.filter_sublist _).map _)) fun t ht => hTsome t (List.mem_filter.mp ht).1
  have hAP := fun a (ha : a ∈ truncated.filter (existsSkipListMap · isUdf)) => hT.eval_udfStage hL hPn hPS ha
  obtain ⟨rowU, hU, hUn, hUa⟩ := udfStages_eval hu hP (hTnd.sublist ((List.filter_sublist _).map _))
    (fun a ha => (hAP a ha).symm ▸ hTsome a (List.mem_filter.mp ha).1)
    fun a ha c hc a' ha' hn => hT.read_udfStage hL ha ha' hc hn
  -- each column the final select reads holds the value of its truncated expression
  have hsel : ∀ t ∈ truncated, rowU.lookup t.name = t.eval I rowC := fun t ht => by
    cases hts : existsSkipListMap t isUdf
    · rw [hUn _ (name_not_mem_filter hTnd ht hts), hPS t (List.mem_filter.mpr ⟨ht, by simp [hts]⟩)]
    · have hA : t ∈ truncated.filter (existsSkipListMap · isUdf) := List.mem_filter.mpr ⟨ht, hts⟩
      rw [hUa t hA, hAP t hA]
  show (u.project _).eval I x = _
  simp only [LogicalPlan.eval, hU, Option.bind_eq_bind, Option.some_bind]
  refine evalExprs_congr (List.forall₂_map_left_iff.mpr (List.forall₂_same.mpr fun e he => ?_))
  obtain ⟨t, ht, htn, htv, -⟩ := Forall₂.exists_of_mem hET.flip e he
  exact ⟨rfl, by rw [← htv, ← hsel t ht, htn]; rfl⟩

theorem buildStages_eval_none {projection : Project} {child : LogicalPlan} {truncated : List Expr}
    {t : Transformed LogicalPlan} {I : Interpretation} {x : List (String × Int)}
    (hc : child.eval I x = none) (h : buildStages projection child truncated = .ok t) :
    t.data.eval I x = none := by
  obtain ⟨u, -, hu, -, rfl⟩ := buildStages_eq_ok h
  have hU := @udfStages_eval_none I x _ _ _ hu (by simp [LogicalPlan.eval, hc])
  simp [LogicalPlan.eval, hU]

theorem buildStages_equiv {input child : LogicalPlan} {projection truncated remaining : List Expr}
    {s : Nat} {t : Transformed LogicalPlan}
    (hL : SplitLevel s input.schema projection) (hT : Truncation s projection truncated remaining)
    (hnone : ∀ I x, input.eval I x = none → child.eval I x = none)
    (hsome : ∀ I x row0, input.eval I x = some row0 → ∃ rowC, child.eval I x = some rowC ∧
      ∀ z ∈ remaining, rowC.lookup z.name = z.eval I row0)
    (h : buildStages ⟨input, projection⟩ child truncated = .ok t) :
    t.data.Equiv (.project input projection) := fun I x => by
  cases hin : input.eval I x with
  | none => simp [buildStages_eval_none (hnone I x hin) h, LogicalPlan.eval, hin]
  | some row0 =>
    obtain ⟨rowC, hc, hrow⟩ := hsome I x row0 hin
    simp [buildStages_eval hL hT hin hc hrow h, LogicalPlan.eval, hin]

/-- Each stage of the recursion computes the projection it splits. -/
theorem recursiveOptimizeProject_equiv :
    ∀ {fuel : Nat} {input plan : LogicalPlan} {projection : List Expr} {s : Nat} {t : Transformed LogicalPlan},
      SplitLevel s input.schema projection → plan.Equiv (.project input projection) →
      recursiveOptimizeProject fuel ⟨input, projection⟩ plan s = .ok t →
      t.data.Equiv (.project input projection)
  | fuel, input, plan, projection, s, t, hL, hplan, h => by
    rcases recursiveOptimizeProject_eq_ok h with ⟨rfl, -⟩ | ⟨truncated, remaining, child, hsplit, hchild, hb⟩
    · exact hplan
    have hT := hL.truncation hsplit
    rcases hchild with ⟨rfl, hall⟩ | ⟨fuel', t', rfl, -, hrec, rfl⟩
    · -- every remaining expression is a column the input already has
      refine buildStages_equiv hL hT (fun _ _ h => h) (fun I x row0 hin => ⟨row0, hin, fun z hz => ?_⟩) hb
      rcases hT.named z hz with ⟨c, rfl, -⟩ | ⟨y, n, rfl, -⟩
      · rfl
      · cases List.all_eq_true.mp hall _ hz
    · have hR := hL.remaining hT (splitProjection_covers hL.listMapFree hsplit).2
      have hE := recursiveOptimizeProject_equiv hR (fun _ _ => rfl) hrec
      refine buildStages_equiv hL hT (fun I x hin => by simp [hE I x, LogicalPlan.eval, hin])
        (fun I x row0 hin => ?_) hb
      obtain ⟨rowC, hrowC⟩ := evalExprs_isSome fun z hz =>
        Covers.eval_isSome (by rw [LogicalPlan.eval_keys I x hin]; exact hR.covers z hz)
      exact ⟨rowC, by simp [hE I x, LogicalPlan.eval, hin, hrowC],
        fun z hz => lookup_evalExprs_of_mem hrowC hT.nodup hz⟩
termination_by fuel => fuel

/-! ### The pass over a whole plan -/

/-- A `Project` the pass splits without changing what it computes: it resolves against its
input, holds no `list_map`, has distinct output names, no input column or output name of the
`__…` form of the intermediate names, no UDF entry that reads a name another entry rebinds,
and at most one lift site in each subexpression. -/
def SplitSafe (schema : List String) (projection : List Expr) : Prop :=
  unresolvedColumn schema projection = none ∧ (∀ e ∈ projection, ListMapFree e) ∧
    (projection.map Expr.name).Nodup ∧ (∀ c ∈ schema ++ projection.map Expr.name, c.data.take 2 ≠ ['_', '_']) ∧
    NoShadow projection ∧ ∀ e ∈ projection, ∀ x ∈ e.preorder, liftSites x ≤ 1

instance (schema : List String) (projection : List Expr) : Decidable (SplitSafe schema projection) := by
  unfold SplitSafe; infer_instance

theorem names_map_entryAlias (projection : List Expr) :
    (projection.map entryAlias).map Expr.name = projection.map Expr.name := by
  rw [List.map_map]; exact List.map_congr_left fun e _ => entryAlias_name e

@[simp] theorem exists_entryAlias (e : Expr) : (entryAlias e).exists isUdf = e.exists isUdf := by
  rcases entryAlias_eq e with h | h <;> simp [h, isUdf]

theorem NoShadow.map_entryAlias {projection : List Expr} (h : NoShadow projection) :
    NoShadow (projection.map entryAlias) := by
  intro a ha hu c hc a' ha' hn
  obtain ⟨e, he, rfl⟩ := List.mem_map.mp ha
  obtain ⟨e', he', rfl⟩ := List.mem_map.mp ha'
  rw [exists_entryAlias] at hu
  rw [getRequiredColumns_entryAlias] at hc
  rw [entryAlias_name] at hn
  rcases h e he hu c hc e' he' hn with rfl | rfl
  · exact .inl rfl
  · exact .inr rfl

theorem liftSites_le_of_entryAlias {e : Expr} (h : ∀ x ∈ e.preorder, liftSites x ≤ 1) :
    ∀ x ∈ (entryAlias e).preorder, liftSites x ≤ 1 := by
  rcases entryAlias_eq e with he | he <;> rw [he]
  · exact h
  intro x hx
  rcases List.mem_cons.mp ((preorder_alias e e.name) ▸ hx) with rfl | hx
  · unfold liftSites
    split
    · exact le_refl 1
    · exact h e (mem_preorder_self e)
  · exact h x hx

theorem SplitSafe.level {schema : List String} {projection : List Expr} (h : SplitSafe schema projection) :
    SplitLevel 0 schema (projection.map entryAlias) := by
  obtain ⟨hres, hl, hnd, hfresh, hns, hone⟩ := h
  refine ⟨fun a ha => ?_, aliasedEntries_map_entryAlias _, fun a ha => ?_,
    (names_map_entryAlias projection).symm ▸ hnd,
    fun c hc => not_isIntermediate_of_take_two (hfresh c (List.mem_append_left _ hc)), fun a ha s' _ => ?_,
    hns.map_entryAlias, fun a ha => ?_⟩ <;> obtain ⟨e, he, rfl⟩ := List.mem_map.mp ha
  · intro c hc
    rw [getRequiredColumns_entryAlias] at hc
    exact unresolvedColumn_eq_none.mp hres e he c hc
  · exact listMapFree_entryAlias (hl e he)
  · rw [entryAlias_name]
    exact not_isIntermediate_of_take_two (hfresh _ (List.mem_append_right _ (List.mem_map_of_mem _ he))) s'
  · exact liftSites_le_of_entryAlias (hone e he)

theorem project_map_entryAlias_equiv (input : LogicalPlan) (projection : List Expr) :
    (LogicalPlan.project input (projection.map entryAlias)).Equiv (.project input projection) :=
  fun I x => by
    simp only [LogicalPlan.eval]
    congr 1; funext row
    exact evalExprs_congr (List.forall₂_map_left_iff.mpr
      (List.forall₂_same.mpr fun e _ => ⟨entryAlias_name e, eval_entryAlias row e⟩))

/-- Each `Project` of the plan has no UDF to split, or is `SplitSafe`. -/
def Splittable : LogicalPlan → Prop :=
  OnProjects fun schema projection =>
    SplitSafe schema projection ∨ ∀ e ∈ projection, existsSkipListMap e isUdf = false

instance : DecidablePred Splittable := inferInstanceAs (DecidablePred (OnProjects _))

theorem recursiveOptimizeProject_splittable {fuel : Nat} {projection : Project} {plan : LogicalPlan}
    {k : Nat} {t : Transformed LogicalPlan} (h : recursiveOptimizeProject fuel projection plan k = .ok t)
    (hplan : (∀ e ∈ projection.projection, existsSkipListMap e isUdf = false) →
      ∀ q ∈ plan.subtrees, Splittable q)
    (hin : ∀ q ∈ projection.input.subtrees, Splittable q) :
    ∀ q ∈ t.data.subtrees, Splittable q := by
  rcases recursiveOptimizeProject_eq_ok h with ⟨rfl, hfree⟩ | ⟨truncated, remaining, child, -, hchild, hb⟩
  · exact hplan hfree
  obtain ⟨u, -, hu, -, rfl⟩ := buildStages_eq_ok hb
  have hchild : ∀ q ∈ child.subtrees, Splittable q := by
    rcases hchild with ⟨rfl, -⟩ | ⟨fuel', t', rfl, -, hrec, rfl⟩
    · exact hin
    refine recursiveOptimizeProject_splittable hrec (fun hfree q hq => ?_) hin
    rcases List.mem_cons.mp hq with rfl | hq
    · exact .inr hfree
    · exact hin q hq
  intro q hq
  rcases List.mem_cons.mp hq with rfl | hq
  · refine .inr fun z hz => ?_
    obtain ⟨e, -, rfl⟩ := List.mem_map.mp hz
    exact existsSkipListMap_column _
  refine udfStages_onProjects hu (fun q hq => ?_) q hq
  rcases List.mem_cons.mp hq with rfl | hq
  · exact .inr (statelessProject_udfFree child truncated)
  · exact hchild q hq
termination_by fuel

theorem rule_equiv {node : LogicalPlan} {t : Transformed LogicalPlan} (h : rule node = .ok t)
    (hn : Splittable node) : t.data.Equiv node := by
  cases node with
  | project input projection =>
    obtain ⟨-, h⟩ := tryOptimizeProject_eq_ok h
    rcases hn with hs | hfree
    · exact (recursiveOptimizeProject_equiv hs.level
        (fun I x => (project_map_entryAlias_equiv input projection I x).symm) h).trans
        (project_map_entryAlias_equiv input projection)
    · rw [recursiveOptimizeProject, if_pos (by simpa using hfree)] at h
      cases h
      exact fun _ _ => rfl
  | _ => cases h; exact fun _ _ => rfl

theorem rule_splittable {node : LogicalPlan} {t : Transformed LogicalPlan} (h : rule node = .ok t)
    (hn : ∀ q ∈ node.subtrees, Splittable q) : ∀ q ∈ t.data.subtrees, Splittable q := by
  cases node with
  | project input projection =>
    exact recursiveOptimizeProject_splittable (tryOptimizeProject_eq_ok h).2 (fun _ => hn)
      fun q hq => hn q (List.mem_cons_of_mem _ hq)
  | _ => cases h; exact hn

/-- On a plan each of whose `Project`s has no UDF to split or is `SplitSafe`, a successful run
of the pass computes what the plan computes, under every interpretation of the functions and on
every input row. -/
theorem tryOptimize_eval {fuel : Nat} {p : LogicalPlan} {r : Transformed LogicalPlan}
    (hp : ∀ q ∈ p.subtrees, Splittable q) (h : tryOptimize fuel p = .ok r) :
    ∀ I input, r.data.eval I input = p.eval I input :=
  transformDown_equiv (fun _ _ ht hn => rule_equiv ht (hn _ (LogicalPlan.mem_subtrees_self _)))
    (fun _ _ ht hn => rule_splittable ht hn) hp h

theorem tryOptimize_eval_nested_udf :
    (∀ q ∈ (LogicalPlan.project (.source ["a", "b"])
        [(function (.builtin 0) [function (.udf 1) [function (.udf 0) [column "a"]], column "b"]).alias "x"]).subtrees,
      Splittable q) ∧
    ∃ r, tryOptimize 12 (.project (.source ["a", "b"])
        [(function (.builtin 0) [function (.udf 1) [function (.udf 0) [column "a"]], column "b"]).alias "x"]) =
          .ok r ∧ r.data ≠ (LogicalPlan.project (.source ["a", "b"])
        [(function (.builtin 0) [function (.udf 1) [function (.udf 0) [column "a"]], column "b"]).alias "x"]) ∧
      ∀ I input, r.data.eval I input = (LogicalPlan.project (.source ["a", "b"])
        [(function (.builtin 0) [function (.udf 1) [function (.udf 0) [column "a"]], column "b"]).alias "x"]).eval
          I input :=
  ⟨by decide, _, rfl, by decide, @tryOptimize_eval 12 _ _ (by decide) rfl⟩

end Daft.SplitUdfs
