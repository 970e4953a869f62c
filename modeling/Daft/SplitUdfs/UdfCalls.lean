import Mathlib.Tactic.Abel
import Daft.SplitUdfs.Preservation

/-! # The pass moves UDF calls and never drops or repeats one

`udfCalls e` is the multiset of the ids of the UDFs `e` calls. A split moves the calls of the
children it lifts into `remaining` and changes no other, and each stage holds one truncated
expression or only columns, so a successful run calls every UDF exactly as often as the plan it
was given.
-/
namespace Daft.SplitUdfs
open Expr LogicalPlan

section Calls

mutual
/-- The ids of the UDFs an expression calls, one for each UDF node. -/
def udfCalls : Expr → Multiset Nat
  | column _ => 0
  | literal _ => 0
  | .alias e _ => udfCalls e
  | function .listMap inputs => udfCallsList inputs
  | function (.builtin _) inputs => udfCallsList inputs
  | function (.udf u) inputs => u ::ₘ udfCallsList inputs
def udfCallsList : List Expr → Multiset Nat
  | [] => 0
  | e :: es => udfCalls e + udfCallsList es
end

@[simp] theorem udfCalls_column (n : String) : udfCalls (column n) = 0 := rfl
@[simp] theorem udfCalls_alias (e : Expr) (n : String) : udfCalls (e.alias n) = udfCalls e := rfl
@[simp] theorem udfCalls_builtin (b : Nat) (inputs : List Expr) :
    udfCalls (function (.builtin b) inputs) = udfCallsList inputs := rfl
@[simp] theorem udfCalls_udf (u : Nat) (inputs : List Expr) :
    udfCalls (function (.udf u) inputs) = u ::ₘ udfCallsList inputs := rfl
@[simp] theorem udfCallsList_nil : udfCallsList [] = 0 := rfl
@[simp] theorem udfCallsList_cons (e : Expr) (es : List Expr) :
    udfCallsList (e :: es) = udfCalls e + udfCallsList es := rfl

@[simp] theorem udfCallsList_append (a b : List Expr) :
    udfCallsList (a ++ b) = udfCallsList a + udfCallsList b := by
  induction a with
  | nil => simp
  | cons e a ih => simp [ih, add_assoc]

theorem udfCallsList_eq_zero {l : List Expr} (h : ∀ x ∈ l, udfCalls x = 0) : udfCallsList l = 0 := by
  induction l with
  | nil => rfl
  | cons e l ih => simp [h e (List.mem_cons_self _ _), ih fun x hx => h x (List.mem_cons_of_mem _ hx)]

@[simp] theorem udfCallsList_map_column (cs : List String) : udfCallsList (cs.map column) = 0 :=
  udfCallsList_eq_zero (by simp)

@[simp] theorem udfCallsList_map_comp_column {α : Type} (f : α → String) (l : List α) :
    udfCallsList (l.map fun a => column (f a)) = 0 :=
  udfCallsList_eq_zero (by simp)

theorem udfCalls_of_isColumn {e : Expr} (h : e.isColumn = true) : udfCalls e = 0 := by
  cases e <;> simp_all [isColumn]

theorem udfCalls_function {f : Func} {a b : List Expr} {x y : Multiset Nat}
    (h : udfCallsList a + x = udfCallsList b + y) :
    udfCalls (function f a) + x = udfCalls (function f b) + y := by
  cases f <;> simp [udfCalls, Multiset.cons_add, h]

theorem udfCallsList_pushColumn (l : List Expr) (n : String) :
    udfCallsList (pushColumn l n) = udfCallsList l := by
  unfold pushColumn; split <;> simp

theorem udfCallsList_filter_add (p : Expr → Bool) (l : List Expr) :
    udfCallsList (l.filter p) + udfCallsList (l.filter (!p ·)) = udfCallsList l := by
  induction l with
  | nil => rfl
  | cons e l ih => cases hp : p e <;> simp [List.filter_cons, hp, ← ih] <;> abel

@[simp] theorem udfCallsList_map_entryAlias (l : List Expr) :
    udfCallsList (l.map entryAlias) = udfCallsList l := by
  induction l with
  | nil => rfl
  | cons e l ih => rcases entryAlias_eq e with h | h <;> simp [h, ih]

mutual
theorem udfCalls_eq_zero_of_preorder : ∀ {e : Expr}, (∀ x ∈ e.preorder, x.isUdf = false) → udfCalls e = 0
  | column _, _ | literal _, _ => rfl
  | .alias e _, h => udfCalls_eq_zero_of_preorder (e := e) fun x hx => h x (List.mem_cons_of_mem _ hx)
  | function .listMap inputs, h | function (.builtin _) inputs, h =>
    @udfCallsList_eq_zero_of_preorderList inputs fun x hx => h x (List.mem_cons_of_mem _ hx)
  | function (.udf _) _, h => nomatch h _ (List.mem_cons_self _ _)
theorem udfCallsList_eq_zero_of_preorderList :
    ∀ {es : List Expr}, (∀ x ∈ preorderList es, x.isUdf = false) → udfCallsList es = 0
  | [], _ => rfl
  | _ :: _, h => by
    rw [udfCallsList_cons, udfCalls_eq_zero_of_preorder fun x hx => h x (List.mem_append_left _ hx),
      udfCallsList_eq_zero_of_preorderList fun x hx => h x (List.mem_append_right _ hx), add_zero]
end

theorem anyBeforeListMap_eq_any (f : Expr → Bool) :
    ∀ {ns : List Expr}, (∀ x ∈ ns, x.isListMap = false) → anyBeforeListMap f ns = ns.any f
  | [], _ => rfl
  | n :: _, h => by
    simp [anyBeforeListMap_cons, h n (List.mem_cons_self _ _),
      anyBeforeListMap_eq_any f fun x hx => h x (List.mem_cons_of_mem _ hx)]

theorem udfCalls_eq_zero_of_existsSkipListMap {e : Expr} (hl : ListMapFree e)
    (h : existsSkipListMap e isUdf = false) : udfCalls e = 0 := by
  rw [existsSkipListMap_eq, anyBeforeListMap_eq_any _ hl] at h
  exact udfCalls_eq_zero_of_preorder fun x hx => by simpa using List.any_eq_false.mp h x hx

theorem udfCalls_moves {a a' b b' x y z : Multiset Nat} (h1 : a' + y = a + x) (h2 : b' + z = b + y) :
    a' + b' + z = a + b + x := by
  rw [add_assoc, h2, add_left_comm, h1, add_left_comm, ← add_assoc]

end Calls

/-! ### The walks -/

section LiftChildren
variable (lift : Expr → Bool) (rewriter : String) (stageIdx exprIdx : Nat)

theorem liftChildren_udfCalls : ∀ (newChildren : List Expr) (k : Nat) (es : List Expr),
    udfCallsList (liftChildren lift rewriter stageIdx exprIdx newChildren k es).2 +
        udfCallsList (liftChildren lift rewriter stageIdx exprIdx newChildren k es).1 =
      udfCallsList es + udfCallsList newChildren
  | _, _, [] => rfl
  | newChildren, k, e :: es => by
    unfold liftChildren
    split
    · have ih := liftChildren_udfCalls
        (newChildren ++ [e.alias (intermediateName rewriter stageIdx exprIdx k)]) (k + 1) es
      simp only [Prod.map_fst, Prod.map_snd, id_eq, udfCallsList_cons, udfCalls_column, zero_add, ih,
        udfCallsList_append, udfCalls_alias, udfCallsList_nil, add_zero]
      abel
    · have ih := liftChildren_udfCalls newChildren k es
      simp only [Prod.map_fst, Prod.map_snd, id_eq, udfCallsList_cons, add_assoc, ih]

end LiftChildren

namespace TruncateRootUdf

theorem rewrite_udfCalls (r : TruncateRootUdf) :
    ∀ {e : Expr}, isUdfAndShouldTruncateChildren e = true →
      udfCalls (r.rewrite e).2 + udfCallsList (r.rewrite e).1.newChildren =
        udfCalls e + udfCallsList r.newChildren
  | .alias e n, h => by
    simpa [rewrite] using rewrite_udfCalls r (e := e) (by simpa using h)
  | function (.udf u) inputs, _ => by
    have h2 := (truncateInputs_spec r 0 inputs).2
    simp only [rewrite, Prod.map_fst, Prod.map_snd, id_eq]
    rw [rewriteNew_snd _ h2, rewriteNew_newChildren_invariant udfCallsList_pushColumn _ h2, udfCalls_udf,
      udfCalls_udf, Multiset.cons_add, Multiset.cons_add]
    exact congrArg _ (liftChildren_udfCalls _ _ _ _ _ _ _)
  | function .listMap _, h | function (.builtin _) _, h => by
    simp [isUdfAndShouldTruncateChildren_function, isUdf] at h
  | column _, h | literal _, h => by cases h

end TruncateRootUdf

namespace TruncateAnyUdfChildren

mutual
theorem rewrite_udfCalls {r : TruncateAnyUdfChildren} :
    ∀ {e : Expr} {r' : TruncateAnyUdfChildren} {e' : Expr}, r.rewrite e = .ok (r', e') →
      udfCalls e' + udfCallsList r'.newChildren = udfCalls e + udfCallsList r.newChildren
  | column n, _, _, h => by
    cases h
    simp [visitColumn_newChildren_invariant udfCallsList_pushColumn]
  | literal _, _, _, h => by cases h; rfl
  | .alias e n, _, _, h => by
    simp only [rewrite] at h
    split at h
    · cases h
      simp [visitColumn_newChildren_invariant udfCallsList_pushColumn, add_comm]
    · obtain ⟨e1, h1, rfl⟩ := except_map_snd_eq_ok.mp h
      simpa using rewrite_udfCalls h1
  | function f inputs, _, _, h => by
    simp only [rewrite] at h
    split at h
    · obtain ⟨es1, h1, rfl⟩ := except_map_snd_eq_ok.mp h
      exact udfCalls_function (rewriteList_udfCalls h1)
    split at h
    · cases h
    · obtain ⟨es1, h1, rfl⟩ := except_map_snd_eq_ok.mp h
      have h2 := rewriteList_udfCalls h1
      exact udfCalls_function h2
    split at h
    · obtain ⟨ns1, h1, rfl⟩ := except_map_snd_eq_ok.mp h
      exact udfCalls_function ((rewriteNew_udfCalls (truncateInputs_spec r 0 inputs).2 h1).trans
        (liftChildren_udfCalls _ _ _ _ _ _ _))
    · obtain ⟨es1, h1, rfl⟩ := except_map_snd_eq_ok.mp h
      exact udfCalls_function (rewriteList_udfCalls h1)
termination_by structural e => e
theorem rewriteList_udfCalls {r : TruncateAnyUdfChildren} :
    ∀ {es : List Expr} {r' : TruncateAnyUdfChildren} {es' : List Expr}, r.rewriteList es = .ok (r', es') →
      udfCallsList es' + udfCallsList r'.newChildren = udfCallsList es + udfCallsList r.newChildren
  | [], _, _, h => by cases h; rfl
  | e :: es, _, _, h => by
    obtain ⟨⟨r1, e1⟩, h1, h2⟩ := except_bind_eq_ok.mp h
    obtain ⟨es2, h3, rfl⟩ := except_map_snd_eq_ok.mp h2
    exact udfCalls_moves (rewrite_udfCalls h1) (rewriteList_udfCalls h3)
termination_by structural es => es
theorem rewriteNew_udfCalls {r : TruncateAnyUdfChildren} {newChildren : List Expr} :
    ∀ {es ns : List Expr} {r' : TruncateAnyUdfChildren} {ns' : List Expr},
      List.Forall₂ (KeptOrNamed isUdf newChildren) es ns → r.rewriteNew es ns = .ok (r', ns') →
      udfCallsList ns' + udfCallsList r'.newChildren = udfCallsList ns + udfCallsList r.newChildren
  | [], [], _, _, _, h => by cases h; rfl
  | e :: es, n :: ns, _, _, .cons hn hs, h => by
    rcases hn with ⟨he, -⟩ | ⟨he, hn⟩
    · simp only [rewriteNew, he, ite_true] at h
      obtain ⟨ns2, h3, rfl⟩ := except_map_snd_eq_ok.mp (by simpa using h)
      have h4 := rewriteNew_udfCalls hs h3
      rw [visitColumn_newChildren_invariant udfCallsList_pushColumn] at h4
      simp only [udfCallsList_cons, add_assoc, h4]
    · subst n
      simp only [rewriteNew, he, Bool.false_eq_true, ite_false] at h
      obtain ⟨⟨r1, n1⟩, h1, h2⟩ := except_bind_eq_ok.mp h
      obtain ⟨ns2, h3, rfl⟩ := except_map_snd_eq_ok.mp h2
      exact udfCalls_moves (rewrite_udfCalls h1) (rewriteNew_udfCalls hs h3)
termination_by structural es => es
end

end TruncateAnyUdfChildren

/-! ### The split -/

namespace SplitState

theorem merge_udfCalls {st : SplitState} (hst : st.NamesDistinct) :
    ∀ {cs : List Expr}, (∀ z ∈ cs, z.isAlias = false → udfCalls z = 0) →
      (∀ (x : Expr) n, x.alias n ∈ cs → n ∉ st.newChildren.map Expr.name ∧ ∀ z' ∈ cs, z'.name = n → z' = x.alias n) →
      (liftedNames cs).Nodup →
      udfCallsList (st.merge cs).newChildren = udfCallsList st.newChildren + udfCallsList cs
  | [], _, _, _ => by simp [merge]
  | c :: cs, hcol, hfresh, hnd => by
    have hc : udfCallsList (st.merge [c]).newChildren = udfCallsList st.newChildren + udfCalls c := by
      simp only [merge]
      split
      · next hseen =>
        rw [hst.1] at hseen
        cases c with
        | «alias» x n => exact absurd (by simpa using hseen) (hfresh x n (List.mem_cons_self _ _)).1
        | _ => simp [hcol _ (List.mem_cons_self _ _) rfl]
      · simp
    -- the batch's other aliases stay new after `c`, which is not one of them
    have hfresh' : ∀ (x : Expr) n, x.alias n ∈ cs →
        n ∉ (st.merge [c]).newChildren.map Expr.name ∧ ∀ z' ∈ cs, z'.name = n → z' = x.alias n := by
      intro x n hx
      obtain ⟨h1, h2⟩ := hfresh x n (List.mem_cons_of_mem _ hx)
      refine ⟨fun hn => ?_, fun z' hz' => h2 z' (List.mem_cons_of_mem _ hz')⟩
      obtain ⟨z, hz, hzn⟩ := List.mem_map.mp hn
      rcases mem_merge_newChildren hz with hz | hz
      · exact h1 (hzn ▸ List.mem_map_of_mem _ hz)
      · obtain rfl := List.mem_singleton.mp hz
        obtain rfl := h2 z (List.mem_cons_self _ _) hzn
        rw [liftedNames_cons_alias] at hnd
        exact (List.nodup_cons.mp hnd).1 (mem_liftedNames hx)
    have hnd' : (liftedNames cs).Nodup := by
      rw [show c :: cs = [c] ++ cs from rfl, liftedNames_append] at hnd
      exact hnd.of_append_right
    show udfCallsList ((st.merge [c]).merge cs).newChildren = _
    rw [merge_udfCalls (hst.merge [c]) (fun z hz => hcol z (List.mem_cons_of_mem _ hz)) hfresh' hnd', hc,
      udfCallsList_cons, add_assoc]

theorem merge_lifted_udfCalls {st : SplitState} {s i : Nat} {cs : List Expr} {rw : String} {m : Nat}
    (hst : st.NamesDistinct) (hbefore : ∀ z ∈ st.newChildren, NamedBefore s i z) (hrw : '_' ∉ rw.data)
    (hcs : ∀ z ∈ cs, (∃ c, z = column c ∧ ∀ s', ¬ IsIntermediate s' c) ∨ ∃ (x : Expr) (n : String), z = x.alias n)
    (hnames : liftedNames cs = (List.range m).map (intermediateName rw s i)) :
    udfCallsList (st.merge cs).newChildren = udfCallsList st.newChildren + udfCallsList cs :=
  merge_udfCalls hst (fun z hz ha => by rcases hcs z hz with ⟨c, rfl, -⟩ | ⟨x, n, rfl⟩ <;> simp_all)
    (fun _ _ hx => lifted_fresh hbefore hrw hcs hnames hx) (hnames ▸ map_intermediateName_nodup hrw s i m)

end SplitState

theorem SplitStepArm.udfCalls_eq {s i : Nat} {e t : Expr} {added : List Expr}
    (harm : SplitStepArm s i e t added) : udfCalls t + udfCallsList added = udfCalls e := by
  cases harm with
  | rootUdf hroot => simpa [TruncateRootUdf.new] using TruncateRootUdf.rewrite_udfCalls (.new s i) hroot
  | anyUdfChildren _ _ h1 => simpa [TruncateAnyUdfChildren.new] using TruncateAnyUdfChildren.rewrite_udfCalls h1
  | noUdf => simp

theorem splitStep_udfCalls {s i : Nat} {st st' : SplitState} {e : Expr} (hst : st.NamesDistinct)
    (hbefore : ∀ z ∈ st.newChildren, NamedBefore s i z) (hl : ListMapFree e)
    (hcols : ∀ c ∈ e.getRequiredColumns, ∀ s, ¬ IsIntermediate s c)
    (hsites : ∀ x ∈ e.preorder, liftSites x ≤ 1) (h : splitStep s st i e = .ok st') :
    udfCallsList st'.truncatedExprs + udfCallsList st'.newChildren =
      udfCalls e + udfCallsList st.truncatedExprs + udfCallsList st.newChildren := by
  obtain ⟨t, added, harm, rfl⟩ := splitStep_eq_ok h
  obtain ⟨hcs, rw, m, hrw, hm⟩ := harm.lifted hl hcols hsites
  rw [SplitState.merge_truncatedExprs, SplitState.pushTruncated_truncatedExprs,
    @SplitState.merge_lifted_udfCalls (st.pushTruncated t) s i added rw m hst hbefore hrw hcs hm,
    ← harm.udfCalls_eq, udfCallsList_append, SplitState.pushTruncated_newChildren]
  simp only [udfCallsList_cons, udfCallsList_nil, add_zero]
  abel

theorem splitLoop_udfCalls {s : Nat} :
    ∀ {st st' : SplitState} {i : Nat} {exprs : List Expr}, st.NamesDistinct →
      (∀ z ∈ st.newChildren, NamedBefore s i z) →
      (∀ e ∈ exprs, ListMapFree e ∧ (∀ c ∈ e.getRequiredColumns, ∀ s, ¬ IsIntermediate s c) ∧
        ∀ x ∈ e.preorder, liftSites x ≤ 1) →
      splitLoop s st i exprs = .ok st' →
      udfCallsList st'.truncatedExprs + udfCallsList st'.newChildren =
        udfCallsList exprs + udfCallsList st.truncatedExprs + udfCallsList st.newChildren
  | _, _, _, [], _, _, _, h => by cases h; simp
  | st, _, i, e :: exprs, hst, hbefore, he, h => by
    obtain ⟨st1, h1, h2⟩ := except_bind_eq_ok.mp h
    obtain ⟨hl, hcols, hsites⟩ := he e (List.mem_cons_self _ _)
    obtain ⟨-, -, hb1, -, -⟩ := splitStep_restores hst hbefore hl hcols hsites h1
    rw [splitLoop_udfCalls (splitStep_namesDistinct hst h1) hb1 (fun x hx => he x (List.mem_cons_of_mem _ hx)) h2,
      add_assoc, splitStep_udfCalls hst hbefore hl hcols hsites h1, udfCallsList_cons]
    abel

theorem splitProjection_udfCalls {projection truncated remaining : List Expr} {s : Nat}
    (he : ∀ e ∈ projection, ListMapFree e ∧ (∀ c ∈ e.getRequiredColumns, ∀ s, ¬ IsIntermediate s c) ∧
      ∀ x ∈ e.preorder, liftSites x ≤ 1)
    (h : splitProjection projection s = .ok (truncated, remaining)) :
    udfCallsList truncated + udfCallsList remaining = udfCallsList projection := by
  obtain ⟨st, h1, h2⟩ := except_map_eq_ok.mp h
  simp only [Prod.mk.injEq] at h2
  obtain ⟨rfl, rfl⟩ := h2
  simpa using @splitLoop_udfCalls s ⟨[], [], []⟩ st 0 projection ⟨rfl, List.nodup_nil⟩ (by simp) he h1

/-! ### The plan -/

/-- The ids of the UDFs the expressions of a plan call. -/
def planUdfCalls : LogicalPlan → Multiset Nat
  | source _ => 0
  | project input projection => udfCallsList projection + planUdfCalls input
  | udfProject input u passthrough => udfCalls u + udfCallsList passthrough + planUdfCalls input
  | unary _ _ input => planUdfCalls input
  | binary _ _ left right => planUdfCalls left + planUdfCalls right

@[simp] theorem planUdfCalls_project (input : LogicalPlan) (projection : List Expr) :
    planUdfCalls (.project input projection) = udfCallsList projection + planUdfCalls input := rfl
@[simp] theorem planUdfCalls_udfProject (input : LogicalPlan) (u : Expr) (passthrough : List Expr) :
    planUdfCalls (.udfProject input u passthrough) =
      udfCalls u + udfCallsList passthrough + planUdfCalls input := rfl

theorem planUdfCalls_withNewChildren :
    ∀ (p : LogicalPlan) {cs : List LogicalPlan},
      List.Forall₂ (fun c c' => planUdfCalls c = planUdfCalls c') cs p.children →
      planUdfCalls (p.withNewChildren cs) = planUdfCalls p
  | source _, _, _ => rfl
  | project .., _ :: _, .cons h _ | udfProject .., _ :: _, .cons h _ | unary .., _ :: _, .cons h _ => by
    simp only [LogicalPlan.withNewChildren, planUdfCalls, h]
  | binary .., _ :: _ :: _, .cons h (.cons h' _) => by
    simp only [LogicalPlan.withNewChildren, planUdfCalls, h, h']

theorem udfStages_udfCalls : ∀ {child u : LogicalPlan} {stages : List Expr},
    udfStages child stages = .ok u → planUdfCalls u = udfCallsList stages + planUdfCalls child
  | _, _, [], h => by cases h; simp
  | child, _, a :: stages, h => by
    have hpass : udfCallsList ((child.schema.map column).filter (·.name != a.name)) = 0 :=
      udfCallsList_eq_zero fun z hz => by
        obtain ⟨c, -, rfl⟩ := List.mem_map.mp (List.mem_filter.mp hz).1
        rfl
    rw [udfStages_udfCalls (udfStages_cons_eq_ok h).2, UdfProject.toPlan, planUdfCalls_udfProject, hpass,
      udfCallsList_cons]
    abel

theorem buildStages_udfCalls {projection : Project} {child : LogicalPlan} {truncated : List Expr}
    {t : Transformed LogicalPlan} (h : buildStages projection child truncated = .ok t) :
    planUdfCalls t.data = udfCallsList truncated + planUdfCalls child := by
  obtain ⟨u, -, hu, -, rfl⟩ := buildStages_eq_ok h
  show planUdfCalls (.project u _) = _
  rw [← udfCallsList_filter_add (existsSkipListMap · isUdf) truncated]
  simp only [planUdfCalls_project, udfCallsList_map_comp_column, zero_add, udfStages_udfCalls hu,
    udfCallsList_append, statelessPassthroughColumns_eq, udfCallsList_map_column]
  abel

theorem recursiveOptimizeProject_udfCalls :
    ∀ {fuel : Nat} {input plan : LogicalPlan} {projection : List Expr} {s : Nat} {t : Transformed LogicalPlan},
      SplitLevel s input.schema projection → planUdfCalls plan = planUdfCalls (.project input projection) →
      recursiveOptimizeProject fuel ⟨input, projection⟩ plan s = .ok t →
      planUdfCalls t.data = planUdfCalls (.project input projection)
  | fuel, input, plan, projection, s, t, hL, hplan, h => by
    rcases recursiveOptimizeProject_eq_ok h with ⟨rfl, -⟩ | ⟨truncated, remaining, child, hsplit, hchild, hb⟩
    · exact hplan
    have hsp := splitProjection_udfCalls
      (fun e he => ⟨hL.listMapFree e he, hL.columns_fresh he, hL.oneLiftSite e he⟩) hsplit
    -- the child holds the calls of `remaining` over those of the input
    have hc : planUdfCalls child = udfCallsList remaining + planUdfCalls input := by
      rcases hchild with ⟨rfl, hall⟩ | ⟨fuel', t', rfl, -, hrec, rfl⟩
      · rw [udfCallsList_eq_zero fun z hz => udfCalls_of_isColumn (List.all_eq_true.mp hall z hz), zero_add]
      · exact recursiveOptimizeProject_udfCalls
          (hL.remaining (hL.truncation hsplit) (splitProjection_covers hL.listMapFree hsplit).2) rfl hrec
    rw [buildStages_udfCalls hb, hc, ← add_assoc, hsp, planUdfCalls_project]
termination_by fuel => fuel

theorem rule_udfCalls {node : LogicalPlan} {t : Transformed LogicalPlan} (h : rule node = .ok t)
    (hn : Splittable node) : planUdfCalls t.data = planUdfCalls node := by
  cases node with
  | project input projection =>
    obtain ⟨-, h⟩ := tryOptimizeProject_eq_ok h
    have halias : planUdfCalls (.project input (projection.map entryAlias)) =
        planUdfCalls (.project input projection) := by simp
    rcases hn with hs | hfree
    · exact (recursiveOptimizeProject_udfCalls hs.level halias.symm h).trans halias
    · rw [recursiveOptimizeProject, if_pos (by simpa using hfree)] at h
      cases h
      rfl
  | _ => cases h; rfl

/-- On a plan each of whose `Project`s has no UDF to split or is `SplitSafe`, a successful run of
the pass calls every UDF exactly as often as the plan does: no call is dropped or repeated. -/
theorem tryOptimize_udfCalls {fuel : Nat} {p : LogicalPlan} {r : Transformed LogicalPlan}
    (hp : ∀ q ∈ p.subtrees, Splittable q) (h : tryOptimize fuel p = .ok r) :
    planUdfCalls r.data = planUdfCalls p :=
  transformDown_rel (R := fun a b => planUdfCalls a = planUdfCalls b) planUdfCalls_withNewChildren Eq.trans
    (fun _ _ ht hn => rule_udfCalls ht (hn _ (mem_subtrees_self _))) (fun _ _ ht hn => rule_splittable ht hn) hp h

theorem tryOptimize_udfCalls_nested_udf :
    (∀ q ∈ (LogicalPlan.project (.source ["a", "b"])
        [(function (.builtin 0) [function (.udf 1) [function (.udf 0) [column "a"]], column "b"]).alias "x"]).subtrees,
      Splittable q) ∧
    planUdfCalls (.project (.source ["a", "b"])
        [(function (.builtin 0) [function (.udf 1) [function (.udf 0) [column "a"]], column "b"]).alias "x"]) =
      {1, 0} ∧
    ∃ r, tryOptimize 12 (.project (.source ["a", "b"])
        [(function (.builtin 0) [function (.udf 1) [function (.udf 0) [column "a"]], column "b"]).alias "x"]) =
          .ok r ∧ r.data ≠ (LogicalPlan.project (.source ["a", "b"])
        [(function (.builtin 0) [function (.udf 1) [function (.udf 0) [column "a"]], column "b"]).alias "x"]) ∧
      planUdfCalls r.data = planUdfCalls (.project (.source ["a", "b"])
        [(function (.builtin 0) [function (.udf 1) [function (.udf 0) [column "a"]], column "b"]).alias "x"]) :=
  ⟨by decide, by decide, _, rfl, by decide, @tryOptimize_udfCalls 12 _ _ (by decide) rfl⟩

/-! ### Which nodes make the calls -/

def projectUdfCalls : LogicalPlan → Multiset Nat
  | source _ => 0
  | project input projection => udfCallsList projection + projectUdfCalls input
  | udfProject input _ _ => projectUdfCalls input
  | unary _ _ input => projectUdfCalls input
  | binary _ _ left right => projectUdfCalls left + projectUdfCalls right

def stageUdfCalls : LogicalPlan → Multiset Nat
  | source _ => 0
  | project input _ => stageUdfCalls input
  | udfProject input u passthrough => udfCalls u + udfCallsList passthrough + stageUdfCalls input
  | unary _ _ input => stageUdfCalls input
  | binary _ _ left right => stageUdfCalls left + stageUdfCalls right

theorem planUdfCalls_eq_add : ∀ p : LogicalPlan, planUdfCalls p = projectUdfCalls p + stageUdfCalls p
  | source _ => rfl
  | project input _ | udfProject input _ _ => by
    simp only [planUdfCalls, projectUdfCalls, stageUdfCalls, planUdfCalls_eq_add input]
    abel
  | unary _ _ input => by simp only [planUdfCalls, projectUdfCalls, stageUdfCalls, planUdfCalls_eq_add input]
  | binary _ _ left right => by
    simp only [planUdfCalls, projectUdfCalls, stageUdfCalls, planUdfCalls_eq_add left, planUdfCalls_eq_add right]
    abel

theorem projectUdfCalls_eq_zero :
    ∀ {p : LogicalPlan}, (∀ q ∈ p.subtrees, OnProjects (fun _ projection => udfCallsList projection = 0) q) →
      projectUdfCalls p = 0
  | source _, _ => rfl
  | project input _, h => by
    rw [projectUdfCalls, h _ (mem_subtrees_self _),
      projectUdfCalls_eq_zero (p := input) fun q hq => h q (List.mem_cons_of_mem _ hq), add_zero]
  | udfProject input _ _, h | unary _ _ input, h =>
    projectUdfCalls_eq_zero (p := input) fun q hq => h q (List.mem_cons_of_mem _ hq)
  | binary _ _ left right, h => by
    rw [projectUdfCalls,
      projectUdfCalls_eq_zero (p := left) fun q hq => h q (List.mem_cons_of_mem _ (List.mem_append_left _ hq)),
      projectUdfCalls_eq_zero (p := right) fun q hq => h q (List.mem_cons_of_mem _ (List.mem_append_right _ hq)),
      add_zero]

/-- On a plan whose `Project`s resolve, hold no `list_map`, and each have no UDF to split or are
`SplitSafe`, a successful run leaves no UDF call in any `Project`: every call the plan's
`Project`s made is made by a `UDFProject` of the result, next to those the plan's own
`UDFProject`s made, and no other call is. -/
theorem tryOptimize_moves_udfCalls {fuel : Nat} {p : LogicalPlan} {r : Transformed LogicalPlan}
    (hp : ∀ q ∈ p.subtrees, Splittable q ∧ ResolvedWithoutListMap q) (h : tryOptimize fuel p = .ok r) :
    projectUdfCalls r.data = 0 ∧ stageUdfCalls r.data = stageUdfCalls p + projectUdfCalls p := by
  have hres : ∀ q ∈ r.data.subtrees, ResolvedWithoutListMap q :=
    transformDown_invariant (fun _ _ => rule_schema) (fun _ _ ht hn => rule_resolved ht hn)
      (fun _ _ => onProjects_withNewChildren) (fun q hq => (hp q hq).2) h
  have hcalls : planUdfCalls r.data = planUdfCalls p :=
    transformDown_rel (R := fun a b => planUdfCalls a = planUdfCalls b) planUdfCalls_withNewChildren Eq.trans
      (fun _ _ ht hn => rule_udfCalls ht (hn _ (mem_subtrees_self _))) (fun _ _ ht hn => rule_splittable ht hn)
      (fun q hq => (hp q hq).1) h
  -- the `Project`s of the result resolve, hold no `list_map`, and have no UDF before one
  have hzero : projectUdfCalls r.data = 0 := projectUdfCalls_eq_zero fun q hq => by
    cases q with
    | project input projection =>
      exact udfCallsList_eq_zero fun e he =>
        udfCalls_eq_zero_of_existsSkipListMap ((hres _ hq).2 e he) ((tryOptimize_nodeStable h _ hq).2 e he)
    | _ => trivial
  refine ⟨hzero, ?_⟩
  rw [planUdfCalls_eq_add, planUdfCalls_eq_add, hzero, zero_add] at hcalls
  rw [hcalls, add_comm]

theorem tryOptimize_moves_udfCalls_nested_udf :
    (∀ q ∈ (LogicalPlan.project (.source ["a", "b"])
        [(function (.builtin 0) [function (.udf 1) [function (.udf 0) [column "a"]], column "b"]).alias "x"]).subtrees,
      Splittable q ∧ ResolvedWithoutListMap q) ∧
    projectUdfCalls (.project (.source ["a", "b"])
        [(function (.builtin 0) [function (.udf 1) [function (.udf 0) [column "a"]], column "b"]).alias "x"]) =
      {1, 0} ∧
    ∃ r, tryOptimize 12 (.project (.source ["a", "b"])
        [(function (.builtin 0) [function (.udf 1) [function (.udf 0) [column "a"]], column "b"]).alias "x"]) =
          .ok r ∧
      projectUdfCalls r.data = 0 ∧
      stageUdfCalls r.data = stageUdfCalls (.project (.source ["a", "b"])
          [(function (.builtin 0) [function (.udf 1) [function (.udf 0) [column "a"]], column "b"]).alias "x"]) +
        projectUdfCalls (.project (.source ["a", "b"])
          [(function (.builtin 0) [function (.udf 1) [function (.udf 0) [column "a"]], column "b"]).alias "x"]) :=
  ⟨by decide, by decide, _, rfl, @tryOptimize_moves_udfCalls 12 _ _ (by decide) rfl⟩

end Daft.SplitUdfs
