import Daft.Plan.TransformDown
import Daft.SplitUdfs.Truncate

/-! # What one walk of each rewriter produces

Both rewriters lift a node's children by one loop (`liftChildren_spec`). A root-UDF walk leaves a
UDF under aliases whose inputs compute nothing (`rewrite_rootUdf`). A walk of `TruncateAnyUDFChildren` from a node that is not a UDF succeeds,
leaves no UDF before the first `list_map`, and sets its flag exactly when it met one
(`rewrite_clean`); once the flag is set it changes nothing (`rewrite_of_isListMap`).
-/
namespace Daft.SplitUdfs
open Expr

def Lifted (h : Nat) (z : Expr) : Prop := z.isColumn = true ∨ (z.isAlias = true ∧ z.height ≤ h)

theorem Lifted.mono {h h' : Nat} {z : Expr} (hz : Lifted h z) (hh : h ≤ h') : Lifted h' z :=
  hz.imp_right fun ⟨ha, hz⟩ => ⟨ha, hz.trans hh⟩

def Appended (P : Expr → Prop) (old new : List Expr) : Prop := ∃ added, new = old ++ added ∧ ∀ z ∈ added, P z

theorem Appended.refl (P : Expr → Prop) (l : List Expr) : Appended P l l := ⟨[], by simp, by simp⟩

theorem Appended.trans {P : Expr → Prop} {a b c : List Expr} (h1 : Appended P a b)
    (h2 : Appended P b c) : Appended P a c := by
  obtain ⟨x, rfl, hx⟩ := h1
  obtain ⟨y, rfl, hy⟩ := h2
  exact ⟨x ++ y, by simp, fun z hz => (List.mem_append.mp hz).elim (hx z) (hy z)⟩

theorem Appended.mono {P Q : Expr → Prop} {a b : List Expr} (h : Appended P a b)
    (hPQ : ∀ z, P z → Q z) : Appended Q a b :=
  let ⟨x, hb, hx⟩ := h; ⟨x, hb, fun z hz => hPQ z (hx z hz)⟩

theorem Appended.cons {P : Expr → Expr → Prop} {e : Expr} {es a b c : List Expr}
    (h1 : Appended (P e) a b) (h2 : Appended (fun z => ∃ x ∈ es, P x z) b c) :
    Appended (fun z => ∃ x ∈ e :: es, P x z) a c :=
  (h1.mono fun _ hz => ⟨e, List.mem_cons_self _ _, hz⟩).trans
    (h2.mono fun _ ⟨x, hx, hz⟩ => ⟨x, List.mem_cons_of_mem _ hx, hz⟩)

theorem Appended.tail {P : Expr → Expr → Prop} {e : Expr} {es a b : List Expr}
    (h : Appended (fun z => ∃ x ∈ es, P x z) a b) : Appended (fun z => ∃ x ∈ e :: es, P x z) a b :=
  h.mono fun _ ⟨x, hx, hz⟩ => ⟨x, List.mem_cons_of_mem _ hx, hz⟩

theorem Appended.push {P : Expr → Prop} {l : List Expr} {z : Expr} (hz : P z) :
    Appended P l (l ++ [z]) := ⟨[z], rfl, by simpa using hz⟩

theorem appended_pushColumn {P : Expr → Prop} {n : String} (hP : P (column n)) (l : List Expr) :
    Appended P l (pushColumn l n) := by
  unfold pushColumn; split
  · exact .refl P l
  · exact .push hP

theorem pushColumn_of_mem {l : List Expr} {n : String} (h : n ∈ l.map Expr.name) :
    pushColumn l n = l := by
  simp [pushColumn, h]

theorem mem_names_pushColumn (l : List Expr) (n : String) : n ∈ (pushColumn l n).map Expr.name := by
  unfold pushColumn; split <;> simp_all

theorem lifted_column (h : Nat) (n : String) : Lifted h (column n) := .inl rfl

theorem Appended.subset {P : Expr → Prop} {a b : List Expr} (h : Appended P a b) : a ⊆ b := by
  obtain ⟨x, rfl, -⟩ := h
  exact List.subset_append_left a x

theorem Appended.names_subset {P : Expr → Prop} {a b : List Expr} (h : Appended P a b)
    {n : String} (hn : n ∈ a.map Expr.name) : n ∈ b.map Expr.name :=
  List.map_subset _ h.subset hn

/-- A child the lifting loop kept is one `lift` rejects; a lifted one became a column named by
an alias of it in `newChildren`. -/
def KeptOrNamed (lift : Expr → Bool) (newChildren : List Expr) (e n : Expr) : Prop :=
  (lift e = true ∧ ∃ c, e.alias c ∈ newChildren ∧ n = column c) ∨ (lift e = false ∧ n = e)

theorem KeptOrNamed.lift_eq_false {lift : Expr → Bool} {newChildren : List Expr} {e n : Expr}
    (h : KeptOrNamed lift newChildren e n) (hc : ∀ c, lift (column c) = false) : lift n = false := by
  rcases h with ⟨-, c, -, rfl⟩ | ⟨he, rfl⟩
  · exact hc c
  · exact he

section LiftChildren
variable (lift : Expr → Bool) (rewriter : String) (stageIdx exprIdx : Nat)

theorem liftChildren_spec : ∀ (newChildren : List Expr) (k : Nat) (es : List Expr),
    Appended (fun z => ∃ x ∈ es, lift x = true ∧ ∃ n, z = x.alias n) newChildren
        (liftChildren lift rewriter stageIdx exprIdx newChildren k es).1 ∧
      List.Forall₂ (KeptOrNamed lift (liftChildren lift rewriter stageIdx exprIdx newChildren k es).1)
        es (liftChildren lift rewriter stageIdx exprIdx newChildren k es).2
  | _, _, [] => ⟨.refl _ _, .nil⟩
  | newChildren, k, e :: es => by
    unfold liftChildren
    split
    · next he =>
      obtain ⟨h1, h2⟩ := liftChildren_spec _ (k + 1) es
      exact ⟨(Appended.push ⟨e, List.mem_cons_self _ _, he, _, rfl⟩).trans
          (h1.mono fun z ⟨x, hx, hz⟩ => ⟨x, List.mem_cons_of_mem _ hx, hz⟩),
        .cons (.inl ⟨he, _, h1.subset (List.mem_append_right _ (List.mem_singleton_self _)), rfl⟩) h2⟩
    · next he =>
      obtain ⟨h1, h2⟩ := liftChildren_spec newChildren k es
      exact ⟨h1.mono fun z ⟨x, hx, hz⟩ => ⟨x, List.mem_cons_of_mem _ hx, hz⟩,
        .cons (.inr ⟨by simpa using he, rfl⟩) h2⟩

end LiftChildren

/-- A UDF under zero or more aliases whose inputs compute nothing: the expression of a
`UDFProject` stage. -/
inductive RootUdf : Expr → Prop
  | udf {u : Nat} {inputs : List Expr} :
      (∀ a ∈ inputs, a.requiresComputation = false) → RootUdf (function (.udf u) inputs)
  | alias {e : Expr} (n : String) : RootUdf e → RootUdf (e.alias n)

namespace TruncateRootUdf

theorem rewrite_of_requiresComputation_eq_false (r : TruncateRootUdf) :
    ∀ {e : Expr}, e.requiresComputation = false → (r.rewrite e).2 = e
  | column _, _ => rfl
  | literal _, _ => rfl
  | .alias e _, h => by
    simp only [rewrite, Prod.map_snd]
    rw [rewrite_of_requiresComputation_eq_false r (e := e) h]
  | function .., h => by simp [requiresComputation] at h

theorem truncateInputs_spec (r : TruncateRootUdf) (k : Nat) (es : List Expr) :
    Appended (fun z => ∃ x ∈ es, x.requiresComputation = true ∧ ∃ n, z = x.alias n)
        r.newChildren (r.truncateInputs k es).1.newChildren ∧
      List.Forall₂ (KeptOrNamed requiresComputation (r.truncateInputs k es).1.newChildren) es
        (r.truncateInputs k es).2 :=
  liftChildren_spec _ _ _ _ _ _ _

theorem rewriteNew_snd (r : TruncateRootUdf) {newChildren : List Expr} :
    ∀ {es ns : List Expr}, List.Forall₂ (KeptOrNamed requiresComputation newChildren) es ns →
      (r.rewriteNew es ns).2 = ns
  | [], [], _ => rfl
  | e :: es, n :: ns, .cons hn hs => by
    simp only [rewriteNew]
    rcases hn with ⟨he, -⟩ | ⟨he, rfl⟩
    · simp only [he, ite_true, Prod.map_snd, rewriteNew_snd _ hs]
    · simp only [he, Bool.false_eq_true, ite_false, Prod.map_snd,
        rewrite_of_requiresComputation_eq_false r he, rewriteNew_snd _ hs]

section PushColumnMeasure
variable {β : Type} {g : List Expr → β}

theorem rewrite_newChildren_invariant (hg : ∀ l n, g (pushColumn l n) = g l) (r : TruncateRootUdf) :
    ∀ {e : Expr}, e.requiresComputation = false → g (r.rewrite e).1.newChildren = g r.newChildren
  | column _, _ => hg _ _
  | literal _, _ => rfl
  | .alias e _, h => rewrite_newChildren_invariant hg r (e := e) h
  | function .., h => by simp [requiresComputation] at h

theorem rewriteNew_newChildren_invariant (hg : ∀ l n, g (pushColumn l n) = g l) (r : TruncateRootUdf)
    {newChildren : List Expr} :
    ∀ {es ns : List Expr}, List.Forall₂ (KeptOrNamed requiresComputation newChildren) es ns →
      g (r.rewriteNew es ns).1.newChildren = g r.newChildren
  | [], [], _ => rfl
  | e :: es, n :: ns, .cons hn hs => by
    simp only [rewriteNew]
    rcases hn with ⟨he, -⟩ | ⟨he, rfl⟩
    · simp only [he, ite_true, Prod.map_fst, id_eq, rewriteNew_newChildren_invariant hg _ hs]
      exact hg _ _
    · simp only [he, Bool.false_eq_true, ite_false, Prod.map_fst, id_eq,
        rewriteNew_newChildren_invariant hg _ hs, rewrite_newChildren_invariant hg r he]

end PushColumnMeasure

theorem rewrite_rootUdf (r : TruncateRootUdf) :
    ∀ {e : Expr}, isUdfAndShouldTruncateChildren e = true → RootUdf (r.rewrite e).2
  | .alias e n, h => by
    simp only [rewrite, Prod.map_snd]
    exact .alias n (rewrite_rootUdf r (by simpa using h))
  | function (.udf u) inputs, _ => by
    have hf := (truncateInputs_spec r 0 inputs).2
    simp only [rewrite]
    rw [Prod.map_snd, rewriteNew_snd _ hf]
    exact .udf fun a ha =>
      let ⟨_, _, h⟩ := Forall₂.exists_of_mem hf a ha; h.lift_eq_false fun _ => rfl
  | function .listMap _, h | function (.builtin _) _, h => by
    simp [isUdfAndShouldTruncateChildren_function, isUdf] at h
  | column _, h | literal _, h => by cases h

end TruncateRootUdf

namespace TruncateAnyUdfChildren

@[simp] theorem visitColumn_isListMap (r : TruncateAnyUdfChildren) (n : String) :
    (r.visitColumn n).isListMap = r.isListMap := by
  unfold visitColumn; split <;> rfl

theorem visitColumn_of_isListMap {r : TruncateAnyUdfChildren} (hr : r.isListMap = true)
    (n : String) : r.visitColumn n = r := by
  simp [visitColumn, hr]

theorem visitColumn_newChildren_invariant {β : Type} {g : List Expr → β}
    (hg : ∀ l n, g (pushColumn l n) = g l) (r : TruncateAnyUdfChildren) (n : String) :
    g (r.visitColumn n).newChildren = g r.newChildren := by
  unfold visitColumn; split
  · rfl
  · exact hg _ _

@[simp] theorem truncateInputs_isListMap (r : TruncateAnyUdfChildren) (k : Nat) (es : List Expr) :
    (r.truncateInputs k es).1.isListMap = r.isListMap := rfl

theorem truncateInputs_spec (r : TruncateAnyUdfChildren) (k : Nat) (es : List Expr) :
    Appended (fun z => ∃ x ∈ es, x.isUdf = true ∧ ∃ n, z = x.alias n)
        r.newChildren (r.truncateInputs k es).1.newChildren ∧
      List.Forall₂ (KeptOrNamed isUdf (r.truncateInputs k es).1.newChildren) es
        (r.truncateInputs k es).2 :=
  liftChildren_spec _ _ _ _ _ _ _

mutual
theorem rewrite_of_isListMap {r : TruncateAnyUdfChildren} (hr : r.isListMap = true) :
    ∀ e : Expr, r.rewrite e = .ok (r, e)
  | column n => by simp [rewrite, visitColumn_of_isListMap hr]
  | literal _ => rfl
  | .alias e n => by simp [rewrite, hr, rewrite_of_isListMap hr e]
  | function f inputs => by simp [rewrite, hr, rewriteList_of_isListMap hr inputs]
theorem rewriteList_of_isListMap {r : TruncateAnyUdfChildren} (hr : r.isListMap = true) :
    ∀ es : List Expr, r.rewriteList es = .ok (r, es)
  | [] => rfl
  | e :: es => by simp [rewriteList, rewrite_of_isListMap hr e, rewriteList_of_isListMap hr es]
end

theorem rewriteNew_of_isListMap {r : TruncateAnyUdfChildren} (hr : r.isListMap = true)
    {newChildren : List Expr} :
    ∀ {es ns : List Expr}, List.Forall₂ (KeptOrNamed isUdf newChildren) es ns →
      r.rewriteNew es ns = .ok (r, ns)
  | [], [], _ => rfl
  | e :: es, n :: ns, .cons hn hs => by
    rcases hn with ⟨he, -⟩ | ⟨he, rfl⟩ <;>
      simp [rewriteNew, he, visitColumn_of_isListMap hr, rewrite_of_isListMap hr,
        rewriteNew_of_isListMap hr hs]

/-- What an unflagged walk leaves in the pre-order `ns` of its output: no UDF before the
first `list_map`, and the flag set exactly when a `list_map` is there. -/
def CleanWalk (r : TruncateAnyUdfChildren) (ns : List Expr) : Prop :=
  r.isListMap = ns.any Expr.isListMap ∧ anyBeforeListMap isUdf ns = false

theorem CleanWalk.append_of_isListMap {r : TruncateAnyUdfChildren} {xs : List Expr}
    (h : CleanWalk r xs) (hr : r.isListMap = true) (ys : List Expr) : CleanWalk r (xs ++ ys) := by
  obtain ⟨h1, h2⟩ := h
  rw [hr] at h1
  exact ⟨by simp [hr, ← h1], by simp [anyBeforeListMap_append, h2, ← h1]⟩

theorem CleanWalk.append {r r' : TruncateAnyUdfChildren} {xs ys : List Expr}
    (h : CleanWalk r xs) (hr : r.isListMap = false) (h' : CleanWalk r' ys) :
    CleanWalk r' (xs ++ ys) := by
  obtain ⟨h1, h2⟩ := h
  obtain ⟨h1', h2'⟩ := h'
  rw [hr] at h1
  exact ⟨by simp [← h1, h1'], by simp [anyBeforeListMap_append, h2, h2']⟩

theorem cleanWalk_column {r : TruncateAnyUdfChildren} (hr : r.isListMap = false) (n : String) :
    CleanWalk r (column n).preorder := by
  simp [CleanWalk, hr, anyBeforeListMap_cons]

mutual
theorem rewrite_clean {r : TruncateAnyUdfChildren} (hr : r.isListMap = false) :
    ∀ e : Expr, e.isUdf = false → ∃ r' e', r.rewrite e = .ok (r', e') ∧ CleanWalk r' e'.preorder
  | column n, _ => ⟨_, _, rfl, cleanWalk_column (by simp [hr]) n⟩
  | literal _, _ => ⟨_, _, rfl, by simp [CleanWalk, hr, preorder, Expr.isListMap, anyBeforeListMap_cons, isUdf]⟩
  | .alias e n, _ => by
    by_cases he : e.isUdf
    · refine ⟨_, _, by simp [rewrite, hr, he]; exact ⟨rfl, rfl⟩, ?_⟩
      simp [CleanWalk, anyBeforeListMap_cons, hr]
    · obtain ⟨r', e', h, hc⟩ := rewrite_clean hr e (by simpa using he)
      exact ⟨r', e'.alias n, by simp [rewrite, hr, he, h],
        by simpa [CleanWalk, anyBeforeListMap_cons] using hc⟩
  | function f inputs, hu => by
    cases f with
    | udf u => simp [isUdf] at hu
    | listMap =>
      refine ⟨{ r with isListMap := true }, function .listMap inputs,
        by simp [rewrite, hr, rewriteList_of_isListMap], ?_⟩
      simp [CleanWalk, preorder_function, Expr.isListMap, anyBeforeListMap_cons]
    | builtin b =>
      by_cases hany : inputs.any isUdf
      · obtain ⟨r', ns', h, hc⟩ := rewriteNew_clean (r := (r.truncateInputs 0 inputs).1)
          (by simp [hr]) (truncateInputs_spec r 0 inputs).2
        exact ⟨r', function (.builtin b) ns', by simp [rewrite, hr, hany, h],
          by simpa [CleanWalk, preorder_function, anyBeforeListMap_cons, Expr.isListMap, isUdf] using hc⟩
      · obtain ⟨r', es', h, hc⟩ := rewriteList_clean hr inputs (by simpa using hany)
        exact ⟨r', function (.builtin b) es', by simp [rewrite, hr, hany, h],
          by simpa [CleanWalk, preorder_function, anyBeforeListMap_cons, Expr.isListMap, isUdf] using hc⟩
termination_by structural e => e
theorem rewriteList_clean {r : TruncateAnyUdfChildren} (hr : r.isListMap = false) :
    ∀ es : List Expr, (∀ e ∈ es, e.isUdf = false) →
      ∃ r' es', r.rewriteList es = .ok (r', es') ∧ CleanWalk r' (preorderList es')
  | [], _ => ⟨r, [], rfl, by simp [CleanWalk, hr]⟩
  | e :: es, hu => by
    obtain ⟨r1, e1, h1, hc1⟩ := rewrite_clean hr e (hu e (List.mem_cons_self _ _))
    cases hf : r1.isListMap
    · obtain ⟨r2, es2, h2, hc2⟩ :=
        rewriteList_clean hf es fun x hx => hu x (List.mem_cons_of_mem _ hx)
      exact ⟨r2, e1 :: es2, by simp [rewriteList, h1, h2], hc1.append hf hc2⟩
    · exact ⟨r1, e1 :: es, by simp [rewriteList, h1, rewriteList_of_isListMap hf],
        hc1.append_of_isListMap hf _⟩
termination_by structural es => es
theorem rewriteNew_clean {r : TruncateAnyUdfChildren} (hr : r.isListMap = false)
    {newChildren : List Expr} :
    ∀ {es ns : List Expr}, List.Forall₂ (KeptOrNamed isUdf newChildren) es ns →
      ∃ r' ns', r.rewriteNew es ns = .ok (r', ns') ∧ CleanWalk r' (preorderList ns')
  | [], [], _ => ⟨r, [], rfl, by simp [CleanWalk, hr]⟩
  | e :: es, n :: ns, .cons hn hs => by
    rcases hn with ⟨he, c, -, rfl⟩ | ⟨he, hn⟩
    · have hf : (r.visitColumn c).isListMap = false := by simp [hr]
      obtain ⟨r2, ns2, h2, hc2⟩ := rewriteNew_clean hf hs
      exact ⟨r2, column c :: ns2, by simp [rewriteNew, he, h2],
        (cleanWalk_column hf c).append hf hc2⟩
    · subst n
      obtain ⟨r1, e1, h1, hc1⟩ := rewrite_clean hr e he
      cases hf : r1.isListMap
      · obtain ⟨r2, ns2, h2, hc2⟩ := rewriteNew_clean hf hs
        exact ⟨r2, e1 :: ns2, by simp [rewriteNew, he, h1, h2], hc1.append hf hc2⟩
      · exact ⟨r1, e1 :: ns, by simp [rewriteNew, he, h1, rewriteNew_of_isListMap hf hs],
          hc1.append_of_isListMap hf _⟩
termination_by structural es => es
end

end TruncateAnyUdfChildren

end Daft.SplitUdfs
