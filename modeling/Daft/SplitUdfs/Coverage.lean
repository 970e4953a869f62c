import Daft.SplitUdfs.Walks

/-! # What the rewriters record

Every entry a walk appends to `new_children` is a column the tree reads or an alias of a proper
sub-expression (`SubEntry`), lower than the tree, the measure the recursion decreases. A walk over
a tree without `list_map` also records every column its output reads: one it met, or the name of
an entry it lifted (`Covers`). So each stage of a split reads only what the stage below provides.
-/
namespace Daft.SplitUdfs
open Expr

def ListMapFree (e : Expr) : Prop := ∀ x ∈ e.preorder, x.isListMap = false

def Covers (names : List String) (e : Expr) : Prop := ∀ c ∈ e.getRequiredColumns, c ∈ names

/-- An entry a walk over `e` may append to `new_children`: a column `e` reads, or an alias of a
proper sub-expression of `e`. -/
def SubEntry (e z : Expr) : Prop :=
  (∃ c, z = column c ∧ column c ∈ e.preorder) ∨ ∃ x ∈ preorderList e.children, ∃ n, z = x.alias n

instance : DecidablePred ListMapFree :=
  fun e => inferInstanceAs (Decidable (∀ x ∈ e.preorder, x.isListMap = false))

section ListMapFree

@[simp] theorem listMapFree_column (n : String) : ListMapFree (column n) := by
  simp [ListMapFree]

@[simp] theorem listMapFree_alias {e : Expr} {n : String} : ListMapFree (e.alias n) ↔ ListMapFree e := by
  simp [ListMapFree]

theorem listMapFree_function {f : Func} {inputs : List Expr} :
    ListMapFree (function f inputs) ↔
      (function f inputs).isListMap = false ∧ ∀ x ∈ inputs, ListMapFree x := by
  simp only [ListMapFree, preorder_function, List.forall_mem_cons, mem_preorderList]
  exact and_congr_right fun _ => ⟨fun h x hx y hy => h y ⟨x, hx, hy⟩, fun h y ⟨x, hx, hy⟩ => h x hx y hy⟩

theorem ListMapFree.of_mem {e x : Expr} (he : ListMapFree e) (hx : x ∈ e.preorder) : ListMapFree x :=
  fun y hy => he y (preorder_subset_of_mem hx hy)

end ListMapFree

section Covers
variable {names : List String}

theorem Covers.mono {names' : List String} {e : Expr} (h : Covers names e)
    (hs : ∀ c ∈ names, c ∈ names') : Covers names' e :=
  fun c hc => hs c (h c hc)

@[simp] theorem covers_column {c : String} : Covers names (column c) ↔ c ∈ names := by
  simp [Covers]

@[simp] theorem covers_literal (v : Int) : Covers names (literal v) := by simp [Covers]

@[simp] theorem covers_alias {e : Expr} {n : String} : Covers names (e.alias n) ↔ Covers names e := by
  simp [Covers]

theorem covers_function {f : Func} {inputs : List Expr} :
    Covers names (function f inputs) ↔ ∀ x ∈ inputs, Covers names x := by
  simp only [Covers, mem_getRequiredColumns_function]
  exact ⟨fun h x hx c hc => h c ⟨x, hx, hc⟩, fun h c ⟨x, hx, hc⟩ => h x hx c hc⟩

end Covers

section SubEntry

theorem mem_preorder_of_mem_children {e x : Expr} (h : x ∈ preorderList e.children) :
    x ∈ e.preorder := by
  rw [preorder_eq_cons]; exact List.mem_cons_of_mem _ h

theorem subEntry_column (n : String) : SubEntry (column n) (column n) :=
  .inl ⟨n, rfl, mem_preorder_self _⟩

theorem subEntry_alias_of_mem_children {e x : Expr} (hx : x ∈ e.children) (n : String) :
    SubEntry e (x.alias n) :=
  .inr ⟨x, preorder_subset_preorderList hx (mem_preorder_self x), n, rfl⟩

theorem SubEntry.of_mem_children {e x z : Expr} (h : SubEntry x z) (hx : x ∈ e.children) :
    SubEntry e z := by
  rcases h with ⟨c, rfl, hc⟩ | ⟨y, hy, n, rfl⟩
  · exact .inl ⟨c, rfl, mem_preorder_of_mem_children (preorder_subset_preorderList hx hc)⟩
  · exact .inr ⟨y, preorder_subset_preorderList hx (mem_preorder_of_mem_children hy), n, rfl⟩

theorem SubEntry.getRequiredColumns_subset {e z : Expr} (h : SubEntry e z) :
    z.getRequiredColumns ⊆ e.getRequiredColumns := by
  rcases h with ⟨c, rfl, hc⟩ | ⟨x, hx, n, rfl⟩
  · simpa [mem_getRequiredColumns] using hc
  · simpa using Expr.getRequiredColumns_subset (mem_preorder_of_mem_children hx)

theorem SubEntry.covers {e z : Expr} {names : List String} (h : SubEntry e z) (he : Covers names e) :
    Covers names z :=
  fun c hc => he c (h.getRequiredColumns_subset hc)

theorem SubEntry.listMapFree {e z : Expr} (h : SubEntry e z) (he : ListMapFree e) : ListMapFree z := by
  rcases h with ⟨c, rfl, -⟩ | ⟨x, hx, n, rfl⟩
  · exact listMapFree_column c
  · exact listMapFree_alias.mpr (he.of_mem (mem_preorder_of_mem_children hx))

theorem SubEntry.lifted {e z : Expr} (h : SubEntry e z) : Lifted e.height z := by
  rcases h with ⟨c, rfl, -⟩ | ⟨x, hx, n, rfl⟩
  · exact lifted_column _ c
  · exact .inr ⟨rfl, height_lt_of_mem_preorderList_children hx⟩

theorem Appended.of_inputs {f : Func} {inputs a b : List Expr}
    (h : Appended (fun z => ∃ x ∈ inputs, SubEntry x z) a b) :
    Appended (SubEntry (function f inputs)) a b :=
  h.mono fun _ ⟨_, hx, hz⟩ => hz.of_mem_children hx

end SubEntry

theorem covers_cons {P : Expr → Prop} {a b : List Expr} {y : Expr} {ys : List Expr}
    (hab : Appended P a b) (hy : Covers (a.map Expr.name) y ∧ ListMapFree y)
    (hys : ∀ z ∈ ys, Covers (b.map Expr.name) z ∧ ListMapFree z) :
    ∀ z ∈ y :: ys, Covers (b.map Expr.name) z ∧ ListMapFree z :=
  List.forall_mem_cons.mpr ⟨⟨hy.1.mono fun _ => hab.names_subset, hy.2⟩, hys⟩

theorem covers_listMapFree_function {names : List String} {f : Func} {inputs : List Expr}
    (hf : (function f inputs).isListMap = false) (h : ∀ y ∈ inputs, Covers names y ∧ ListMapFree y) :
    Covers names (function f inputs) ∧ ListMapFree (function f inputs) :=
  ⟨covers_function.mpr fun y hy => (h y hy).1, listMapFree_function.mpr ⟨hf, fun y hy => (h y hy).2⟩⟩

namespace TruncateRootUdf

mutual
theorem rewrite_covers (r : TruncateRootUdf) : ∀ e : Expr,
    Appended (SubEntry e) r.newChildren (r.rewrite e).1.newChildren ∧
      (ListMapFree e → Covers ((r.rewrite e).1.newChildren.map Expr.name) (r.rewrite e).2 ∧
        ListMapFree (r.rewrite e).2)
  | column n => ⟨appended_pushColumn (subEntry_column n) _,
      fun _ => ⟨covers_column.mpr (mem_names_pushColumn _ _), listMapFree_column n⟩⟩
  | literal _ => ⟨.refl _ _, fun h => ⟨covers_literal _, h⟩⟩
  | .alias e n => by
    obtain ⟨h1, h2⟩ := rewrite_covers r e
    simp only [rewrite, Prod.map_fst, Prod.map_snd, id]
    exact ⟨h1.mono fun _ hz => hz.of_mem_children (List.mem_singleton_self e),
      fun h => (h2 (listMapFree_alias.mp h)).imp covers_alias.mpr listMapFree_alias.mpr⟩
  | function .listMap inputs | function (.builtin _) inputs => by
    obtain ⟨h1, h2⟩ := rewriteList_covers r inputs
    simp only [rewrite, Prod.map_fst, Prod.map_snd, id]
    exact ⟨h1.of_inputs, fun h => covers_listMapFree_function (listMapFree_function.mp h).1
      (h2 (listMapFree_function.mp h).2)⟩
  | function (.udf _) inputs => by
    obtain ⟨h1, h2⟩ := truncateInputs_spec r 0 inputs
    obtain ⟨h3, h4⟩ := rewriteNew_covers _ h2 (List.Subset.refl _)
    simp only [rewrite, Prod.map_fst, Prod.map_snd, id]
    exact ⟨(h1.mono fun _ ⟨x, hx, _, n, hz⟩ => hz ▸ subEntry_alias_of_mem_children hx n).trans
      h3.of_inputs, fun h => covers_listMapFree_function rfl (h4 (listMapFree_function.mp h).2)⟩
theorem rewriteList_covers (r : TruncateRootUdf) : ∀ es : List Expr,
    Appended (fun z => ∃ x ∈ es, SubEntry x z) r.newChildren (r.rewriteList es).1.newChildren ∧
      ((∀ x ∈ es, ListMapFree x) → ∀ y ∈ (r.rewriteList es).2,
        Covers ((r.rewriteList es).1.newChildren.map Expr.name) y ∧ ListMapFree y)
  | [] => ⟨.refl _ _, fun _ => by simp [rewriteList]⟩
  | e :: es => by
    obtain ⟨h1, h2⟩ := rewrite_covers r e
    obtain ⟨h3, h4⟩ := rewriteList_covers (r.rewrite e).1 es
    simp only [rewriteList, Prod.map_fst, Prod.map_snd, id]
    exact ⟨h1.cons h3, fun hl =>
      covers_cons h3 (h2 (List.forall_mem_cons.mp hl).1) (h4 (List.forall_mem_cons.mp hl).2)⟩
theorem rewriteNew_covers (r : TruncateRootUdf) {newChildren : List Expr} : ∀ {es ns : List Expr},
    List.Forall₂ (KeptOrNamed requiresComputation newChildren) es ns → newChildren ⊆ r.newChildren →
    Appended (fun z => ∃ x ∈ es, SubEntry x z) r.newChildren (r.rewriteNew es ns).1.newChildren ∧
      ((∀ x ∈ es, ListMapFree x) → ∀ y ∈ (r.rewriteNew es ns).2,
        Covers ((r.rewriteNew es ns).1.newChildren.map Expr.name) y ∧ ListMapFree y)
  | [], [], _, _ => ⟨.refl _ _, fun _ => by simp [rewriteNew]⟩
  | e :: es, n :: ns, .cons hn hs, hN => by
    rcases hn with ⟨he, c, hc, rfl⟩ | ⟨he, hn⟩
    · have hc : c ∈ r.newChildren.map Expr.name := List.mem_map_of_mem Expr.name (hN hc)
      obtain ⟨h1, h2⟩ := rewriteNew_covers r hs hN
      have hv : r.visitColumn c = r := by simp only [visitColumn, pushColumn_of_mem hc]
      simp only [rewriteNew, he, ite_true, name_column, hv, Prod.map_fst, Prod.map_snd, id]
      exact ⟨h1.tail, fun hl => covers_cons h1 ⟨covers_column.mpr hc, listMapFree_column c⟩
        (h2 (List.forall_mem_cons.mp hl).2)⟩
    · obtain ⟨h1, h2⟩ := rewrite_covers r e
      obtain ⟨h3, h4⟩ := rewriteNew_covers (r.rewrite e).1 hs (List.Subset.trans hN h1.subset)
      simp only [rewriteNew, he, hn, Bool.false_eq_true, ite_false, Prod.map_fst, Prod.map_snd, id]
      exact ⟨h1.cons h3, fun hl =>
        covers_cons h3 (h2 (List.forall_mem_cons.mp hl).1) (h4 (List.forall_mem_cons.mp hl).2)⟩
end

end TruncateRootUdf

namespace TruncateAnyUdfChildren

theorem visitColumn_of_mem (r : TruncateAnyUdfChildren) {n : String}
    (h : n ∈ r.newChildren.map Expr.name) : r.visitColumn n = r := by
  unfold visitColumn; split
  · rfl
  · simp only [pushColumn_of_mem h]

theorem visitColumn_newChildren {r : TruncateAnyUdfChildren} (hr : r.isListMap = false) (n : String) :
    (r.visitColumn n).newChildren = pushColumn r.newChildren n := by
  simp [visitColumn, hr]

theorem appended_visitColumn (r : TruncateAnyUdfChildren) (n : String) :
    Appended (SubEntry (column n)) r.newChildren (r.visitColumn n).newChildren := by
  unfold visitColumn; split
  · exact .refl _ _
  · exact appended_pushColumn (subEntry_column n) _

mutual
theorem rewrite_covers {r : TruncateAnyUdfChildren} :
    ∀ {e : Expr} {r' : TruncateAnyUdfChildren} {e' : Expr}, r.rewrite e = .ok (r', e') →
      Appended (SubEntry e) r.newChildren r'.newChildren ∧
        (r.isListMap = false → ListMapFree e →
          r'.isListMap = false ∧ Covers (r'.newChildren.map Expr.name) e' ∧ ListMapFree e')
  | column n, _, _, h => by
    cases h
    refine ⟨appended_visitColumn r n, fun hr _ => ⟨by simp [hr], ?_, listMapFree_column n⟩⟩
    rw [covers_column, visitColumn_newChildren hr]
    exact mem_names_pushColumn _ _
  | literal _, _, _, h => by
    cases h
    exact ⟨.refl _ _, fun hr hl => ⟨hr, covers_literal _, hl⟩⟩
  | .alias e n, _, _, h => by
    simp only [rewrite] at h
    split at h
    · cases h
      rw [visitColumn_of_mem _ (by simp)]
      exact ⟨.push (subEntry_alias_of_mem_children (List.mem_singleton_self e) _),
        fun hr _ => ⟨hr, by simp, by simp⟩⟩
    · obtain ⟨e1, h1, rfl⟩ := except_map_snd_eq_ok.mp h
      obtain ⟨h3, h4⟩ := rewrite_covers h1
      exact ⟨h3.mono fun _ hz => hz.of_mem_children (List.mem_singleton_self e), fun hr hl =>
        (h4 hr (listMapFree_alias.mp hl)).imp_right fun h => h.imp covers_alias.mpr listMapFree_alias.mpr⟩
  | function f inputs, _, _, h => by
    simp only [rewrite] at h
    split at h
    · next hflag =>
      obtain ⟨es1, h1, rfl⟩ := except_map_snd_eq_ok.mp h
      exact ⟨(rewriteList_covers h1).1.of_inputs, fun hr => by simp [hr] at hflag⟩
    split at h
    · cases h
    · obtain ⟨es1, h1, rfl⟩ := except_map_snd_eq_ok.mp h
      exact ⟨(rewriteList_covers h1).1.of_inputs,
        fun _ hl => absurd (listMapFree_function.mp hl).1 (by simp [Expr.isListMap])⟩
    split at h
    · obtain ⟨ns2, h1, rfl⟩ := except_map_snd_eq_ok.mp h
      obtain ⟨h3, h4⟩ := truncateInputs_spec r 0 inputs
      obtain ⟨h5, h6⟩ := rewriteNew_covers h4 (List.Subset.refl _) h1
      exact ⟨(h3.mono fun _ ⟨x, hx, _, n, hz⟩ => hz ▸ subEntry_alias_of_mem_children hx n).trans
          h5.of_inputs, fun hr hl => (h6 hr (listMapFree_function.mp hl).2).imp_right
        (covers_listMapFree_function rfl)⟩
    · obtain ⟨es2, h1, rfl⟩ := except_map_snd_eq_ok.mp h
      obtain ⟨h5, h6⟩ := rewriteList_covers h1
      exact ⟨h5.of_inputs, fun hr hl => (h6 hr (listMapFree_function.mp hl).2).imp_right
        (covers_listMapFree_function rfl)⟩
termination_by structural e => e
theorem rewriteList_covers {r : TruncateAnyUdfChildren} :
    ∀ {es : List Expr} {r' : TruncateAnyUdfChildren} {es' : List Expr},
      r.rewriteList es = .ok (r', es') →
      Appended (fun z => ∃ x ∈ es, SubEntry x z) r.newChildren r'.newChildren ∧
        (r.isListMap = false → (∀ x ∈ es, ListMapFree x) →
          r'.isListMap = false ∧ ∀ y ∈ es', Covers (r'.newChildren.map Expr.name) y ∧ ListMapFree y)
  | [], _, _, h => by
    cases h
    exact ⟨.refl _ _, fun hr _ => ⟨hr, by simp⟩⟩
  | e :: es, _, _, h => by
    obtain ⟨⟨r1, e1⟩, h1, h2⟩ := except_bind_eq_ok.mp h
    obtain ⟨es2, h3, rfl⟩ := except_map_snd_eq_ok.mp h2
    obtain ⟨h5, h6⟩ := rewrite_covers h1
    obtain ⟨h7, h8⟩ := rewriteList_covers h3
    refine ⟨h5.cons h7, fun hr hl => ?_⟩
    obtain ⟨h9, h10⟩ := h6 hr (List.forall_mem_cons.mp hl).1
    exact (h8 h9 (List.forall_mem_cons.mp hl).2).imp_right (covers_cons h7 h10)
termination_by structural es => es
theorem rewriteNew_covers {r : TruncateAnyUdfChildren} {newChildren : List Expr} :
    ∀ {es ns : List Expr} {r' : TruncateAnyUdfChildren} {ns' : List Expr},
      List.Forall₂ (KeptOrNamed isUdf newChildren) es ns →
      newChildren ⊆ r.newChildren → r.rewriteNew es ns = .ok (r', ns') →
      Appended (fun z => ∃ x ∈ es, SubEntry x z) r.newChildren r'.newChildren ∧
        (r.isListMap = false → (∀ x ∈ es, ListMapFree x) →
          r'.isListMap = false ∧ ∀ y ∈ ns', Covers (r'.newChildren.map Expr.name) y ∧ ListMapFree y)
  | [], [], _, _, _, _, h => by
    cases h
    exact ⟨.refl _ _, fun hr _ => ⟨hr, by simp⟩⟩
  | e :: es, n :: ns, _, _, .cons hn hs, hN, h => by
    rcases hn with ⟨he, c, hc, rfl⟩ | ⟨he, hn⟩
    · have hc : c ∈ r.newChildren.map Expr.name := List.mem_map_of_mem Expr.name (hN hc)
      simp only [rewriteNew, he, ite_true, name_column, visitColumn_of_mem r hc] at h
      obtain ⟨ns2, h3, rfl⟩ := except_map_snd_eq_ok.mp (by simpa using h)
      obtain ⟨h5, h6⟩ := rewriteNew_covers hs hN h3
      exact ⟨h5.tail, fun hr hl => (h6 hr (List.forall_mem_cons.mp hl).2).imp_right
        (covers_cons h5 ⟨covers_column.mpr hc, listMapFree_column c⟩)⟩
    · simp only [rewriteNew, he, hn, Bool.false_eq_true, ite_false] at h
      obtain ⟨⟨r1, n1⟩, h1, h2⟩ := except_bind_eq_ok.mp h
      obtain ⟨ns2, h3, rfl⟩ := except_map_snd_eq_ok.mp h2
      obtain ⟨h5, h6⟩ := rewrite_covers h1
      obtain ⟨h7, h8⟩ := rewriteNew_covers hs (List.Subset.trans hN h5.subset) h3
      refine ⟨h5.cons h7, fun hr hl => ?_⟩
      obtain ⟨h9, h10⟩ := h6 hr (List.forall_mem_cons.mp hl).1
      exact (h8 h9 (List.forall_mem_cons.mp hl).2).imp_right (covers_cons h7 h10)
termination_by structural es => es
end

end TruncateAnyUdfChildren

end Daft.SplitUdfs
