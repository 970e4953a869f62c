import Mathlib.Data.Nat.Digits
import Mathlib.Tactic.IntervalCases
import Daft.SplitUdfs.Resolution

/-! # Putting lifted entries back

A walk replaces each child it lifts by a column of an intermediate name and appends it as an
alias under that name; substituting the aliases back gives the expression walked (`Restores`).
Names are injective (`intermediateName_inj`), so when each expression lifts at one node at most,
`remaining` puts every truncated expression back together (`splitProjection_restores`).
-/
namespace Daft.SplitUdfs
open Expr

section IntermediateNames

def digitsValue : Nat → List Char → Nat
  | acc, [] => acc
  | acc, c :: cs => digitsValue (10 * acc + (c.toNat - 48)) cs

@[simp] theorem digitsValue_cons (acc : Nat) (c : Char) (cs : List Char) :
    digitsValue acc (c :: cs) = digitsValue (10 * acc + (c.toNat - 48)) cs := rfl

theorem digitChar_toNat {d : Nat} (h : d < 10) : (Nat.digitChar d).toNat - 48 = d := by
  interval_cases d <;> rfl

theorem isDigit_digitChar {d : Nat} (h : d < 10) : (Nat.digitChar d).isDigit = true := by
  interval_cases d <;> rfl

theorem digitsValue_toDigitsCore :
    ∀ (fuel n : Nat) (ds : List Char), n < fuel →
      digitsValue 0 (Nat.toDigitsCore 10 fuel n ds) = digitsValue n ds
  | 0, _, _, h => absurd h (Nat.not_lt_zero _)
  | fuel + 1, n, ds, h => by
    have hd := digitChar_toNat (Nat.mod_lt n (show 0 < 10 by decide))
    have hn : 10 * (n / 10) + n % 10 = n := Nat.div_add_mod n 10
    unfold Nat.toDigitsCore
    dsimp only
    split
    · simp only [digitsValue_cons, hd]
      congr 1
      omega
    · simp only [digitsValue_toDigitsCore fuel (n / 10) _ (by omega), digitsValue_cons, hd, hn]

theorem isDigit_of_mem_toDigitsCore :
    ∀ (fuel n : Nat) (ds : List Char) (c : Char), c ∈ Nat.toDigitsCore 10 fuel n ds →
      c ∈ ds ∨ c.isDigit = true
  | 0, _, _, _, h => .inl h
  | fuel + 1, n, ds, c, h => by
    have hd := isDigit_digitChar (Nat.mod_lt n (show 0 < 10 by decide))
    unfold Nat.toDigitsCore at h
    dsimp only at h
    have hcons : c ∈ Nat.digitChar (n % 10) :: ds → c ∈ ds ∨ c.isDigit = true := fun h =>
      (List.mem_cons.mp h).elim (fun h => .inr (h ▸ hd)) .inl
    split at h
    · exact hcons h
    · exact (isDigit_of_mem_toDigitsCore fuel _ _ c h).elim hcons .inr

theorem digitsValue_toString (n : Nat) : digitsValue 0 (toString n).data = n :=
  digitsValue_toDigitsCore (n + 1) n [] (Nat.lt_succ_self n)

theorem dash_not_mem_toString (n : Nat) : '-' ∉ (toString n).data := fun h =>
  absurd ((isDigit_of_mem_toDigitsCore _ n [] _ h).resolve_left (List.not_mem_nil _)) (by decide)

theorem append_cons_inj {c : Char} :
    ∀ {a a' b b' : List Char}, c ∉ a → c ∉ a' → a ++ c :: b = a' ++ c :: b' → a = a' ∧ b = b'
  | [], [], _, _, _, _, h => ⟨rfl, (List.cons.inj h).2⟩
  | [], _ :: _, _, _, _, ha', h => absurd (List.mem_cons.mpr (.inl (List.cons.inj h).1)) ha'
  | _ :: _, [], _, _, ha, _, h => absurd (List.mem_cons.mpr (.inl (List.cons.inj h).1.symm)) ha
  | x :: a, y :: a', b, b', ha, ha', h => by
    simp only [List.cons_append, List.cons.injEq] at h
    obtain ⟨rfl, h⟩ := h
    obtain ⟨rfl, rfl⟩ := append_cons_inj (List.not_mem_of_not_mem_cons ha)
      (List.not_mem_of_not_mem_cons ha') h
    exact ⟨rfl, rfl⟩

theorem intermediateName_data (rewriter : String) (stageIdx exprIdx k : Nat) :
    (intermediateName rewriter stageIdx exprIdx k).data =
      '_' :: '_' :: (rewriter.data ++ '_' :: ((toString stageIdx).data ++ '-' ::
        ((toString exprIdx).data ++ '-' :: ((toString k).data ++ ['_', '_'])))) := by
  simp [intermediateName]

theorem intermediateName_inj {rw rw' : String} {s s' i i' k k' : Nat} (hrw : '_' ∉ rw.data)
    (hrw' : '_' ∉ rw'.data) (h : intermediateName rw s i k = intermediateName rw' s' i' k') :
    rw = rw' ∧ s = s' ∧ i = i' ∧ k = k' := by
  have h := congrArg String.data h
  simp only [intermediateName_data, List.cons.injEq, true_and] at h
  obtain ⟨hr, h⟩ := append_cons_inj hrw hrw' h
  obtain ⟨hs, h⟩ := append_cons_inj (dash_not_mem_toString s) (dash_not_mem_toString s') h
  obtain ⟨hi, h⟩ := append_cons_inj (dash_not_mem_toString i) (dash_not_mem_toString i') h
  have hk := List.append_cancel_right h
  refine ⟨String.ext hr, ?_, ?_, ?_⟩
  · rw [← digitsValue_toString s, hs, digitsValue_toString]
  · rw [← digitsValue_toString i, hi, digitsValue_toString]
  · rw [← digitsValue_toString k, hk, digitsValue_toString]

/-- A name some rewriter without `_` in its name gives a child it lifts at stage `s`. -/
def IsIntermediate (s : Nat) (n : String) : Prop :=
  ∃ rw i k, '_' ∉ rw.data ∧ n = intermediateName rw s i k

theorem intermediateName_take_two (rw : String) (s i k : Nat) :
    (intermediateName rw s i k).data.take 2 = ['_', '_'] := by
  rw [intermediateName_data]; rfl

theorem not_isIntermediate_of_take_two {n : String} (h : n.data.take 2 ≠ ['_', '_']) (s : Nat) :
    ¬ IsIntermediate s n := by
  rintro ⟨rw, i, k, -, rfl⟩
  exact h (intermediateName_take_two rw s i k)

theorem map_intermediateName_nodup {rw : String} (hrw : '_' ∉ rw.data) (s i m : Nat) :
    ((List.range m).map (intermediateName rw s i)).Nodup :=
  (List.nodup_range m).map fun _ _ h => (intermediateName_inj hrw hrw h).2.2.2

end IntermediateNames

def liftedNames (l : List Expr) : List String := (liftedBindings l).map Prod.fst

@[simp] theorem liftedNames_nil : liftedNames [] = [] := rfl

@[simp] theorem liftedNames_append (a b : List Expr) :
    liftedNames (a ++ b) = liftedNames a ++ liftedNames b := by
  simp [liftedNames, liftedBindings, List.filterMap_append]

@[simp] theorem liftedNames_alias (x : Expr) (n : String) : liftedNames [x.alias n] = [n] := rfl

@[simp] theorem liftedNames_column (c : String) : liftedNames [column c] = [] := rfl

@[simp] theorem liftedNames_cons_alias (x : Expr) (n : String) (l : List Expr) :
    liftedNames (x.alias n :: l) = n :: liftedNames l := rfl

theorem liftedNames_pushColumn (l : List Expr) (n : String) :
    liftedNames (pushColumn l n) = liftedNames l := by
  unfold pushColumn; split <;> simp

theorem mem_liftedNames {l : List Expr} {x : Expr} {n : String} (h : x.alias n ∈ l) :
    n ∈ liftedNames l := by
  obtain ⟨a, b, rfl⟩ := List.append_of_mem h
  simp

theorem lookup_liftedBindings_of_mem :
    ∀ {l : List Expr} {x : Expr} {n : String}, (l.map Expr.name).Nodup → x.alias n ∈ l →
      (liftedBindings l).lookup n = some x
  | z :: l, x, n, hd, h => by
    rcases List.mem_cons.mp h with rfl | h
    · simp [liftedBindings, List.lookup_cons]
    · have hz : z.name ≠ n := by
        rintro rfl
        exact (List.nodup_cons.mp hd).1 (by simpa using List.mem_map_of_mem Expr.name h)
      have ih := lookup_liftedBindings_of_mem (List.nodup_cons.mp hd).2 h
      cases z with
      | «alias» y m =>
        have hm : (n == m) = false := beq_eq_false_iff_ne.mpr (Ne.symm hz)
        simpa [liftedBindings, List.lookup_cons, hm] using ih
      | _ => simpa [liftedBindings] using ih

theorem lookup_liftedBindings_eq_none {l : List Expr} {n : String} (h : ∀ x : Expr, x.alias n ∉ l) :
    (liftedBindings l).lookup n = none :=
  List.lookup_eq_none_iff.mpr fun p hp => by
    obtain ⟨z, hz, hp⟩ := List.mem_filterMap.mp hp
    cases z with
    | «alias» c m =>
      cases hp
      exact bne_iff_ne.mpr fun hm => h c (hm ▸ hz)
    | _ => cases hp

theorem mem_of_lookup_liftedBindings {l : List Expr} {c : String} {x : Expr}
    (h : (liftedBindings l).lookup c = some x) : x.alias c ∈ l := by
  obtain ⟨l₁, l₂, hl, -⟩ := List.lookup_eq_some_iff.mp h
  have hm : (c, x) ∈ liftedBindings l := by rw [hl]; simp
  obtain ⟨z, hz, hp⟩ := List.mem_filterMap.mp hm
  cases z with
  | «alias» y n => cases hp; exact hz
  | _ => cases hp

mutual
/-- The nodes at which `TruncateAnyUDFChildren` lifts: an alias of a UDF, and a builtin with a
UDF child; a UDF or a `list_map` is never walked. Each such node restarts the counter of its
intermediate names. -/
def liftSites : Expr → Nat
  | column _ | literal _ => 0
  | .alias e _ => if e.isUdf then 1 else liftSites e
  | function (.builtin _) inputs => (if inputs.any isUdf then 1 else 0) + liftSitesList inputs
  | function _ _ => 0
def liftSitesList : List Expr → Nat
  | [] => 0
  | e :: es => liftSites e + liftSitesList es
end

@[simp] theorem liftSites_column (n : String) : liftSites (column n) = 0 := rfl

theorem liftSites_udf {e : Expr} (h : e.isUdf = true) : liftSites e = 0 := by
  match e, h with
  | function (.udf _) _, _ => rfl

section Restores

mutual
theorem substitute_of_unbound {σ : List (String × Expr)} :
    ∀ {e : Expr}, (∀ c, column c ∈ e.preorder → σ.lookup c = none) → substitute σ e = e
  | column n, h => by simp [substitute, h n (List.mem_singleton_self _)]
  | literal _, _ => rfl
  | .alias e n, h => by
    rw [substitute, substitute_of_unbound fun c hc => h c (by simp [hc])]
  | function f inputs, h => by
    rw [substitute, substituteList_of_unbound fun c hc => h c (by simp [preorder_function, hc])]
termination_by structural e => e
theorem substituteList_of_unbound {σ : List (String × Expr)} :
    ∀ {es : List Expr}, (∀ c, column c ∈ preorderList es → σ.lookup c = none) →
      substituteList σ es = es
  | [], _ => rfl
  | e :: es, h => by
    rw [substituteList, substitute_of_unbound fun c hc => h c (by simp [hc]),
      substituteList_of_unbound fun c hc => h c (by simp [hc])]
termination_by structural es => es
end

/-- `σ` puts back each lifted entry of `newChildren`. -/
def BindsLifted (σ : List (String × Expr)) (newChildren : List Expr) : Prop :=
  ∀ x n, x.alias n ∈ newChildren → σ.lookup n = some x

/-- Putting back the lifted entries of `newChildren` into `t` gives `e`, for every binding that
leaves the columns of `e` alone. -/
def Restores (newChildren : List Expr) (e t : Expr) : Prop :=
  ∀ σ, BindsLifted σ newChildren → (∀ c, column c ∈ e.preorder → σ.lookup c = none) →
    substitute σ t = e

def RestoresList (newChildren : List Expr) (es ts : List Expr) : Prop :=
  ∀ σ, BindsLifted σ newChildren → (∀ c, column c ∈ preorderList es → σ.lookup c = none) →
    substituteList σ ts = es

variable {l l' : List Expr} {e t : Expr} {es ts : List Expr}

theorem BindsLifted.mono {σ : List (String × Expr)} (h : BindsLifted σ l') (hl : l ⊆ l') :
    BindsLifted σ l := fun x n hx => h x n (hl hx)

theorem Restores.mono (h : Restores l e t) (hl : l ⊆ l') : Restores l' e t :=
  fun σ hσ hc => h σ (hσ.mono hl) hc

theorem Restores.mono_aliases (h : Restores l e t) (hl : ∀ (x : Expr) n, x.alias n ∈ l → x.alias n ∈ l') :
    Restores l' e t :=
  fun σ hσ hc => h σ (fun x n hx => hσ x n (hl x n hx)) hc

theorem restores_self (l : List Expr) (e : Expr) : Restores l e e :=
  fun _ _ hc => substitute_of_unbound hc

theorem Restores.alias (h : Restores l e t) (n : String) : Restores l (e.alias n) (t.alias n) :=
  fun σ hσ hc => by rw [substitute, h σ hσ fun c h => hc c (by simp [h])]

theorem RestoresList.function (h : RestoresList l es ts) (f : Func) :
    Restores l (function f es) (function f ts) :=
  fun σ hσ hc => by rw [substitute, h σ hσ fun c h => hc c (by simp [preorder_function, h])]

theorem restoresList_nil (l : List Expr) : RestoresList l [] [] := fun _ _ _ => rfl

theorem RestoresList.cons (h : Restores l e t) (hs : RestoresList l es ts) :
    RestoresList l (e :: es) (t :: ts) :=
  fun σ hσ hc => by
    rw [substituteList, h σ hσ fun c h => hc c (by simp [h]), hs σ hσ fun c h => hc c (by simp [h])]

theorem restores_lifted {x : Expr} {c : String} (h : x.alias c ∈ l) : Restores l x (column c) :=
  fun σ hσ _ => by simp [substitute, hσ x c h]

theorem KeptOrNamed.restoresList {lift : Expr → Bool} (hl : l ⊆ l') :
    ∀ {es ns : List Expr}, List.Forall₂ (KeptOrNamed lift l) es ns → RestoresList l' es ns
  | [], [], .nil => restoresList_nil _
  | _ :: _, _ :: _, .cons hn hs => by
    refine RestoresList.cons ?_ (KeptOrNamed.restoresList hl hs)
    rcases hn with ⟨-, c, hc, rfl⟩ | ⟨-, rfl⟩
    · exact restores_lifted (hl hc)
    · exact restores_self _ _

end Restores

/-- At most one node lifts: with no lift site the lifted names stay as they were, with one
they grow by `rw`'s names for stage `s` and expression `i` with counters `0, …, m - 1`. -/
def LiftedOnce (rw : String) (s i sites : Nat) (old new : List Expr) : Prop :=
  (sites = 0 → liftedNames new = liftedNames old) ∧
    (sites ≤ 1 → ∃ m, liftedNames new = liftedNames old ++ (List.range m).map (intermediateName rw s i))

section LiftedOnce
variable {rw : String} {s i : Nat} {a b c : List Expr}

theorem LiftedOnce.of_eq (h : liftedNames b = liftedNames a) (n : Nat) : LiftedOnce rw s i n a b :=
  ⟨fun _ => h, fun _ => ⟨0, by simp [h]⟩⟩

theorem LiftedOnce.trans {n n' : Nat} (h1 : LiftedOnce rw s i n a b) (h2 : LiftedOnce rw s i n' b c) :
    LiftedOnce rw s i (n + n') a c := by
  refine ⟨fun h => by rw [h2.1 (by omega), h1.1 (by omega)], fun h => ?_⟩
  rcases Nat.eq_zero_or_pos n with hn | hn
  · obtain ⟨m, hm⟩ := h2.2 (by omega)
    exact ⟨m, by rw [hm, h1.1 hn]⟩
  · obtain ⟨m, hm⟩ := h1.2 (by omega)
    exact ⟨m, by rw [h2.1 (by omega), hm]⟩

theorem LiftedOnce.site {n m : Nat} (hm : liftedNames b = liftedNames a ++ (List.range m).map (intermediateName rw s i))
    (h : LiftedOnce rw s i n b c) : LiftedOnce rw s i (1 + n) a c :=
  ⟨fun h => by omega, fun h' => ⟨m, by rw [h.1 (by omega), hm]⟩⟩

end LiftedOnce

section LiftChildren
variable (lift : Expr → Bool) (rewriter : String) (stageIdx exprIdx : Nat)

theorem liftChildren_liftedNames : ∀ (newChildren : List Expr) (k : Nat) (es : List Expr),
    ∃ m, liftedNames (liftChildren lift rewriter stageIdx exprIdx newChildren k es).1 =
      liftedNames newChildren ++ (List.range' k m).map (intermediateName rewriter stageIdx exprIdx)
  | _, _, [] => ⟨0, by simp [liftChildren]⟩
  | newChildren, k, e :: es => by
    unfold liftChildren
    split
    · obtain ⟨m, hm⟩ := liftChildren_liftedNames
        (newChildren ++ [e.alias (intermediateName rewriter stageIdx exprIdx k)]) (k + 1) es
      exact ⟨m + 1, by simp [hm, List.range'_succ]⟩
    · exact liftChildren_liftedNames newChildren k es

end LiftChildren

namespace TruncateRootUdf

@[simp] theorem visitColumn_stageIdx (r : TruncateRootUdf) (n : String) :
    (r.visitColumn n).stageIdx = r.stageIdx := rfl

@[simp] theorem visitColumn_exprIdx (r : TruncateRootUdf) (n : String) :
    (r.visitColumn n).exprIdx = r.exprIdx := rfl

theorem rewrite_lifts (r : TruncateRootUdf) :
    ∀ {e : Expr}, isUdfAndShouldTruncateChildren e = true →
      (∃ m, liftedNames (r.rewrite e).1.newChildren = liftedNames r.newChildren ++
        (List.range m).map (intermediateName "TruncateRootUDF" r.stageIdx r.exprIdx)) ∧
      Restores (r.rewrite e).1.newChildren e (r.rewrite e).2
  | .alias e n, h => by
    simp only [rewrite, Prod.map_fst, Prod.map_snd]
    exact (rewrite_lifts r (by simpa using h)).imp_right fun h => h.alias n
  | function (.udf u) inputs, _ => by
    obtain ⟨h1, h2⟩ := truncateInputs_spec r 0 inputs
    obtain ⟨m, hm⟩ := liftChildren_liftedNames requiresComputation "TruncateRootUDF" r.stageIdx
      r.exprIdx r.newChildren 0 inputs
    have hsub := (rewriteNew_covers _ h2 (List.Subset.refl _)).1.subset
    simp only [rewrite, Prod.map_fst, Prod.map_snd, id_eq]
    rw [rewriteNew_snd _ h2, rewriteNew_newChildren_invariant liftedNames_pushColumn _ h2]
    exact ⟨⟨m, by simpa [List.range_eq_range'] using hm⟩, (KeptOrNamed.restoresList hsub h2).function _⟩
  | function .listMap _, h | function (.builtin _) _, h => by
    simp [isUdfAndShouldTruncateChildren_function, isUdf] at h
  | column _, h | literal _, h => by cases h

end TruncateRootUdf

namespace TruncateAnyUdfChildren

@[simp] theorem visitColumn_stageIdx (r : TruncateAnyUdfChildren) (n : String) :
    (r.visitColumn n).stageIdx = r.stageIdx := by
  unfold visitColumn; split <;> rfl

@[simp] theorem visitColumn_exprIdx (r : TruncateAnyUdfChildren) (n : String) :
    (r.visitColumn n).exprIdx = r.exprIdx := by
  unfold visitColumn; split <;> rfl

mutual
theorem rewrite_lifts {r : TruncateAnyUdfChildren} :
    ∀ {e : Expr} {r' : TruncateAnyUdfChildren} {e' : Expr}, r.rewrite e = .ok (r', e') →
      r.isListMap = false → ListMapFree e →
      r'.stageIdx = r.stageIdx ∧ r'.exprIdx = r.exprIdx ∧
        LiftedOnce "TruncateAnyUDFChildren" r.stageIdx r.exprIdx (liftSites e) r.newChildren
          r'.newChildren ∧ Restores r'.newChildren e e'
  | column n, _, _, h, _, _ => by
    cases h
    exact ⟨by simp, by simp, .of_eq (visitColumn_newChildren_invariant liftedNames_pushColumn r n) _, restores_self _ _⟩
  | literal _, _, _, h, _, _ => by
    cases h
    exact ⟨rfl, rfl, .of_eq rfl _, restores_self _ _⟩
  | .alias e n, _, _, h, hr, hl => by
    simp only [rewrite] at h
    split at h
    · next hu =>
      cases h
      have he : e.isUdf = true := by simpa [hr] using hu
      rw [visitColumn_of_mem _ (by simp)]
      refine ⟨rfl, rfl, ⟨fun h => by simp [liftSites, he] at h, fun _ => ⟨1, by simp; rfl⟩⟩,
        (restores_lifted (by simp)).alias n⟩
    · next hu =>
      have he : e.isUdf = false := by simpa [hr] using hu
      obtain ⟨e1, h1, rfl⟩ := except_map_snd_eq_ok.mp h
      obtain ⟨hs, hi, ho, hre⟩ := rewrite_lifts h1 hr (listMapFree_alias.mp hl)
      exact ⟨hs, hi, by simpa [liftSites, he] using ho, hre.alias n⟩
  | function f inputs, _, _, h, hr, hl => by
    simp only [rewrite, hr, Bool.false_eq_true, ite_false] at h
    have hli := (listMapFree_function.mp hl).2
    split at h
    · cases h
    · exact absurd (listMapFree_function.mp hl).1 (by simp [Expr.isListMap])
    split at h
    · next hany =>
      obtain ⟨ns2, h1, rfl⟩ := except_map_snd_eq_ok.mp h
      obtain ⟨-, h4⟩ := truncateInputs_spec r 0 inputs
      obtain ⟨m, hm⟩ := liftChildren_liftedNames isUdf "TruncateAnyUDFChildren" r.stageIdx r.exprIdx
        r.newChildren 0 inputs
      obtain ⟨hs, hi, ho, hre⟩ := rewriteNew_lifts h4 (List.Subset.refl _) h1 hr hli
      refine ⟨hs, hi, ?_, hre.function _⟩
      simpa [liftSites, hany] using
        LiftedOnce.site (by simpa [List.range_eq_range'] using hm) ho
    · next hany =>
      obtain ⟨es2, h1, rfl⟩ := except_map_snd_eq_ok.mp h
      obtain ⟨hs, hi, ho, hre⟩ := rewriteList_lifts h1 hr hli
      exact ⟨hs, hi, by simpa [liftSites, hany] using ho, hre.function _⟩
termination_by structural e => e
theorem rewriteList_lifts {r : TruncateAnyUdfChildren} :
    ∀ {es : List Expr} {r' : TruncateAnyUdfChildren} {es' : List Expr},
      r.rewriteList es = .ok (r', es') → r.isListMap = false → (∀ x ∈ es, ListMapFree x) →
      r'.stageIdx = r.stageIdx ∧ r'.exprIdx = r.exprIdx ∧
        LiftedOnce "TruncateAnyUDFChildren" r.stageIdx r.exprIdx (liftSitesList es) r.newChildren
          r'.newChildren ∧ RestoresList r'.newChildren es es'
  | [], _, _, h, _, _ => by
    cases h
    exact ⟨rfl, rfl, .of_eq rfl _, restoresList_nil _⟩
  | e :: es, _, _, h, hr, hl => by
    obtain ⟨⟨r1, e1⟩, h1, h2⟩ := except_bind_eq_ok.mp h
    obtain ⟨es2, h3, rfl⟩ := except_map_snd_eq_ok.mp h2
    obtain ⟨hs, hi, ho, hre⟩ := rewrite_lifts h1 hr (hl e (List.mem_cons_self _ _))
    obtain ⟨h5, h6⟩ := rewrite_covers h1
    obtain ⟨hs', hi', ho', hre'⟩ := rewriteList_lifts h3 (h6 hr (hl e (List.mem_cons_self _ _))).1
      fun x hx => hl x (List.mem_cons_of_mem _ hx)
    simp only [hs, hi] at ho' hs' hi'
    exact ⟨hs', hi', ho.trans ho', RestoresList.cons (hre.mono (rewriteList_covers h3).1.subset) hre'⟩
termination_by structural es => es
theorem rewriteNew_lifts {r : TruncateAnyUdfChildren} {newChildren : List Expr} :
    ∀ {es ns : List Expr} {r' : TruncateAnyUdfChildren} {ns' : List Expr},
      List.Forall₂ (KeptOrNamed isUdf newChildren) es ns → newChildren ⊆ r.newChildren →
      r.rewriteNew es ns = .ok (r', ns') → r.isListMap = false → (∀ x ∈ es, ListMapFree x) →
      r'.stageIdx = r.stageIdx ∧ r'.exprIdx = r.exprIdx ∧
        LiftedOnce "TruncateAnyUDFChildren" r.stageIdx r.exprIdx (liftSitesList es) r.newChildren
          r'.newChildren ∧ RestoresList r'.newChildren es ns'
  | [], [], _, _, _, _, h, _, _ => by
    cases h
    exact ⟨rfl, rfl, .of_eq rfl _, restoresList_nil _⟩
  | e :: es, n :: ns, _, _, .cons hn hs, hN, h, hr, hl => by
    rcases hn with ⟨he, c, hc, rfl⟩ | ⟨he, hn⟩
    · have hcm : c ∈ r.newChildren.map Expr.name := List.mem_map_of_mem Expr.name (hN hc)
      simp only [rewriteNew, he, ite_true, name_column, visitColumn_of_mem r hcm] at h
      obtain ⟨ns2, h3, rfl⟩ := except_map_snd_eq_ok.mp (by simpa using h)
      obtain ⟨hs', hi', ho', hre'⟩ := rewriteNew_lifts hs hN h3 hr
        fun x hx => hl x (List.mem_cons_of_mem _ hx)
      refine ⟨hs', hi', by simpa [liftSitesList, liftSites_udf he] using ho', ?_⟩
      exact RestoresList.cons (restores_lifted ((rewriteNew_covers hs hN h3).1.subset (hN hc))) hre'
    · simp only [rewriteNew, he, hn, Bool.false_eq_true, ite_false] at h
      obtain ⟨⟨r1, n1⟩, h1, h2⟩ := except_bind_eq_ok.mp h
      obtain ⟨ns2, h3, rfl⟩ := except_map_snd_eq_ok.mp h2
      obtain ⟨hs1, hi1, ho, hre⟩ := rewrite_lifts h1 hr (hl e (List.mem_cons_self _ _))
      obtain ⟨h5, h6⟩ := rewrite_covers h1
      obtain ⟨hs', hi', ho', hre'⟩ := rewriteNew_lifts hs (List.Subset.trans hN h5.subset) h3
        (h6 hr (hl e (List.mem_cons_self _ _))).1 fun x hx => hl x (List.mem_cons_of_mem _ hx)
      simp only [hs1, hi1] at ho' hs' hi'
      exact ⟨hs', hi', ho.trans ho', RestoresList.cons
        (hre.mono (rewriteNew_covers hs (List.Subset.trans hN h5.subset) h3).1.subset) hre'⟩
termination_by structural es => es
end

end TruncateAnyUdfChildren

theorem eq_of_alias_mem_of_nodup :
    ∀ {l : List Expr} {x x' : Expr} {n : String}, (liftedNames l).Nodup → x.alias n ∈ l →
      x'.alias n ∈ l → x = x'
  | z :: l, x, x', n, hd, h, h' => by
    cases z with
    | «alias» y m =>
      rw [liftedNames_cons_alias, List.nodup_cons] at hd
      rcases List.mem_cons.mp h with h1 | h1 <;> rcases List.mem_cons.mp h' with h2 | h2
      · cases h1; cases h2; rfl
      · cases h1; exact absurd (mem_liftedNames h2) hd.1
      · cases h2; exact absurd (mem_liftedNames h1) hd.1
      · exact eq_of_alias_mem_of_nodup hd.2 h1 h2
    | _ =>
      exact eq_of_alias_mem_of_nodup (l := l) hd ((List.mem_cons.mp h).resolve_left fun h => by cases h)
        ((List.mem_cons.mp h').resolve_left fun h => by cases h)

@[simp] theorem liftedNames_map_column (cs : List String) : liftedNames (cs.map column) = [] := by
  induction cs with
  | nil => rfl
  | cons c cs ih => exact ih

/-- An entry of `new_children` once the loop has passed the expressions before `exprIdx` at stage
`s`: a column that is no intermediate name, or an alias under a name lifted from an earlier
expression. -/
def NamedBefore (s exprIdx : Nat) (z : Expr) : Prop :=
  (∃ c, z = column c ∧ ∀ s', ¬ IsIntermediate s' c) ∨
    ∃ (x : Expr) (n : String), z = x.alias n ∧ ∃ rw i k, '_' ∉ rw.data ∧ i < exprIdx ∧ n = intermediateName rw s i k

theorem NamedBefore.mono {s i i' : Nat} {z : Expr} (h : NamedBefore s i z) (hi : i ≤ i') :
    NamedBefore s i' z :=
  h.imp_right fun ⟨x, n, hz, rw, j, k, hrw, hj, hn⟩ => ⟨x, n, hz, rw, j, k, hrw, by omega, hn⟩

/-- What the loop knows of an entry and its truncated expression: putting back the lifted
entries restores the entry, and an entry without a UDF is kept as it is. -/
def EntryRestored (newChildren : List Expr) (e t : Expr) : Prop :=
  Restores newChildren e t ∧ (e.exists isUdf = true ∨ t = e)

namespace SplitState

theorem subset_merge (st : SplitState) (cs : List Expr) : st.newChildren ⊆ (st.merge cs).newChildren := by
  induction cs generalizing st with
  | nil => exact List.Subset.refl _
  | cons c cs ih =>
    refine List.Subset.trans ?_ (ih _)
    split
    · exact List.Subset.refl _
    · exact List.subset_append_left _ _

theorem mem_merge {st : SplitState} (hst : st.NamesDistinct) :
    ∀ {cs : List Expr} {z : Expr}, z ∈ cs → z.name ∉ st.newChildren.map Expr.name →
      (∀ z' ∈ cs, z'.name = z.name → z' = z) → z ∈ (st.merge cs).newChildren
  | c :: cs, z, hz, hn, hu => by
    show z ∈ ((st.merge [c]).merge cs).newChildren
    by_cases hcz : c = z
    · subst hcz
      refine subset_merge _ cs ?_
      simp only [merge, hst.1, hn, List.elem_eq_mem, decide_False, Bool.false_eq_true, ite_false]
      exact List.mem_append_right _ (List.mem_singleton_self _)
    · have hcn : c.name ≠ z.name := fun h => hcz (hu c (List.mem_cons_self _ _) h)
      refine mem_merge (hst.merge [c]) ((List.mem_cons.mp hz).resolve_left (Ne.symm hcz)) ?_
        fun z' hz' => hu z' (List.mem_cons_of_mem _ hz')
      simp only [merge]
      split
      · exact hn
      · simpa [Ne.symm hcn] using hn

theorem lifted_fresh {st : SplitState} {s i : Nat} {cs : List Expr} {rw : String} {m : Nat}
    (hbefore : ∀ z ∈ st.newChildren, NamedBefore s i z) (hrw : '_' ∉ rw.data)
    (hcs : ∀ z ∈ cs, (∃ c, z = column c ∧ ∀ s', ¬ IsIntermediate s' c) ∨ ∃ (x : Expr) (n : String), z = x.alias n)
    (hnames : liftedNames cs = (List.range m).map (intermediateName rw s i)) {x : Expr} {n : String}
    (hx : x.alias n ∈ cs) : n ∉ st.newChildren.map Expr.name ∧ ∀ z' ∈ cs, z'.name = n → z' = x.alias n := by
  obtain ⟨k, -, rfl⟩ := List.mem_map.mp (hnames ▸ mem_liftedNames hx)
  refine ⟨fun hn => ?_, fun z' hz' hn => ?_⟩
  · obtain ⟨z, hz, hzn⟩ := List.mem_map.mp hn
    rcases hbefore z hz with ⟨c, rfl, hc⟩ | ⟨y, n', rfl, rw', j, k', hrw', hj, rfl⟩
    · exact hc s ⟨rw, i, k, hrw, hzn⟩
    · have := (intermediateName_inj hrw' hrw hzn).2.2.1
      omega
  · rcases hcs z' hz' with ⟨c, rfl, hc⟩ | ⟨y, n', rfl⟩
    · exact absurd ⟨rw, i, k, hrw, hn⟩ (hc s)
    · simp only [name_alias] at hn
      subst hn
      rw [eq_of_alias_mem_of_nodup (hnames ▸ map_intermediateName_nodup hrw s i m) hz' hx]

theorem merge_restores {st : SplitState} {s i : Nat} {e t : Expr} {cs : List Expr} {rw : String}
    {m : Nat} (hst : st.NamesDistinct) (hbefore : ∀ z ∈ st.newChildren, NamedBefore s i z)
    (hrw : '_' ∉ rw.data)
    (hcs : ∀ z ∈ cs, (∃ c, z = column c ∧ ∀ s', ¬ IsIntermediate s' c) ∨ ∃ (x : Expr) (n : String), z = x.alias n)
    (hnames : liftedNames cs = (List.range m).map (intermediateName rw s i))
    (hres : Restores cs e t) :
    (∀ z ∈ ((st.pushTruncated t).merge cs).newChildren, NamedBefore s (i + 1) z) ∧
      Restores ((st.pushTruncated t).merge cs).newChildren e t ∧
      st.newChildren ⊆ ((st.pushTruncated t).merge cs).newChildren := by
  have hkept : ∀ (x : Expr) n, x.alias n ∈ cs →
      x.alias n ∈ ((st.pushTruncated t).merge cs).newChildren := fun x n hx =>
    let ⟨h1, h2⟩ := lifted_fresh hbefore hrw hcs hnames hx
    mem_merge (show (st.pushTruncated t).NamesDistinct from hst) hx h1 h2
  refine ⟨fun z hz => ?_, hres.mono_aliases hkept, subset_merge (st.pushTruncated t) cs⟩
  rcases mem_merge_newChildren hz with hz | hz
  · exact (hbefore z hz).mono (Nat.le_succ i)
  · rcases hcs z hz with hc | ⟨x, n, rfl⟩
    · exact .inl hc
    · obtain ⟨k, -, rfl⟩ := List.mem_map.mp (hnames ▸ mem_liftedNames hz)
      exact .inr ⟨x, _, rfl, rw, i, k, hrw, Nat.lt_succ_self i, rfl⟩

end SplitState

theorem not_isIntermediate_of_subEntry {e z : Expr} (hz : SubEntry e z)
    (hcols : ∀ c ∈ e.getRequiredColumns, ∀ s, ¬ IsIntermediate s c) :
    (∃ c, z = column c ∧ ∀ s', ¬ IsIntermediate s' c) ∨ ∃ (x : Expr) (n : String), z = x.alias n := by
  rcases hz with ⟨c, rfl, hc⟩ | ⟨x, -, n, rfl⟩
  · exact .inl ⟨c, rfl, hcols c (mem_getRequiredColumns.mpr hc)⟩
  · exact .inr ⟨x, n, rfl⟩

namespace SplitStepArm
variable {s i : Nat} {e t : Expr} {added : List Expr}

theorem lifted (harm : SplitStepArm s i e t added) (hl : ListMapFree e)
    (hcols : ∀ c ∈ e.getRequiredColumns, ∀ s, ¬ IsIntermediate s c)
    (hsites : ∀ x ∈ e.preorder, liftSites x ≤ 1) :
    (∀ z ∈ added, (∃ c, z = column c ∧ ∀ s', ¬ IsIntermediate s' c) ∨ ∃ (x : Expr) (n : String), z = x.alias n) ∧
      ∃ rw m, '_' ∉ rw.data ∧ liftedNames added = (List.range m).map (intermediateName rw s i) := by
  cases harm with
  | rootUdf hroot =>
    obtain ⟨⟨m, hm⟩, -⟩ := TruncateRootUdf.rewrite_lifts (.new s i) hroot
    obtain ⟨h1, -⟩ := TruncateRootUdf.rewrite_covers (.new s i) e
    exact ⟨fun z hz => not_isIntermediate_of_subEntry (mem_of_appended_nil h1 z hz) hcols, _, m, by decide, hm⟩
  | anyUdfChildren _ _ h1 =>
    obtain ⟨-, -, ho, -⟩ := TruncateAnyUdfChildren.rewrite_lifts h1 rfl hl
    obtain ⟨m, hm⟩ := ho.2 (hsites e (mem_preorder_self e))
    obtain ⟨h2, -⟩ := TruncateAnyUdfChildren.rewrite_covers h1
    exact ⟨fun z hz => not_isIntermediate_of_subEntry (mem_of_appended_nil h2 z hz) hcols, _, m, by decide, hm⟩
  | noUdf =>
    refine ⟨fun z hz => ?_, "TruncateRootUDF", 0, by decide, by simp⟩
    obtain ⟨c, hc, rfl⟩ := List.mem_map.mp hz
    exact .inl ⟨c, rfl, hcols c hc⟩

theorem restores (harm : SplitStepArm s i e t added) (hl : ListMapFree e) :
    Restores added e t ∧ (e.exists isUdf = true ∨ t = e) := by
  cases harm with
  | rootUdf hroot =>
    exact ⟨(TruncateRootUdf.rewrite_lifts _ hroot).2, .inl (exists_isUdf_of_isUdfAndShouldTruncateChildren hroot)⟩
  | anyUdfChildren _ hex h1 => exact ⟨(TruncateAnyUdfChildren.rewrite_lifts h1 rfl hl).2.2.2, .inl hex⟩
  | noUdf => exact ⟨restores_self _ e, .inr rfl⟩

end SplitStepArm

theorem splitStep_restores {s i : Nat} {st st' : SplitState} {e : Expr} (hst : st.NamesDistinct)
    (hbefore : ∀ z ∈ st.newChildren, NamedBefore s i z) (hl : ListMapFree e)
    (hcols : ∀ c ∈ e.getRequiredColumns, ∀ s, ¬ IsIntermediate s c)
    (hsites : ∀ x ∈ e.preorder, liftSites x ≤ 1) (h : splitStep s st i e = .ok st') :
    ∃ t, st'.truncatedExprs = st.truncatedExprs ++ [t] ∧
      (∀ z ∈ st'.newChildren, NamedBefore s (i + 1) z) ∧ EntryRestored st'.newChildren e t ∧
      st.newChildren ⊆ st'.newChildren := by
  obtain ⟨t, added, harm, rfl⟩ := splitStep_eq_ok h
  obtain ⟨hcs, rw, m, hrw, hm⟩ := harm.lifted hl hcols hsites
  obtain ⟨hres, hex⟩ := harm.restores hl
  obtain ⟨h2, h3, h4⟩ := SplitState.merge_restores hst hbefore hrw hcs hm hres
  exact ⟨t, by simp, h2, ⟨h3, hex⟩, h4⟩

theorem splitLoop_restores {s : Nat} :
    ∀ {st st' : SplitState} {i : Nat} {exprs done : List Expr}, st.NamesDistinct →
      (∀ z ∈ st.newChildren, NamedBefore s i z) →
      (∀ e ∈ exprs, ListMapFree e ∧ (∀ c ∈ e.getRequiredColumns, ∀ s, ¬ IsIntermediate s c) ∧
        ∀ x ∈ e.preorder, liftSites x ≤ 1) →
      List.Forall₂ (EntryRestored st.newChildren) done st.truncatedExprs →
      splitLoop s st i exprs = .ok st' →
      (∀ z ∈ st'.newChildren, NamedBefore s (i + exprs.length) z) ∧
        List.Forall₂ (EntryRestored st'.newChildren) (done ++ exprs) st'.truncatedExprs
  | _, _, _, [], _, _, hbefore, _, hdone, h => by cases h; simpa using ⟨hbefore, hdone⟩
  | st, _, i, e :: exprs, done, hst, hbefore, he, hdone, h => by
    obtain ⟨st1, h1, h2⟩ := except_bind_eq_ok.mp h
    obtain ⟨hl, hcols, hsites⟩ := he e (List.mem_cons_self _ _)
    obtain ⟨t, ht, hb1, hr1, hsub⟩ := splitStep_restores hst hbefore hl hcols hsites h1
    have hdone1 : List.Forall₂ (EntryRestored st1.newChildren) (done ++ [e]) st1.truncatedExprs := by
      rw [ht]
      exact List.rel_append (hdone.imp fun _ _ h => ⟨h.1.mono hsub, h.2⟩) (.cons hr1 .nil)
    obtain ⟨h3, h4⟩ := splitLoop_restores (splitStep_namesDistinct hst h1) hb1
      (fun x hx => he x (List.mem_cons_of_mem _ hx)) hdone1 h2
    simp only [List.append_assoc, List.singleton_append, List.length_cons] at h4
    exact ⟨by simpa [Nat.add_assoc, Nat.add_comm 1] using h3, h4⟩

/-- Without `list_map`, with no column named like an intermediate and each sub-expression
lifting at one node at most, `remaining` puts every truncated expression back together, and
holds columns and aliases under this stage's intermediate names. -/
theorem splitProjection_restores {projection truncated remaining : List Expr} {s : Nat}
    (he : ∀ e ∈ projection, ListMapFree e ∧ (∀ c ∈ e.getRequiredColumns, ∀ s, ¬ IsIntermediate s c) ∧
      ∀ x ∈ e.preorder, liftSites x ≤ 1)
    (h : splitProjection projection s = .ok (truncated, remaining)) :
    (∀ z ∈ remaining, NamedBefore s projection.length z) ∧
      List.Forall₂ (EntryRestored remaining) projection truncated := by
  obtain ⟨st, h1, h2⟩ := except_map_eq_ok.mp h
  simp only [Prod.mk.injEq] at h2
  obtain ⟨rfl, rfl⟩ := h2
  simpa using @splitLoop_restores s ⟨[], [], []⟩ st 0 projection []
    ⟨rfl, List.nodup_nil⟩ (by simp) he .nil h1

theorem substitute_liftedBindings {remaining : List Expr} {s n : Nat} {e t : Expr}
    (hnd : (remaining.map Expr.name).Nodup) (hrem : ∀ z ∈ remaining, NamedBefore s n z)
    (hcols : ∀ c ∈ e.getRequiredColumns, ∀ s, ¬ IsIntermediate s c) (h : Restores remaining e t) :
    substitute (liftedBindings remaining) t = e := by
  refine h _ (fun x n hx => lookup_liftedBindings_of_mem hnd hx) fun c hc => ?_
  refine lookup_liftedBindings_eq_none fun x hx => ?_
  rcases hrem _ hx with ⟨c', hz, -⟩ | ⟨y, n', hz, rw, i, k, hrw, -, hn⟩
  · cases hz
  · cases hz
    exact hcols c (mem_getRequiredColumns.mpr hc) s ⟨rw, i, k, hrw, hn⟩

end Daft.SplitUdfs
