import Mathlib.Data.List.Forall2
import Daft.Plan.LogicalPlan

/-! # What every `transform_down` walk guarantees

Each node of a walk's result is a rewrite of some node over walks of that node's children, so a
node property the rewrites have and same-schema children keep holds throughout the result
(`transformDown_subtrees`), and so does a relation to the input (`transformDown_rel`). A walk
fails only as the rewriter does, or by running out of fuel (`transformDown_eq_error`).
-/
namespace Daft

namespace LogicalPlan

def depth : LogicalPlan → Nat
  | source _ => 1
  | project input _ => input.depth + 1
  | udfProject input _ _ => input.depth + 1
  | unary _ _ input => input.depth + 1
  | binary _ _ left right => max left.depth right.depth + 1

def subtrees : LogicalPlan → List LogicalPlan
  | source s => [source s]
  | project input e => project input e :: input.subtrees
  | udfProject input u pass => udfProject input u pass :: input.subtrees
  | unary op s input => unary op s input :: input.subtrees
  | binary op s left right => binary op s left right :: (left.subtrees ++ right.subtrees)

theorem subtrees_eq (p : LogicalPlan) : p.subtrees = p :: p.children.flatMap subtrees := by
  cases p <;> simp [subtrees, children]

theorem depth_le_succ_iff (p : LogicalPlan) (n : Nat) :
    p.depth ≤ n + 1 ↔ ∀ c ∈ p.children, c.depth ≤ n := by
  cases p <;> simp [depth, children, Nat.max_le]

theorem one_le_depth (p : LogicalPlan) : 1 ≤ p.depth := by
  cases p <;> simp [depth]

theorem children_withNewChildren (p : LogicalPlan) {cs : List LogicalPlan}
    (h : cs.length = p.children.length) : (p.withNewChildren cs).children = cs := by
  cases p <;> rcases cs with _ | ⟨c, _ | ⟨d, _ | _⟩⟩ <;> simp_all [withNewChildren, children]

theorem mem_subtrees_self (p : LogicalPlan) : p ∈ p.subtrees := by
  rw [subtrees_eq]; exact List.mem_cons_self _ _

theorem subtrees_subset_of_mem_children {p c : LogicalPlan} (h : c ∈ p.children) :
    c.subtrees ⊆ p.subtrees := by
  rw [subtrees_eq p]
  exact fun q hq => List.mem_cons_of_mem _ (List.mem_flatMap.mpr ⟨c, h, hq⟩)

theorem induction_children {P : LogicalPlan → Prop} (h : ∀ p, (∀ c ∈ p.children, P c) → P p) :
    ∀ p, P p := by
  intro p
  induction p with
  | source => exact h _ (by simp [children])
  | project _ _ ih | udfProject _ _ _ ih | unary _ _ _ ih => exact h _ (by simpa [children] using ih)
  | binary _ _ _ _ ihl ihr => exact h _ (by simp [children, ihl, ihr])

end LogicalPlan

open LogicalPlan

/-- `P` holds of the input schema and the expressions of a `Project` node; other nodes are
unconstrained. -/
def OnProjects (P : List String → List Expr → Prop) : LogicalPlan → Prop
  | project input projection => P input.schema projection
  | _ => True

instance {P : List String → List Expr → Prop} [∀ s es, Decidable (P s es)] :
    DecidablePred (OnProjects P)
  | project input projection => inferInstanceAs (Decidable (P input.schema projection))
  | source _ | udfProject .. | unary .. | binary .. => inferInstanceAs (Decidable True)

theorem onProjects_withNewChildren {P : List String → List Expr → Prop} {q : LogicalPlan}
    {cs : List LogicalPlan} (hs : cs.map schema = q.children.map schema) (hq : OnProjects P q) :
    OnProjects P (q.withNewChildren cs) := by
  cases q <;> rcases cs with _ | ⟨c, _ | ⟨d, _⟩⟩ <;> simp_all [withNewChildren, OnProjects, children]

section MapUntilStopAndCollect
variable {α : Type} {g : α → Except DaftError (Transformed α)}

theorem mapUntilStopAndCollect_forall₂ :
    ∀ {xs : List α} {ys : Transformed (List α)}, mapUntilStopAndCollect g xs = .ok ys →
      List.Forall₂ (fun x y => ∃ t, g x = .ok t ∧ t.data = y) xs ys.data
  | [], _, h => by cases h; exact .nil
  | x :: xs, _, h => by
    obtain ⟨t, ht, h⟩ := except_bind_eq_ok.mp h
    obtain ⟨ts, hts, h⟩ := except_bind_eq_ok.mp h
    cases h
    exact .cons ⟨t, ht, rfl⟩ (mapUntilStopAndCollect_forall₂ hts)

theorem mapUntilStopAndCollect_eq_error {e : DaftError} :
    ∀ {xs : List α}, mapUntilStopAndCollect g xs = .error e → ∃ x ∈ xs, g x = .error e
  | [], h => by cases h
  | x :: xs, h => by
    rcases except_bind_eq_error.mp h with hx | ⟨_, -, h⟩
    · exact ⟨x, List.mem_cons_self _ _, hx⟩
    rcases except_bind_eq_error.mp h with hxs | ⟨_, -, h⟩
    · obtain ⟨y, hy, hy'⟩ := mapUntilStopAndCollect_eq_error hxs
      exact ⟨y, List.mem_cons_of_mem _ hy, hy'⟩
    · cases h

theorem mapUntilStopAndCollect_ok :
    ∀ {xs : List α}, (∀ x ∈ xs, ∃ y, g x = .ok y) → ∃ ys, mapUntilStopAndCollect g xs = .ok ys
  | [], _ => ⟨_, rfl⟩
  | x :: xs, h => by
    obtain ⟨y, hy⟩ := h x (List.mem_cons_self _ _)
    obtain ⟨ys, hys⟩ := mapUntilStopAndCollect_ok fun x' hx' => h x' (List.mem_cons_of_mem _ hx')
    exact ⟨_, by rw [mapUntilStopAndCollect, hy, except_ok_bind, hys, except_ok_bind]; rfl⟩

theorem mapUntilStopAndCollect_of_no :
    ∀ {xs : List α}, (∀ x ∈ xs, g x = .ok (.no x)) → mapUntilStopAndCollect g xs = .ok (.no xs)
  | [], _ => rfl
  | x :: xs, h => by
    simp only [mapUntilStopAndCollect, h x (List.mem_cons_self _ _), except_ok_bind,
      mapUntilStopAndCollect_of_no fun y hy => h y (List.mem_cons_of_mem _ hy)]
    rfl

end MapUntilStopAndCollect

theorem Forall₂.map_eq {α β γ : Type} {R : α → β → Prop} {k : α → γ} {k' : β → γ}
    (hk : ∀ a b, R a b → k' b = k a) :
    ∀ {xs : List α} {ys : List β}, List.Forall₂ R xs ys → ys.map k' = xs.map k
  | _, _, .nil => rfl
  | _, _, .cons h hs => by simp [hk _ _ h, Forall₂.map_eq hk hs]

theorem Forall₂.exists_of_mem {α β : Type} {R : α → β → Prop} :
    ∀ {xs : List α} {ys : List β}, List.Forall₂ R xs ys → ∀ y ∈ ys, ∃ x ∈ xs, R x y
  | _, _, .nil, _, hy => by cases hy
  | _, _, .cons h hs, y, hy => by
    rcases List.mem_cons.mp hy with rfl | hy
    · exact ⟨_, List.mem_cons_self _ _, h⟩
    · obtain ⟨x, hx, hr⟩ := Forall₂.exists_of_mem hs y hy
      exact ⟨x, List.mem_cons_of_mem _ hx, hr⟩

section TransformDown
variable {f : LogicalPlan → Except DaftError (Transformed LogicalPlan)}

theorem transformDown_eq_ok {fuel : Nat} {node : LogicalPlan} {r : Transformed LogicalPlan}
    (h : transformDown f (fuel + 1) node = .ok r) :
    ∃ t cs, f node = .ok t ∧ mapUntilStopAndCollect (transformDown f fuel) t.data.children = .ok cs ∧
      r = ⟨t.data.withNewChildren cs.data, t.transformed || cs.transformed⟩ := by
  obtain ⟨t, ht, h⟩ := except_bind_eq_ok.mp h
  obtain ⟨cs, hcs, h⟩ := except_bind_eq_ok.mp h
  exact ⟨t, cs, ht, hcs, (Except.ok.inj h).symm⟩

theorem transformDown_schema (hf : ∀ node t, f node = .ok t → t.data.schema = node.schema) :
    ∀ {fuel node r}, transformDown f fuel node = .ok r → r.data.schema = node.schema
  | 0, _, _, h => by cases h
  | _ + 1, _, _, h => by
    obtain ⟨t, cs, ht, -, rfl⟩ := transformDown_eq_ok h
    rw [schema_withNewChildren, hf _ _ ht]

theorem transformDown_children_schema
    (hf : ∀ node t, f node = .ok t → t.data.schema = node.schema) {fuel : Nat}
    {xs : List LogicalPlan} {cs : Transformed (List LogicalPlan)}
    (h : mapUntilStopAndCollect (transformDown f fuel) xs = .ok cs) :
    cs.data.map schema = xs.map schema :=
  Forall₂.map_eq (fun _ _ ⟨_, ht, he⟩ => he ▸ transformDown_schema hf ht)
    (mapUntilStopAndCollect_forall₂ h)

theorem transformDown_depth :
    ∀ {fuel node r}, transformDown f fuel node = .ok r → r.data.depth ≤ fuel
  | 0, _, _, h => by cases h
  | fuel + 1, _, _, h => by
    obtain ⟨t, cs, -, hcs, rfl⟩ := transformDown_eq_ok h
    have h2 := mapUntilStopAndCollect_forall₂ hcs
    rw [depth_le_succ_iff, children_withNewChildren _ h2.length_eq.symm]
    intro c hc
    obtain ⟨x, -, t', ht', rfl⟩ := Forall₂.exists_of_mem h2 c hc
    exact transformDown_depth ht'

theorem transformDown_subtrees {P : LogicalPlan → Prop}
    (hf : ∀ node t, f node = .ok t → t.data.schema = node.schema)
    (hroot : ∀ node t, f node = .ok t → P t.data)
    (hP : ∀ q cs, cs.map schema = q.children.map schema → P q → P (q.withNewChildren cs)) :
    ∀ {fuel node r}, transformDown f fuel node = .ok r → ∀ q ∈ r.data.subtrees, P q
  | 0, _, _, h => by cases h
  | fuel + 1, _, _, h => by
    obtain ⟨t, cs, ht, hcs, rfl⟩ := transformDown_eq_ok h
    have h2 := mapUntilStopAndCollect_forall₂ hcs
    rw [subtrees_eq, children_withNewChildren _ h2.length_eq.symm]
    intro q hq
    rcases List.mem_cons.mp hq with rfl | hq
    · exact hP _ _ (transformDown_children_schema hf hcs) (hroot _ _ ht)
    · obtain ⟨c, hc, hq⟩ := List.mem_flatMap.mp hq
      obtain ⟨x, -, t', ht', rfl⟩ := Forall₂.exists_of_mem h2 c hc
      exact transformDown_subtrees hf hroot hP ht' q hq

theorem transformDown_headers {β : Type} {h : LogicalPlan → List β} {S : β → Prop}
    (hh : ∀ q cs, h (q.withNewChildren cs) = h q)
    (hnew : ∀ node t, f node = .ok t →
      ∀ x ∈ t.data.subtrees.flatMap h, x ∈ node.subtrees.flatMap h ∨ S x) :
    ∀ {fuel node r}, transformDown f fuel node = .ok r →
      ∀ x ∈ r.data.subtrees.flatMap h, x ∈ node.subtrees.flatMap h ∨ S x
  | 0, _, _, hr => by cases hr
  | fuel + 1, _, _, hr => by
    obtain ⟨t, cs, ht, hcs, rfl⟩ := transformDown_eq_ok hr
    have h2 := mapUntilStopAndCollect_forall₂ hcs
    intro x hx
    obtain ⟨q, hq, hx⟩ := List.mem_flatMap.mp hx
    rw [subtrees_eq, children_withNewChildren _ h2.length_eq.symm] at hq
    rcases List.mem_cons.mp hq with rfl | hq
    · exact hnew _ _ ht x (List.mem_flatMap.mpr ⟨t.data, mem_subtrees_self _, hh _ _ ▸ hx⟩)
    · obtain ⟨c, hc, hq⟩ := List.mem_flatMap.mp hq
      obtain ⟨y, hy, t', ht', rfl⟩ := Forall₂.exists_of_mem h2 c hc
      rcases transformDown_headers hh hnew ht' x (List.mem_flatMap.mpr ⟨q, hq, hx⟩) with hx | hx
      · obtain ⟨q', hq', hx'⟩ := List.mem_flatMap.mp hx
        exact hnew _ _ ht x (List.mem_flatMap.mpr ⟨q', subtrees_subset_of_mem_children hy hq', hx'⟩)
      · exact .inr hx

/-- A property `G` of every node that the rewriter's results keep, given it of the node
rewritten, and that replacing children by ones of the same schemas keeps, holds of every node of
the walk's result. -/
theorem transformDown_invariant {G : LogicalPlan → Prop}
    (hf : ∀ node t, f node = .ok t → t.data.schema = node.schema)
    (hG : ∀ node t, f node = .ok t → (∀ q ∈ node.subtrees, G q) → ∀ q ∈ t.data.subtrees, G q)
    (hP : ∀ q cs, cs.map schema = q.children.map schema → G q → G (q.withNewChildren cs)) :
    ∀ {fuel node r}, (∀ q ∈ node.subtrees, G q) → transformDown f fuel node = .ok r →
      ∀ q ∈ r.data.subtrees, G q
  | 0, _, _, _, h => by cases h
  | fuel + 1, node, _, hn, h => by
    obtain ⟨t, cs, ht, hcs, rfl⟩ := transformDown_eq_ok h
    have h2 := mapUntilStopAndCollect_forall₂ hcs
    have htG := hG node t ht hn
    rw [subtrees_eq, children_withNewChildren _ h2.length_eq.symm]
    intro q hq
    rcases List.mem_cons.mp hq with rfl | hq
    · exact hP _ _ (transformDown_children_schema hf hcs) (htG _ (mem_subtrees_self _))
    · obtain ⟨c, hc, hq⟩ := List.mem_flatMap.mp hq
      obtain ⟨x, hx, t', ht', rfl⟩ := Forall₂.exists_of_mem h2 c hc
      exact transformDown_invariant hf hG hP
        (fun q hq => htG q (subtrees_subset_of_mem_children hx hq)) ht' q hq

/-- A relation that replacing children by related ones keeps, and that composes, holds between a
walk's result and its input when it holds between each rewrite and the node rewritten, on nodes
satisfying a property `G` the rewriter keeps below them. -/
theorem transformDown_rel {G : LogicalPlan → Prop} {R : LogicalPlan → LogicalPlan → Prop}
    (hcongr : ∀ p {cs}, List.Forall₂ R cs p.children → R (p.withNewChildren cs) p)
    (htrans : ∀ {a b c}, R a b → R b c → R a c)
    (hf : ∀ node t, f node = .ok t → (∀ q ∈ node.subtrees, G q) → R t.data node)
    (hG : ∀ node t, f node = .ok t → (∀ q ∈ node.subtrees, G q) → ∀ q ∈ t.data.subtrees, G q) :
    ∀ {fuel node r}, (∀ q ∈ node.subtrees, G q) → transformDown f fuel node = .ok r → R r.data node
  | 0, _, _, _, h => by cases h
  | fuel + 1, node, _, hn, h => by
    obtain ⟨t, cs, ht, hcs, rfl⟩ := transformDown_eq_ok h
    have htG := hG node t ht hn
    have hch : List.Forall₂ (flip R) t.data.children cs.data :=
      ((List.forall₂_and_left _ _).mpr ⟨fun _ h => h, mapUntilStopAndCollect_forall₂ hcs⟩).imp
        fun _ _ ⟨hc, _, ht', he⟩ => he ▸ transformDown_rel hcongr htrans hf hG
          (fun q hq => htG q (subtrees_subset_of_mem_children hc hq)) ht'
    exact htrans (hcongr _ hch.flip) (hf node t ht hn)

theorem transformDown_error_of_invariant {G : LogicalPlan → Prop}
    (hok : ∀ node, G node → ∃ t, f node = .ok t)
    (hG : ∀ node t, f node = .ok t → (∀ q ∈ node.subtrees, G q) → ∀ q ∈ t.data.subtrees, G q) :
    ∀ {fuel node e}, (∀ q ∈ node.subtrees, G q) → transformDown f fuel node = .error e →
      e = .fuelExhausted
  | 0, _, _, _, h => by cases h; rfl
  | fuel + 1, node, _, hn, h => by
    obtain ⟨t, ht⟩ := hok node (hn node (mem_subtrees_self node))
    rw [transformDown, ht, except_ok_bind] at h
    rcases except_bind_eq_error.mp h with hcs | ⟨_, -, h⟩
    · obtain ⟨c, hc, hce⟩ := mapUntilStopAndCollect_eq_error hcs
      exact transformDown_error_of_invariant hok hG
        (fun q hq => hG node t ht hn q (subtrees_subset_of_mem_children hc hq)) hce
    · cases h

theorem transformDown_eq_error {P : DaftError → Prop} (hf : ∀ node e, f node = .error e → P e)
    (hfuel : P .fuelExhausted) : ∀ {fuel node e}, transformDown f fuel node = .error e → P e
  | 0, _, _, h => by cases h; exact hfuel
  | fuel + 1, node, e, h => by
    rcases except_bind_eq_error.mp h with h | ⟨_, -, h⟩
    · exact hf node e h
    rcases except_bind_eq_error.mp h with h | ⟨_, -, h⟩
    · obtain ⟨_, -, hc⟩ := mapUntilStopAndCollect_eq_error h
      exact transformDown_eq_error hf hfuel hc
    · cases h

theorem transformDown_of_no :
    ∀ {fuel node}, (∀ q ∈ node.subtrees, f q = .ok (.no q)) → node.depth ≤ fuel →
      transformDown f fuel node = .ok (.no node)
  | 0, node, _, hd => absurd hd (by have := one_le_depth node; omega)
  | fuel + 1, node, hf, hd => by
    have hc : mapUntilStopAndCollect (transformDown f fuel) node.children = .ok (.no node.children) :=
      mapUntilStopAndCollect_of_no fun c hc =>
        transformDown_of_no (fun q hq => hf q (subtrees_subset_of_mem_children hc hq))
          ((depth_le_succ_iff node fuel).mp hd c hc)
    simp only [transformDown, hf node (mem_subtrees_self node), except_ok_bind]
    dsimp only [Transformed.no]
    rw [hc]
    simp [Transformed.no]

/-- The walk finishes on `q` for every fuel from some bound on. -/
def Settles (f : LogicalPlan → Except DaftError (Transformed LogicalPlan)) (q : LogicalPlan) : Prop :=
  ∃ N, ∀ fuel, N ≤ fuel → ∃ r, transformDown f fuel q = .ok r

theorem settles_list : ∀ {cs : List LogicalPlan}, (∀ c ∈ cs, Settles f c) →
    ∃ N, ∀ fuel, N ≤ fuel → ∀ c ∈ cs, ∃ r, transformDown f fuel c = .ok r
  | [], _ => ⟨0, fun _ _ _ hc => absurd hc (List.not_mem_nil _)⟩
  | c :: cs, h => by
    obtain ⟨N, hN⟩ := h c (List.mem_cons_self _ _)
    obtain ⟨M, hM⟩ := settles_list fun c' hc' => h c' (List.mem_cons_of_mem _ hc')
    refine ⟨max N M, fun fuel hf c' hc' => ?_⟩
    rcases List.mem_cons.mp hc' with rfl | hc'
    · exact hN fuel (by omega)
    · exact hM fuel (by omega) c' hc'

theorem Settles.of_ok {q : LogicalPlan} {t : Transformed LogicalPlan} (hq : f q = .ok t)
    (hc : ∀ c ∈ t.data.children, Settles f c) : Settles f q := by
  obtain ⟨N, hN⟩ := settles_list hc
  refine ⟨N + 1, fun fuel hf => ?_⟩
  obtain ⟨fuel, rfl⟩ : ∃ k, fuel = k + 1 := ⟨fuel - 1, by omega⟩
  obtain ⟨cs, hcs⟩ := mapUntilStopAndCollect_ok fun c hc' => hN fuel (by omega) c hc'
  exact ⟨_, by rw [transformDown, hq, except_ok_bind, hcs, except_ok_bind]; rfl⟩

end TransformDown

end Daft
