import BoundSql.Proofs.Filter.Enforcement
import BoundSql.Proofs.Number.Whole
import BoundSql.Proofs.Outcomes

/-!
# Merging trusted filters with a user's

A list of user filters is checked one by one, each with a count of nodes of its
own, so the limit holds for each filter and not for the list. Where the same
filters come as one conjunction they are checked at once: there they share one
count with the node of the conjunction, and each lies one level deeper.
-/
namespace BoundSql

/-- A node one level deeper. -/
def PolicyNode.deeper (n : PolicyNode) : PolicyNode := { n with depth := n.depth + 1 }

namespace Value

theorem nodes_succ (depth : ℕ) (v : Value) :
    v.nodes (depth + 1) = (v.nodes depth).map PolicyNode.deeper := by
  induction v using Value.induct generalizing depth with
  | scalar v hv =>
    rw [nodes_scalar _ hv, nodes_scalar _ hv]
    rfl
  | array items ih =>
    rw [nodes_array, nodes_array, nodesAll_eq_flatMap, nodesAll_eq_flatMap, List.map_cons,
      List.map_flatMap]
    congr 1
    exact List.flatMap_congr fun v hv => ih v hv (depth + 1)

theorem elements_succ (depth : ℕ) (v : Value) :
    v.elements (depth + 1) = (v.elements depth).map PolicyNode.deeper := by
  cases v with
  | array items =>
    rw [elements, elements, nodesAll_eq_flatMap, nodesAll_eq_flatMap, List.map_flatMap]
    exact List.flatMap_congr fun v _ => nodes_succ depth v
  | _ => rfl

/-- Each element of a list of scalars is one node. -/
lemma elements_of_scalars (depth : ℕ) {items : List Value} (h : ∀ v ∈ items, v.isScalar = true) :
    (Value.array items).elements depth = List.replicate items.length ⟨depth, none⟩ := by
  rw [elements]
  induction items with
  | nil => rfl
  | cons v items ih =>
    obtain ⟨hv, hitems⟩ := List.forall_mem_cons.mp h
    rw [nodesAll, nodes_scalar depth hv, ih hitems]
    rfl

end Value

/-- The nodes of a filter by itself: the filter and the elements of its array at any nesting. -/
def Filter.nodes (f : Filter) : List PolicyNode := (FilterTree.leaf f).nodes 0

namespace FilterTree

theorem nodes_leaf_one (f : Filter) :
    (FilterTree.leaf f).nodes 1 = f.nodes.map PolicyNode.deeper := by
  rw [nodes_leaf, Filter.nodes, nodes_leaf, Value.elements_succ]
  rfl

/-- A conjunction of filters is a node with the nodes of the filters below it. -/
theorem nodes_conjunction (fs : List Filter) : (conjunction (fs.map .leaf)).nodes 0 =
    ⟨0, none⟩ :: fs.flatMap fun f => f.nodes.map PolicyNode.deeper := by
  rw [conjunction, nodes_group, nodesAll_eq_flatMap, List.flatMap_map]
  simp only [Nat.zero_add, nodes_leaf_one]

end FilterTree

namespace FilterPolicy

variable {p : FilterPolicy} {user : List Filter}

/-- A filter by itself is a tree of one leaf. -/
lemma check_eq (f : Filter) : p.check f = p.checkTree (.leaf f) := by
  rw [check, checkTree, visitTree]

/-- A list is accepted if each filter is by itself. -/
theorem checkAll_eq_ok_iff : p.checkAll user = .ok () ↔ ∀ f ∈ user, p.check f = .ok () := by
  induction user with
  | nil => simp [checkAll]
  | cons f rest ih =>
    rw [checkAll, bind_eq_ok_iff, List.forall_mem_cons, ih]
    constructor
    · rintro ⟨u, hf, hrest⟩
      exact ⟨hf, hrest⟩
    · rintro ⟨hf, hrest⟩
      exact ⟨(), hf, hrest⟩

/-- Otherwise it is refused for the first filter that is refused. -/
theorem checkAll_eq_error_iff {v : PolicyViolation} :
    p.checkAll user = .error v ↔ ∃ before f after, user = before ++ f :: after ∧
      (∀ g ∈ before, p.check g = .ok ()) ∧ p.check f = .error v := by
  induction user with
  | nil => simp [checkAll]
  | cons f rest ih =>
    rw [checkAll]
    cases hf : p.check f with
    | error w =>
      constructor
      · intro hv
        obtain rfl : w = v := Except.error.inj hv
        exact ⟨[], f, rest, rfl, by simp, hf⟩
      · rintro ⟨before, g, after, hsplit, hbefore, hg⟩
        cases before with
        | nil =>
          obtain ⟨rfl, rfl⟩ := List.cons.inj hsplit
          exact hf.symm.trans hg
        | cons b before =>
          obtain ⟨rfl, rfl⟩ := List.cons.inj hsplit
          exact absurd (hf.symm.trans (hbefore f List.mem_cons_self)) (by simp)
    | ok u =>
      refine ih.trans ⟨?_, ?_⟩
      · rintro ⟨before, g, after, rfl, hbefore, hg⟩
        exact ⟨f :: before, g, after, rfl, List.forall_mem_cons.mpr ⟨hf, hbefore⟩, hg⟩
      · rintro ⟨before, g, after, hsplit, hbefore, hg⟩
        cases before with
        | nil =>
          obtain ⟨rfl, rfl⟩ := List.cons.inj hsplit
          exact absurd (hf.symm.trans hg) (by simp)
        | cons b before =>
          obtain ⟨rfl, rfl⟩ := List.cons.inj hsplit
          exact ⟨before, g, after, rfl, (List.forall_mem_cons.mp hbefore).2, hg⟩

/-- The verdict on a list decides on the merged list. -/
lemma joinFilters_eq (trusted : List Filter) :
    p.joinFilters trusted user = (p.checkAll user).map fun _ => trusted ++ user := by
  rw [joinFilters]
  cases p.checkAll user <;> rfl

/-- A filter is accepted by itself for its own number of nodes and for what each of them is. -/
lemma check_eq_ok_iff {f : Filter} : p.check f = .ok () ↔ f.nodes.length ≤ maxNodes ∧
    ∀ n ∈ f.nodes, ¬p.maxDepth.IsBelow n.depth ∧ ∀ g ∈ n.filter,
      (p.allowedFields = [] ∨ g.field ∈ p.allowedFields) ∧ g.op ∉ p.deniedOperators := by
  rw [check_eq, accepts_iff, Filter.nodes]

lemma length_nodes_conjunction (fs : List Filter) :
    ((FilterTree.conjunction (fs.map .leaf)).nodes 0).length =
      1 + (fs.map fun f => f.nodes.length).sum := by
  rw [FilterTree.nodes_conjunction, List.length_cons, List.length_flatMap, Nat.add_comm]
  simp only [List.length_map]

/-- A conjunction of filters is accepted if each filter is by itself, all of them have room in one
count together with the conjunction, and none is too deep one level further down. -/
theorem accepts_conjunction_iff : p.checkTree (.conjunction (user.map .leaf)) = .ok () ↔
    (∀ f ∈ user, p.check f = .ok ()) ∧ 1 + (user.map fun f => f.nodes.length).sum ≤ maxNodes ∧
      ¬p.maxDepth.IsBelow 0 ∧ ∀ f ∈ user, ∀ n ∈ f.nodes, ¬p.maxDepth.IsBelow (n.depth + 1) := by
  have hmem : ∀ f ∈ user, ∀ n ∈ f.nodes,
      n.deeper ∈ (FilterTree.conjunction (user.map .leaf)).nodes 0 := by
    intro f hf n hn
    rw [FilterTree.nodes_conjunction]
    exact List.mem_cons_of_mem _ (List.mem_flatMap.mpr ⟨f, hf, List.mem_map_of_mem hn⟩)
  rw [accepts_iff, length_nodes_conjunction]
  constructor
  · rintro ⟨hlength, hnodes⟩
    have hdeeper : ∀ f ∈ user, ∀ n ∈ f.nodes, ¬p.maxDepth.IsBelow (n.depth + 1) :=
      fun f hf n hn => (hnodes _ (hmem f hf n hn)).1
    have htop := (hnodes ⟨0, none⟩ (by simp [FilterTree.nodes_conjunction])).1
    refine ⟨fun f hf => check_eq_ok_iff.mpr ⟨?_, fun n hn => ⟨?_, ?_⟩⟩, hlength, htop, hdeeper⟩
    · have hpart := List.single_le_sum (fun _ _ => Nat.zero_le _) _
        (List.mem_map_of_mem (f := fun f : Filter => f.nodes.length) hf)
      omega
    · exact fun hbelow => hdeeper f hf n hn (hbelow.mono (Nat.le_succ _))
    · exact (hnodes _ (hmem f hf n hn)).2
  · rintro ⟨hchecked, hlength, htop, hdeeper⟩
    refine ⟨hlength, fun n hn => ?_⟩
    rw [FilterTree.nodes_conjunction] at hn
    rcases List.mem_cons.mp hn with rfl | hn
    · exact ⟨htop, by simp⟩
    · obtain ⟨f, hf, hn⟩ := List.mem_flatMap.mp hn
      obtain ⟨m, hm, rfl⟩ := List.mem_map.mp hn
      exact ⟨hdeeper f hf m hm, ((check_eq_ok_iff.mp (hchecked f hf)).2 m hm).2⟩

/-- Trees are merged when the user's is accepted. -/
lemma exists_joinTrees_iff {trees : List FilterTree} {e : FilterTree} :
    (∃ tree, p.joinTrees trees (some e) = .ok tree) ↔ p.checkTree e = .ok () := by
  rw [joinTrees, FilterTree.joinChecked]
  cases p.checkTree e with
  | error v => simp [bind, Except.bind]
  | ok u =>
    refine iff_of_true ?_ rfl
    simp only [bind, Except.bind]
    split <;> exact ⟨_, rfl⟩

/-- A merged list is the trusted filters and then the user's, each of which the policy accepts by
itself; so each has at most 10000 nodes. It fails with the violation of the first user filter that
is refused. The conjunction of the same filters is accepted where the list is, if all of them
together have room in one count with the node of the conjunction and none is too deep one level
further down. -/
theorem joinFilters_spec (p : FilterPolicy) (trusted user : List Filter) :
    (∀ merged, p.joinFilters trusted user = .ok merged ↔
      merged = trusted ++ user ∧ ∀ f ∈ user, p.check f = .ok ()) ∧
    (∀ merged, p.joinFilters trusted user = .ok merged →
      ∀ f ∈ user, f.nodes.length ≤ maxNodes) ∧
    (∀ v, p.joinFilters trusted user = .error v ↔ ∃ before f after,
      user = before ++ f :: after ∧ (∀ g ∈ before, p.check g = .ok ()) ∧ p.check f = .error v) ∧
    ∀ trees, (∃ tree, p.joinTrees trees (some (.conjunction (user.map .leaf))) = .ok tree) ↔
      (∃ merged, p.joinFilters trusted user = .ok merged) ∧
      1 + (user.map fun f => f.nodes.length).sum ≤ maxNodes ∧
      ¬p.maxDepth.IsBelow 0 ∧ ∀ f ∈ user, ∀ n ∈ f.nodes, ¬p.maxDepth.IsBelow (n.depth + 1) := by
  have hok : ∀ merged, p.joinFilters trusted user = .ok merged ↔
      merged = trusted ++ user ∧ ∀ f ∈ user, p.check f = .ok () := by
    intro merged
    rw [joinFilters_eq, map_eq_ok_iff, ← checkAll_eq_ok_iff]
    constructor
    · rintro ⟨u, hall, rfl⟩
      exact ⟨rfl, hall⟩
    · rintro ⟨rfl, hall⟩
      exact ⟨(), hall, rfl⟩
  refine ⟨hok, fun merged h f hf => ?_, fun v => ?_, fun trees => ?_⟩
  · exact (check_eq_ok_iff.mp (((hok merged).mp h).2 f hf)).1
  · rw [joinFilters_eq, ← checkAll_eq_error_iff]
    cases p.checkAll user <;> simp [Except.map]
  · have hlist : (∃ merged, p.joinFilters trusted user = .ok merged) ↔
        ∀ f ∈ user, p.check f = .ok () := by
      simp only [hok, exists_eq_left]
    rw [hlist, ← accepts_conjunction_iff]
    exact exists_joinTrees_iff

/-- Two numbers in a list and a text, by the standard policy. -/
theorem joinFilters_spec_of_two :
    let user : List Filter := [⟨"id", .isIn, .array [.int 1, .int 2]⟩, ⟨"a", .eq, .string "x"⟩]
    let trusted : List Filter := [⟨"tenant", .eq, .int 7⟩]
    standard.joinFilters trusted user = .ok (trusted ++ user) ∧
      (∀ f ∈ user, f.nodes.length ≤ maxNodes) ∧
      ∃ tree, standard.joinTrees [] (some (.conjunction (user.map .leaf))) = .ok tree := by
  intro user trusted
  obtain ⟨hok, hsize, -, -⟩ := joinFilters_spec standard trusted user
  have hchecked : ∀ f ∈ user, standard.check f = .ok () :=
    List.forall_mem_cons.mpr ⟨by decide +kernel, List.forall_mem_singleton.mpr (by decide +kernel)⟩
  have hmerged := (hok _).mpr ⟨rfl, hchecked⟩
  have htree : standard.checkTree (.conjunction (user.map .leaf)) = .ok () := by decide +kernel
  exact ⟨hmerged, hsize _ hmerged, exists_joinTrees_iff.mpr htree⟩

lemma isBelow_standard {n : ℕ} : standard.maxDepth.IsBelow n ↔ 5 < n := by
  have hfive : (5 : Double).Whole 5 := Double.whole_ofNat (by decide)
  have hstandard : standard.maxDepth = 5 := rfl
  rw [hstandard]
  exact hfive.isBelow_iff

/-- Two lists of 6000 numbers are merged as filters, though together they have more nodes than a
filter may have, and are refused as a conjunction. -/
theorem joinFilters_exceeds :
    let ids : Filter := ⟨"id", .isIn, .array ((List.range 6000).map fun n => .int (.ofNat n))⟩
    standard.joinFilters [] [ids, ids] = .ok [ids, ids] ∧
      maxNodes < ([ids, ids].map fun f => f.nodes.length).sum ∧
      ¬∃ tree, standard.joinTrees [] (some (.conjunction [.leaf ids, .leaf ids])) = .ok tree := by
  intro ids
  have hnodes : ids.nodes = ⟨0, some ids⟩ :: List.replicate 6000 ⟨1, none⟩ := by
    have hscalar : ∀ v ∈ (List.range 6000).map fun n => Value.int (.ofNat n), v.isScalar = true :=
      List.forall_mem_map.mpr fun _ _ => rfl
    have helements : ids.value.elements 1 = List.replicate 6000 ⟨1, none⟩ := by
      rw [Value.elements_of_scalars 1 hscalar, List.length_map, List.length_range]
    rw [Filter.nodes, FilterTree.nodes_leaf, helements]
  have hlength : ids.nodes.length = 6001 := by
    rw [hnodes, List.length_cons, List.length_replicate]
  have hchecked : standard.check ids = .ok () := by
    refine check_eq_ok_iff.mpr ⟨by rw [hlength]; decide, fun n hn => ?_⟩
    rw [hnodes] at hn
    rcases List.mem_cons.mp hn with rfl | hn
    · refine ⟨by simp [isBelow_standard], fun f hf => ?_⟩
      obtain rfl := Option.some_inj.mp hf
      exact ⟨.inl rfl, by decide⟩
    · obtain rfl := List.eq_of_mem_replicate hn
      exact ⟨by simp [isBelow_standard], by simp⟩
  have hsum : maxNodes < ([ids, ids].map fun f => f.nodes.length).sum := by
    simp only [List.map_cons, List.map_nil, List.sum_cons, List.sum_nil, hlength]
    decide
  refine ⟨?_, hsum, fun htree => ?_⟩
  · rw [joinFilters_eq, checkAll_eq_ok_iff.mpr (by simpa using hchecked)]
    rfl
  · have haccepted : standard.checkTree (.conjunction ([ids, ids].map .leaf)) = .ok () :=
      exists_joinTrees_iff.mp htree
    have hroom := (accepts_conjunction_iff.mp haccepted).2.1
    omega

end FilterPolicy
end BoundSql
