import BoundSql.Client.FilterPolicy
import BoundSql.Proofs.Filter.Trees
import BoundSql.Proofs.Number.Order

/-!
# What a policy accepts

A filter is a list of nodes in the order of its text: groups, conditions and the
elements of arrays, each one deeper than what holds it. A policy is a demand on
every node and on their number; a filter that is refused is refused for the
first node that fails, and there for the first demand in a fixed order. The
walks over trees and values with their common count are one pass over this list.
-/
namespace BoundSql

/-- A node of a filter: how deep it lies, and its filter if it is a condition. -/
structure PolicyNode where
  depth : ℕ
  filter : Option Filter

namespace Value

mutual

/-- An element of an array and all that it holds. -/
def nodes (depth : ℕ) : Value → List PolicyNode
  | .array items => ⟨depth, none⟩ :: nodesAll (depth + 1) items
  | _ => [⟨depth, none⟩]

def nodesAll (depth : ℕ) : List Value → List PolicyNode
  | [] => []
  | v :: rest => v.nodes depth ++ nodesAll depth rest

end

/-- The elements of a value that is itself no node. -/
def elements (depth : ℕ) : Value → List PolicyNode
  | .array items => nodesAll depth items
  | _ => []

theorem nodes_scalar (depth : ℕ) {v : Value} (h : v.isScalar = true) :
    v.nodes depth = [⟨depth, none⟩] := by
  cases v with
  | array items => exact absurd h Bool.false_ne_true
  | _ => rfl

theorem nodes_array (depth : ℕ) (items : List Value) :
    (Value.array items).nodes depth = ⟨depth, none⟩ :: nodesAll (depth + 1) items := rfl

end Value

namespace FilterTree

mutual

/-- The nodes of a tree in the order of its text. -/
def nodes (depth : ℕ) : FilterTree → List PolicyNode
  | .leaf f => ⟨depth, some f⟩ :: f.value.elements (depth + 1)
  | .group _ children => ⟨depth, none⟩ :: nodesAll (depth + 1) children

def nodesAll (depth : ℕ) : List FilterTree → List PolicyNode
  | [] => []
  | e :: rest => e.nodes depth ++ nodesAll depth rest

end

theorem nodes_leaf (depth : ℕ) (f : Filter) :
    (FilterTree.leaf f).nodes depth = ⟨depth, some f⟩ :: f.value.elements (depth + 1) := rfl

theorem nodes_group (depth : ℕ) (op : Connective) (es : List FilterTree) :
    (FilterTree.group op es).nodes depth = ⟨depth, none⟩ :: nodesAll (depth + 1) es := rfl

end FilterTree

/-- No node lies deeper than its place in the list allows: each level takes a node. -/
def Stepwise (depth : ℕ) (ns : List PolicyNode) : Prop :=
  ∀ i n, ns[i]? = some n → n.depth ≤ depth + i

namespace Stepwise

theorem nil (depth : ℕ) : Stepwise depth [] := by simp [Stepwise]

theorem cons {depth : ℕ} {ns : List PolicyNode} (h : Stepwise (depth + 1) ns)
    (f : Option Filter) : Stepwise depth (⟨depth, f⟩ :: ns) := by
  intro i n hn
  cases i with
  | zero =>
    obtain rfl : ⟨depth, f⟩ = n := by simpa using hn
    exact Nat.le_add_right _ _
  | succ i =>
    have := h i n (by simpa using hn)
    omega

theorem append {depth : ℕ} {ms ns : List PolicyNode} (hm : Stepwise depth ms)
    (hn : Stepwise depth ns) : Stepwise depth (ms ++ ns) := by
  intro i n h
  by_cases hi : i < ms.length
  · rw [List.getElem?_append_left hi] at h
    exact hm i n h
  · rw [List.getElem?_append_right (by omega)] at h
    have := hn _ n h
    omega

theorem value (depth : ℕ) (v : Value) : Stepwise depth (v.nodes depth) := by
  induction v using Value.induct generalizing depth with
  | scalar v hv =>
    rw [Value.nodes_scalar depth hv]
    exact (nil _).cons none
  | array items ih =>
    rw [Value.nodes_array]
    refine cons ?_ none
    induction items with
    | nil => exact nil _
    | cons v items ih' =>
      exact (ih v (by simp) _).append (ih' fun w hw => ih w (List.mem_cons_of_mem v hw))

theorem elements (depth : ℕ) (v : Value) : Stepwise depth (v.elements depth) := by
  cases v with
  | array items =>
    rw [Value.elements]
    induction items with
    | nil => exact nil _
    | cons v items ih => exact (value depth v).append ih
  | _ => exact nil _

theorem tree (depth : ℕ) (e : FilterTree) : Stepwise depth (e.nodes depth) := by
  induction e generalizing depth with
  | leaf f => exact (elements (depth + 1) f.value).cons (some f)
  | group op es ih =>
    rw [FilterTree.nodes_group]
    refine cons ?_ none
    induction es with
    | nil => exact nil _
    | cons e es ih' =>
      exact (ih e (by simp) _).append (ih' fun g hg => ih g (List.mem_cons_of_mem e hg))

end Stepwise

namespace FilterPolicy

/-- The demands of a policy on a node: how many may come before it, how deep it may lie, and
what a condition may compare. -/
structure Allows (p : FilterPolicy) (place : ℕ) (n : PolicyNode) : Prop where
  count : place < maxNodes
  depth : ¬p.maxDepth.IsBelow n.depth
  field : ∀ f ∈ n.filter, p.allowedFields = [] ∨ f.field ∈ p.allowedFields
  operator : ∀ f ∈ n.filter, f.op ∉ p.deniedOperators

/-- The violation at a node that fails: the demands are held against it in this order. -/
inductive Breaks (p : FilterPolicy) (place : ℕ) (n : PolicyNode) : PolicyViolation → Prop
  | count (h : maxNodes ≤ place) : Breaks p place n (.tooManyNodes maxNodes)
  | depth (hcount : place < maxNodes) (h : p.maxDepth.IsBelow n.depth) :
    Breaks p place n (.tooDeep p.maxDepth n.depth)
  | field {f : Filter} (hcount : place < maxNodes) (hdepth : ¬p.maxDepth.IsBelow n.depth)
    (hf : n.filter = some f) (hlist : p.allowedFields ≠ []) (h : f.field ∉ p.allowedFields) :
    Breaks p place n (.fieldNotAllowed f.field p.allowedFields)
  | operator {f : Filter} (hcount : place < maxNodes) (hdepth : ¬p.maxDepth.IsBelow n.depth)
    (hf : n.filter = some f) (hfield : p.allowedFields = [] ∨ f.field ∈ p.allowedFields)
    (h : f.op ∈ p.deniedOperators) : Breaks p place n (.operatorDenied f.op f.field)

/-- The checks of one node; answers the number of nodes so far. -/
def visitNode (p : FilterPolicy) (count : ℕ) (n : PolicyNode) : Except PolicyViolation ℕ := do
  let count ← p.enter n.depth count
  match n.filter with
  | none => .ok count
  | some f =>
    if !p.allowsField f.field then .error (.fieldNotAllowed f.field p.allowedFields)
    else if p.deniedOperators.contains f.op then .error (.operatorDenied f.op f.field)
    else .ok count

/-- One pass over a list of nodes. -/
def visitNodes (p : FilterPolicy) (count : ℕ) (ns : List PolicyNode) :
    Except PolicyViolation ℕ := ns.foldlM p.visitNode count

variable {p : FilterPolicy}

theorem visitNodes_cons (count : ℕ) (n : PolicyNode) (ns : List PolicyNode) :
    p.visitNodes count (n :: ns) = (p.visitNode count n).bind fun c => p.visitNodes c ns := rfl

theorem visitNodes_append (count : ℕ) (ms ns : List PolicyNode) :
    p.visitNodes count (ms ++ ns) =
      (p.visitNodes count ms).bind fun c => p.visitNodes c ns := List.foldlM_append

theorem visitNode_plain (count depth : ℕ) :
    p.visitNode count ⟨depth, none⟩ = p.enter depth count := by
  rw [visitNode]
  cases p.enter depth count <;> rfl

lemma visitValues_of_forall {items : List Value} {depth : ℕ}
    (h : ∀ v ∈ items, ∀ count, p.visitValue depth v count = p.visitNodes count (v.nodes depth))
    (count : ℕ) :
    p.visitValues depth items count = p.visitNodes count (Value.nodesAll depth items) := by
  induction items generalizing count with
  | nil => rfl
  | cons v items ih =>
    rw [visitValues, Value.nodesAll, visitNodes_append, h v (by simp)]
    exact bind_congr fun c => ih (fun w hw => h w (List.mem_cons_of_mem v hw)) c

/-- The walk over an array element is one pass over its nodes. -/
theorem visitValue_eq (depth : ℕ) (v : Value) (count : ℕ) :
    p.visitValue depth v count = p.visitNodes count (v.nodes depth) := by
  induction v using Value.induct generalizing depth count with
  | scalar v hv =>
    have hvisit : p.visitValue depth v count = p.enter depth count := by
      cases v with
      | array items => exact absurd hv Bool.false_ne_true
      | _ => rw [visitValue]; simp
    rw [hvisit, Value.nodes_scalar depth hv, visitNodes_cons, visitNode_plain]
    cases p.enter depth count <;> rfl
  | array items ih =>
    rw [visitValue, Value.nodes_array, visitNodes_cons, visitNode_plain]
    exact bind_congr fun c => visitValues_of_forall (fun v hv => ih v hv (depth + 1)) c

theorem visitOperand_eq (depth : ℕ) (v : Value) (count : ℕ) :
    p.visitOperand depth v count = p.visitNodes count (v.elements depth) := by
  cases v with
  | array items => exact visitValues_of_forall (fun v _ => visitValue_eq depth v) count
  | _ => rfl

theorem visitFilter_eq (depth : ℕ) (f : Filter) (count : ℕ) :
    p.visitFilter depth f count = p.visitNodes count ((FilterTree.leaf f).nodes depth) := by
  rw [FilterTree.nodes_leaf, visitNodes_cons, visitFilter, visitNode]
  cases p.enter depth count with
  | error v => rfl
  | ok c =>
    simp only [bind, Except.bind]
    split_ifs
    · rfl
    · rfl
    · exact visitOperand_eq (depth + 1) f.value c

/-- The walk over a tree is one pass over its nodes. -/
theorem visitTree_eq (depth : ℕ) (e : FilterTree) (count : ℕ) :
    p.visitTree depth e count = p.visitNodes count (e.nodes depth) := by
  induction e generalizing depth count with
  | leaf f =>
    rw [visitTree]
    exact visitFilter_eq depth f count
  | group op es ih =>
    rw [visitTree, FilterTree.nodes_group, visitNodes_cons, visitNode_plain]
    refine bind_congr fun c => ?_
    induction es generalizing c with
    | nil => rfl
    | cons e es ih' =>
      rw [visitTrees, FilterTree.nodesAll, visitNodes_append, ih e (by simp)]
      exact bind_congr fun c' => ih' (fun g hg => ih g (List.mem_cons_of_mem e hg)) c'

lemma enter_eq_ok_iff {depth count c : ℕ} (h : count < maxNodes → depth ≤ Double.safeBound) :
    p.enter depth count = .ok c ↔
      count < maxNodes ∧ ¬p.maxDepth.IsBelow depth ∧ c = count + 1 := by
  rw [enter]
  split_ifs with hcount hdepth
  · simp only [false_iff]
    omega
  · have hbelow := (Double.lt_ofNat_iff (h (by omega))).mp hdepth
    simp [hbelow]
  · have hbelow := (Double.lt_ofNat_iff (h (by omega))).not.mp hdepth
    have hlt : count < maxNodes := by omega
    simp [hbelow, hlt, eq_comm]

lemma enter_eq_error_iff {depth count : ℕ} {v : PolicyViolation}
    (h : count < maxNodes → depth ≤ Double.safeBound) :
    p.enter depth count = .error v ↔
      (maxNodes ≤ count ∧ v = .tooManyNodes maxNodes) ∨
        (count < maxNodes ∧ p.maxDepth.IsBelow depth ∧ v = .tooDeep p.maxDepth depth) := by
  rw [enter]
  split_ifs with hcount hdepth
  · have hle : maxNodes ≤ count := by omega
    simp [hle, eq_comm]
  · have hbelow := (Double.lt_ofNat_iff (h (by omega))).mp hdepth
    have hlt : count < maxNodes := by omega
    simp [hbelow, hlt, eq_comm]
  · have hbelow := (Double.lt_ofNat_iff (h (by omega))).not.mp hdepth
    have hlt : count < maxNodes := by omega
    simp [hbelow, hlt]

lemma allowsField_iff {field : Text} :
    p.allowsField field = true ↔ p.allowedFields = [] ∨ field ∈ p.allowedFields := by
  simp [allowsField]

/-- A node passes when it meets all demands, and is counted. -/
theorem visitNode_eq_ok_iff {n : PolicyNode} {count c : ℕ}
    (h : count < maxNodes → n.depth ≤ Double.safeBound) :
    p.visitNode count n = .ok c ↔ p.Allows count n ∧ c = count + 1 := by
  obtain ⟨depth, filter⟩ := n
  have henter := enter_eq_ok_iff (p := p) (c := c) h
  cases filter with
  | none =>
    rw [visitNode_plain, henter]
    constructor
    · rintro ⟨hcount, hdepth, rfl⟩
      exact ⟨⟨hcount, hdepth, by simp, by simp⟩, rfl⟩
    · rintro ⟨hallows, rfl⟩
      exact ⟨hallows.count, hallows.depth, rfl⟩
  | some f =>
    have hvisit : p.visitNode count ⟨depth, some f⟩ = .ok c ↔ p.enter depth count = .ok c ∧
        p.allowsField f.field = true ∧ f.op ∉ p.deniedOperators := by
      rw [visitNode]
      cases p.enter depth count with
      | error v => simp [bind, Except.bind]
      | ok k =>
        simp only [bind, Except.bind, Bool.not_eq_true', List.contains_iff_mem]
        split_ifs with hfield hop <;> simp_all
    rw [hvisit, henter, allowsField_iff]
    constructor
    · rintro ⟨⟨hcount, hdepth, rfl⟩, hfield, hop⟩
      exact ⟨⟨hcount, hdepth, by simpa using hfield, by simpa using hop⟩, rfl⟩
    · rintro ⟨hallows, rfl⟩
      exact ⟨⟨hallows.count, hallows.depth, rfl⟩, hallows.field f rfl, hallows.operator f rfl⟩

/-- A node that fails is refused for the first demand that it does not meet. -/
theorem visitNode_eq_error_iff {n : PolicyNode} {count : ℕ} {v : PolicyViolation}
    (h : count < maxNodes → n.depth ≤ Double.safeBound) :
    p.visitNode count n = .error v ↔ p.Breaks count n v := by
  obtain ⟨depth, filter⟩ := n
  constructor
  · intro hv
    rw [visitNode] at hv
    cases henter : p.enter depth count with
    | error w =>
      obtain rfl : w = v := by simpa [henter, bind, Except.bind] using hv
      rcases (enter_eq_error_iff h).mp henter with ⟨hcount, rfl⟩ | ⟨hcount, hdepth, rfl⟩
      · exact .count hcount
      · exact .depth hcount hdepth
    | ok c =>
      obtain ⟨hcount, hdepth, -⟩ := (enter_eq_ok_iff h).mp henter
      cases filter with
      | none => simp [henter, bind, Except.bind] at hv
      | some f =>
        simp only [henter, bind, Except.bind, Bool.not_eq_true', List.contains_iff_mem] at hv
        split_ifs at hv with hfield hop
        · have hrefused : ¬p.allowsField f.field = true := by simp [hfield]
          obtain ⟨hlist, hmem⟩ := not_or.mp (allowsField_iff.not.mp hrefused)
          obtain rfl := Except.error.inj hv
          exact .field hcount hdepth rfl hlist hmem
        · have hallowed := allowsField_iff.mp (by simpa using hfield)
          obtain rfl := Except.error.inj hv
          exact .operator hcount hdepth rfl hallowed hop
  · intro hv
    rw [visitNode]
    have hpass : count < maxNodes → ¬p.maxDepth.IsBelow depth →
        p.enter depth count = .ok (count + 1) := fun hcount hdepth =>
      (enter_eq_ok_iff h).mpr ⟨hcount, hdepth, rfl⟩
    cases hv with
    | count hcount =>
      have henter := (enter_eq_error_iff (p := p) h).mpr (.inl ⟨hcount, rfl⟩)
      rw [henter]
      rfl
    | depth hcount hdepth =>
      have henter := (enter_eq_error_iff h).mpr (.inr ⟨hcount, hdepth, rfl⟩)
      rw [henter]
      rfl
    | @field f hcount hdepth hf hlist hmem =>
      obtain rfl : filter = some f := hf
      have hfield : p.allowsField f.field = false := by
        rw [← Bool.not_eq_true, allowsField_iff]
        exact not_or.mpr ⟨hlist, hmem⟩
      simp [hpass hcount hdepth, bind, Except.bind, hfield]
    | @operator f hcount hdepth hf hallowed hop =>
      obtain rfl : filter = some f := hf
      have hfield : p.allowsField f.field = true := allowsField_iff.mpr hallowed
      simp [hpass hcount hdepth, bind, Except.bind, hfield, hop]

/-- Nodes that all pass when they are counted from a number. -/
def AllowsAll (p : FilterPolicy) (count : ℕ) (ns : List PolicyNode) : Prop :=
  ∀ i n, ns[i]? = some n → p.Allows (count + i) n

theorem allowsAll_nil (count : ℕ) : p.AllowsAll count [] := by simp [AllowsAll]

theorem allowsAll_cons {count : ℕ} {n : PolicyNode} {ns : List PolicyNode} :
    p.AllowsAll count (n :: ns) ↔ p.Allows count n ∧ p.AllowsAll (count + 1) ns := by
  have hshift : ∀ i, count + 1 + i = count + (i + 1) := fun i => by omega
  constructor
  · intro h
    refine ⟨h 0 n rfl, fun i m hm => ?_⟩
    rw [hshift]
    exact h (i + 1) m hm
  · rintro ⟨hn, hns⟩ i m hm
    cases i with
    | zero =>
      obtain rfl : n = m := by simpa using hm
      exact hn
    | succ i =>
      rw [← hshift]
      exact hns i m hm

lemma depth_le_safeBound {count : ℕ} {n : PolicyNode} {ns : List PolicyNode}
    (h : Stepwise count (n :: ns)) : count < maxNodes → n.depth ≤ Double.safeBound := by
  have hn := h 0 n rfl
  simp only [maxNodes, Double.safeBound, Double.binadeSize]
  omega

lemma stepwise_tail {count : ℕ} {n : PolicyNode} {ns : List PolicyNode}
    (h : Stepwise count (n :: ns)) : Stepwise (count + 1) ns := by
  intro i m hm
  have := h (i + 1) m hm
  omega

/-- A pass over nodes that are counted from a number counts them all if all pass. -/
theorem visitNodes_eq_ok_iff {ns : List PolicyNode} {count c : ℕ} (h : Stepwise count ns) :
    p.visitNodes count ns = .ok c ↔ p.AllowsAll count ns ∧ c = count + ns.length := by
  induction ns generalizing count with
  | nil => simp [visitNodes, pure, Except.pure, allowsAll_nil, eq_comm]
  | cons n ns ih =>
    have hdepth := depth_le_safeBound h
    have hrest := ih (stepwise_tail h)
    rw [visitNodes_cons, allowsAll_cons, List.length_cons, Nat.add_comm ns.length, ← Nat.add_assoc]
    constructor
    · intro hc
      cases hfirst : p.visitNode count n with
      | error v => simp [hfirst, Except.bind] at hc
      | ok c' =>
        obtain ⟨hallows, rfl⟩ := (visitNode_eq_ok_iff hdepth).mp hfirst
        rw [hfirst] at hc
        obtain ⟨hall, rfl⟩ := hrest.mp hc
        exact ⟨⟨hallows, hall⟩, rfl⟩
    · rintro ⟨⟨hallows, hall⟩, rfl⟩
      rw [(visitNode_eq_ok_iff hdepth).mpr ⟨hallows, rfl⟩]
      exact hrest.mpr ⟨hall, rfl⟩

/-- Otherwise it ends at the first node that fails. -/
theorem visitNodes_eq_error_iff {ns : List PolicyNode} {count : ℕ} {v : PolicyViolation}
    (h : Stepwise count ns) :
    p.visitNodes count ns = .error v ↔ ∃ before n after, ns = before ++ n :: after ∧
      p.AllowsAll count before ∧ p.Breaks (count + before.length) n v := by
  induction ns generalizing count with
  | nil => simp [visitNodes, pure, Except.pure]
  | cons n ns ih =>
    have hdepth := depth_le_safeBound h
    have hrest := ih (stepwise_tail h)
    have hshift : ∀ i, count + 1 + i = count + (i + 1) := fun i => by omega
    rw [visitNodes_cons]
    constructor
    · intro hv
      cases hfirst : p.visitNode count n with
      | error w =>
        obtain rfl : w = v := by simpa [hfirst, Except.bind] using hv
        exact ⟨[], n, ns, rfl, allowsAll_nil count, (visitNode_eq_error_iff hdepth).mp hfirst⟩
      | ok c =>
        obtain ⟨hallows, rfl⟩ := (visitNode_eq_ok_iff hdepth).mp hfirst
        rw [hfirst] at hv
        obtain ⟨before, m, after, rfl, hbefore, hbreaks⟩ := hrest.mp hv
        refine ⟨n :: before, m, after, rfl, allowsAll_cons.mpr ⟨hallows, hbefore⟩, ?_⟩
        rwa [List.length_cons, ← hshift]
    · rintro ⟨before, m, after, hns, hbefore, hbreaks⟩
      cases before with
      | nil =>
        obtain ⟨rfl, rfl⟩ := List.cons.inj hns
        have hfirst := (visitNode_eq_error_iff hdepth).mpr hbreaks
        simp [hfirst, Except.bind]
      | cons n' before =>
        obtain ⟨rfl, rfl⟩ := List.cons.inj hns
        obtain ⟨hallows, hbefore⟩ := allowsAll_cons.mp hbefore
        rw [(visitNode_eq_ok_iff hdepth).mpr ⟨hallows, rfl⟩]
        refine hrest.mpr ⟨before, m, after, rfl, hbefore, ?_⟩
        rwa [hshift]

/-- The verdict on a tree is that of one pass over its nodes. -/
lemma checkTree_eq_ok_iff {e : FilterTree} :
    p.checkTree e = .ok () ↔ ∃ c, p.visitNodes 0 (e.nodes 0) = .ok c := by
  rw [checkTree, visitTree_eq]
  cases p.visitNodes 0 (e.nodes 0) <;> simp [Except.map]

lemma checkTree_eq_error_iff {e : FilterTree} {v : PolicyViolation} :
    p.checkTree e = .error v ↔ p.visitNodes 0 (e.nodes 0) = .error v := by
  rw [checkTree, visitTree_eq]
  cases p.visitNodes 0 (e.nodes 0) <;> simp [Except.map]

/-- What a policy demands of a whole tree: its number of nodes, and of each node its depth and what
a condition compares. -/
theorem accepts_iff {e : FilterTree} : p.checkTree e = .ok () ↔ (e.nodes 0).length ≤ maxNodes ∧
    ∀ n ∈ e.nodes 0, ¬p.maxDepth.IsBelow n.depth ∧ ∀ f ∈ n.filter,
      (p.allowedFields = [] ∨ f.field ∈ p.allowedFields) ∧ f.op ∉ p.deniedOperators := by
  have hok := fun c => visitNodes_eq_ok_iff (p := p) (c := c) (Stepwise.tree 0 e)
  rw [checkTree_eq_ok_iff]
  constructor
  · rintro ⟨c, hc⟩
    obtain ⟨hall, -⟩ := (hok c).mp hc
    simp only [AllowsAll, Nat.zero_add] at hall
    constructor
    · by_contra hlong
      have hplace : maxNodes < (e.nodes 0).length := by omega
      exact absurd (hall maxNodes _ (List.getElem?_eq_getElem hplace)).count (lt_irrefl _)
    · intro n hn
      obtain ⟨i, hi⟩ := List.mem_iff_getElem?.mp hn
      have hallows := hall i n hi
      exact ⟨hallows.depth, fun f hf => ⟨hallows.field f hf, hallows.operator f hf⟩⟩
  · rintro ⟨hlength, hall⟩
    refine ⟨_, (hok _).mpr ⟨fun i n hn => ?_, rfl⟩⟩
    obtain ⟨hplace, -⟩ := List.getElem?_eq_some_iff.mp hn
    obtain ⟨hbelow, hfilter⟩ := hall n (List.mem_of_getElem? hn)
    exact ⟨by omega, hbelow, fun f hf => (hfilter f hf).1, fun f hf => (hfilter f hf).2⟩

/-- A tree is accepted exactly when it has at most 10000 nodes, none deeper than allowed, and
each of its filters has an allowed field and an operator that is not denied. A tree that is
refused is refused for its first node that fails, for the first demand that this one fails. -/
theorem checkTree_spec (p : FilterPolicy) (e : FilterTree) :
    (p.checkTree e = .ok () ↔ (e.nodes 0).length ≤ maxNodes ∧
      ∀ n ∈ e.nodes 0, ¬p.maxDepth.IsBelow n.depth ∧ ∀ f ∈ n.filter,
        (p.allowedFields = [] ∨ f.field ∈ p.allowedFields) ∧ f.op ∉ p.deniedOperators) ∧
    ∀ v, p.checkTree e = .error v ↔ ∃ before n after, e.nodes 0 = before ++ n :: after ∧
      p.AllowsAll 0 before ∧ p.Breaks before.length n v := by
  refine ⟨accepts_iff, fun v => ?_⟩
  rw [checkTree_eq_error_iff, visitNodes_eq_error_iff (Stepwise.tree 0 e)]
  simp only [Nat.zero_add]

end FilterPolicy
end BoundSql
