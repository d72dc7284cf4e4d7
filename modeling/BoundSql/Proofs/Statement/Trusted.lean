import BoundSql.Client.FilterPolicy
import BoundSql.Proofs.Statement.SelectLists
import BoundSql.Proofs.Table.Seek

/-!
# Trusted conditions

The trees that a service trusts and the tree of a client are joined, given to a
builder and compiled. Whatever the client's tree, whatever filters and cursors
are added and however the groups nest, the rows of which the WHERE clause is
true are rows of which every trusted tree is true. The tree of a draft changes
only when a call sets another one.
-/
namespace BoundSql

/-- The WHERE clause of a statement can be read, and where it is true each of the trees is. -/
def Query.Enforces (q : Query) (d : Dialect) (es : List FilterTree) : Prop :=
  ∃ formula params, q.condition? = some (some (formula, params)) ∧ ∀ test,
    formula.truth test params = some true →
      ∀ e ∈ es, e.value (Filter.truth d test) = some true

theorem Query.Demands.enforces {q : Query} {d : Dialect} {es : List FilterTree}
    (h : q.Demands d es) (hne : es ≠ []) : q.Enforces d es := by
  rcases h with ⟨hempty, -⟩ | ⟨formula, params, hcondition, htruth⟩
  · exact absurd hempty hne
  · refine ⟨formula, params, hcondition, fun test htrue => ?_⟩
    rw [htruth] at htrue
    exact FilterTree.conjunction_eq_true.mp htrue

section Conditions

variable {tree : Option FilterTree} {filters : List Filter}

lemma isProper_tree_filters (h : ∀ e ∈ tree, e.isProper = true) :
    ∀ e ∈ tree.toList ++ filters.map .leaf, e.isProper = true := by
  intro e he
  rcases List.mem_append.mp he with he | he
  · exact h e (Option.mem_toList.mp he)
  · obtain ⟨f, -, rfl⟩ := List.mem_map.mp he
    exact FilterTree.isProper_leaf f

end Conditions

namespace SelectDraft

/-- The condition of a cursor has no empty group, whatever the cursor and the sort order. -/
lemma isProper_seekCondition (s : SelectDraft) : ∀ e ∈ s.seekCondition.1, e.isProper = true := by
  intro e he
  unfold seekCondition at he
  split at he
  · simp at he
  · dsimp only at he
    split_ifs at he
    · split at he
      · rename_i k hk
        obtain rfl := Option.some_inj.mp he
        exact Keyset.isProper_toTree hk
      · simp at he
    · simp at he

lemma isProper_conditions {s : SelectDraft} (h : ∀ e ∈ s.tree, e.isProper = true) :
    ∀ e ∈ s.conditions, e.isProper = true := by
  intro e he
  rcases List.mem_append.mp he with he | he
  · exact isProper_tree_filters h e he
  · exact isProper_seekCondition s e (Option.mem_toList.mp he)

lemma tree_setSeek (s : SelectDraft) (direction : SeekDirection) (request : RequestedCursor) :
    (s.setSeek direction request).1.tree = s.tree := by
  rw [setSeek_eq]
  cases Cursor.ofRequest? request <;> rfl

end SelectDraft

namespace StatementKind

variable {k : StatementKind}

/-- The filter tree that a call sets, if it is such a call. -/
def treeOf? : (k : StatementKind) → k.CallOf → Option FilterTree
  | .select, .tree e => some e
  | .update, .tree e => some e
  | .delete, .tree e => some e
  | _, _ => none

/-- The filter tree of a draft; an INSERT has none. -/
def tree : (k : StatementKind) → k.DraftOf → Option FilterTree
  | .select, s => s.tree
  | .insert, _ => none
  | .update, s => s.tree
  | .delete, s => s.tree

/-- The conditions of a draft's WHERE clause. -/
def conditions : (k : StatementKind) → k.DraftOf → List FilterTree
  | .select, s => s.conditions
  | .insert, _ => []
  | .update, s => s.conditions
  | .delete, s => s.conditions

/-- An accepted call sets the tree that it is given, and otherwise keeps the one before. -/
theorem tree_configure {s s' : k.DraftOf} {call : k.CallOf} {events : List Event}
    (h : DraftSpec.configure call s = .ok (s', events)) :
    k.tree s' = (k.treeOf? call).or (k.tree s) := by
  cases k with
  | select =>
    have hfill : SelectDraft.fill s call = .ok s' := eq_ok_of_map_pair h
    cases call with
    | page page limit =>
      obtain ⟨p, -, hfill⟩ := bind_eq_ok_iff.mp hfill
      obtain ⟨l, -, ⟨⟩⟩ := bind_eq_ok_iff.mp hfill
      rfl
    | limitOffset limit offset =>
      obtain ⟨l, -, hfill⟩ := bind_eq_ok_iff.mp hfill
      obtain ⟨o, -, ⟨⟩⟩ := bind_eq_ok_iff.mp hfill
      rfl
    | seek direction input =>
      obtain ⟨⟩ := hfill
      exact SelectDraft.tree_setSeek s direction input
    | _ =>
      obtain ⟨_, -, ⟨⟩⟩ := bind_eq_ok_iff.mp hfill
      rfl
  | insert => cases call <;> rfl
  | update =>
    have hfill : UpdateDraft.fill s call = .ok s' := eq_ok_of_map_pair h
    cases call <;>
    · obtain ⟨⟨⟩, -, ⟨⟩⟩ := bind_eq_ok_iff.mp hfill
      rfl
  | delete =>
    have hfill : DeleteDraft.fill s call = .ok s' := eq_ok_of_map_pair h
    cases call <;>
    · obtain ⟨⟨⟩, -, ⟨⟩⟩ := bind_eq_ok_iff.mp hfill
      rfl

lemma mem_conditions {s : k.DraftOf} {e : FilterTree} (h : e ∈ k.tree s) :
    e ∈ k.conditions s := by
  have hlist : ∀ {tree : Option FilterTree} (rest : List FilterTree), e ∈ tree →
      e ∈ tree.toList ++ rest := fun rest hmem =>
    List.mem_append_left rest (Option.mem_toList.mpr hmem)
  cases k with
  | select => exact List.mem_append_left _ (hlist _ h)
  | insert => cases h
  | update => exact hlist _ h
  | delete => exact hlist _ h

/-- A draft with a tree makes a statement that demands all conditions of the draft. -/
theorem demands_assemble {s : k.DraftOf} {d : Dialect} {table : Text} {start : Double}
    {tree : FilterTree} {q : Query} {events : List Event}
    (h : DraftSpec.assemble d table s start = .ok (q, events)) (hs : k.Vetted s)
    (ht : Identifier.isValid table = true) (hi : Double.AtLeastOne start)
    (htree : k.tree s = some tree) (hproper : tree.isProper = true) :
    q.Demands d (k.conditions s) := by
  have hforall : ∀ e ∈ k.tree s, e.isProper = true := fun e he => by
    obtain rfl : tree = e := Option.some_inj.mp (htree.symm.trans he)
    exact hproper
  obtain rfl := assemble_eq_query h
  cases k with
  | select => exact SelectDraft.demands_query hs ht hi (SelectDraft.isProper_conditions hforall)
  | insert => cases htree
  | update =>
    have hset : UpdateDraft.assignments s ≠ [] := by
      have hupdate := eq_ok_of_map_pair h
      unfold UpdateDraft.assemble at hupdate
      split_ifs at hupdate with hempty
      simpa using hempty
    exact UpdateDraft.demands_query hs ht hi hset (isProper_tree_filters hforall)
  | delete => exact DeleteDraft.demands_query hs ht hi (isProper_tree_filters hforall)

end StatementKind

namespace Builder

variable {k : StatementKind} {d : Dialect} {table : Text}

/-- A tree that is set stays in the draft until another one is. -/
theorem tree_run {b b₁ : Builder k.DraftOf} {call : k.CallOf} {events : List Event}
    {tree : FilterTree} {later : List (Action k.CallOf)} (hcall : k.treeOf? call = some tree)
    (h : b.configure call = .ok (b₁, events))
    (hlater : ∀ c, .configure c ∈ later → k.treeOf? c = none) :
    k.tree (b₁.run later).1.draft = some tree := by
  obtain ⟨-, -, draft, hconf, rfl⟩ := configure_eq_ok_iff.mp h
  have hset : k.tree draft = some tree := by
    rw [StatementKind.tree_configure hconf, hcall]
    rfl
  refine (run_induction_of (P := fun s => k.tree s = some tree) ?_ hset).1
  intro c s s' ev hmem hc hs
  rw [StatementKind.tree_configure hc, hlater c hmem, Option.none_or, hs]

/-- A tree that is given to a builder is enforced by the statement that is built, whatever calls
were made before it and whichever follow that set no other tree. -/
theorem enforces_of_tree {b b₁ : Builder k.DraftOf} {call : k.CallOf} {events events' : List Event}
    {tree : FilterTree} {later : List (Action k.CallOf)} {start : Double} {q : Query}
    (hproper : tree.isProper = true) (hreached : Reached d table b)
    (hcall : k.treeOf? call = some tree) (h : b.configure call = .ok (b₁, events))
    (hlater : ∀ c, .configure c ∈ later → k.treeOf? c = none)
    (hbuild : (b₁.run later).1.build start = .ok (q, events')) : q.Enforces d [tree] := by
  have hact : (b.run [.configure call]).1 = b₁ := by simp [run, act_configure, h]
  have hfinal : Reached d table (b₁.run later).1 := by
    rw [← hact]
    exact (hreached.run _).run later
  have htree := tree_run hcall h hlater
  obtain ⟨ht, hdialect, htable, hvetted⟩ := vetted_of_reached hfinal
  obtain ⟨-, -, hone, ev, hassemble, -⟩ := build_eq_ok_iff.mp hbuild
  rw [hdialect, htable] at hassemble
  have hmem := StatementKind.mem_conditions (Option.mem_def.mpr htree)
  obtain ⟨formula, params, hcondition, htruth⟩ :=
    (StatementKind.demands_assemble hassemble hvetted ht hone htree hproper).enforces
      (List.ne_nil_of_mem hmem)
  refine ⟨formula, params, hcondition, fun test htrue => ?_⟩
  exact List.forall_mem_singleton.mpr (htruth test htrue tree hmem)

end Builder

namespace FilterTree

variable {ε : Type} {check : FilterTree → Except ε Unit} {trusted : List FilterTree}
  {user : Option FilterTree}

/-- Only the verdict on the client's tree decides whether the trees are joined. -/
lemma joinChecked_eq : joinChecked check trusted user =
    (user.elim (.ok ()) check).map fun _ =>
      if trusted ++ user.toList = [] then none else some (conjoin (trusted ++ user.toList)) := by
  unfold joinChecked
  generalize trusted ++ user.toList = parts
  cases user with
  | none => cases parts <;> rfl
  | some e =>
    cases hcheck : check e with
    | error v => simp [hcheck, bind, Except.bind, Except.map]
    | ok _ => cases parts <;> simp [hcheck, bind, Except.bind, Except.map]

/-- Trees are refused exactly when the check refuses the client's, with its error, and nothing
depends on what the check makes of the trusted ones. There is nothing to join only if there are
no trees. What is joined, once it is given to a builder of a statement with a WHERE clause, makes
every trusted tree and the client's true wherever the clause of the statement is. -/
theorem joinChecked_enforced (check : FilterTree → Except ε Unit) (trusted : List FilterTree)
    (user : Option FilterTree) (hproper : ∀ e ∈ trusted ++ user.toList, e.isProper = true) :
    (∀ v, joinChecked check trusted user = .error v ↔ ∃ e ∈ user, check e = .error v) ∧
    (∀ check' : FilterTree → Except ε Unit, (∀ e ∈ user, check' e = check e) →
      joinChecked check' trusted user = joinChecked check trusted user) ∧
    (joinChecked check trusted user = .ok none ↔ trusted = [] ∧ user = none) ∧
    ∀ joined, joinChecked check trusted user = .ok (some joined) →
      ∀ {k : StatementKind} {d : Dialect} {table : Text} {b b₁ : Builder k.DraftOf}
        {call : k.CallOf} {events events' : List Event} {later : List (Action k.CallOf)}
        {start : Double} {q : Query}, Builder.Reached d table b →
        k.treeOf? call = some joined → b.configure call = .ok (b₁, events) →
        (∀ c, .configure c ∈ later → k.treeOf? c = none) →
        (b₁.run later).1.build start = .ok (q, events') →
        q.Enforces d (trusted ++ user.toList) := by
  refine ⟨fun v => ?_, fun check' hsame => ?_, ?_, fun joined hjoined => ?_⟩
  · rw [joinChecked_eq]
    cases user with
    | none => simp [Except.map]
    | some e => cases hcheck : check e <;> simp [hcheck, Except.map]
  · rw [joinChecked_eq, joinChecked_eq]
    cases user with
    | none => rfl
    | some e => simp [hsame e rfl]
  · rw [joinChecked_eq]
    cases user with
    | none => simp [Except.map]
    | some e => cases hcheck : check e <;> simp [hcheck, Except.map]
  · rw [joinChecked_eq, map_eq_ok_iff] at hjoined
    obtain ⟨⟨⟩, -, hparts⟩ := hjoined
    split_ifs at hparts with hempty
    obtain rfl := Option.some_inj.mp hparts
    intro hreached hcall h hlater hbuild
    obtain ⟨formula, params, hcondition, htruth⟩ := Builder.enforces_of_tree
      (Keyset.isProper_conjoin hempty hproper) hreached hcall h hlater hbuild
    refine ⟨formula, params, hcondition, fun test htrue => ?_⟩
    exact Keyset.conjoin_eq_true.mp (htruth test htrue _ List.mem_cons_self)

/-- A client's OR beside the tenant of a service, given to a SELECT that has one more filter. -/
theorem joinChecked_enforced_of_tenant :
    let tenant := compare "tenant_id" .eq (.int 7)
    let user := disjunction [compare "status" .eq (.string "open"), compare "due" .lt (.int 3)]
    let b : Builder SelectDraft :=
      ⟨.sqlite, "tasks", { tree := some (conjoin [tenant, user]) }, false⟩
    (∀ e ∈ [tenant, user], e.isProper = true) ∧
      FilterPolicy.standard.joinTrees [tenant] (some user) = .ok (some (conjoin [tenant, user])) ∧
      ∃ q events, (b.run [.configure (.filter "owner" .ne .null)]).1.build 1 = .ok (q, events) ∧
        q.Enforces .sqlite [tenant, user] := by
  intro tenant user b
  have hproper : ∀ e ∈ [tenant] ++ (some user).toList, e.isProper = true := by decide
  have hjoined : FilterPolicy.standard.joinTrees [tenant] (some user) =
      .ok (some (conjoin [tenant, user])) := by
    have hcheck : FilterPolicy.standard.checkTree user = .ok () := by decide +kernel
    simp [FilterPolicy.joinTrees, joinChecked_eq, hcheck, Except.map]
  have hreached : Builder.Reached (k := .select) .sqlite "tasks" ⟨.sqlite, "tasks", {}, false⟩ :=
    ⟨_, rfl, [], rfl⟩
  have hconfigure : Builder.configure (κ := StatementKind.CallOf .select)
      (⟨.sqlite, "tasks", {}, false⟩ : Builder (StatementKind.DraftOf .select))
      (.tree (conjoin [tenant, user])) = .ok (b, []) := rfl
  have hbuild : ∃ q events, (b.run [.configure (.filter "owner" .ne .null)]).1.build 1 =
      .ok (q, events) :=
    ⟨_, _, Builder.build_eq_ok_iff.mpr ⟨rfl, by decide +kernel, by decide +kernel, _, rfl, rfl⟩⟩
  obtain ⟨q, events, hq⟩ := hbuild
  obtain ⟨-, -, -, henforced⟩ :=
    joinChecked_enforced FilterPolicy.standard.checkTree [tenant] (some user) hproper
  refine ⟨hproper, hjoined, q, events, hq, ?_⟩
  have hlater : ∀ c, .configure c ∈ [Action.configure (SelectCall.filter "owner" .ne .null)] →
      StatementKind.treeOf? .select c = none := by simp [StatementKind.treeOf?]
  exact henforced _ hjoined (k := .select) hreached rfl hconfigure hlater hq

end FilterTree

end BoundSql
