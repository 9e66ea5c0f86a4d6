import ArithScript.Proofs.Grammar.Relocation
import ArithScript.Proofs.Lowering.Faithful
import ArithScript.Proofs.Program.Printable

/-!
What trees stand for does not depend on places, apart from those of a sign and of the number after
it.
-/
namespace ArithScript

variable {α β : Type} {R : α → β → Prop} {xs : List α} {ys : List β}

theorem exists_mem_of_forall₂ (h : List.Forall₂ R xs ys) : ∀ y ∈ ys, ∃ x ∈ xs, R x y := by
  induction h with
  | nil => simp
  | @cons x y xs ys first rest ih =>
    refine List.forall_mem_cons.mpr ⟨⟨x, List.mem_cons_self, first⟩, fun z hz => ?_⟩
    obtain ⟨w, hw, hwz⟩ := ih z hz
    exact ⟨w, List.mem_cons_of_mem _ hw, hwz⟩

theorem forall_mem_iff_of_forall₂ {P : α → Prop} {Q : β → Prop} (h : List.Forall₂ R xs ys)
    (hr : ∀ x y, R x y → (Q y ↔ P x)) : (∀ y ∈ ys, Q y) ↔ ∀ x ∈ xs, P x := by
  induction h with
  | nil => simp
  | cons first rest ih => rw [List.forall_mem_cons, List.forall_mem_cons, ih, hr _ _ first]

namespace Tree

variable {kept : Nat → Prop} {source source' : Source} {tree tree' : Tree} {trees trees' : List Tree}

mutual

theorem spelling_unplaced (tree : Tree) : tree.unplaced.spelling = tree.spelling := by
  match tree with
  | .token .. => rfl
  | .node _ _ children => exact spellingAll_unplacedAll children

theorem spellingAll_unplacedAll (trees : List Tree) :
    spellingAll (unplacedAll trees) = spellingAll trees := by
  match trees with
  | [] => rfl
  | tree :: rest =>
    rw [unplacedAll, spellingAll, spellingAll, spelling_unplaced, spellingAll_unplacedAll]

end

theorem arguments_unplaced (tree : Tree) :
    tree.unplaced.arguments = tree.arguments.map unplaced := by
  rw [arguments, children_unplaced, List.filter_map, arguments]
  simp only [Function.comp_def, kind_unplaced]

theorem supported_unplaced (hk : tree.kind ≠ .construct .unary) :
    tree.unplaced.Supported ↔ tree.Supported := by
  rw [Supported, Supported, kind_unplaced, children_unplaced]
  split
  · rfl
  · rfl
  · rcases tree.children with _ | ⟨left, _ | ⟨op, _ | ⟨right, _ | _⟩⟩⟩ <;> simp [kind_unplaced]
  · contradiction
  · rcases tree.children with _ | ⟨callee, _ | ⟨list, _ | _⟩⟩ <;>
      simp [kind_unplaced, spelling_unplaced, arguments_unplaced]
  · rfl

theorem supported_unary_iff (hk : tree.kind = .construct .unary) :
    tree.Supported ↔ ∃ sign number, tree.children = [sign, number] ∧
      sign.kind ∈ [.terminal .plus, .terminal .minus] ∧ number.kind = .terminal .number ∧
      number.extent.start = sign.extent.stop := by
  rw [Supported, hk]

theorem kind_eq_of_unplaced_eq (h : tree'.unplaced = tree.unplaced) : tree'.kind = tree.kind := by
  rw [← kind_unplaced, h, kind_unplaced]

theorem map_unplaced_children (h : tree'.unplaced = tree.unplaced) :
    tree'.children.map unplaced = tree.children.map unplaced := by
  rw [← children_unplaced, h, children_unplaced]

theorem children_eq_nil_iff (h : tree'.unplaced = tree.unplaced) :
    tree'.children = [] ↔ tree.children = [] := by
  rw [← List.map_eq_nil_iff (f := unplaced), map_unplaced_children h, List.map_eq_nil_iff]

theorem exists_children_pair {first second : Tree} (h : tree'.unplaced = tree.unplaced)
    (hc : tree.children = [first, second]) :
    ∃ first' second', tree'.children = [first', second'] ∧ first'.kind = first.kind ∧
      second'.kind = second.kind := by
  have hmap := map_unplaced_children h
  rw [hc] at hmap
  obtain ⟨first', second', hc', hfirst, hsecond⟩ := map_eq_pair hmap
  exact ⟨first', second', hc', kind_eq_of_unplaced_eq hfirst, kind_eq_of_unplaced_eq hsecond⟩

def KeepsSign (kept : Nat → Prop) (tree : Tree) : Prop :=
  ∀ sign inner, tree.kind = .construct .unary → tree.children = [sign, inner] →
    ∀ stop : Nat, sign.extent.stop = stop → kept stop

/-- A node stays supported unless a sign is separated from its number. -/
theorem Relocated.supported_iff (h : Relocated kept tree tree') :
    tree'.Supported ↔ tree.Supported ∧ tree.KeepsSign kept := by
  have hkind := kind_eq_of_unplaced_eq h.unplaced_eq
  by_cases hk : tree.kind = .construct .unary
  · rw [supported_unary_iff hk, supported_unary_iff (hkind.trans hk)]
    constructor
    · rintro ⟨sign', number', hc', hsign, hnumber, hgap⟩
      obtain ⟨sign, number, hc, hsk, hnk⟩ := exists_children_pair h.unplaced_eq.symm hc'
      obtain ⟨stop, hstop, hadjoins⟩ := h.adjoins sign number sign' number' hk hc hc'
      obtain ⟨htouch, hkept⟩ := hadjoins.mp hgap
      refine ⟨⟨sign, number, hc, hsk ▸ hsign, hnk.trans hnumber, htouch⟩, ?_⟩
      intro s n _ hc'' stop' hstop'
      obtain ⟨rfl, rfl⟩ : sign = s ∧ number = n := by simpa [hc] using hc''
      obtain rfl := Int.natCast_inj.mp (hstop.symm.trans hstop')
      exact hkept
    · rintro ⟨⟨sign, number, hc, hsign, hnumber, hgap⟩, hkept⟩
      obtain ⟨sign', number', hc', hsk, hnk⟩ := exists_children_pair h.unplaced_eq hc
      obtain ⟨stop, hstop, hadjoins⟩ := h.adjoins sign number sign' number' hk hc hc'
      exact ⟨sign', number', hc', hsk ▸ hsign, hnk.trans hnumber,
        hadjoins.mpr ⟨hgap, hkept sign number hk hc stop hstop⟩⟩
  · rw [← supported_unplaced (hkind.trans_ne hk), h.unplaced_eq, supported_unplaced hk]
    simp [KeepsSign, hk]

theorem Relocates.forall_supported_iff (h : Relocates kept tree tree') :
    (∀ t ∈ tree'.subtrees, t.Supported) ↔
      (∀ t ∈ tree.subtrees, t.Supported) ∧ ∀ t ∈ tree.subtrees, t.KeepsSign kept := by
  rw [forall_mem_iff_of_forall₂ h fun _ _ hnode => hnode.supported_iff]
  simp only [forall_and]

theorem bare_asExpr_unplaced_binary (hk : tree.kind = .construct .binary)
    (ih : ∀ t ∈ tree.children, (t.unplaced.asExpr source').bare = (t.asExpr source).bare) :
    (tree.unplaced.asExpr source').bare = (tree.asExpr source).bare := by
  rw [asExpr_binary_eq hk, asExpr_binary_eq ((kind_unplaced tree).trans hk), children_unplaced]
  rcases hc : tree.children with _ | ⟨left, _ | ⟨op, _ | ⟨right, _ | _⟩⟩⟩ <;> try rfl
  have hleft := ih left (by simp [hc])
  have hright := ih right (by simp [hc])
  simp only [List.map_cons, List.map_nil, spelling_unplaced]
  cases Operator.ofSymbol? op.spelling <;> simp [Expr.bare, hleft, hright]

theorem bare_asExpr_unplaced_call (hk : tree.kind = .construct .call)
    (ih : ∀ list ∈ tree.children, ∀ t ∈ list.arguments,
      (t.unplaced.asExpr source').bare = (t.asExpr source).bare) :
    (tree.unplaced.asExpr source').bare = (tree.asExpr source).bare := by
  rw [asExpr_call_eq hk, asExpr_call_eq ((kind_unplaced tree).trans hk), children_unplaced]
  rcases hc : tree.children with _ | ⟨callee, _ | ⟨list, _ | _⟩⟩ <;> try rfl
  have hargument := ih list (by simp [hc])
  simp only [List.map_cons, List.map_nil, spelling_unplaced, arguments_unplaced]
  rcases ha : list.arguments with _ | ⟨first, _ | ⟨second, _ | _⟩⟩
  · rfl
  · have hfirst := hargument first (by simp [ha])
    simp only [List.map_cons, List.map_nil]
    cases UnaryBuiltin.ofName? callee.spelling <;> simp [Expr.bare, hfirst]
  · have hfirst := hargument first (by simp [ha])
    have hsecond := hargument second (by simp [ha])
    simp only [List.map_cons, List.map_nil]
    cases BinaryBuiltin.ofName? callee.spelling <;> simp [Expr.bare, hfirst, hsecond]
  · rfl

theorem bare_asExpr_unplaced (tree : Tree) :
    (tree.unplaced.asExpr source').bare = (tree.asExpr source).bare := by
  induction hsize : tree.size using Nat.strongRecOn generalizing tree with
  | ind n ih =>
    have hkind := kind_unplaced tree
    by_cases hname : tree.kind = .terminal .name
    · rw [asExpr_name hname, asExpr_name (hkind.trans hname), spelling_unplaced]
      rfl
    by_cases hliteral : tree.kind = .terminal .number ∨ tree.kind = .construct .unary
    · rw [asExpr_literal_eq hliteral, asExpr_literal_eq (by rwa [hkind]), spelling_unplaced]
      cases readNumber tree.spelling <;> rfl
    by_cases hbinary : tree.kind = .construct .binary
    · exact bare_asExpr_unplaced_binary hbinary fun t ht =>
        ih _ (hsize ▸ size_lt_of_mem_children ht) t rfl
    by_cases hcall : tree.kind = .construct .call
    · refine bare_asExpr_unplaced_call hcall fun list hlist t ht => ?_
      have hlt := Nat.lt_trans (size_lt_of_mem_children (mem_children_of_mem_arguments ht))
        (size_lt_of_mem_children hlist)
      exact ih _ (hsize ▸ hlt) t rfl
    · rw [not_or] at hliteral
      rw [asExpr_other hliteral.1 hname hcall hliteral.2 hbinary,
        asExpr_other (hkind.trans_ne hliteral.1) (hkind.trans_ne hname) (hkind.trans_ne hcall)
          (hkind.trans_ne hliteral.2) (hkind.trans_ne hbinary)]

theorem bare_asStmt_unplaced (tree : Tree) :
    (tree.unplaced.asStmt source').bare = (tree.asStmt source).bare := by
  have hvalue (t : Tree) : (t.unplaced.asExpr source').bare = (t.asExpr source).bare :=
    bare_asExpr_unplaced t
  by_cases ha : tree.kind = .construct .assignment
  · simp only [asStmt, kind_unplaced, children_unplaced, ha]
    rcases tree.children with _ | ⟨target, _ | ⟨sign, _ | ⟨value, _ | _⟩⟩⟩ <;> try rfl
    simp [Stmt.bare, spelling_unplaced, hvalue]
  by_cases he : tree.kind = .construct .exprStatement
  · simp only [asStmt, kind_unplaced, children_unplaced, he]
    rcases tree.children with _ | ⟨value, _ | _⟩ <;> try rfl
    simp [Stmt.bare, hvalue]
  · rw [asStmt.eq_def, asStmt.eq_def, kind_unplaced]
    split <;> simp_all

theorem map_bare_asStmt (h : tree'.unplaced = tree.unplaced) (source source' : Source) :
    (tree'.children.map (asStmt source')).map Stmt.bare =
      (tree.children.map (asStmt source)).map Stmt.bare := by
  have hmap (source : Source) (tree : Tree) : (tree.children.map (asStmt source)).map Stmt.bare =
      (tree.children.map unplaced).map fun t => (t.asStmt source').bare := by
    rw [List.map_map, List.map_map]
    exact List.map_congr_left fun t _ => (bare_asStmt_unplaced t).symm
  rw [hmap, hmap, map_unplaced_children h]

end Tree
end ArithScript
