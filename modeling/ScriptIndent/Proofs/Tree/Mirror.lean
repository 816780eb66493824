import ScriptIndent.Syntax.Node

/-!
# ScriptIndent.Proofs.Tree.Mirror

Trees that differ in their ranges and their comments.

Comments are *woven* into the children of a node if they are put among them and the
other children stay in order (`Node.Woven`).  A map of trees *mirrors* them if it keeps
kinds, names and fields and weaves nothing but comments into the children
(`Node.Mirrors`).  Whatever a rule asks of the children of a node, it finds the mirrored
answer in the mirrored node.
-/

namespace ScriptIndent

namespace Node

/-- Comments are put among some nodes. -/
inductive Woven : List Node → List Node → Prop
  | nil : Woven [] []
  | keep (n : Node) {ns ns' : List Node} (h : Woven ns ns') : Woven (n :: ns) (n :: ns')
  | comment {c : Node} {ns ns' : List Node} (hcomment : c.isComment = true)
    (hnamed : c.isNamed = true) (hfields : c.fields = []) (h : Woven ns ns') :
    Woven ns (c :: ns')

namespace Woven

variable {ns ns' : List Node}

theorem refl (ns : List Node) : Woven ns ns := by
  induction ns with
  | nil => exact .nil
  | cons n rest ih => exact .keep n ih

/-- What no comment passes, the same nodes pass. -/
theorem filter_eq (h : Woven ns ns') {p : Node → Bool}
    (hp : ∀ c : Node, c.isComment = true → c.isNamed = true → c.fields = [] → p c = false) :
    ns'.filter p = ns.filter p := by
  induction h with
  | nil => rfl
  | keep n _ ih => rw [List.filter_cons, List.filter_cons, ih]
  | @comment c _ _ hcomment hnamed hfields _ ih =>
    rw [List.filter_cons, hp c hcomment hnamed hfields, ih]
    rfl

theorem find?_eq (h : Woven ns ns') {p : Node → Bool}
    (hp : ∀ c : Node, c.isComment = true → c.isNamed = true → c.fields = [] → p c = false) :
    ns'.find? p = ns.find? p := by
  rw [← List.head?_filter, ← List.head?_filter, h.filter_eq hp]

end Woven

/-- A map that keeps nodes but for their ranges and their comments. -/
structure Mirrors (f : Node → Node) : Prop where
  kind (n : Node) : (f n).kind = n.kind
  isNamed (n : Node) : (f n).isNamed = n.isNamed
  fields (n : Node) : (f n).fields = n.fields
  children (n : Node) : Woven (n.children.map f) (f n).children

namespace Mirrors

variable {f : Node → Node} (h : Mirrors f)

include h

theorem isComment (n : Node) : (f n).isComment = n.isComment := by
  rw [Node.isComment, h.kind, Node.isComment]

theorem field? (n : Node) (name : String) : (f n).field? name = (n.field? name).map f := by
  rw [Node.field?, (h.children n).find?_eq fun c _ _ hfields => by simp [hfields],
    List.find?_map, Node.field?]
  congr 2
  funext c
  rw [Function.comp, h.fields]

theorem childOfKind? (n : Node) {kind : String} (hkind : isCommentKind kind = false) :
    (f n).childOfKind? kind = (n.childOfKind? kind).map f := by
  have hother : ∀ c : Node, c.isComment = true → c.isNamed = true → c.fields = [] →
      (c.kind == kind) = false := by
    intro c hcomment _ _
    rw [beq_eq_false_iff_ne]
    rintro rfl
    rw [Node.isComment, hkind] at hcomment
    cases hcomment
  rw [Node.childOfKind?, (h.children n).find?_eq hother, List.find?_map, Node.childOfKind?]
  congr 2
  funext c
  rw [Function.comp, h.kind]

theorem keyword? (n : Node) (value : String) : (f n).keyword? value = (n.keyword? value).map f := by
  rw [Node.keyword?, (h.children n).find?_eq fun c _ hnamed _ => by simp [hnamed],
    List.find?_map, Node.keyword?]
  congr 2
  funext c
  rw [Function.comp, h.isNamed, h.kind]

theorem codeChildren_of_woven {n n' : Node} (hwoven : Woven (n.children.map f) n'.children) :
    n'.codeChildren = n.codeChildren.map f := by
  have hcode : ∀ n : Node, n.codeChildren = n.children.filter fun c => !c.isComment && c.isNamed := by
    intro n
    rw [Node.codeChildren, Node.namedChildren, List.filter_filter]
  rw [hcode, hcode, hwoven.filter_eq fun c hcomment _ _ => by simp [hcomment]]
  simp only [List.filter_map, Function.comp_def, h.isNamed, h.isComment]

theorem codeChildren (n : Node) : (f n).codeChildren = n.codeChildren.map f :=
  h.codeChildren_of_woven (h.children n)

end Mirrors

end Node

end ScriptIndent
