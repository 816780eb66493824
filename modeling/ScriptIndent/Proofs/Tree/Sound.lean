import ScriptIndent.Proofs.Stream.Place

/-!
# ScriptIndent.Proofs.Tree.Sound

Grammatical trees, built node by node.

A node is *sound* if it has everything that a grammatical tree asks of the nodes
below its root, and so has every node below it (`Node.Sound`).  A node over sound
children is sound if it is so by itself (`Sound.node`); leaves are sound by
themselves.  A tree over sound children is grammatical
(`Grammatical.of_children`).
-/

namespace ScriptIndent

namespace Node

/-! ## nodes by themselves -/

/-- What a grammatical tree asks of a single node below its root. -/
structure IsSound (b : Buffer) (n : Node) : Prop where
  inOrder : InOrder n.start n.stop n.children
  bracketed : n.kind = "template_substitution" → n.IsBracketed
  hasToken : n.IsCode → n.HasToken b
  shape : n.isNamed = true → ∀ construct, Construct.ofKind? n.kind = some construct →
    n.Shape b construct

/-- The node, and every node below it, has what a grammatical tree asks of it. -/
def Sound (b : Buffer) (n : Node) : Prop := ∀ m : Node, m.Within n → m.IsSound b

variable {b : Buffer} {n : Node}

theorem Sound.isSound (h : n.Sound b) : n.IsSound b := h n (.refl n)

theorem Sound.of_mem {c : Node} (h : n.Sound b) (hc : c ∈ n.children) : c.Sound b :=
  fun m hm => h m (hm.trans (.of_mem hc))

/-- A node over sound children. -/
theorem Sound.node (h : n.IsSound b) (hchildren : ∀ c ∈ n.children, c.Sound b) : n.Sound b := by
  intro m hm
  rcases hm.eq_or_below with rfl | ⟨c, hc, hm⟩
  · exact h
  · exact hchildren c hc m hm

/-- A tree over sound children is grammatical.  Its root need not make a token. -/
theorem Grammatical.of_children (hinOrder : InOrder n.start n.stop n.children)
    (hkind : n.kind ≠ "template_substitution")
    (hshape : ∀ construct, Construct.ofKind? n.kind = some construct → n.Shape b construct)
    (hchildren : ∀ c ∈ n.children, c.Sound b) : n.Grammatical b where
  nested m hm := by
    rcases hm.eq_or_below with rfl | ⟨c, hc, hm⟩
    · exact hinOrder
    · exact (hchildren c hc m hm).inOrder
  bracketed m hm hsub := by
    rcases hm.eq_or_below with rfl | ⟨c, hc, hm⟩
    · exact absurd hsub hkind
    · exact (hchildren c hc m hm).bracketed hsub
  hasToken m hm hcode := by
    obtain ⟨c, hc, hm⟩ := hm
    exact (hchildren c hc m hm).hasToken hcode
  shape m hm hnamed construct hconstruct := by
    rcases hnamed with rfl | hnamed
    · exact hshape construct hconstruct
    rcases hm.eq_or_below with rfl | ⟨c, hc, hm⟩
    · exact hshape construct hconstruct
    · exact (hchildren c hc m hm).shape hnamed construct hconstruct

/-- The nodes below the root of a grammatical tree are sound. -/
theorem Grammatical.sound_of_mem (h : n.Grammatical b) {c : Node} (hc : c ∈ n.children) :
    c.Sound b := by
  intro m hm
  have hbelow : m.Below n := ⟨c, hc, hm⟩
  exact ⟨h.nested m hbelow.within, h.bracketed m hbelow.within, h.hasToken m hbelow,
    fun hnamed => h.shape m hbelow.within (.inr hnamed)⟩

/-! ## leaves -/

/-- A leaf that is not empty makes a token, if it is no comment. -/
theorem hasToken_of_leaf (hlt : n.start < n.stop) (hcomment : n.isComment = false)
    (hchildren : n.children = []) : n.HasToken b := by
  have hempty : n.start ≠ n.stop := by lia
  have hcode := ofLeaf_isComment hcomment
  rw [HasToken, pieces_eq, if_neg hempty, if_neg (by simp [hcomment]), hchildren]
  split
  · simp [templatePieces, Piece.codeCount, Piece.isComment]
  · simp [Piece.codeCount, hcode]

/-- Punctuation and keywords are sound. -/
theorem Spells.sound {value : String} (h : n.Spells b value)
    (hvalue : value ≠ "template_substitution") : n.Sound b := by
  refine Sound.node ⟨?_, ?_, ?_, ?_⟩ ?_
  · rw [h.children_eq]
    exact Int.le_of_lt h.lt
  · rw [h.kind_eq]
    exact fun hkind => absurd hkind hvalue
  · exact fun hcode => absurd hcode.1 (by simp [h.anonymous])
  · exact fun hnamed => absurd hnamed (by simp [h.anonymous])
  · simp [h.children_eq]

/-- A leaf that stands for a construct without a rule of its own. -/
theorem sound_of_leaf (hlt : n.start < n.stop) (hchildren : n.children = [])
    (hkind : Construct.ofKind? n.kind = some .plain) (hsub : n.kind ≠ "template_substitution") :
    n.Sound b := by
  refine Sound.node ⟨?_, ?_, ?_, ?_⟩ ?_
  · rw [hchildren]
    exact Int.le_of_lt hlt
  · exact fun h => absurd h hsub
  · exact fun _ => hasToken_of_leaf hlt (isComment_of_ofKind? hkind) hchildren
  · intro _ construct hconstruct
    obtain rfl : Construct.plain = construct := Option.mem_unique hkind hconstruct
    intro _ c hc
    rw [mem_codeChildren, hchildren] at hc
    simp at hc
  · simp [hchildren]

/-! ## compound nodes -/

/-- A compound node makes a token if a child of it does. -/
theorem IsCompound.hasToken (hn : n.IsCompound) (hlt : n.start < n.stop) {c : Node}
    (hc : c ∈ n.children) (htoken : c.HasToken b) : n.HasToken b := by
  obtain ⟨hcomment, hliteral⟩ := hn
  rw [isLiteralKind, Bool.or_eq_false_iff, beq_eq_false_iff_ne] at hliteral
  have hempty : n.start ≠ n.stop := by lia
  have hleaf : (isAtomicKind n.kind || n.children.isEmpty) = false := by
    simp [hliteral.2, List.ne_nil_of_mem hc]
  have hpieces : n.pieces b = n.children.flatMap (pieces b) := by
    simp [pieces_eq, hempty, hcomment, hliteral.1, hleaf]
  obtain ⟨p, hp, hcode⟩ := List.countP_pos_iff.1 htoken
  rw [HasToken, hpieces]
  exact List.countP_pos_iff.2 ⟨p, List.mem_flatMap.2 ⟨c, hc, hp⟩, hcode⟩

/-- A compound node that stands for a construct. -/
theorem IsCompound.sound (hn : n.IsCompound) (hinOrder : InOrder n.start n.stop n.children)
    (hlt : n.start < n.stop) {c : Node} (hc : c ∈ n.children) (htoken : c.HasToken b)
    (hsub : n.kind ≠ "template_substitution") {construct : Construct}
    (hconstruct : Construct.ofKind? n.kind = some construct) (hshape : n.Shape b construct)
    (hchildren : ∀ c ∈ n.children, c.Sound b) : n.Sound b := by
  refine Sound.node ⟨hinOrder, fun h => absurd h hsub, fun _ => hn.hasToken hlt hc htoken, ?_⟩
    hchildren
  intro _ construct' hconstruct'
  exact Option.mem_unique hconstruct hconstruct' ▸ hshape

/-- A compound node whose tokens are placed by a construct around it has no shape
to keep. -/
theorem IsCompound.plainShape (hn : n.IsCompound) : n.Shape b .plain := by
  obtain ⟨-, hliteral⟩ := hn
  rw [isLiteralKind, Bool.or_eq_false_iff] at hliteral
  exact fun hatomic => absurd hatomic (by simp [hliteral.2])

/-! ## trees checked by evaluation -/

mutual

/-- The nodes of a tree. -/
def nodes : Node → List Node
  | n@⟨_, _, _, _, _, _, _, children⟩ => n :: nodesAmong children

def nodesAmong : List Node → List Node
  | [] => []
  | n :: rest => nodes n ++ nodesAmong rest

end

theorem nodesAmong_eq (ns : List Node) : nodesAmong ns = ns.flatMap nodes := by
  induction ns with
  | nil => rfl
  | cons n rest ih => rw [nodesAmong, ih, List.flatMap_cons]

theorem nodes_eq (n : Node) : n.nodes = n :: n.children.flatMap nodes := by
  obtain ⟨kind, isNamed, isMissing, hasError, fields, start, stop, children⟩ := n
  rw [nodes, nodesAmong_eq]

theorem mem_nodes {m : Node} (h : m.Within n) : m ∈ n.nodes := by
  induction h with
  | refl =>
    rw [nodes_eq]
    exact List.mem_cons_self
  | child mem _ ih =>
    rw [nodes_eq]
    exact List.mem_cons_of_mem _ (List.mem_flatMap.2 ⟨_, mem, ih⟩)

/-- The construct has a rule that places tokens. -/
def isRuled (n : Node) : Bool :=
  (Construct.ofKind? n.kind).any (· ≠ .plain)

instance (n : Node) : Decidable n.IsLiteralPart :=
  inferInstanceAs (Decidable (_ ∨ _ ∧ _))

/-- A node has what a grammatical tree asks of it, its shape apart if it has a rule that places
tokens.  Substitutions are left out. -/
def passes (b : Buffer) (n : Node) : Bool :=
  decide (InOrder n.start n.stop n.children) && n.kind != "template_substitution" &&
    (!n.isNamed || n.isComment || decide (0 < Piece.codeCount (n.pieces b))) &&
    (!isAtomicKind n.kind || n.codeChildren.all (·.IsLiteralPart))

/-- The node has the shape of its construct. -/
def Shaped (b : Buffer) (n : Node) : Prop :=
  ∀ construct, Construct.ofKind? n.kind = some construct → n.Shape b construct

theorem Shaped.of_shape (construct : Construct) (h : Construct.ofKind? n.kind = some construct)
    (hshape : n.Shape b construct) : n.Shaped b := by
  intro construct' h'
  exact Option.mem_unique h h' ▸ hshape

/-- A nested, bracketed tree is grammatical if its constructs make tokens, literals hold no more than
their parts, and the nodes with rules have their shapes. -/
theorem Grammatical.of_nodes (hnested : n.Nested) (hbracketed : n.Bracketed)
    (htokens : ∀ m : Node, m.Within n → m.IsCode → m.HasToken b)
    (hplain : ∀ m : Node, m.Within n → m.PlainShape)
    (hshaped : ∀ m ∈ n.nodes.filter isRuled, m.Shaped b) : n.Grammatical b := by
  refine ⟨hnested, hbracketed, fun m hm => htokens m hm.within, fun m hm _ construct hconstruct => ?_⟩
  by_cases heq : construct = .plain
  · subst heq
    exact hplain m hm
  · refine hshaped m (List.mem_filter.2 ⟨mem_nodes hm, ?_⟩) construct hconstruct
    simp [isRuled, hconstruct, heq]

/-- A tree is grammatical if all of its nodes pass, and those with rules have their shapes. -/
theorem Grammatical.of_passes (hpasses : n.all (passes b) = true)
    (hshaped : ∀ m ∈ n.nodes.filter isRuled, m.Shaped b) : n.Grammatical b := by
  have hnode : ∀ m : Node, m.Within n → InOrder m.start m.stop m.children ∧
      m.kind ≠ "template_substitution" ∧ (m.IsCode → m.HasToken b) ∧ m.PlainShape := by
    intro m hm
    have hpass := of_all hpasses hm
    simp only [passes, Bool.and_eq_true, decide_eq_true_eq, bne_iff_ne, Bool.or_eq_true,
      Bool.not_eq_true', List.all_eq_true] at hpass
    obtain ⟨⟨⟨hinOrder, hkind⟩, htoken⟩, hplain⟩ := hpass
    refine ⟨hinOrder, hkind, fun ⟨hnamed, hcomment⟩ => ?_, fun hatomic => ?_⟩
    · simpa [hnamed, hcomment, HasToken] using htoken
    · exact hplain.resolve_left (by simp [hatomic])
  exact .of_nodes (fun m hm => (hnode m hm).1) (fun m hm hsub => absurd hsub (hnode m hm).2.1)
    (fun m hm => (hnode m hm).2.2.1) (fun m hm => (hnode m hm).2.2.2) hshaped

end Node

end ScriptIndent
