import ScriptIndent.Proofs.Account.Production
import ScriptIndent.Proofs.Rule.Semicolons

/-!
# ScriptIndent.Proofs.Account.Basic

Tokens that are accounted for.

```
for ( let x of y )  a      the rules pass over `x`, the first comma, the semicolon of
b , c                      `; d` and the sign behind `f [ 0 ]`; all other tokens have
; d                        entries in the end
f [ 0 ] ++
```

A part of a construct is *passed over* if it is of one of the few kinds for which no rule
has an entry (`Source.PassedOver`).  A place is *accounted for* if its token has an entry
in the end or begins such a part (`Source.Accounted`).  The tokens of a construct behind its
first are accounted for if its parts begin at places that are, and the tokens within its
parts are (`Source.PartsBegin.forall`).
-/

namespace ScriptIndent

/-- The constructs among the parts. -/
theorem Node.mem_codeChildren_of_parts {n c : Node} (hc : c ∈ n.parts) (hcode : c.IsCode) :
    c ∈ n.codeChildren :=
  Node.mem_codeChildren.2 ⟨(List.mem_filter.1 hc).1, hcode⟩

theorem Node.mem_parts_of_mem_codeChildren {n c : Node} (hc : c ∈ n.codeChildren) : c ∈ n.parts := by
  rw [Node.codeChildren_eq_filter] at hc
  exact (List.mem_filter.1 hc).1

namespace Source

/-! ## what the rules pass over -/

/-- A part of a construct for which no rule has an entry. -/
inductive PassedOver (s : Source) (n c : Node) : Prop
  /-- A comma between elements.  The comma of an import clause is no such comma. -/
  | comma (hkind : n.kind ≠ "import_clause") (hspells : c.Spells s.buffer ",")
  /-- A semicolon that ends a statement or a class field, but not its line. -/
  | semicolon (hspells : c.Spells s.buffer ";") (t u : Token) (hfirst : s.firstOfNode? c = some t)
      (hnext : s.after? t = some u) (hline : u.line ≤ t.line)
  /-- A semicolon in the head of a loop. -/
  | head (hkind : n.kind = "for_statement") (hspells : c.Spells s.buffer ";")
  /-- A semicolon in the body of a class that is not behind a field. -/
  | member (hkind : n.kind = "class_body") (hspells : c.Spells s.buffer ";")
      (hfield : ∀ front d back, n.parts = front ++ d :: c :: back → d.kind ≠ "field_definition")
  /-- What stands between the first part behind the parenthesis of a loop over a collection and
  the word before the collection: a variable behind its keyword, and its first value. -/
  | bound (hkind : n.kind = "for_in_statement") (front : List Node) (left target : Node)
      (more : List Node) (word : Node) (back : List Node)
      (hparts : n.parts = front ++ left :: target :: (more ++ word :: back))
      (hleft : left.Spells s.buffer "(") (hword : n.field? "operator" = some word) (hc : c ∈ more)
  /-- The target of an assignment behind a keyword. -/
  | target (hkind : Construct.isChainKind n.kind = true) (word : Node) (back : List Node)
      (hword : word.Spells s.buffer "using") (hparts : n.parts = word :: c :: back)
  /-- The sign of an update behind an operand of several tokens. -/
  | update (hkind : n.kind = "update_expression") (operand : Node) (hparts : n.parts = [operand, c])
      (hseveral : 1 < Piece.codeCount (operand.pieces s.buffer))

/-- The token begins a part of a construct that the rules pass over. -/
def LeftOut (s : Source) (t : Token) : Prop :=
  ∃ n c : Node, n.Within s.root ∧ c ∈ n.parts ∧ s.PassedOver n c ∧ s.firstOfNode? c = some t

/-- The token at a place has an entry in the end, or the rules leave it out. -/
def Accounted (s : Source) (caseLevels : Int) (k : Nat) : Prop :=
  ∀ t, s.At k t → (s.analyze caseLevels).registry.contains t = true ∨ s.LeftOut t

/-! ## where parts begin -/

/-- Nodes that stand directly one behind the other. -/
def StandRun (s : Source) : List Node → Nat → Nat → Prop
  | [], i, j => i = j
  | n :: rest, i, j => ∃ k, s.Stands n i k ∧ s.StandRun rest k j

/-- Nodes that stand directly one behind the other, each beginning at a place with the property. -/
def RunBegins (s : Source) (P : Nat → Prop) : List Node → Nat → Nat → Prop
  | [], i, j => i = j
  | n :: rest, i, j => ∃ k, s.Stands n i k ∧ P i ∧ s.RunBegins P rest k j

/-- The parts of a node that stand behind its first place begin at places with the property. -/
def PartsBegin (s : Source) (P : Nat → Prop) (n : Node) (i : Nat) : Prop :=
  ∀ c ∈ n.parts, ∀ a b, s.Stands c a b → i < a → a < b → P a

variable {s : Source} {n c : Node} {i j k : Nat} {P : Nat → Prop}

theorem Stands.token (h : s.Stands c i j) (hc : c.IsToken s.buffer) : j = i + 1 := by
  rw [h.spans.stop_eq, hc]

theorem Stands.lexeme (h : s.Stands c i j) (hc : c.IsLexeme s.buffer) : j = i + 1 := by
  obtain ⟨value, hspells, hvalue⟩ := hc
  exact (h.spells hspells hvalue).1

/-- What the rules pass over is accounted for. -/
theorem PassedOver.accounted {m : Node} (h : s.PassedOver m c) (hm : m.Within s.root)
    (hc : c ∈ m.parts) (hstands : s.Stands c i j) (hij : i < j) (caseLevels : Int) :
    s.Accounted caseLevels i := fun _ ht =>
  .inr ⟨m, c, hm, hc, h, (hstands.ends hij).first?_eq.trans ht⟩

theorem StandRun.append {xs ys : List Node} (h : s.StandRun (xs ++ ys) i j) :
    ∃ k, s.StandRun xs i k ∧ s.StandRun ys k j := by
  induction xs generalizing i with
  | nil => exact ⟨i, rfl, h⟩
  | cons x rest ih =>
    obtain ⟨k, hx, hrest⟩ := h
    obtain ⟨l, hxs, hys⟩ := ih hrest
    exact ⟨l, ⟨k, hx, hxs⟩, hys⟩

theorem StandRun.le {ns : List Node} (h : s.StandRun ns i j) : i ≤ j := by
  induction ns generalizing i with
  | nil => exact Nat.le_of_eq h
  | cons n rest ih =>
    obtain ⟨k, hn, hrest⟩ := h
    exact Nat.le_trans hn.le (ih hrest)

/-- A node with tokens stands in the run where it stands at all. -/
theorem StandRun.mem {ns : List Node} (h : s.StandRun ns i j) (hc : c ∈ ns) {a b : Nat}
    (hstands : s.Stands c a b) (hab : a < b) :
    ∃ front back, ns = front ++ c :: back ∧ s.StandRun front i a ∧ s.StandRun back b j := by
  obtain ⟨front, back, rfl⟩ := List.append_of_mem hc
  obtain ⟨k, hfront, l, hcs, hback⟩ := h.append
  obtain ⟨rfl, rfl⟩ := hstands.unique hab hcs
  exact ⟨front, back, rfl, hfront, hback⟩

/-- The place of a token is in one of the nodes. -/
theorem StandRun.exists_mem {ns : List Node} (h : s.StandRun ns i j) (hik : i ≤ k) (hkj : k < j) :
    ∃ c ∈ ns, ∃ a b, s.Stands c a b ∧ a ≤ k ∧ k < b := by
  induction ns generalizing i with
  | nil =>
    obtain rfl : i = j := h
    omega
  | cons n rest ih =>
    obtain ⟨l, hn, hrest⟩ := h
    rcases Nat.lt_or_ge k l with hkl | hlk
    · exact ⟨n, List.mem_cons_self, i, l, hn, hik, hkl⟩
    · obtain ⟨c, hc, hsplit⟩ := ih hrest hlk
      exact ⟨c, List.mem_cons_of_mem n hc, hsplit⟩

theorem SpanRun.standRun {ns : List Node} (h : s.SpanRun ns i j)
    (hns : ∀ n ∈ ns, ∀ a b, s.Spans n a b → s.Stands n a b) : s.StandRun ns i j := by
  induction ns generalizing i with
  | nil => exact h
  | cons n rest ih =>
    obtain ⟨k, hn, hrest⟩ := h
    exact ⟨k, hns n List.mem_cons_self _ _ hn,
      ih hrest fun m hm => hns m (List.mem_cons_of_mem n hm)⟩

/-- The parts of a construct stand directly one behind the other. -/
theorem Stands.standRun_parts (h : s.Stands n i j) (hn : n.IsCompound) (hchildren : n.children ≠ []) :
    s.StandRun n.parts i j :=
  (h.run_parts hn hchildren).standRun fun _ hd _ _ hspans => h.of_spans (List.mem_filter.1 hd).1 hspans

theorem Stands.standRun (h : s.Stands n i j) (hn : n.IsCompound) {ns : List Node}
    (hparts : n.parts = ns) (hne : ns ≠ []) : s.StandRun ns i j := by
  rw [← hparts]
  refine h.standRun_parts hn ?_
  rintro hnil
  exact hne (by simp [← hparts, Node.parts, hnil])

/-- A leaf, or a literal, makes one token at most. -/
theorem Stands.stop_le (h : s.Stands n i j)
    (hleaf : (Node.isAtomicKind n.kind || n.children.isEmpty) = true) : j ≤ i + 1 := by
  have hcount : (n.pieces s.buffer).length ≤ 1 := by
    rw [Node.pieces_eq, if_pos hleaf]
    split_ifs
    · exact Nat.zero_le 1
    · exact Nat.le_refl 1
    · rename_i hkind
      rw [hkind, Bool.or_eq_true, List.isEmpty_iff] at hleaf
      rw [hleaf.resolve_left (by decide)]
      exact Nat.le_refl 1
    · exact Nat.le_refl 1
  have hle : Piece.codeCount (n.pieces s.buffer) ≤ (n.pieces s.buffer).length := List.countP_le_length
  have := h.spans.stop_eq
  omega

theorem StandRun.runBegins {ns : List Node} (h : s.StandRun ns i j)
    (hall : ∀ c ∈ ns, ∀ a b, i ≤ a → b ≤ j → s.Stands c a b → P a) : s.RunBegins P ns i j := by
  induction ns generalizing i with
  | nil => exact h
  | cons n rest ih =>
    obtain ⟨k, hn, hrest⟩ := h
    exact ⟨k, hn, hall n List.mem_cons_self i k (Nat.le_refl i) hrest.le hn,
      ih hrest fun c hc a b hka => hall c (List.mem_cons_of_mem n hc) a b (Nat.le_trans hn.le hka)⟩

theorem RunBegins.append {xs ys : List Node} (hxs : s.RunBegins P xs i k)
    (hys : s.RunBegins P ys k j) : s.RunBegins P (xs ++ ys) i j := by
  induction xs generalizing i with
  | nil =>
    obtain rfl : i = k := hxs
    exact hys
  | cons x rest ih =>
    obtain ⟨l, hx, hi, hrest⟩ := hxs
    exact ⟨l, hx, hi, ih hrest⟩

theorem RunBegins.mem {ns : List Node} (h : s.RunBegins P ns i j) (hc : c ∈ ns) {a b : Nat}
    (hstands : s.Stands c a b) (hab : a < b) : P a := by
  induction ns generalizing i with
  | nil => cases hc
  | cons n rest ih =>
    obtain ⟨k, hn, hi, hrest⟩ := h
    rcases List.mem_cons.1 hc with rfl | hc
    · obtain ⟨rfl, -⟩ := hstands.unique hab hn
      exact hi
    · exact ih hrest hc

theorem PartsBegin.of_runBegins {ns : List Node} (hparts : n.parts = ns)
    (h : s.RunBegins (fun a => i < a → P a) ns k j) : s.PartsBegin P n i := by
  intro c hc a b hstands hia hab
  exact h.mem (hparts ▸ hc) hstands hab hia

theorem RunBegins.mono {Q : Nat → Prop} {ns : List Node} (h : s.RunBegins P ns i j)
    (hall : ∀ a, P a → Q a) : s.RunBegins Q ns i j := by
  induction ns generalizing i with
  | nil => exact h
  | cons n rest ih =>
    obtain ⟨k, hn, hi, hrest⟩ := h
    exact ⟨k, hn, hall i hi, ih hrest⟩

theorem PartsBegin.of_run {x : Node} {rest : List Node} (hparts : n.parts = x :: rest)
    (hx : s.Stands x i k) (h : s.RunBegins P rest k j) : s.PartsBegin P n i :=
  .of_runBegins hparts
    ⟨k, hx, fun hlt => absurd hlt (Nat.lt_irrefl i), h.mono fun _ ha _ => ha⟩

/-- A property holds at all places of a construct behind the first, if it does where the parts
begin and within the parts. -/
theorem PartsBegin.forall (h : s.PartsBegin P n i) (hn : n.IsCompound) (hstands : s.Stands n i j)
    (hinside : ∀ c ∈ n.parts, ∀ a b, s.Stands c a b → ∀ k, a < k → k < b → P k) :
    ∀ k, i < k → k < j → P k := by
  intro k hik hkj
  by_cases hchildren : n.children = []
  · have := hstands.stop_le (by simp [hchildren])
    omega
  obtain ⟨c, hc, a, b, hcs, hak, hkb⟩ :=
    (hstands.standRun_parts hn hchildren).exists_mem (Nat.le_of_lt hik) hkj
  rcases Nat.eq_or_lt_of_le hak with rfl | hlt
  · exact h c hc a b hcs hik hkb
  · exact hinside c hc a b hcs k hlt hkb

end Source

end ScriptIndent
