import Mathlib.Logic.Relation
import ScriptIndent.Proofs.Rule.Parts

/-!
# ScriptIndent.Proofs.Rule.Links

Chains of accesses and calls.

```
promise
    .then(a)      the signs, the names and the opening delimiters of all links are indented from
    ?.[b]         the first token of the outermost link, here promise
    `c`
```

A link begins with what it accesses or calls (`Node.Extends`), so all links of a chain begin with
one token (`Source.stands_of_isAccessed`).  Its rule records its own nodes relative to that token.
Each of them stands directly behind another part of the link, and none of the parts is a
parenthesis; so no later visit reaches it (`Source.Orderly.get?_of_part`), and what is recorded lasts
(`Source.link_collapses`).
-/

namespace ScriptIndent

namespace Node

/-- The sign of an optional access or call. -/
structure IsOptionalSign (b : Buffer) (n : Node) : Prop where
  kind_eq : n.kind = "optional_chain"
  code : n.IsCode
  children_eq : n.children = []
  lt : n.start < n.stop
  text_eq : b.text n.start n.stop = "?."

instance (b : Buffer) (n : Node) : Decidable (n.IsOptionalSign b) :=
  decidable_of_iff (n.kind = "optional_chain" ∧ (n.isNamed = true ∧ n.isComment = false) ∧
      n.children.isEmpty = true ∧ n.start < n.stop ∧ b.text n.start n.stop = "?.") <| by
    rw [List.isEmpty_iff]
    exact ⟨fun h => ⟨h.1, h.2.1, h.2.2.1, h.2.2.2.1, h.2.2.2.2⟩,
      fun h => ⟨h.kind_eq, h.code, h.children_eq, h.lt, h.text_eq⟩⟩

/-- The kinds of links: accesses by name, accesses by index, and calls. -/
def linkKinds : List String := ["member_expression", "subscript_expression", "call_expression"]

/-- What a link accesses or calls. -/
def accessed? (n : Node) : Option Node :=
  if n.kind = "call_expression" then n.field? "function" else n.field? "object"

/-- A link with what it accesses or calls, and its own nodes that are indented with the chain: signs
and names, the delimiters that open an index or a list of arguments, and templates behind a tag. -/
inductive Extends (b : Buffer) (n base : Node) : List Node → Prop
  | name {sign property : Node} (kind_eq : n.kind = "member_expression")
      (object : n.IsPart "object" base) (spells : sign.Spells b "." ∨ sign.IsOptionalSign b)
      (part : n.IsPart "property" property) (parts_eq : n.parts = [base, sign, property]) :
      Extends b n base [sign, property]
  | index {optional : Option Node} {opening item closing : Node}
      (kind_eq : n.kind = "subscript_expression") (object : n.IsPart "object" base)
      (signs : ∀ sign ∈ optional, sign.IsOptionalSign b) (opens : opening.Spells b "[")
      (part : n.IsPart "index" item) (closes : closing.Spells b "]")
      (parts_eq : n.parts = base :: (optional.toList ++ [opening, item, closing])) :
      Extends b n base (optional.toList ++ [opening])
  | call {optional : Option Node} {list opening closing : Node} {inner : List Node}
      (kind_eq : n.kind = "call_expression") (callee : n.IsPart "function" base)
      (signs : ∀ sign ∈ optional, sign.IsOptionalSign b) (part : n.IsPart "arguments" list)
      (compound : list.IsCompound) (children_eq : list.children = opening :: (inner ++ [closing]))
      (opens : opening.Spells b "(") (closes : closing.Spells b ")")
      (parts_eq : n.parts = base :: (optional.toList ++ [list])) :
      Extends b n base (optional.toList ++ [opening])
  | tagged {template : Node} (kind_eq : n.kind = "call_expression")
      (callee : n.IsPart "function" base) (part : n.IsPart "arguments" template)
      (template_kind : template.kind = "template_string") (parts_eq : n.parts = [base, template]) :
      Extends b n base [template]

/-- A node is what the link directly around it accesses or calls. -/
def Placed.IsAccessed (p q : Placed) : Prop :=
  p.ancestors = q.node :: q.ancestors ∧ q.node.kind ∈ linkKinds ∧ q.node.accessed? = some p.node

variable {b : Buffer} {n base : Node} {marks : List Node}

namespace Extends

variable (h : n.Extends b base marks)

include h

/-- A link accesses or calls the part that it begins with. -/
theorem begins : n.accessed? = some base ∧ base ∈ n.codeChildren ∧ ∃ rest, n.parts = base :: rest := by
  cases h with
  | name kind_eq object _ _ parts_eq =>
    exact ⟨by rw [accessed?, kind_eq]; exact object.1, object.2, _, parts_eq⟩
  | index kind_eq object _ _ _ _ parts_eq =>
    exact ⟨by rw [accessed?, kind_eq]; exact object.1, object.2, _, parts_eq⟩
  | call kind_eq callee _ _ _ _ _ _ parts_eq =>
    exact ⟨by rw [accessed?, kind_eq]; exact callee.1, callee.2, _, parts_eq⟩
  | tagged kind_eq callee _ _ parts_eq =>
    exact ⟨by rw [accessed?, kind_eq]; exact callee.1, callee.2, _, parts_eq⟩

theorem kind_mem : n.kind ∈ linkKinds := by
  cases h with
  | name kind_eq => rw [kind_eq]; decide
  | index kind_eq => rw [kind_eq]; decide
  | call kind_eq => rw [kind_eq]; decide
  | tagged kind_eq => rw [kind_eq]; decide

/-- Links have the shapes that the grammar gives accesses and calls. -/
theorem shaped : n.Shaped b := by
  have hturn {nodes : List Node} (hnodes : nodes.Sublist n.parts) : n.InTurn nodes :=
    hnodes.trans List.filter_sublist
  cases h with
  | @name sign property kind_eq object spells part parts_eq =>
    refine .of_shape .member (by rw [kind_eq]; decide)
      ⟨base, sign, property, object, ?_, part, hturn (parts_eq ▸ .refl _)⟩
    exact spells.imp_right fun sign => ⟨sign.kind_eq, sign.code, sign.children_eq⟩
  | @index optional opening item closing kind_eq object _ opens part closes parts_eq =>
    refine .of_shape .subscript (by rw [kind_eq]; decide)
      ⟨base, opening, item, closing, object, opens, part, closes, hturn (parts_eq ▸ ?_)⟩
    exact (List.sublist_append_right ..).cons_cons base
  | @call optional list opening closing inner kind_eq callee _ part compound children_eq opens closes
      parts_eq =>
    refine .of_shape .call (by rw [kind_eq]; decide) fun arguments harguments => ?_
    obtain rfl := Option.mem_unique part.1 harguments
    refine ⟨part.2, .inr ⟨compound, opening, inner, closing, children_eq, opens, closes⟩, base,
      callee, hturn (parts_eq ▸ ?_)⟩
    exact (List.sublist_append_right ..).cons_cons base
  | tagged kind_eq callee part template_kind parts_eq =>
    refine .of_shape .call (by rw [kind_eq]; decide) fun arguments harguments => ?_
    obtain rfl := Option.mem_unique part.1 harguments
    exact ⟨part.2, .inl template_kind, base, callee, hturn (parts_eq ▸ .refl _)⟩

/-- No part of a link is a parenthesis. -/
theorem noParen : ∀ c ∈ n.parts, c.NoParen b := by
  have hsign {optional : Option Node} (hsigns : ∀ sign ∈ optional, sign.IsOptionalSign b) :
      ∀ c ∈ optional.toList, c.NoParen b := fun c hc => .inl (hsigns c (by simpa using hc)).code
  cases h with
  | name _ object spells part parts_eq =>
    simp only [parts_eq, List.forall_mem_cons, List.not_mem_nil, false_implies, implies_true,
      and_true]
    refine ⟨.inl object.isCode, ?_, .inl part.isCode⟩
    rcases spells with spells | sign
    · exact .inr ⟨".", spells, by decide, by decide, by decide⟩
    · exact .inl sign.code
  | index _ object signs opens part closes parts_eq =>
    simp only [parts_eq, List.forall_mem_cons, List.forall_mem_append, List.not_mem_nil,
      false_implies, implies_true, and_true]
    exact ⟨.inl object.isCode, hsign signs, .inr ⟨"[", opens, by decide, by decide, by decide⟩,
      .inl part.isCode, .inr ⟨"]", closes, by decide, by decide, by decide⟩⟩
  | call _ callee signs part _ _ _ _ parts_eq =>
    simp only [parts_eq, List.forall_mem_cons, List.forall_mem_append, List.not_mem_nil,
      false_implies, implies_true, and_true]
    exact ⟨.inl callee.isCode, hsign signs, .inl part.isCode⟩
  | tagged _ callee part _ parts_eq =>
    simp only [parts_eq, List.forall_mem_cons, List.not_mem_nil, false_implies, implies_true,
      and_true]
    exact ⟨.inl callee.isCode, .inl part.isCode⟩

end Extends

end Node

namespace Source

variable {s : Source} {n base : Node} {ancestors marks : List Node} {i j : Nat}

/-- All visited accesses and calls are links of chains. -/
def Linked (s : Source) : Prop :=
  ∀ place ∈ s.root.visited [], place.node.kind ∈ Node.linkKinds →
    ∃ base marks, place.node.Extends s.buffer base marks

end Source

namespace Rule

open Draft

variable {s : Source} {n base : Node} {i j k l m : Nat} {anchor t : Token}

/-! ## what the rules of links record -/

section Records

variable (hanchor : s.At i anchor) (hfirst : s.firstOfNode? n = some anchor) (hil : i < l)
  (ht : s.At l t)

include hanchor hil ht

omit hil in
theorem token_ne (hil : i ≠ l) : t ≠ anchor := by
  rintro rfl
  exact hil (Source.eq_of_getElem? hanchor ht)

include hfirst

theorem access_records {property : Node} {sign : Token}
    (hproperty : n.field? "property" = some property) (hstands : s.Stands property (k + 1) m)
    (hkm : k + 1 < m) (hsign : s.At k sign)
    (hl : l = k ∨ l = k + 1) : (access s n).Records ⟨t, some anchor, 1⟩ := by
  have hbefore : s.before? property = some sign := by
    rw [(hstands.ends hkm).before?_eq, if_neg (by omega), Nat.add_sub_cancel]
    exact hsign
  rw [access, first_bind hfirst]
  refine records_part hproperty ?_
  rw [hbefore, require, pure_bind, (s.ends_token hsign).after?_eq]
  refine records_offsets ?_ (token_ne hanchor ht (by omega))
  rw [List.mem_cons, Option.mem_toList]
  rcases hl with rfl | rfl
  · exact .inl (Option.mem_unique ht hsign)
  · exact .inr ht

variable (hbase : s.Stands base i k) (hik : i < k) {opening : Token} (hopening : s.At m opening)
  (hkl : k ≤ l) (hlm : l ≤ m) (hoptional : l < m → t.isOptionalChain = true)

include hbase hik hopening hkl hlm hoptional

omit hfirst in
/-- The sign of an optional access, or the delimiter behind it, is recorded. -/
theorem opening_records {β : Type} {rest : Draft β}
    (hrest : rest.Meets (Entry.Elsewhere s l) fun _ => True) :
    (do
      offsets (s.betweenWhere Token.isOptionalChain base opening) 1 anchor
      offset opening 1 anchor
      rest).Records ⟨t, some anchor, 1⟩ := by
  have hne := token_ne hanchor ht (by omega)
  rcases Nat.lt_or_eq_of_le hlm with hlt | rfl
  · have hmem : t ∈ s.betweenWhere Token.isOptionalChain base opening := by
      rw [(hbase.ends hik).betweenWhere_eq (s.ends_token hopening)]
      refine List.mem_filter.2 ⟨List.mem_of_getElem? (i := l - k) ?_, hoptional hlt⟩
      rw [Array.getElem?_toList, Array.getElem?_extract, if_pos (by
        have := (Array.getElem?_eq_some_iff.1 hopening).1
        omega), Nat.add_sub_cancel' hkl]
      exact ht
    exact (records_offsets hmem hne).elsewhere ht
      ((meets_offset_elsewhere (by omega) hopening).next hrest)
  · obtain rfl := Option.mem_unique ht hopening
    exact (meets_write (E := fun _ => True) fun _ _ => trivial).records fun _ _ =>
      (records_offset hne).elsewhere ht hrest

theorem subscript_records {item : Node} {p : Nat} (hobject : n.field? "object" = some base)
    (hitem : n.field? "index" = some item) (hopens : opening.isOpeningBracket = true)
    (hstands : s.Stands item (m + 1) p) (hmp : m + 1 < p) {closing : Token}
    (hclosing : s.At p closing) (hcloses : closing.isClosingBracket = true) :
    (subscript s n).Records ⟨t, some anchor, 1⟩ := by
  have hends := hstands.ends hmp
  have hleft : s.beforeWhere? Token.isOpeningBracket item = some opening := by
    obtain ⟨q, u, hmq, hqm, hu, -, hscan⟩ :=
      Source.exists_scanDown (Nat.lt_succ_self m) hopening hopens
    obtain rfl : q = m := by omega
    rw [hends.beforeWhere?_eq, hscan]
    exact hu.symm.trans hopening
  have hright : s.afterWhere? Token.isClosingBracket item = some closing :=
    hends.afterWhere?_eq_some hclosing hcloses
  rw [subscript, first_bind hfirst]
  refine records_part hitem ?_
  rw [hleft, require, pure_bind]
  refine records_part hobject ?_
  rw [hright]
  refine opening_records hanchor hil ht hbase hik hopening hkl hlm hoptional
    (meets_elements_elsewhere (fun c hc => ?_) fun u hu => ?_)
  · obtain rfl := List.mem_singleton.1 hc
    exact ⟨m + 1, p, hstands, hmp, by omega⟩
  · obtain rfl := Option.some.inj hu
    exact ⟨p, by omega, hclosing⟩

theorem call_records_opening {list : Node} (hcallee : n.field? "function" = some base)
    (hlist : n.field? "arguments" = some list) (hkind : list.kind ≠ "template_string")
    (hstands : s.Stands list m j) (hmj : m + 1 < j)
    (hinner : ∀ c ∈ list.codeChildren, ∃ a b, m < a ∧ a < b ∧ b < j ∧ s.Stands c a b) :
    (call s n).Records ⟨t, some anchor, 1⟩ := by
  have hends := hstands.ends (by omega)
  obtain ⟨closing, hclosing, hlast⟩ := hends.exists_last?
  simp only [call, hlist, beq_iff_eq, hkind, if_false]
  rw [first_bind hfirst, first_bind (hends.first?_eq.trans hopening), last,
    show s.lastOfNode? list Token.isAny = some closing from hlast, require, pure_bind]
  refine records_part hcallee ?_
  refine opening_records hanchor hil ht hbase hik hopening hkl hlm hoptional
    (meets_elements_elsewhere (fun c hc => ?_) fun u hu => ?_)
  · obtain ⟨a, b, hma, hab, -, hc⟩ := hinner c hc
    exact ⟨a, b, hc, hab, by omega⟩
  · obtain rfl := Option.some.inj hu
    exact ⟨j - 1, by omega, hclosing⟩

end Records

/-- A tagged template is recorded relative to its tag. -/
theorem tagged_records {template : Node} (htag : n.field? "function" = some base)
    (htemplate : n.field? "arguments" = some template) (hkind : template.kind = "template_string")
    (hanchor : s.firstOfNode? base = some anchor) (ht : s.firstOfNode? template = some t)
    (hne : t ≠ anchor) : (call s n).Records ⟨t, some anchor, 1⟩ := by
  simp only [call, htemplate, beq_iff_eq, hkind, if_true]
  have htag : firstOf s (n.field? "function") = pure anchor := by
    rw [htag, firstOf, part, pure_bind, first, hanchor, require]
  rw [first_bind ht, htag, pure_bind]
  exact records_offset hne

end Rule

namespace Source

variable {s : Source} {n base : Node} {ancestors marks : List Node} {i j : Nat}

/-! ## what lasts -/

theorem exists_ofKind?_of_linkKinds {kind : String} (h : kind ∈ Node.linkKinds) :
    ∃ construct, Construct.ofKind? kind = some construct ∧ construct ≠ .plain ∧
      construct ≠ .templateLiteral := by
  have hall : ∀ kind ∈ Node.linkKinds, ∃ construct ∈ [Construct.member, .subscript, .call],
      Construct.ofKind? kind = some construct := by decide
  obtain ⟨construct, hmem, hrule⟩ := hall kind h
  simp only [List.mem_cons, List.not_mem_nil, or_false] at hmem
  refine ⟨construct, hrule, ?_, ?_⟩ <;> rcases hmem with rfl | rfl | rfl <;> decide

/-- The sign of an optional access is one token. -/
theorem Stands.of_isOptionalSign {c : Node} {a b : Nat} (hc : s.Stands c a b)
    (h : c.IsOptionalSign s.buffer) : b = a + 1 ∧ ∃ t, s.At a t ∧ t.isOptionalChain = true := by
  have hspelling : Node.IsSpelling c.kind := by
    rw [h.kind_eq]
    decide
  obtain ⟨hb, hat⟩ := hc.at_of_pieces (Node.pieces_of_leaf h.lt hspelling h.children_eq)
    (Node.ofLeaf_isComment hspelling.1 _ _ _ _)
  refine ⟨hb, _, hat, ?_⟩
  rw [Token.isOptionalChain, Token.isPunctuator, Bool.and_eq_true, beq_iff_eq, beq_iff_eq]
  refine ⟨?_, h.text_eq⟩
  rw [Buffer.token, h.kind_eq]
  rfl

/-- In the end the token that a node begins with, behind a place, is one level deeper than another
token. -/
def Hangs (s : Source) (caseLevels : Int) (i : Nat) (anchor : Token) (c : Node) : Prop :=
  ∃ l t, i < l ∧ s.At l t ∧ s.firstOfNode? c = some t ∧
    (s.analyze caseLevels).registry.get? t = some ⟨t, some anchor, 1⟩

section Hangs

variable (h : s.Orderly) (hplace : ⟨n, ancestors⟩ ∈ s.root.visited []) (hn : s.Stands n i j)
  (hparens : ∀ c ∈ n.parts, c.NoParen s.buffer) {anchor : Token} (hanchor : s.At i anchor)
  (caseLevels : Int)

include h hplace hn hparens hanchor

theorem Orderly.hangs_of_name {sign property : Node} (hkind : n.kind = "member_expression")
    (hobject : n.IsPart "object" base)
    (hsign : sign.Spells s.buffer "." ∨ sign.IsOptionalSign s.buffer)
    (hproperty : n.IsPart "property" property) (hparts : n.parts = [base, sign, property])
    {mark : Node} (hmark : mark ∈ [sign, property]) : s.Hangs caseLevels i anchor mark := by
  have hrule : Construct.ofKind? n.kind = some .member := by rw [hkind]; decide
  have hcompound := Node.isCompound_of_ofKind? hrule (by simp) (by simp)
  obtain ⟨hrun, hstands⟩ := hn.run_of_parts hcompound hparts
  obtain ⟨k, hbase, m, hlink, q, hname, rfl⟩ := hrun
  have hik := hn.lt_of_mem hobject.2 (hstands _ (by simp) _ _ hbase)
  have hnameStands := hstands _ (by simp) _ _ hname
  have hmq := hn.lt_of_mem hproperty.2 hnameStands
  have hlinkStands := hstands _ (by simp) _ _ hlink
  obtain ⟨rfl, dot, hdot⟩ : m = k + 1 ∧ ∃ t, s.At k t := by
    rcases hsign with hsign | hsign
    · obtain ⟨rfl, t, ht, -⟩ := hlinkStands.spells hsign (by decide)
      exact ⟨rfl, t, ht⟩
    · obtain ⟨rfl, t, ht, -⟩ := hlinkStands.of_isOptionalSign hsign
      exact ⟨rfl, t, ht⟩
  have hfirst := (hn.ends (by omega)).first?_eq.trans hanchor
  have hlast {l : Nat} {t : Token} (ht : s.At l t) (hl : l = k ∨ l = k + 1) {front back : List Node}
      {c : Node} (hsplit : n.parts = front ++ c :: back) (hfront : front ≠ [])
      (hxs : s.SpanRun front i l) (hys : s.SpanRun (c :: back) l q) :
      (s.analyze caseLevels).registry.get? t = some ⟨t, some anchor, 1⟩ :=
    h.get?_of_part (e := ⟨t, some anchor, 1⟩) hplace hrule hn hparens hcompound
      (by rw [hkind]; decide) (by rw [hkind]; decide) hsplit hfront hxs hys ht
      (Rule.access_records hanchor hfirst (by omega) ht hproperty.1 hnameStands hmq hdot hl)
  simp only [List.mem_cons, List.not_mem_nil, or_false] at hmark
  rcases hmark with rfl | rfl
  · exact ⟨k, dot, hik, hdot, (hlinkStands.ends (Nat.lt_succ_self k)).first?_eq.trans hdot,
      hlast hdot (.inl rfl) (show n.parts = [base] ++ [mark, property] from hparts) (by simp)
        ⟨k, hbase, rfl⟩ ⟨_, hlink, _, hname, rfl⟩⟩
  · obtain ⟨t, ht, hfirstOf⟩ := (hnameStands.ends hmq).exists_first?
    exact ⟨k + 1, t, by omega, ht, hfirstOf,
      hlast ht (.inr rfl) (show n.parts = [base, sign] ++ [mark] from hparts) (by simp)
        ⟨k, hbase, _, hlink, rfl⟩ ⟨_, hname, rfl⟩⟩

omit hanchor in
/-- The sign of an optional access or call, and the delimiter behind it. -/
theorem Orderly.hangs_of_opening {construct : Construct}
    (hrule : Construct.ofKind? n.kind = some construct) (hcompound : n.IsCompound)
    (hstatement : Construct.isStatementKind n.kind = false) (hkind : n.kind ≠ "class_body")
    {optional : Option Node} (hsigns : ∀ sign ∈ optional, sign.IsOptionalSign s.buffer) {c : Node}
    {back : List Node} (hparts : n.parts = base :: (optional.toList ++ c :: back)) {k m : Nat}
    (hbase : s.Spans base i k) (hoptional : s.SpanRun optional.toList k m)
    (hback : s.SpanRun (c :: back) m j) {opening : Token} (hopening : s.At m opening)
    {start : Node} (hstart : s.firstOfNode? start = some opening)
    (hrecords : ∀ l t, i < l → s.At l t → k ≤ l → l ≤ m → (l < m → t.isOptionalChain = true) →
      (Rule.ofConstruct s caseLevels ancestors n construct).Records ⟨t, some anchor, 1⟩)
    {mark : Node} (hmark : mark ∈ optional.toList ++ [start]) : s.Hangs caseLevels i anchor mark := by
  have hik := (h.part_parens hplace hrule hn hparens (hparts ▸ List.mem_cons_self) hbase).1
  have hkm := (hoptional.chain (List.nil_sublist _)).le
  have hlast {l : Nat} {t : Token} (ht : s.At l t) (hkl : k ≤ l) (hlm : l ≤ m)
      (hchain : l < m → t.isOptionalChain = true) {front back : List Node} {c : Node}
      (hsplit : n.parts = front ++ c :: back) (hfront : front ≠ []) (hxs : s.SpanRun front i l)
      (hys : s.SpanRun (c :: back) l j) :
      (s.analyze caseLevels).registry.get? t = some ⟨t, some anchor, 1⟩ :=
    h.get?_of_part (e := ⟨t, some anchor, 1⟩) hplace hrule hn hparens hcompound hstatement hkind
      hsplit hfront hxs hys ht (hrecords l t (by omega) ht hkl hlm hchain)
  rcases List.mem_append.1 hmark with hmem | hmem
  · obtain rfl : optional = some mark := by simpa using hmem
    have hsign := hsigns mark rfl
    obtain ⟨m', hspans, rfl⟩ := hoptional
    have hstands := hn.of_spans (List.mem_filter.1 (hparts ▸ by simp : mark ∈ n.parts)).1 hspans
    obtain ⟨rfl, t, ht, hchain⟩ := hstands.of_isOptionalSign hsign
    exact ⟨k, t, hik, ht, (hstands.ends (Nat.lt_succ_self k)).first?_eq.trans ht,
      hlast ht (Nat.le_refl k) hkm (fun _ => hchain)
        (show n.parts = [base] ++ mark :: c :: back from hparts) (by simp) ⟨k, hbase, rfl⟩
        ⟨_, hspans, hback⟩⟩
  · obtain rfl := List.mem_singleton.1 hmem
    exact ⟨m, opening, by omega, hopening, hstart,
      hlast hopening hkm (Nat.le_refl m) (fun hlt => absurd hlt (Nat.lt_irrefl m))
        (show n.parts = (base :: optional.toList) ++ c :: back from hparts) (by simp)
        ⟨k, hbase, hoptional⟩ hback⟩

theorem Orderly.hangs_of_index {optional : Option Node} {opening item closing : Node}
    (hkind : n.kind = "subscript_expression") (hobject : n.IsPart "object" base)
    (hsigns : ∀ sign ∈ optional, sign.IsOptionalSign s.buffer) (hopens : opening.Spells s.buffer "[")
    (hitem : n.IsPart "index" item) (hcloses : closing.Spells s.buffer "]")
    (hparts : n.parts = base :: (optional.toList ++ [opening, item, closing])) {mark : Node}
    (hmark : mark ∈ optional.toList ++ [opening]) : s.Hangs caseLevels i anchor mark := by
  have hrule : Construct.ofKind? n.kind = some .subscript := by rw [hkind]; decide
  have hcompound := Node.isCompound_of_ofKind? hrule (by simp) (by simp)
  obtain ⟨hrun, hstands⟩ := hn.run_of_parts hcompound hparts
  obtain ⟨k, hbase, hrun⟩ := hrun
  obtain ⟨m, hoptional, hback⟩ := hrun.append
  obtain ⟨m', hleft, p, hindex, q, hright, rfl⟩ := id hback
  have hbaseStands := hstands _ (by simp) _ _ hbase
  have hleftStands := hstands _ (by simp) _ _ hleft
  have hindexStands := hstands _ (by simp) _ _ hindex
  have hrightStands := hstands _ (by simp) _ _ hright
  have hik := hn.lt_of_mem hobject.2 hbaseStands
  have hmp := hn.lt_of_mem hitem.2 hindexStands
  have hkm := (hoptional.chain (List.nil_sublist _)).le
  obtain ⟨rfl, left, hleftAt, hleftValue, hleftKind⟩ := hleftStands.spells hopens (by decide)
  obtain ⟨rfl, right, hrightAt, hrightValue, hrightKind⟩ := hrightStands.spells hcloses (by decide)
  have hfirst := (hn.ends (by omega)).first?_eq.trans hanchor
  refine h.hangs_of_opening hplace hn hparens caseLevels hrule hcompound
    (by rw [hkind]; decide) (by rw [hkind]; decide) hsigns hparts hbase hoptional hback hleftAt
    ((hleftStands.ends (Nat.lt_succ_self m)).first?_eq.trans hleftAt)
    (fun l t hil ht hkl hlm hchain => ?_) hmark
  exact Rule.subscript_records hanchor hfirst hil ht hbaseStands hik hleftAt hkl hlm hchain
    hobject.1 hitem.1 (Rule.isPunctuator_of_value hleftValue hleftKind (by decide)) hindexStands hmp
    hrightAt (Rule.isPunctuator_of_value hrightValue hrightKind (by decide))

theorem Orderly.hangs_of_call {optional : Option Node} {list opening closing : Node}
    {inner : List Node} (hkind : n.kind = "call_expression") (hcallee : n.IsPart "function" base)
    (hsigns : ∀ sign ∈ optional, sign.IsOptionalSign s.buffer) (hlist : n.IsPart "arguments" list)
    (hlistCompound : list.IsCompound) (hchildren : list.children = opening :: (inner ++ [closing]))
    (hopens : opening.Spells s.buffer "(") (hcloses : closing.Spells s.buffer ")")
    (hparts : n.parts = base :: (optional.toList ++ [list])) {mark : Node}
    (hmark : mark ∈ optional.toList ++ [opening]) : s.Hangs caseLevels i anchor mark := by
  have hrule : Construct.ofKind? n.kind = some .call := by rw [hkind]; decide
  have hcompound := Node.isCompound_of_ofKind? hrule (by simp) (by simp)
  obtain ⟨hrun, hstands⟩ := hn.run_of_parts hcompound hparts
  obtain ⟨k, hbase, hrun⟩ := hrun
  obtain ⟨m, hoptional, hback⟩ := hrun.append
  obtain ⟨q, hlistSpans, rfl⟩ := id hback
  have hbaseStands := hstands _ (by simp) _ _ hbase
  have hlistStands := hstands _ (by simp) _ _ hlistSpans
  have hik := hn.lt_of_mem hcallee.2 hbaseStands
  have hkm := (hoptional.chain (List.nil_sublist _)).le
  -- the list begins with its parenthesis
  obtain ⟨hmq, -, -, hinner⟩ := hlistStands.enclosed
    ⟨hlistCompound, opening, inner, closing, hchildren, hopens, hcloses⟩ (by decide) (by decide)
  have hlistRun := hlistSpans.run hlistCompound (by simp [hchildren])
  rw [hchildren] at hlistRun
  obtain ⟨m', hopening, -⟩ := hlistRun
  have hopeningStands := hlistStands.of_spans (by simp [hchildren]) hopening
  obtain ⟨rfl, left, hleftAt, -⟩ := hopeningStands.spells hopens (by decide)
  have hfirst := (hn.ends (by omega)).first?_eq.trans hanchor
  refine h.hangs_of_opening hplace hn hparens caseLevels hrule hcompound
    (by rw [hkind]; decide) (by rw [hkind]; decide) hsigns hparts hbase hoptional hback hleftAt
    ((hopeningStands.ends (Nat.lt_succ_self m)).first?_eq.trans hleftAt)
    (fun l t hil ht hkl hlm hchain => ?_) hmark
  refine Rule.call_records_opening hanchor hfirst hil ht hbaseStands hik hleftAt hkl hlm hchain
    hcallee.1 hlist.1 (fun htemplate => ?_) hlistStands (by omega) hinner
  have hliteral := hlistCompound.2
  rw [htemplate] at hliteral
  exact absurd hliteral (by decide)

theorem Orderly.hangs_of_tagged {template : Node} (hkind : n.kind = "call_expression")
    (hcallee : n.IsPart "function" base) (htemplate : n.IsPart "arguments" template)
    (htemplateKind : template.kind = "template_string") (hparts : n.parts = [base, template]) :
    s.Hangs caseLevels i anchor template := by
  have hrule : Construct.ofKind? n.kind = some .call := by rw [hkind]; decide
  have hcompound := Node.isCompound_of_ofKind? hrule (by simp) (by simp)
  obtain ⟨hrun, hstands⟩ := hn.run_of_parts hcompound hparts
  obtain ⟨k, hbase, q, hspans, rfl⟩ := hrun
  have hbaseStands := hstands _ (by simp) _ _ hbase
  have hstands := hstands _ (by simp) _ _ hspans
  have hik := hn.lt_of_mem hcallee.2 hbaseStands
  obtain ⟨t, ht, hfirst⟩ := (hstands.ends (hn.lt_of_mem htemplate.2 hstands)).exists_first?
  refine ⟨k, t, hik, ht, hfirst, h.get?_of_part (e := ⟨t, some anchor, 1⟩) hplace hrule hn hparens
    hcompound (by rw [hkind]; decide) (by rw [hkind]; decide)
    (show n.parts = [base] ++ [template] from hparts) (by simp) ⟨k, hbase, rfl⟩ ⟨q, hspans, rfl⟩ ht
    ?_⟩
  exact Rule.tagged_records hcallee.1 htemplate.1 htemplateKind
    ((hbaseStands.ends hik).first?_eq.trans hanchor) hfirst (Rule.token_ne hanchor ht (by omega))

omit hparens in
/-- The own nodes of a link are indented from the token that the link begins with. -/
theorem Orderly.hangs_of_extends (hextends : n.Extends s.buffer base marks) {mark : Node}
    (hmark : mark ∈ marks) : s.Hangs caseLevels i anchor mark := by
  have hparens := hextends.noParen
  cases hextends with
  | name kind_eq object spells part parts_eq =>
    exact h.hangs_of_name hplace hn hparens hanchor caseLevels kind_eq object spells part parts_eq
      hmark
  | index kind_eq object signs opens part closes parts_eq =>
    exact h.hangs_of_index hplace hn hparens hanchor caseLevels kind_eq object signs opens part
      closes parts_eq hmark
  | call kind_eq callee signs part compound children_eq opens closes parts_eq =>
    exact h.hangs_of_call hplace hn hparens hanchor caseLevels kind_eq callee signs part compound
      children_eq opens closes parts_eq hmark
  | tagged kind_eq callee part template_kind parts_eq =>
    obtain rfl := List.mem_singleton.1 hmark
    exact h.hangs_of_tagged hplace hn hparens hanchor caseLevels kind_eq callee part template_kind
      parts_eq

end Hangs

/-! ## chains -/

/-- A link begins where what it accesses or calls begins. -/
theorem stands_of_isAccessed (g : s.root.Grammatical s.buffer) (hlinked : s.Linked)
    {p q : Node.Placed} (hp : p ∈ s.root.visited []) (hstands : s.Stands p.node i j) (hij : i < j)
    (haccessed : p.IsAccessed q) : q ∈ s.root.visited [] ∧ ∃ l, s.Stands q.node i l ∧ i < l := by
  obtain ⟨m, above⟩ := q
  obtain ⟨c, ancestors⟩ := p
  obtain ⟨rfl, hkind, hbase⟩ := haccessed
  obtain ⟨hparent, -⟩ := parent_mem_visited hp
  obtain ⟨base, marks, hextends⟩ := hlinked _ hparent hkind
  obtain ⟨hbase', -, rest, hparts⟩ := hextends.begins
  obtain rfl := Option.mem_unique hbase hbase'
  obtain ⟨construct, hrule, hplain, htemplate⟩ := exists_ofKind?_of_linkKinds hkind
  obtain ⟨a, b, hm⟩ := (found_of_visited g hparent).exists_stands hrule hplain
  obtain ⟨⟨k, hspans, hrest⟩, hall⟩ :=
    hm.run_of_parts (Node.isCompound_of_ofKind? hrule hplain htemplate) hparts
  obtain ⟨rfl, rfl⟩ := hstands.unique hij (hall _ List.mem_cons_self _ _ hspans)
  have := (hrest.chain (List.nil_sublist _)).le
  exact ⟨hparent, b, hm, by omega⟩

/-- All links of a chain begin where the first of them begins. -/
theorem stands_of_chain (g : s.root.Grammatical s.buffer) (hlinked : s.Linked) {p top : Node.Placed}
    (hp : p ∈ s.root.visited []) (hstands : s.Stands p.node i j) (hij : i < j)
    (hchain : Relation.ReflTransGen Node.Placed.IsAccessed p top) :
    top ∈ s.root.visited [] ∧ ∃ l, s.Stands top.node i l ∧ i < l := by
  induction hchain with
  | refl => exact ⟨hp, j, hstands, hij⟩
  | tail _ hstep ih =>
    obtain ⟨hvisited, l, hstands, hil⟩ := ih
    exact stands_of_isAccessed g hlinked hvisited hstands hil hstep

/-- The own nodes of each link of a chain are indented from the first token of the outermost link, in
the end. -/
theorem link_collapses (h : s.Orderly) (hlinked : s.Linked) {p top : Node.Placed}
    (hp : p ∈ s.root.visited []) (hchain : Relation.ReflTransGen Node.Placed.IsAccessed p top)
    (hextends : p.node.Extends s.buffer base marks) (caseLevels : Int) :
    ∃ i anchor, s.At i anchor ∧ s.firstOfNode? top.node = some anchor ∧
      ∀ mark ∈ marks, s.Hangs caseLevels i anchor mark := by
  have g := h.grammatical
  obtain ⟨construct, hrule, hplain, htemplate⟩ := exists_ofKind?_of_linkKinds hextends.kind_mem
  obtain ⟨i, j, hn⟩ := (found_of_visited g hp).exists_stands hrule hplain
  obtain ⟨a, b, hia, hab, hbj, -⟩ :=
    hn.child (Node.isCompound_of_ofKind? hrule hplain htemplate) hextends.begins.2.1
  obtain ⟨-, l, hstands, hil⟩ := stands_of_chain g hlinked hp hn (by omega) hchain
  obtain ⟨anchor, hanchor, hfirst⟩ := (hstands.ends hil).exists_first?
  exact ⟨i, anchor, hanchor, hfirst, fun mark hmark =>
    h.hangs_of_extends hp hn hanchor caseLevels hextends hmark⟩

end Source

end ScriptIndent
