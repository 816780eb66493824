import ScriptIndent.Proofs.Rule.Control

/-!
# ScriptIndent.Proofs.Rule.Functions

Functions, classes and members of the right shape: the rules go through, and what
they draft stays inside.
-/

namespace ScriptIndent.Rule

open Draft

variable {s : Source} {n : Node} {i j : Nat}

/-! ## lists of parameters -/

/-- The tokens between two anchors stand behind the one and before the other. -/
theorem exists_at_of_mem_between {a b : Anchor} {k l k' l' : Nat} (ha : s.Ends a k l)
    (hb : s.Ends b k' l') {keep : Token → Bool} {t : Token}
    (ht : t ∈ s.betweenWhere keep a b) : ∃ m, l ≤ m ∧ m < k' ∧ s.At m t := by
  rw [ha.betweenWhere_eq hb] at ht
  exact Source.mem_extract (List.mem_filter.1 ht).1

theorem mem_of_mem_headLevels {name : Option Node} {levels : Int} {ts : List Token}
    {p : Token × Int} (h : p ∈ headLevels name levels ts) : p.1 ∈ ts := by
  induction ts generalizing levels with
  | nil => simp [headLevels] at h
  | cons t rest ih =>
    rw [headLevels] at h
    split at h
    · simp at h
    · rcases List.mem_cons.1 h with rfl | h
      · exact List.mem_cons_self
      · exact List.mem_cons_of_mem t (ih h)

/-- A list in parentheses under a field, anchored to its opening parenthesis. -/
theorem list_staysInside {c : Node} {k l : Nat} (hc : s.Stands c k l)
    (henclosed : c.Enclosed s.buffer "(" ")") (hik : i ≤ k) (hlj : l ≤ j) {left right : Token}
    (hleft : s.At k left) (hright : s.At (l - 1) right) (levels : Int) :
    (elements s c.codeChildren left right levels).StaysInside s i j := by
  obtain ⟨hkl, -, -, hinner⟩ := hc.enclosed henclosed (by decide) (by decide)
  refine meets_elements hleft (fun x hx => ?_) fun x hx => ?_
  · obtain ⟨p, q, hkp, hpq, hql, hxstands⟩ := hinner x hx
    exact ⟨p, q, hxstands, hpq, by omega⟩
  · obtain rfl := Option.some.inj hx
    exact ⟨l - 1, hright, by omega⟩

/-- What the rule of a function drafts stands before any place behind the parameters and
the first token of the body. -/
theorem function_inside {parameters statement : Node} {k l a b e : Nat} (h : s.Stands n i j)
    (hparameters : n.IsPart "parameters" parameters)
    (henclosed : parameters.Enclosed s.buffer "(" ")") (hlist : s.Stands parameters k l)
    (hik : i ≤ k) (hlj : l ≤ j) (hle : l ≤ e) (hstatement : n.IsPart "body" statement)
    (hbody : s.Stands statement a b) (hab : a < b) (hia : i ≤ a) (hae : a < e) :
    (function s n).StaysInside s i e := by
  have hkl := (hlist.enclosed henclosed (by decide) (by decide)).1
  refine (meets_first h (by omega)).bind fun keyword hkeyword => ?_
  refine meets_part hparameters.1 ?_
  refine (meets_first hlist (by omega)).bind fun left hleft => ?_
  refine Meets.next (meets_each fun p hp => ?_) ?_
  · obtain ⟨m, him, hmk, hm⟩ := exists_at_of_mem_between (s.ends_token hkeyword)
      (s.ends_token hleft) (mem_of_mem_headLevels hp)
    exact meets_offset hkeyword hm (by omega)
  refine (meets_last hlist (by omega)).bind fun right hright => ?_
  refine (meets_offset hkeyword hleft (by omega)).next ?_
  refine (list_staysInside hlist henclosed hik hle hleft hright 1).next ?_
  exact (meets_firstOf hstatement.1 hbody hab).bind fun token htoken =>
    meets_offset hkeyword htoken (by omega)

theorem function_staysInside (h : s.Stands n i j) (hn : n.IsCompound)
    (hshape : n.FunctionShape s.buffer) : (function s n).StaysInside s i j := by
  obtain ⟨parameters, statement, hparameters, henclosed, hstatement⟩ := hshape
  obtain ⟨k, l, hik, -, hlj, hlist⟩ := h.child hn hparameters.2
  obtain ⟨a, b, hia, hab, hbj, hbody⟩ := h.child hn hstatement.2
  exact function_inside h hparameters henclosed hlist hik hlj hlj hstatement hbody hab hia
    (by omega)

/-! ## arrow functions -/

/-- A name is no parenthesis. -/
theorem isOpeningParen_of_identifier (h : s.Stands n i j) (hlt : i < j)
    (hkind : n.kind = "identifier") (hchildren : n.children = []) (hnamed : n.isNamed = true)
    {t : Token} (ht : s.At i t) : t.isOpeningParen = false := by
  have hstop := h.spans.stop_eq
  have hstretch := h.spans.stretch
  have hcomment : n.isComment = false := by rw [Node.isComment, hkind]; decide
  rw [Node.pieces_eq, if_neg (c := n.isComment = true) (by simp [hcomment]),
    if_neg (c := n.kind = "template_string") (by rw [hkind]; decide),
    if_pos (c := (Node.isAtomicKind n.kind || n.children.isEmpty) = true) (by simp [hchildren]),
    hkind, hnamed] at hstop hstretch
  split at hstop
  · simp at hstop
    omega
  · next hne =>
    rw [if_neg hne] at hstretch
    have hget := hstretch.getElem?_tokens (k := 0)
      (p := ⟨.ofLeaf "identifier" true (s.buffer.text n.start n.stop), n.start, n.stop⟩)
      (by rw [List.filter_cons_of_pos (by rw [Node.ofLeaf_isComment (by decide)]; rfl)]; rfl)
    rw [Option.mem_unique ht hget]
    rfl

/-- The parameters of an arrow function close within their parentheses. -/
theorem arrowParameters_staysInside {c : Node} {k l : Nat} (hc : s.Stands c k l)
    (hfield : n.field? "parameters" = some c) (henclosed : c.Enclosed s.buffer "(" ")")
    (hik : i ≤ k) (hlj : l ≤ j) {left : Token} (hleft : s.At k left) :
    (arrowParameters s n left).StaysInside s i j := by
  obtain ⟨hkl, -, ⟨u, hu, hvalue, hkind⟩, hinner⟩ :=
    hc.enclosed henclosed (by decide) (by decide)
  have hclosing := isPunctuator_of_value hvalue hkind (by decide)
  unfold arrowParameters
  simp only [hfield, Option.elim_some]
  refine meets_elements hleft (fun x hx => ?_) fun x hx => ?_
  · obtain ⟨p, q, hkp, hpq, hql, hxstands⟩ := hinner x hx
    exact ⟨p, q, hxstands, hpq, by omega⟩
  -- the search begins behind the last parameter, or behind the opening parenthesis
  obtain ⟨m, hkm, hml, hscan⟩ : ∃ m, k < m ∧ m ≤ l - 1 ∧
      Source.scanUp s.tokens Token.isClosingParen m = some x := by
    cases hlast : c.codeChildren.getLast? with
    | none =>
      rw [hlast, Option.elim_none, (s.ends_token hleft).afterWhere?_eq] at hx
      exact ⟨k + 1, by omega, by omega, hx⟩
    | some final =>
      obtain ⟨p, q, hkp, hpq, hql, hfstands⟩ := hinner final (List.mem_of_getLast? hlast)
      rw [hlast, Option.elim_some, (hfstands.ends hpq).afterWhere?_eq] at hx
      exact ⟨q, by omega, by omega, hx⟩
  obtain ⟨a, t, hma, hal, ht, -, hfound⟩ := Source.exists_scanUp hml hu hclosing
  obtain rfl := Option.mem_unique hscan hfound
  exact ⟨a, ht, by omega⟩

/-- The first child of a node without modifiers is a comment or its first part. -/
theorem head_isNotAsync {parameters : Node} {more : List Node}
    (hparts : n.parts = parameters :: more) (hkind : parameters.kind ≠ "async") :
    n.children.head?.any (·.kind == "async") = false := by
  cases hcs : n.children with
  | nil => rfl
  | cons c rest =>
    rw [List.head?_cons, Option.any_some, beq_eq_false_iff_ne]
    cases hcomment : c.isComment with
    | true =>
      rintro hasync
      rw [Node.isComment, hasync] at hcomment
      exact absurd hcomment (by decide)
    | false =>
      rw [Node.parts, hcs, List.filter_cons_of_pos (by simp [hcomment])] at hparts
      rw [(List.cons.inj hparts).1]
      exact hkind

/-- Where the parts of an arrow function stand. -/
theorem arrow_places (h : s.Stands n i j) (hn : n.IsCompound) {parameters sign statement : Node}
    (hparts : n.parts = [parameters, sign, statement] ∧ parameters.kind ≠ "async" ∨
      ∃ async, n.children.head? = some async ∧ async.Spells s.buffer "async" ∧
        n.parts = [async, parameters, sign, statement])
    (hsign : sign.Spells s.buffer "=>") :
    ∃ m k, s.Stands parameters m k ∧ s.Stands sign k (k + 1) ∧ s.Stands statement (k + 1) j ∧
      (n.children.head?.any (·.kind == "async") = false ∧ m = i ∨
        n.children.head?.any (·.kind == "async") = true ∧ m = i + 1) := by
  have hmem : ∀ c ∈ n.parts, c ∈ n.children := fun c hc => (List.mem_filter.1 hc).1
  have hchildren : n.children ≠ [] := by
    intro hnil
    rw [Node.parts, hnil] at hparts
    rcases hparts with ⟨hparts, -⟩ | ⟨_, -, -, hparts⟩ <;> simp at hparts
  have hrun := h.run_parts hn hchildren
  rcases hparts with ⟨hparts, hkind⟩ | ⟨async, hhead, hspells, hparts⟩
  · rw [hparts] at hrun hmem
    obtain ⟨k, hpspans, l, hsspans, r, hbspans, rfl⟩ := hrun
    have hsstands := h.of_spans (hmem sign (by simp)) hsspans
    obtain ⟨rfl, -⟩ := hsstands.spells hsign (by decide)
    exact ⟨i, k, h.of_spans (hmem _ (by simp)) hpspans, hsstands,
      h.of_spans (hmem _ (by simp)) hbspans, .inl ⟨head_isNotAsync hparts hkind, rfl⟩⟩
  · rw [hparts] at hrun hmem
    obtain ⟨a, haspans, k, hpspans, l, hsspans, r, hbspans, rfl⟩ := hrun
    have hastands := h.of_spans (hmem async (by simp)) haspans
    obtain ⟨rfl, -⟩ := hastands.spells hspells (by decide)
    have hsstands := h.of_spans (hmem sign (by simp)) hsspans
    obtain ⟨rfl, -⟩ := hsstands.spells hsign (by decide)
    refine ⟨i + 1, k, h.of_spans (hmem _ (by simp)) hpspans, hsstands,
      h.of_spans (hmem _ (by simp)) hbspans, .inr ⟨?_, rfl⟩⟩
    rw [hhead, Option.any_some, hspells.kind_eq]
    rfl

theorem arrow_staysInside (h : s.Stands n i j) (hn : n.IsCompound)
    (hshape : n.ArrowShape s.buffer) : (arrow s n).StaysInside s i j := by
  obtain ⟨parameters, sign, statement, hparameters, hsign, hstatement, hparts, hfield⟩ := hshape
  obtain ⟨m, k, hpstands, hsstands, hbstands, hasync⟩ := arrow_places h hn hparts hsign
  have hmk := h.lt_of_mem hparameters hpstands
  have hkj := h.lt_of_mem hstatement.2 hbstands
  obtain ⟨-, u, hu, hvalue, hkind⟩ := hsstands.spells hsign (by decide)
  obtain ⟨head, second, hhead, hsecond, hfirsts⟩ := h.exists_firsts (by omega)
  unfold arrow
  rw [hfirsts]
  simp only [List.head?_cons]
  refine meets_part hstatement.1 ?_
  obtain ⟨a, t, hka, hak, ht, -, hscan⟩ :=
    Source.exists_scanDown (i := k + 1) (by omega) hu (isPunctuator_of_value hvalue hkind (by decide))
  refine (meets_require (((hbstands.ends hkj).beforeWhere?_eq _).trans hscan) ht).bind
    fun arrow harrow => ?_
  -- the sign and the body, whatever comes before them
  have hlast : (do offset arrow 1 head; body s statement head : Draft Unit).StaysInside s i j :=
    (meets_offset hhead harrow (by omega)).next
      (body_staysInside hhead hbstands hkj (by omega))
  have hlist : ∀ left, s.At m left → ∀ left',
      Option.filter Token.isOpeningParen (some left) = some left' →
        (arrowParameters s n left').StaysInside s i j := by
    intro left hleft left' hleft'
    obtain ⟨heq, hparen⟩ := Option.filter_eq_some_iff.1 hleft'
    obtain rfl := Option.some.inj heq
    cases hfield' : n.field? "parameters" with
    | none =>
      rw [hfield'] at hfield
      have := isOpeningParen_of_identifier hpstands hmk hfield.1 hfield.2
        (Node.mem_codeChildren.1 hparameters).2.1 hleft
      exact absurd (this.symm.trans hparen) Bool.false_ne_true
    | some list =>
      rw [hfield'] at hfield
      obtain ⟨rfl, henclosed⟩ := hfield
      exact arrowParameters_staysInside hpstands hfield' henclosed (by omega) (by omega) hleft
  rcases hasync with ⟨hasync, rfl⟩ | ⟨hasync, rfl⟩
  · simp only [hasync, Bool.false_eq_true, if_false]
    split
    · exact hlast
    · next left hleft => exact (hlist head hhead left hleft).next hlast
  · simp only [hasync, if_true]
    refine Meets.next (meets_offsets hhead fun x hx => ?_) ?_
    · obtain rfl : x = second := by simpa using hx
      exact ⟨i + 1, hsecond, by omega⟩
    · split
      · exact hlast
      · next left hleft => exact (hlist second hsecond left hleft).next hlast

/-! ## members -/

/-- The tokens between an anchor and a token behind it are placed inside. -/
theorem between_staysInside {a b : Anchor} {k l k' l' : Nat} (ha : s.Ends a k l)
    (hb : s.Ends b k' l') {m : Nat} {base : Token} (hbase : s.At m base) (hml : m ≤ l)
    (hil : i ≤ m) (hkj : k' ≤ j) (levels : Int) :
    (offsets (s.between a b) levels base).StaysInside s i j := by
  refine meets_offsets hbase fun t ht => ?_
  obtain ⟨p, hlp, hpk, hp⟩ := exists_at_of_mem_between ha hb ht
  exact ⟨p, hp, by omega⟩

theorem memberKey_meets {key : Node} {name : String} (hkey : n.IsPart name key) {k l : Nat}
    (hstands : s.Stands key k l) (hik : i ≤ k) (hkl : k < l) (hlj : l ≤ j) {start : Token}
    (hstart : s.At i start) :
    (memberKey s start (n.field? name)).Meets (Entry.Inside s i j) (s.At (l - 1)) := by
  refine meets_part hkey.1 ?_
  split
  · next hkind =>
    have hcompound : key.IsCompound := by
      rw [beq_iff_eq] at hkind
      exact ⟨by rw [Node.isComment, hkind]; decide, by rw [hkind]; decide⟩
    refine (meets_first hstands hkl).bind fun left hleft => ?_
    refine (meets_last hstands hkl).bind fun right hright => ?_
    refine (between_staysInside (s.ends_token hstart) (s.ends_token hleft) hstart (by omega)
      (Nat.le_refl i) (by omega) 0).next ?_
    refine (meets_offset hstart hleft (by omega)).next ?_
    refine Meets.next (meets_elements hleft (fun x hx => ?_) fun x hx => ?_) (meets_pure hright)
    · obtain ⟨p, q, hkp, hpq, hql, hxstands⟩ := hstands.child hcompound hx
      exact ⟨p, q, hxstands, hpq, by omega⟩
    · obtain rfl := Option.some.inj hx
      exact ⟨l - 1, hright, by omega⟩
  · refine (meets_first hstands hkl).bind fun token htoken => ?_
    refine (between_staysInside (s.ends_token hstart) (s.ends_token htoken) hstart (by omega)
      (Nat.le_refl i) (by omega) 0).next ?_
    exact (meets_offset hstart htoken (by omega)).next (meets_last hstands hkl)

theorem method_staysInside (h : s.Stands n i j) (hn : n.IsCompound)
    (hshape : n.MethodShape s.buffer) : (method s n).StaysInside s i j := by
  obtain ⟨key, parameters, statement, hkey, hparameters, henclosed, hstatement⟩ := hshape
  obtain ⟨a, b, hia, hab, hbj, hkstands⟩ := h.child hn hkey.2
  obtain ⟨k, l, hik, hkl, hlj, hpstands⟩ := h.child hn hparameters.2
  refine (meets_first h (by omega)).bind fun start hstart => ?_
  refine (memberKey_meets hkey hkstands hia hab hbj hstart).bind fun last hlast => ?_
  refine meets_part hparameters.1 ?_
  refine (meets_first hpstands hkl).bind fun left hleft => ?_
  refine (meets_last hpstands hkl).bind fun right hright => ?_
  refine (between_staysInside (s.ends_token hlast) (s.ends_token hleft) hlast (by omega)
    (by omega) (by omega) 1).next ?_
  refine (meets_offset hstart hleft (by omega)).next ?_
  refine (list_staysInside hpstands henclosed hik hlj hleft hright 1).next ?_
  exact part_staysInside h hn hstatement hstart 0 fun a b _ hia _ _ => by omega

/-- A member with a key, and a value behind the key if there is one. -/
theorem memberValue_staysInside (h : s.Stands n i j) (hn : n.IsCompound) {name : String}
    (hshape : n.MemberShape name) {start : Token} (hstart : s.At i start) :
    (memberValue s start (n.field? name) (n.field? "value")).StaysInside s i j := by
  obtain ⟨key, hkey, hvalue⟩ := hshape
  obtain ⟨a, b, hia, hab, hbj, hkstands⟩ := h.child hn hkey.2
  refine (memberKey_meets hkey hkstands hia hab hbj hstart).bind fun last hlast => ?_
  cases hsome : n.field? "value" with
  | none => exact meets_pure trivial
  | some value =>
    obtain ⟨hmem, hturn⟩ := hvalue value hsome
    obtain ⟨a', b', hia', hkstands', k, l, hbk, hvstands, (hlj : l ≤ j)⟩ := h.turn hn hturn
    obtain ⟨rfl, rfl⟩ := hkstands.unique hab hkstands'
    have hkl := h.lt_of_mem hmem hvstands
    refine (meets_first hvstands hkl).bind fun token htoken => ?_
    refine meets_offsets hlast fun x hx => ?_
    rcases List.mem_append.1 hx with hx | hx
    · obtain ⟨p, hlp, hpk, hp⟩ :=
        exists_at_of_mem_between (s.ends_token hlast) (s.ends_token htoken) hx
      exact ⟨p, hp, by omega⟩
    · obtain rfl := List.mem_singleton.1 hx
      exact ⟨k, htoken, by omega⟩

/-- A member with a key has a first token. -/
theorem lt_of_memberShape (h : s.Stands n i j) (hn : n.IsCompound) {name : String}
    (hshape : n.MemberShape name) : i < j := by
  obtain ⟨key, hkey, -⟩ := hshape
  exact lt_of_codeChildren h hn (List.ne_nil_of_mem hkey.2)

theorem pair_staysInside (h : s.Stands n i j) (hn : n.IsCompound)
    (hshape : n.MemberShape "key") : (pair s n).StaysInside s i j :=
  (meets_first h (lt_of_memberShape h hn hshape)).bind fun _ hstart =>
    memberValue_staysInside h hn hshape hstart

theorem fieldDefinition_staysInside (h : s.Stands n i j) (hn : n.IsCompound)
    (hshape : n.MemberShape "property") : (fieldDefinition s n).StaysInside s i j :=
  (meets_first h (lt_of_memberShape h hn hshape)).bind fun _ hstart =>
    memberValue_staysInside h hn hshape hstart

/-- What a class inherits from is placed inside, and the rest as it is. -/
theorem heritage_staysInside {keyword : Token} {m : Nat} (hkeyword : s.At m keyword) (him : i ≤ m)
    {rest : Draft Unit} (hrest : rest.StaysInside s i j)
    (hstands : ∀ c, n.childOfKind? "class_heritage" = some c →
      ∃ k l, s.Stands c k l ∧ m < k ∧ k < l ∧ l < j) :
    (match n.childOfKind? "class_heritage" with
      | none => rest
      | some heritage => do
        let word ← first s heritage
        offset word 1 keyword
        offsets (s.after? word).toList 1 word
        rest : Draft Unit).StaysInside s i j := by
  cases hsome : n.childOfKind? "class_heritage" with
  | none => exact hrest
  | some heritage =>
    obtain ⟨k, l, hhstands, hmk, hkl, hlj⟩ := hstands heritage hsome
    refine (meets_first hhstands hkl).bind fun token htoken => ?_
    refine (meets_offset hkeyword htoken (by omega)).next ?_
    exact (after_staysInside htoken (by omega) (by omega) 1).next hrest

theorem classDefinition_staysInside (h : s.Stands n i j) (hn : n.IsCompound)
    (hshape : n.ClassShape s.buffer) : (classDefinition s n).StaysInside s i j := by
  obtain ⟨word, statement, hword, hspells, hstatement, hturn, hname, hheritage⟩ := hshape
  obtain ⟨a, b, hia, hwstands, c, d, hbc, hbstands, (hdj : d ≤ j)⟩ := h.turn hn hturn
  obtain ⟨rfl, -⟩ := hwstands.spells hspells (by decide)
  have hcd := h.lt_of_mem hstatement.2 hbstands
  refine (keyword?_meets_some hword hwstands (by omega)).bind fun o ho => ?_
  obtain ⟨keyword, rfl, hkeyword⟩ := ho
  refine (meets_pure (Q := s.At a) hkeyword).bind fun keyword hkeyword => ?_
  -- what stands behind the keyword among the children is placed relative to it
  have hbehind : ∀ x : Node, x ∈ n.codeChildren → n.InTurn [word, x] →
      ∃ k l, s.Stands x k l ∧ a < k ∧ k < l ∧ l ≤ j := by
    intro x hx hturn
    obtain ⟨a', b', -, hwstands', k, l, hbk, hxstands, (hlj : l ≤ j)⟩ := h.turn hn hturn
    obtain ⟨rfl, rfl⟩ := hwstands.unique (by omega) hwstands'
    have hkl := h.lt_of_mem hx hxstands
    exact ⟨k, l, hxstands, by omega, hkl, hlj⟩
  have hbody : (do offset (← firstOf s (n.field? "body")) 0 keyword : Draft Unit).StaysInside s i j :=
    (meets_firstOf hstatement.1 hbstands hcd).bind fun token htoken =>
      meets_offset hkeyword htoken (by omega)
  have hlast := heritage_staysInside hkeyword hia hbody fun heritage hsome => by
    obtain ⟨hmem, hturn⟩ := hheritage heritage hsome
    obtain ⟨a', b', -, hwstands', k, l, hbk, hhstands, e, f, hle, hbstands', (hfj : f ≤ j)⟩ :=
      h.turn hn hturn
    obtain ⟨rfl, rfl⟩ := hwstands.unique (by omega) hwstands'
    have hkl := h.lt_of_mem hmem hhstands
    have hef := h.lt_of_mem hstatement.2 hbstands'
    exact ⟨k, l, hhstands, by omega, hkl, by omega⟩
  cases hsome : n.field? "name" with
  | none => exact hlast
  | some name =>
    obtain ⟨hmem, hturn⟩ := hname name hsome
    obtain ⟨k, l, hxstands, hak, hkl, hlj⟩ := hbehind name hmem hturn
    refine (meets_first hxstands hkl).bind fun token htoken => ?_
    exact (meets_offset hkeyword htoken (by omega)).next hlast

end ScriptIndent.Rule
