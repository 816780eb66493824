import ScriptIndent.Proofs.Rule.Owners
import ScriptIndent.Proofs.Rule.Parens
import ScriptIndent.Proofs.Tree.Sound

/-!
# ScriptIndent.Proofs.Rule.Lasting

Entries that last, in trees of any kinds of constructs.

```
while (a)
  b;         the body's first token, at place l
```

What the rule of a construct records for a token within the construct lasts
(`Source.Orderly.get?_of_rule`), if no node below the construct reaches over the token, if no
parenthesis closes there and none opens directly before it.  A later visit may still reach the
token with the semicolon of a class field; but then the body of the class lies around the token
(`Source.Orderly.not_reaches_field`).
-/

namespace ScriptIndent

namespace Source

/-- A grammatical tree of one program, in which class fields stand in class bodies and each visited
node closes the parentheses that it opens. -/
structure Orderly (s : Source) : Prop where
  grammatical : s.root.Grammatical s.buffer
  balanced : s.Balanced
  fields : s.root.FieldsInBodies
  /-- There is no program in the program. -/
  programs : ∀ m : Node, m.Below s.root → m.kind ≠ "program"

/-- A source passes all checks that are made of an orderly one node by node. -/
def passes (s : Source) : Bool :=
  s.root.all (·.passes s.buffer) &&
    (s.root.visited []).all (fun p => parenDepth 0 (s.tokensOf p.node) == some 0) &&
    s.root.all (fun n => n.kind == "class_body" || n.children.all (·.kind != "field_definition")) &&
    s.root.children.all (Node.all (·.kind != "program"))

end Source

/-- The constructs in a visited construct with a rule are visited. -/
theorem Node.child_mem_visited {root n c : Node} {ancestors : List Node}
    (hplace : ⟨n, ancestors⟩ ∈ root.visited []) {construct : Construct}
    (hrule : Construct.ofKind? n.kind = some construct) (hc : c ∈ n.codeChildren) :
    ⟨c, n :: ancestors⟩ ∈ root.visited [] := by
  obtain ⟨hnamed, hcomment⟩ := List.mem_filter.1 hc
  exact visited_subset hplace
    (visited_subset_of_mem hrule ancestors hnamed (self_mem_visited (by simpa using hcomment) _))

namespace Node

variable {n c : Node}

/-- The constructs among the parts. -/
theorem codeChildren_eq_filter (n : Node) : n.codeChildren = n.parts.filter (·.isNamed) := by
  rw [codeChildren, namedChildren, parts, List.filter_filter, List.filter_filter]
  exact List.filter_congr fun _ _ => Bool.and_comm _ _

/-- What is looked for among the children, and is no comment, is found among the parts. -/
theorem find?_parts {p : Node → Bool} (hp : ∀ c, p c = true → c.isComment = false) :
    n.parts.find? p = n.children.find? p := by
  rw [parts, List.find?_filter]
  congr
  funext c
  cases hc : p c with
  | false => simp
  | true => simp [hp c hc]

/-- A keyword that is the first part is found. -/
theorem keyword?_of_parts {b : Buffer} {value : String} {rest : List Node}
    (hparts : n.parts = c :: rest) (hspells : c.Spells b value) (hspelling : IsSpelling value) :
    n.keyword? value = some c := by
  rw [keyword?, ← find?_parts, hparts, List.find?_cons_of_pos]
  · simp [hspells.anonymous, hspells.kind_eq]
  · intro c hc
    rw [Bool.and_eq_true, beq_iff_eq] at hc
    rw [isComment, hc.2, hspelling.1]

/-- The first part of a kind is found. -/
theorem childOfKind?_of_parts {kind : String} {front rest : List Node}
    (hparts : n.parts = front ++ c :: rest) (hfront : ∀ m ∈ front, m.kind ≠ kind)
    (hkind : c.kind = kind) (hcomment : isCommentKind kind = false) :
    n.childOfKind? kind = some c := by
  rw [childOfKind?, ← find?_parts, hparts, List.find?_append,
    List.find?_eq_none.2 (by simpa using hfront), Option.none_or, List.find?_cons_of_pos]
  · simpa using hkind
  · intro c hc
    rw [isComment, beq_iff_eq.1 hc, hcomment]

end Node

/-! ## entries for other tokens -/

/-- The entry is for a token at another place. -/
def Entry.Elsewhere (s : Source) (l : Nat) (e : Entry) : Prop := ∃ k, k ≠ l ∧ s.At k e.token

theorem Entry.Elsewhere.token_ne {s : Source} {l : Nat} {d e : Entry} (h : d.Elsewhere s l)
    (hl : s.At l e.token) : d.token ≠ e.token := by
  obtain ⟨k, hne, hk⟩ := h
  intro heq
  exact hne (Source.eq_of_getElem? (heq ▸ hk) hl)

namespace Draft

variable {s : Source} {l : Nat} {e : Entry} {β : Type}

/-- What is drafted for other tokens afterwards changes nothing. -/
theorem Records.elsewhere {d : Draft Unit} {f : Unit → Draft β} (h : d.Records e)
    (hl : s.At l e.token) (hf : (f ()).Meets (Entry.Elsewhere s l) fun _ => True) :
    (d >>= f).Records e :=
  h.next (hf.mono (fun _ hd heq => absurd heq (hd.token_ne hl)) fun _ hQ => hQ)

theorem meets_offsets_elsewhere {tokens : List Token} {levels : Int} {base : Token}
    (h : ∀ t ∈ tokens, ∃ k, k ≠ l ∧ s.At k t) :
    (offsets tokens levels base).Meets (Entry.Elsewhere s l) fun _ => True := by
  refine meets_write fun e he => ?_
  obtain ⟨t, ht, rfl⟩ := List.mem_map.1 he
  exact h t (List.mem_filter.1 ht).1

theorem meets_offset_elsewhere {k : Nat} {t base : Token} {levels : Int} (hne : k ≠ l)
    (ht : s.At k t) : (offset t levels base).Meets (Entry.Elsewhere s l) fun _ => True :=
  meets_offsets_elsewhere fun _ hu => List.mem_singleton.1 hu ▸ ⟨k, hne, ht⟩

theorem meets_elements_elsewhere {items : List Node} {left : Token} {right : Option Token}
    {levels : Int} (hitems : ∀ c ∈ items, ∃ a b, s.Stands c a b ∧ a < b ∧ a ≠ l)
    (hright : ∀ t, right = some t → ∃ k, k ≠ l ∧ s.At k t) :
    (elements s items left right levels).Meets (Entry.Elsewhere s l) fun _ => True := by
  refine meets_write fun e he => ?_
  rcases Source.mem_elements.1 he with ⟨c, hc, t, ht, -, rfl⟩ | ⟨t, ht, -, rfl⟩
  · obtain ⟨a, b, hstands, hab, hne⟩ := hitems c hc
    exact ⟨a, hne, (hstands.ends hab).first?_eq.symm.trans ht⟩
  · exact hright t ht

/-- A token is recorded relative to another one. -/
theorem records_offsets {tokens : List Token} {levels : Int} {t base : Token} (ht : t ∈ tokens)
    (hne : t ≠ base) : (offsets tokens levels base).Records ⟨t, some base, levels⟩ := by
  refine records_write (List.mem_map.2 ⟨t, List.mem_filter.2 ⟨ht, by simpa⟩, rfl⟩) fun d hd heq => ?_
  obtain ⟨u, -, rfl⟩ := List.mem_map.1 hd
  obtain rfl : u = t := heq
  rfl

theorem records_offset {levels : Int} {t base : Token} (hne : t ≠ base) :
    (offset t levels base).Records ⟨t, some base, levels⟩ :=
  records_offsets (List.mem_singleton.2 rfl) hne

end Draft

/-! ## drafts that go through -/

namespace Draft

variable {s : Source} {α β : Type} {e : Entry}

/-- A draft that goes through records what it does from some step on. -/
theorem records_of_ok {d : Draft α} {f : α → Draft β} (hok : ∃ b, (d >>= f).result = .ok b)
    (hf : ∀ a, d.result = .ok a → (∃ b, (f a).result = .ok b) → (f a).Records e) :
    (d >>= f).Records e := by
  obtain ⟨b, hb⟩ := hok
  cases hresult : d.result with
  | error fault =>
    rw [bind_of_error hresult] at hb
    cases hb
  | ok a =>
    rw [bind_of_ok hresult] at hb ⊢
    obtain ⟨hok, hrecord⟩ := hf a hresult ⟨b, hb⟩
    exact ⟨hok, fun r => by rw [Registry.record_append]; exact hrecord _⟩

theorem eq_of_require {n : Node} {description : String} {o : Option Token} {t : Token}
    (h : (require s n description o).result = .ok t) : o = some t := by
  cases o with
  | none => cases h
  | some u => rw [Except.ok.inj h]

theorem eq_of_part {asked : Aspect} {p : Option Node} {n : Node}
    (h : (part asked p).result = .ok n) : p = some n := by
  cases p with
  | none => cases h
  | some m => rw [Except.ok.inj h]

end Draft

/-! ## what statements and expressions have in common -/

namespace Rule

open Draft

variable {s : Source} {n : Node} {i j l : Nat}

/-- The pairs of parentheses around a node place its first token, and tokens outside of it. -/
theorem wrappingParentheses_elsewhere (h : s.Stands n i j) (hil : i < l) (hlj : l < j) {e : Entry}
    (he : e ∈ wrappingParentheses s n) : e.Elsewhere s l := by
  have hij : i < j := by omega
  obtain ⟨start, hstart, hfirst⟩ := (h.ends hij).exists_first?
  rw [wrappingParentheses_eq, hfirst] at he
  obtain ⟨k, hk, hcases⟩ := unwrap_reach hstart (fun m p hp => getElem?_wrappers h hij hp) he
  refine ⟨k, ?_, hk⟩
  rcases hcases with ⟨hki, -⟩ | ⟨hjk, -⟩ <;> omega

/-- Of the tokens behind a node's first, only a semicolon at its end is placed by what statements
and expressions have in common. -/
theorem common_elsewhere (h : s.Stands n i j) (hil : i < l) (hlj : l < j) {t : Token}
    (ht : s.At l t)
    (hsemicolon : Construct.isStatementKind n.kind = true → t.isSemicolon = true → l + 1 < j)
    {e : Entry} (he : e ∈ common s n) : e.Elsewhere s l := by
  rcases mem_common.1 he with ⟨hstatement, he⟩ | ⟨-, he⟩
  · obtain ⟨k, base, -, -, -, hk, hclosing, hcases⟩ := trailingSemicolon_entry h (by omega) he
    refine ⟨k, ?_, hk⟩
    rintro rfl
    obtain rfl := Option.mem_unique ht hk
    have := hsemicolon hstatement hclosing
    omega
  · exact wrappingParentheses_elsewhere h hil hlj he

/-- What the rule of a construct records, a visit records, if statements and expressions have no
entry for the token in common. -/
theorem visit?_records {ancestors : List Node} {construct : Construct} {caseLevels : Int}
    (hrule : Construct.ofKind? n.kind = some construct) {e : Entry}
    (hrecords : (ofConstruct s caseLevels ancestors n construct).Records e)
    (hl : s.At l e.token) (hcommon : ∀ d ∈ common s n, d.Elsewhere s l) :
    ∃ draft, visit? s caseLevels ⟨n, ancestors⟩ = some draft ∧ draft.Records e :=
  ⟨_, visit?_eq hrule s caseLevels ancestors, hrecords.elsewhere hl (meets_write hcommon)⟩

end Rule

namespace Source

variable {s : Source} {n : Node} {ancestors : List Node} {caseLevels : Int} {i j l : Nat}

/-! ## places outside of the nodes below -/

/-- A place at which the parts of a node are cut is outside of the nodes below it. -/
theorem Stands.outside_of_parts (hn : s.Stands n i j) (hcompound : n.IsCompound)
    (hchildren : n.children ≠ []) {xs ys : List Node} (hparts : n.parts = xs ++ ys)
    (hxs : s.SpanRun xs i l) (hys : s.SpanRun ys l j) : s.Outside n l := by
  rintro m a b ⟨c, hc, hwithin⟩ hm hab
  by_cases hcomment : c.isComment = true
  · -- a comment holds no tokens
    obtain ⟨p, q, -, -, hspans⟩ := (hn.spans.run hcompound hchildren).mem hc
    have hstop := hspans.stop_eq
    rw [codeCount_of_isComment hcomment] at hstop
    have := (hn.of_spans hc hspans).le_of_within hm hab hwithin
    omega
  · have hmem : c ∈ xs ++ ys := hparts ▸ List.mem_filter.2 ⟨hc, by simpa using hcomment⟩
    rcases List.mem_append.1 hmem with hmem | hmem
    · obtain ⟨p, q, -, hq, hspans⟩ := hxs.mem hmem
      have := (hn.of_spans hc hspans).le_of_within hm hab hwithin
      exact .inr (.inl (by omega))
    · obtain ⟨p, q, hp, -, hspans⟩ := hys.mem hmem
      have := (hn.of_spans hc hspans).le_of_within hm hab hwithin
      exact .inl (by omega)

/-! ## visits behind a node -/

theorem below_root_of_mem_tail {p : Node.Placed} (h : p ∈ (s.root.visited []).tail) :
    p.node.Below s.root := by
  rw [Node.visited_eq] at h
  split at h
  · simp at h
  split at h
  · simp at h
  rw [List.tail_cons, Node.visitedAmong_eq, List.mem_flatMap] at h
  obtain ⟨c, hc, hp⟩ := h
  exact ⟨c, (List.mem_filter.1 hc).1, Node.within_of_mem_visited hp⟩

/-- The construct around a visited node is visited, too. -/
theorem parent_mem_visited {parent : Node} (hplace : ⟨n, parent :: ancestors⟩ ∈ s.root.visited []) :
    ⟨parent, ancestors⟩ ∈ s.root.visited [] ∧ n ∈ parent.codeChildren := by
  rcases Node.mem_visited hplace with heq | ⟨p, hparent, -, hmem, hcons⟩
  · cases heq
  · obtain ⟨rfl, rfl⟩ := List.cons.inj hcons
    exact ⟨hparent, hmem⟩

namespace Orderly

theorem of_grammatical (g : s.root.Grammatical s.buffer)
    (hbalanced : (s.root.visited []).all (fun p => parenDepth 0 (s.tokensOf p.node) == some 0) = true)
    (hfields : s.root.all (fun n => n.kind == "class_body" ||
      n.children.all (·.kind != "field_definition")) = true)
    (hprograms : s.root.children.all (Node.all (·.kind != "program")) = true) : s.Orderly := by
  refine ⟨g, fun p hp => by simpa using List.all_eq_true.1 hbalanced p hp,
    fun m hm c hc hkind => ?_, ?_⟩
  · have hfield := Node.of_all hfields hm
    simp only [Bool.or_eq_true, beq_iff_eq, List.all_eq_true, bne_iff_ne] at hfield
    exact hfield.resolve_right fun hall => hall c hc hkind
  · rintro m ⟨c, hc, hm⟩
    simpa using Node.of_all (List.all_eq_true.1 hprograms c hc) hm

/-- A source is orderly if it passes, and the nodes with rules have their shapes. -/
theorem of_passes (hpasses : s.passes = true)
    (hshaped : ∀ m ∈ s.root.nodes.filter Node.isRuled, m.Shaped s.buffer) : s.Orderly := by
  simp only [passes, Bool.and_eq_true] at hpasses
  obtain ⟨⟨⟨hnodes, hbalanced⟩, hfields⟩, hprograms⟩ := hpasses
  exact .of_grammatical (.of_passes hnodes hshaped) hbalanced hfields hprograms

variable (h : s.Orderly)

include h

/-- No parenthesis is closed where a visited node begins. -/
theorem calm {c : Node} (hplace : ⟨c, ancestors⟩ ∈ s.root.visited []) (hstands : s.Stands c i j)
    (hij : i < j) (hbefore : ∀ t, 0 < i → s.At (i - 1) t → t.isOpeningParen = false) :
    s.Calm i where
  closing ht := hstands.isClosingParen hij (h.balanced _ hplace) ht
  opening hk ht := hbefore _ (by omega) (by rwa [← hk, Nat.add_sub_cancel])

/-- No parenthesis opens where a visited node ends. -/
theorem calm_behind {c : Node} (hplace : ⟨c, ancestors⟩ ∈ s.root.visited [])
    (hstands : s.Stands c i j) (hij : i < j)
    (hbehind : ∀ t, s.At j t → t.isClosingParen = false) : s.Calm j where
  closing ht := hbehind _ ht
  opening hk ht :=
    hstands.isOpeningParen hij (h.balanced _ hplace) (by rwa [← hk, Nat.add_sub_cancel])

/-- A class field below a node does not reach a token if no node below that one reaches over it. -/
theorem not_reaches_field (hplace : ⟨n, ancestors⟩ ∈ s.root.visited []) (hn : s.Stands n i j)
    (hkind : n.kind ≠ "class_body") {q : Node.Placed} (hq : q ∈ n.visited ancestors)
    (hfield : q.node.kind = "field_definition") {a : Nat} (hm : s.Stands q.node a l) (hal : a < l)
    (hlj : l < j) (hout : s.Outside n l) : False := by
  have hsubset := Node.visited_subset hplace
  rcases Node.mem_visited hq with rfl | ⟨parent, hparent, -, hchild, -⟩
  · have := hm.unique hal hn
    omega
  -- the body of the class closes behind the token
  have hbody : parent.node.kind = "class_body" :=
    h.fields _ (Node.within_of_mem_visited (hsubset hparent)) _ (Node.mem_codeChildren.1 hchild).1
      hfield
  have hrule : Construct.ofKind? parent.node.kind = some .block := by
    rw [hbody]
    decide
  obtain ⟨k, m, hstands⟩ :=
    (found_of_visited h.grammatical (hsubset hparent)).exists_stands hrule (by decide)
  obtain ⟨hkm, -, -, hinner⟩ := hstands.enclosed
    (shape_of_visited h.grammatical (hsubset hparent) hrule) (by decide) (by decide)
  obtain ⟨a', b', hka, -, hbm, hstands'⟩ := hinner _ hchild
  obtain ⟨rfl, rfl⟩ := hm.unique hal hstands'
  rcases (Node.within_of_mem_visited hparent).eq_or_below with heq | hbelow
  · exact hkind (heq ▸ hbody)
  · rcases hout _ k m hbelow hstands (by omega) with hle | hle | ⟨hplain, -⟩
    · omega
    · omega
    · rw [hrule] at hplain
      cases hplain

/-- What a visit to a node records for a token in it stands, if no node below reaches over the token
and there is no parenthesis to reach it. -/
theorem get?_analyze (hplace : ⟨n, ancestors⟩ ∈ s.root.visited []) (hn : s.Stands n i j)
    (hkind : n.kind ≠ "class_body") {draft : Draft Unit}
    (hdraft : Rule.visit? s caseLevels ⟨n, ancestors⟩ = some draft) {e : Entry}
    (hrecords : draft.Records e) (hl : s.At l e.token) (hlj : l < j) (hij : i < j)
    (hcalm : s.Calm l) (hout : s.Outside n l) :
    (s.analyze caseLevels).registry.get? e.token = some e := by
  have g := h.grammatical
  obtain ⟨places, rest, hsplit⟩ := List.append_of_mem hplace
  obtain ⟨below, behind, rfl, hbelow, hbehind⟩ := Node.visited_cut g.nested hsplit
  refine get?_analyze_of_records g hsplit hdraft hrecords fun q hq draft' hdraft' d hd heq => ?_
  exfalso
  have hvisited : q ∈ s.root.visited [] := by simp [hsplit, hq]
  have htail : q ∈ (s.root.visited []).tail := by
    rw [hsplit]
    cases places with
    | nil => exact hq
    | cons x places => simp [hq]
  obtain ⟨a, b, k, hm, hab, hk, hreaches⟩ :=
    (Rule.visit?_reaches g hvisited caseLevels hdraft').1 d hd
  obtain rfl : k = l := eq_of_getElem? hk (heq ▸ hl)
  have hprogram : q.node.kind ≠ "program" := h.programs _ (below_root_of_mem_tail htail)
  rcases List.mem_append.1 hq with hq | hq
  · rcases hout q.node a b (Node.below_of_mem_visited hbelow hq) hm hab with hle | hle | hsilent
    · exact hreaches.elim hcalm hprogram (.inl hle) fun _ hkb => by omega
    · refine hreaches.elim hcalm hprogram (.inr hle) fun hfield hkb => ?_
      subst hkb
      exact h.not_reaches_field hplace hn hkind (by simp [hbelow, hq]) hfield hm hab hlj hout
    · rw [writes_of_isSilent hsilent hdraft'] at hd
      simp at hd
  · have hja := hn.le_of_stop_le hij hm hab (hbehind q hq)
    exact hreaches.elim hcalm hprogram (.inl (by omega)) fun _ hkb => by omega

/-- What the rule of a construct records for a token within the construct lasts, if statements and
expressions have no entry for the token in common. -/
theorem get?_of_rule (hplace : ⟨n, ancestors⟩ ∈ s.root.visited []) (hn : s.Stands n i j)
    {construct : Construct} (hrule : Construct.ofKind? n.kind = some construct)
    (hkind : n.kind ≠ "class_body") {e : Entry}
    (hrecords : (Rule.ofConstruct s caseLevels ancestors n construct).Records e)
    (hl : s.At l e.token) (hil : i < l) (hlj : l < j)
    (hcommon : ∀ d ∈ Rule.common s n, d.Elsewhere s l) (hcalm : s.Calm l)
    (hout : s.Outside n l) : (s.analyze caseLevels).registry.get? e.token = some e := by
  obtain ⟨draft, hdraft, hrecords⟩ := Rule.visit?_records hrule hrecords hl hcommon
  exact h.get?_analyze hplace hn hkind hdraft hrecords hl hlj (by omega) hcalm hout

end Orderly

end Source

end ScriptIndent
