import ScriptIndent.Proofs.Rule.Standing

/-!
# ScriptIndent.Proofs.Rule.Owners

The constructs that place statements.

```
program                    each statement at the level of the script around it
{ … }                      each statement one level from the brace
switch (x) { … }           each clause some levels from the brace
case x: …                  each statement one level from the keyword
```

Blocks, switch statements and clauses record what they place last (`lists_block`,
`lists_switch`, `lists_clause`).  So a statement is placed by the construct around it, and a
closing brace by its block or switch statement.
-/

namespace ScriptIndent

namespace Source

open Rule

variable {s : Source} {n : Node} {ancestors : List Node} {caseLevels : Int} {i j k l : Nat}

/-! ## cuts -/

/-- A place at which the children of a node are cut is outside of the nodes below it. -/
theorem Stands.outside (hn : s.Stands n i j) (hcompound : n.IsCompound) {c : Node}
    (hc : c ∈ n.codeChildren) {a b : Nat} (hstands : s.Stands c a b) : s.Outside n a := by
  obtain ⟨xs, ys, hchildren, hxs, hys⟩ := hn.exists_cut hcompound hc hstands
  intro m p q hbelow hm hpq
  rcases hn.outside_of_cut hchildren hxs hys hbelow hm hpq with hp | hq
  · exact .inl hp
  · exact .inr (.inl hq)

/-- What is outside of the nodes below a silent child is outside of those below its parent. -/
theorem Stands.outside_of_child (hn : s.Stands n i j) (hcompound : n.IsCompound) {c : Node}
    (hc : c ∈ n.codeChildren) (hsilent : c.IsSilent) {a b : Nat} (hstands : s.Stands c a b)
    (hal : a ≤ l) (hlb : l ≤ b) (hout : s.Outside c l) : s.Outside n l := by
  have hmem := (Node.mem_codeChildren.1 hc).1
  have hab := hn.lt_of_mem hc hstands
  obtain ⟨xs, ys, hsplit⟩ := List.append_of_mem hmem
  have hrun := hn.spans.run hcompound (List.ne_nil_of_mem hmem)
  rw [hsplit] at hrun
  obtain ⟨a', hxs, b', hspans, hys⟩ := hrun.append
  obtain ⟨rfl, rfl⟩ := hstands.unique hab (hn.of_spans hmem hspans)
  rintro m p q ⟨x, hx, hwithin⟩ hm hpq
  rw [hsplit, List.mem_append, List.mem_cons] at hx
  rcases hx with hx | rfl | hx
  · obtain ⟨u, v, -, hv, hxspans⟩ := hxs.mem hx
    have := (hn.of_spans (by simp [hsplit, hx]) hxspans).le_of_within hm hpq hwithin
    exact .inr (.inl (by omega))
  · rcases hwithin.eq_or_below with rfl | hbelow
    · exact .inr (.inr hsilent)
    · exact hout m p q hbelow hm hpq
  · obtain ⟨u, v, hu, -, hxspans⟩ := hys.mem hx
    have := (hn.of_spans (by simp [hsplit, hx]) hxspans).le_of_within hm hpq hwithin
    exact .inl (by omega)

/-! ## braces -/

/-- What stands in braces: its elements stand between them, and are outside of other nodes. -/
theorem Stands.braces (hn : s.Stands n i j) (henclosed : n.Enclosed s.buffer "\x7b" "\x7d") :
    i + 2 ≤ j ∧
      (∀ t, s.At (j - 1) t → t.isOpeningParen = false ∧ t.isSemicolon = false) ∧
      s.Outside n (j - 1) ∧
      ∀ c ∈ n.codeChildren, ∃ a b, s.Stands c a b ∧ i < a ∧ a < b ∧ a < j - 1 ∧ s.Outside n a := by
  obtain ⟨hlen, -, ⟨r, hr, hvalue, -⟩, hitems⟩ := hn.enclosed henclosed (by decide) (by decide)
  obtain ⟨xs, ys, hchildren, hxs, hys⟩ := hn.exists_cut_closing henclosed (by decide)
  refine ⟨hlen, fun t ht => ?_, fun m p q hbelow hm hpq => ?_, fun c hc => ?_⟩
  · obtain rfl := Option.mem_unique hr ht
    simp [Token.isOpeningParen, Token.isSemicolon, Token.isPunctuator, hvalue]
  · rcases hn.outside_of_cut hchildren hxs hys hbelow hm hpq with hp | hq
    · exact .inl hp
    · exact .inr (.inl hq)
  · obtain ⟨a, b, hia, hab, hbj, hc'⟩ := hitems c hc
    exact ⟨a, b, hc', hia, hab, by omega, hn.outside henclosed.1 hc hc'⟩

variable (caseLevels) in
/-- A block places its statements one level from its brace. -/
theorem lists_block (g : s.root.Grammatical s.buffer) (hkind : n.kind = "statement_block")
    (hplace : ⟨n, ancestors⟩ ∈ s.root.visited []) (hn : s.Stands n i j) {left right : Token}
    (hleft : s.At i left) (hright : s.At (j - 1) right) :
    s.Lists caseLevels n j i n.codeChildren left (some right) 1 := by
  have hrule : Construct.ofKind? n.kind = some .block := by rw [hkind]; decide
  have henclosed : n.Enclosed s.buffer "\x7b" "\x7d" := shape_of_visited g hplace hrule
  obtain ⟨hlen, hlast, houtside, hitems⟩ := hn.braces henclosed
  have hij : i < j := by omega
  have hcommon := common_eq_nil_of_last hn hij (by rw [hkind]; decide) (by rw [hkind]; decide)
    hright (hlast _ hright).2
  have hdraft := visit?_block hrule hcommon ((hn.ends hij).first?_eq.trans hleft)
    ((hn.ends hij).last?_eq.trans hright) caseLevels ancestors
  refine ⟨⟨i, hij, hn⟩, ⟨ancestors, _, hplace, hdraft, [], rfl⟩, hleft, fun ht => (hlast _ ht).1, ?_, ?_⟩
  · intro t ht
    obtain rfl := Option.some.inj ht
    exact ⟨hright, by omega, houtside⟩
  · intro c hc
    obtain ⟨a, b, hc', hia, hab, haj, hout⟩ := hitems c hc
    exact ⟨a, b, hc', hia, hab, by omega, fun _ => haj, hout⟩

variable (caseLevels) in
/-- A switch statement places its clauses some levels from its brace. -/
theorem lists_switch (g : s.root.Grammatical s.buffer) (hkind : n.kind = "switch_statement")
    (hplace : ⟨n, ancestors⟩ ∈ s.root.visited []) (hn : s.Stands n i j) {clauses : Node}
    (hfield : n.field? "body" = some clauses) (hsilent : clauses.IsSilent)
    (hclauses : s.Stands clauses k j) {left right : Token} (hleft : s.At k left)
    (hright : s.At (j - 1) right) :
    s.Lists caseLevels n j k clauses.codeChildren left (some right) caseLevels := by
  have hrule : Construct.ofKind? n.kind = some .switch := by rw [hkind]; decide
  have hcompound : n.IsCompound := Node.isCompound_of_ofKind? hrule (by decide) (by decide)
  have hshape : n.SwitchShape s.buffer := shape_of_visited g hplace hrule
  obtain ⟨_, c, d, left', right', ⟨hfield', hmem⟩, henclosed, hstands, hat, hat', hends⟩ :=
    switch_endsWith hn hcompound hshape caseLevels
  obtain rfl := Option.mem_unique hfield hfield'
  have hkj := hn.lt_of_mem hmem hclauses
  obtain ⟨rfl, rfl⟩ := hclauses.unique hkj hstands
  obtain rfl := Option.mem_unique hleft hat
  obtain rfl := Option.mem_unique hright hat'
  obtain ⟨hlen, hlast, houtside, hitems⟩ := hclauses.braces henclosed
  obtain ⟨a, b, hia, hab, -, hmember⟩ := hn.child hcompound hmem
  obtain ⟨rfl, rfl⟩ := hclauses.unique hkj hmember
  have hij : i < b := by omega
  have hcommon := common_eq_nil_of_last hn hij (by rw [hkind]; decide) (by rw [hkind]; decide)
    hright (hlast _ hright).2
  obtain ⟨draft, hdraft, hback⟩ := visit?_endsWith hrule caseLevels ancestors hends hcommon
  refine ⟨⟨i, hij, hn⟩, ⟨ancestors, draft, hplace, hdraft, hback⟩, hleft, fun ht => (hlast _ ht).1,
    ?_, ?_⟩
  · intro t ht
    obtain rfl := Option.some.inj ht
    exact ⟨hright, by omega,
      hn.outside_of_child hcompound hmem hsilent hclauses (by omega) (by omega) houtside⟩
  · intro x hx
    obtain ⟨p, q, hx', hap, hpq, hpb, hout⟩ := hitems x hx
    exact ⟨p, q, hx', hap, hpq, by omega, fun _ => hpb,
      hn.outside_of_child hcompound hmem hsilent hclauses (by omega) (by omega) hout⟩

/-- A clause with a value places the statements behind its colon one level from its keyword. -/
theorem lists_clause (hkind : n.kind = "switch_case")
    (hplace : ⟨n, ancestors⟩ ∈ s.root.visited []) (hn : s.Stands n i j) (hij : i < j)
    {keyword : Token} (hkeyword : s.At i keyword) {value : Node}
    (hvalue : n.field? "value" = some value) {c d : Nat} (hstands : s.Stands value c d)
    (hcd : c < d) (hdj : d < j) (hcalm : s.Calm j) {items : List Node}
    (hitems : ∀ t, s.At d t → n.codeChildren.filter (t.stop ≤ ·.start) = items)
    (hblock : ∀ only, items = [only] → only.kind ≠ "statement_block")
    (hapart : ∀ x ∈ items, ∃ a b, s.Stands x a b ∧ i < a ∧ a < b ∧ a < j) :
    s.Lists caseLevels n j i items keyword none 1 := by
  have hrule : Construct.ofKind? n.kind = some .clause := by rw [hkind]; decide
  have hcompound : n.IsCompound := Node.isCompound_of_ofKind? hrule (by decide) (by decide)
  have hends := clause_endsWith hn hcompound hij hkeyword hvalue hstands hcd hdj hitems hblock
  have hcommon := common_eq_nil_of_kind (s := s) (n := n) (by rw [hkind]; decide)
    (by rw [hkind]; decide)
  obtain ⟨draft, hdraft, hback⟩ := visit?_endsWith hrule caseLevels ancestors hends hcommon
  refine ⟨⟨i, hij, hn⟩, ⟨ancestors, draft, hplace, hdraft, hback⟩, hkeyword,
    fun ht => hcalm.opening (by omega) ht, ?_, ?_⟩
  · intro t ht
    cases ht
  intro x hx
  obtain ⟨a, b, hx', hia, hab, haj⟩ := hapart x hx
  obtain ⟨colon, hcolon⟩ := hn.exists_at hdj
  rw [← hitems colon hcolon] at hx
  exact ⟨a, b, hx', hia, hab, haj, by simp, hn.outside hcompound (List.mem_filter.1 hx).1 hx'⟩

/-- A program places each statement at the level of the script around it. -/
theorem get?_of_statement (g : s.root.Grammatical s.buffer) (hkinds : s.HasNoFields)
    (hkind : s.root.kind = "program") (hcalm : s.Calm s.tokens.size) {c : Node}
    (hc : c ∈ s.root.codeChildren) {a b : Nat} (hstands : s.Stands c a b) (hcalm' : s.Calm a)
    {t : Token} (ht : s.At a t) :
    (s.analyze caseLevels).registry.get? t = some (startOf s t) := by
  have hn := stands_root g
  have hrule : Construct.ofKind? s.root.kind = some .program := by rw [hkind]; decide
  have hcompound : s.root.IsCompound := Node.isCompound_of_ofKind? hrule (by decide) (by decide)
  have hplace : ⟨s.root, []⟩ ∈ s.root.visited [] := Node.mem_visited_of_ofKind? hrule []
  have hab := hn.lt_of_mem hc hstands
  have hsize := (Array.getElem?_eq_some_iff.1 ht).1
  have hdraft := visit?_program hkind caseLevels [] fun c hc => exists_first_of_statement g hkind hc
  obtain ⟨u, hu, hfirst⟩ := (hstands.ends hab).exists_first?
  obtain rfl := Option.mem_unique ht hu
  refine get?_analyze (e := startOf s t) g hkinds hplace hn (by omega) hdraft ⟨[], rfl⟩
    (List.mem_map_of_mem (List.mem_filterMap.2 ⟨c, hc, hfirst⟩)) (fun d hd heq => ?_) ht
    ⟨hsize, hcalm', fun ht => hcalm.opening (by omega) ht, hn.outside hcompound hc hstands⟩
  obtain ⟨v, -, rfl⟩ := List.mem_map.1 hd
  obtain rfl : v = t := heq
  rfl

end Source

end ScriptIndent
