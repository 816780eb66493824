import ScriptIndent.Proofs.Offset.LineLevel
import ScriptIndent.Proofs.Rule.Imports

/-!
# ScriptIndent.Proofs.Offset.Imports

The line that the closing brace of an import leads.

```
each name is one level deeper than the brace,    import {
                                                   a
the closing brace is flush with that line,       } from "m";

whichever it is,                                 import
                                                   d, {
                                                     a
                                                   } from "m";

or deeper than that line                         import d, {
                                                   a
                                                   } from "m";
```

Behind the default, both braces are one level deeper than the keyword.  So the closing brace is
flush with the line of the opening brace if the default begins a line of its own, or the brace does;
and else, on the line of the keyword, the brace has the level of that line
(`Source.level_of_names`).
-/

namespace ScriptIndent

namespace Source

open Registry

variable {s : Source} {n keyword clause word module names opening closing : Node}
  {front items ancestors : List Node}

/-- Each name of an import is one level deeper than the opening brace.  The line that the closing
brace leads is at the level of the line of the opening brace, but one level deeper if there is a
default, and the opening brace is on the line of the keyword. -/
theorem level_of_names (h : s.Orderly) (hplace : ⟨n, ancestors⟩ ∈ s.root.visited [])
    (himports : n.ImportsNames s.buffer keyword clause word module names front)
    (hbraces : names.BracesNames s.buffer opening closing items) (caseLevels : Int) :
    ∃ start left right, s.firstOfNode? keyword = some start ∧ s.firstOfNode? opening = some left ∧
      s.firstOfNode? closing = some right ∧
      (∀ c ∈ items, c.kind = "import_specifier" → ∃ t, s.firstOfNode? c = some t ∧
        (s.analyze caseLevels).registry.get? t = some ⟨t, some left, 1⟩) ∧
      ∀ levels above rest below level, s.checkedLevels (s.analyze caseLevels) = .ok levels →
        s.lines = above ++ (right :: rest) :: below → (right.line, level) ∈ levels →
        ∃ l, s.levelOf? (s.analyze caseLevels) left = some l ∧
          (front = [] ∨ (¬∃ line ∈ s.lines, start ∈ line ∧ left ∈ line) → level = l) ∧
          (front ≠ [] → (∃ line ∈ s.lines, start ∈ line ∧ left ∈ line) → level = l + 1) := by
  have g := h.grammatical
  have hrule : Construct.ofKind? n.kind = some .importing := by rw [himports.kind_eq]; decide
  obtain ⟨i, j, hn⟩ := (found_of_visited g hplace).exists_stands hrule (by simp)
  obtain ⟨p, q, start, left, right, sign, token, hnames, hstart, hleft, hright⟩ :=
    exists_importedNames hn himports hbraces
  have hip := hnames.lt_left
  have hpq := hnames.left_lt
  refine ⟨start, left, right, hstart, hleft, hright,
    fun c hc hkind => hnames.get?_name hbraces hn himports h hplace hc hkind, ?_⟩
  intro levels above rest below level hlevels hlines hmem
  have hbrace {k : Nat} {t : Token} (hk : i < k ∧ k ≤ p ∨ k = q) (ht : s.At k t) :
      (s.analyze caseLevels).registry.get? t = some ⟨t, some start, Node.braceLevels front⟩ :=
    hnames.get?_brace hbraces hn himports h hplace ht hk
  obtain ⟨l, hl, hon, hapart⟩ := levelOf?_of_stretch g hnames.start_at hnames.left_at hip
    fun k u hik hkp hu => hbrace (.inl ⟨hik, hkp⟩) hu
  obtain ⟨l', hl', rfl⟩ := eq_of_leader g hlevels hnames.start_at hnames.right_at (by omega)
    (hbrace (.inr rfl) hnames.right_at) hlines hmem
  obtain rfl := Option.mem_unique hl hl'
  by_cases hline : ∃ line ∈ s.lines, start ∈ line ∧ left ∈ line
  · refine ⟨l, hon hline, fun hcases => ?_, fun hfront _ => ?_⟩
    · rw [hcases.resolve_right fun hnot => hnot hline]
      exact Int.add_zero l
    · rw [Node.braceLevels, if_neg (by simpa using hfront)]
  · exact ⟨_, hapart hline, fun _ => rfl, fun _ hline' => absurd hline' hline⟩

/-! ## an import of three lines -/

def importWord : Node := ⟨"import", false, false, false, [], 0, 6, []⟩

def openingBrace : Node := ⟨"\x7b", false, false, false, [], 10, 11, []⟩

def importedName : Node :=
  ⟨"import_specifier", true, false, false, [], 14, 15,
    [⟨"identifier", true, false, false, ["name"], 14, 15, []⟩]⟩

def closingBrace : Node := ⟨"\x7d", false, false, false, [], 16, 17, []⟩

def importedNames : Node :=
  ⟨"named_imports", true, false, false, [], 10, 17, [openingBrace, importedName, closingBrace]⟩

/-- Nothing before the names, or a default and a comma. -/
def importedDefault : Bool → List Node
  | false => []
  | true =>
    [⟨"identifier", true, false, false, [], 7, 8, []⟩, ⟨",", false, false, false, [], 8, 9, []⟩]

def importClause (default : Bool) : Node :=
  ⟨"import_clause", true, false, false, [], if default then 7 else 10, 17,
    importedDefault default ++ [importedNames]⟩

def importSign : Node := ⟨"from", false, false, false, [], 18, 22, []⟩

def importModule : Node :=
  ⟨"string", true, false, false, ["source"], 23, 26,
    [⟨"\"", false, false, false, [], 23, 24, []⟩,
      ⟨"string_fragment", true, false, false, [], 24, 25, []⟩,
      ⟨"\"", false, false, false, [], 25, 26, []⟩]⟩

def importStatement (default : Bool) : Node :=
  ⟨"import_statement", true, false, false, [], 0, 26,
    [importWord, importClause default, importSign, importModule]⟩

def importText : Bool → String
  | false => "import    \x7b\n  b\n\x7d from \"m\""
  | true => "import a, \x7b\n  b\n\x7d from \"m\""

/-- An import whose closing brace leads the last line. -/
def importSource (default : Bool) : Source :=
  .ofTree (importText default).toUTF8.data
    ⟨"program", true, false, false, [], 0, 26, [importStatement default]⟩ none []

section Import

variable (default : Bool)

theorem importedNames_bracesNames :
    importedNames.BracesNames (importSource default).buffer openingBrace closingBrace [importedName] where
  kind_eq := rfl
  isNamed := rfl
  parts_eq := rfl
  opening_spells := by cases default <;> decide +kernel
  closing_spells := by cases default <;> decide +kernel
  item_cases := by simp [importedName, Node.IsCode, Node.isComment, Node.isCommentKind]
  head := ⟨importedName, [], rfl, ⟨rfl, by decide⟩, rfl⟩

theorem importStatement_importsNames :
    (importStatement default).ImportsNames (importSource default).buffer importWord
      (importClause default) importSign importModule importedNames (importedDefault default) where
  kind_eq := rfl
  parts_eq := ⟨[], by cases default <;> rfl⟩
  keyword_spells := by cases default <;> decide +kernel
  word_spells := by cases default <;> decide +kernel
  source := by
    cases default <;> exact ⟨rfl, Node.mem_codeChildren.2 ⟨by simp [importStatement], rfl, by decide⟩⟩
  clause_kind := rfl
  clause_named := rfl
  clause_parts := by cases default <;> rfl
  front_default := by
    cases default
    · exact .none
    · exact .name ⟨rfl, by decide⟩ rfl rfl (by decide +kernel)

theorem importSource_orderly : (importSource default).Orderly := by
  refine .of_passes (by cases default <;> decide +kernel) ?_
  have hnodes : (importSource default).root.nodes.filter Node.isRuled =
      [(importSource default).root, importStatement default, importedName] := by
    cases default <;> rfl
  have himports := importStatement_importsNames default
  have hbraces := importedNames_bracesNames default
  have hshape : (importStatement default).ImportingShape (importSource default).buffer := by
    refine ⟨importWord, importModule, ⟨"import", himports.keyword_spells, by decide⟩, himports.source,
      ?_, fun clause hclause => ?_⟩
    · exact .cons_cons _ (.cons _ (.cons _ (.refl _)))
    · obtain rfl : importClause default = clause := by cases default <;> exact Option.some.inj hclause
      refine ⟨himports.clause_mem, himports.clause_isCompound, fun names hnames hkind => ?_⟩
      have hnames : names = importedNames := by
        cases default
        · exact List.mem_singleton.1 hnames
        · rcases List.mem_cons.1 hnames with rfl | hnames
          · exact absurd hkind (by decide)
          · exact List.mem_singleton.1 hnames
      rw [hnames]
      exact ⟨hbraces.isCompound, openingBrace, [importedName], closingBrace, rfl,
        hbraces.opening_spells, hbraces.closing_spells⟩
  simp only [hnodes, List.forall_mem_cons]
  refine ⟨.of_shape .program (show Construct.ofKind? "program" = _ by decide) trivial,
    .of_shape .importing (show Construct.ofKind? "import_statement" = _ by decide) hshape,
    .of_shape .importSpecifier (show Construct.ofKind? "import_specifier" = _ by decide) ?_, by simp⟩
  cases default <;> exact show 0 < _ by decide +kernel

theorem importStatement_mem_visited :
    ⟨importStatement default, [(importSource default).root]⟩ ∈ (importSource default).root.visited [] := by
  cases default <;> exact List.mem_of_getElem? (i := 1) rfl

theorem sorted_importSource :
    ((importSource default).tokens.toList ++ (importSource default).comments).Pairwise
      fun a b => decide (a.start ≤ b.start) = true := by
  cases default <;> decide +kernel

theorem checkedLevels_importSource :
    (importSource default).checkedLevels ((importSource default).analyze 1) =
      .ok [(1, 0), (2, 1), (3, if default then 1 else 0)] := by
  cases default <;>
    exact checkedLevels_eq_ok (sorted_importSource _) (by decide +kernel) (by decide +kernel)
      (by decide +kernel)

end Import

/-- Without a default, the closing brace is flush with the line of the opening brace. -/
theorem level_of_names_alone :
    ∃ left l, (importSource false).firstOfNode? openingBrace = some left ∧
      (importSource false).levelOf? ((importSource false).analyze 1) left = some l ∧ 0 = l := by
  have hlines : (importSource false).lines =
      [[⟨0, 6, .keyword, "import", 1, 0, 1, some 0⟩, ⟨10, 11, .punctuator, "\x7b", 1, 10, 1, some 1⟩],
        [⟨14, 15, .identifier, "b", 2, 2, 2, some 2⟩]] ++
      [⟨16, 17, .punctuator, "\x7d", 3, 0, 3, some 3⟩, ⟨18, 22, .keyword, "from", 3, 2, 3, some 4⟩,
        ⟨23, 26, .string, "\"m\"", 3, 7, 3, some 5⟩] :: [] := by
    rw [lines_eq_groupsFrom (sorted_importSource false)]
    decide +kernel
  obtain ⟨start, left, right, -, hleft, hright, -, hlevel⟩ :=
    level_of_names (importSource_orderly false) (importStatement_mem_visited false)
      (importStatement_importsNames false) (importedNames_bracesNames false) 1
  have hbrace : (importSource false).firstOfNode? closingBrace =
      some ⟨16, 17, .punctuator, "\x7d", 3, 0, 3, some 3⟩ := by decide +kernel
  obtain rfl := Option.mem_unique hright hbrace
  obtain ⟨l, hl, hflush, -⟩ := hlevel _ _ _ _ 0 (checkedLevels_importSource false) hlines (by simp)
  exact ⟨left, l, hleft, hl, hflush (.inl rfl)⟩

/-- Behind a default, it is one level deeper, when the opening brace is on the line of the keyword. -/
theorem checkedLevels_defaultImport :
    (importSource true).Orderly ∧
      ⟨importStatement true, [(importSource true).root]⟩ ∈ (importSource true).root.visited [] ∧
      (importStatement true).ImportsNames (importSource true).buffer importWord (importClause true)
        importSign importModule importedNames (importedDefault true) ∧
      importedNames.BracesNames (importSource true).buffer openingBrace closingBrace [importedName] ∧
      ∃ left right : Token, (importSource true).firstOfNode? openingBrace = some left ∧
        (importSource true).firstOfNode? closingBrace = some right ∧
        (left.line, right.line) = (1, 3) ∧
        (∃ first line, (first :: line) ∈ (importSource true).lines ∧ left ∈ line ∧ first.line = 1) ∧
        (∃ rest, right :: rest ∈ (importSource true).lines) ∧
        (importSource true).checkedLevels ((importSource true).analyze 1) =
          .ok [(1, 0), (2, 1), (3, 1)] := by
  refine ⟨importSource_orderly true, importStatement_mem_visited true,
    importStatement_importsNames true, importedNames_bracesNames true,
    ⟨10, 11, .punctuator, "\x7b", 1, 10, 1, some 3⟩, ⟨16, 17, .punctuator, "\x7d", 3, 0, 3, some 5⟩,
    by decide +kernel, by decide +kernel, rfl,
    ⟨⟨0, 6, .keyword, "import", 1, 0, 1, some 0⟩, [⟨7, 8, .identifier, "a", 1, 7, 1, some 1⟩,
      ⟨8, 9, .punctuator, ",", 1, 8, 1, some 2⟩, ⟨10, 11, .punctuator, "\x7b", 1, 10, 1, some 3⟩],
      ?_, by simp, rfl⟩,
    ⟨[⟨18, 22, .keyword, "from", 3, 2, 3, some 6⟩, ⟨23, 26, .string, "\"m\"", 3, 7, 3, some 7⟩], ?_⟩,
    checkedLevels_importSource true⟩ <;>
  · rw [lines_eq_groupsFrom (sorted_importSource true)]
    decide +kernel

end Source

end ScriptIndent
