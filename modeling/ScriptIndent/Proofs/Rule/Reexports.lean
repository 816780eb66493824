import ScriptIndent.Proofs.Rule.Lasting

/-!
# ScriptIndent.Proofs.Rule.Reexports

Exports of all that a module exports.

```
export *        the keyword
  as all        a name for the module is indented from the star
from            the last word before the module is flush with the keyword
  "m";          and the module is indented from that word
```

An import looks for the last `from` before its module, an export for the first one behind its
keyword.  These are the same token, and the entries are those of the picture, unless the name for
the module reads `from`, too: then the export takes the name for the word, and what stands behind
the name is indented from it (`Rule.visit?_exportsAll`).
-/

namespace ScriptIndent

namespace Node

/-- One token is made of the node: it is a name, a keyword or a string. -/
def IsSingle (b : Buffer) (n : Node) : Prop := Piece.codeCount (n.pieces b) = 1

/-- An export of all that a module exports.  Something stands for that between the keyword and
`from`. -/
structure ExportsAll (b : Buffer) (n keyword all word module : Node) : Prop where
  kind_eq : n.kind = "export_statement"
  parts_eq : ∃ rest, n.parts = keyword :: all :: word :: module :: rest
  keyword_spells : keyword.Spells b "export"
  word_spells : word.Spells b "from"
  source : n.IsPart "source" module
  source_kind : module.kind = "string"
  no_default : n.keyword? "default" = none
  no_declaration : n.field? "declaration" = none
  no_clause : n.childOfKind? "export_clause" = none

/-- A name for all that a module exports. -/
structure NamesAll (b : Buffer) (n star sign name : Node) : Prop where
  kind_eq : n.kind = "namespace_export"
  parts_eq : n.parts = [star, sign, name]
  star_spells : star.Spells b "*"
  sign_spells : sign.Spells b "as"
  name_single : name.IsSingle b

end Node

namespace Rule

open Draft

variable {s : Source} {n keyword all word module : Node}

/-! ## rows of tokens -/

/-- Entries for tokens of a row are all recorded. -/
theorem records_of_row {k : Nat} {es : List Entry} (h : Row s k (es.map Entry.token)) {e : Entry}
    (he : e ∈ es) : (write es).Records e :=
  records_write he fun _ hd heq => List.inj_on_of_nodup_map h.nodup hd he heq

theorem offsets_eq_write {tokens : List Token} {base : Token} (h : base ∉ tokens) (levels : Int) :
    offsets tokens levels base = write (tokens.map fun t => ⟨t, some base, levels⟩) := by
  have hfilter : tokens.filter (· ≠ base) = tokens :=
    List.filter_eq_self.2 fun t ht => by simpa using fun heq : t = base => h (heq ▸ ht)
  rw [offsets, Entry.offsets, hfilter]

/-! ## what is exported -/

/-- A list is split at its first `from`. -/
theorem span_isFrom {before after : List Token} {sign : Token}
    (hbefore : ∀ t ∈ before, isFrom t = false) (hsign : isFrom sign = true) :
    (before ++ sign :: after).span (!isFrom ·) = (before, sign :: after) := by
  rw [List.span_eq_takeWhile_dropWhile, List.takeWhile_append_of_pos (by simpa using hbefore),
    List.dropWhile_append_of_pos (by simpa using hbefore)]
  simp [hsign]

section ExportAll

variable {start sign token : Token} {before after : List Token} {i : Nat}

/-- What is exported is the star, when no name for the module is given. -/
theorem exportAll_eq (hbetween : s.between start module = before ++ sign :: after)
    (hbefore : ∀ t ∈ before, isFrom t = false) (hsign : isFrom sign = true)
    (htoken : s.firstOfNode? module = some token)
    (hrow : Row s i (start :: (before ++ sign :: after ++ [token])))
    (hall : (n.childOfKind? "namespace_export").isNone = true) :
    exportAll s n start module =
      write (before.map (⟨·, some start, 1⟩) ++
        ⟨sign, some start, 0⟩ :: (after ++ [token]).map (⟨·, some sign, 1⟩)) := by
  have hnodup := hrow.nodup
  simp only [List.nodup_cons, List.nodup_append, List.mem_append, List.mem_cons, List.append_assoc,
    List.cons_append] at hnodup
  rw [exportAll, hbetween, span_isFrom hbefore hsign]
  dsimp only
  rw [first_bind htoken, if_pos hall, offset, offsets_eq_write (by tauto), offsets_eq_write (by simp; tauto),
    offsets_eq_write (by simp; tauto)]
  rfl

/-- A name for the module is placed behind the star. -/
theorem exportAll_eq_of_names {star as : Token} {more : List Token}
    (hbetween : s.between start module = (star :: as :: more) ++ sign :: after)
    (hbefore : ∀ t ∈ star :: as :: more, isFrom t = false) (hsign : isFrom sign = true)
    (hstar : star.value = "*") (has : as.value = "as")
    (htoken : s.firstOfNode? module = some token)
    (hrow : Row s i (start :: ((star :: as :: more) ++ sign :: after ++ [token])))
    (hall : (n.childOfKind? "namespace_export").isNone = false) :
    exportAll s n start module =
      write (⟨star, some start, 1⟩ :: ((as :: more).map (⟨·, some star, 1⟩) ++
        ⟨sign, some start, 0⟩ :: (after ++ [token]).map (⟨·, some sign, 1⟩))) := by
  have hnodup := hrow.nodup
  simp only [List.nodup_cons, List.nodup_append, List.mem_append, List.mem_cons, List.append_assoc,
    List.cons_append] at hnodup
  have hspan : (star :: as :: more).span (·.value != "as") = ([star], as :: more) := by
    simp [List.span_eq_takeWhile_dropWhile, hstar, has]
  rw [exportAll, hbetween, span_isFrom hbefore hsign]
  dsimp only
  rw [first_bind htoken, if_neg (by simp [hall]), hspan]
  simp only [List.getLast?_singleton]
  rw [offset, offsets_eq_write (by simp; tauto), offsets_eq_write (by simp; tauto),
    offsets_eq_write (by simp; tauto), offsets_eq_write (by simp; tauto)]
  rfl

end ExportAll

/-- An export without a declaration and without names is one of all. -/
theorem exporting_eq {start : Token} (hkeyword : n.keyword? "export" = some keyword)
    (hstart : s.firstOfNode? keyword = some start) (hdefault : n.keyword? "default" = none)
    (hdeclaration : n.field? "declaration" = none) (hclause : n.childOfKind? "export_clause" = none)
    (hsource : n.field? "source" = some module) : exporting s n = exportAll s n start module := by
  have hfirst : first s keyword = pure start := by rw [first, hstart, require]
  simp only [exporting, Draft.keyword?, hkeyword, hdefault, hdeclaration, hfirst, map_pure, pure_bind,
    hclause, hsource]

/-! ## where the parts of an export stand -/

/-- The tokens of an export of all that a module exports: the keyword at place `i`, `from` at place
`c`, and the module behind it. -/
structure ExportedAll (s : Source) (n keyword all word module : Node) (i c j : Nat)
    (start sign token : Token) : Prop where
  start_at : s.At i start
  start_first : s.firstOfNode? keyword = some start
  all_stands : s.Stands all (i + 1) c
  sign_at : s.At c sign
  sign_first : s.firstOfNode? word = some sign
  isFrom : isFrom sign = true
  token_at : s.At (c + 1) token
  token_first : s.firstOfNode? module = some token
  token_kind : token.kind = .string
  lt : c + 1 < j
  row : Row s (i + 1) (s.between start module)
  length : (s.between start module).length = c - i
  exporting_eq : exporting s n = exportAll s n start module

theorem exists_exportedAll {i j : Nat} (hn : s.Stands n i j)
    (h : n.ExportsAll s.buffer keyword all word module) :
    ∃ c start sign token, ExportedAll s n keyword all word module i c j start sign token := by
  have hcompound : n.IsCompound := by
    rw [Node.IsCompound, Node.isComment, h.kind_eq]
    decide
  obtain ⟨rest, hparts⟩ := h.parts_eq
  have hmem : ∀ c ∈ n.parts, c ∈ n.children := fun c hc => (List.mem_filter.1 hc).1
  have hrun := hn.run_parts hcompound
    (List.ne_nil_of_mem (hmem keyword (by rw [hparts]; exact List.mem_cons_self)))
  rw [hparts] at hrun hmem
  obtain ⟨a, hkeyword, c, hall, d, hword, e, hmodule, hrest⟩ := hrun
  have hkeyword := hn.of_spans (hmem keyword (by simp)) hkeyword
  have hword := hn.of_spans (hmem word (by simp)) hword
  have hmodule := hn.of_spans (hmem module (by simp)) hmodule
  have hall := hn.of_spans (hmem all (by simp)) hall
  obtain ⟨rfl, start, hstart, -⟩ := hkeyword.spells h.keyword_spells (by decide)
  obtain ⟨rfl, sign, hsign, hvalue, -⟩ := hword.spells h.word_spells (by decide)
  have hlt := hn.lt_of_mem h.source.2 hmodule
  have hle := (hrest.chain (List.nil_sublist _)).le
  obtain ⟨-, token, htoken, hkind⟩ := hmodule.leaf hlt (by rw [h.source_kind]; decide)
    (by simp [h.source_kind, Node.isAtomicKind])
  rw [h.source_kind] at hkind
  have hstartFirst := (hkeyword.ends (Nat.lt_succ_self i)).first?_eq.trans hstart
  obtain ⟨hrow, hlength⟩ := row_between (s.ends_token hstart) (hmodule.ends hlt)
  have := hall.le
  exact ⟨c, start, sign, token, hstart, hstartFirst, hall, hsign,
    (hword.ends (Nat.lt_succ_self c)).first?_eq.trans hsign, by rw [isFrom, hvalue]; rfl, htoken,
    (hmodule.ends hlt).first?_eq.trans htoken, hkind, by omega, hrow, by omega,
    exporting_eq (Node.keyword?_of_parts hparts h.keyword_spells (by decide)) hstartFirst
      h.no_default h.no_declaration h.no_clause h.source.1⟩

namespace ExportedAll

variable {i c j : Nat} {start sign token : Token}
  (h : ExportedAll s n keyword all word module i c j start sign token)

include h

/-- The word before the module is the last `from` before it. -/
theorem exists_importHead : ∃ before,
    ImportHead.of (s.between start module) token = ⟨before, some sign, [token]⟩ := by
  have hlt := h.all_stands.le
  have hlast : (s.between start module).getLast? = some sign := by
    rw [List.getLast?_eq_getElem?, h.length, ← h.row.mem_of_at h.sign_at (by omega)
      (by rw [h.length]; omega)]
    congr 1
  obtain ⟨before, hbefore⟩ := List.getLast?_eq_some_iff.1 hlast
  exact ⟨before, by rw [hbefore, ImportHead.of_append h.isFrom]⟩

/-- What the rule records for the tokens behind the keyword, a visit records. -/
theorem visit?_records (hn : s.Stands n i j) (hkind : n.kind = "export_statement")
    {es : List Entry} (hwrite : exporting s n = write es) (hrow : Row s (i + 1) (es.map Entry.token))
    (hlength : es.length ≤ c - i + 1) {ancestors : List Node} (caseLevels : Int) {e : Entry}
    (he : e ∈ es) :
    ∃ draft, visit? s caseLevels ⟨n, ancestors⟩ = some draft ∧ draft.Records e := by
  obtain ⟨l, hil, hlc, hl⟩ := hrow.mem (List.mem_map_of_mem he)
  have hle := h.all_stands.le
  have hlt := h.lt
  rw [List.length_map] at hlc
  have hrule : Construct.ofKind? n.kind = some .exporting := by rw [hkind]; decide
  refine Rule.visit?_records hrule ?_ hl fun d hd =>
    common_elsewhere hn (by omega) (by omega) hl (fun _ hsemicolon => ?_) hd
  · rw [ofConstruct, hwrite]
    exact records_of_row hrow he
  · -- the last of these tokens is no semicolon
    by_contra hend
    obtain rfl : l = c + 1 := by omega
    obtain rfl := Option.mem_unique hl h.token_at
    simp [Token.isSemicolon, Token.isPunctuator, h.token_kind] at hsemicolon

/-- A star between the keyword and `from`. -/
theorem exporting_star (hall : all.Spells s.buffer "*")
    (hnone : n.childOfKind? "namespace_export" = none) :
    c = i + 2 ∧ ∃ star, Row s (i + 1) [star, sign, token] ∧ exporting s n =
      write [⟨star, some start, 1⟩, ⟨sign, some start, 0⟩, ⟨token, some sign, 1⟩] := by
  obtain ⟨rfl, star, hstar, hvalue, -⟩ := h.all_stands.spells hall (by decide)
  have hrow : Row s (i + 1) [star, sign, token] :=
    row_cons hstar (row_cons h.sign_at (row_cons h.token_at (row_nil _)))
  have hbetween : s.between start module = [star] ++ sign :: [] :=
    h.row.eq (row_cons hstar (row_cons h.sign_at (row_nil _))) (by rw [h.length]; simp; omega)
  refine ⟨rfl, star, hrow, ?_⟩
  rw [h.exporting_eq, exportAll_eq hbetween (by simp [Rule.isFrom, hvalue]) h.isFrom h.token_first
    (row_cons h.start_at hrow) (by rw [hnone]; rfl)]
  rfl

/-- The tokens of a name for the module. -/
theorem exists_names {star as name : Node} (hnames : all.NamesAll s.buffer star as name) :
    c = i + 4 ∧ ∃ u v w, Row s (i + 1) [u, v, w, sign, token] ∧
      s.firstOfNode? star = some u ∧ s.firstOfNode? as = some v ∧ s.firstOfNode? name = some w ∧
      u.value = "*" ∧ v.value = "as" ∧ s.between start module = [u, v, w, sign] := by
  have hcompound : all.IsCompound := by
    rw [Node.IsCompound, Node.isComment, hnames.kind_eq]
    decide
  have hmem : ∀ c ∈ all.parts, c ∈ all.children := fun c hc => (List.mem_filter.1 hc).1
  have hrun := h.all_stands.run_parts hcompound
    (List.ne_nil_of_mem (hmem star (by simp [hnames.parts_eq])))
  rw [hnames.parts_eq] at hrun hmem
  obtain ⟨a, hstar, d, has, e, hname, rfl⟩ := hrun
  have hstar := h.all_stands.of_spans (hmem star (by simp)) hstar
  have has := h.all_stands.of_spans (hmem as (by simp)) has
  have hname := h.all_stands.of_spans (hmem name (by simp)) hname
  obtain ⟨rfl, u, hu, huvalue, -⟩ := hstar.spells hnames.star_spells (by decide)
  obtain ⟨rfl, v, hv, hvvalue, -⟩ := has.spells hnames.sign_spells (by decide)
  obtain rfl : e = i + 4 := by rw [hname.spans.stop_eq, hnames.name_single]
  obtain ⟨w, hw, hwFirst⟩ := (hname.ends (by omega)).exists_first?
  have hrow (ts : List Token) (hts : Row s (i + 4) ts) : Row s (i + 1) (u :: v :: w :: ts) :=
    row_cons hu (row_cons hv (row_cons hw hts))
  refine ⟨rfl, u, v, w, hrow _ (row_cons h.sign_at (row_cons h.token_at (row_nil _))),
    (hstar.ends (by omega)).first?_eq.trans hu, (has.ends (by omega)).first?_eq.trans hv, hwFirst,
    huvalue, hvvalue, ?_⟩
  exact h.row.eq (hrow _ (row_cons h.sign_at (row_nil _))) (by rw [h.length]; simp)

/-- The first `from` is the one before the module, or a name for the module that reads so. -/
theorem exporting_names {u v w : Token} (hsome : (n.childOfKind? "namespace_export").isSome = true)
    (hrow : Row s (i + 1) [u, v, w, sign, token]) (hu : u.value = "*") (hv : v.value = "as")
    (hbetween : s.between start module = [u, v, w, sign]) :
    exporting s n =
      if w.value = "from" then
        write [⟨u, some start, 1⟩, ⟨v, some u, 1⟩, ⟨w, some start, 0⟩, ⟨sign, some w, 1⟩,
          ⟨token, some w, 1⟩]
      else
        write [⟨u, some start, 1⟩, ⟨v, some u, 1⟩, ⟨w, some u, 1⟩, ⟨sign, some start, 0⟩,
          ⟨token, some sign, 1⟩] := by
  have hrow := row_cons h.start_at hrow
  have hnone : (n.childOfKind? "namespace_export").isNone = false := by
    rw [← Option.not_isSome, hsome, Bool.not_true]
  rw [h.exporting_eq]
  split
  · next hw =>
    rw [exportAll_eq_of_names (show _ = [u, v] ++ w :: [sign] from hbetween)
      (by simp [Rule.isFrom, hu, hv]) (by simp [Rule.isFrom, hw]) hu hv h.token_first hrow hnone]
    rfl
  · next hw =>
    rw [exportAll_eq_of_names (show _ = [u, v, w] ++ sign :: [] from hbetween)
      (by simp [Rule.isFrom, hu, hv, hw]) h.isFrom hu hv h.token_first hrow hnone]
    rfl

end ExportedAll

/-- A visit to an export of all that a module exports goes through.  The word before the module is
the last `from` before it.  It is flush with the keyword and the module is indented from it, and a
name for the module is indented from the star.  But a name that reads `from` is flush with the
keyword itself, and then the word and the module are indented from the name. -/
theorem visit?_exportsAll (g : s.root.Grammatical s.buffer) {ancestors : List Node}
    (hplace : ⟨n, ancestors⟩ ∈ s.root.visited [])
    (h : n.ExportsAll s.buffer keyword all word module) (caseLevels : Int) :
    ∃ draft start sign token before, visit? s caseLevels ⟨n, ancestors⟩ = some draft ∧
      draft.result = .ok () ∧ s.firstOfNode? keyword = some start ∧
      s.firstOfNode? word = some sign ∧ s.firstOfNode? module = some token ∧
      ImportHead.of (s.between start module) token = ⟨before, some sign, [token]⟩ ∧
      (all.Spells s.buffer "*" → n.childOfKind? "namespace_export" = none →
        draft.Records ⟨sign, some start, 0⟩ ∧ draft.Records ⟨token, some sign, 1⟩) ∧
      ∀ star as name, all.NamesAll s.buffer star as name → ∃ u v w,
        s.firstOfNode? star = some u ∧ s.firstOfNode? as = some v ∧
        s.firstOfNode? name = some w ∧ draft.Records ⟨v, some u, 1⟩ ∧
        (w.value ≠ "from" → draft.Records ⟨w, some u, 1⟩ ∧ draft.Records ⟨sign, some start, 0⟩ ∧
          draft.Records ⟨token, some sign, 1⟩) ∧
        (w.value = "from" → draft.Records ⟨w, some start, 0⟩ ∧ draft.Records ⟨sign, some w, 1⟩ ∧
          draft.Records ⟨token, some w, 1⟩) := by
  have hrule : Construct.ofKind? n.kind = some .exporting := by rw [h.kind_eq]; decide
  obtain ⟨i, j, hn⟩ := (Source.found_of_visited g hplace).exists_stands hrule (by simp)
  obtain ⟨c, start, sign, token, hexported⟩ := exists_exportedAll hn h
  obtain ⟨before, hhead⟩ := hexported.exists_importHead
  obtain ⟨draft, hdraft⟩ : ∃ draft, visit? s caseLevels ⟨n, ancestors⟩ = some draft :=
    ⟨_, visit?_eq hrule s caseLevels ancestors⟩
  obtain ⟨-, ⟨⟩, hok, -⟩ := visit?_meets g hplace caseLevels hdraft
  have hrecords {es : List Entry} (hwrite : exporting s n = write es)
      (hrow : Row s (i + 1) (es.map Entry.token)) (hlength : es.length ≤ c - i + 1) {e : Entry}
      (he : e ∈ es) : draft.Records e := by
    obtain ⟨draft', hdraft', hrecords⟩ :=
      hexported.visit?_records hn h.kind_eq hwrite hrow hlength caseLevels he
    obtain rfl := Option.mem_unique hdraft hdraft'
    exact hrecords
  refine ⟨draft, start, sign, token, before, hdraft, hok, hexported.start_first,
    hexported.sign_first, hexported.token_first, hhead, fun hall hnone => ?_,
    fun star as name hnames => ?_⟩
  · obtain ⟨rfl, star, hrow, hwrite⟩ := hexported.exporting_star hall hnone
    exact ⟨hrecords hwrite hrow (by simp) (by simp),
      hrecords hwrite hrow (by simp) (by simp)⟩
  · obtain ⟨rfl, u, v, w, hrow, hu, hv, hw, huvalue, hvvalue, hbetween⟩ :=
      hexported.exists_names hnames
    have hsome : (n.childOfKind? "namespace_export").isSome = true := by
      obtain ⟨rest, hparts⟩ := h.parts_eq
      refine List.find?_isSome.2 ⟨all, ?_, by simp [hnames.kind_eq]⟩
      exact (List.mem_filter.1 (show all ∈ n.parts by simp [hparts])).1
    have hwrite := hexported.exporting_names hsome hrow huvalue hvvalue hbetween
    refine ⟨u, v, w, hu, hv, hw, ?_⟩
    by_cases hfrom : w.value = "from"
    · rw [if_pos hfrom] at hwrite
      have hrecords {e : Entry} := hrecords (e := e) hwrite hrow (by simp)
      exact ⟨hrecords (by simp), fun hne => absurd hfrom hne,
        fun _ => ⟨hrecords (by simp), hrecords (by simp), hrecords (by simp)⟩⟩
    · rw [if_neg hfrom] at hwrite
      have hrecords {e : Entry} := hrecords (e := e) hwrite hrow (by simp)
      exact ⟨hrecords (by simp), fun _ => ⟨hrecords (by simp), hrecords (by simp),
        hrecords (by simp)⟩, fun heq => absurd heq hfrom⟩

/-! ## a name that reads `from` -/

def exportWord : Node := ⟨"export", false, false, false, [], 0, 6, []⟩

def starSign : Node := ⟨"*", false, false, false, [], 7, 8, []⟩

def asWord : Node := ⟨"as", false, false, false, [], 9, 11, []⟩

def allName : Node := ⟨"identifier", true, false, false, [], 12, 16, []⟩

def allNamed : Node :=
  ⟨"namespace_export", true, false, false, [], 7, 16, [starSign, asWord, allName]⟩

def fromWord : Node := ⟨"from", false, false, false, [], 17, 21, []⟩

def moduleName : Node :=
  ⟨"string", true, false, false, ["source"], 22, 25,
    [⟨"\"", false, false, false, [], 22, 23, []⟩,
      ⟨"string_fragment", true, false, false, [], 23, 24, []⟩,
      ⟨"\"", false, false, false, [], 24, 25, []⟩]⟩

def exportOfAll : Node :=
  ⟨"export_statement", true, false, false, [], 0, 25, [exportWord, allNamed, fromWord, moduleName]⟩

/-- All of a module, exported under the name `main`, or under the name `from`. -/
def exportText : Bool → String
  | false => "export * as main\nfrom \"m\""
  | true => "export * as from\nfrom \"m\""

def exportSource (named : Bool) : Source :=
  .ofTree (exportText named).toUTF8.data
    ⟨"program", true, false, false, [], 0, 25, [exportOfAll]⟩ none []

section Named

variable (named : Bool)

theorem exportWord_spells : exportWord.Spells (exportSource named).buffer "export" := by
  cases named <;> decide +kernel

theorem fromWord_spells : fromWord.Spells (exportSource named).buffer "from" := by
  cases named <;> decide +kernel

theorem allNamed_namesAll : allNamed.NamesAll (exportSource named).buffer starSign asWord allName where
  kind_eq := rfl
  parts_eq := rfl
  star_spells := by cases named <;> decide +kernel
  sign_spells := by cases named <;> decide +kernel
  name_single := by cases named <;> exact Node.codeCount_of_leaf (by decide) (by decide) rfl

theorem exportOfAll_exportsAll :
    exportOfAll.ExportsAll (exportSource named).buffer exportWord allNamed fromWord moduleName where
  kind_eq := rfl
  parts_eq := ⟨[], rfl⟩
  keyword_spells := exportWord_spells named
  word_spells := fromWord_spells named
  source := ⟨rfl, Node.mem_codeChildren.2 ⟨by simp [exportOfAll], rfl, by decide⟩⟩
  source_kind := rfl
  no_default := rfl
  no_declaration := rfl
  no_clause := rfl

theorem exportSource_grammatical : (exportSource named).root.Grammatical (exportSource named).buffer := by
  refine .of_passes (by cases named <;> decide +kernel) ?_
  have hnodes : (exportSource named).root.nodes.filter Node.isRuled =
      [(exportSource named).root, exportOfAll] := by cases named <;> rfl
  have hnames := allNamed_namesAll named
  have hexports := exportOfAll_exportsAll named
  have hshape : exportOfAll.ExportingShape (exportSource named).buffer := by
    refine ⟨exportWord, rfl, hexports.keyword_spells, fun target htarget => ?_, fun _ hword => ?_,
      fun _ hclause => ?_, fun module hmodule => ?_⟩
    · rcases htarget with htarget | htarget <;> cases htarget
    · cases hword
    · cases hclause
    · obtain rfl := Option.mem_unique hmodule hexports.source.1
      exact ⟨hexports.source.2, Node.mem_codeChildren.2 ⟨by simp [exportOfAll], rfl, by decide⟩,
        ⟨by decide, by decide⟩, ⟨starSign, asWord, [allName], hnames.star_spells,
          hnames.sign_spells, rfl⟩, fromWord, [], hexports.word_spells, rfl⟩
  simp only [hnodes, List.forall_mem_cons]
  exact ⟨.of_shape .program (show Construct.ofKind? "program" = _ by decide) trivial,
    .of_shape .exporting (show Construct.ofKind? "export_statement" = _ by decide) hshape, by simp⟩

theorem exportOfAll_mem_visited :
    ⟨exportOfAll, [(exportSource named).root]⟩ ∈ (exportSource named).root.visited [] := by
  cases named <;> exact List.mem_of_getElem? (i := 1) rfl

end Named

/-- A name for the module that reads otherwise is indented from the star. -/
theorem visit?_exportsAll_main :
    ∃ draft start sign token star name,
      visit? (exportSource false) 1 ⟨exportOfAll, [(exportSource false).root]⟩ = some draft ∧
      (start.value, sign.value, token.value, star.value, name.value) =
        ("export", "from", "\"m\"", "*", "main") ∧
      draft.Records ⟨sign, some start, 0⟩ ∧ draft.Records ⟨token, some sign, 1⟩ ∧
      draft.Records ⟨name, some star, 1⟩ := by
  obtain ⟨draft, start, sign, token, -, hdraft, -, hstart, hsign, htoken, -, -, hnames⟩ :=
    visit?_exportsAll (exportSource_grammatical false) (exportOfAll_mem_visited false)
      (exportOfAll_exportsAll false) 1
  obtain ⟨star, -, name, hstar, -, hname, -, hother, -⟩ := hnames _ _ _ (allNamed_namesAll false)
  have hvalues : ((exportSource false).firstOfNode? exportWord).map Token.value = some "export" ∧
      ((exportSource false).firstOfNode? fromWord).map Token.value = some "from" ∧
      ((exportSource false).firstOfNode? moduleName).map Token.value = some "\"m\"" ∧
      ((exportSource false).firstOfNode? starSign).map Token.value = some "*" ∧
      ((exportSource false).firstOfNode? allName).map Token.value = some "main" := by
    decide +kernel
  simp only [hstart, hsign, htoken, hstar, hname, Option.map_some, Option.some.injEq] at hvalues
  obtain ⟨h₁, h₂, h₃, h₄, h₅⟩ := hvalues
  obtain ⟨hnamed, hword, hmodule⟩ := hother (by rw [h₅]; decide)
  exact ⟨draft, start, sign, token, star, name, hdraft, by rw [h₁, h₂, h₃, h₄, h₅], hword, hmodule,
    hnamed⟩

/-- All of a module, exported under the name `from`: the word before the module is not flush with
the keyword, but placed below the name. -/
theorem visit?_exportsAll_from :
    (exportSource true).root.Grammatical (exportSource true).buffer ∧
      ⟨exportOfAll, [(exportSource true).root]⟩ ∈ (exportSource true).root.visited [] ∧
      exportOfAll.ExportsAll (exportSource true).buffer exportWord allNamed fromWord moduleName ∧
      allNamed.NamesAll (exportSource true).buffer starSign asWord allName ∧
      ∃ draft start sign name,
        visit? (exportSource true) 1 ⟨exportOfAll, [(exportSource true).root]⟩ = some draft ∧
        (exportSource true).firstOfNode? exportWord = some start ∧
        (exportSource true).firstOfNode? fromWord = some sign ∧
        (exportSource true).firstOfNode? allName = some name ∧
        (Registry.record {} draft.writes).get? sign = some ⟨sign, some name, 1⟩ ∧
        ¬draft.Records ⟨sign, some start, 0⟩ := by
  refine ⟨exportSource_grammatical true, exportOfAll_mem_visited true, exportOfAll_exportsAll true,
    allNamed_namesAll true, _, ⟨0, 6, .keyword, "export", 1, 0, 1, some 0⟩,
    ⟨17, 21, .keyword, "from", 2, 0, 2, some 4⟩, ⟨12, 16, .identifier, "from", 1, 12, 1, some 3⟩, rfl,
    by decide +kernel, by decide +kernel, by decide +kernel, by decide +kernel, fun hrecords => ?_⟩
  have hentry := hrecords.get?_record {}
  revert hentry
  decide +kernel

end Rule

end ScriptIndent
