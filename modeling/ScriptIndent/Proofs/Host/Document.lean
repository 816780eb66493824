import Mathlib.Data.List.Pairwise
import ScriptIndent.Check.Result
import ScriptIndent.Proofs.Host.Mask
import ScriptIndent.Proofs.Language.Reading
import ScriptIndent.Proofs.Layout.Restyle
import ScriptIndent.Proofs.Rule.Standing

/-!
# ScriptIndent.Proofs.Host.Document

Host documents: only lines of script are judged, and by their real indentation.

1. The blocks of script elements that are in order lie apart (`pairwise_blocks`), so an
   offset lies in at most one of them.
2. A line is judged by what leads it, which is to be seen and so stands in a block.  No
   block starts on the line, so the line begins in that block already
   (`Scripted.of_leader`).
3. The program places what leads the line at the level of this block.

The tree of the script need not be sound for this; its tokens have to start where there
is something to be seen.
-/

namespace ScriptIndent

/-! ## top-level statements -/

namespace Rule

open Draft

variable {s : Source} {n : Node}

/-- A program places tokens at the level of the script around them. -/
theorem eq_startOf_of_mem_program {e : Entry} (h : e ∈ (program s n).writes) :
    e = startOf s e.token := by
  unfold program at h
  generalize n.codeChildren = statements at h
  induction statements with
  | nil => simp [each] at h
  | cons c rest ih =>
    rw [each, first] at h
    cases hfirst : s.firstOfNode? c with
    | none =>
      rw [hfirst, bind_of_error rfl] at h
      cases h
    | some t =>
      rw [hfirst, bind_of_ok rfl] at h
      rcases List.mem_append.1 h with h | h
      · obtain rfl := List.mem_singleton.1 h
        rfl
      · exact ih h

/-- A program that has been placed has nothing but statements with tokens. -/
theorem exists_first_of_program (h : (program s n).result = .ok ()) :
    ∀ c ∈ n.codeChildren, ∃ t, s.firstOfNode? c = some t := by
  unfold program at h
  generalize n.codeChildren = statements at h
  induction statements with
  | nil => simp
  | cons c rest ih =>
    rw [each, first] at h
    cases hfirst : s.firstOfNode? c with
    | none =>
      rw [hfirst, bind_of_error rfl] at h
      cases h
    | some t =>
      rw [hfirst, bind_of_ok rfl] at h
      exact List.forall_mem_cons.2 ⟨⟨t, hfirst⟩, ih h⟩

end Rule

/-- If the visits lead to no fault, neither does the first one. -/
theorem Analysis.fault_visit_of_visitAll {s : Source} {caseLevels : Int} {a : Analysis}
    {place : Node.Placed} {rest : List Node.Placed}
    (h : (a.visitAll s caseLevels (place :: rest)).fault = none) :
    (a.visit s caseLevels place).fault = none := by
  rw [visitAll] at h
  split at h
  · exact h
  · next hnone => simpa using hnone

namespace Source

variable {s : Source}

/-- The tree is that of a program, whose rule has come to its end. -/
theorem result_program_of_analyze (hkind : s.root.kind = "program") {caseLevels : Int}
    (h : (s.analyze caseLevels).fault = none) : (Rule.program s s.root).result = .ok () := by
  have hrule : Construct.ofKind? s.root.kind = some .program := by
    rw [hkind]
    decide
  have hcomment : s.root.isComment = false := by
    rw [Node.isComment, hkind]
    decide
  rw [analyze, Node.visited_eq, hcomment, hrule, if_neg (by simp), if_neg (by simp)] at h
  have hfirst := Analysis.fault_visit_of_visitAll h
  rw [Analysis.visit, Rule.visit?, hrule, Option.map_some] at hfirst
  dsimp only [Rule.ofConstruct] at hfirst
  cases hresult : (Rule.program s s.root).result with
  | ok => rfl
  | error e =>
    rw [Draft.bind_of_error hresult] at hfirst
    cases hfirst

/-- A token leads a line. -/
def LeadsLine (s : Source) (t : Token) (line : Nat) : Prop :=
  t ∈ leaders s.lines ∧ t.line = line

/-- Tokens and comments start where there is something to be seen. -/
def Inked (s : Source) : Prop :=
  (∀ t ∈ s.tokens, s.buffer.InkedAt t.start) ∧ ∀ t ∈ s.comments, s.buffer.InkedAt t.start

/-- The program places a token at a level: it does so if a statement begins with the token,
and it places it nowhere else. -/
def BeginsAt (s : Source) (t : Token) (level : Int) : Prop :=
  (∀ c ∈ s.root.codeChildren, s.firstOfNode? c = some t →
    ⟨t, none, level⟩ ∈ (Rule.program s s.root).writes) ∧
  ∀ e ∈ (Rule.program s s.root).writes, e.token = t → e = ⟨t, none, level⟩

theorem beginsAt_baseLevel (h : (Rule.program s s.root).result = .ok ()) (t : Token) :
    s.BeginsAt t (s.baseLevel t) := by
  refine ⟨fun c hc ht => ?_, fun e he heq => ?_⟩
  · rw [Rule.program_eq (Rule.exists_first_of_program h)]
    exact List.mem_map.2 ⟨t, List.mem_filterMap.2 ⟨c, hc, ht⟩, rfl⟩
  · rw [Rule.eq_startOf_of_mem_program he, heq]
    rfl

theorem Inked.of_mem_merged (h : s.Inked) {t : Token} (ht : t ∈ s.merged) :
    s.buffer.InkedAt t.start := by
  exact (mem_merged_iff.1 ht).elim (h.1 t) (h.2 t)

end Source

/-! ## blocks -/

namespace Host

variable {bytes : Bytes} {root host : Node} {path : Option String} {layout : Layout}

/-- The script elements of a document are in order and do not overlap, and they lie
around their parts. -/
structure InOrder (host : Node) : Prop where
  pairwise : (scriptElements host).Pairwise (·.stop ≤ ·.start)
  parts : ∀ element ∈ scriptElements host, ∀ c ∈ element.children,
    element.start ≤ c.start ∧ c.stop ≤ element.stop

/-- A block lies in its element. -/
theorem InOrder.bounds (h : InOrder host) {element : Node} (he : element ∈ scriptElements host)
    {found : Except Notice ScriptBlock} (hfound : blockOf? bytes layout element = some found)
    {k : ScriptBlock} (hk : found.toOption = some k) :
    element.start ≤ k.start ∧ k.stop ≤ element.stop := by
  rw [blockOf?] at hfound
  split at hfound
  · next startTag rawText _ hraw =>
    split at hfound
    · obtain rfl := Option.some.inj hfound
      obtain rfl := Option.some.inj hk
      exact h.parts element he rawText (List.mem_of_find?_eq_some hraw)
    · obtain rfl := Option.some.inj hfound
      cases hk
  · cases hfound

/-- Blocks lie apart. -/
theorem InOrder.pairwise_blocks (h : InOrder host) :
    (scripts bytes host layout).blocks.Pairwise (·.stop ≤ ·.start) := by
  change (((scriptElements host).filterMap (blockOf? bytes layout)).filterMap
    (·.toOption)).Pairwise _
  rw [List.pairwise_filterMap, List.pairwise_filterMap]
  refine h.pairwise.imp_of_mem fun {a b} ha hb hab x hx y hy k hk l hl => ?_
  have := (h.bounds ha hx hk).2
  have := (h.bounds hb hy hl).1
  exact Int.le_trans (Int.le_trans ‹_› hab) ‹_›

/-- At most one block holds an offset. -/
theorem eq_of_holds {blocks : List ScriptBlock} (h : blocks.Pairwise (·.stop ≤ ·.start))
    {k l : ScriptBlock} (hk : k ∈ blocks) (hl : l ∈ blocks) {o : Offset} (hko : k.Holds o)
    (hlo : l.Holds o) : k = l := by
  have hapart : blocks.Pairwise fun a b => ¬(a.Holds o ∧ b.Holds o) := by
    refine h.imp fun {a b} hab hboth => ?_
    have := hboth.1.2
    have := hboth.2.1
    lia
  have hsymm : Std.Symm fun a b : ScriptBlock => ¬(a.Holds o ∧ b.Holds o) :=
    ⟨fun _ _ hab hba => hab hba.symm⟩
  by_contra hne
  exact hapart.forall hk hl hne ⟨hko, hlo⟩

theorem baseLevel_of_holds {s : Source} (h : s.blocks.Pairwise (·.stop ≤ ·.start))
    {k : ScriptBlock} (hk : k ∈ s.blocks) {t : Token} (ht : k.Holds t.start) :
    s.baseLevel t = k.baseLevel := by
  have hsome : (s.blocks.find? fun b => b.start ≤ t.start && t.start < b.stop).isSome := by
    rw [List.find?_isSome]
    exact ⟨k, hk, by simpa [ScriptBlock.Holds] using ht⟩
  obtain ⟨l, hl⟩ := Option.isSome_iff_exists.1 hsome
  have hlt : l.Holds t.start := by simpa [ScriptBlock.Holds] using List.find?_some hl
  rw [Source.baseLevel, hl, eq_of_holds h hk (List.mem_of_find?_eq_some hl) ht hlt]

/-! ## lines of script -/

/-- The source of the script in a document. -/
def source (bytes : Bytes) (host : Node) (layout : Layout) (root : Node) (path : Option String) :
    Source :=
  let found := scripts bytes host layout
  .ofTree found.masked root path found.blocks

/-- A line of a document is one of script: no block starts on it, it is indented in the
source as in the document, and it begins inside a block, at whose level the program places
what leads the line. -/
structure Scripted (s : Source) (document : Buffer) (line : Nat) : Prop where
  apart : ∀ k ∈ s.blocks, document.lineOf k.start ≠ line
  indentation : s.buffer.indentation line = document.indentation line
  within : ∃ k ∈ s.blocks, k.Surrounds (document.lineStart line) ∧
    (∀ l ∈ s.blocks, l.Surrounds (document.lineStart line) → l = k) ∧
    ∀ t, s.LeadsLine t line → s.BeginsAt t k.baseLevel

/-- The line of a leader on which no block starts is one of script. -/
theorem Scripted.of_leader (hhost : InOrder host) (hink : (source bytes host layout root path).Inked)
    (hprogram : (Rule.program (source bytes host layout root path) root).result = .ok ())
    {line : Nat} {t : Token} (ht : (source bytes host layout root path).LeadsLine t line)
    (hapart : ∀ k ∈ (scripts bytes host layout).blocks, (Buffer.ofBytes bytes).lineOf k.start ≠ line) :
    Scripted (source bytes host layout root path) (.ofBytes bytes) line := by
  have hblocks : (scripts bytes host layout).blocks.Pairwise (·.stop ≤ ·.start) :=
    hhost.pairwise_blocks
  -- a block holds what leads the line, and the line begins inside this block
  have hinside {u : Token} (hu : (source bytes host layout root path).LeadsLine u line) :
      ∃ k ∈ (scripts bytes host layout).blocks, k.Holds u.start ∧
        k.Surrounds ((Buffer.ofBytes bytes).lineStart line) ∧
        (Buffer.ofBytes (scripts bytes host layout).masked).InkedAt u.start ∧
        (Buffer.ofBytes bytes).lineOf u.start = line := by
    obtain ⟨hleads, hline⟩ := hu
    have hmerged := Source.mem_merged_of_leader hleads
    have hinked := hink.of_mem_merged hmerged
    obtain ⟨k, hk, hholds⟩ := exists_block_of_inked hinked
    rw [Source.line_of_mem_merged hmerged] at hline
    replace hline :=
      calc (Buffer.ofBytes bytes).lineOf u.start
        _ = (source bytes host layout root path).buffer.lineOf u.start :=
            (lineOf_mask bytes _ u.start).symm
        _ = line := hline
    have hstart := (Buffer.ofBytes bytes).lineStart_le hinked.1
    rw [hline] at hstart
    have hbefore : (Buffer.ofBytes bytes).lineOf k.start < line := by
      have hmono := (Buffer.ofBytes bytes).lineOf_mono hholds.1
      have := hapart k hk
      omega
    refine ⟨k, hk, hholds, ⟨?_, Int.lt_of_le_of_lt hstart hholds.2⟩, hinked, hline⟩
    refine Buffer.lt_lineStart _ (by omega) ?_ hbefore
    exact hline ▸ Buffer.lineOf_le _ _
  obtain ⟨k, hk, hholds, hsurrounds, hinked, rfl⟩ := hinside ht
  have honly {l : ScriptBlock} (hl : l ∈ (scripts bytes host layout).blocks)
      (h : l.Surrounds ((Buffer.ofBytes bytes).lineStart ((Buffer.ofBytes bytes).lineOf t.start))) :
      l = k :=
    eq_of_holds hblocks hl hk ⟨Int.le_of_lt h.1, h.2⟩ ⟨Int.le_of_lt hsurrounds.1, hsurrounds.2⟩
  refine ⟨hapart, indentation_mask hk hholds.2 hinked (Int.le_of_lt hsurrounds.1), k, hk,
    hsurrounds, fun l hl h => honly hl h, fun u hu => ?_⟩
  obtain ⟨l, hl, hholds', hsurrounds', -⟩ := hinside hu
  obtain rfl := honly hl hsurrounds'
  rw [← baseLevel_of_holds (s := source bytes host layout root path) hblocks hl hholds']
  exact Source.beginsAt_baseLevel hprogram u

/-- The parsers give the trees of a document in a host language and of the script in
it. -/
structure Parsed (languages : Languages) (parsers : Parsers) (layout : Layout) (bytes : Bytes)
    (path : Option String) (host root : Node) : Prop where
  document : ∃ grammar, (languages.ofSource (path.map Path.ofString)).hostGrammar = some grammar ∧
    parsers grammar bytes = some host
  script : parsers (languages.ofSource (path.map Path.ofString)).grammar
    (scripts bytes host layout).masked = some root

/-- A document is read as the source of its script, or there is an error in the script. -/
theorem Parsed.result_read {languages : Languages} {parsers : Parsers}
    (h : Parsed languages parsers layout bytes path host root) :
    (Source.read languages parsers layout bytes path).result =
      Reading.ofTree (scripts bytes host layout).masked root path
        (scripts bytes host layout).blocks := by
  obtain ⟨grammar, hgrammar, hhost⟩ := h.document
  exact (Reading.Finds.embedded hgrammar hhost h.script).result_eq path

/-- Lines that have been judged are lines of script. -/
theorem scripted_of_checkedLevels (hhost : InOrder host) (hkind : root.kind = "program")
    (hink : (source bytes host layout root path).Inked) {caseLevels : Int} {levels : LineLevels}
    (h : (source bytes host layout root path).checkedLevels
      ((source bytes host layout root path).analyze caseLevels) = .ok levels) :
    ∀ p ∈ levels, Scripted (source bytes host layout root path) (.ofBytes bytes) p.1 := by
  obtain ⟨hfault, all, hsettle, rfl⟩ := Source.exists_settle_of_checkedLevels h
  intro p hp
  obtain ⟨hmem, hapart⟩ := List.mem_filter.1 hp
  obtain ⟨t, ht, hline⟩ := Source.exists_leader hsettle (List.mem_map.2 ⟨p, hmem, rfl⟩)
  refine .of_leader hhost hink (Source.result_program_of_analyze hkind hfault) ⟨ht, hline⟩ ?_
  intro k hk hstart
  rw [Bool.not_eq_true', List.any_eq_false] at hapart
  refine hapart k hk (decide_eq_true ?_)
  calc (source bytes host layout root path).buffer.lineOf k.start
    _ = (Buffer.ofBytes bytes).lineOf k.start := lineOf_mask bytes _ k.start
    _ = p.1 := hstart

/-- Of a host document only lines of script are judged, and by their indentation in the
document: the judged lines are lines of script, and the violations are those of the document's
own indentation. -/
theorem check_document {languages : Languages} {parsers : Parsers} {style : Style}
    (h : Parsed languages parsers style.layout bytes path host root) (hhost : InOrder host)
    (hkind : root.kind = "program") (hink : (source bytes host style.layout root path).Inked) :
    (∀ levels, (expectedLevels languages parsers style bytes path).result = .ok levels →
      ∀ p ∈ levels,
        Scripted (source bytes host style.layout root path) (.ofBytes bytes) p.1) ∧
    (check languages parsers style bytes path).result =
      (expectedLevels languages parsers style bytes path).result.map fun levels =>
        { path
          violations := levels.filterMap fun (line, level) =>
            style.violation? ((Buffer.ofBytes bytes).indentation line) line level
          levels } := by
  have hread := h.result_read
  by_cases herror : root.hasError = true
  · rw [Reading.ofTree, if_pos herror] at hread
    constructor
    · intro levels hlevels
      simp only [expectedLevels, Judged.of, hread] at hlevels
      cases hlevels
    · simp only [expectedLevels, check, Judged.of, hread]
      rfl
  · rw [Reading.ofTree, if_neg herror] at hread
    change _ = Except.ok (source bytes host style.layout root path) at hread
    have hscripted : ∀ levels, (source bytes host style.layout root path).checkedLevels
        ((source bytes host style.layout root path).analyze style.caseLevels) = .ok levels →
        ∀ p ∈ levels, Scripted (source bytes host style.layout root path) (.ofBytes bytes) p.1 :=
      fun _ => scripted_of_checkedLevels hhost hkind hink
    simp only [expectedLevels, check, Judged.of, hread]
    generalize hchecked : (source bytes host style.layout root path).checkedLevels _ = outcome
    cases outcome with
    | error failure =>
      refine ⟨fun _ hlevels => ?_, rfl⟩
      cases hlevels
    | ok levels =>
      refine ⟨fun _ hlevels => ?_, ?_⟩
      · obtain rfl := Except.ok.inj hlevels
        exact hscripted _ hchecked
      · have hviolations : (source bytes host style.layout root path).violations style levels =
            levels.filterMap fun x =>
              style.violation? ((Buffer.ofBytes bytes).indentation x.1) x.1 x.2 := by
          refine List.filterMap_congr fun x hx => ?_
          dsimp only
          rw [(hscripted _ hchecked x hx).indentation]
        simp only [Except.map, Source.result, hviolations]
        rfl

/-! ## a page -/

/-- A page with a script of one statement, which is not indented. -/
def page : Bytes := "<script>\nf;\n</script>\n".toUTF8.data

/-- The tree of the page. -/
def pageTree : Node :=
  ⟨"document", true, false, false, [], 0, 22,
    [⟨"script_element", true, false, false, [], 0, 21,
      [⟨"start_tag", true, false, false, [], 0, 8, []⟩,
        ⟨"raw_text", true, false, false, [], 8, 12, []⟩,
        ⟨"end_tag", true, false, false, [], 12, 21, []⟩]⟩]⟩

/-- The tree of the script in the page. -/
def pageScript : Node :=
  ⟨"program", true, false, false, [], 9, 22,
    [⟨"expression_statement", true, false, false, [], 9, 11,
      [⟨"identifier", true, false, false, [], 9, 10, []⟩,
        ⟨";", false, false, false, [], 10, 11, []⟩]⟩]⟩

def pageParsers : Parsers := fun grammar _ =>
  if grammar = "html" then some pageTree else some pageScript

/-- The source of the script in the page. -/
def pageSource : Source := source page pageTree {} pageScript (some "index.html")

theorem parsed_page : Parsed .builtin pageParsers {} page (some "index.html") pageTree pageScript := by
  have hlanguage : Languages.builtin.ofSource (some (Path.ofString "index.html")) = .html := by
    decide +kernel
  refine ⟨⟨"html", ?_, rfl⟩, ?_⟩
  · rw [Option.map_some, hlanguage]
    rfl
  · rw [Option.map_some, hlanguage]
    rfl

private theorem inOrder_pageTree : InOrder pageTree where
  pairwise := by decide
  parts := by
    have hall : (scriptElements pageTree).all (fun element => element.children.all fun c =>
        decide (element.start ≤ c.start) && decide (c.stop ≤ element.stop)) = true := by decide
    intro element he c hc
    simpa using List.all_eq_true.1 (List.all_eq_true.1 hall element he) c hc

private theorem inked_pageSource : pageSource.Inked := by
  have hall : (pageSource.tokens.toList ++ pageSource.comments).all
      (fun t => decide (pageSource.buffer.InkedAt t.start)) = true := by decide +kernel
  rw [List.all_eq_true] at hall
  exact ⟨fun t ht => of_decide_eq_true (hall t (List.mem_append_left _ (Array.mem_toList_iff.2 ht))),
    fun t ht => of_decide_eq_true (hall t (List.mem_append_right _ ht))⟩

theorem checkedLevels_pageSource :
    pageSource.checkedLevels (pageSource.analyze 1) = .ok [(2, 1)] := by
  have hsorted : (pageSource.tokens.toList ++ pageSource.comments).Pairwise
      fun a b => decide (a.start ≤ b.start) = true := by decide +kernel
  have hfault : (pageSource.analyze 1).fault = none := by decide +kernel
  have hsettle : ((pageSource.analyze 1).registry.settle []
      (Source.groupsFrom 0 [] (pageSource.tokens.toList ++ pageSource.comments))).result =
        .ok [(2, 1)] := by decide +kernel
  rw [Source.checkedLevels, hfault, Source.lines, Source.merged, List.mergeSort_of_pairwise hsorted,
    hsettle]
  decide +kernel

/-- The line of the page's statement is one of script, and is told to be indented. -/
theorem check_page :
    (expectedLevels .builtin pageParsers {} page (some "index.html")).result = .ok [(2, 1)] ∧
    Scripted pageSource (.ofBytes page) 2 ∧
    (check .builtin pageParsers {} page (some "index.html")).result =
      .ok { path := some "index.html", violations := [⟨2, 1, 2, 0, 0, .space⟩], levels := [(2, 1)] } := by
  have hlevels : (expectedLevels .builtin pageParsers {} page (some "index.html")).result =
      .ok [(2, 1)] := by
    have hread : (Source.read .builtin pageParsers ({} : Style).layout page
        (some "index.html")).result = .ok pageSource := parsed_page.result_read
    simp only [expectedLevels, Judged.of, hread]
    exact congrArg (Except.map fun levels => levels) checkedLevels_pageSource
  have hparsed : Parsed .builtin pageParsers ({} : Style).layout page (some "index.html")
      pageTree pageScript := parsed_page
  have hcheck := check_document hparsed inOrder_pageTree rfl inked_pageSource
  refine ⟨hlevels, hcheck.1 _ hlevels (2, 1) (by simp), ?_⟩
  rw [hcheck.2, hlevels]
  decide +kernel

end Host

end ScriptIndent
