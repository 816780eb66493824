import ScriptIndent.Proofs.Embedding.Lines
import ScriptIndent.Proofs.Printed.Sound
import ScriptIndent.Proofs.Rule.Standing

/-!
# ScriptIndent.Proofs.Printed.Lines

The tokens and the lines of a printed program.

The code tokens of a program are its marks (`Program.exists_mark`).  Each of its lines starts
with the only line feed in it (`IsRow`), so the physical lines are the lines that are printed,
in the order of their tokens (`Program.lines_source`), and are counted from 1.
-/

namespace ScriptIndent

open Bytes

/-! ## the lines of a program -/

@[simp] theorem Mark.kind_word (gap : List UInt8) (value : String) (h : IsWord value) :
    (Mark.word gap value h).leaf.kind = value := rfl

@[simp] theorem Mark.isNamed_word (gap : List UInt8) (value : String) (h : IsWord value) :
    (Mark.word gap value h).leaf.isNamed = false := rfl

@[simp] theorem Mark.gap_word (gap : List UInt8) (value : String) (h : IsWord value) :
    (Mark.word gap value h).gap = gap := rfl

@[simp] theorem Mark.kind_name (gap : List UInt8) (x : Name) :
    (Mark.name gap x).leaf.kind = "identifier" := rfl

@[simp] theorem Mark.gap_name (gap : List UInt8) (x : Name) : (Mark.name gap x).gap = gap := rfl

/-- Marks on one line, which starts behind `n` line feeds.  No parenthesis is closed at its
start or opened at its end. -/
structure IsRow (n : Nat) (l : List Mark) : Prop where
  starts : ∃ m rest, l = m :: rest ∧ feeds m.gap = n ∧ (∀ k ∈ rest, feeds k.gap = 0) ∧
    m.leaf.kind ≠ ")"
  ends : ∀ m, l.getLast? = some m → m.leaf.kind ≠ "("

/-- Lines, the first of them behind `n` line feeds and the others each behind one. -/
def AreRows (n : Nat) (ls : List (List Mark)) : Prop :=
  ∃ l rest, ls = l :: rest ∧ IsRow n l ∧ ∀ r ∈ rest, IsRow 1 r

theorem feeds_space : feeds [space] = 0 := by decide

/-- The line with a closing brace and nothing else. -/
theorem isRow_brace (closing : Margin) : IsRow 1 [closing.brace] where
  starts := ⟨_, [], rfl, closing.feeds_below, by simp, by simp [Margin.brace]⟩
  ends := by simp [Margin.brace]

/-- A line that goes on behind its first mark to an opening brace. -/
theorem isRow_opening (m : Mark) (hkind : m.leaf.kind ≠ ")") (rest : List Mark)
    (hrest : ∀ k ∈ rest, feeds k.gap = 0) : IsRow (feeds m.gap) (m :: (rest ++ [openingBrace])) where
  starts := by
    refine ⟨m, _, rfl, rfl, fun k hk => ?_, hkind⟩
    rcases List.mem_append.1 hk with hk | hk
    · exact hrest k hk
    · obtain rfl := List.mem_singleton.1 hk
      exact feeds_space
  ends := by
    intro k hk
    rw [← List.cons_append, List.getLast?_append] at hk
    obtain rfl : openingBrace = k := by simpa using hk
    simp [openingBrace]

theorem feeds_headMarks (x : Name) : ∀ k ∈ headMarks x, feeds k.gap = 0 := by
  simp [headMarks, feeds_space]

mutual

/-- A statement is printed in lines. -/
theorem Statement.areRows_lines (gap : List UInt8) :
    (st : Statement) → AreRows (feeds gap) (st.lines gap)
  | .use x => by
    rw [Statement.lines]
    refine ⟨_, [], rfl, ⟨⟨_, _, rfl, rfl, by simp, by simp⟩, by simp⟩, by simp⟩
  | .conditional x body closing => by
    rw [Statement.lines]
    refine ⟨_, _, rfl, isRow_opening (.word gap "if") (by simp) _ (feeds_headMarks x), ?_⟩
    exact List.forall_mem_append.2 ⟨body.isRow_lines, by simp [isRow_brace]⟩
  | .loop x body closing => by
    rw [Statement.lines]
    refine ⟨_, _, rfl, isRow_opening (.word gap "while") (by simp) _ (feeds_headMarks x), ?_⟩
    exact List.forall_mem_append.2 ⟨body.isRow_lines, by simp [isRow_brace]⟩
  | .alternative x body between other closing => by
    have hbetween := isRow_opening between.brace (by simp [Margin.brace])
      [.word [space] "else"] (by simp [feeds_space])
    rw [show feeds between.brace.gap = 1 from between.feeds_below] at hbetween
    rw [Statement.lines]
    refine ⟨_, _, rfl, isRow_opening (.word gap "if") (by simp) _ (feeds_headMarks x), ?_⟩
    exact List.forall_mem_append.2 ⟨List.forall_mem_append.2 ⟨body.isRow_lines,
      List.forall_mem_cons.2 ⟨hbetween, other.isRow_lines⟩⟩, by simp [isRow_brace]⟩
  | .function f body closing => by
    rw [Statement.lines]
    refine ⟨_, _, rfl, isRow_opening (.word gap "function") (by simp)
      [.name [space] f, .word [] "(", .word [] ")"] (by simp [feeds_space]), ?_⟩
    exact List.forall_mem_append.2 ⟨body.isRow_lines, by simp [isRow_brace]⟩
  | .guarded body between e handler closing => by
    have hbetween := isRow_opening between.brace (by simp [Margin.brace])
      (.word [space] "catch" :: headMarks e) (List.forall_mem_cons.2 ⟨feeds_space, feeds_headMarks e⟩)
    rw [show feeds between.brace.gap = 1 from between.feeds_below] at hbetween
    rw [Statement.lines]
    refine ⟨_, _, rfl, isRow_opening (.word gap "try") (by simp) [] (by simp), ?_⟩
    exact List.forall_mem_append.2 ⟨List.forall_mem_append.2 ⟨body.isRow_lines,
      List.forall_mem_cons.2 ⟨hbetween, handler.isRow_lines⟩⟩, by simp [isRow_brace]⟩
  | .switch x clauses closing => by
    rw [Statement.lines]
    refine ⟨_, _, rfl, isRow_opening (.word gap "switch") (by simp) _ (feeds_headMarks x), ?_⟩
    exact List.forall_mem_append.2 ⟨clauses.isRow_lines, by simp [isRow_brace]⟩

theorem Body.isRow_lines : (body : Body) → ∀ l ∈ body.lines, IsRow 1 l
  | .nil => by simp [Body.lines]
  | .cons margin first rest => by
    obtain ⟨l, more, hlines, hl, hmore⟩ := first.areRows_lines margin.below
    rw [margin.feeds_below] at hl
    rw [Body.lines, hlines]
    exact List.forall_mem_append.2 ⟨List.forall_mem_cons.2 ⟨hl, hmore⟩, rest.isRow_lines⟩

theorem Clauses.isRow_lines : (clauses : Clauses) → ∀ l ∈ clauses.lines, IsRow 1 l
  | .nil => by simp [Clauses.lines]
  | .cons margin x body rest => by
    have hlabel : IsRow 1 [.word margin.below "case", .name [space] x, .word [] ":"] :=
      ⟨⟨_, _, rfl, margin.feeds_below, by simp [feeds_space], by simp⟩, by simp⟩
    rw [Clauses.lines]
    exact List.forall_mem_append.2 ⟨List.forall_mem_cons.2 ⟨hlabel, body.isRow_lines⟩,
      rest.isRow_lines⟩

end

theorem Program.rows_cases (p : Program) : p.lines = [] ∨ AreRows 0 p.lines := by
  rw [lines]
  cases p.body with
  | nil => exact .inl rfl
  | cons margin first rest =>
    obtain ⟨l, more, hlines, hl, hmore⟩ := first.areRows_lines margin.blanks
    rw [margin.feeds_blanks] at hl
    simp only [hlines]
    exact .inr ⟨l, more ++ rest.lines, rfl, hl, List.forall_mem_append.2 ⟨hmore, rest.isRow_lines⟩⟩

/-! ## tokens -/

/-- Each piece of marks is that of a mark. -/
theorem exists_mark_of_piece {b : Buffer} {o q : Nat} {ms : List Mark} {x : Piece}
    (h : (markPieces b o ms)[q]? = some x) :
    ∃ before m after, ms = before ++ m :: after ∧ before.length = q ∧
      x = m.piece b (o + (printed before).length) := by
  induction ms generalizing o q with
  | nil => simp [markPieces] at h
  | cons m ms ih =>
    cases q with
    | zero => exact ⟨[], m, ms, rfl, rfl, (Option.some.inj h).symm⟩
    | succ q =>
      rw [markPieces, List.getElem?_cons_succ] at h
      obtain ⟨before, m', after, rfl, rfl, rfl⟩ := ih h
      exact ⟨m :: before, m', after, rfl, rfl, by simp [Nat.add_assoc]⟩

section Token

variable {b : Buffer} {before after : List UInt8} {m : Mark}

/-- A mark begins and ends on the line on which its blanks end. -/
theorem Mark.line_token (h : b.bytes.toList = before ++ (m.bytes ++ after)) (i : Option Nat) :
    (b.token (m.piece b before.length) i).line = feeds (before ++ m.gap) + 1 ∧
      (b.token (m.piece b before.length) i).endLine = feeds (before ++ m.gap) + 1 := by
  obtain hnil | ⟨cs, c, htext⟩ := List.eq_nil_or_concat' m.leaf.text
  · exact absurd hnil m.leaf.text_ne_nil
  have hfeeds : feeds (cs ++ [c]) = 0 := htext ▸ m.leaf.feeds_text
  have hlength : m.bytes.length = m.gap.length + cs.length + 1 := by
    simp [Mark.bytes, htext, Nat.add_assoc]
  have hstart : b.bytes.toList = (before ++ m.gap) ++ (m.leaf.text ++ after) := by
    rw [h, Mark.bytes]
    simp
  have hlast : b.bytes.toList = (before ++ m.gap ++ cs) ++ ([c] ++ after) := by
    rw [hstart, htext]
    simp
  constructor
  · simp only [Buffer.token, Mark.piece]
    rw [b.lineOf_eq (Int.natCast_nonneg _), Int.toNat_natCast, hstart, List.take_left' (by simp)]
  · simp only [Buffer.token, Mark.piece]
    rw [b.lineOf_eq (by lia), hlast, List.take_left' (by simp; lia), feeds_append]
    rw [feeds_append] at hfeeds
    omega

/-- A mark that becomes a punctuator is spelled like it. -/
theorem Mark.kind_of_isPunctuator (h : b.bytes.toList = before ++ (m.bytes ++ after))
    {i : Option Nat} {value : String}
    (hvalue : (b.token (m.piece b before.length) i).isPunctuator value = true) :
    m.leaf.kind = value := by
  obtain ⟨gap, leaf⟩ := m
  rw [Token.isPunctuator, Bool.and_eq_true, beq_iff_eq, beq_iff_eq] at hvalue
  cases leaf with
  | name x =>
    have hidentifier (text : String) : TokenKind.ofLeaf "identifier" true text = .identifier := by
      rw [TokenKind.ofLeaf, show TokenKind.ofNodeKind? "identifier" = none by decide]
      rfl
    simp only [Buffer.token, Mark.piece, Leaf.kind, Leaf.isNamed, hidentifier] at hvalue
    cases hvalue.1
  | word w =>
    have hshows : b.Shows before.length (gap ++ (Leaf.word w).text) := ⟨before, after, h, rfl⟩
    have htext : b.text (before.length + gap.length : Nat)
        (before.length + (gap ++ (Leaf.word w).text).length : Nat) = w.value := by
      rw [List.length_append, ← Nat.add_assoc, hshows.right.text_eq, Word.decode_text]
    exact htext.symm.trans hvalue.2

end Token

namespace Program

variable (p : Program) (path : Option String)

/-- The source of a program. -/
def source : Source := .ofTree p.text p.tree path []

theorem grammatical_source : (p.source path).root.Grammatical (p.source path).buffer :=
  p.grammatical

/-- The pieces of a program are its marks. -/
theorem pieces_source :
    (p.source path).pieces = markPieces (p.source path).buffer 0 p.lines.flatten := by
  have hchildren : p.tree.children = Sketch.placeAll 0 p.sketches := rfl
  have hblank : p.tree.children = [] → p.tree.start = p.tree.stop := by
    rw [hchildren, tree]
    cases hks : p.sketches with
    | nil => simp
    | cons k rest => simp [Sketch.placeAll_cons]
  have hpieces : (p.source path).pieces = p.tree.children.flatMap (·.pieces (p.source path).buffer) :=
    Node.pieces_program rfl p.grammatical.nested hblank
  rw [hpieces, hchildren, Sketch.pieces_placeAll, p.marks_sketches]

theorem codePieces_source :
    (p.source path).codePieces = markPieces (p.source path).buffer 0 p.lines.flatten := by
  rw [Source.codePieces, ← filter_markPieces, ← pieces_source]
  rfl

theorem size_source : (p.source path).tokens.size = p.lines.flatten.length := by
  rw [Source.size_tokens, codePieces_source, length_markPieces]

/-- There are no comments in a program. -/
theorem comments_source : (p.source path).comments = [] := by
  rw [(p.source path).comments_eq, Buffer.commentTokens]
  have hpieces := p.pieces_source path
  rw [Source.pieces] at hpieces
  rw [hpieces, ← filter_markPieces, List.filter_filter]
  simp

variable {p path}

/-- Each token of a program is a mark. -/
theorem exists_mark {q : Nat} {t : Token} (ht : (p.source path).At q t) :
    ∃ before m after, p.lines.flatten = before ++ m :: after ∧ before.length = q ∧
      t.line = feeds (printed before ++ m.gap) + 1 ∧ t.endLine = t.line ∧
        ∀ value, t.isPunctuator value = true → m.leaf.kind = value := by
  obtain ⟨x, hx, rfl⟩ := Source.exists_codePiece ht
  rw [codePieces_source] at hx
  obtain ⟨before, m, after, hmarks, hq, rfl⟩ := exists_mark_of_piece hx
  have htext : (p.source path).buffer.bytes.toList = printed before ++ (m.bytes ++
      (printed after ++ if p.endsWithFeed then [lineFeed] else [])) := by
    have hbytes : (p.source path).buffer.bytes.toList =
        printed p.lines.flatten ++ if p.endsWithFeed then [lineFeed] else [] := List.toList_toArray
    rw [hbytes, hmarks]
    simp
  rw [Nat.zero_add]
  obtain ⟨hline, hend⟩ := Mark.line_token htext (some q)
  exact ⟨before, m, after, hmarks, hq, hline, hend.trans hline.symm,
    fun _ => Mark.kind_of_isPunctuator htext⟩

end Program

/-! ## rows -/

theorem IsRow.feeds_before {n : Nat} {l before after : List Mark} {m : Mark} (h : IsRow n l)
    (hl : l = before ++ m :: after) : feeds (printed before ++ m.gap) = n := by
  obtain ⟨first, rest, rfl, hfirst, hrest, -⟩ := h.starts
  have hprinted : ∀ ms : List Mark, (∀ k ∈ ms, feeds k.gap = 0) → feeds (printed ms) = 0 := by
    intro ms hms
    induction ms with
    | nil => rfl
    | cons k ms ih =>
      rw [printed_cons, feeds_append, k.feeds_bytes, hms k List.mem_cons_self,
        ih fun k' hk' => hms k' (List.mem_cons_of_mem k hk')]
  cases before with
  | nil =>
    obtain ⟨rfl, -⟩ := List.cons_eq_cons.1 hl
    exact hfirst
  | cons k before =>
    obtain ⟨rfl, rfl⟩ := List.cons_eq_cons.1 hl
    rw [printed_cons, List.append_assoc, feeds_append, feeds_append, first.feeds_bytes, hfirst,
      hprinted before fun k hk => hrest k (List.mem_append_left _ hk),
      hrest m (List.mem_append_right _ List.mem_cons_self), Nat.add_zero]

theorem IsRow.feeds_printed {n : Nat} {l : List Mark} (h : IsRow n l) : feeds (printed l) = n := by
  obtain ⟨before, m, rfl⟩ := List.eq_nil_or_concat' l |>.resolve_left fun hnil => by
    obtain ⟨_, _, hl, -⟩ := h.starts
    rw [hnil] at hl
    cases hl
  have hbefore := h.feeds_before rfl
  rw [printed_append, printed_cons, printed_nil, List.append_nil, feeds_append, m.feeds_bytes]
  rwa [feeds_append] at hbefore

/-- The line feeds before a row. -/
theorem AreRows.exists_isRow {n : Nat} {above below : List (List Mark)} {l : List Mark}
    (h : AreRows n (above ++ l :: below)) :
    ∃ k, IsRow k l ∧ feeds (printed above.flatten) + k = n + above.length := by
  induction above generalizing n with
  | nil =>
    obtain ⟨_, _, hl, hrow, -⟩ := h
    obtain ⟨rfl, rfl⟩ := List.cons_eq_cons.1 hl
    exact ⟨n, hrow, by simp⟩
  | cons a above ih =>
    obtain ⟨_, _, hl, hrow, hrest⟩ := h
    obtain ⟨rfl, rfl⟩ := List.cons_eq_cons.1 hl
    have hareRows : AreRows 1 (above ++ l :: below) := by
      cases above with
      | nil => exact ⟨l, below, rfl, hrest l (by simp), fun r hr => hrest r (by simp [hr])⟩
      | cons b above =>
        exact ⟨b, above ++ l :: below, rfl, hrest b (by simp), fun r hr => hrest r (by simp at hr; simp; tauto)⟩
    obtain ⟨k, hk, hfeeds⟩ := ih hareRows
    refine ⟨k, hk, ?_⟩
    rw [List.flatten_cons, printed_append, feeds_append, hrow.feeds_printed, List.length_cons]
    omega

/-- Each place among the marks of some lines is on one of them. -/
theorem exists_row {ls : List (List Mark)} {q : Nat} (hq : q < ls.flatten.length) :
    ∃ above l below, ls = above ++ l :: below ∧ above.flatten.length ≤ q ∧
      q < above.flatten.length + l.length := by
  induction ls generalizing q with
  | nil => simp at hq
  | cons l ls ih =>
    rw [List.flatten_cons, List.length_append] at hq
    rcases Nat.lt_or_ge q l.length with hlt | hge
    · exact ⟨[], l, ls, rfl, Nat.zero_le q, by simpa using hlt⟩
    · obtain ⟨above, r, below, rfl, hlo, hhi⟩ := ih (q := q - l.length) (by omega)
      refine ⟨l :: above, r, below, rfl, ?_, ?_⟩
      all_goals
        rw [List.flatten_cons, List.length_append]
        omega

namespace Source

/-- The places from one on at which lines of so many marks begin and end are calm. -/
def CalmFrom (s : Source) (k : Nat) : List (List Mark) → Prop
  | [] => s.Calm k
  | l :: rest => s.Calm k ∧ s.CalmFrom (k + l.length) rest

/-- The tokens from a place on, as many on each line as there are marks. -/
def rows (s : Source) (k : Nat) : List (List Mark) → List (List Token)
  | [] => []
  | l :: rest => (s.tokens.toList.drop k).take l.length :: s.rows (k + l.length) rest

variable {s : Source}

theorem rows_append (k : Nat) (ls ms : List (List Mark)) :
    s.rows k (ls ++ ms) = s.rows k ls ++ s.rows (k + ls.flatten.length) ms := by
  induction ls generalizing k with
  | nil => simp [rows]
  | cons l ls ih => simp [rows, ih, Nat.add_assoc]

theorem CalmFrom.calm {k : Nat} {ls : List (List Mark)} (h : s.CalmFrom k ls) : s.Calm k := by
  cases ls with
  | nil => exact h
  | cons l ls => exact h.1

theorem CalmFrom.ends {k : Nat} {ls : List (List Mark)} (h : s.CalmFrom k ls) :
    s.Calm (k + ls.flatten.length) := by
  induction ls generalizing k with
  | nil => exact h
  | cons l ls ih =>
    rw [List.flatten_cons, List.length_append, ← Nat.add_assoc]
    exact ih h.2

theorem CalmFrom.left {k : Nat} {ls ms : List (List Mark)} (h : s.CalmFrom k (ls ++ ms)) :
    s.CalmFrom k ls := by
  induction ls generalizing k with
  | nil => exact h.calm
  | cons l ls ih => exact ⟨h.1, ih h.2⟩

theorem CalmFrom.right {k : Nat} {ls ms : List (List Mark)} (h : s.CalmFrom k (ls ++ ms)) :
    s.CalmFrom (k + ls.flatten.length) ms := by
  induction ls generalizing k with
  | nil => exact h
  | cons l ls ih =>
    rw [List.flatten_cons, List.length_append, ← Nat.add_assoc]
    exact ih h.2

end Source

namespace Program

variable {p : Program} {path : Option String}

/-- The lines are counted from 1. -/
theorem line_eq {above below : List (List Mark)} {l : List Mark}
    (hlines : p.lines = above ++ l :: below) {q : Nat} {t : Token}
    (hlo : above.flatten.length ≤ q) (hhi : q < above.flatten.length + l.length)
    (ht : (p.source path).At q t) : t.line = above.length + 1 := by
  obtain ⟨before, m, after, hmarks, rfl, hline, -⟩ := exists_mark ht
  obtain hnil | hrows := p.rows_cases
  · rw [hnil] at hlines
    simp at hlines
  rw [hlines] at hrows hmarks
  obtain ⟨k, hk, hfeeds⟩ := hrows.exists_isRow
  -- the mark is one of the line, behind those of the lines above
  rw [List.flatten_append, List.flatten_cons] at hmarks
  obtain ⟨xs, hbefore, hrest⟩ | ⟨ys, habove, hrest⟩ := List.append_eq_append_iff.1 hmarks
  · rw [hbefore, List.length_append] at hhi
    obtain ⟨ys, hxs, hys⟩ | ⟨ys, hl, hys⟩ := List.append_eq_append_iff.1 hrest
    · rw [hxs, List.length_append] at hhi
      omega
    · cases ys with
      | nil =>
        rw [hl, List.append_nil] at hhi
        omega
      | cons y ys =>
        obtain ⟨rfl, rfl⟩ := List.cons_eq_cons.1 hys
        rw [hline, hbefore, printed_append, List.append_assoc, feeds_append, hk.feeds_before hl]
        omega
  · cases ys with
    | nil =>
      obtain rfl : above.flatten = before := by simpa using habove
      cases l with
      | nil =>
        obtain ⟨_, _, hl, -⟩ := hk.starts
        cases hl
      | cons m' l =>
        obtain ⟨rfl, -⟩ := List.cons_eq_cons.1 hrest
        have hfirst : feeds (printed [] ++ m.gap) = k := hk.feeds_before rfl
        rw [printed_nil, List.nil_append] at hfirst
        rw [hline, feeds_append, hfirst]
        omega
    | cons y ys =>
      rw [habove, List.length_append, List.length_cons] at hlo
      omega

/-- Every line of a program is a row. -/
theorem exists_isRow {l : List Mark} (hl : l ∈ p.lines) : ∃ n, IsRow n l := by
  obtain hnil | ⟨first, rest, hlines, hfirst, hrest⟩ := p.rows_cases
  · simp [hnil] at hl
  · rw [hlines] at hl
    rcases List.mem_cons.1 hl with rfl | hl
    · exact ⟨0, hfirst⟩
    · exact ⟨1, hrest l hl⟩

/-- The places at which lines begin and end are calm. -/
theorem calm_of_split {above below : List (List Mark)} (hlines : p.lines = above ++ below) :
    (p.source path).Calm above.flatten.length where
  closing {t} ht := by
    refine Bool.eq_false_iff.2 fun hclosing => ?_
    obtain ⟨before, m, after, hmarks, hlength, -, -, hkind⟩ := exists_mark ht
    rw [hlines, List.flatten_append] at hmarks
    obtain ⟨-, hbelow⟩ := List.append_inj hmarks hlength.symm
    cases below with
    | nil => cases hbelow
    | cons l below =>
      obtain ⟨n, hrow⟩ := exists_isRow (p := p) (l := l) (by simp [hlines])
      obtain ⟨first, rest, rfl, -, -, hfirst⟩ := hrow.starts
      obtain ⟨rfl, -⟩ := List.cons_eq_cons.1 hbelow
      exact hfirst (hkind _ hclosing)
  opening {k t} hk ht := by
    refine Bool.eq_false_iff.2 fun hopening => ?_
    obtain ⟨before, m, after, hmarks, hlength, -, -, hkind⟩ := exists_mark ht
    rw [hlines, List.flatten_append, ← List.singleton_append, ← List.append_assoc] at hmarks
    obtain ⟨habove, -⟩ := List.append_inj hmarks (by
      rw [List.length_append, List.length_singleton]
      omega)
    obtain hnil | ⟨above', l, rfl⟩ := List.eq_nil_or_concat' above
    · simp [hnil] at habove
    · obtain ⟨n, hrow⟩ := exists_isRow (p := p) (l := l) (by simp [hlines])
      refine hrow.ends m ?_ (hkind _ hopening)
      obtain ⟨first, rest, rfl, -⟩ := hrow.starts
      have hlast := congrArg List.getLast? habove
      simpa [List.getLast?_append] using hlast

theorem calmFrom_of_split {above below : List (List Mark)} (hlines : p.lines = above ++ below) :
    (p.source path).CalmFrom above.flatten.length below := by
  induction below generalizing above with
  | nil => exact calm_of_split hlines
  | cons l below ih =>
    have hrest : (p.source path).CalmFrom (above ++ [l]).flatten.length below :=
      ih (by simp [hlines])
    rw [List.flatten_append, List.length_append, List.flatten_singleton] at hrest
    exact ⟨calm_of_split hlines, hrest⟩

variable (p path) in
theorem calmFrom_lines : (p.source path).CalmFrom 0 p.lines :=
  @calmFrom_of_split p path [] p.lines rfl

/-- The tokens of a line. -/
theorem line_of_mem_row {above below : List (List Mark)} {l : List Mark}
    (hlines : p.lines = above ++ l :: below) {t : Token}
    (ht : t ∈ ((p.source path).tokens.toList.drop above.flatten.length).take l.length) :
    t.line = above.length + 1 ∧ t.endLine = above.length + 1 := by
  obtain ⟨q, hq⟩ := List.mem_iff_getElem?.1 ht
  rw [List.getElem?_take] at hq
  split at hq
  · rw [List.getElem?_drop, Array.getElem?_toList] at hq
    have hline := line_eq hlines (Nat.le_add_right _ _) (by omega) hq
    obtain ⟨_, _, _, -, -, -, hend, -⟩ := exists_mark hq
    exact ⟨hline, hend.trans hline⟩
  · cases hq

/-- The tokens behind some lines. -/
theorem line_of_mem_drop {above below : List (List Mark)} (hlines : p.lines = above ++ below)
    {t : Token} (ht : t ∈ (p.source path).tokens.toList.drop above.flatten.length) :
    above.length < t.line ∧ t.line ≤ t.endLine := by
  obtain ⟨q, hq⟩ := List.mem_iff_getElem?.1 ht
  rw [List.getElem?_drop, Array.getElem?_toList] at hq
  obtain ⟨_, _, _, -, -, -, hend, -⟩ := exists_mark hq
  have hsize := (Array.getElem?_eq_some_iff.1 hq).1
  rw [size_source, hlines, List.flatten_append, List.length_append] at hsize
  obtain ⟨xs, l, ys, rfl, hlo, hhi⟩ := exists_row (show q < below.flatten.length by omega)
  rw [← List.append_assoc] at hlines
  have hline := line_eq hlines (by rw [List.flatten_append, List.length_append]; omega)
    (by rw [List.flatten_append, List.length_append]; omega) hq
  rw [List.length_append] at hline
  exact ⟨by omega, Nat.le_of_eq hend.symm⟩

variable (path) in
/-- Every line of a program has tokens. -/
theorem row_ne_nil {above below : List (List Mark)} {l : List Mark}
    (hlines : p.lines = above ++ l :: below) :
    ((p.source path).tokens.toList.drop above.flatten.length).take l.length ≠ [] := by
  have hsize := p.size_source path
  obtain ⟨n, hrow⟩ := exists_isRow (p := p) (l := l) (by simp [hlines])
  obtain ⟨m, rest, rfl, -⟩ := hrow.starts
  rw [hlines] at hsize
  intro hnil
  have := congrArg List.length hnil
  simp only [List.length_take, List.length_drop, Array.length_toList, hsize] at this
  simp at this

/-- The tokens of a line are not cut. -/
theorem groupsFrom_row {above below : List (List Mark)} {l : List Mark}
    (hlines : p.lines = above ++ l :: below) :
    Source.groupsFrom 0 []
        (((p.source path).tokens.toList.drop above.flatten.length).take l.length) =
      [((p.source path).tokens.toList.drop above.flatten.length).take l.length] := by
  obtain ⟨t, ts, hrow⟩ := List.exists_cons_of_ne_nil (row_ne_nil path hlines)
  have hline : ∀ u ∈ t :: ts, u.line = above.length + 1 ∧ u.endLine = above.length + 1 :=
    fun u hu => line_of_mem_row hlines (hrow ▸ hu)
  rw [hrow]
  refine Embedding.groupsFrom_line fun u hu => Nat.le_of_eq ?_
  rw [(hline u (List.mem_cons_of_mem t hu)).1, (hline t List.mem_cons_self).2]

/-- Tokens are cut into lines where their marks are. -/
theorem groupsFrom_of_split {above below : List (List Mark)} (hlines : p.lines = above ++ below) :
    Source.groupsFrom 0 [] ((p.source path).tokens.toList.drop above.flatten.length) =
      (p.source path).rows above.flatten.length below := by
  induction below generalizing above with
  | nil =>
    have hsize := p.size_source path
    rw [hlines, List.append_nil, ← Array.length_toList] at hsize
    rw [List.drop_eq_nil_iff.2 (Nat.le_of_eq hsize)]
    rfl
  | cons l below ih =>
    have hlines' : p.lines = (above ++ [l]) ++ below := by simp [hlines]
    have hflatten : (above ++ [l]).flatten.length = above.flatten.length + l.length := by
      rw [List.flatten_append, List.length_append, List.flatten_singleton]
    have hrest := ih hlines'
    have hbehind : ∀ u ∈ (p.source path).tokens.toList.drop (above.flatten.length + l.length),
        above.length + 1 < u.line ∧ u.line ≤ u.endLine := by
      intro u hu
      rw [← hflatten] at hu
      have := line_of_mem_drop hlines' hu
      rwa [List.length_append, List.length_singleton] at this
    rw [hflatten] at hrest
    rw [Source.rows, ← hrest]
    conv_lhs => rw [← List.take_append_drop l.length ((p.source path).tokens.toList.drop _)]
    rw [List.drop_drop, Embedding.groupsFrom_append (fun u hu => (hbehind u hu).2)
      (fun u hu => Nat.zero_lt_of_lt (hbehind u hu).1) fun t ht u hu => ?_, groupsFrom_row hlines]
    · rfl
    · rw [(line_of_mem_row hlines ht).2]
      exact (hbehind u hu).1

/-- The physical lines of a program are those that are printed. -/
theorem lines_source (p : Program) (path : Option String) :
    (p.source path).lines = (p.source path).rows 0 p.lines := by
  have hsorted : ((p.source path).tokens.toList).Pairwise fun a b =>
      decide (a.start ≤ b.start) = true := by
    have hordered := Source.ordered_of_nested (s := p.source path) p.grammatical.nested
      p.grammatical.bracketed
    rw [List.pairwise_iff_getElem]
    intro i j hi hj hij
    rw [Array.length_toList] at hi hj
    have ht := Array.getElem?_eq_getElem hi
    have hproper := hordered.proper ht
    have hdisjoint := hordered.disjoint hij ht (Array.getElem?_eq_getElem hj)
    rw [decide_eq_true_eq, Array.getElem_toList, Array.getElem_toList]
    lia
  rw [Source.lines, Source.merged, comments_source, List.append_nil,
    List.mergeSort_of_pairwise hsorted]
  exact @groupsFrom_of_split p path [] p.lines rfl

end Program

end ScriptIndent
