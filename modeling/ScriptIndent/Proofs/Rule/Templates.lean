import ScriptIndent.Proofs.Rule.Lasting
import ScriptIndent.Proofs.Stream.Templates

/-!
# ScriptIndent.Proofs.Rule.Templates

Template literals.

```
`a ${         each text behind a substitution is flush with the first one, and what a
  b           substitution puts in is one level deeper
} c ${ d } e`
```

The rule of a template records its texts and the first tokens of what is put in
(`Rule.templateLiteral_records_text`, `Rule.templateLiteral_records_first`).  A visit within the
template reaches neither: where a text meets what stands beside it, the children of the substitution
are cut as well (`Source.Substitutes.exists_cut`), and the substitution itself writes nothing.  So
what the rule records lasts, at any depth of templates within templates.
-/

namespace ScriptIndent

namespace Node

variable {b : Buffer} {c e : Node}

/-- A substitution that holds an expression between its brackets, with no more than comments beside
it. -/
structure PutsIn (c e : Node) : Prop where
  code : c.IsCode
  parts_eq : ∃ opening closing, c.parts = [opening, e, closing]
  mem_code : e.IsCode
  not_bracket : isSubstitutionBracket e.kind = false

/-- Comments make no code tokens. -/
theorem codeCount_filter (ns : List Node) : Piece.codeCount (ns.flatMap (substitutedPiece b)) =
    Piece.codeCount ((ns.filter (!·.isComment)).flatMap (substitutedPiece b)) := by
  induction ns with
  | nil => rfl
  | cons m rest ih =>
    rw [List.flatMap_cons, Piece.codeCount_append, ih]
    cases hm : m.isComment with
    | false => rw [List.filter_cons_of_pos (by simp [hm]), List.flatMap_cons, Piece.codeCount_append]
    | true =>
      have hzero : Piece.codeCount (substitutedPiece b m) = 0 := by
        rw [substitutedPiece]
        split
        · rfl
        · exact Source.codeCount_of_isComment hm
      rw [List.filter_cons_of_neg (by simp [hm]), hzero, Nat.zero_add]

/-- A substitution makes the tokens of its expression. -/
theorem PutsIn.codeCount_eq (h : c.PutsIn e) (hbracketed : c.IsBracketed) :
    Piece.codeCount (substitutedPieces b c.children) = Piece.codeCount (e.pieces b) := by
  obtain ⟨first, last, hparts⟩ := h.parts_eq
  obtain ⟨opening, inner, closing, hcs, hok, -, -, hck, -, -⟩ := hbracketed
  have hopening : opening.isComment = false := by rw [isComment, hok]; decide
  have hclosing : closing.isComment = false := by rw [isComment, hck]; decide
  rw [parts, hcs, List.filter_cons_of_pos (by simp [hopening]), List.filter_append,
    List.filter_cons_of_pos (by simp [hclosing]), List.filter_nil] at hparts
  have hrest : inner.filter (!·.isComment) ++ [closing] = [e] ++ [last] := (List.cons.inj hparts).2
  rw [IsBracketed.substitutedPieces_eq hcs hok hck, codeCount_filter, (List.append_inj' hrest rfl).1,
    List.flatMap_singleton, substitutedPiece, if_neg (by simp [h.not_bracket])]

theorem PutsIn.mem_codeChildren (h : c.PutsIn e) : e ∈ c.codeChildren := by
  obtain ⟨opening, closing, hparts⟩ := h.parts_eq
  refine Node.mem_codeChildren.2 ⟨?_, h.mem_code⟩
  exact (List.mem_filter.1 (hparts ▸ by simp : e ∈ c.parts)).1

end Node

namespace Source

variable {s : Source} {n c e : Node} {ancestors : List Node} {texts : List Token} {i j a b l : Nat}

/-! ## where a text and a substitution meet -/

/-- The expression of a substitution stands between the texts around the substitution. -/
theorem Substitutes.stands_expression (h : s.Substitutes c a (b + 1)) (hputs : c.PutsIn e)
    (ho : s.Ordered) (hasToken : ∀ m : Node, m.Below c → m.IsCode → m.HasToken s.buffer) :
    s.Stands e (a + 1) b ∧ a + 1 < b := by
  have hmem := (Node.mem_codeChildren.1 hputs.mem_codeChildren).1
  obtain ⟨k, m, hak, hmb, hstands⟩ := h.child ho hasToken hmem hputs.not_bracket
  have hcount := hputs.codeCount_eq (b := s.buffer) (h.bracketed c (.refl c) h.kind_eq)
  have hkm := hstands.spans.lt (hasToken e (.of_mem hmem) hputs.mem_code)
  have hstop := h.stop_eq
  have hm := hstands.spans.stop_eq
  obtain rfl : k = a + 1 := by omega
  obtain rfl : m = b := by omega
  exact ⟨hstands, hkm⟩

/-- Where a text meets what stands beside it in a substitution, the substitution's children are cut,
too. -/
theorem Substitutes.exists_cut (h : s.Substitutes c a (b + 1)) (hl : l = a + 1 ∨ l = b) {t u : Token}
    (ht : s.At (l - 1) t) (hu : s.At l u) :
    ∃ x, t.stop ≤ x ∧ x ≤ u.start ∧ ∀ d ∈ c.children, d.stop ≤ x ∨ x ≤ d.start := by
  obtain ⟨opening, inner, closing, hcs, -, -, hostop, -, hcstart, -⟩ :=
    h.bracketed c (.refl c) h.kind_eq
  have hin := Node.IsBracketed.inOrder h.nested hcs hostop hcstart
  have hwidth := hin.le
  have hstop := h.stop_eq
  have hbefore := h.token_cases ht
  have hbehind := h.token_cases hu
  simp only [hcs, List.forall_mem_cons, List.forall_mem_append, List.not_mem_nil, false_implies,
    implies_true, and_true]
  rcases hl with rfl | rfl
  · refine ⟨c.start + 2, by lia, by lia, .inl (by lia), fun d hd => ?_, .inr (by lia)⟩
    exact .inr (hin.mem hd).1
  · refine ⟨c.stop - 1, by lia, by lia, .inl (by lia), fun d hd => ?_, .inr (by lia)⟩
    exact .inl (hin.mem hd).2.2

/-- No node below a template reaches over a place where a text meets what stands beside it, but for
the substitution. -/
theorem Stands.outside_of_substitutes (hn : s.Stands n i j) (hc : c ∈ n.children)
    (h : s.Substitutes c a (b + 1)) (hl : l = a + 1 ∨ l = b) : s.Outside n l := by
  rintro m u v ⟨d, hd, hwithin⟩ hm huv
  have hstop := h.stop_eq
  refine or_iff_not_imp_left.2 fun hul => or_iff_not_imp_left.2 fun hvl => ?_
  obtain ⟨t, ht⟩ := hm.exists_at (k := l - 1) (by omega)
  obtain ⟨w, hw⟩ := hm.exists_at (k := l) (by omega)
  have htm := hm.spans.range (by omega) (by omega) ht
  have hwm := hm.spans.range (by omega) (by omega) hw
  have htproper := hn.ordered.proper ht
  have hwproper := hn.ordered.proper hw
  have hdrange := (hn.spans.nested.of_mem hd).range_within hwithin
  -- the token before the place overlaps the substitution, which no other child does
  have hoverlap := h.covers.overlap (k := l - 1) (by omega) (by omega) ht
  have heq : d = c := by
    by_contra hne
    rcases Node.sublist_or_sublist hd hc hne with hsub | hsub
    · have := hn.spans.nested.inOrder.le_of_sublist hsub
      lia
    · have := hn.spans.nested.inOrder.le_of_sublist hsub
      lia
  subst heq
  rcases hwithin.eq_or_below with rfl | ⟨x, hx, hwithin⟩
  · exact h.isSilent
  · obtain ⟨y, hty, hyw, hcut⟩ := h.exists_cut hl ht hw
    have hxrange := (h.nested.of_mem hx).range_within hwithin
    rcases hcut x hx with hle | hle <;> lia

end Source

namespace Rule

open Draft

variable {s : Source} {n c : Node} {first t u : Token} {l : Nat}

/-! ## what the rule records -/

/-- The tokens directly behind the first tokens of substitutions. -/
theorem exists_substitutedFirsts {subs : List Node} (h : ∀ c ∈ subs, (s.firstOfNode? c).isSome) :
    ∃ tokens, substitutedFirsts s subs = pure tokens ∧ ∀ t, t ∈ tokens ↔
      ∃ c ∈ subs, ∃ u, s.firstOfNode? c = some u ∧ s.after? u = some t := by
  induction subs with
  | nil => exact ⟨[], rfl, by simp⟩
  | cons c rest ih =>
    obtain ⟨tokens, heq, hmem⟩ := ih fun d hd => h d (List.mem_cons_of_mem c hd)
    obtain ⟨u, hu⟩ := Option.isSome_iff_exists.1 (h c List.mem_cons_self)
    refine ⟨(s.after? u).toList ++ tokens, ?_, fun t => ?_⟩
    · rw [substitutedFirsts, hu]
      dsimp only
      rw [heq, pure_bind]
    · simp [hmem, hu]

section Records

variable (hfirst : s.firstOfNode? n = some first)
  (hsubs : ∀ c ∈ Node.substitutions n.children, (s.firstOfNode? c).isSome)
  (hc : c ∈ Node.substitutions n.children) (hne : t ≠ first)

include hfirst hsubs hc hne

/-- The text behind a substitution is recorded flush with the first text. -/
theorem templateLiteral_records_text (hlast : s.lastOfNode? c Token.isAny = some t) (ht : s.At l t)
    (helsewhere : ∀ d ∈ Node.substitutions n.children, ∀ u v, s.firstOfNode? d = some u →
      s.after? u = some v → ∃ k, k ≠ l ∧ s.At k v) :
    (templateLiteral s n).Records ⟨t, some first, 0⟩ := by
  obtain ⟨tokens, heq, hmem⟩ := exists_substitutedFirsts hsubs
  rw [templateLiteral, first_bind hfirst]
  dsimp only
  rw [show n.children.filter (·.kind == "template_substitution") = Node.substitutions n.children
    from rfl, heq, pure_bind]
  refine (records_offsets (List.mem_filterMap.2 ⟨c, hc, hlast⟩) hne).elsewhere ht
    (meets_offsets_elsewhere fun v hv => ?_)
  obtain ⟨d, hd, w, hw, hafter⟩ := (hmem v).1 hv
  exact helsewhere d hd w v hw hafter

/-- What a substitution puts in is recorded relative to the first text. -/
theorem templateLiteral_records_first (hopening : s.firstOfNode? c = some u)
    (hafter : s.after? u = some t) : (templateLiteral s n).Records ⟨t, some first, 1⟩ := by
  obtain ⟨tokens, heq, hmem⟩ := exists_substitutedFirsts hsubs
  rw [templateLiteral, first_bind hfirst]
  dsimp only
  rw [show n.children.filter (·.kind == "template_substitution") = Node.substitutions n.children
    from rfl, heq, pure_bind]
  exact (meets_write (E := fun _ => True) fun _ _ => trivial).records fun _ _ =>
    records_offsets ((hmem t).2 ⟨c, hc, u, hopening, hafter⟩) hne

end Records

end Rule

namespace Source

variable {s : Source} {n c e : Node} {ancestors : List Node} {i j a b l : Nat} {t u : Token}

/-! ## what lasts -/

section Lasting

variable (h : s.Orderly) (hplace : ⟨n, ancestors⟩ ∈ s.root.visited [])
  (hkind : n.kind = "template_string") (hn : s.Stands n i j)
  (hc : c ∈ Node.substitutions n.children) (hputs : c.PutsIn e) (hfills : s.Fills c t u a b)

include hplace hkind hn hc hputs hfills

/-- The expression of a substitution is visited, and stands between the two texts. -/
theorem Fills.stands_expression :
    s.Stands e (a + 1) b ∧ a + 1 < b ∧ ⟨e, c :: n :: ancestors⟩ ∈ s.root.visited [] := by
  obtain ⟨hmem, hckind⟩ := List.mem_filter.1 hc
  rw [beq_iff_eq] at hckind
  obtain ⟨hstands, hlt⟩ := hfills.substitutes.stands_expression hputs hn.ordered fun m hm =>
    hn.hasToken m (hm.within.trans_below (.of_mem hmem))
  have hcvisited := Node.child_mem_visited hplace
    (show Construct.ofKind? n.kind = some .templateLiteral by rw [hkind]; decide)
    (Node.mem_codeChildren.2 ⟨hmem, hputs.code⟩)
  exact ⟨hstands, hlt, Node.child_mem_visited hcvisited
    (show Construct.ofKind? c.kind = some .plain by rw [hckind]; decide) hputs.mem_codeChildren⟩

include h

/-- What the rule of a template records where a text and a substitution meet lasts. -/
theorem Orderly.get?_of_fills {caseLevels : Int} (hia : i ≤ a) (hbj : b < j)
    (hl : l = a + 1 ∨ l = b) {d : Entry} (hd : s.At l d.token)
    (hrecords : (Rule.templateLiteral s n).Records d) :
    (s.analyze caseLevels).registry.get? d.token = some d := by
  obtain ⟨hstands, hlt, hvisited⟩ := hfills.stands_expression hplace hkind hn hc hputs
  have hrule : Construct.ofKind? n.kind = some .templateLiteral := by rw [hkind]; decide
  have hcalm : s.Calm l := by
    rcases hl with rfl | rfl
    · refine h.calm hvisited hstands hlt fun t' _ ht' => ?_
      obtain rfl := Option.mem_unique ht' hfills.left_at
      simp [Token.isOpeningParen, Token.isPunctuator, hfills.left_kind]
    · refine h.calm_behind hvisited hstands hlt fun u' hu' => ?_
      obtain rfl := Option.mem_unique hu' hfills.right_at
      simp [Token.isClosingParen, Token.isPunctuator, hfills.right_kind]
  refine h.get?_of_rule hplace hn hrule (by rw [hkind]; decide) hrecords hd (by omega) (by omega)
    (fun _ hd' => Rule.common_elsewhere hn (by omega) (by omega) hd ?_ hd') hcalm
    (hn.outside_of_substitutes (List.mem_filter.1 hc).1 hfills.substitutes hl)
  rw [hkind]
  exact fun hstatement => absurd hstatement (by decide)

end Lasting

section Entries

variable (h : s.Orderly) (hplace : ⟨n, ancestors⟩ ∈ s.root.visited [])
  (hkind : n.kind = "template_string") (hn : s.Stands n i (j + 1))
  (hputs : ∀ c ∈ Node.substitutions n.children, ∃ e, c.PutsIn e) {first : Token} {rest : List Token}
  (hthreads : s.Threads (Node.substitutions n.children) (first :: rest) i j) (caseLevels : Int)

include h hplace hkind hn hputs hthreads

omit h hplace hkind hputs in
theorem Threads.isSome_first : ∀ c ∈ Node.substitutions n.children, (s.firstOfNode? c).isSome := by
  intro c hc
  obtain ⟨m, hm⟩ := List.getElem?_of_mem hc
  obtain ⟨_, _, t, _, -, -, hfills, -⟩ := hthreads.exists_fills hm
  rw [(hfills.ends hn.ordered).1]
  rfl

omit h in
/-- What a substitution puts in begins with none of the texts. -/
theorem Threads.elsewhere {l : Nat} {u : Token} (hu : u ∈ first :: rest) (hl : s.At l u) {d : Node}
    (hd : d ∈ Node.substitutions n.children) {t v : Token} (ht : s.firstOfNode? d = some t)
    (hv : s.after? t = some v) : ∃ k, k ≠ l ∧ s.At k v := by
  obtain ⟨m, hm⟩ := List.getElem?_of_mem hd
  obtain ⟨a, b, _, _, -, -, hfills, -⟩ := hthreads.exists_fills hm
  obtain ⟨x, hx⟩ := hputs d hd
  obtain ⟨-, hlt, -⟩ := hfills.stands_expression hplace hkind hn hd hx
  obtain rfl := Option.mem_unique (hfills.ends hn.ordered).1 ht
  rw [(s.ends_token hfills.left_at).after?_eq] at hv
  refine ⟨a + 1, ?_, hv⟩
  rintro rfl
  obtain rfl := Option.mem_unique hl hv
  have hencloses := hfills.substitutes.encloses_eq_true hl (Nat.lt_succ_self a) (by omega)
  simp [hthreads.encloses_eq_false hn.ordered hu hd] at hencloses

/-- Texts behind substitutions are flush with the first text, in the end. -/
theorem Threads.get?_text {t : Token} (ht : t ∈ rest) :
    (s.analyze caseLevels).registry.get? t = some ⟨t, some first, 0⟩ := by
  obtain ⟨m, hm⟩ := List.getElem?_of_mem ht
  have hlength := hthreads.length_eq
  have hmlt := (List.getElem?_eq_some_iff.1 hm).1
  rw [List.length_cons] at hlength
  obtain ⟨c, hc⟩ : ∃ c, (Node.substitutions n.children)[m]? = some c :=
    ⟨_, List.getElem?_eq_getElem (by omega)⟩
  have hmem := List.mem_of_getElem? hc
  obtain ⟨a, b, _, u, hia, hbj, hfills, -, hu⟩ := hthreads.exists_fills hc
  obtain rfl : t = u := Option.mem_unique hm hu
  obtain ⟨x, hx⟩ := hputs c hmem
  obtain ⟨-, hlt, -⟩ := hfills.stands_expression hplace hkind hn hmem hx
  have hfirst := ((hn.ends (by omega)).first?_eq).trans hthreads.head_eq.symm
  refine h.get?_of_fills (d := ⟨t, some first, 0⟩) hplace hkind hn hmem hx hfills hia (by omega)
    (.inr rfl) hfills.right_at ?_
  refine Rule.templateLiteral_records_text hfirst (hthreads.isSome_first hn) hmem ?_
    (hfills.ends hn.ordered).2 hfills.right_at fun d hd v w hv hw =>
      hthreads.elsewhere hplace hkind hn hputs (.tail first ht) hfills.right_at hd hv hw
  rintro rfl
  have := eq_of_getElem? hthreads.head_eq.symm hfills.right_at
  omega

omit hputs in
/-- What substitutions put in is one level deeper than the first text, in the end. -/
theorem Threads.get?_expression {c e : Node} (hc : c ∈ Node.substitutions n.children)
    (he : c.PutsIn e) : ∃ t, s.firstOfNode? e = some t ∧
      (s.analyze caseLevels).registry.get? t = some ⟨t, some first, 1⟩ := by
  obtain ⟨m, hm⟩ := List.getElem?_of_mem hc
  obtain ⟨a, b, u, _, hia, hbj, hfills, -⟩ := hthreads.exists_fills hm
  obtain ⟨hstands, hlt, -⟩ := hfills.stands_expression hplace hkind hn hc he
  obtain ⟨t, ht, hfirstOf⟩ := (hstands.ends hlt).exists_first?
  have hfirst := ((hn.ends (by omega)).first?_eq).trans hthreads.head_eq.symm
  refine ⟨t, hfirstOf, ?_⟩
  refine h.get?_of_fills (d := ⟨t, some first, 1⟩) hplace hkind hn hc he hfills hia (by omega)
    (.inl rfl) ht ?_
  refine Rule.templateLiteral_records_first hfirst (hthreads.isSome_first hn) hc ?_
    (hfills.ends hn.ordered).1 ((s.ends_token hfills.left_at).after?_eq.trans ht)
  rintro rfl
  have := eq_of_getElem? hthreads.head_eq.symm ht
  omega

end Entries

/-- A template owns one token more than it has substitutions, its literal texts.  A substitution
begins with the text before it and ends with the text behind it.  In the end the texts behind
substitutions are recorded flush with the first text, and what substitutions put in one level deeper
than it. -/
theorem entries_of_template (h : s.Orderly) (hplace : ⟨n, ancestors⟩ ∈ s.root.visited [])
    (hkind : n.kind = "template_string")
    (hputs : ∀ c ∈ Node.substitutions n.children, ∃ e, c.PutsIn e) (caseLevels : Int) :
    ∃ first rest, s.tokens.toList.filter (fun t => n.owns t.piece) = first :: rest ∧
      rest.length = (Node.substitutions n.children).length ∧
      (∀ t ∈ first :: rest, t.kind = .template) ∧
      (∀ (m : Nat) (c : Node), (Node.substitutions n.children)[m]? = some c →
        s.firstOfNode? c = (first :: rest)[m]? ∧
          s.lastOfNode? c Token.isAny = (first :: rest)[m + 1]?) ∧
      (∀ t ∈ rest, (s.analyze caseLevels).registry.get? t = some ⟨t, some first, 0⟩) ∧
      ∀ c ∈ Node.substitutions n.children, ∀ e, c.PutsIn e → ∃ t, s.firstOfNode? e = some t ∧
        (s.analyze caseLevels).registry.get? t = some ⟨t, some first, 1⟩ := by
  have g := h.grammatical
  have hrule : Construct.ofKind? n.kind = some .templateLiteral := by rw [hkind]; decide
  obtain ⟨i, j', hn⟩ := (found_of_visited g hplace).exists_stands hrule (by simp)
  have hlt := hn.spans.lt (shape_of_visited g hplace hrule).1
  obtain ⟨texts, j, hthreads, rfl⟩ := hn.exists_threads hlt hkind
  have hlength := hthreads.length_eq
  obtain ⟨first, rest, rfl⟩ := List.exists_cons_of_length_eq_add_one hlength
  refine ⟨first, rest, hthreads.filter_owns hn, Nat.succ.inj hlength,
    fun t ht => hthreads.kind_eq ht, fun m c hc => hthreads.ends hn.ordered hc, fun t ht => ?_,
    fun c hc e he => ?_⟩
  · exact hthreads.get?_text h hplace hkind hn hputs caseLevels ht
  · exact hthreads.get?_expression h hplace hkind hn caseLevels hc he

/-! ## a template in a template -/

def innerSubstitution : Node :=
  ⟨"template_substitution", true, false, false, [], 6, 12,
    [⟨"$\x7b", false, false, false, [], 6, 8, []⟩,
      ⟨"parenthesized_expression", true, false, false, [], 8, 11,
        [⟨"(", false, false, false, [], 8, 9, []⟩, ⟨"identifier", true, false, false, [], 9, 10, []⟩,
          ⟨")", false, false, false, [], 10, 11, []⟩]⟩,
      ⟨"\x7d", false, false, false, [], 11, 12, []⟩]⟩

def innerTemplate : Node :=
  ⟨"template_string", true, false, false, [], 4, 13,
    [⟨"`", false, false, false, [], 4, 5, []⟩, ⟨"string_fragment", true, false, false, [], 5, 6, []⟩,
      innerSubstitution, ⟨"`", false, false, false, [], 12, 13, []⟩]⟩

def outerSubstitution : Node :=
  ⟨"template_substitution", true, false, false, [], 2, 14,
    [⟨"$\x7b", false, false, false, [], 2, 4, []⟩, innerTemplate,
      ⟨"\x7d", false, false, false, [], 13, 14, []⟩]⟩

def nextSubstitution : Node :=
  ⟨"template_substitution", true, false, false, [], 14, 18,
    [⟨"$\x7b", false, false, false, [], 14, 16, []⟩,
      ⟨"identifier", true, false, false, [], 16, 17, []⟩,
      ⟨"\x7d", false, false, false, [], 17, 18, []⟩]⟩

/-- A template with two substitutions side by side, of which the first puts in a template that puts
in a name in parentheses. -/
def outerTemplate : Node :=
  ⟨"template_string", true, false, false, [], 0, 19,
    [⟨"`", false, false, false, [], 0, 1, []⟩, ⟨"string_fragment", true, false, false, [], 1, 2, []⟩,
      outerSubstitution, nextSubstitution, ⟨"`", false, false, false, [], 18, 19, []⟩]⟩

/-- A program that consists of the template. -/
def nestedSource : Source :=
  .ofTree "`a$\x7b`b$\x7b(c)\x7d`\x7d$\x7bd\x7d`".toUTF8.data
    ⟨"program", true, false, false, [], 0, 19,
      [⟨"expression_statement", true, false, false, [], 0, 19, [outerTemplate]⟩]⟩ none []

theorem nestedSource_orderly : nestedSource.Orderly := by
  have htokens : nestedSource.root.all (fun m => !m.isNamed || m.isComment ||
      decide (0 < Piece.codeCount (m.pieces nestedSource.buffer))) = true := by decide +kernel
  have hplain : nestedSource.root.all (fun m => !Node.isAtomicKind m.kind) = true := by
    decide +kernel
  refine .of_grammatical (.of_nodes (Node.nested_of_all (by decide +kernel))
    (Node.bracketed_of_all (by decide +kernel)) (fun m hm ⟨hnamed, hcomment⟩ => ?_)
    (fun m hm hatomic => ?_) ?_) (by decide +kernel) (by decide +kernel) (by decide +kernel)
  · simpa [hnamed, hcomment, Node.HasToken] using Node.of_all htokens hm
  · have hother := Node.of_all hplain hm
    simp [hatomic] at hother
  · have hnodes : nestedSource.root.nodes.filter Node.isRuled =
        [nestedSource.root, outerTemplate, innerTemplate] := rfl
    simp only [hnodes, List.forall_mem_cons]
    exact ⟨.of_shape .program (by decide) trivial,
      .of_shape .templateLiteral (by decide)
        ⟨show 0 < Piece.codeCount _ by decide +kernel, by decide +kernel⟩,
      .of_shape .templateLiteral (by decide)
        ⟨show 0 < Piece.codeCount _ by decide +kernel, by decide +kernel⟩, by simp⟩

theorem outerSubstitution_putsIn : outerSubstitution.PutsIn innerTemplate :=
  ⟨⟨rfl, rfl⟩, ⟨_, _, rfl⟩, ⟨rfl, rfl⟩, by decide⟩

private theorem nextSubstitution_putsIn : nextSubstitution.PutsIn
    ⟨"identifier", true, false, false, [], 16, 17, []⟩ :=
  ⟨⟨rfl, rfl⟩, ⟨_, _, rfl⟩, ⟨rfl, rfl⟩, by decide⟩

/-- The two substitutions share a text, all texts are flush with the first one, and the template
that is put in is one level deeper. -/
theorem entries_of_template_outerTemplate :
    ∃ first second third inner : Token,
      (first.value, second.value, third.value, inner.value) =
          ("`a$\x7b", "\x7d$\x7b", "\x7d`", "`b$\x7b") ∧
        nestedSource.lastOfNode? outerSubstitution Token.isAny = some second ∧
        nestedSource.firstOfNode? nextSubstitution = some second ∧
        (nestedSource.analyze 1).registry.get? second = some ⟨second, some first, 0⟩ ∧
        (nestedSource.analyze 1).registry.get? third = some ⟨third, some first, 0⟩ ∧
        (nestedSource.analyze 1).registry.get? inner = some ⟨inner, some first, 1⟩ := by
  have hplace : ⟨outerTemplate, [⟨"expression_statement", true, false, false, [], 0, 19,
      [outerTemplate]⟩, nestedSource.root]⟩ ∈ nestedSource.root.visited [] :=
    List.mem_of_getElem? (i := 2) rfl
  have hsubs : Node.substitutions outerTemplate.children = [outerSubstitution, nextSubstitution] :=
    rfl
  obtain ⟨first, rest, howns, -, -, hends, htexts, hputs⟩ :=
    entries_of_template nestedSource_orderly hplace rfl (by
      simp only [hsubs, List.forall_mem_cons, List.not_mem_nil, false_implies, implies_true,
        and_true]
      exact ⟨⟨_, outerSubstitution_putsIn⟩, ⟨_, nextSubstitution_putsIn⟩⟩) 1
  have htokens : nestedSource.tokens.toList.filter (fun t => outerTemplate.owns t.piece) =
      [⟨0, 4, .template, "`a$\x7b", 1, 0, 1, some 0⟩,
        ⟨13, 16, .template, "\x7d$\x7b", 1, 13, 1, some 6⟩,
        ⟨17, 19, .template, "\x7d`", 1, 17, 1, some 8⟩] := by decide +kernel
  obtain ⟨rfl, rfl⟩ := List.cons.inj (howns.symm.trans htokens)
  obtain ⟨inner, hinner, hentry⟩ :=
    hputs outerSubstitution (hsubs ▸ List.mem_cons_self) innerTemplate outerSubstitution_putsIn
  have hvalue : (nestedSource.firstOfNode? innerTemplate).map Token.value = some "`b$\x7b" := by
    decide +kernel
  rw [hinner] at hvalue
  exact ⟨_, _, _, inner,
    Prod.ext rfl (Prod.ext rfl (Prod.ext rfl (Option.some.inj hvalue))),
    (hends 0 outerSubstitution rfl).2, (hends 1 nextSubstitution rfl).1,
    htexts _ (.head _), htexts _ (.tail _ (.head _)), hentry⟩

end Source

end ScriptIndent
