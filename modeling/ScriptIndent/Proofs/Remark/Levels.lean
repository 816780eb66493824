import ScriptIndent.Proofs.Offset.LineByLine
import ScriptIndent.Proofs.Remark.Lines
import ScriptIndent.Proofs.Stream.Lossless

/-!
# ScriptIndent.Proofs.Remark.Levels

Comments are transparent.

```
a=b          // one
             a/* two */=b// three
```

Comments of one line that are put into a grammatical program change no relation between
its tokens, and no level: each line has the level it had, further down by the lines put
in, but that nothing is expected any more of a line that a comment leads
(`Remarks.transparent`).
-/

namespace ScriptIndent

namespace Source

/-- A comment leads the line. -/
def ledByComment (s : Source) (line : Nat) : Bool :=
  (leaders s.lines).any fun t => t.isComment && t.line == line

/-- On the line of a leader, a comment leads if the leader is one. -/
theorem ledByComment_of_leader {s : Source} {t : Token} (h : t ∈ leaders s.lines) :
    s.ledByComment t.line = t.isComment := by
  cases hcomment : t.isComment with
  | true => exact List.any_eq_true.2 ⟨t, h, by simp [hcomment]⟩
  | false =>
    refine List.any_eq_false.2 fun u hu => ?_
    simp only [Bool.and_eq_true, beq_iff_eq, not_and]
    intro hu' hline
    rw [eq_of_leaders (fun _ => line_le_endLine) h hu hline.symm, hu'] at hcomment
    cases hcomment

/-- Tokens and comments in order, none on a line before the end of the one before it. -/
theorem pairwise_lines {s : Source} {lo hi : Offset} (h : Piece.Between lo hi s.pieces) :
    ((numbered 0 s.pieces).map s.tokenOf).Pairwise (·.endLine ≤ ·.line) := by
  have hpairwise : (numbered 0 s.pieces).Pairwise fun x y => x.1.stop ≤ y.1.start := by
    have := h.pairwise
    rwa [← map_numbered 0 s.pieces, List.pairwise_map] at this
  rw [List.pairwise_map]
  refine hpairwise.imp_of_mem fun {x y} hx _ hxy => s.buffer.lineOf_mono ?_
  have hx : x.1 ∈ s.pieces := map_numbered 0 s.pieces ▸ List.mem_map_of_mem hx
  have := (h.mem hx).2.1
  lia

end Source

namespace Embedding

variable {s s' : Source} {m : Embedding s s'}

/-- Pieces that are found with comments of one line among them become tokens that are
found so. -/
theorem tokensStrewn_numbered {P : Piece → Prop} {f : Piece → Piece} {ps ps' : List Piece}
    (h : Strewn P (ps.map f) ps') (hP : ∀ p, P p → p.isComment = true ∧
      (s'.tokenOf (p, none)).line = (s'.tokenOf (p, none)).endLine)
    (hf : ∀ p, (f p).isComment = p.isComment) (k : Nat)
    (halign : ∀ x ∈ Source.numbered k ps, m.Aligned (s.tokenOf x) (s'.tokenOf (f x.1, x.2))) :
    m.TokensStrewn ((Source.numbered k ps).map s.tokenOf)
      ((Source.numbered k ps').map s'.tokenOf) := by
  generalize hqs : ps.map f = qs at h
  induction h generalizing ps k with
  | nil =>
    obtain rfl := List.map_eq_nil_iff.1 hqs
    exact .nil
  | keep q _ ih =>
    obtain ⟨p, rest, rfl, rfl, rfl⟩ := List.map_eq_cons_iff.1 hqs
    rw [Source.numbered] at halign ⊢
    rw [Source.numbered, hf]
    split
    · next hcomment =>
      rw [if_pos hcomment] at halign
      exact .keep (halign _ List.mem_cons_self)
        (ih k (fun x hx => halign x (List.mem_cons_of_mem _ hx)) rfl)
    · next hcode =>
      rw [if_neg hcode] at halign
      exact .keep (halign _ List.mem_cons_self)
        (ih (k + 1) (fun x hx => halign x (List.mem_cons_of_mem _ hx)) rfl)
  | @more q _ _ hq _ ih =>
    obtain ⟨hcomment, hline⟩ := hP q hq
    rw [Source.numbered, if_pos hcomment, List.map_cons]
    exact .more hcomment hline (ih k halign hqs)

end Embedding

namespace Remarks

variable {r : Remarks} {s : Source}

namespace Suits

variable (h : r.Suits s) (g : s.root.Grammatical s.buffer) (hkind : s.root.kind = "program")

include h g hkind

/-- Lines are found with comments among them. -/
theorem linesStrewn : (h.embedding g hkind).LinesStrewn s.lines (r.source s).lines := by
  have hbetween : Piece.Between s.root.start s.root.stop s.pieces :=
    Node.pieces_between g.nested g.bracketed
  have hbetween' : Piece.Between r.start r.stop (r.source s).pieces :=
    Node.pieces_between h.nested h.bracketed
  have hmerged := s.merged_eq_numbered hbetween
  have hmerged' := (r.source s).merged_eq_numbered hbetween'
  rw [Source.lines, Source.lines, hmerged, hmerged']
  have hstrewn : (h.embedding g hkind).TokensStrewn
      ((Source.numbered 0 s.pieces).map s.tokenOf)
      ((Source.numbered 0 (r.source s).pieces).map (r.source s).tokenOf) := by
    refine Embedding.tokensStrewn_numbered (h.strewn_pieces g hkind) (fun p hp => ⟨hp.1, ?_⟩)
      (fun _ => rfl) 0 fun x hx => ?_
    · rcases Int.le_total p.start (p.stop - 1) with hle | hle
      · simpa only [Source.tokenOf, Buffer.token, Int.max_eq_right hle] using hp.2
      · simp only [Source.tokenOf, Buffer.token, Int.max_eq_left hle]
    · have hmem : x ∈ s.items := (Source.numbered_perm 0 _).mem_iff.1 hx
      have halign := (h.finds g hkind).aligned (m := h.embedding g hkind) rfl rfl
        (fun p hp => Inserts.Suits.solid (h.texts g) (List.mem_filter.1 hp).1) hmem
      have hid : x.2.map (0 + ·) = x.2 := by cases x.2 <;> simp
      rwa [hid] at halign
  refine Embedding.linesStrewn hstrewn (fun t ht => ?_) (fun t ht => ?_)
    (Source.pairwise_lines hbetween')
  · exact Source.line_le_endLine (hmerged ▸ ht)
  · exact Source.line_le_endLine (hmerged' ▸ ht)

end Suits

/-- Comments are transparent: the walk through a program with comments records the same of
the same tokens, and each line has its level, further down by the lines put in, unless a
comment leads it. -/
theorem transparent (r : Remarks) (s : Source) (g : s.root.Grammatical s.buffer)
    (hkind : s.root.kind = "program") (h : r.Suits s) (caseLevels width : Int) :
    (s.analyze caseLevels).fault = none ∧ ((r.source s).analyze caseLevels).fault = none ∧
      ((r.source s).analyze caseLevels).registry.relations =
        (s.analyze caseLevels).registry.relations ∧
      ∃ levels : LineLevels,
        (Resolver.lineLevels { width } s (s.analyze caseLevels).registry).1 = .ok levels ∧
        (Resolver.lineLevels { width } (r.source s)
            ((r.source s).analyze caseLevels).registry).1 =
          .ok ((levels.map fun (line, level) => (r.texts.row s.buffer s.pieces line, level)).filter
            fun (line, _) => !(r.source s).ledByComment line) := by
  obtain ⟨hfault, hback⟩ := Source.analyze_pointsBack g caseLevels
  obtain ⟨hregisters, hfault'⟩ := h.registers g hkind caseLevels
  obtain ⟨levels, hlevels⟩ := Registry.exists_settle hback []
    fun line hline t ht hcode => Source.mem_tokens_of_mem_lines hline ht hcode
  have hknows : (h.embedding g hkind).Knows [] [] := fun _ _ _ => rfl
  exact ⟨hfault, hfault', h.relations_eq g hkind caseLevels, levels, hlevels,
    Embedding.settle_strewn hregisters (h.linesStrewn g hkind)
      (fun t ht => Source.ledByComment_of_leader ht) hknows hlevels⟩

/-- Comments for `a=b`, each with the kind of its parent and its place there. -/
def assignmentNotes : List (String × Nat × Node) :=
  [("program", 0, ⟨"comment", true, false, false, [], 0, 3, []⟩),
    ("assignment_expression", 1, ⟨"comment", true, false, false, [], 5, 10, []⟩),
    ("program", 1, ⟨"comment", true, false, false, [], 12, 14, []⟩)]

/-- The comments in

```
//1
a/*2*/=b//
```
-/
def ofAssignment : Remarks where
  texts i :=
    if i = 0 then [0x2F, 0x2F, 0x31, 0x0A]
    else if i = 1 then [0x2F, 0x2A, 0x32, 0x2A, 0x2F]
    else if i = 3 then [0x2F, 0x2F]
    else []
  comments n i := (assignmentNotes.filter fun x => x.1 = n.kind ∧ x.2.1 = i).map (·.2.2)
  start := 0
  stop := 14
  isComment h := by
    obtain ⟨x, hx, rfl⟩ := List.mem_map.1 h
    exact (by decide : ∀ x ∈ assignmentNotes, x.2.2.isComment = true) x (List.mem_filter.1 hx).1
  isNamed h := by
    obtain ⟨x, hx, rfl⟩ := List.mem_map.1 h
    exact (by decide : ∀ x ∈ assignmentNotes, x.2.2.isNamed = true) x (List.mem_filter.1 hx).1
  fields h := by
    obtain ⟨x, hx, rfl⟩ := List.mem_map.1 h
    exact (by decide : ∀ x ∈ assignmentNotes, x.2.2.fields = []) x (List.mem_filter.1 hx).1

theorem pieces_assignment : Source.assignmentSource.pieces =
    [⟨.identifier, 0, 1⟩, ⟨.punctuator, 1, 2⟩, ⟨.identifier, 2, 3⟩] := by
  decide +kernel

theorem suits_assignment : ofAssignment.Suits Source.assignmentSource where
  inText {p} hp := by
    rw [pieces_assignment] at hp
    revert p
    decide
  apart {p i} hp h₁ h₂ := by
    -- tokens of one byte have no place in them
    have hone : ∀ p ∈ Source.assignmentSource.pieces, p.stop = p.start + 1 := by
      rw [pieces_assignment]
      decide
    have := hone p hp
    lia
  level {p q} hp hq hle _ := by
    have hlines : ∀ p ∈ Source.assignmentSource.pieces, ∀ q ∈ Source.assignmentSource.pieces,
        p.stop ≤ q.start → ofAssignment.texts.lines (p.stop - 1) = ofAssignment.texts.lines q.start := by
      rw [pieces_assignment]
      decide +kernel
    exact hlines p hp q hq hle
  host {n i} hn hne := by
    obtain ⟨c, hc, hn⟩ := hn
    have hall : ∀ c ∈ Source.assignmentSource.root.children, c.all (fun n =>
        n.kind != "program" && (n.kind != "assignment_expression" ||
          n.isNamed && !n.children.isEmpty)) = true := by
      decide +kernel
    have htest := Node.of_all (hall c hc) hn
    obtain ⟨y, hy⟩ := List.exists_mem_of_ne_nil _ hne
    obtain ⟨x, hx, -⟩ := List.mem_map.1 hy
    obtain ⟨hnote, hhost⟩ := List.mem_filter.1 hx
    obtain ⟨hkind, rfl⟩ := of_decide_eq_true hhost
    rw [← hkind, Bool.and_eq_true, bne_iff_ne] at htest
    have hnotes : ∀ x ∈ assignmentNotes, x.1 ≠ "program" →
        x.1 = "assignment_expression" ∧ 0 < x.2.1 := by
      decide
    obtain ⟨hassignment, hpos⟩ := hnotes x hnote htest.1
    rw [hassignment, bne_self_eq_false, Bool.false_or, Bool.and_eq_true] at htest
    refine ⟨htest.2.1, ⟨⟨?_, ?_⟩, by simpa using htest.2.2⟩, hpos⟩
    · rw [Node.isComment, ← hkind, hassignment]
      decide
    · rw [← hkind, hassignment]
      decide
  line _ hc := by
    obtain ⟨x, hx, rfl⟩ := List.mem_map.1 hc
    have hlines : ∀ x ∈ assignmentNotes,
        (ofAssignment.source Source.assignmentSource).buffer.lineOf x.2.2.start =
          (ofAssignment.source Source.assignmentSource).buffer.lineOf (x.2.2.stop - 1) := by
      decide +kernel
    exact hlines x (List.mem_filter.1 hx).1
  nested := Node.nested_of_all (by decide +kernel)
  bracketed := Node.bracketed_of_all (by decide +kernel)
  blank h := by cases h
  blank' h := by cases h

/-- The levels of `a=b`. -/
theorem lineLevels_assignment :
    (Resolver.lineLevels { width := 2 } Source.assignmentSource
      (Source.assignmentSource.analyze 1).registry).1 = .ok [(1, 0)] :=
  Source.lineLevels_eq_ok (by decide +kernel) (by decide +kernel)

/-- Among the comments, the assignment stands on line 2, and the first line is led by a
comment. -/
theorem transparent_assignment :
    Source.assignmentSource.root.Grammatical Source.assignmentSource.buffer ∧
      Source.assignmentSource.root.kind = "program" ∧
      ofAssignment.Suits Source.assignmentSource ∧
      (Resolver.lineLevels { width := 2 } Source.assignmentSource
        (Source.assignmentSource.analyze 1).registry).1 = .ok [(1, 0)] ∧
      (Resolver.lineLevels { width := 2 } (ofAssignment.source Source.assignmentSource)
        ((ofAssignment.source Source.assignmentSource).analyze 1).registry).1 = .ok [(2, 0)] := by
  obtain ⟨-, -, -, levels, hlevels, hstrewn⟩ :=
    transparent ofAssignment Source.assignmentSource Source.assignmentSource_grammatical rfl
      suits_assignment 1 2
  obtain rfl := Except.ok.inj (lineLevels_assignment.symm.trans hlevels)
  refine ⟨Source.assignmentSource_grammatical, rfl, suits_assignment, lineLevels_assignment, ?_⟩
  have hrow : ofAssignment.texts.row Source.assignmentSource.buffer
      Source.assignmentSource.pieces 1 = 2 := by decide +kernel
  have hled : (ofAssignment.source Source.assignmentSource).ledByComment 2 = false := by
    rw [Source.ledByComment, Source.lines, Source.merged_eq_inserted (by decide +kernel)]
    decide +kernel
  simpa [hrow, hled] using hstrewn

end Remarks

end ScriptIndent
