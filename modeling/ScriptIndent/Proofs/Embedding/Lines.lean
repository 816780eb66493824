import ScriptIndent.Proofs.Embedding.Shift
import ScriptIndent.Proofs.Layout.Lines

/-!
# ScriptIndent.Proofs.Embedding.Lines

The lines of a source and of a source around it.

Tokens and comments are listed by the starts of their pieces (`Source.merged_eq`), which
is their order in the document (`Source.sortedItems_eq`).  If those of one source are found
in the same order and their lines are so too, they are cut into the same lines
(`Embedding.groupsFrom_aligned`).
-/

namespace ScriptIndent

namespace Source

variable (s : Source)

/-- The tokens and comments of a source, cut from its text. -/
def pieces : List Piece := s.root.pieces s.buffer

/-- The pieces that become comments. -/
def commentPieces : List Piece := (s.root.pieces s.buffer).filter (·.isComment)

/-- All pieces, those that become code tokens with their places. -/
def items : List (Piece × Option Nat) :=
  (s.codePieces.zipIdx.map fun (p, i) => (p, some i)) ++ s.commentPieces.map fun p => (p, none)

/-- What a piece becomes. -/
def tokenOf (x : Piece × Option Nat) : Token := s.buffer.token x.1 x.2

/-- The items by the starts of their pieces. -/
def sortedItems : List (Piece × Option Nat) :=
  s.items.mergeSort fun x y => x.1.start ≤ y.1.start

variable {s} in
theorem mem_pieces_of_mem_codePieces {p : Piece} (hp : p ∈ s.codePieces) : p ∈ s.pieces :=
  (List.mem_filter.1 hp).1

theorem mem_items {p : Piece} {i : Option Nat} (h : (p, i) ∈ s.items) :
    (∃ k, i = some k ∧ s.codePieces[k]? = some p) ∨ i = none ∧ p ∈ s.commentPieces := by
  rw [items, List.mem_append, List.mem_map, List.mem_map] at h
  rcases h with ⟨⟨q, k⟩, hq, heq⟩ | ⟨q, hq, heq⟩
  · obtain ⟨rfl, rfl⟩ := Prod.mk.injEq .. ▸ heq
    exact .inl ⟨k, rfl, List.mem_zipIdx_iff_getElem?.1 hq⟩
  · obtain ⟨rfl, rfl⟩ := Prod.mk.injEq .. ▸ heq
    exact .inr ⟨rfl, hq⟩

theorem mem_pieces_of_mem_items {p : Piece} {i : Option Nat} (h : (p, i) ∈ s.items) :
    p ∈ s.root.pieces s.buffer := by
  rcases s.mem_items h with ⟨k, -, hk⟩ | ⟨-, hp⟩
  · exact (List.mem_filter.1 (List.mem_of_getElem? hk)).1
  · exact (List.mem_filter.1 hp).1

theorem map_items : s.items.map s.tokenOf = s.tokens.toList ++ s.comments := by
  rw [s.tokens_eq, s.comments_eq, items, List.map_append, List.map_map, List.map_map]
  rfl

/-- The tokens and comments of a source are its pieces by their starts. -/
theorem merged_eq : s.merged = s.sortedItems.map s.tokenOf := by
  rw [merged, ← map_items, sortedItems, List.map_mergeSort]
  intro x _ y _
  rfl

variable {s} in
theorem exists_piece_of_mem_merged {t : Token} (h : t ∈ s.merged) :
    ∃ p ∈ s.pieces, ∃ i, t = s.buffer.token p i := by
  rw [merged_eq, List.mem_map] at h
  obtain ⟨⟨p, i⟩, hp, rfl⟩ := h
  exact ⟨p, s.mem_pieces_of_mem_items (List.mem_mergeSort.1 hp), i, rfl⟩

variable {s} in
theorem line_le_endLine {t : Token} (h : t ∈ s.merged) : t.line ≤ t.endLine := by
  obtain ⟨p, -, i, rfl⟩ := exists_piece_of_mem_merged h
  exact s.buffer.lineOf_mono (Int.le_max_left _ _)

/-! ## document order -/

/-- Some pieces in document order, those that become code tokens numbered from `k`. -/
def numbered : Nat → List Piece → List (Piece × Option Nat)
  | _, [] => []
  | k, p :: rest =>
    if p.isComment then (p, none) :: numbered k rest else (p, some k) :: numbered (k + 1) rest

theorem numbered_append (k : Nat) (ps qs : List Piece) :
    numbered k (ps ++ qs) = numbered k ps ++ numbered (k + Piece.codeCount ps) qs := by
  induction ps generalizing k with
  | nil => rfl
  | cons p rest ih =>
    rw [List.cons_append, numbered, numbered, Piece.codeCount_cons]
    cases p.isComment with
    | true => simp [ih]
    | false => simp [ih, Nat.add_assoc]

theorem map_numbered (k : Nat) (ps : List Piece) : (numbered k ps).map Prod.fst = ps := by
  induction ps generalizing k with
  | nil => rfl
  | cons p rest ih =>
    rw [numbered]
    split <;> simp [ih]

/-- Numbering the code tokens among some pieces, or the code tokens by themselves. -/
theorem numbered_perm (k : Nat) (ps : List Piece) :
    (numbered k ps).Perm
      ((((ps.filter (!·.isComment)).zipIdx k).map fun (p, i) => (p, some i)) ++
        (ps.filter (·.isComment)).map fun p => (p, none)) := by
  induction ps generalizing k with
  | nil => exact .nil
  | cons p rest ih =>
    rw [numbered]
    cases hp : p.isComment with
    | true =>
      simp only [hp, if_true, List.filter_cons, Bool.not_true, Bool.false_eq_true, if_false,
        List.map_cons]
      exact ((ih k).cons _).trans List.perm_middle.symm
    | false =>
      simp only [hp, Bool.false_eq_true, if_false, List.filter_cons, Bool.not_false, if_true,
        List.zipIdx_cons, List.map_cons, List.cons_append]
      exact (ih (k + 1)).cons _

/-- Pieces that stand in order are listed in document order. -/
theorem sortedItems_eq {lo hi : Offset} (h : Piece.Between lo hi (s.root.pieces s.buffer)) :
    s.sortedItems = numbered 0 (s.root.pieces s.buffer) := by
  have hsorted : (numbered 0 (s.root.pieces s.buffer)).Pairwise (·.1.start < ·.1.start) := by
    have hpieces : (s.root.pieces s.buffer).Pairwise (·.start < ·.start) :=
      h.pairwise.imp_of_mem fun hp _ hpq => Int.lt_of_lt_of_le (h.mem hp).2.1 hpq
    rwa [← map_numbered 0 (s.root.pieces s.buffer), List.pairwise_map] at hpieces
  have hperm : s.sortedItems.Perm (numbered 0 (s.root.pieces s.buffer)) :=
    calc s.sortedItems.Perm s.items := List.mergeSort_perm _ _
      List.Perm _ (numbered 0 (s.root.pieces s.buffer)) := (numbered_perm 0 _).symm
  have hmerged : s.sortedItems.Pairwise (·.1.start ≤ ·.1.start) := by
    refine (List.pairwise_mergeSort ?_ ?_ _).imp of_decide_eq_true
    · intro x y z hxy hyz
      rw [decide_eq_true_eq] at *
      exact Int.le_trans hxy hyz
    · intro x y
      rw [Bool.or_eq_true, decide_eq_true_eq, decide_eq_true_eq]
      exact Int.le_total _ _
  refine hperm.eq_of_pairwise ?_ hmerged (hsorted.imp Int.le_of_lt)
  · intro x y hx hy hxy hyx
    have heq : x.1.start = y.1.start := Int.le_antisymm hxy hyx
    obtain ⟨i, hi, rfl⟩ := List.getElem_of_mem (hperm.mem_iff.1 hx)
    obtain ⟨j, hj, rfl⟩ := List.getElem_of_mem hy
    rw [List.pairwise_iff_getElem] at hsorted
    rcases Nat.lt_trichotomy i j with hij | rfl | hij
    · have := hsorted i j hi hj hij
      lia
    · rfl
    · have := hsorted j i hj hi hij
      lia

/-- The tokens and comments of a source whose pieces stand in order. -/
theorem merged_eq_numbered {lo hi : Offset} (h : Piece.Between lo hi (s.root.pieces s.buffer)) :
    s.merged = (numbered 0 (s.root.pieces s.buffer)).map s.tokenOf := by
  rw [merged_eq, s.sortedItems_eq h]

/-- The lines of a source whose pieces stand in order. -/
theorem lines_eq {lo hi : Offset} (h : Piece.Between lo hi (s.root.pieces s.buffer)) :
    s.lines = groupsFrom 0 [] ((numbered 0 (s.root.pieces s.buffer)).map s.tokenOf) := by
  rw [lines, s.merged_eq_numbered h]

end Source

namespace Embedding

variable {s s' : Source} {m : Embedding s s'}

/-- A token and where it is found, or two comments, with the lines they stand on. -/
def Aligned (m : Embedding s s') (t t' : Token) : Prop :=
  m.Stays t t' ∧ t'.line = m.row t.line ∧ t'.endLine = m.row t.endLine

theorem exists_of_forall₂ {α β : Type} {R : α → β → Prop} {as : List α} {bs : List β}
    (h : List.Forall₂ R as bs) {a : α} (ha : a ∈ as) : ∃ b ∈ bs, R a b := by
  induction h with
  | nil => simp at ha
  | cons hab _ ih =>
    rcases List.mem_cons.1 ha with rfl | ha
    · exact ⟨_, List.mem_cons_self, hab⟩
    · obtain ⟨b, hb, hab⟩ := ih ha
      exact ⟨b, List.mem_cons_of_mem _ hb, hab⟩

/-- The first token opens a line wherever the lines before it end. -/
theorem groupsFrom_of_le {reached : Nat} {t : Token} {ts : List Token}
    (h : reached ≤ t.endLine) :
    Source.groupsFrom reached [] (t :: ts) = Source.groupsFrom 0 [] (t :: ts) := by
  rw [Source.groupsFrom, Source.groupsFrom]
  simp [Nat.max_eq_right h]

/-- Tokens on the lines of the tokens before them go on with their line. -/
theorem groupsFrom_of_line_le {reached : Nat} {current ts : List Token} (hcurrent : current ≠ [])
    (hlines : ∀ t ∈ ts, t.line ≤ reached) :
    Source.groupsFrom reached current ts = [current.reverse ++ ts] := by
  induction ts generalizing reached current with
  | nil =>
    cases current with
    | nil => exact absurd rfl hcurrent
    | cons c current => simp [Source.groupsFrom]
  | cons t rest ih =>
    have ht := hlines t List.mem_cons_self
    have hrest : ∀ u ∈ rest, u.line ≤ max reached t.endLine := fun u hu =>
      Nat.le_trans (hlines u (List.mem_cons_of_mem t hu)) (Nat.le_max_left _ _)
    rw [Source.groupsFrom, if_neg (by simp [Nat.not_lt.2 ht]), ih (List.cons_ne_nil _ _) hrest]
    simp

/-- Tokens on the lines of the first one make one line. -/
theorem groupsFrom_line {t : Token} {ts : List Token} (h : ∀ u ∈ ts, u.line ≤ t.endLine) :
    Source.groupsFrom 0 [] (t :: ts) = [t :: ts] := by
  rw [Source.groupsFrom, if_neg (by simp), Nat.zero_max,
    groupsFrom_of_line_le (List.cons_ne_nil t []) h]
  rfl

/-- Tokens behind all lines of the tokens before them are cut into lines by
themselves. -/
theorem groupsFrom_append {reached : Nat} {current ts us : List Token}
    (hlines : ∀ u ∈ us, u.line ≤ u.endLine) (hreached : ∀ u ∈ us, reached < u.line)
    (hts : ∀ t ∈ ts, ∀ u ∈ us, t.endLine < u.line) :
    Source.groupsFrom reached current (ts ++ us) =
      Source.groupsFrom reached current ts ++ Source.groupsFrom 0 [] us := by
  induction ts generalizing reached current with
  | nil =>
    cases us with
    | nil => simp [Source.groupsFrom]
    | cons u us =>
      have hlt := hreached u List.mem_cons_self
      have hle : reached ≤ u.endLine :=
        Nat.le_trans (Nat.le_of_lt hlt) (hlines u List.mem_cons_self)
      cases current with
      | nil => rw [List.nil_append, groupsFrom_of_le hle]; rfl
      | cons c current => simp [Source.groupsFrom, hlt, Nat.max_eq_right hle]
  | cons t rest ih =>
    have hmax : ∀ u ∈ us, max reached t.endLine < u.line := by
      intro u hu
      have := hreached u hu
      have := hts t List.mem_cons_self u hu
      omega
    have hrest := fun v hv => hts v (List.mem_cons_of_mem t hv)
    rw [List.cons_append, Source.groupsFrom, Source.groupsFrom, ih hmax hrest, ih hmax hrest]
    split <;> rfl

/-- Tokens that stand on corresponding lines are cut into corresponding lines. -/
theorem groupsFrom_aligned {ts ts' : List Token} (h : List.Forall₂ m.Aligned ts ts')
    {current current' : List Token} (hcurrent : List.Forall₂ m.Aligned current current')
    (reached : Nat) :
    List.Forall₂ (List.Forall₂ m.Aligned) (Source.groupsFrom reached current ts)
      (Source.groupsFrom (m.row reached) current' ts') := by
  induction h generalizing current current' reached with
  | nil =>
    cases hcurrent with
    | nil => exact .nil
    | cons ht hcurrent => exact .cons (List.rel_reverse (.cons ht hcurrent)) .nil
  | @cons t t' ts ts' ht _ ih =>
    have hline := ht.2.1
    have hend := ht.2.2
    have hempty : current'.isEmpty = current.isEmpty := by
      cases hcurrent <;> rfl
    have hbehind : decide (m.row reached < t'.line) = decide (reached < t.line) := by
      rw [hline]
      exact decide_eq_decide.2 row_lt_iff
    have hreached : max (m.row reached) t'.endLine = m.row (max reached t.endLine) := by
      rw [hend, row_max]
    rw [Source.groupsFrom, Source.groupsFrom, hempty, hbehind, hreached]
    split
    · exact .cons (List.rel_reverse hcurrent) (ih (.cons ht .nil) _)
    · exact ih (.cons ht hcurrent) _

theorem Aligned.linesStay {lines lines' : List (List Token)}
    (h : List.Forall₂ (List.Forall₂ m.Aligned) lines lines') : m.LinesStay lines lines' :=
  h.imp fun _ _ hline => hline.imp fun _ _ ht => ht.1

end Embedding

namespace Shift.Finds

variable {s s' : Source} {f : Shift s.buffer s'.buffer} {skip : Nat} {m : Embedding s s'}

/-- What a piece becomes is aligned with what the moved piece becomes. -/
theorem aligned (h : f.Finds skip) (hskip : m.skip = skip) (hrow : m.row = f.row)
    (hcomments : ∀ p ∈ s.commentPieces, f.Solid p.start p.stop) {p : Piece} {i : Option Nat}
    (hp : (p, i) ∈ s.items) :
    m.Aligned (s.tokenOf (p, i)) (s'.tokenOf (f.piece p, i.map (skip + ·))) := by
  rcases s.mem_items hp with ⟨k, rfl, hk⟩ | ⟨rfl, hcomment⟩
  · have hsolid := h.solid (List.mem_of_getElem? hk)
    obtain ⟨hkind, -, hline, hend⟩ :=
      token_piece hsolid (some k) (some (skip + k))
    have ht : s.At k (s.buffer.token p (some k)) := by
      rw [Source.At, Source.getElem?_tokens, hk, Option.map_some]
    have ht' : s'.At (m.skip + k) (s'.buffer.token (f.piece p) (some (skip + k))) := by
      rw [hskip, Source.At, Source.getElem?_tokens, h.pieces hk, Option.map_some]
    refine ⟨⟨?_, fun _ => ⟨k, ht, ht'⟩⟩, hrow ▸ hline, hrow ▸ hend⟩
    exact congrArg (· == TokenKind.comment) hkind
  · obtain ⟨hkind, -, hline, hend⟩ :=
      token_piece (hcomments p hcomment) none none
    have hp : p.isComment = true := (List.mem_filter.1 hcomment).2
    refine ⟨⟨?_, fun hcode => ?_⟩, hrow ▸ hline, hrow ▸ hend⟩
    · exact congrArg (· == TokenKind.comment) hkind
    · rw [show (s.tokenOf (p, none)).isComment = p.isComment from rfl, hp] at hcode
      cases hcode

end Shift.Finds

end ScriptIndent
