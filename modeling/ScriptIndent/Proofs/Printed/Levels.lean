import ScriptIndent.Proofs.Offset.Hanging
import ScriptIndent.Proofs.Printed.Lines
import ScriptIndent.Proofs.Rule.Owners

/-!
# ScriptIndent.Proofs.Printed.Levels

The levels of a printed program are its depths.
-/

namespace ScriptIndent

open Bytes

namespace Sketch

/-! ## where sketches lie -/

/-- The tree of a sketch at an offset of the text stands at a place of the stream, and is
visited. -/
structure Lies (s : Source) (k : Sketch) (o i : Nat) : Prop where
  stands : s.Stands (k.place o) i (i + k.marks.length)
  visited : ∃ ancestors, (k.place o).visited ancestors ⊆ s.root.visited []

/-- The constructs among sketches that are printed one after the other lie so. -/
def AllLie (s : Source) : List Sketch → Nat → Nat → Prop
  | [], _, _ => True
  | k :: rest, o, i =>
    (k.isNamed = true → k.Lies s o i) ∧
      AllLie s rest (o + (printed k.marks).length) (i + k.marks.length)

variable {s : Source} {o i : Nat}

theorem AllLie.right {ks ls : List Sketch} (h : AllLie s (ks ++ ls) o i) :
    AllLie s ls (o + (printed (marksOfAll ks)).length) (i + (marksOfAll ks).length) := by
  induction ks generalizing o i with
  | nil => simpa using h
  | cons k ks ih => simpa [Nat.add_assoc] using ih h.2

theorem AllLie.left {ks ls : List Sketch} (h : AllLie s (ks ++ ls) o i) : AllLie s ks o i := by
  induction ks generalizing o i with
  | nil => trivial
  | cons k ks ih => exact ⟨h.1, ih h.2⟩

/-- Where one of some sketches lies. -/
theorem AllLie.mem {ks : List Sketch} (h : AllLie s ks o i) {c : Node} (hc : c ∈ placeAll o ks)
    (hnamed : ∀ k ∈ ks, k.isNamed = true) :
    ∃ k ∈ ks, ∃ p a, c = k.place p ∧ k.Lies s p a ∧ i ≤ a ∧
      a + k.marks.length ≤ i + (marksOfAll ks).length := by
  induction ks generalizing o i with
  | nil => simp at hc
  | cons k ks ih =>
    rw [placeAll_cons] at hc
    rw [marksOfAll_cons, List.length_append]
    rcases List.mem_cons.1 hc with rfl | hc
    · exact ⟨k, List.mem_cons_self, o, i, rfl, h.1 (hnamed k List.mem_cons_self), Nat.le_refl i,
        by omega⟩
    · obtain ⟨l, hl, p, a, hplace, hlies, hlo, hhi⟩ :=
        ih h.2 hc fun l hl => hnamed l (List.mem_cons_of_mem k hl)
      exact ⟨l, List.mem_cons_of_mem k hl, p, a, hplace, hlies, by omega, by omega⟩

/-- Sketches lie where the run of their trees leads. -/
theorem allLie_of_run {ks : List Sketch} {j : Nat} (hrun : s.SpanRun (placeAll o ks) i j)
    (hstands : ∀ c ∈ placeAll o ks, ∀ a b, s.Spans c a b → s.Stands c a b)
    (hvisited : ∀ c ∈ placeAll o ks, c.isNamed = true →
      ∃ ancestors, c.visited ancestors ⊆ s.root.visited []) : AllLie s ks o i := by
  induction ks generalizing o i with
  | nil => trivial
  | cons k ks ih =>
    rw [placeAll_cons] at hrun hstands hvisited
    obtain ⟨a, hspans, hrest⟩ := hrun
    obtain rfl : a = i + k.marks.length := by rw [hspans.stop_eq, codeCount_place]
    refine ⟨fun hnamed => ⟨hstands _ List.mem_cons_self _ _ hspans,
      hvisited _ List.mem_cons_self ((isNamed_place o k).trans hnamed)⟩, ih hrest ?_ ?_⟩
    · exact fun c hc => hstands c (List.mem_cons_of_mem _ hc)
    · exact fun c hc => hvisited c (List.mem_cons_of_mem _ hc)

/-- The parts of a sketch lie one behind the other. -/
theorem Lies.parts {fields : List String} {frame : Frame} {first : Sketch} {rest : List Sketch}
    (h : (node fields frame first rest).Lies s o i) : AllLie s (first :: rest) o i := by
  obtain ⟨hstands, ancestors, hvisited⟩ := h
  obtain ⟨construct, hrule⟩ := Option.isSome_iff_exists.1 frame.isFrame.1
  have hchildren := children_node o fields frame first rest
  have hrun := hstands.spans.run (isCompound_node o fields frame first rest)
    (by simp [hchildren])
  rw [hchildren] at hrun
  refine allLie_of_run hrun (fun c hc a b hspans => ?_) fun c hc hnamed => ?_
  · exact hstands.of_spans (hchildren ▸ hc) hspans
  · refine ⟨_, List.Subset.trans (@Node.visited_subset_of_mem _ construct ?_ ancestors _ ?_) hvisited⟩
    · rw [kind_place]
      exact hrule
    · exact List.mem_filter.2 ⟨hchildren ▸ hc, hnamed⟩

/-- A construct that lies somewhere is visited. -/
theorem Lies.mem_visited {k : Sketch} (h : k.Lies s o i) {construct : Construct}
    (hrule : Construct.ofKind? k.kind = some construct) :
    ∃ ancestors, ⟨k.place o, ancestors⟩ ∈ s.root.visited [] := by
  obtain ⟨-, ancestors, hvisited⟩ := h
  exact ⟨ancestors, hvisited (Node.mem_visited_of_ofKind? (by rwa [kind_place]) ancestors)⟩

theorem length_marks_pos (k : Sketch) : 0 < k.marks.length := by
  obtain ⟨m, ms, hmarks, -⟩ := k.exists_marks_eq
  simp [hmarks]

end Sketch

open Sketch

/-! ## names -/

/-- The constructs among sketches of constructs. -/
theorem filter_placeAll {ks : List Sketch} (hnamed : ∀ k ∈ ks, k.isNamed = true) (o : Nat) :
    ((placeAll o ks).filter (·.isNamed)).filter (!·.isComment) = placeAll o ks := by
  induction ks generalizing o with
  | nil => simp
  | cons k ks ih =>
    rw [placeAll_cons, List.filter_cons_of_pos (by simp [hnamed k List.mem_cons_self]),
      List.filter_cons_of_pos (by simp [isComment_place]),
      ih fun l hl => hnamed l (List.mem_cons_of_mem k hl)]

theorem Statement.isNamed_sketch (fields : List String) (gap : List UInt8) (st : Statement) :
    (st.sketch fields gap).isNamed = true := by
  cases st <;> rw [Statement.sketch] <;> rfl

/-- No statement is a block. -/
theorem Statement.kind_sketch_ne (fields : List String) (gap : List UInt8) (st : Statement) :
    (st.sketch fields gap).kind ≠ "statement_block" := by
  cases st <;> rw [Statement.sketch] <;> simp [Sketch.kind]

theorem Body.exists_of_mem {fields : List String} {k : Sketch} :
    (body : Body) → k ∈ body.sketches fields →
      ∃ (gap : List UInt8) (st : Statement), k = st.sketch fields gap
  | .nil, h => by simp [Body.sketches] at h
  | .cons margin first rest, h => by
    rw [Body.sketches] at h
    rcases List.mem_cons.1 h with rfl | h
    · exact ⟨margin.below, first, rfl⟩
    · exact rest.exists_of_mem h

theorem Body.isNamed_sketches (fields : List String) (body : Body) :
    ∀ k ∈ body.sketches fields, k.isNamed = true := by
  intro k hk
  obtain ⟨gap, st, rfl⟩ := body.exists_of_mem hk
  exact st.isNamed_sketch fields gap

theorem Clauses.isNamed_sketches (clauses : Clauses) : ∀ k ∈ clauses.sketches, k.isNamed = true := by
  cases clauses with
  | nil => simp [Clauses.sketches]
  | cons margin x body rest =>
    rw [Clauses.sketches]
    exact List.forall_mem_cons.2 ⟨rfl, rest.isNamed_sketches⟩

/-- The constructs in braces are those between them. -/
theorem codeChildren_braces {fields : List String} {frame : Frame} {inner : List Sketch}
    {closing : Margin} (hnamed : ∀ k ∈ inner, k.isNamed = true) (o : Nat) :
    ((braces fields frame inner closing).place o).codeChildren =
      placeAll (o + openingBrace.bytes.length) inner := by
  rw [Node.codeChildren, Node.namedChildren, braces, children_enclosed,
    List.filter_cons_of_neg (by simp [openingBrace]), List.filter_append,
    List.filter_cons_of_neg (by simp [Margin.brace]), List.filter_nil, List.append_nil,
    filter_placeAll hnamed]

/-! ## rows that hang -/

namespace Source

variable {s : Source} {caseLevels : Int}

/-- So many tokens from a place on are above, at a level. -/
def Above (s : Source) (above : List (Token × Int)) (i n : Nat) (level : Int) : Prop :=
  ∀ q t, i ≤ q → q < i + n → s.At q t → (t, level) ∈ above

/-- Nodes that begin at calm places begin with tokens that hang. -/
def AllHang (s : Source) (caseLevels : Int) (items : List Node) (above : List (Token × Int))
    (level : Int) : Prop :=
  ∀ c ∈ items, ∀ a b t, s.Stands c a b → s.Calm a → s.At a t →
    (s.analyze caseLevels).registry.Hangs above t level

theorem Places.allHang {items : List Node} {left : Token} {levels level : Int}
    {above : List (Token × Int)} (h : s.Places caseLevels items left levels)
    (hleft : (left, level) ∈ above) : s.AllHang caseLevels items above (level + levels) :=
  fun c hc a b t hstands hcalm ht => .base (h c hc a b t hstands hcalm ht) hleft

/-- A line hangs with its first token, and the lines below it once its tokens are above. -/
theorem hanging_row {r : Registry} {above : List (Token × Int)} {i : Nat} {l : List Mark}
    {ls : List (List Mark)} {level : Int} {levels : List Int} {t : Token} (hne : l ≠ [])
    (ht : s.At i t) (hangs : r.Hangs above t level)
    (hrest : ∀ more, s.Above more i l.length level →
      r.Hanging more (s.rows (i + l.length) ls) levels) :
    r.Hanging above (s.rows i (l :: ls)) (level :: levels) := by
  obtain ⟨m, l, rfl⟩ := List.exists_cons_of_ne_nil hne
  obtain ⟨hsize, rfl⟩ := Array.getElem?_eq_some_iff.1 ht
  have hdrop : s.tokens.toList.drop i = s.tokens[i] :: s.tokens.toList.drop (i + 1) := by
    rw [List.drop_eq_getElem_cons (by simpa using hsize), Array.getElem_toList]
  have hrow : (s.tokens.toList.drop i).take (m :: l).length =
      s.tokens[i] :: (s.tokens.toList.drop (i + 1)).take l.length := by
    rw [hdrop, List.length_cons, List.take_succ_cons]
  rw [rows, hrow]
  refine .cons hangs (hrest _ fun q u hlo hhi hu => List.mem_append_right _ ?_)
  rw [← hrow]
  refine List.mem_map_of_mem (List.mem_iff_getElem?.2 ⟨q - i, ?_⟩)
  rw [List.getElem?_take_of_lt (by omega), List.getElem?_drop, Array.getElem?_toList,
    Nat.add_sub_cancel' hlo]
  exact hu

/-- The lines of a sketch hang wherever it lies, if its first token does. -/
def Hung (s : Source) (caseLevels : Int) (k : Sketch) (ls : List (List Mark))
    (levels : Int → List Int) : Prop :=
  ∀ o i above level t, k.Lies s o i → s.CalmFrom i ls → s.At i t →
    (s.analyze caseLevels).registry.Hangs above t level →
      (s.analyze caseLevels).registry.Hanging above (s.rows i ls) (levels level)

/-- The lines of sketches hang wherever they lie, if their first tokens do. -/
def AllHung (s : Source) (caseLevels : Int) (ks : List Sketch) (ls : List (List Mark))
    (levels : Int → List Int) : Prop :=
  ∀ o i above level, AllLie s ks o i → s.CalmFrom i ls →
    s.AllHang caseLevels (placeAll o ks) above level →
      (s.analyze caseLevels).registry.Hanging above (s.rows i ls) (levels level)

/-- A sketch and those behind it hang if each of them does. -/
theorem Hung.cons {k : Sketch} {ks : List Sketch} {ls ms : List (List Mark)}
    {levels levels' : Int → List Int} (hnamed : k.isNamed = true) (hmarks : k.marks = ls.flatten)
    (h : s.Hung caseLevels k ls levels) (hrest : s.AllHung caseLevels ks ms levels') :
    s.AllHung caseLevels (k :: ks) (ls ++ ms) fun level => levels level ++ levels' level := by
  intro o i above level hlie hcalm hangs
  have hlies := hlie.1 hnamed
  obtain ⟨t, ht⟩ := hlies.stands.exists_at (k := i) (by have := k.length_marks_pos; omega)
  have hbelow := hlie.2
  rw [placeAll_cons] at hangs
  rw [hmarks] at hangs hbelow
  rw [rows_append]
  exact (h o i above level t hlies hcalm.left ht
    (hangs _ List.mem_cons_self _ _ t hlies.stands hcalm.calm ht)).append
      (hrest _ _ above level hbelow hcalm.right fun c hc => hangs c (List.mem_cons_of_mem _ hc))

/-! ## braces -/

/-- Between braces from a place on lie some sketches, which are placed some levels from the
opening brace, as is the closing brace. -/
structure Braced (s : Source) (caseLevels : Int) (inner : List Sketch) (i : Nat)
    (levels : Int) : Prop where
  exists_placed : ∃ o left right, AllLie s inner o (i + 1) ∧ s.At i left ∧
    s.Places caseLevels (placeAll o inner) left levels ∧
      s.At (i + 1 + (marksOfAll inner).length) right ∧
        (s.Calm (i + 1 + (marksOfAll inner).length) →
          (s.analyze caseLevels).registry.get? right = some ⟨right, some left, 0⟩)

/-- The lines in braces hang below the line of the opening brace, and the line of the closing
brace with that line. -/
theorem Braced.hanging {inner : List Sketch} {i : Nat} {levels level : Int}
    (h : s.Braced caseLevels inner i levels) {above : List (Token × Int)}
    (habove : ∀ t, s.At i t → (t, level) ∈ above) {ls more : List (List Mark)} {l : List Mark}
    (hmarks : marksOfAll inner = ls.flatten) {depths : Int → List Int}
    (hinner : s.AllHung caseLevels inner ls depths) (hcalm : s.CalmFrom (i + 1) (ls ++ l :: more))
    (hne : l ≠ []) {depths' : List Int}
    (hrest : ∀ above, s.Above above (i + 1 + ls.flatten.length) l.length level →
      (s.analyze caseLevels).registry.Hanging above
        (s.rows (i + 1 + ls.flatten.length + l.length) more) depths') :
    (s.analyze caseLevels).registry.Hanging above (s.rows (i + 1) (ls ++ l :: more))
      (depths (level + levels) ++ level :: depths') := by
  obtain ⟨o, left, right, hlie, hleft, hplaces, hright, hentry⟩ := h.exists_placed
  have hmem := habove left hleft
  rw [hmarks] at hright hentry
  rw [rows_append]
  refine (hinner o _ above _ hlie hcalm.left (hplaces.allHang hmem)).append ?_
  refine hanging_row hne hright ?_ hrest
  have := Registry.Hangs.base (hentry hcalm.right.calm) hmem
  rwa [Int.add_zero] at this

/-- A line that ends with an opening brace, the lines in the braces, and those from the line of
the closing brace on. -/
theorem Braced.hanging_opening {inner : List Sketch} {k : Nat} {levels level : Int}
    (h : s.Braced caseLevels inner k levels) {above : List (Token × Int)} {t : Token}
    {l l' : List Mark} {ls more : List (List Mark)} (hne : l ≠ []) (hlength : i + l.length = k + 1)
    (ht : s.At i t) (hangs : (s.analyze caseLevels).registry.Hangs above t level)
    (hmarks : marksOfAll inner = ls.flatten) {depths : Int → List Int}
    (hinner : s.AllHung caseLevels inner ls depths)
    (hcalm : s.CalmFrom i (l :: (ls ++ l' :: more))) (hne' : l' ≠ []) {depths' : List Int}
    (hrest : ∀ above, s.Above above (k + 1 + ls.flatten.length) l'.length level →
      (s.analyze caseLevels).registry.Hanging above
        (s.rows (k + 1 + ls.flatten.length + l'.length) more) depths') :
    (s.analyze caseLevels).registry.Hanging above (s.rows i (l :: (ls ++ l' :: more)))
      (level :: (depths (level + levels) ++ level :: depths')) := by
  have hpos := List.length_pos_iff.2 hne
  have hcalm := hcalm.2
  rw [hlength] at hcalm
  refine hanging_row hne ht hangs fun above habove => ?_
  rw [hlength]
  exact h.hanging (fun u hu => habove k u (by omega) (by omega) hu) hmarks hinner hcalm hne' hrest

/-- Two parts in braces, the second opened on the line on which the first is closed. -/
theorem Braced.hanging_both {inner inner' : List Sketch} {k k' : Nat} {levels levels' level : Int}
    (h : s.Braced caseLevels inner k levels) (h' : s.Braced caseLevels inner' k' levels')
    {above : List (Token × Int)} {t : Token} {l l' l'' : List Mark} {ls ls' : List (List Mark)}
    (hne : l ≠ []) (hlength : i + l.length = k + 1) (ht : s.At i t)
    (hangs : (s.analyze caseLevels).registry.Hangs above t level)
    (hmarks : marksOfAll inner = ls.flatten) {depths depths' : Int → List Int}
    (hinner : s.AllHung caseLevels inner ls depths) (hne' : l' ≠ [])
    (hlength' : k + 1 + ls.flatten.length + l'.length = k' + 1)
    (hmarks' : marksOfAll inner' = ls'.flatten) (hinner' : s.AllHung caseLevels inner' ls' depths')
    (hcalm : s.CalmFrom i (l :: (ls ++ l' :: (ls' ++ [l''])))) (hne'' : l'' ≠ []) :
    (s.analyze caseLevels).registry.Hanging above
      (s.rows i (l :: (ls ++ l' :: (ls' ++ [l'']))))
      (level :: (depths (level + levels) ++ level :: (depths' (level + levels') ++ [level]))) := by
  have hpos := List.length_pos_iff.2 hne'
  have hbelow := hcalm.2.right.2
  rw [hlength, hlength'] at hbelow
  refine h.hanging_opening hne hlength ht hangs hmarks hinner hcalm hne' fun above habove => ?_
  rw [hlength']
  exact h'.hanging (fun u hu => habove k' u (by omega) (by omega) hu) hmarks' hinner' hbelow hne''
    fun _ _ => .nil

section Placed

variable (g : s.root.Grammatical s.buffer) (hkinds : s.HasNoFields) {o i : Nat}

include g hkinds

variable (caseLevels) in
/-- A block places its statements one level from its opening brace. -/
theorem braced_block {fields : List String} {inner : List Sketch} {closing : Margin}
    (h : (block fields inner closing).Lies s o i) (hnamed : ∀ k ∈ inner, k.isNamed = true) :
    s.Braced caseLevels inner i 1 := by
  obtain ⟨ancestors, hplace⟩ := h.mem_visited
    (show Construct.ofKind? "statement_block" = some .block by decide)
  have hlast : i + (block fields inner closing).marks.length - 1 =
      i + 1 + (marksOfAll inner).length := by
    simp
    omega
  obtain ⟨left, hleft⟩ := h.stands.exists_at (k := i) (by simp)
  obtain ⟨right, hright⟩ :=
    h.stands.exists_at (k := i + (block fields inner closing).marks.length - 1) (by simp)
  have hlists := lists_block caseLevels g (by rw [kind_place]; rfl) hplace h.stands
    hleft hright
  have hplaces := hlists.places g hkinds
  have hentry := hlists.get?_right g hkinds rfl
  rw [block, codeChildren_braces hnamed] at hplaces
  rw [hlast] at hright hentry
  exact ⟨⟨_, left, right, h.parts.2.left, hleft, hplaces, hright, hentry⟩⟩

variable (caseLevels) in
/-- A switch statement places its clauses some levels from its opening brace. -/
theorem braced_switch {fields : List String} {frame frame' : Frame} {first head : Sketch}
    {inner : List Sketch} {closing : Margin}
    (h : (node fields frame first [head, braces ["body"] frame' inner closing]).Lies s o i)
    (hkind : frame.kind = "switch_statement") (hkind' : frame'.kind = "switch_body")
    (hfirst : "body" ∉ first.fields) (hhead : "body" ∉ head.fields)
    (hnamed : ∀ k ∈ inner, k.isNamed = true) :
    s.Braced caseLevels inner (i + first.marks.length + head.marks.length) caseLevels := by
  obtain ⟨ancestors, hplace⟩ := h.mem_visited
    (show Construct.ofKind? frame.kind = some .switch by rw [hkind]; decide)
  have hbody := h.parts.2.2.1 rfl
  have hclauses := hbody.stands
  have hstands := h.stands
  have hstop : i + (node fields frame first [head, braces ["body"] frame' inner closing]).marks.length =
      i + first.marks.length + head.marks.length +
        (braces ["body"] frame' inner closing).marks.length := by
    simp
    omega
  rw [hstop] at hstands
  have hlast : i + first.marks.length + head.marks.length +
      (braces ["body"] frame' inner closing).marks.length - 1 =
        i + first.marks.length + head.marks.length + 1 + (marksOfAll inner).length := by
    simp
    omega
  obtain ⟨left, hleft⟩ := hclauses.exists_at
    (k := i + first.marks.length + head.marks.length) (by simp)
  obtain ⟨right, hright⟩ := hclauses.exists_at (k := i + first.marks.length + head.marks.length +
    (braces ["body"] frame' inner closing).marks.length - 1) (by simp)
  have hsilent : ((braces ["body"] frame' inner closing).place (o + (printed first.marks).length +
      (printed head.marks).length)).IsSilent := by
    rw [Node.IsSilent, kind_place, show (braces ["body"] frame' inner closing).kind = _ from hkind']
    decide
  have hlists := lists_switch caseLevels g (by rw [kind_place]; exact hkind) hplace
    hstands (by simp [Node.field?, children_node, hfirst, hhead]) hsilent hclauses hleft hright
  have hplaces := hlists.places g hkinds
  have hentry := hlists.get?_right g hkinds rfl
  rw [codeChildren_braces hnamed] at hplaces
  rw [hlast] at hright hentry
  exact ⟨⟨_, left, right, hbody.parts.2.left, hleft, hplaces, hright, hentry⟩⟩

end Placed

end Source

/-! ## programs that hang -/

section Hung

variable {s : Source} {caseLevels : Int}

/-- The constructs behind a place are those that are placed there. -/
theorem filter_behind {n : Node} (before : List Node) {q : Nat} {ks : List Sketch} {stop : Offset}
    (hchildren : n.children = before ++ placeAll q ks) (hnamed : ∀ k ∈ ks, k.isNamed = true)
    (hbefore : ∀ c ∈ before, c.isNamed = true → c.start < stop)
    (hbehind : ∀ c ∈ placeAll q ks, stop ≤ c.start) :
    n.codeChildren.filter (stop ≤ ·.start) = placeAll q ks := by
  have hnone : ∀ c ∈ (before.filter (·.isNamed)).filter (!·.isComment),
      ¬decide (stop ≤ c.start) = true := by
    intro c hc
    obtain ⟨hc, hcode⟩ := List.mem_filter.1 (List.mem_filter.1 hc).1
    have := hbefore c hc hcode
    rw [decide_eq_true_eq]
    lia
  rw [Node.codeChildren, Node.namedChildren, hchildren, List.filter_append, List.filter_append,
    filter_placeAll hnamed, List.filter_append, List.filter_eq_nil_iff.2 hnone, List.nil_append]
  exact List.filter_eq_self.2 fun c hc => decide_eq_true (hbehind c hc)

variable (caseLevels) in
/-- The statements of a clause are placed one level from its keyword. -/
theorem placed_clause (g : s.root.Grammatical s.buffer) (hkinds : s.HasNoFields) {o i : Nat}
    {fields : List String} {frame : Frame} {gap gap' : List UInt8} {x : Name} {body : Body}
    (h : (node fields frame (.leaf [] (.word gap "case")) (.leaf ["value"] (.name gap' x) ::
      .leaf [] (.word [] ":") :: body.sketches ["body"])).Lies s o i)
    (hkind : frame.kind = "switch_case") (hcalm : s.Calm (i + 3 + body.lines.flatten.length)) :
    ∃ p keyword, AllLie s (body.sketches ["body"]) p (i + 3) ∧ s.At i keyword ∧
      s.Places caseLevels (placeAll p (body.sketches ["body"])) keyword 1 := by
  obtain ⟨ancestors, hplace⟩ := h.mem_visited
    (show Construct.ofKind? frame.kind = some .clause by rw [hkind]; decide)
  have hstands := h.stands
  have hparts := h.parts
  have hvalue := (hparts.2.1 rfl).stands
  have hbody := hparts.2.2.2
  have hnamed := body.isNamed_sketches ["body"]
  have hlength : i + (node fields frame (.leaf [] (.word gap "case")) (.leaf ["value"] (.name gap' x) ::
      .leaf [] (.word [] ":") :: body.sketches ["body"])).marks.length =
        i + 3 + body.lines.flatten.length := by
    simp [body.marks_sketches]
    omega
  rw [hlength] at hstands
  simp only [marks_leaf, List.length_singleton] at hvalue hbody
  obtain ⟨keyword, hkeyword⟩ := hstands.exists_at (k := i) (by omega)
  have hchildren := children_node o fields frame (.leaf [] (.word gap "case"))
    (.leaf ["value"] (.name gap' x) :: .leaf [] (.word [] ":") :: body.sketches ["body"])
  rw [placeAll_cons, placeAll_cons, placeAll_cons, marks_leaf, marks_leaf, marks_leaf] at hchildren
  generalize o + (printed [Mark.word gap "case"]).length = p at hvalue hbody hchildren
  generalize p + (printed [Mark.name gap' x]).length + (printed [Mark.word [] ":"]).length = q
    at hbody hchildren
  refine ⟨q, keyword, hbody, hkeyword, (Source.lists_clause (by rw [kind_place]; exact hkind)
    hplace hstands (by omega) hkeyword ?_ hvalue (by omega) (by omega) hcalm (fun t ht => ?_)
      (fun only hitems => ?_) fun c hc => ?_).places g hkinds⟩
  · simp [Node.field?, hchildren]
  · -- the value stands before the colon, the statements behind it
    have hbefore := (hvalue.covers (by omega)).above (Nat.le_refl _) ht
    have hproper := hstands.ordered.proper ht
    have hle := start_lt_stop p (leaf ["value"] (.name gap' x))
    refine filter_behind [_, _, _] hchildren hnamed (fun c hc hcode => ?_) fun c hc => ?_
    · simp only [List.mem_cons, List.not_mem_nil, or_false] at hc
      rcases hc with rfl | rfl | rfl
      · simp at hcode
      · lia
      · simp at hcode
    · obtain ⟨k, -, p, a, rfl, hlies, hia, -⟩ := hbody.mem hc hnamed
      have := k.length_marks_pos
      exact (hlies.stands.covers (by omega)).below (by omega) ht
  · obtain ⟨k, hk, p, a, rfl, -⟩ := hbody.mem (hitems ▸ List.mem_singleton_self only) hnamed
    obtain ⟨gap, st, rfl⟩ := body.exists_of_mem hk
    rw [kind_place]
    exact st.kind_sketch_ne _ _
  · obtain ⟨k, -, p, a, rfl, hlies, hia, hstop⟩ := hbody.mem hc hnamed
    have := k.length_marks_pos
    rw [body.marks_sketches] at hstop
    exact ⟨a, _, hlies.stands, by omega, by omega, by omega⟩

/-- The lines of a clause hang below the line of its keyword. -/
theorem hung_clause (g : s.root.Grammatical s.buffer) (hkinds : s.HasNoFields)
    {fields : List String} {frame : Frame} {gap gap' : List UInt8} {x : Name} {body : Body}
    {depths : Int → List Int} (hkind : frame.kind = "switch_case")
    (hbody : s.AllHung caseLevels (body.sketches ["body"]) body.lines depths) :
    s.Hung caseLevels
      (node fields frame (.leaf [] (.word gap "case")) (.leaf ["value"] (.name gap' x) ::
        .leaf [] (.word [] ":") :: body.sketches ["body"]))
      ([.word gap "case", .name gap' x, .word [] ":"] :: body.lines)
      fun level => level :: depths (level + 1) := by
  intro o i above level t h hcalm ht hangs
  have hend : s.Calm (i + 3 + body.lines.flatten.length) := hcalm.2.ends
  obtain ⟨p, keyword, hlie, hkeyword, hplaces⟩ :=
    placed_clause caseLevels g hkinds h hkind hend
  obtain rfl := Option.mem_unique ht hkeyword
  refine Source.hanging_row (by simp) ht hangs fun more hmore => ?_
  exact hbody p _ more _ hlie hcalm.2 (hplaces.allHang (hmore i t (Nat.le_refl i) (by simp) ht))

mutual

/-- The lines of a statement hang below the line of its first token. -/
theorem Statement.hung (g : s.root.Grammatical s.buffer) (hkinds : s.HasNoFields)
    (fields : List String) (gap : List UInt8) :
    (st : Statement) → s.Hung caseLevels (st.sketch fields gap) (st.lines gap)
      (st.depths caseLevels)
  | .use x => by
    intro o i above level t h hcalm ht hangs
    simp only [Statement.lines, Statement.depths]
    exact Source.hanging_row (by simp) ht hangs fun _ _ => .nil
  | .conditional x body closing => by
    intro o i above level t h hcalm ht hangs
    rw [Statement.sketch] at h
    simp only [Statement.lines, Statement.depths, List.cons_append] at hcalm ⊢
    have hbody := Source.braced_block caseLevels g hkinds (h.parts.2.2.1 rfl)
      (body.isNamed_sketches [])
    exact hbody.hanging_opening (by simp) (by simp [headMarks]) ht hangs (body.marks_sketches [])
      (body.allHung g hkinds []) hcalm (by simp) fun _ _ => .nil
  | .alternative x body between other closing => by
    intro o i above level t h hcalm ht hangs
    rw [Statement.sketch] at h
    simp only [Statement.lines, Statement.depths, List.cons_append, List.append_assoc] at hcalm ⊢
    have hbody := Source.braced_block caseLevels g hkinds (h.parts.2.2.1 rfl)
      (body.isNamed_sketches [])
    have hother := Source.braced_block caseLevels g hkinds
      ((h.parts.2.2.2.1 rfl).parts.2.1 rfl) (other.isNamed_sketches [])
    refine hbody.hanging_both hother (by simp) (by simp [headMarks]) ht hangs
      (body.marks_sketches []) (body.allHung g hkinds []) (by simp) ?_ (other.marks_sketches [])
      (other.allHung g hkinds []) hcalm (by simp)
    simp [body.marks_sketches]
    omega
  | .loop x body closing => by
    intro o i above level t h hcalm ht hangs
    rw [Statement.sketch] at h
    simp only [Statement.lines, Statement.depths, List.cons_append] at hcalm ⊢
    have hbody := Source.braced_block caseLevels g hkinds (h.parts.2.2.1 rfl)
      (body.isNamed_sketches [])
    exact hbody.hanging_opening (by simp) (by simp [headMarks]) ht hangs (body.marks_sketches [])
      (body.allHung g hkinds []) hcalm (by simp) fun _ _ => .nil
  | .function f body closing => by
    intro o i above level t h hcalm ht hangs
    rw [Statement.sketch] at h
    simp only [Statement.lines, Statement.depths, List.cons_append] at hcalm ⊢
    have hbody := Source.braced_block caseLevels g hkinds (h.parts.2.2.2.1 rfl)
      (body.isNamed_sketches [])
    exact hbody.hanging_opening (by simp) (by simp) ht hangs (body.marks_sketches [])
      (body.allHung g hkinds []) hcalm (by simp) fun _ _ => .nil
  | .guarded body between e handler closing => by
    intro o i above level t h hcalm ht hangs
    rw [Statement.sketch] at h
    simp only [Statement.lines, Statement.depths, List.cons_append, List.append_assoc] at hcalm ⊢
    have hbody := Source.braced_block caseLevels g hkinds (h.parts.2.1 rfl)
      (body.isNamed_sketches [])
    have hhandler := Source.braced_block caseLevels g hkinds
      ((h.parts.2.2.1 rfl).parts.2.2.2.2.1 rfl) (handler.isNamed_sketches [])
    refine hbody.hanging_both hhandler (by simp) (by simp) ht hangs
      (body.marks_sketches []) (body.allHung g hkinds []) (by simp) ?_ (handler.marks_sketches [])
      (handler.allHung g hkinds []) hcalm (by simp)
    simp [body.marks_sketches, headMarks]
    omega
  | .switch x clauses closing => by
    intro o i above level t h hcalm ht hangs
    rw [Statement.sketch] at h
    simp only [Statement.lines, Statement.depths, List.cons_append] at hcalm ⊢
    have hbody := Source.braced_switch caseLevels g hkinds h rfl rfl
      (by simp) (by simp) clauses.isNamed_sketches
    exact hbody.hanging_opening (by simp) (by simp [headMarks]) ht hangs clauses.marks_sketches
      (clauses.allHung g hkinds) hcalm (by simp) fun _ _ => .nil

/-- The lines of statements hang below what their first tokens are placed from. -/
theorem Body.allHung (g : s.root.Grammatical s.buffer) (hkinds : s.HasNoFields)
    (fields : List String) :
    (body : Body) → s.AllHung caseLevels (body.sketches fields) body.lines (body.depths caseLevels)
  | .nil => by
    intro o i above level _ _ _
    simp only [Body.lines, Body.depths]
    exact .nil
  | .cons margin first rest => by
    rw [Body.sketches, Body.lines]
    simp only [Body.depths]
    exact (first.hung g hkinds fields margin.below).cons (first.isNamed_sketch fields margin.below)
      (first.marks_sketch fields margin.below) (rest.allHung g hkinds fields)

/-- The lines of clauses hang below what their first tokens are placed from. -/
theorem Clauses.allHung (g : s.root.Grammatical s.buffer) (hkinds : s.HasNoFields) :
    (clauses : Clauses) →
      s.AllHung caseLevels clauses.sketches clauses.lines (clauses.depths caseLevels)
  | .nil => by
    intro o i above level _ _ _
    simp only [Clauses.lines, Clauses.depths]
    exact .nil
  | .cons margin x body rest => by
    rw [Clauses.sketches, Clauses.lines]
    simp only [Clauses.depths]
    exact (hung_clause g hkinds rfl (body.allHung g hkinds ["body"])).cons rfl
      (by simp [body.marks_sketches]) (rest.allHung g hkinds)

end

end Hung

end ScriptIndent
