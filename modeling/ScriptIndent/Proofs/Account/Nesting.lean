import ScriptIndent.Proofs.Account.Tree
import ScriptIndent.Proofs.Embedding.InFunction
import ScriptIndent.Proofs.Offset.LineLevel

/-!
# ScriptIndent.Proofs.Account.Nesting

The levels of statements in the body of a function.

```
x =        ┆  function f() {
1          ┆  x =               the lines of statements are one level deeper,
;[2]       ┆    1               but a line that begins with a token that the
           ┆  ;[2]              rules leave out stays where it is
           ┆  }
```

The chain of a line ends at the beginning of a line, and there it has an absolute entry or none
(`Registry.EndsAt.exists_opens`).  In a produced program a token without an entry is one that the
rules leave out (`Source.leftOut_of_get?_eq_none`).
-/

namespace ScriptIndent

namespace Registry

variable {r : Registry} {s : Source}

/-- A chain ends at the beginning of a line, if it begins there or on a line above. -/
theorem EndsAt.exists_opens (hback : r.PointsBack s) (ho : s.Ordered) {above : List (List Token)}
    {t last : Token} (h : r.EndsAt above t last) (hlines : ∃ below, s.lines = above ++ below)
    (ht : standsOn above t = true ∨ Opens s.lines above t) :
    ∃ above', Opens s.lines above' last := by
  induction h with
  | @earlier lines before after line code first t last hsplit hcode hmem _ ih =>
    obtain ⟨below, hlines⟩ := hlines
    have hlines : s.lines = before ++ line :: (after ++ below) := by simp [hlines, hsplit]
    exact ih ⟨_, hlines⟩ (.inr ⟨line, _, code, hlines, hcode⟩)
  | absent hnew => exact ⟨_, ht.resolve_left (by simp [hnew])⟩
  | start hnew => exact ⟨_, ht.resolve_left (by simp [hnew])⟩
  | @base lines t base last e hnew hentry hbase _ ih =>
    -- the base stands before the token, which begins its line
    obtain ⟨line, below, code, hsplit, hcode⟩ := ht.resolve_left (by simp [hnew])
    obtain ⟨hmem, rfl⟩ := mem_of_get? hentry
    obtain ⟨k, l, b, hkl, hb, hk, hl⟩ := (hback e hmem).resolve_left (by simp [hbase])
    obtain rfl := Option.mem_unique hbase hb
    obtain ⟨a, hrow⟩ := Source.exists_row ho hsplit
    obtain rfl := (hrow l e.token hl).2.2 (by rw [hcode, List.head?_cons])
    exact ih hlines (.inl ((hrow k base hk).1 hkl))

end Registry

namespace Source

variable {s : Source}

/-- A token without an entry is one that the rules leave out. -/
theorem leftOut_of_get?_eq_none (g : s.root.Grammatical s.buffer)
    (hproduced : s.root.Produced s.buffer) (hkind : s.root.kind = "program")
    (hblank : s.root.children = [] → s.root.start = s.root.stop) {caseLevels : Int} {t : Token}
    (ht : t ∈ s.tokens) (hget : (s.analyze caseLevels).registry.get? t = none) : s.LeftOut t := by
  obtain ⟨k, hk, hat⟩ := Array.mem_iff_getElem.1 ht
  refine (accounted g hproduced hkind hblank caseLevels hk t ?_).resolve_left fun hcontains => ?_
  · rw [At, Array.getElem?_eq_getElem hk, hat]
  · simp [Registry.contains, hget] at hcontains

/-- The line of a judged line's last base. -/
theorem opens_of_lineEndsAt {r : Registry} (hback : r.PointsBack s) (ho : s.Ordered) {n : Nat}
    {last : Token} (h : Embedding.LineEndsAt r s.lines n last) :
    ∃ above, Registry.Opens s.lines above last := by
  obtain ⟨above, t, ⟨rest, below, hlines, hcode, -⟩, -, hlast⟩ := h
  exact hlast.exists_opens hback ho ⟨_, hlines⟩ (.inr ⟨_, below, _, hlines,
    List.filter_cons_of_pos (by simp [hcode])⟩)

/-- Statements of a program have their places in a function.  The rules place all of their tokens but
for those that they leave out.  Each line of the program stands one line further down, and one level
deeper, but for those that hang from a line that begins with a token that is left out: these keep
their levels. -/
theorem lineLevels_inFunction (h : s.Script) (hproduced : s.root.Produced s.buffer)
    (caseLevels width : Int) :
    (s.analyze caseLevels).fault = none ∧ (s.inFunction.analyze caseLevels).fault = none ∧
      (∀ t ∈ s.tokens, (s.analyze caseLevels).registry.get? t = none → s.LeftOut t) ∧
      ∃ levels levels',
        (({ width } : Resolver).lineLevels s (s.analyze caseLevels).registry).1 = .ok levels ∧
        (({ width } : Resolver).lineLevels s.inFunction
          (s.inFunction.analyze caseLevels).registry).1 = .ok levels' ∧
        ∀ line level, (line, level) ∈ levels → (line + 1, level + 1) ∈ levels' ∨
          ∃ t above, Embedding.LineEndsAt (s.analyze caseLevels).registry s.lines line t ∧
            Registry.Opens s.lines above t ∧ (s.analyze caseLevels).registry.get? t = none ∧
            s.LeftOut t ∧ (line + 1, level) ∈ levels' := by
  obtain ⟨hfault, hback⟩ := analyze_pointsBack h.grammatical caseLevels
  obtain ⟨hfault', hback'⟩ := analyze_pointsBack h.grammatical_inFunction caseLevels
  obtain ⟨levels, hlevels⟩ := Registry.exists_settle hback []
    fun line hline t ht hcode => mem_tokens_of_mem_lines hline ht hcode
  obtain ⟨levels', hlevels'⟩ := Registry.exists_settle hback' []
    fun line hline t ht hcode => mem_tokens_of_mem_lines hline ht hcode
  obtain ⟨left, hleft, hregisters⟩ := h.registers caseLevels
  have hleftOut (t : Token) (ht : t ∈ s.tokens)
      (hget : (s.analyze caseLevels).registry.get? t = none) : s.LeftOut t :=
    leftOut_of_get?_eq_none h.grammatical hproduced h.kind_eq h.blank ht hget
  refine ⟨hfault, hfault', hleftOut, levels, levels', hlevels, hlevels', fun line level hmem => ?_⟩
  obtain ⟨t, hends, hmem'⟩ := h.surrounds.mem_levels hregisters
    (by rintro _ rfl more; exact h.addsUp_brace caseLevels hleft more) hlevels hlevels' hmem
  rw [Embedding.lifted, show Bytes.feeds Bytes.functionHead = 1 by decide] at hmem'
  cases hget : (s.analyze caseLevels).registry.get? t with
  | some e => exact .inl (by simpa [hget] using hmem')
  | none =>
    obtain ⟨above, hopens⟩ := opens_of_lineEndsAt hback (stands_root h.grammatical).ordered hends
    obtain ⟨line', below, code, hlines, hcode⟩ := id hopens
    have ht := mem_tokens_of_mem_codeOf (t := t) (show line' ∈ s.lines by simp [hlines]) (by simp [hcode])
    exact .inr ⟨t, above, hends, hopens, hget, hleftOut t ht hget, by simpa [hget] using hmem'⟩

/-! ## a semicolon at the beginning of a line -/

section Strayed

open Node

/-- The expression `x = 1` on two lines. -/
def assigned : Node :=
  ⟨"assignment_expression", true, false, false, [], 0, 5,
    [⟨"identifier", true, false, false, ["left"], 0, 1, []⟩, ⟨"=", false, false, false, [], 2, 3, []⟩,
      ⟨"number", true, false, false, ["right"], 4, 5, []⟩]⟩

/-- The statement `x = 1;` on three lines. -/
def parted : Node :=
  ⟨"expression_statement", true, false, false, [], 0, 7,
    [assigned, ⟨";", false, false, false, [], 6, 7, []⟩]⟩

/-- The list `[2]`. -/
def single : Node :=
  ⟨"array", true, false, false, [], 7, 10,
    [⟨"[", false, false, false, [], 7, 8, []⟩, ⟨"number", true, false, false, [], 8, 9, []⟩,
      ⟨"]", false, false, false, [], 9, 10, []⟩]⟩

/-- The statement `[2]`. -/
def listed : Node := ⟨"expression_statement", true, false, false, [], 7, 10, [single]⟩

/-- The program `x =`, with `1` and `;[2]` below. -/
def strayed : Source :=
  .ofTree #[0x78, 0x20, 0x3D, 0x0A, 0x31, 0x0A, 0x3B, 0x5B, 0x32, 0x5D]
    ⟨"program", true, false, false, [], 0, 10, [parted, listed]⟩ none []

theorem assigned_code : assigned.codeChildren =
    [⟨"identifier", true, false, false, ["left"], 0, 1, []⟩,
      ⟨"number", true, false, false, ["right"], 4, 5, []⟩] := rfl

theorem strayed_spells :
    Spells strayed.buffer ⟨"=", false, false, false, [], 2, 3, []⟩ "=" ∧
      Spells strayed.buffer ⟨";", false, false, false, [], 6, 7, []⟩ ";" ∧
      Spells strayed.buffer ⟨"[", false, false, false, [], 7, 8, []⟩ "[" ∧
      Spells strayed.buffer ⟨"]", false, false, false, [], 9, 10, []⟩ "]" := by
  decide +kernel

private theorem parted_sound : parted.Sound strayed.buffer := by
  obtain ⟨hequals, hsemicolon, -, -⟩ := strayed_spells
  have hassigned : assigned.Sound strayed.buffer := by
    have hshape : assigned.Shape strayed.buffer .chain :=
      ⟨_, _, _, ⟨rfl, by simp [assigned_code]⟩, ⟨"=", hequals, by decide, by decide⟩,
        ⟨rfl, by simp [assigned_code]⟩, List.Sublist.refl _, rfl⟩
    refine IsCompound.sound ⟨by decide, by decide⟩ (by decide) (by decide) List.mem_cons_self
      (hasToken_of_leaf (by decide) (by decide) rfl) (by decide) (by decide) hshape ?_
    simp only [assigned, List.forall_mem_cons]
    exact ⟨sound_of_leaf (by decide) rfl (by decide) (by decide), hequals.sound (by decide),
      sound_of_leaf (by decide) rfl (by decide) (by decide), by simp⟩
  have hn : parted.IsCompound := ⟨by decide, by decide⟩
  refine hn.sound (by decide) (by decide) List.mem_cons_self
    (hassigned.isSound.hasToken ⟨rfl, by decide⟩) (by decide) (by decide) hn.plainShape ?_
  simp only [parted, List.forall_mem_cons]
  exact ⟨hassigned, hsemicolon.sound (by decide), by simp⟩

private theorem listed_sound : listed.Sound strayed.buffer := by
  obtain ⟨-, -, hopening, hclosing⟩ := strayed_spells
  have hsingle : single.Sound strayed.buffer := by
    have henclosed : single.Enclosed strayed.buffer "[" "]" :=
      ⟨⟨by decide, by decide⟩, _, [_], _, rfl, hopening, hclosing⟩
    refine henclosed.1.sound (by decide) (by decide) List.mem_cons_self
      (hasToken_of_leaf (by decide) (by decide) rfl) (by decide)
      (show Construct.ofKind? "array" = some .arrayList by decide) henclosed ?_
    simp only [single, List.forall_mem_cons]
    exact ⟨hopening.sound (by decide), sound_of_leaf (by decide) rfl (by decide) (by decide),
      hclosing.sound (by decide), by simp⟩
  have hn : listed.IsCompound := ⟨by decide, by decide⟩
  refine hn.sound (by decide) (by decide) List.mem_cons_self
    (hsingle.isSound.hasToken ⟨rfl, by decide⟩) (by decide) (by decide) hn.plainShape ?_
  simpa [listed] using hsingle

theorem strayed_script : strayed.Script where
  kind_eq := rfl
  grammatical := by
    refine Grammatical.of_children (by decide) (by decide) (fun construct hconstruct => ?_) ?_
    · obtain rfl : Construct.program = construct :=
        Option.mem_unique (by decide : Construct.ofKind? "program" = some .program) hconstruct
      trivial
    · simpa [strayed, ofTree] using And.intro parted_sound listed_sound
  fields := by
    have hnone : strayed.root.all (·.children.all (·.kind != "field_definition")) = true := by
      decide
    intro m hm c hc hkind
    have := List.all_eq_true.1 (of_all hnone hm) c hc
    simp [hkind] at this
  programs := by
    rintro m ⟨c, hc, hm⟩ hkind
    have hnone : strayed.root.children.all (all (·.kind != "program")) = true := by decide
    have := of_all (List.all_eq_true.1 hnone c hc) hm
    simp [hkind] at this
  start_nonneg := by decide
  stop_le := by decide
  blank h := by simp [strayed, ofTree] at h
  blocks_eq_nil := rfl

private theorem parted_allProduced : parted.AllProduced strayed.buffer := by
  obtain ⟨hequals, hsemicolon, -, -⟩ := strayed_spells
  have hassigned : assigned.AllProduced strayed.buffer := by
    have hproduction : assigned.Production strayed.buffer .chain :=
      ⟨_, _, _, ⟨rfl, by simp [assigned_code]⟩, ⟨"=", hequals, by decide, by decide⟩,
        ⟨rfl, by simp [assigned_code]⟩, .inl rfl⟩
    refine allProduced_of_children (isProduced_of_production (by decide) hproduction) ?_
    simp only [assigned, List.forall_mem_cons]
    exact ⟨allProduced_of_leaf (by decide) (by decide) rfl, allProduced_of_anonymous rfl rfl,
      allProduced_of_leaf (by decide) (by decide) rfl, by simp⟩
  refine allProduced_of_children
    (isProduced_of_expression rfl ⟨rfl, by decide⟩ (.inr ⟨_, hsemicolon, rfl⟩)) ?_
  simp only [parted, List.forall_mem_cons]
  exact ⟨hassigned, allProduced_of_anonymous rfl rfl, by simp⟩

private theorem listed_allProduced : listed.AllProduced strayed.buffer := by
  obtain ⟨-, -, hopening, hclosing⟩ := strayed_spells
  have hsingle : single.AllProduced strayed.buffer := by
    have hproduction : single.Production strayed.buffer .arrayList :=
      ⟨_, [_], _, rfl, hopening, hclosing, by simp [IsCode, isComment, isCommentKind]⟩
    refine allProduced_of_children (isProduced_of_production (by decide) hproduction) ?_
    simp only [single, List.forall_mem_cons]
    exact ⟨allProduced_of_anonymous rfl rfl, allProduced_of_leaf (by decide) (by decide) rfl,
      allProduced_of_anonymous rfl rfl, by simp⟩
  refine allProduced_of_children
    (isProduced_of_expression rfl ⟨rfl, by decide⟩ (.inl rfl)) ?_
  simpa [listed] using hsingle

theorem strayed_produced : strayed.root.Produced strayed.buffer where
  ruled m hm hcode := by
    have hruled : strayed.root.all
        (fun m => !m.isNamed || (Construct.ofKind? m.kind).isSome) = true := by decide
    have hnamed : m.isNamed = true := by
      rcases hcode with rfl | hcode
      · rfl
      · exact hcode.1
    simpa [hnamed] using of_all hruled hm
  production m hm hnamed := by
    have hproduction : strayed.root.Production strayed.buffer .program := by
      simp [Production, parts, strayed, ofTree, parted, listed, IsCode, isComment, isCommentKind]
    have hroot : strayed.root.AllProduced strayed.buffer := by
      refine allProduced_of_children (isProduced_of_production (by decide) hproduction) ?_
      simpa [strayed, ofTree] using And.intro parted_allProduced listed_allProduced
    exact hroot m hm (hnamed.elim (fun heq => heq ▸ rfl) id)
  housed m hm c hc := by
    have hkinds : strayed.root.all (·.codeChildren.all fun c =>
        decide (c.kind ∉ fieldHomes.map (·.1) ∧ c.kind ∉ kindHomes.map (·.1) ∧
          c.kind ≠ "named_imports" ∧ c.kind ≠ "template_substitution")) = true := by decide
    obtain ⟨hfield, hkind, hnames, hsub⟩ :=
      of_decide_eq_true (List.all_eq_true.1 (of_all hkinds hm) c hc)
    exact housed_of_kind hfield hkind hnames hsub
  leaf m hm hnamed _ := by
    have hleaf : strayed.root.all (fun m => m.isNamed || m.children.isEmpty) = true := by decide
    simpa [hnamed] using of_all hleaf hm

theorem strayed_levels :
    (({ width := 4 } : Resolver).lineLevels strayed (strayed.analyze 1).registry).1 =
        .ok [(1, 0), (2, 1), (3, 0)] ∧
      (({ width := 4 } : Resolver).lineLevels strayed.inFunction
          (strayed.inFunction.analyze 1).registry).1 =
        .ok [(1, 0), (2, 1), (3, 2), (4, 0), (5, 0)] :=
  ⟨lineLevels_eq_ok (by decide +kernel) (by decide +kernel),
    lineLevels_eq_ok (by decide +kernel) (by decide +kernel)⟩

/-- The line that begins with a semicolon is at level 0 in the program, and no deeper in a function
around it. -/
theorem lineLevels_strayed : strayed.Script ∧ strayed.root.Produced strayed.buffer ∧
    ∃ levels levels',
      (({ width := 4 } : Resolver).lineLevels strayed (strayed.analyze 1).registry).1 = .ok levels ∧
      (({ width := 4 } : Resolver).lineLevels strayed.inFunction
        (strayed.inFunction.analyze 1).registry).1 = .ok levels' ∧
      (3, 0) ∈ levels ∧ (3 + 1, 0 + 1) ∉ levels' :=
  ⟨strayed_script, strayed_produced, _, _, strayed_levels.1, strayed_levels.2, by decide, by decide⟩

/-- The levels of the program and of the function around it: the line with the value is placed, and
the line below begins with a token that the rules leave out. -/
theorem lineLevels_strayed_inFunction : strayed.Script ∧ strayed.root.Produced strayed.buffer ∧
    (({ width := 4 } : Resolver).lineLevels strayed (strayed.analyze 1).registry).1 =
      .ok [(1, 0), (2, 1), (3, 0)] ∧
    (({ width := 4 } : Resolver).lineLevels strayed.inFunction
      (strayed.inFunction.analyze 1).registry).1 = .ok [(1, 0), (2, 1), (3, 2), (4, 0), (5, 0)] ∧
    ∃ t above, Embedding.LineEndsAt (strayed.analyze 1).registry strayed.lines 3 t ∧
      Registry.Opens strayed.lines above t ∧ (strayed.analyze 1).registry.get? t = none ∧
      strayed.LeftOut t := by
  obtain ⟨hlevels, hlevels'⟩ := strayed_levels
  refine ⟨strayed_script, strayed_produced, hlevels, hlevels', ?_⟩
  obtain ⟨-, -, -, levels, levels', hok, hok', hall⟩ :=
    lineLevels_inFunction strayed_script strayed_produced 1 4
  obtain rfl := Except.ok.inj (hlevels.symm.trans hok)
  obtain rfl := Except.ok.inj (hlevels'.symm.trans hok')
  rcases hall 3 0 (by decide) with hmem | ⟨t, above, hends, hopens, hnone, hleftOut, -⟩
  · exact absurd hmem (by decide)
  · exact ⟨t, above, hends, hopens, hnone, hleftOut⟩

end Strayed

end Source

end ScriptIndent
