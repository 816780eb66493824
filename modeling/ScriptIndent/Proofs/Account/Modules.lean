import ScriptIndent.Proofs.Account.Functions
import ScriptIndent.Proofs.Rule.Modules

/-!
# ScriptIndent.Proofs.Account.Modules

The tokens of imports and exports.

```
placed with the names           { a , b as c }
placed with the statement       import d ,                from "m"
                                export { a } ; export * as n from "m"
```

The names in the braces of an import are placed first, and all between the braces is left as it is
then; so the comma between two names is passed over, and the one behind `d` is not.
-/

namespace ScriptIndent

namespace Source

open Draft

variable {s : Source} {caseLevels : Int} {n c : Node} {ancestors : List Node} {i j k l a b m : Nat}
  {t : Token}

/-! ## rows of tokens -/

/-- A token of a row is in it. -/
theorem mem_of_row {ts : List Token} (h : Rule.Row s k ts) (ht : s.At m t) (hkm : k ≤ m)
    (hmk : m < k + ts.length) : t ∈ ts :=
  List.mem_of_getElem? (h.mem_of_at ht hkm hmk)

/-- The parts of a construct do not overlap. -/
theorem StandRun.eq_or_apart {ns : List Node} (h : s.StandRun ns i j) {c d : Node} (hc : c ∈ ns)
    (hcs : s.Stands c a b) (hab : a < b) (hd : d ∈ ns) (hds : s.Stands d k l) (hkl : k < l) :
    d = c ∨ l ≤ a ∨ b ≤ k := by
  obtain ⟨front, back, rfl, hfront, hback⟩ := h.mem hc hcs hab
  rcases List.mem_append.1 hd with hd | hd
  · obtain ⟨_, _, rfl, -, hrest⟩ := hfront.mem hd hds hkl
    exact .inr (.inl hrest.le)
  · rcases List.mem_cons.1 hd with rfl | hd
    · exact .inl rfl
    · obtain ⟨_, _, rfl, hbetween, -⟩ := hback.mem hd hds hkl
      exact .inr (.inr hbetween.le)

/-! ## imports -/

/-- What is placed with a part of an import stands behind its first token, and before the closing
brace, if there is one; the names in braces are placed. -/
theorem kept_importPart {p : Node} (hp : s.Stands p a b) (hab : a < b)
    (hnames : p.kind = "named_imports" →
      p.Enclosed s.buffer "\x7b" "\x7d" ∧ ∀ c ∈ p.codeChildren, c.kind = "import_specifier")
    {d : List Token → Draft Unit} (hkept : s.Kept caseLevels (Rule.importPart s n p >>= d)) :
    ∃ placed, s.Kept caseLevels (d placed) ∧
      (∀ t ∈ placed, ∀ m, s.At m t → a < m ∧ m < b ∧ (p.kind = "named_imports" → m + 1 < b)) ∧
      (p.kind = "named_imports" → ∀ c ∈ p.codeChildren, ∀ k l, s.Stands c k l → k < l →
        s.Accounted caseLevels k) := by
  unfold Rule.importPart at hkept
  split at hkept
  · next hkind =>
    have hother : p.kind ≠ "named_imports" := by simp_all
    refine ⟨_, hkept, fun t ht m hm => ?_, fun h => absurd h hother⟩
    cases htokens : s.tokensOf p with
    | nil => simp [htokens] at ht
    | cons u rest =>
      rw [htokens, List.drop_one, List.tail_cons] at ht
      obtain ⟨k, hak, hkb, hk⟩ := (Rule.exists_at_of_tokensOf hp hab htokens).2 t ht
      obtain rfl := eq_of_getElem? hm hk
      exact ⟨hak, hkb, fun h => absurd h hother⟩
  split at hkept
  · next hkind =>
    obtain ⟨henclosed, hspecifiers⟩ := hnames (by simpa using hkind)
    have hall : p.codeChildren.filter (·.kind == "import_specifier") = p.codeChildren :=
      List.filter_eq_self.2 fun c hc => by simp [hspecifiers c hc]
    rw [hall] at hkept
    obtain ⟨-, -, ⟨u, hu, hvalue, hsign⟩, hinner⟩ := hp.enclosed henclosed (by decide) (by decide)
    dsimp only at hkept
    split at hkept
    · next head tail hhead htail =>
      obtain ⟨x, y, hax, hxy, -, hhstands⟩ := hinner head (List.mem_of_mem_head? hhead)
      obtain ⟨v, w, hav, hvw, hwb, htstands⟩ := hinner tail (List.mem_of_getLast? htail)
      -- the brace, or what stands before the first name
      rw [bind_assoc] at hkept
      obtain ⟨left, hleft, hkept⟩ := hkept.require
      rw [(hhstands.ends hxy).before?_eq, if_neg (by omega)] at hleft
      -- the closing brace, or one before it
      rw [bind_assoc] at hkept
      obtain ⟨right, hright, hkept⟩ := hkept.require
      obtain ⟨z, r, hwz, hzb, hr, -, hscan⟩ := Source.exists_scanUp (i := w) (by omega) hu
        (Rule.isPunctuator_of_value hvalue hsign (by decide))
      obtain rfl := Option.mem_unique hright (((htstands.ends hvw).afterWhere?_eq _).trans hscan)
      rw [bind_assoc] at hkept
      obtain ⟨hlist, hkept⟩ := hkept.next
      refine ⟨_, hkept, fun t ht m hm => ?_, fun _ c hc k l hstands hkl => ?_⟩
      · obtain ⟨k, hxk, hkz, hk⟩ := Rule.exists_at_of_mem_between (ends_token hleft) (ends_token hr) ht
        obtain rfl := eq_of_getElem? hm hk
        exact ⟨by omega, by omega, fun _ => by omega⟩
      · have hturn : p.InTurn p.codeChildren := List.filter_sublist.trans List.filter_sublist
        have := hp.start_le_of_head? henclosed.1 hturn hhead hhstands hxy hc hstands hkl
        exact hlist.element hc hstands hkl hleft (by omega)
    · next hnone =>
      refine ⟨[], hkept, by simp, fun _ c hc => ?_⟩
      exact absurd (List.getLast?_eq_some_getLast (List.ne_nil_of_mem hc))
        (hnone _ _ (List.head?_eq_some_head (List.ne_nil_of_mem hc)))
  · next hkind =>
    exact ⟨[], hkept, by simp, fun h => by simp [h] at hkind⟩

/-- What is placed with the parts of an import stands within them. -/
theorem kept_importParts {ps : List Node} (hstands : ∀ p ∈ ps, ∃ a b, s.Stands p a b ∧ a < b)
    (hnames : ∀ p ∈ ps, p.kind = "named_imports" →
      p.Enclosed s.buffer "\x7b" "\x7d" ∧ ∀ c ∈ p.codeChildren, c.kind = "import_specifier")
    {d : List Token → Draft Unit} (hkept : s.Kept caseLevels (Rule.importParts s n ps >>= d)) :
    ∃ placed, s.Kept caseLevels (d placed) ∧
      (∀ t ∈ placed, ∀ m, s.At m t → ∃ p ∈ ps, ∃ a b, s.Stands p a b ∧ a < m ∧ m < b ∧
        (p.kind = "named_imports" → m + 1 < b)) ∧
      ∀ p ∈ ps, p.kind = "named_imports" → ∀ c ∈ p.codeChildren, ∀ k l, s.Stands c k l → k < l →
        s.Accounted caseLevels k := by
  induction ps generalizing d with
  | nil => exact ⟨[], hkept, by simp, by simp⟩
  | cons p rest ih =>
    obtain ⟨⟨a, b, hp, hab⟩, hstands⟩ := List.forall_mem_cons.1 hstands
    obtain ⟨hnamesFirst, hnames⟩ := List.forall_mem_cons.1 hnames
    rw [Rule.importParts, bind_assoc] at hkept
    obtain ⟨placed, hkept, hwithin, hplaced⟩ := kept_importPart hp hab hnamesFirst hkept
    rw [bind_assoc] at hkept
    obtain ⟨more, hkept, hwithinRest, hplacedRest⟩ := ih hstands hnames hkept
    refine ⟨placed ++ more, hkept, fun t ht m hm => ?_, List.forall_mem_cons.2 ⟨hplaced, hplacedRest⟩⟩
    rcases List.mem_append.1 ht with ht | ht
    · exact ⟨p, List.mem_cons_self, a, b, hp, hwithin t ht m hm⟩
    · obtain ⟨q, hq, hrest⟩ := hwithinRest t ht m hm
      exact ⟨q, List.mem_cons_of_mem p hq, hrest⟩

/-- The part of an import clause that stands around a place is names in braces, and the place is
the last of these. -/
def EndsNames (s : Source) (clause : Node) (m : Nat) : Prop :=
  ∀ p ∈ clause.codeChildren, ∀ a b, s.Stands p a b → a < m → m < b →
    p.kind = "named_imports" ∧ b ≤ m + 1

/-- The parts of an import clause. -/
theorem partsBegin_importClause {clause : Node} (hclause : clause.kind = "import_clause")
    (hl : s.Stands clause k l)
    (hall : ∀ m, k ≤ m → m < l → s.EndsNames clause m → s.Accounted caseLevels m) :
    s.PartsBegin (s.Accounted caseLevels) clause k := by
  have hcompound : clause.IsCompound := isCompound_of_wrapper (by rw [hclause]; decide)
  intro c hc x y hcs hkx hxy
  have hwithin := hl.le_of_within hcs hxy (.of_mem (List.mem_filter.1 hc).1)
  refine hall x (by omega) (by omega) fun p hp a b hstands ham hmb => ?_
  have hrun := hl.standRun hcompound rfl (List.ne_nil_of_mem hc)
  have hpart := Node.mem_parts_of_mem_codeChildren hp
  rcases hrun.eq_or_apart hc hcs hxy hpart hstands (by omega) with rfl | hcases
  · have := (hcs.unique hxy hstands).1
    omega
  · omega

/-- The parts of the names in braces of an import clause. -/
theorem partsBegin_importNames {clause names : Node} (hclause : clause.kind = "import_clause")
    (hl : s.Stands clause k l)
    (hall : ∀ m, k ≤ m → m < l → s.EndsNames clause m → s.Accounted caseLevels m)
    (hnames : names ∈ clause.codeChildren) (hkind : names.kind = "named_imports")
    (hspecifiers : ∀ c ∈ names.codeChildren, ∀ a b, s.Stands c a b → a < b →
      s.Accounted caseLevels a)
    (hoccurs : s.Occurs names (clause :: n :: ancestors) .plain i j) :
    s.PartsBegin (s.Accounted caseLevels) names i := by
  have hplain : names.PlainProduction s.buffer := hoccurs.production
  have hwrapper : clause.IsCompound := isCompound_of_wrapper (by rw [hclause]; decide)
  have hcompound : names.IsCompound := isCompound_of_wrapper (by rw [hkind]; decide)
  obtain ⟨hij, -, hlisted⟩ := hoccurs.stands.listed hcompound (hplain.names (.inl hkind))
    (by decide) (by decide)
  have hwithin := hl.le_of_within hoccurs.stands (by omega)
    (.of_mem (Node.mem_codeChildren.1 hnames).1)
  intro c hc a b hcs hia hab
  rcases hlisted c hc a b hcs hia hab with hcode | ⟨sign, hsign, hspells⟩ | rfl
  · exact hspecifiers c hcode a b hcs hab
  · obtain rfl := List.mem_singleton.1 hsign
    exact hoccurs.comma (by rw [hkind]; decide) hc hspells hcs hab caseLevels
  · -- the closing brace is the last place of the names
    refine hall (j - 1) (by omega) (by omega) fun p hp a b hstands ham hmb => ?_
    have hpart := Node.mem_parts_of_mem_codeChildren hnames
    have hrun := hl.standRun hwrapper rfl (List.ne_nil_of_mem hpart)
    rcases hrun.eq_or_apart hpart hoccurs.stands (by omega)
      (Node.mem_parts_of_mem_codeChildren hp) hstands (by omega) with rfl | hcases
    · obtain ⟨rfl, rfl⟩ := hoccurs.stands.unique (by omega) hstands
      exact ⟨hkind, by omega⟩
    · omega

namespace Occurs

/-- All tokens behind the keyword of an import, up to the first of the module, are placed, but for
those placed with the parts of its clause. -/
theorem kept_importing (h : s.Occurs n ancestors .importing i j) (caseLevels : Int) {module : Node}
    (hmodule : n.IsPart "source" module) (hm : s.Stands module k l) (hik : i < k) :
    ∃ d : List Token → Draft Unit,
      s.Kept caseLevels (Rule.importParts s n
        ((n.childOfKind? "import_clause").elim [] (·.codeChildren)) >>= d) ∧
      ∀ placed, s.Kept caseLevels (d placed) → ∀ m, i < m → m ≤ k → ∀ t ∉ placed, s.At m t →
        s.Accounted caseLevels m := by
  have hkept : s.Kept caseLevels (Rule.importing s n) := h.kept caseLevels
  rw [Rule.importing] at hkept
  have hkl := h.stands.lt_of_mem hmodule.2 hm
  have hkj := (h.stands.le_of_within hm hkl (.of_mem (Node.mem_codeChildren.1 hmodule.2).1)).2
  obtain ⟨keyword, hkeyword, hkept⟩ := hkept.first h.stands (by omega)
  obtain ⟨token, htoken, hkept⟩ := (hkept.part hmodule.1).first hm hkl
  refine ⟨_, hkept, fun placed hkept m him hmk t ht htm => ?_⟩
  obtain ⟨hrow, hlength⟩ := Rule.row_between (ends_token hkeyword) (hm.ends hkl)
  have hbefore {before : List Token} {levels : Int}
      (hoffsets : s.Kept caseLevels (offsets (before.filter (!placed.contains ·)) levels keyword))
      (hmem : t ∈ before) : s.Accounted caseLevels m :=
    hoffsets.offsets (List.mem_filter.2 ⟨hmem, by simpa using ht⟩) htm hkeyword (by omega)
  rcases Rule.ImportHead.of_cases (s.between keyword module) token with
    ⟨before, word, after, heq, hhead⟩ | hhead
  · rw [hhead] at hkept
    rw [heq] at hrow hlength
    obtain ⟨hfront, hrest⟩ := hrow.append
    obtain ⟨hword, hafter⟩ := hrest.cons
    rw [List.length_append, List.length_cons] at hlength
    obtain ⟨hoffsets, hkept⟩ := hkept.next
    obtain ⟨hsign, hkept⟩ := hkept.next
    rcases Nat.lt_trichotomy m (i + 1 + before.length) with hlt | rfl | hlt
    · exact hbefore hoffsets (mem_of_row hfront htm him hlt)
    · exact hsign.offset hword hkeyword (by omega)
    · refine hkept.offsets (t := t) ?_ htm hword (by omega)
      rcases Nat.eq_or_lt_of_le hmk with rfl | hmk
      · obtain rfl := Option.mem_unique htm htoken
        simp
      · exact List.mem_append_left _ (mem_of_row hafter htm (by omega) (by omega))
  · rw [hhead] at hkept
    refine hbefore hkept.next.1 ?_
    rcases Nat.eq_or_lt_of_le hmk with rfl | hmk
    · obtain rfl := Option.mem_unique htm htoken
      simp
    · exact List.mem_append_left _ (mem_of_row hrow htm him (by omega))

/-- A token between the keyword of an import and its module, or the first of the module, is placed,
unless it stands within a part of its clause; the names in braces are placed. -/
theorem accounted_importing (h : s.Occurs n ancestors .importing i j) (caseLevels : Int) {module : Node}
    (hmodule : n.IsPart "source" module) (hm : s.Stands module k l) (hik : i < k) :
    (∀ m, i < m → m ≤ k →
        (∀ clause, n.childOfKind? "import_clause" = some clause → s.EndsNames clause m) →
          s.Accounted caseLevels m) ∧
      ∀ clause, n.childOfKind? "import_clause" = some clause → ∀ p ∈ clause.codeChildren,
        p.kind = "named_imports" → ∀ c ∈ p.codeChildren, ∀ a b, s.Stands c a b → a < b →
          s.Accounted caseLevels a := by
  obtain ⟨d, hkept, hall⟩ := h.kept_importing caseLevels hmodule hm hik
  obtain ⟨-, -, -, -, -, hshape⟩ := h.shape
  -- the parts of the clause, if there is one
  have hparts : ∀ p ∈ (n.childOfKind? "import_clause").elim [] (·.codeChildren),
      ∃ clause, n.childOfKind? "import_clause" = some clause ∧ p ∈ clause.codeChildren := by
    intro p hp
    cases hclause : n.childOfKind? "import_clause" with
    | none => simp [hclause] at hp
    | some clause => exact ⟨clause, rfl, by simpa [hclause] using hp⟩
  have hstands : ∀ p ∈ (n.childOfKind? "import_clause").elim [] (·.codeChildren),
      ∃ a b, s.Stands p a b ∧ a < b := by
    intro p hp
    obtain ⟨clause, hclause, hp⟩ := hparts p hp
    obtain ⟨hmem, hcompound, -⟩ := hshape clause hclause
    obtain ⟨_, _, -, -, -, hcs⟩ := h.stands.child (h.isCompound (by simp) (by simp)) hmem
    obtain ⟨a, b, -, hab, -, hps⟩ := hcs.child hcompound hp
    exact ⟨a, b, hps, hab⟩
  have hnames : ∀ p ∈ (n.childOfKind? "import_clause").elim [] (·.codeChildren),
      p.kind = "named_imports" →
        p.Enclosed s.buffer "\x7b" "\x7d" ∧ ∀ c ∈ p.codeChildren, c.kind = "import_specifier" := by
    intro p hp hkind
    obtain ⟨clause, hclause, hp⟩ := hparts p hp
    obtain ⟨hmem, -, hnames⟩ := hshape clause hclause
    have hwithin : p.Within s.root := (Node.Within.of_mem (Node.mem_codeChildren.1 hp).1).trans
      ((Node.Within.of_mem (Node.mem_codeChildren.1 hmem).1).trans h.within)
    have hplain : p.PlainProduction s.buffer := h.produced.production p hwithin
      (.inr (Node.mem_codeChildren.1 hp).2.1) .plain (by rw [hkind]; decide)
    exact ⟨hnames p hp hkind, hplain.specifiers hkind⟩
  obtain ⟨placed, hkept, hwithin, hplaced⟩ := kept_importParts hstands hnames hkept
  refine ⟨fun m him hmk hout => ?_, fun clause hclause p hp hkind => ?_⟩
  · have hkl := h.stands.lt_of_mem hmodule.2 hm
    obtain ⟨t, ht⟩ := hm.exists_at (k := m) (by omega)
    refine hall placed hkept m him hmk t (fun hmem => ?_) ht
    obtain ⟨p, hp, a, b, hstands, ham, hmb, hlt⟩ := hwithin t hmem m ht
    obtain ⟨clause, hclause, hp⟩ := hparts p hp
    obtain ⟨hkind, hle⟩ := hout clause hclause p hp a b hstands ham hmb
    have := hlt hkind
    omega
  · exact hplaced p (by simpa [hclause] using hp) hkind

/-- The parts of an import, those of its clause, and those of the names in braces. -/
theorem partsBegin_importing (h : s.Occurs n ancestors .importing i j) :
    s.PartsBegin (s.Accounted caseLevels) n i ∧
      ∀ clause a b, n.childOfKind? "import_clause" = some clause →
        s.Occurs clause (n :: ancestors) .plain a b →
          s.PartsBegin (s.Accounted caseLevels) clause a ∧ ∀ names k l, names ∈ clause.codeChildren →
            names.kind = "named_imports" → s.Occurs names (clause :: n :: ancestors) .plain k l →
              s.PartsBegin (s.Accounted caseLevels) names k := by
  have hcompound := h.isCompound (by simp) (by simp)
  have hkinds := isStatementKind_of_mem h.rule (by decide)
  obtain ⟨word, module, hword, hmodule,
    ⟨hnone, hparts⟩ | ⟨clause, sign, hclause, hcode, hsign, hparts⟩⟩ := h.production
  · obtain ⟨e, hej, ⟨k, hk, l, hl, rfl⟩, hbegins⟩ :=
      h.terminated caseLevels hcompound hkinds.1 hkinds.2 hparts
    obtain rfl := hk.lexeme hword
    obtain ⟨hall, -⟩ := h.accounted_importing caseLevels hmodule hl (Nat.lt_succ_self i)
    exact ⟨hbegins _ hk (Nat.lt_succ_self i)
      ⟨_, hl, hall _ (Nat.lt_succ_self i) (Nat.le_refl _) (by simp [hnone]), rfl⟩, by simp [hnone]⟩
  · obtain ⟨e, hej, ⟨k, hk, l, hl, m, hm, o, ho, rfl⟩, hbegins⟩ :=
      h.terminated caseLevels hcompound hkinds.1 hkinds.2 hparts
    obtain rfl := hk.lexeme hword
    obtain rfl := (hm.spells hsign (by decide)).1
    have hmem : clause ∈ n.parts := by
      rcases hparts with hparts | ⟨_, -, hparts⟩ <;> simp [hparts]
    have hkl := h.lt_of_isCode hmem hcode hl
    obtain ⟨hall, hspecifiers⟩ := h.accounted_importing caseLevels hmodule ho (by omega)
    replace hall (m : Nat) (him : i < m) (hml : m ≤ l + 1) (hends : s.EndsNames clause m) :
        s.Accounted caseLevels m :=
      hall m him hml fun _ hclause' => Option.mem_unique hclause hclause' ▸ hends
    have hedge (m : Nat) (him : i < m) (hml : m ≤ l + 1) (hcases : m = i + 1 ∨ l ≤ m) :
        s.Accounted caseLevels m := by
      refine hall m him hml fun p hp a b hstands ham hmb => ?_
      have := hl.le_of_within hstands (by omega) (.of_mem (Node.mem_codeChildren.1 hp).1)
      omega
    refine ⟨hbegins _ hk (Nat.lt_succ_self i) ⟨_, hl, hedge _ (by omega) (by omega) (.inl rfl),
      _, hm, hedge _ (by omega) (by omega) (.inr (by omega)), _, ho,
        hedge _ (by omega) (by omega) (.inr (by omega)), rfl⟩, fun clause' a b hclause' hoccurs => ?_⟩
    obtain rfl := Option.mem_unique hclause hclause'
    obtain ⟨rfl, rfl⟩ := hl.unique hkl hoccurs.stands
    have hkind : clause.kind = "import_clause" := by simpa using List.find?_some hclause
    have hinner (m : Nat) (him : i + 1 ≤ m) (hmb : m < b) := hall m him (by omega)
    exact ⟨partsBegin_importClause hkind hl hinner, fun names x y hnames hkind' hoccurs =>
      partsBegin_importNames hkind hl hinner hnames hkind' (hspecifiers clause hclause names hnames hkind')
        hoccurs⟩

/-! ## names with an alias -/

/-- The tokens of a renamed name are placed, all but the first. -/
theorem partsBegin_of_aliased {construct : Construct} (h : s.Occurs n ancestors construct i j)
    (hkept : s.Kept caseLevels (Rule.aliased s n)) : s.PartsBegin (s.Accounted caseLevels) n i := by
  intro c hc a b hstands hia hab
  have haj := (h.stands.le_of_within hstands hab (.of_mem (List.mem_filter.1 hc).1)).2
  obtain ⟨t, ht⟩ := h.stands.exists_at (k := a) (by omega)
  obtain ⟨first, hfirst⟩ := h.stands.exists_at (k := i) (by omega)
  rw [Rule.aliased, (h.stands.ends (by omega)).tokensOf_eq,
    toList_extract_split (Nat.le_succ i) (by omega), toList_extract_succ hfirst] at hkept
  refine hkept.offsets ?_ ht hfirst (by omega)
  rw [toList_extract_split (by omega : i + 1 ≤ a) (by omega),
    toList_extract_split (Nat.le_succ a) (by omega), toList_extract_succ ht]
  simp

theorem partsBegin_aliased (h : s.Occurs n ancestors .aliased i j) :
    s.PartsBegin (s.Accounted caseLevels) n i :=
  h.partsBegin_of_aliased (h.kept caseLevels)

theorem partsBegin_importSpecifier (h : s.Occurs n ancestors .importSpecifier i j) :
    s.PartsBegin (s.Accounted caseLevels) n i := by
  have hkept : s.Kept caseLevels (Rule.importSpecifier s n) := h.kept caseLevels
  rcases Nat.lt_or_ge 1 n.parts.length with hlt | hle
  · rw [Rule.importSpecifier, if_pos ((show n.ImportSpecifierProduction from h.production) hlt)] at hkept
    exact h.partsBegin_of_aliased hkept
  · exact h.partsBegin_of_length_le (h.isCompound (by simp) (by simp)) hle

end Occurs

/-! ## exports -/

/-- The star of an export is placed, and the name behind it. -/
theorem accounted_star {star renamed : List Token} {keyword last : Token} (hkeyword : s.At i keyword)
    (hrow : Rule.Row s (i + 1) (star ++ renamed)) (hlast : star.getLast? = some last)
    (hstar : s.Kept caseLevels (offsets star 1 keyword))
    (hrenamed : s.Kept caseLevels (offsets renamed 1 last)) (him : i < m)
    (hm : m < i + 1 + (star ++ renamed).length) (ht : s.At m t) : s.Accounted caseLevels m := by
  obtain ⟨hfront, hback⟩ := hrow.append
  rw [List.length_append] at hm
  rcases Nat.lt_or_ge m (i + 1 + star.length) with hlt | hle
  · exact hstar.offsets (mem_of_row hfront ht him hlt) ht hkeyword (by omega)
  · obtain ⟨l, -, hl, hat⟩ := hfront.mem (List.mem_of_getLast? hlast)
    exact hrenamed.offsets (mem_of_row hback ht hle (by omega)) ht hat (by omega)

/-- All tokens behind the keyword of an export of all of a module, up to the first of the module, are
placed. -/
theorem accounted_exportAll {keyword : Token} {module : Node} (hkeyword : s.At i keyword)
    (hm : s.Stands module k l) (hkl : k < l)
    (hkept : s.Kept caseLevels (Rule.exportAll s n keyword module)) (him : i < m) (hmk : m ≤ k) :
    s.Accounted caseLevels m := by
  obtain ⟨t, ht⟩ := hm.exists_at (k := m) (by omega)
  obtain ⟨hrow, hlength⟩ := Rule.row_between (ends_token hkeyword) (hm.ends hkl)
  rw [Rule.exportAll] at hkept
  rcases Rule.span_cases Rule.isFrom (s.between keyword module) with
    ⟨before, word, after, heq, -, hspan⟩ | ⟨-, hspan⟩
  · rw [hspan] at hkept
    rw [heq] at hrow hlength
    obtain ⟨hfront, hrest⟩ := hrow.append
    obtain ⟨hword, hafter⟩ := hrest.cons
    rw [List.length_append, List.length_cons] at hlength
    obtain ⟨token, htoken, hkept⟩ := hkept.first hm hkl
    -- what stands before `from`, and what stands from there on
    have hsplit : (m < i + 1 + before.length → s.Accounted caseLevels m) ∧
        s.Kept caseLevels (do
          offset word 0 keyword
          offsets (after ++ [token]) 1 word) := by
      split at hkept
      · obtain ⟨hbefore, hkept⟩ := hkept.next
        exact ⟨fun hlt => hbefore.offsets (mem_of_row hfront ht him hlt) ht hkeyword (by omega), hkept⟩
      · have happend := List.takeWhile_append_dropWhile (p := (·.value != "as")) (l := before)
        rw [List.span_eq_takeWhile_dropWhile] at hkept
        dsimp only at hkept
        split at hkept
        · next last _ _ hlast hrenamed =>
          obtain ⟨hstar, hkept⟩ := hkept.next
          obtain ⟨hnames, hkept⟩ := hkept.next
          refine ⟨fun hlt => ?_, hkept⟩
          rw [← happend] at hfront hlt
          exact accounted_star hkeyword hfront hlast hstar hnames him hlt ht
        · obtain ⟨_, hfail⟩ := hkept.passes
          cases hfail
    obtain ⟨hbefore, hkept⟩ := hsplit
    obtain ⟨hsign, hkept⟩ := hkept.next
    rcases Nat.lt_trichotomy m (i + 1 + before.length) with hlt | rfl | hlt
    · exact hbefore hlt
    · exact hsign.offset hword hkeyword (by omega)
    · refine hkept.offsets (t := t) ?_ ht hword (by omega)
      rcases Nat.eq_or_lt_of_le hmk with rfl | hmk
      · obtain rfl := Option.mem_unique ht htoken
        simp
      · exact List.mem_append_left _ (mem_of_row hafter ht (by omega) (by omega))
  · rw [hspan] at hkept
    obtain ⟨_, hfail⟩ := hkept.passes
    cases hfail

/-- The names of an export, and what stands behind them. -/
theorem kept_exportNames {keyword : Token} {clause : Node} {module : Option Node}
    (hkeyword : s.At i keyword) (hc : s.Stands clause a b) (hab : a < b)
    (hkept : s.Kept caseLevels (Rule.exportNames s keyword clause module)) :
    ∃ left right, s.At a left ∧ s.At (b - 1) right ∧
      s.Kept caseLevels (offset left 0 keyword) ∧
      s.Kept caseLevels (elements s clause.codeChildren left (some right) 1) ∧
      ∀ m, module = some m → ∀ k, s.Stands m (b + 1) k → b + 1 < k → i < b →
        s.Accounted caseLevels b ∧ s.Accounted caseLevels (b + 1) := by
  rw [Rule.exportNames] at hkept
  obtain ⟨left, hleft, hkept⟩ := hkept.first hc hab
  obtain ⟨right, hright, hkept⟩ := hkept.last hc hab
  obtain ⟨hplaced, hkept⟩ := hkept.next
  obtain ⟨hlist, hkept⟩ := hkept.next
  refine ⟨left, right, hleft, hright, hplaced, hlist, fun m hm k hk hbk hib => ?_⟩
  subst hm
  obtain ⟨hrow, hlength⟩ := Rule.row_between (ends_token hright) (hk.ends hbk)
  obtain ⟨word, hword⟩ := List.length_eq_one_iff.1 (show (s.between right m).length = 1 by omega)
  dsimp only at hkept
  rw [hword] at hrow hkept
  have hat : s.At b word := by
    have := hrow.cons.1
    rwa [Nat.sub_add_cancel (by omega)] at this
  obtain ⟨hsign, hkept⟩ := hkept.next
  obtain ⟨token, htoken, hkept⟩ := hkept.first hk hbk
  exact ⟨hsign.offset hat hkeyword (by omega), hkept.offsets (by simp) htoken hat (by omega)⟩

namespace Occurs

/-- The keyword of an export. -/
theorem kept_exporting (h : s.Occurs n ancestors .exporting i j) (caseLevels : Int) {word : Node}
    (hword : n.keyword? "export" = some word) (hk : s.Stands word i (i + 1)) :
    ∃ keyword, s.At i keyword ∧ s.Kept caseLevels (do
      match ← keyword? s n "default" with
      | some _ =>
        match (n.field? "declaration").or (n.field? "value") with
        | none => pure ()
        | some target => do
          let token ← first s target
          offsets (s.between keyword token ++ [token]) 1 keyword
      | none =>
        match n.field? "declaration" with
        | some declaration => offset (← first s declaration) 1 keyword
        | none =>
          match n.childOfKind? "export_clause", n.field? "source" with
          | some clause, module => Rule.exportNames s keyword clause module
          | none, some module => Rule.exportAll s n keyword module
          | none, none => pure ()) := by
  have hkept : s.Kept caseLevels (Rule.exporting s n) := h.kept caseLevels
  rw [Rule.exporting] at hkept
  exact hkept.keyword_some hword hk (Nat.lt_succ_self i)

/-- An export of a default, or of a declaration. -/
theorem partsBegin_exportsOwn (h : s.Occurs n ancestors .exporting i j) {word : Node}
    (hword : n.keyword? "export" = some word) (hspells : word.Spells s.buffer "export")
    (hown : n.ExportsOwn s.buffer word) : s.PartsBegin (s.Accounted caseLevels) n i := by
  have hcompound := h.isCompound (by simp) (by simp)
  have hkinds := isStatementKind_of_mem h.rule (by decide)
  obtain ⟨-, -, ⟨sign, target, hsome, hsign, hcode, htarget, hparts⟩ |
    ⟨hnone, target, htarget, hparts⟩⟩ := hown
  · obtain ⟨e, hej, ⟨k, hk, l, hl, m, hm, rfl⟩, hbegins⟩ :=
      h.terminated caseLevels hcompound hkinds.1 hkinds.2 hparts
    obtain rfl := (hk.spells hspells (by decide)).1
    obtain ⟨rfl, t, ht, -⟩ := hl.spells hsign (by decide)
    have hmem : target ∈ n.parts := by
      rcases hparts with hparts | ⟨_, -, hparts⟩ <;> simp [hparts]
    have hlm := h.lt_of_isCode hmem hcode hm
    obtain ⟨keyword, hkeyword, hkept⟩ := h.kept_exporting caseLevels hword hk
    obtain ⟨_, -, hkept⟩ := hkept.keyword_some hsome hl (Nat.lt_succ_self _)
    dsimp only at hkept
    rw [htarget] at hkept
    obtain ⟨token, htoken, hkept⟩ := hkept.first hm hlm
    have hbetween := mem_between (ends_token hkeyword) (ends_token htoken) ht (Nat.le_refl _)
      (Nat.lt_succ_self _)
    exact hbegins _ hk (Nat.lt_succ_self i)
      ⟨_, hl, hkept.offsets (List.mem_append_left _ hbetween) ht hkeyword (by omega),
        _, hm, hkept.offsets (by simp) htoken hkeyword (by omega), rfl⟩
  · obtain ⟨k, hk, l, hl, rfl⟩ := h.stands.standRun hcompound hparts (by simp)
    obtain rfl := (hk.spells hspells (by decide)).1
    have hlt := h.stands.lt_of_mem htarget.2 hl
    obtain ⟨keyword, hkeyword, hkept⟩ := h.kept_exporting caseLevels hword hk
    have hkept := hkept.keyword_none hnone
    dsimp only at hkept
    rw [htarget.1] at hkept
    obtain ⟨token, htoken, hkept⟩ := hkept.first hl hlt
    exact .of_run hparts hk ⟨_, hl, hkept.offset htoken hkeyword (by omega), rfl⟩

/-- An export of names in braces, and these names. -/
theorem partsBegin_exportsListed (h : s.Occurs n ancestors .exporting i j) (caseLevels : Int)
    {word : Node} (hword : n.keyword? "export" = some word)
    (hspells : word.Spells s.buffer "export")
    (hdefault : n.keyword? "default" = none) (hdeclaration : n.field? "declaration" = none)
    (hlisted : n.ExportsListed s.buffer word) :
    s.PartsBegin (s.Accounted caseLevels) n i ∧ ∀ c a b, n.childOfKind? "export_clause" = some c →
      s.Occurs c (n :: ancestors) .plain a b → s.PartsBegin (s.Accounted caseLevels) c a := by
  have hcompound := h.isCompound (by simp) (by simp)
  have hkinds := isStatementKind_of_mem h.rule (by decide)
  obtain ⟨-, clause, hclause, hcode, hcases⟩ := hlisted
  -- the names, wherever the clause ends
  have hinner {l : Nat} {left right : Token} (hl : s.Stands clause (i + 1) l) (hlt : i + 1 < l)
      (hleft : s.At (i + 1) left) (hright : s.At (l - 1) right)
      (hlist : s.Kept caseLevels (elements s clause.codeChildren left (some right) 1)) (c : Node)
      (a b : Nat) (hc : n.childOfKind? "export_clause" = some c)
      (hoccurs : s.Occurs c (n :: ancestors) .plain a b) : s.PartsBegin (s.Accounted caseLevels) c a := by
    obtain rfl := Option.mem_unique hclause hc
    obtain ⟨rfl, rfl⟩ := hl.unique hlt hoccurs.stands
    have hkind : clause.kind = "export_clause" := by simpa using List.find?_some hclause
    have hplain : clause.PlainProduction s.buffer := hoccurs.production
    exact hoccurs.partsBegin_of_commas (isCompound_of_wrapper (by rw [hkind]; decide))
      (by rw [hkind]; decide) (hplain.names (.inr hkind)) (by decide) (by decide) hlist hleft hright
  have hmem : clause ∈ n.parts := by
    rcases hcases with ⟨-, hparts | ⟨_, -, hparts⟩⟩ | ⟨_, _, -, -, hparts | ⟨_, -, hparts⟩⟩ <;>
      simp [hparts]
  rcases hcases with ⟨hsource, hparts⟩ | ⟨sign, module, hsign, hmodule, hparts⟩
  · obtain ⟨e, hej, ⟨k, hk, l, hl, rfl⟩, hbegins⟩ :=
      h.terminated caseLevels hcompound hkinds.1 hkinds.2 hparts
    obtain rfl := (hk.spells hspells (by decide)).1
    have hlt := h.lt_of_isCode hmem hcode hl
    obtain ⟨keyword, hkeyword, hkept⟩ := h.kept_exporting caseLevels hword hk
    have hkept := hkept.keyword_none hdefault
    dsimp only at hkept
    rw [hdeclaration, hclause] at hkept
    obtain ⟨left, right, hleft, hright, hplaced, hlist, -⟩ := kept_exportNames hkeyword hl hlt hkept
    exact ⟨hbegins _ hk (Nat.lt_succ_self i) ⟨_, hl, hplaced.offset hleft hkeyword (by omega), rfl⟩,
      hinner hl hlt hleft hright hlist⟩
  · obtain ⟨e, hej, ⟨k, hk, l, hl, m, hm, o, ho, rfl⟩, hbegins⟩ :=
      h.terminated caseLevels hcompound hkinds.1 hkinds.2 hparts
    obtain rfl := (hk.spells hspells (by decide)).1
    obtain rfl := (hm.spells hsign (by decide)).1
    have hlt := h.lt_of_isCode hmem hcode hl
    obtain ⟨keyword, hkeyword, hkept⟩ := h.kept_exporting caseLevels hword hk
    have hkept := hkept.keyword_none hdefault
    dsimp only at hkept
    rw [hdeclaration, hclause] at hkept
    obtain ⟨left, right, hleft, hright, hplaced, hlist, hsource⟩ :=
      kept_exportNames hkeyword hl hlt hkept
    obtain ⟨hfrom, hname⟩ :=
      hsource module hmodule.1 _ ho (h.stands.lt_of_mem hmodule.2 ho) (by omega)
    exact ⟨hbegins _ hk (Nat.lt_succ_self i) ⟨_, hl, hplaced.offset hleft hkeyword (by omega), _, hm,
      hfrom, _, ho, hname, rfl⟩, hinner hl hlt hleft hright hlist⟩

/-- An export of all of a module, and the name for it. -/
theorem partsBegin_exportsModule (h : s.Occurs n ancestors .exporting i j) (caseLevels : Int)
    {word : Node} (hword : n.keyword? "export" = some word)
    (hspells : word.Spells s.buffer "export")
    (hdefault : n.keyword? "default" = none) (hdeclaration : n.field? "declaration" = none)
    (hall : n.ExportsModule s.buffer word) :
    s.PartsBegin (s.Accounted caseLevels) n i ∧ ∀ c a b, n.childOfKind? "namespace_export" = some c →
      s.Occurs c (n :: ancestors) .plain a b → s.PartsBegin (s.Accounted caseLevels) c a := by
  have hcompound := h.isCompound (by simp) (by simp)
  have hkinds := isStatementKind_of_mem h.rule (by decide)
  obtain ⟨hclause, names, sign, module, hnames, hsign, hmodule, hparts⟩ := hall
  obtain ⟨e, hej, ⟨k, hk, l, hl, m, hm, o, ho, rfl⟩, hbegins⟩ :=
    h.terminated caseLevels hcompound hkinds.1 hkinds.2 hparts
  obtain rfl := (hk.spells hspells (by decide)).1
  obtain rfl := (hm.spells hsign (by decide)).1
  have hle := hl.le
  have hmo := h.stands.lt_of_mem hmodule.2 ho
  obtain ⟨keyword, hkeyword, hkept⟩ := h.kept_exporting caseLevels hword hk
  have hkept := hkept.keyword_none hdefault
  dsimp only at hkept
  rw [hdeclaration, hclause, hmodule.1] at hkept
  have haccounted (m : Nat) (him : i < m) (hml : m ≤ l + 1) : s.Accounted caseLevels m :=
    accounted_exportAll hkeyword ho hmo hkept him hml
  refine ⟨hbegins _ hk (Nat.lt_succ_self i) ⟨_, hl, haccounted _ (by omega) (by omega), _, hm,
    haccounted _ (by omega) (by omega), _, ho, haccounted _ (by omega) (by omega), rfl⟩, ?_⟩
  intro c a b hc hoccurs d hd x y hstands hax hxy
  rcases hnames with ⟨-, hnone⟩ | hsome
  · simp [hnone] at hc
  · obtain rfl := Option.mem_unique hsome hc
    have hab := hoccurs.lt hd hstands hxy
    obtain ⟨rfl, rfl⟩ := hoccurs.stands.unique hab hl
    have hwithin := hl.le_of_within hstands hxy (.of_mem (List.mem_filter.1 hd).1)
    exact haccounted x (by omega) (by omega)

/-- The parts of an export, those of its names in braces, and those of the name for the module. -/
theorem partsBegin_exporting (h : s.Occurs n ancestors .exporting i j) :
    s.PartsBegin (s.Accounted caseLevels) n i ∧
      (∀ c a b, n.childOfKind? "export_clause" = some c → s.Occurs c (n :: ancestors) .plain a b →
        s.PartsBegin (s.Accounted caseLevels) c a) ∧
      ∀ c a b, n.childOfKind? "namespace_export" = some c → s.Occurs c (n :: ancestors) .plain a b →
        s.PartsBegin (s.Accounted caseLevels) c a := by
  obtain ⟨word, hword, hspells, hown | ⟨hdefault, hdeclaration, hlisted | hall⟩⟩ := h.production
  · exact ⟨h.partsBegin_exportsOwn hword hspells hown, by simp [hown.1], by simp [hown.2.1]⟩
  · obtain ⟨hbegins, hnames⟩ :=
      h.partsBegin_exportsListed caseLevels hword hspells hdefault hdeclaration hlisted
    exact ⟨hbegins, hnames, by simp [hlisted.1]⟩
  · obtain ⟨hbegins, hnames⟩ :=
      h.partsBegin_exportsModule caseLevels hword hspells hdefault hdeclaration hall
    exact ⟨hbegins, by simp [hall.1], hnames⟩

end Occurs

end Source

end ScriptIndent
