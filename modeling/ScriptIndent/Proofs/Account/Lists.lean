import ScriptIndent.Proofs.Account.Kept

/-!
# ScriptIndent.Proofs.Account.Lists

The tokens of programs, blocks, lists and declarations.

```
[  a  ,  b  ]      the elements and the closing bracket are placed, the comma is passed over
```

The rules of lists differ in their delimiters and in what separates the elements.  What they have
in common is said once (`Source.Kept.listed`).
-/

namespace ScriptIndent

namespace Source

open Draft

variable {s : Source} {caseLevels : Int} {n c : Node} {ancestors : List Node} {i j k : Nat}

/-! ## delimited lists -/

theorem isCompound_of_wrapper (h : c.kind ∈ Node.wrapperKinds) : c.IsCompound := by
  have hall : ∀ kind ∈ Node.wrapperKinds,
      Node.isCommentKind kind = false ∧ Node.isLiteralKind kind = false := by decide
  exact hall c.kind h

theorem Stands.listed (hn : s.Stands n i j) (hcompound : n.IsCompound) {left right : String}
    {signs : List String} (hlist : n.Listed s.buffer left right signs)
    (hleft : Node.IsSpelling left) (hright : Node.IsSpelling right) :
    i + 2 ≤ j ∧ (∃ t, s.At (j - 1) t ∧ t.value = right ∧ t.kind = .ofLeaf right false right) ∧
      ∀ d ∈ n.parts, ∀ a b, s.Stands d a b → i < a → a < b →
        d ∈ n.codeChildren ∨ (∃ sign ∈ signs, d.Spells s.buffer sign) ∨ a = j - 1 := by
  obtain ⟨opening, inner, closing, hparts, hopening, hclosing, hinner⟩ := hlist
  obtain ⟨a, hopens, hrun⟩ := hn.standRun hcompound hparts (by simp)
  obtain ⟨b, hbetween, e, hcloses, rfl⟩ := hrun.append
  obtain rfl := (hopens.spells hopening hleft).1
  obtain ⟨rfl, t, ht⟩ := hcloses.spells hclosing hright
  have hle := hbetween.le
  refine ⟨by omega, ⟨t, ht⟩, fun d hd x y hstands hix hxy => ?_⟩
  have hd' := hd
  rw [hparts, List.mem_cons, List.mem_append, List.mem_singleton] at hd
  rcases hd with rfl | hd | rfl
  · have := (hstands.unique hxy hopens).1
    omega
  · refine (hinner d hd).imp (fun hcode => ?_) .inl
    exact Node.mem_codeChildren_of_parts hd' hcode
  · exact .inr (.inr (hstands.unique hxy hcloses).1.symm)

/-- The elements of a list and its closing delimiter are placed, if what separates the elements is
accounted for. -/
theorem Kept.listed {left right : String} {signs : List String} {base last : Token} {levels : Int}
    (h : s.Kept caseLevels (Draft.elements s n.codeChildren base (some last) levels))
    (hn : s.Stands n i j) (hcompound : n.IsCompound) (hlist : n.Listed s.buffer left right signs)
    (hleft : Node.IsSpelling left) (hright : Node.IsSpelling right) (hbase : s.At i base)
    (hlast : s.At (j - 1) last)
    (hsigns : ∀ d ∈ n.parts, ∀ sign ∈ signs, d.Spells s.buffer sign → ∀ a b, s.Stands d a b → a < b →
      s.Accounted caseLevels a) : s.PartsBegin (s.Accounted caseLevels) n i := by
  obtain ⟨hij, -, hparts⟩ := hn.listed hcompound hlist hleft hright
  intro d hd a b hstands hia hab
  rcases hparts d hd a b hstands hia hab with hmem | ⟨sign, hsign, hspells⟩ | rfl
  · exact h.element hmem hstands hab hbase (by omega)
  · exact hsigns d hd sign hsign hspells a b hstands hab
  · exact h.closing hlast hbase (by omega)

namespace Occurs

/-- The parts of a construct of one part at most. -/
theorem partsBegin_of_length_le {construct : Construct} (h : s.Occurs n ancestors construct i j)
    (hn : n.IsCompound) (hlength : n.parts.length ≤ 1) : s.PartsBegin (s.Accounted caseLevels) n i := by
  intro c hc a b hstands hia hab
  obtain ⟨d, hparts⟩ := List.length_eq_one_iff.1
    (Nat.le_antisymm hlength (List.length_pos_of_mem hc))
  obtain rfl : c = d := by simpa [hparts] using hc
  obtain ⟨_, hrun, -⟩ := h.stands.standRun hn hparts (by simp)
  have := (hstands.unique hab hrun).1
  omega

/-- Lists whose elements are separated by commas. -/
theorem partsBegin_of_commas {construct : Construct} (h : s.Occurs n ancestors construct i j)
    (hcompound : n.IsCompound) (hkind : n.kind ≠ "import_clause") {left right : String}
    (hlist : n.Listed s.buffer left right [","]) (hleft : Node.IsSpelling left)
    (hright : Node.IsSpelling right) {base last : Token} {levels : Int}
    (hkept : s.Kept caseLevels (Draft.elements s n.codeChildren base (some last) levels))
    (hbase : s.At i base) (hlast : s.At (j - 1) last) :
    s.PartsBegin (s.Accounted caseLevels) n i := by
  refine hkept.listed h.stands hcompound hlist hleft hright hbase hlast ?_
  intro d hd sign hsign hspells a b hstands hab
  obtain rfl := List.mem_singleton.1 hsign
  exact h.comma hkind hd hspells hstands hab caseLevels

/-- Lists of which the last token that passes a test is placed, as the closing delimiter does. -/
theorem partsBegin_of_last {construct : Construct} (h : s.Occurs n ancestors construct i j)
    (hcompound : n.IsCompound) (hkind : n.kind ≠ "import_clause") {left right : String}
    (hlist : n.Listed s.buffer left right [","]) (hleft : Node.IsSpelling left)
    (hright : Node.IsSpelling right) {keep : Token → Bool}
    (hkeep : ∀ t : Token, t.value = right → t.kind = .ofLeaf right false right → keep t = true)
    (hkept : s.Kept caseLevels (do
      let base ← first s n
      elements s n.codeChildren base (s.lastOfNode? n keep) 1)) :
    s.PartsBegin (s.Accounted caseLevels) n i := by
  obtain ⟨hij, ⟨last, hlast, hvalue, hsign⟩, -⟩ := h.stands.listed hcompound hlist hleft hright
  obtain ⟨base, hbase, hkept⟩ := hkept.first h.stands (by omega)
  rw [(h.stands.covers (by omega)).lastOfNode?_eq h.stands.ordered hlast (hkeep last hvalue hsign)]
    at hkept
  exact h.partsBegin_of_commas hcompound hkind hlist hleft hright hkept hbase hlast

theorem ne_import_clause {construct : Construct} (h : s.Occurs n ancestors construct i j)
    (hplain : construct ≠ .plain) : n.kind ≠ "import_clause" := by
  intro hkind
  have hrule := h.rule
  rw [hkind, show Construct.ofKind? "import_clause" = some .plain by decide] at hrule
  exact hplain (Option.some.inj hrule).symm

theorem partsBegin_arrayList (h : s.Occurs n ancestors .arrayList i j) :
    s.PartsBegin (s.Accounted caseLevels) n i :=
  h.partsBegin_of_last (h.isCompound (by simp) (by simp)) (h.ne_import_clause (by simp)) h.production
    (by decide) (by decide)
    (fun _ hvalue hkind => Rule.isPunctuator_of_value hvalue hkind (by decide)) (h.kept caseLevels)

theorem partsBegin_objectList (h : s.Occurs n ancestors .objectList i j) :
    s.PartsBegin (s.Accounted caseLevels) n i :=
  h.partsBegin_of_last (h.isCompound (by simp) (by simp)) (h.ne_import_clause (by simp)) h.production
    (by decide) (by decide)
    (fun _ hvalue hkind => Rule.isPunctuator_of_value hvalue hkind (by decide)) (h.kept caseLevels)

/-- A semicolon in the body of a class ends the field before it, or it is passed over. -/
theorem accounted_memberSemicolon (h : s.Occurs n ancestors .block i j) (hkind : n.kind = "class_body")
    (hc : c ∈ n.parts) (hspells : c.Spells s.buffer ";") {a b : Nat} (hstands : s.Stands c a b)
    (hab : a < b) : s.Accounted caseLevels a := by
  obtain rfl := (hstands.spells hspells (by decide)).1
  by_cases hfield : ∃ front d back, n.parts = front ++ d :: c :: back ∧ d.kind = "field_definition"
  · obtain ⟨front, d, back, hparts, hdkind⟩ := hfield
    have hrun := h.stands.standRun (h.isCompound (by simp) (by simp)) hparts (by simp)
    obtain ⟨k, -, l, hd, m, hcs, -⟩ := hrun.append
    obtain ⟨rfl, -⟩ := hstands.unique hab hcs
    have hmem : d ∈ n.codeChildren := by
      obtain ⟨opening, inner, closing, hlist, hopening, hclosing, hinner⟩ := h.production
      have hd : d ∈ opening :: (inner ++ [closing]) := hlist ▸ by simp [hparts]
      have hcode : d.IsCode := by
        simp only [List.mem_cons, List.mem_append, List.not_mem_nil, or_false] at hd
        rcases hd with rfl | hd | rfl
        · simp [hopening.kind_eq] at hdkind
        · refine (hinner d hd).resolve_right ?_
          rintro ⟨sign, hsign, hdspells⟩
          rw [if_pos hkind, List.mem_singleton] at hsign
          simp [hdspells.kind_eq, hsign] at hdkind
        · simp [hclosing.kind_eq] at hdkind
      exact Node.mem_codeChildren_of_parts (by simp [hparts]) hcode
    obtain ⟨other, hother⟩ := h.child hmem hd
    exact accounted_semicolon h.grammatical hother.place hd (by rw [hdkind]; decide)
      (h.stands.lt_of_mem hmem hd) (.inr ⟨hdkind, rfl⟩) h.within hc hspells hstands
  · push Not at hfield
    exact (PassedOver.member hkind hspells hfield).accounted h.within hc hstands hab caseLevels

theorem partsBegin_block (h : s.Occurs n ancestors .block i j) :
    s.PartsBegin (s.Accounted caseLevels) n i := by
  have hcompound := h.isCompound (by simp) (by simp)
  have hlist : n.BlockProduction s.buffer := h.production
  have hkept : s.Kept caseLevels (Rule.block s n) := h.kept caseLevels
  rw [Rule.block] at hkept
  obtain ⟨hij, -⟩ := h.stands.listed hcompound hlist (by decide) (by decide)
  obtain ⟨left, hleft, hkept⟩ := hkept.first h.stands (by omega)
  obtain ⟨right, hright, hkept⟩ := hkept.last h.stands (by omega)
  refine hkept.listed h.stands hcompound hlist (by decide) (by decide) hleft hright ?_
  intro d hd sign hsign hspells a b hstands hab
  split at hsign
  · next hkind =>
    obtain rfl := List.mem_singleton.1 hsign
    exact h.accounted_memberSemicolon hkind hd hspells hstands hab
  · cases hsign

/-! ## programs and declarations -/

theorem accounted_program (h : s.Occurs n ancestors .program i j) {a b : Nat} (hc : c ∈ n.codeChildren)
    (hstands : s.Stands c a b) : s.Accounted caseLevels a := by
  have hkept : s.Kept caseLevels (Rule.program s n) := h.kept caseLevels
  obtain ⟨token, htoken, hkept⟩ := (hkept.each hc).first hstands (h.stands.lt_of_mem hc hstands)
  exact hkept.entry (e := ⟨token, none, s.baseLevel token⟩) (List.mem_singleton_self _) htoken

theorem partsBegin_staticBlock (h : s.Occurs n ancestors .staticBlock i j) :
    s.PartsBegin (s.Accounted caseLevels) n i := by
  have hkept : s.Kept caseLevels (Rule.staticBlock s n) := h.kept caseLevels
  rw [Rule.staticBlock] at hkept
  obtain ⟨word, body, hword, hbody, hparts⟩ := h.production
  obtain ⟨k, hk, l, hl, rfl⟩ :=
    h.stands.standRun (h.isCompound (by simp) (by simp)) hparts (by simp)
  obtain rfl := hk.lexeme hword
  have hlt := h.stands.lt_of_mem hbody.2 hl
  obtain ⟨brace, hbrace, hkept⟩ := hkept.firstOf hbody.1 hl hlt
  obtain ⟨keyword, hkeyword, hkept⟩ := hkept.first h.stands (by omega)
  exact .of_run hparts hk ⟨_, hl, hkept.offset hbrace hkeyword (by omega), rfl⟩

theorem partsBegin_sequence (h : s.Occurs n ancestors .sequence i j) :
    s.PartsBegin (s.Accounted caseLevels) n i := by
  have hkept : s.Kept caseLevels (Rule.sequence s n) := h.kept caseLevels
  rw [Rule.sequence] at hkept
  obtain ⟨first, rest, hparts, hrest⟩ := h.production
  obtain ⟨k, hk, -⟩ := h.stands.standRun (h.isCompound (by simp) (by simp)) hparts (by simp)
  intro c hc a b hstands hia hab
  obtain ⟨left, hleft, hkept⟩ := hkept.first h.stands (h.lt hc hstands hab)
  have hmem := hc
  rw [hparts, List.mem_cons] at hmem
  rcases hmem with rfl | hmem
  · have := (hstands.unique hab hk).1
    omega
  rcases hrest c hmem with hcode | hspells
  · exact hkept.element (Node.mem_codeChildren_of_parts hc hcode) hstands hab hleft
      (by omega)
  · exact h.comma (h.ne_import_clause (by simp)) hc hspells hstands hab caseLevels

theorem partsBegin_declaration (h : s.Occurs n ancestors .declaration i j) :
    s.PartsBegin (s.Accounted caseLevels) n i := by
  have hkept : s.Kept caseLevels (Rule.declaration s n) := h.kept caseLevels
  rw [Rule.declaration] at hkept
  obtain ⟨word, rest, hparts, hword, hrest⟩ := h.production
  have hkinds := isStatementKind_of_mem h.rule (by decide)
  obtain ⟨k, hkj, ⟨l, hl, hrun⟩, hbegins⟩ :=
    h.terminated caseLevels (h.isCompound (by simp) (by simp)) hkinds.1 hkinds.2 hparts
  obtain rfl := hl.lexeme hword
  have hle := hrun.le
  obtain ⟨keyword, hkeyword, hkept⟩ := hkept.first h.stands (by omega)
  refine hbegins _ hl (Nat.lt_succ_self i) (hrun.runBegins fun c hc a b hka _ hstands => ?_)
  have hmem : c ∈ n.parts := by
    rcases hparts with hparts | ⟨_, -, hparts⟩ <;> simp [hparts, hc]
  rcases hrest c hc with ⟨hcode, hkind⟩ | hspells
  · have hcode := Node.mem_codeChildren_of_parts hmem hcode
    exact hkept.element (List.mem_filter.2 ⟨hcode, by simp [hkind]⟩) hstands
      (h.stands.lt_of_mem hcode hstands) hkeyword (by omega)
  · obtain rfl := (hstands.spells hspells (by decide)).1
    exact h.comma (h.ne_import_clause (by simp)) hmem hspells hstands (Nat.lt_succ_self a) caseLevels

theorem partsBegin_declarator (h : s.Occurs n ancestors .declarator i j) :
    s.PartsBegin (s.Accounted caseLevels) n i := by
  have hkept : s.Kept caseLevels (Rule.declarator s n) := h.kept caseLevels
  have hcompound := h.isCompound (by simp) (by simp)
  obtain ⟨name, hname, hparts | ⟨equals, value, hequals, hvalue, hparts⟩⟩ := h.production
  · obtain ⟨k, hk, rfl⟩ := h.stands.standRun hcompound hparts (by simp)
    exact .of_run hparts hk rfl
  · obtain ⟨k, hk, l, hl, m, hm, rfl⟩ := h.stands.standRun hcompound hparts (by simp)
    obtain rfl := (hl.spells hequals (by decide)).1
    obtain ⟨other, -, hother, -⟩ := h.shape value hvalue.1
    obtain rfl := Option.mem_unique hname hother.1
    have hik := h.stands.lt_of_mem hother.2 hk
    have hlm := hm.le
    rw [Rule.declarator, if_neg (by simp [hvalue.1])] at hkept
    obtain ⟨id, hid, hkept⟩ := hkept.first h.stands (by omega)
    obtain ⟨sign, hsign, hkept⟩ := (hkept.part hname).require
    have hat : s.At k sign := (hk.ends hik).after?_eq.symm.trans hsign
    exact .of_run hparts hk ⟨_, hl, hkept.offsets (by simp) hat hid (by omega), _, hm,
      hkept.offsets_after (by simp) hat hid (by omega), rfl⟩

end Occurs

end Source

end ScriptIndent
