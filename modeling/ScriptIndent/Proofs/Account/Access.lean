import ScriptIndent.Proofs.Account.Functions
import ScriptIndent.Proofs.Rule.Templates

/-!
# ScriptIndent.Proofs.Account.Access

The tokens of accesses, calls, creations and template literals.

```
a ?. b [ 0 ] ?. ( c )        the signs of the links and the delimiters are placed
`a${ b }c`                   so are the texts behind the first, and what is put in begins
```
-/

namespace ScriptIndent

namespace Source

open Draft

variable {s : Source} {caseLevels : Int} {n c : Node} {ancestors : List Node} {i j k l a b m : Nat}

private theorem mem_betweenWhere {x y : Anchor} {keep : Token → Bool} {t : Token} (hx : s.Ends x i k)
    (hy : s.Ends y l j) (ht : s.At m t) (hkm : k ≤ m) (hml : m < l) (hkeep : keep t = true) :
    t ∈ s.betweenWhere keep x y := by
  have hmem := mem_between hx hy ht hkm hml
  rw [between, hx.betweenWhere_eq hy] at hmem
  rw [hx.betweenWhere_eq hy]
  exact List.mem_filter.2 ⟨(List.mem_filter.1 hmem).1, hkeep⟩

/-- The signs of optional links are found between two anchors. -/
theorem Kept.optional {x y : Anchor} {base : Token} {links : List Node} {levels : Int}
    (hkept : s.Kept caseLevels
      (Draft.offsets (s.betweenWhere Token.isOptionalChain x y) levels base))
    (hlinks : ∀ c ∈ links, c.IsOptionalSign s.buffer) (hrun : s.StandRun links k l)
    (hx : s.Ends x i k) (hy : s.Ends y l j) (hbase : s.At m base) (hmk : m < k) :
    s.RunBegins (s.Accounted caseLevels) links k l := by
  refine hrun.runBegins fun c hc a b hka hbl hstands => ?_
  obtain ⟨rfl, t, ht, hsign⟩ := hstands.of_isOptionalSign (hlinks c hc)
  exact hkept.offsets (mem_betweenWhere hx hy ht hka hbl hsign) ht hbase (by omega)

namespace Occurs

theorem partsBegin_access (h : s.Occurs n ancestors .member i j) :
    s.PartsBegin (s.Accounted caseLevels) n i := by
  have hkept : s.Kept caseLevels (Rule.access s n) := h.kept caseLevels
  rw [Rule.access] at hkept
  obtain ⟨object, link, property, hobject, hlink, hproperty, hparts⟩ := h.production
  obtain ⟨k, hk, l, hl, m, hm, rfl⟩ :=
    h.stands.standRun (h.isCompound (by simp) (by simp)) hparts (by simp)
  have hik := h.stands.lt_of_mem hobject.2 hk
  have hlm := h.stands.lt_of_mem hproperty.2 hm
  obtain rfl : l = k + 1 := by
    rcases hlink with hspells | ⟨hkind, hcode, hchildren⟩
    · exact (hl.spells hspells (by decide)).1
    · exact (hl.leaf (h.lt_of_isCode (by simp [hparts]) hcode hl) (by rw [hkind]; decide)
        (by simp [hchildren])).1
  obtain ⟨token, htoken, hkept⟩ := hkept.first h.stands (by omega)
  obtain ⟨dot, hdot, hkept⟩ := (hkept.part hproperty.1).require
  rw [(hm.ends hlm).before?_eq, if_neg (by omega)] at hdot
  exact .of_run hparts hk ⟨_, hl, hkept.offsets (by simp) hdot htoken (by omega), _, hm,
    hkept.offsets_after (by simp) hdot htoken (by omega), rfl⟩

theorem partsBegin_metaProperty (h : s.Occurs n ancestors .metaProperty i j) :
    s.PartsBegin (s.Accounted caseLevels) n i := by
  have hkept : s.Kept caseLevels (Rule.metaProperty s n) := h.kept caseLevels
  obtain ⟨word, dot, name, hword, hdot, hname, hparts⟩ := h.production
  obtain ⟨k, hk, l, hl, m, hm, rfl⟩ :=
    h.stands.standRun (h.isCompound (by simp) (by simp)) hparts (by simp)
  obtain rfl := hk.token hword
  obtain rfl := hl.token hdot
  obtain rfl := hm.token hname
  obtain ⟨first, hfirst⟩ := hk.exists_at (Nat.lt_succ_self i)
  obtain ⟨second, hsecond⟩ := hl.exists_at (Nat.lt_succ_self _)
  obtain ⟨third, hthird⟩ := hm.exists_at (Nat.lt_succ_self _)
  have htokens : s.tokensOf n = [first, second, third] := by
    rw [(h.stands.ends (by omega)).tokensOf_eq, toList_extract_split (by omega : i ≤ i + 1) (by omega),
      toList_extract_split (by omega : i + 1 ≤ i + 1 + 1) (by omega), toList_extract_succ hfirst,
      toList_extract_succ hsecond, toList_extract_succ hthird]
    rfl
  rw [Rule.metaProperty, htokens] at hkept
  exact .of_run hparts hk ⟨_, hl, hkept.offsets (by simp) hsecond hfirst (by omega), _, hm,
    hkept.offsets (by simp) hthird hfirst (by omega), rfl⟩

/-- The parts of a creation, and those of its arguments. -/
theorem partsBegin_creation (h : s.Occurs n ancestors .creation i j) :
    s.PartsBegin (s.Accounted caseLevels) n i ∧ ∀ c a b, n.field? "arguments" = some c →
      c.kind = "arguments" → s.Occurs c (n :: ancestors) .plain a b →
        s.PartsBegin (s.Accounted caseLevels) c a := by
  have hkept : s.Kept caseLevels (Rule.creation s n) := h.kept caseLevels
  rw [Rule.creation] at hkept
  obtain ⟨word, callee, hword, hcallee, hparts⟩ := h.production
  obtain ⟨_, -, harguments⟩ := h.shape
  obtain ⟨_, hk, l, hl, hrun⟩ :=
    h.stands.standRun (h.isCompound (by simp) (by simp)) hparts (by simp)
  obtain rfl := hk.lexeme hword
  have hlt := h.stands.lt_of_mem hcallee.2 hl
  have hle := hrun.le
  obtain ⟨keyword, hkeyword, hkept⟩ := hkept.first h.stands (by omega)
  obtain ⟨constructed, hconstructed, hkept⟩ := hkept.firstOf hcallee.1 hl hlt
  obtain ⟨hplaced, hkept⟩ := hkept.next
  have hfirst := hplaced.offset hconstructed hkeyword (by omega)
  cases hfield : n.field? "arguments" with
  | none =>
    rw [hfield] at hrun hparts
    exact ⟨.of_run (j := j) hparts hk ⟨_, hl, hfirst, hrun⟩, by simp⟩
  | some arguments =>
    rw [hfield] at hrun hparts hkept
    obtain ⟨m, hm, rfl⟩ := hrun
    have hlm := h.stands.lt_of_mem (harguments arguments hfield).1 hm
    obtain ⟨left, hleft, hkept⟩ := hkept.first hm hlm
    obtain ⟨right, hright, hkept⟩ := hkept.last hm hlm
    obtain ⟨hopens, hlist⟩ := hkept.next
    refine ⟨.of_run hparts hk ⟨_, hl, hfirst, _, hm, hopens.offset hleft hconstructed (by omega), rfl⟩,
      fun c a b hc hkind hoccurs => ?_⟩
    obtain rfl := Option.some.inj hc
    obtain ⟨rfl, rfl⟩ := hm.unique hlm hoccurs.stands
    exact hlist.parenthesized (.inl hkind) hoccurs hleft hright

theorem partsBegin_subscript (h : s.Occurs n ancestors .subscript i j) :
    s.PartsBegin (s.Accounted caseLevels) n i := by
  have hkept : s.Kept caseLevels (Rule.subscript s n) := h.kept caseLevels
  rw [Rule.subscript] at hkept
  obtain ⟨object, links, opening, index, closing, hobject, hlinks, hopening, hindex, hclosing, hparts⟩ :=
    h.production
  obtain ⟨k, hk, hrun⟩ :=
    h.stands.standRun (h.isCompound (by simp) (by simp)) hparts (by simp)
  obtain ⟨l, hsigns, _, hl, m, hm, _, he, rfl⟩ := hrun.append
  obtain ⟨rfl, bracket, hbracket, hvalue, hkind⟩ := hl.spells hopening (by decide)
  obtain ⟨rfl, right, hright, hrvalue, hrkind⟩ := he.spells hclosing (by decide)
  have hopens : bracket.isOpeningBracket = true := Rule.isPunctuator_of_value hvalue hkind (by decide)
  have hcloses : right.isClosingBracket = true := Rule.isPunctuator_of_value hrvalue hrkind (by decide)
  have hik := h.stands.lt_of_mem hobject.2 hk
  have hkl := hsigns.le
  have hlm := h.stands.lt_of_mem hindex.2 hm
  obtain ⟨token, htoken, hkept⟩ := hkept.first h.stands (by omega)
  obtain ⟨left, hleft, hkept⟩ := (hkept.part hindex.1).require
  rw [(hm.ends hlm).beforeWhere?_eq, scanDown, show s.tokens[l]? = some bracket from hbracket,
    Option.filter_some, if_pos hopens] at hleft
  obtain rfl := Option.some.inj hleft
  rw [(hm.ends hlm).afterWhere?_eq_some hright hcloses] at hkept
  have hkept := hkept.part hobject.1
  obtain ⟨hoptional, hkept⟩ := hkept.next
  obtain ⟨hplaced, hlist⟩ := hkept.next
  exact .of_run hparts hk ((hoptional.optional hlinks hsigns (hk.ends hik) (ends_token hbracket) htoken
    hik).append ⟨_, hl, hplaced.offset hbracket htoken (by omega), _, hm,
      hlist.element (by simp) hm hlm hbracket (by omega), _, he,
      hlist.closing hright hbracket (by omega), rfl⟩)

/-- The parts of a call, and those of its arguments. -/
theorem partsBegin_call (h : s.Occurs n ancestors .call i j) :
    s.PartsBegin (s.Accounted caseLevels) n i ∧ ∀ c a b, n.field? "arguments" = some c →
      c.kind = "arguments" → s.Occurs c (n :: ancestors) .plain a b →
        s.PartsBegin (s.Accounted caseLevels) c a := by
  have hkept : s.Kept caseLevels (Rule.call s n) := h.kept caseLevels
  obtain ⟨callee, links, arguments, hcallee, hlinks, harguments, htemplate, hparts⟩ := h.production
  obtain ⟨k, hk, hrun⟩ :=
    h.stands.standRun (h.isCompound (by simp) (by simp)) hparts (by simp)
  obtain ⟨l, hsigns, m, hm, rfl⟩ := hrun.append
  have hik := h.stands.lt_of_mem hcallee.2 hk
  have hkl := hsigns.le
  have hlm := h.stands.lt_of_mem harguments.2 hm
  rw [Rule.call, harguments.1] at hkept
  by_cases hkind : arguments.kind = "template_string"
  · obtain rfl := htemplate hkind
    obtain rfl : k = l := hsigns
    dsimp only at hkept
    rw [if_pos (by simpa using hkind)] at hkept
    obtain ⟨token, htoken, hkept⟩ := hkept.first hm hlm
    obtain ⟨tag, htag, hkept⟩ := hkept.firstOf hcallee.1 hk hik
    refine ⟨.of_run hparts hk ⟨_, hm, hkept.offset htoken htag (by omega), rfl⟩,
      fun c a b hc hother _ => ?_⟩
    obtain rfl := Option.mem_unique harguments.1 hc
    simp [hkind] at hother
  · dsimp only at hkept
    rw [if_neg (by simpa using hkind)] at hkept
    obtain ⟨token, htoken, hkept⟩ := hkept.first h.stands (by omega)
    obtain ⟨left, hleft, hkept⟩ := hkept.first hm hlm
    obtain ⟨right, hright, hkept⟩ := hkept.last hm hlm
    have hkept := hkept.part hcallee.1
    obtain ⟨hoptional, hkept⟩ := hkept.next
    obtain ⟨hplaced, hlist⟩ := hkept.next
    refine ⟨.of_run hparts hk ((hoptional.optional hlinks hsigns (hk.ends hik) (ends_token hleft) htoken
      hik).append ⟨_, hm, hplaced.offset hleft htoken (by omega), rfl⟩), fun c a b hc hkind hoccurs => ?_⟩
    obtain rfl := Option.mem_unique harguments.1 hc
    obtain ⟨rfl, rfl⟩ := hm.unique hlm hoccurs.stands
    exact hlist.parenthesized (.inl hkind) hoccurs hleft hright

end Occurs

/-! ## template literals -/

/-- Behind the first text of a template, each place is that of a text or in a substitution. -/
theorem Threads.exists_substitutes {subs : List Node} {texts : List Token}
    (h : s.Threads subs texts i j) (hik : i < k) (hkj : k ≤ j) :
    ∃ c ∈ subs, ∃ a b, s.Substitutes c a (b + 1) ∧ i ≤ a ∧ a < k ∧ k ≤ b ∧ b ≤ j := by
  induction h with
  | text => omega
  | @cons c rest t texts i l j at_text kind_eq substitutes tail ih =>
    have hle := tail.le
    rcases Nat.lt_or_ge l k with hlk | hkl
    · obtain ⟨d, hd, a, b, hsub, hla, hak, hkb, hbj⟩ := ih hlk hkj
      have := substitutes.stop_eq
      exact ⟨d, List.mem_cons_of_mem c hd, a, b, hsub, by omega, hak, hkb, hbj⟩
    · exact ⟨c, List.mem_cons_self, i, l, substitutes, Nat.le_refl i, hik, hkl, hle⟩

/-- All places of a template behind the first are accounted for, if those within what it puts in
are. -/
theorem Occurs.accounted_templateLiteral (h : s.Occurs n ancestors .templateLiteral i j)
    (hinside : ∀ c ∈ Node.substitutions n.children, ∀ e, c.PutsIn e → ∀ a b, s.Stands e a b →
      ∀ k, a < k → k < b → s.Accounted caseLevels k) :
    ∀ k, i < k → k < j → s.Accounted caseLevels k := by
  intro k hik hkj
  have hkept : s.Kept caseLevels (Rule.templateLiteral s n) := h.kept caseLevels
  have hkind : n.kind = "template_string" := by
    simpa [Construct.ruledKinds] using Rule.mem_ruledKinds h.rule (by simp)
  obtain ⟨texts, last, hthreads, rfl⟩ := h.stands.exists_threads (by omega) hkind
  obtain ⟨first, rest, rfl⟩ := List.exists_cons_of_length_eq_add_one hthreads.length_eq
  obtain ⟨tokens, hresult, htokens⟩ :=
    Rule.exists_substitutedFirsts (s := s) (hthreads.isSome_first h.stands)
  rw [Rule.templateLiteral] at hkept
  obtain ⟨start, hstart, hkept⟩ := hkept.first h.stands (by omega)
  change s.Kept caseLevels (Rule.substitutedFirsts s (Node.substitutions n.children) >>= _) at hkept
  rw [hresult, pure_bind] at hkept
  obtain ⟨hbehind, hfirsts⟩ := hkept.next
  obtain ⟨c, hc, a, b, hsub, hia, hak, hkb, hbj⟩ := hthreads.exists_substitutes hik (by omega)
  obtain ⟨hmem, hckind⟩ := List.mem_filter.1 hc
  have hcovers := hsub.covers
  rcases Nat.eq_or_lt_of_le hkb with rfl | hlt
  · obtain ⟨text, htext⟩ := h.stands.exists_at hkj
    have hlast : s.lastOfNode? c Token.isAny = some text :=
      (hcovers.last?_eq h.stands.ordered).trans htext
    exact hbehind.offsets (List.mem_filterMap.2 ⟨c, hc, hlast⟩) htext hstart (by omega)
  · have hproduction : n.TemplateProduction := h.production
    obtain ⟨e, he⟩ := hproduction c hmem (by simpa using hckind)
    obtain ⟨hstands, -⟩ := hsub.stands_expression he h.stands.ordered fun m hm =>
      h.stands.hasToken m (hm.within.trans_below (.of_mem hmem))
    rcases Nat.eq_or_lt_of_le hak with rfl | hak
    · obtain ⟨opening, hopening⟩ := h.stands.exists_at (k := a) (by omega)
      obtain ⟨token, htoken⟩ := h.stands.exists_at hkj
      have hfirst : s.firstOfNode? c = some opening :=
        (hcovers.first?_eq h.stands.ordered).trans hopening
      exact hfirsts.offsets ((htokens token).2 ⟨c, hc, opening, hfirst,
        (ends_token hopening).after?_eq.trans htoken⟩) htoken hstart (by omega)
    · exact hinside c hc e he _ _ hstands k hak hlt

end Source

end ScriptIndent
