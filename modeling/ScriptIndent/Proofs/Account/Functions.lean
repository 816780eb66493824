import ScriptIndent.Proofs.Account.Control
import ScriptIndent.Proofs.Rule.Delimited
import ScriptIndent.Proofs.Rule.Modules

/-!
# ScriptIndent.Proofs.Account.Functions

The tokens of functions, classes and members.

```
async function * f ( a , b ) { }       the words before the parameters, the parameters,
static get [ a ] ( ) { }               the modifiers and the key are placed
```

The parameters, a computed key and the heritage of a class are placed by the rule of the construct
around them.
-/

namespace ScriptIndent

/-- All tokens between the start of a function and its parameters have a level, unless there are
type parameters. -/
theorem Rule.exists_mem_headLevels (name : Option Node) (levels : Int) {ts : List Token}
    (h : ∀ t ∈ ts, t.value ≠ "<") {t : Token} (ht : t ∈ ts) :
    ∃ l, (t, l) ∈ headLevels name levels ts := by
  induction ts generalizing levels with
  | nil => cases ht
  | cons u rest ih =>
    obtain ⟨hu, hrest⟩ := List.forall_mem_cons.1 h
    rw [headLevels, if_neg (by simpa using hu)]
    rcases List.mem_cons.1 ht with rfl | ht
    · exact ⟨_, List.mem_cons_self⟩
    · obtain ⟨l, hl⟩ := ih _ hrest ht
      exact ⟨l, List.mem_cons_of_mem _ hl⟩

namespace Source

open Draft

variable {s : Source} {caseLevels : Int} {n c : Node} {ancestors : List Node} {i j k l a b m : Nat}

theorem mem_between {x y : Anchor} {t : Token} (hx : s.Ends x i k) (hy : s.Ends y l j)
    (ht : s.At m t) (hkm : k ≤ m) (hml : m < l) : t ∈ s.between x y := by
  obtain ⟨hrow, hlength⟩ := Rule.row_between hx hy
  exact List.mem_of_getElem? (hrow.mem_of_at ht hkm (by omega))

/-- The delimiters of a list of parameters. -/
theorem Kept.parenthesized {levels : Int} {left right : Token}
    (hkept : s.Kept caseLevels (Draft.elements s c.codeChildren left (some right) levels))
    (hkind : c.kind = "arguments" ∨ c.kind = "formal_parameters")
    (hc : s.Occurs c ancestors .plain a b) (hleft : s.At a left) (hright : s.At (b - 1) right) :
    s.PartsBegin (s.Accounted caseLevels) c a := by
  have hplain : c.PlainProduction s.buffer := hc.production
  have hcompound : c.IsCompound :=
    isCompound_of_wrapper (by rcases hkind with h | h <;> rw [h] <;> decide)
  have hother : c.kind ≠ "import_clause" := by rcases hkind with h | h <;> rw [h] <;> decide
  exact hc.partsBegin_of_commas hcompound hother (hplain.arguments hkind) (by decide) (by decide)
    hkept hleft
    hright

/-- The closing parenthesis of the parameters of an arrow function is found from their last one. -/
theorem Stands.afterWhere?_parameters (hc : s.Stands c a b) (hkind : c.kind = "formal_parameters")
    (hlist : c.Listed s.buffer "(" ")" [","]) :
    ∃ left right, s.At a left ∧ s.At (b - 1) right ∧ left.isOpeningParen = true ∧
      s.afterWhere? Token.isClosingParen (c.codeChildren.getLast?.elim left .node) = some right := by
  have hcompound : c.IsCompound := isCompound_of_wrapper (by rw [hkind]; decide)
  obtain ⟨-, ⟨t, ht, hvalue, hsign⟩, -⟩ := hc.listed hcompound hlist (by decide) (by decide)
  obtain ⟨opening, items, closing, hparts, hopening, hclosing, hitems⟩ := hlist
  have hitem : ∀ d ∈ items, d.IsCode ∨ d.Spells s.buffer "," := by
    intro d hd
    rcases hitems d hd with hcode | ⟨sign, hmem, hspells⟩
    · exact .inl hcode
    · exact .inr (List.mem_singleton.1 hmem ▸ hspells)
  have hdelimited : c.Delimited s.buffer opening closing items :=
    { parts_eq := hparts
      delimiters := ⟨("(", ")"), by decide, hopening, hclosing⟩
      item_cases := fun d hd => (hitem d hd).imp_right .inl
      begins := fun hclass => by simp [hkind] at hclass }
  obtain ⟨m, left, right, rfl, hdelimits, hfirst, -⟩ := hc.exists_delimits hcompound hdelimited
  obtain rfl := Option.mem_unique hdelimits.right_at ht
  have hrun := hc.standRun hcompound hparts (by simp)
  obtain ⟨k, hk, -⟩ := hrun
  obtain ⟨rfl, u, hu, huvalue, husign⟩ := hk.spells hopening (by decide)
  obtain rfl := Option.mem_unique hdelimits.left_at hu
  exact ⟨left, right, hu, ht, Rule.isPunctuator_of_value huvalue husign (by decide),
    hdelimits.afterWhere?_eq hdelimited (Rule.isPunctuator_of_value hvalue hsign (by decide))⟩

private theorem kept_arrowParameters {o : Option Token} {d : Draft Unit}
    (hkept : s.Kept caseLevels (match o.filter Token.isOpeningParen with
      | none => d
      | some left => do
        Rule.arrowParameters s n left
        d)) :
    s.Kept caseLevels d ∧ ∀ left, o = some left → left.isOpeningParen = true →
      s.Kept caseLevels (Rule.arrowParameters s n left) := by
  cases hfilter : o.filter Token.isOpeningParen with
  | none =>
    rw [hfilter] at hkept
    refine ⟨hkept, fun left hleft hopening => ?_⟩
    simp [hleft, hopening] at hfilter
  | some token =>
    rw [hfilter] at hkept
    refine ⟨hkept.next.2, fun left hleft hopening => ?_⟩
    rw [hleft, Option.filter_some, if_pos hopening] at hfilter
    obtain rfl := Option.some.inj hfilter
    exact hkept.next.1

namespace Occurs

/-! ## functions -/

/-- The parts of a function, and those of its parameters. -/
theorem partsBegin_function (h : s.Occurs n ancestors .function i j) :
    s.PartsBegin (s.Accounted caseLevels) n i ∧ ∀ c a b, n.field? "parameters" = some c →
      c.kind = "formal_parameters" → s.Occurs c (n :: ancestors) .plain a b →
        s.PartsBegin (s.Accounted caseLevels) c a := by
  have hkept : s.Kept caseLevels (Rule.function s n) := h.kept caseLevels
  rw [Rule.function] at hkept
  obtain ⟨word, words, parameters, body, hword, hwords, hparameters, hbody, hparts⟩ := h.production
  obtain ⟨_, hk, hrun⟩ :=
    h.stands.standRun (h.isCompound (by simp) (by simp)) hparts (by simp)
  obtain rfl := hk.lexeme hword
  obtain ⟨l, hbetween, m, hl, e, he, rfl⟩ := hrun.append
  have hle := hbetween.le
  have hlm := h.stands.lt_of_mem hparameters.2 hl
  have hme := h.stands.lt_of_mem hbody.2 he
  obtain ⟨keyword, hkeyword, hkept⟩ := hkept.first h.stands (by omega)
  obtain ⟨left, hleft, hkept⟩ := (hkept.part hparameters.1).first hl hlm
  obtain ⟨hhead, hkept⟩ := hkept.next
  obtain ⟨right, hright, hkept⟩ := hkept.last hl hlm
  obtain ⟨hplaced, hkept⟩ := hkept.next
  obtain ⟨hlist, hkept⟩ := hkept.next
  -- no word before the parameters is an angle bracket
  have hvalues : ∀ t ∈ s.between keyword left, t.value ≠ "<" := by
    intro t ht hvalue
    obtain ⟨k, hik, hkl, hat⟩ := Rule.exists_at_of_mem_between (ends_token hkeyword) (ends_token hleft) ht
    obtain ⟨c, hc, x, y, hstands, hxk, hky⟩ := hbetween.exists_mem hik hkl
    have hy := hstands.token (hwords c hc).1
    obtain rfl : x = k := by omega
    exact (hwords c hc).2 (hvalue ▸ hstands.begins hky hat)
  refine ⟨.of_run hparts hk ((hbetween.runBegins fun c hc a b hia hbl hstands => ?_).append
    ⟨_, hl, hplaced.offset hleft hkeyword (by omega), _, he,
      hkept.bodyOf hbody.1 he hme hkeyword (by omega), rfl⟩), fun c a b hfield hkind hc => ?_⟩
  · have hb := hstands.token (hwords c hc).1
    obtain ⟨t, ht⟩ := hstands.exists_at (show a < b by omega)
    obtain ⟨levels, hmem⟩ := Rule.exists_mem_headLevels (n.field? "name") 0 hvalues
      (mem_between (ends_token hkeyword) (ends_token hleft) ht hia (by omega))
    exact (hhead.each hmem).offset ht hkeyword (by omega)
  · obtain rfl := Option.mem_unique hparameters.1 hfield
    obtain ⟨rfl, rfl⟩ := hl.unique hlm hc.stands
    exact hlist.parenthesized (.inr hkind) hc hleft hright

/-- The parts of the parameters of an arrow function that are in parentheses. -/
theorem partsBegin_arrowParameters (hc : s.Occurs c (n :: ancestors) .plain a b)
    (hfield : n.field? "parameters" = some c) (hkind : c.kind = "formal_parameters") {t : Token}
    (ht : s.At a t)
    (hkept : t.isOpeningParen = true → s.Kept caseLevels (Rule.arrowParameters s n t)) :
    s.PartsBegin (s.Accounted caseLevels) c a := by
  have hplain : c.PlainProduction s.buffer := hc.production
  obtain ⟨left, right, hleft, hright, hopening, hafter⟩ :=
    hc.stands.afterWhere?_parameters hkind (hplain.arguments (.inr hkind))
  obtain rfl := Option.mem_unique hleft ht
  have helements := hkept hopening
  rw [Rule.arrowParameters, hfield, Option.elim_some, hafter] at helements
  exact helements.parenthesized (.inr hkind) hc hleft hright

/-- The parts of an arrow function, and those of its parameters. -/
theorem partsBegin_arrow (h : s.Occurs n ancestors .arrow i j) :
    s.PartsBegin (s.Accounted caseLevels) n i ∧ ∀ c a b, n.field? "parameters" = some c →
      c.kind = "formal_parameters" → s.Occurs c (n :: ancestors) .plain a b →
        s.PartsBegin (s.Accounted caseLevels) c a := by
  have hkept : s.Kept caseLevels (Rule.arrow s n) := h.kept caseLevels
  have hcompound := h.isCompound (by simp) (by simp)
  obtain ⟨parameters, sign, body, hparameters, hsign, hbody, hparts, hlist⟩ := h.shape
  obtain ⟨m, k, hm, hk, he, hasync⟩ := Rule.arrow_places h.stands hcompound hparts hsign
  have hmk := h.stands.lt_of_mem hparameters hm
  have hkj := h.stands.lt_of_mem hbody.2 he
  have him : i ≤ m := by omega
  obtain ⟨-, mark, hmark, hvalue, hmarkKind⟩ := hk.spells hsign (by decide)
  obtain ⟨head, second, hhead, hsecond, hfirsts⟩ := h.stands.exists_firsts (by omega)
  rw [Rule.arrow, hfirsts] at hkept
  obtain ⟨arrow, harrow, hkept⟩ := (hkept.part hbody.1).require
  have hisArrow : mark.isArrow = true := Rule.isPunctuator_of_value hvalue hmarkKind (by decide)
  rw [(he.ends hkj).beforeWhere?_eq, scanDown, show s.tokens[k]? = some mark from hmark,
    Option.filter_some, if_pos hisArrow] at harrow
  obtain rfl := Option.some.inj harrow
  -- the parentheses, the sign and the body, wherever the parameters begin
  have hrest {o : Option Token} (ho : ∃ t, o = some t ∧ s.At m t)
      (hkept : s.Kept caseLevels (match o.filter Token.isOpeningParen with
        | none => do
          offset mark 1 head
          Rule.body s body head
        | some left => do
          Rule.arrowParameters s n left
          offset mark 1 head
          Rule.body s body head)) :
      s.RunBegins (s.Accounted caseLevels) [sign, body] k j ∧ ∀ c a b,
        n.field? "parameters" = some c → c.kind = "formal_parameters" →
          s.Occurs c (n :: ancestors) .plain a b → s.PartsBegin (s.Accounted caseLevels) c a := by
    obtain ⟨hkept, hinner⟩ := kept_arrowParameters hkept
    obtain ⟨hplaced, hkept⟩ := hkept.next
    refine ⟨⟨_, hk, hplaced.offset hmark hhead (by omega), _, he,
      hkept.body he hkj hhead (by omega), rfl⟩, fun c a b hfield hkind hc => ?_⟩
    rw [hfield] at hlist
    obtain ⟨rfl, -⟩ := hlist
    obtain ⟨rfl, rfl⟩ := hm.unique hmk hc.stands
    obtain ⟨t, rfl, ht⟩ := ho
    exact hc.partsBegin_arrowParameters hfield hkind ht (hinner t rfl)
  rcases hasync with ⟨hasync, rfl⟩ | ⟨hasync, rfl⟩
  · simp only [hasync, Bool.false_eq_true, if_false] at hkept
    obtain ⟨hbegins, hall⟩ := hrest ⟨head, rfl, hhead⟩ hkept
    rcases hparts with ⟨hparts, -⟩ | ⟨async, hfirst, hspells, -⟩
    · exact ⟨.of_run hparts hm hbegins, hall⟩
    · simp [hfirst, hspells.kind_eq] at hasync
  · simp only [hasync, if_true] at hkept
    obtain ⟨hplaced, hkept⟩ := hkept.next
    obtain ⟨hbegins, hall⟩ := hrest ⟨second, rfl, hsecond⟩ hkept
    rcases hparts with ⟨hparts, hkind⟩ | ⟨async, hfirst, hspells, hparts⟩
    · simp [Rule.head_isNotAsync hparts hkind] at hasync
    · obtain ⟨x, hx, -⟩ := h.stands.standRun hcompound hparts (by simp)
      obtain rfl := (hx.spells hspells (by decide)).1
      exact ⟨.of_run hparts hx
        ⟨_, hm, hplaced.offsets (by simp) hsecond hhead (by omega), hbegins⟩, hall⟩

/-! ## members -/

/-- The modifiers and the key of a member are placed, and so is what a computed key holds. -/
theorem kept_memberKey {construct : Construct} (h : s.Occurs n ancestors construct i j)
    {name : String} {key : Node} (hkey : n.IsPart name key) (hstands : s.Stands key k l) (hik : i ≤ k)
    {start : Token} (hstart : s.At i start) {d : Token → Draft Unit}
    (hkept : s.Kept caseLevels (Rule.memberKey s start (n.field? name) >>= d)) :
    (∃ last, s.At (l - 1) last ∧ s.Kept caseLevels (d last)) ∧
      (∀ m, i < m → m ≤ k → s.Accounted caseLevels m) ∧ ∀ c a b, n.field? name = some c →
        c.kind = "computed_property_name" → s.Occurs c (n :: ancestors) .plain a b →
          s.PartsBegin (s.Accounted caseLevels) c a := by
  have hkl := h.stands.lt_of_mem hkey.2 hstands
  rw [Rule.memberKey, bind_assoc] at hkept
  have hkept := hkept.part hkey.1
  -- what stands before the key, and the key
  have hfront {token : Token} (htoken : s.At k token)
      (hbetween : s.Kept caseLevels (offsets (s.between start token) 0 start))
      (hplaced : s.Kept caseLevels (offset token 0 start)) (m : Nat) (him : i < m) (hmk : m ≤ k) :
      s.Accounted caseLevels m := by
    rcases Nat.eq_or_lt_of_le hmk with rfl | hlt
    · exact hplaced.offset htoken hstart (by omega)
    · obtain ⟨t, ht⟩ := hstands.exists_at (k := m) (by omega)
      exact hbetween.offsets (mem_between (ends_token hstart) (ends_token htoken) ht him hlt) ht hstart
        (by omega)
  by_cases hcomputed : key.kind = "computed_property_name"
  · rw [if_pos (by simpa using hcomputed), bind_assoc] at hkept
    obtain ⟨left, hleft, hkept⟩ := hkept.first hstands hkl
    rw [bind_assoc] at hkept
    obtain ⟨right, hright, hkept⟩ := hkept.last hstands hkl
    rw [bind_assoc] at hkept
    obtain ⟨hbetween, hkept⟩ := hkept.next
    rw [bind_assoc] at hkept
    obtain ⟨hplaced, hkept⟩ := hkept.next
    rw [bind_assoc] at hkept
    obtain ⟨hlist, hkept⟩ := hkept.next
    refine ⟨⟨right, hright, hkept⟩, hfront hleft hbetween hplaced, fun c a b hfield hkind hc => ?_⟩
    obtain rfl := Option.mem_unique hkey.1 hfield
    obtain ⟨rfl, rfl⟩ := hstands.unique hkl hc.stands
    have hplain : key.PlainProduction s.buffer := hc.production
    exact hlist.listed hstands (isCompound_of_wrapper (by rw [hkind]; decide)) (hplain.key hkind)
      (by decide) (by decide) hleft hright fun _ _ _ hsign => by cases hsign
  · rw [if_neg (by simpa using hcomputed), bind_assoc] at hkept
    obtain ⟨token, htoken, hkept⟩ := hkept.first hstands hkl
    rw [bind_assoc] at hkept
    obtain ⟨hbetween, hkept⟩ := hkept.next
    rw [bind_assoc] at hkept
    obtain ⟨hplaced, hkept⟩ := hkept.next
    refine ⟨hkept.last hstands hkl, hfront htoken hbetween hplaced, fun c a b hfield hkind _ => ?_⟩
    obtain rfl := Option.mem_unique hkey.1 hfield
    exact absurd hkind hcomputed

/-- The parts of a method, those of its parameters and those of its key. -/
theorem partsBegin_method (h : s.Occurs n ancestors .method i j) :
    s.PartsBegin (s.Accounted caseLevels) n i ∧
      (∀ c a b, n.field? "parameters" = some c → c.kind = "formal_parameters" →
        s.Occurs c (n :: ancestors) .plain a b → s.PartsBegin (s.Accounted caseLevels) c a) ∧
      ∀ c a b, n.field? "name" = some c → c.kind = "computed_property_name" →
        s.Occurs c (n :: ancestors) .plain a b → s.PartsBegin (s.Accounted caseLevels) c a := by
  have hkept : s.Kept caseLevels (Rule.method s n) := h.kept caseLevels
  rw [Rule.method] at hkept
  obtain ⟨modifiers, key, parameters, body, hkey, hparameters, hbody, hparts⟩ := h.production
  have hrun := h.stands.standRun (h.isCompound (by simp) (by simp)) hparts (by simp)
  obtain ⟨k, hmodifiers, l, hk, m, hl, e, he, rfl⟩ := hrun.append
  have hik := hmodifiers.le
  have hkl := h.stands.lt_of_mem hkey.2 hk
  have hlm := h.stands.lt_of_mem hparameters.2 hl
  have hme := h.stands.lt_of_mem hbody.2 he
  obtain ⟨start, hstart, hkept⟩ := hkept.first h.stands (by omega)
  obtain ⟨⟨last, hlast, hkept⟩, hfront, hcomputed⟩ := h.kept_memberKey hkey hk hik hstart hkept
  obtain ⟨left, hleft, hkept⟩ := (hkept.part hparameters.1).first hl hlm
  obtain ⟨right, hright, hkept⟩ := hkept.last hl hlm
  obtain ⟨hplaced, hkept⟩ := hkept.next.2.next
  obtain ⟨hlist, hkept⟩ := hkept.next
  refine ⟨.of_runBegins hparts ((hmodifiers.runBegins fun c hc a b _ hbk hstands hia =>
      hfront a hia (Nat.le_trans hstands.le hbk)).append
    ⟨_, hk, fun hik => hfront k hik (Nat.le_refl k), _, hl,
      fun _ => hplaced.offset hleft hstart (by omega), _, he,
      fun _ => hkept.bodyOf hbody.1 he hme hstart (by omega), rfl⟩), fun c a b hfield hkind hc => ?_,
    hcomputed⟩
  obtain rfl := Option.mem_unique hparameters.1 hfield
  obtain ⟨rfl, rfl⟩ := hl.unique hlm hc.stands
  exact hlist.parenthesized (.inr hkind) hc hleft hright

/-- The parts of a member with a value or without, and those of its key. -/
theorem partsBegin_member {construct : Construct} (h : s.Occurs n ancestors construct i j)
    (hcompound : n.IsCompound) {name : String} (hproduction : n.MemberProduction s.buffer name)
    (hkept : s.Kept caseLevels (do
      Rule.memberValue s (← first s n) (n.field? name) (n.field? "value"))) :
    s.PartsBegin (s.Accounted caseLevels) n i ∧ ∀ c a b, n.field? name = some c →
      c.kind = "computed_property_name" → s.Occurs c (n :: ancestors) .plain a b →
        s.PartsBegin (s.Accounted caseLevels) c a := by
  obtain ⟨modifiers, key, hkey, hparts⟩ := hproduction
  have hrun : ∃ k l rest, n.parts = modifiers ++ key :: rest ∧ s.StandRun modifiers i k ∧
      s.Stands key k l ∧ s.StandRun rest l j ∧ (rest = [] ∨ ∃ sign value, sign.IsLexeme s.buffer ∧
        n.IsPart "value" value ∧ rest = [sign, value]) := by
    rcases hparts with hparts | ⟨sign, value, hsign, hvalue, hparts⟩ <;>
      obtain ⟨k, hmodifiers, l, hk, hrest⟩ :=
        (h.stands.standRun hcompound hparts (by simp)).append
    · exact ⟨k, l, [], hparts, hmodifiers, hk, hrest, .inl rfl⟩
    · exact ⟨k, l, _, hparts, hmodifiers, hk, hrest, .inr ⟨sign, value, hsign, hvalue, rfl⟩⟩
  obtain ⟨k, l, rest, hparts, hmodifiers, hk, hrest, hcases⟩ := hrun
  have hik := hmodifiers.le
  have hkl := h.stands.lt_of_mem hkey.2 hk
  have hlj := hrest.le
  obtain ⟨start, hstart, hkept⟩ := hkept.first h.stands (by omega)
  rw [Rule.memberValue] at hkept
  obtain ⟨⟨last, hlast, hkept⟩, hfront, hcomputed⟩ := h.kept_memberKey hkey hk hik hstart hkept
  have htail : s.RunBegins (fun a => i < a → s.Accounted caseLevels a) rest l j := by
    rcases hcases with rfl | ⟨sign, value, hsign, hvalue, rfl⟩
    · exact hrest
    obtain ⟨_, hl, e, he, rfl⟩ := hrest
    obtain rfl := hl.lexeme hsign
    rw [hvalue.1] at hkept
    obtain ⟨token, htoken, hkept⟩ := hkept.first he (h.stands.lt_of_mem hvalue.2 he)
    obtain ⟨mark, hmark⟩ := hl.exists_at (Nat.lt_succ_self l)
    have hmem := mem_between (ends_token hlast) (ends_token htoken) hmark (by omega) (Nat.lt_succ_self l)
    exact ⟨_, hl, fun _ => hkept.offsets (List.mem_append_left _ hmem) hmark hlast (by omega), _, he,
      fun _ => hkept.offsets (by simp) htoken hlast (by omega), rfl⟩
  exact ⟨.of_runBegins hparts ((hmodifiers.runBegins fun c hc a b _ hbk hstands hia =>
      hfront a hia (Nat.le_trans hstands.le hbk)).append
    ⟨_, hk, fun hik => hfront k hik (Nat.le_refl k), htail⟩), hcomputed⟩

theorem partsBegin_pair (h : s.Occurs n ancestors .pair i j) :
    s.PartsBegin (s.Accounted caseLevels) n i ∧ ∀ c a b, n.field? "key" = some c →
      c.kind = "computed_property_name" → s.Occurs c (n :: ancestors) .plain a b →
        s.PartsBegin (s.Accounted caseLevels) c a :=
  h.partsBegin_member (h.isCompound (by simp) (by simp)) h.production (h.kept caseLevels)

theorem partsBegin_fieldDefinition (h : s.Occurs n ancestors .fieldDefinition i j) :
    s.PartsBegin (s.Accounted caseLevels) n i ∧ ∀ c a b, n.field? "property" = some c →
      c.kind = "computed_property_name" → s.Occurs c (n :: ancestors) .plain a b →
        s.PartsBegin (s.Accounted caseLevels) c a :=
  h.partsBegin_member (h.isCompound (by simp) (by simp)) h.production (h.kept caseLevels)

/-! ## classes -/

/-- The heritage of a class, if there is one, and what it extends. -/
theorem kept_heritage (h : s.Occurs n ancestors .classDefinition i j) {keyword : Token}
    (hkeyword : s.At i keyword) (him : i < m)
    (hrun : s.StandRun (n.childOfKind? "class_heritage").toList m k) {d : Draft Unit}
    (hkept : s.Kept caseLevels (match n.childOfKind? "class_heritage" with
      | none => d
      | some heritage => do
        let word ← first s heritage
        offset word 1 keyword
        offsets (s.after? word).toList 1 word
        d)) :
    s.Kept caseLevels d ∧
      s.RunBegins (s.Accounted caseLevels) (n.childOfKind? "class_heritage").toList m k ∧
      ∀ c a b, n.childOfKind? "class_heritage" = some c → s.Occurs c (n :: ancestors) .plain a b →
        s.PartsBegin (s.Accounted caseLevels) c a := by
  obtain ⟨_, _, -, -, -, -, -, hheritage⟩ := h.shape
  cases hchild : n.childOfKind? "class_heritage" with
  | none =>
    rw [hchild] at hrun hkept
    exact ⟨hkept, hrun, by simp⟩
  | some heritage =>
    rw [hchild] at hrun hkept
    obtain ⟨_, hm, rfl⟩ := hrun
    have hlt := h.stands.lt_of_mem (hheritage heritage hchild).1 hm
    obtain ⟨word, hword, hkept⟩ := hkept.first hm hlt
    obtain ⟨hplaced, hkept⟩ := hkept.next
    obtain ⟨hafter, hkept⟩ := hkept.next
    refine ⟨hkept, ⟨_, hm, hplaced.offset hword hkeyword (by omega), rfl⟩, fun c a b hc hoccurs => ?_⟩
    obtain rfl := Option.some.inj hc
    obtain ⟨rfl, rfl⟩ := hm.unique hlt hoccurs.stands
    have hkind : heritage.kind = "class_heritage" := by simpa using List.find?_some hchild
    have hplain : heritage.PlainProduction s.buffer := hoccurs.production
    obtain ⟨sign, extended, hsign, hparts⟩ := hplain.heritage hkind
    obtain ⟨x, hx, y, hy, rfl⟩ :=
      hm.standRun (isCompound_of_wrapper (by rw [hkind]; decide)) hparts (by simp)
    obtain rfl := hx.lexeme hsign
    exact .of_run hparts hx ⟨_, hy, hafter.offsets_after (List.Subset.refl _) hword hword (by omega), rfl⟩

/-- The parts of a class, and those of its heritage. -/
theorem partsBegin_classDefinition (h : s.Occurs n ancestors .classDefinition i j) :
    s.PartsBegin (s.Accounted caseLevels) n i ∧ ∀ c a b, n.childOfKind? "class_heritage" = some c →
      s.Occurs c (n :: ancestors) .plain a b → s.PartsBegin (s.Accounted caseLevels) c a := by
  have hkept : s.Kept caseLevels (Rule.classDefinition s n) := h.kept caseLevels
  rw [Rule.classDefinition] at hkept
  obtain ⟨word, body, hword, hspells, hbody, hparts⟩ := h.production
  obtain ⟨_, _, -, -, -, -, hname, -⟩ := h.shape
  obtain ⟨k, hk, hrun⟩ :=
    h.stands.standRun (h.isCompound (by simp) (by simp)) hparts (by simp)
  obtain rfl := (hk.spells hspells (by decide)).1
  obtain ⟨x, hhead, e, he, rfl⟩ := hrun.append
  obtain ⟨l, hnames, hheritages⟩ := hhead.append
  have hil := hnames.le
  have hlx := hheritages.le
  have hxe := h.stands.lt_of_mem hbody.2 he
  obtain ⟨keyword, hkeyword, hkept⟩ := hkept.keyword_some hword hk (Nat.lt_succ_self i)
  have hbegins : s.RunBegins (s.Accounted caseLevels) (n.field? "name").toList (i + 1) l ∧
      s.Kept caseLevels (do offset (← firstOf s (n.field? "body")) 0 keyword) ∧
      s.RunBegins (s.Accounted caseLevels) (n.childOfKind? "class_heritage").toList l x ∧
      ∀ c a b, n.childOfKind? "class_heritage" = some c → s.Occurs c (n :: ancestors) .plain a b →
        s.PartsBegin (s.Accounted caseLevels) c a := by
    cases hfield : n.field? "name" with
    | none =>
      rw [hfield] at hkept hnames
      exact ⟨hnames, h.kept_heritage hkeyword (by omega) hheritages hkept⟩
    | some name =>
      rw [hfield] at hkept hnames
      obtain ⟨_, hl, rfl⟩ := hnames
      obtain ⟨token, htoken, hkept⟩ := hkept.first hl (h.stands.lt_of_mem (hname name hfield).1 hl)
      obtain ⟨hplaced, hkept⟩ := hkept.next
      exact ⟨⟨_, hl, hplaced.offset htoken hkeyword (by omega), rfl⟩,
        h.kept_heritage hkeyword (by omega) hheritages hkept⟩
  obtain ⟨hnames, hkept, hheritages, hall⟩ := hbegins
  exact ⟨.of_run hparts hk ((hnames.append hheritages).append
    ⟨_, he, hkept.bodyOf hbody.1 he hxe hkeyword (by omega), rfl⟩), hall⟩

end Occurs

end Source

end ScriptIndent
