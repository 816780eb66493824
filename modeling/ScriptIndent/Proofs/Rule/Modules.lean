import Mathlib.Data.List.Nodup
import Mathlib.Data.List.TakeDrop
import Mathlib.Data.List.TakeWhile
import ScriptIndent.Proofs.Rule.Access

/-!
# ScriptIndent.Proofs.Rule.Modules

Imports and exports of the right shape: the rules go through, and what they draft
stays inside.
-/

namespace ScriptIndent.Rule

open Draft

variable {s : Source} {n : Node} {i j : Nat}

/-! ## stretches of tokens -/

/-- Tokens that stand in a row from place `i` on. -/
def Row (s : Source) (i : Nat) (ts : List Token) : Prop :=
  ∀ k t, ts[k]? = some t → s.At (i + k) t

theorem row_between {a b : Anchor} {k l k' l' : Nat} (ha : s.Ends a k l) (hb : s.Ends b k' l') :
    Row s l (s.between a b) ∧ l + (s.between a b).length = max l k' := by
  have hsize : k' ≤ s.tokens.size := Nat.le_trans (Nat.le_of_lt hb.lt) hb.le_size
  have heq : s.between a b = (s.tokens.extract l k').toList :=
    calc s.between a b = (s.tokens.extract l k').toList.filter fun _ => true :=
          ha.betweenWhere_eq hb _
      _ = (s.tokens.extract l k').toList := List.filter_eq_self.2 fun _ _ => rfl
  rw [heq]
  refine ⟨fun m t hm => ?_, ?_⟩
  · rw [Array.getElem?_toList, Array.getElem?_extract] at hm
    split at hm
    · exact hm
    · cases hm
  · rw [Array.length_toList, Array.size_extract, Nat.min_eq_left hsize]
    omega

theorem Row.append {k : Nat} {ts us : List Token} (h : Row s k (ts ++ us)) :
    Row s k ts ∧ Row s (k + ts.length) us := by
  constructor
  · intro m t hm
    have hlt := (List.getElem?_eq_some_iff.1 hm).1
    exact h m t (by rw [List.getElem?_append_left hlt, hm])
  · intro m t hm
    have := h (ts.length + m) t (by
      rw [List.getElem?_append_right (by omega), Nat.add_sub_cancel_left, hm])
    rwa [← Nat.add_assoc] at this

theorem Row.cons {k : Nat} {t : Token} {ts : List Token} (h : Row s k (t :: ts)) :
    s.At k t ∧ Row s (k + 1) ts := by
  refine ⟨h 0 t rfl, fun m u hm => ?_⟩
  have := h (m + 1) u hm
  rwa [show k + (m + 1) = k + 1 + m by omega] at this

theorem Row.mem {k : Nat} {ts : List Token} (h : Row s k ts) {t : Token} (ht : t ∈ ts) :
    ∃ l, k ≤ l ∧ l < k + ts.length ∧ s.At l t := by
  obtain ⟨m, hm⟩ := List.getElem?_of_mem ht
  have hlt := (List.getElem?_eq_some_iff.1 hm).1
  exact ⟨k + m, by omega, by omega, h m t hm⟩

theorem row_nil (k : Nat) : Row s k [] := by simp [Row]

theorem row_cons {k : Nat} {t : Token} {ts : List Token} (ht : s.At k t) (hts : Row s (k + 1) ts) :
    Row s k (t :: ts) := by
  intro m u hu
  cases m with
  | zero => exact Option.some.inj hu ▸ ht
  | succ m => exact (show k + (m + 1) = k + 1 + m by omega) ▸ hts m u hu

/-- Where a row begins and how long it is tells what is in it. -/
theorem Row.eq {k : Nat} {ts us : List Token} (hts : Row s k ts) (hus : Row s k us)
    (hlength : ts.length = us.length) : ts = us := by
  refine List.ext_getElem hlength fun m hm hm' => ?_
  exact Option.mem_unique (hts m _ (List.getElem?_eq_getElem hm)) (hus m _ (List.getElem?_eq_getElem hm'))

/-- No token stands twice in a row. -/
theorem Row.nodup {k : Nat} {ts : List Token} (h : Row s k ts) : ts.Nodup := by
  refine List.nodup_iff_injective_get.2 fun a b hab => Fin.ext ?_
  have ha := h a _ (List.getElem?_eq_getElem a.2)
  have hb := h b _ (List.getElem?_eq_getElem b.2)
  rw [← List.get_eq_getElem, ← hab] at hb
  have := Source.eq_of_getElem? ha hb
  omega

/-- The tokens of a row are placed inside, relative to a token before it. -/
theorem Row.staysInside {k l : Nat} {ts : List Token} (h : Row s k ts) {base : Token}
    (hbase : s.At l base) (hil : i ≤ l) (hlk : l ≤ k) (hkj : k + ts.length ≤ j)
    (levels : Int) : (offsets ts levels base).StaysInside s i j := by
  refine meets_offsets hbase fun t ht => ?_
  obtain ⟨m, hkm, hml, hm⟩ := h.mem ht
  exact ⟨m, hm, by omega⟩

/-- A list is split at the first token that passes a test, or none does. -/
theorem span_cases (stop : Token → Bool) (ts : List Token) :
    (∃ before word after, ts = before ++ word :: after ∧ stop word = true ∧
        ts.span (!stop ·) = (before, word :: after)) ∨
      (∀ t ∈ ts, stop t = false) ∧ ts.span (!stop ·) = (ts, []) := by
  rw [List.span_eq_takeWhile_dropWhile]
  cases hdrop : ts.dropWhile (!stop ·) with
  | nil =>
    have hall := List.dropWhile_eq_nil_iff.1 hdrop
    exact .inr ⟨by simpa using hall, by rw [List.takeWhile_eq_self_iff.2 hall]⟩
  | cons word after =>
    have hsplit := List.takeWhile_append_dropWhile (p := (!stop ·)) (l := ts)
    have hhead := List.head?_dropWhile_not (!stop ·) ts
    rw [hdrop] at hsplit hhead
    exact .inl ⟨_, word, after, hsplit.symm, by simpa using hhead, rfl⟩

/-! ## imports -/

/-- An import is split at the last `from`, if there is one. -/
theorem ImportHead.of_cases (tokens : List Token) (module : Token) :
    (∃ before word after, tokens = before ++ word :: after ∧
        ImportHead.of tokens module = ⟨before, some word, after ++ [module]⟩) ∨
      ImportHead.of tokens module = ⟨tokens ++ [module], none, []⟩ := by
  unfold ImportHead.of
  rcases span_cases isFrom tokens.reverse with ⟨after, word, before, heq, -, hspan⟩ | ⟨-, hspan⟩
  · rw [hspan]
    refine .inl ⟨before.reverse, word, after.reverse, ?_, rfl⟩
    rw [← List.reverse_reverse tokens, heq]
    simp
  · rw [hspan]
    exact .inr rfl

/-- An import takes the last word before its module, if that is a `from`. -/
theorem ImportHead.of_append {sign : Token} (hsign : isFrom sign = true) (before : List Token)
    (module : Token) : ImportHead.of (before ++ [sign]) module = ⟨before, some sign, [module]⟩ := by
  simp [ImportHead.of, List.span_eq_takeWhile_dropWhile, hsign]

theorem importPart_meets {p : Node} (hpart : p.kind = "named_imports" →
      p.Enclosed s.buffer "\x7b" "\x7d") {k l : Nat} (hp : s.Stands p k l) (hik : i ≤ k)
    (hlj : l ≤ j) :
    (importPart s n p).Meets (Entry.Inside s i j) fun _ => True := by
  unfold importPart
  split
  · exact meets_pure trivial
  split
  · next hkind =>
    have henclosed := hpart (by simpa using hkind)
    obtain ⟨hkl, -, ⟨u, hu, hvalue, hukind⟩, hinner⟩ := hp.enclosed henclosed (by decide) (by decide)
    have hmem : ∀ c ∈ p.codeChildren.filter (·.kind == "import_specifier"),
        c ∈ p.codeChildren := fun c hc => (List.mem_filter.1 hc).1
    have hturn : p.InTurn (p.codeChildren.filter (·.kind == "import_specifier")) :=
      List.filter_sublist.trans (List.filter_sublist.trans List.filter_sublist)
    dsimp only
    split
    · next head tail hhead htail =>
      -- the specifiers stand behind the first of them, within the braces
      have hhmem := hmem head (List.mem_of_mem_head? hhead)
      have htmem := hmem tail (List.mem_of_getLast? htail)
      obtain ⟨a, b, hka, hab, hbl, hhstands⟩ := hinner head hhmem
      obtain ⟨c, d, hkc, hcd, hdl, htstands⟩ := hinner tail htmem
      have hbehind : ∀ x ∈ p.codeChildren.filter (·.kind == "import_specifier"),
          ∃ e f, s.Stands x e f ∧ e < f ∧ a ≤ e ∧ f < l := by
        intro x hx
        obtain ⟨e, f, hke, hef, hfl, hxstands⟩ := hinner x (hmem x hx)
        exact ⟨e, f, hxstands, hef,
          hp.start_le_of_head? henclosed.1 hturn hhead hhstands hab hx hxstands hef, hfl⟩
      obtain ⟨t, hbefore, ht⟩ := before?_eq_at hhstands hab (by omega)
      refine (meets_require hbefore ht).bind fun left hleft => ?_
      obtain ⟨m, v, hdm, hml, hv, -, hscan⟩ := Source.exists_scanUp (i := d) (by omega) hu
        (isPunctuator_of_value hvalue hukind (by decide))
      refine (meets_require (((htstands.ends hcd).afterWhere?_eq _).trans hscan) hv).bind
        fun right hright => ?_
      refine Meets.next (meets_elements hleft (fun x hx => ?_) fun x hx => ?_) (meets_pure trivial)
      · obtain ⟨e, f, hxstands, hef, hae, hfl⟩ := hbehind x hx
        exact ⟨e, f, hxstands, hef, by omega⟩
      · obtain rfl := Option.some.inj hx
        obtain ⟨e, f, htstands', hef, hae, hfl⟩ := hbehind tail (List.mem_of_getLast? htail)
        obtain ⟨rfl, rfl⟩ := htstands.unique hcd htstands'
        exact ⟨m, hright, by omega⟩
    · exact meets_pure trivial
  · exact meets_pure trivial

theorem importParts_meets {ps : List Node}
    (h : ∀ p ∈ ps, (importPart s n p).Meets (Entry.Inside s i j) fun _ => True) :
    (importParts s n ps).Meets (Entry.Inside s i j) fun _ => True := by
  induction ps with
  | nil => exact meets_pure trivial
  | cons p rest ih =>
    refine (h p List.mem_cons_self).bind fun placed _ => ?_
    refine (ih fun q hq => h q (List.mem_cons_of_mem p hq)).bind fun more _ => ?_
    exact meets_pure trivial

theorem importing_staysInside (h : s.Stands n i j) (hn : n.IsCompound)
    (hshape : n.ImportingShape s.buffer) : (importing s n).StaysInside s i j := by
  obtain ⟨word, module, ⟨value, hword, hspelling⟩, hmodule, hturn, hclause⟩ := hshape
  obtain ⟨a, b, hia, hwstands, c, d, hbc, hmstands, (hdj : d ≤ j)⟩ := h.turn hn hturn
  have hcd := h.lt_of_mem hmodule.2 hmstands
  obtain ⟨rfl, -⟩ := hwstands.spells hword hspelling
  refine (meets_first h (by omega)).bind fun keyword hkeyword => ?_
  refine meets_part hmodule.1 ?_
  refine (meets_first hmstands hcd).bind fun token htoken => ?_
  obtain ⟨hrow, hlength⟩ := row_between (s.ends_token hkeyword) (hmstands.ends hcd)
  dsimp only
  -- the parts of the clause
  refine (importParts_meets fun p hp => ?_).bind fun placed _ => ?_
  · cases hsome : n.childOfKind? "import_clause" with
    | none => simp [hsome] at hp
    | some clause =>
      obtain ⟨hmem, hcompound, hnames⟩ := hclause clause hsome
      rw [hsome, Option.elim_some] at hp
      obtain ⟨e, f, hie, hef, hfj, hcstands⟩ := h.child hn hmem
      obtain ⟨k, l, hek, hkl, hlf, hpstands⟩ := hcstands.child hcompound hp
      exact importPart_meets (hnames p hp) hpstands (by omega) (by omega)
  have hci : i + 1 + (s.between keyword module).length = c := by omega
  rcases ImportHead.of_cases (s.between keyword module) token with
    ⟨before, from', after, heq, hhead⟩ | hhead
  · rw [heq] at hrow hci
    obtain ⟨hbefore, hrest⟩ := hrow.append
    obtain ⟨hat, hafter⟩ := hrest.cons
    simp only [List.length_append, List.length_cons] at hci
    rw [hhead]
    refine Meets.next (meets_offsets hkeyword fun x hx => ?_) ?_
    · obtain ⟨k, hik, hkc, hk⟩ := hbefore.mem (List.mem_filter.1 hx).1
      exact ⟨k, hk, by omega⟩
    refine (meets_offset hkeyword hat (by omega)).next ?_
    refine meets_offsets hat fun x hx => ?_
    rcases List.mem_append.1 hx with hx | hx
    · obtain ⟨k, hik, hkc, hk⟩ := hafter.mem hx
      exact ⟨k, hk, by omega⟩
    · obtain rfl := List.mem_singleton.1 hx
      exact ⟨c, htoken, by omega⟩
  · rw [hhead]
    refine Meets.next (meets_offsets hkeyword fun x hx => ?_) (meets_pure trivial)
    rcases List.mem_append.1 (List.mem_filter.1 hx).1 with hx | hx
    · obtain ⟨k, hik, hkc, hk⟩ := hrow.mem hx
      exact ⟨k, hk, by omega⟩
    · obtain rfl := List.mem_singleton.1 hx
      exact ⟨c, htoken, by omega⟩

/-! ## names with an alias -/

theorem aliased_staysInside (h : s.Stands n i j) (hij : i < j) :
    (aliased s n).StaysInside s i j := by
  unfold aliased
  split
  · exact meets_pure trivial
  · next token rest htokens =>
    obtain ⟨htoken, hrest⟩ := exists_at_of_tokensOf h hij htokens
    refine meets_offsets htoken fun x hx => ?_
    obtain ⟨k, hik, hkj, hk⟩ := hrest x hx
    exact ⟨k, hk, by omega⟩

theorem importSpecifier_staysInside (h : s.Stands n i j) (hij : i < j) :
    (importSpecifier s n).StaysInside s i j := by
  unfold importSpecifier
  split
  · exact aliased_staysInside h hij
  · exact meets_pure trivial

/-! ## exports -/

/-- Names in braces, with a module behind them or without. -/
theorem exportNames_staysInside {keyword : Token} {clause : Node} {module : Option Node}
    {a b k : Nat} (hkeyword : s.At k keyword) (hik : i ≤ k) (hc : s.Stands clause a b)
    (henclosed : clause.Enclosed s.buffer "\x7b" "\x7d") (hka : k ≤ a) (hab : a < b)
    (hbj : b ≤ j)
    (hmodule : ∀ m, module = some m → ∃ c d, s.Stands m c d ∧ b ≤ c ∧ c < d ∧ d ≤ j) :
    (exportNames s keyword clause module).StaysInside s i j := by
  refine (meets_first hc hab).bind fun left hleft => ?_
  refine (meets_last hc hab).bind fun right hright => ?_
  refine (meets_offset hkeyword hleft (by omega)).next ?_
  obtain ⟨-, -, -, hinner⟩ := hc.enclosed henclosed (by decide) (by decide)
  refine (meets_elements hleft (fun x hx => ?_) fun x hx => ?_).next ?_
  · obtain ⟨p, q, hap, hpq, hqb, hxstands⟩ := hinner x hx
    exact ⟨p, q, hxstands, hpq, by omega⟩
  · obtain rfl := Option.some.inj hx
    exact ⟨b - 1, hright, by omega⟩
  cases module with
  | none => exact meets_pure trivial
  | some module =>
    obtain ⟨c, d, hmstands, hbc, hcd, hdj⟩ := hmodule module rfl
    obtain ⟨hrow, hlength⟩ := row_between (s.ends_token hright) (hmstands.ends hcd)
    dsimp only
    split
    · exact meets_pure trivial
    · next word rest heq =>
      rw [heq] at hrow hlength
      obtain ⟨hat, hrest⟩ := hrow.cons
      rw [List.length_cons] at hlength
      refine (meets_offset hkeyword hat (by omega)).next ?_
      refine (meets_first hmstands hcd).bind fun token htoken => ?_
      refine meets_offsets hat fun x hx => ?_
      rcases List.mem_append.1 hx with hx | hx
      · obtain ⟨l, hl, hlc, hlat⟩ := hrest.mem hx
        exact ⟨l, hlat, by omega⟩
      · obtain rfl := List.mem_singleton.1 hx
        exact ⟨c, htoken, by omega⟩

/-- The tokens between a keyword and the module, at whose end a `from` stands; if
there is a name for the module, a star and an `as` come first. -/
def HasFrom (s : Source) (n : Node) (k c : Nat) : Prop :=
  ∃ p t, k < p ∧ p < c ∧ s.At p t ∧ isFrom t = true ∧
    ((n.childOfKind? "namespace_export").isSome →
      ∃ star as, s.At (k + 1) star ∧ star.value = "*" ∧ s.At (k + 2) as ∧ as.value = "as" ∧
        k + 2 < c)

/-- A token of a row is the one at its place. -/
theorem Row.mem_of_at {k l : Nat} {ts : List Token} (h : Row s k ts) {t : Token} (ht : s.At l t)
    (hk : k ≤ l) (hl : l < k + ts.length) : ts[l - k]? = some t := by
  have hget : ts[l - k]? = some ts[l - k] := List.getElem?_eq_getElem (by omega)
  have hat := h (l - k) _ hget
  rw [show k + (l - k) = l by omega] at hat
  rw [hget, Option.mem_unique hat ht]

/-- A star and an `as` stand before a `from` in a row that begins with them. -/
theorem Row.exists_before_eq {before after : List Token} {sign star as : Token} {k : Nat}
    (h : Row s k (before ++ sign :: after)) (hsign : isFrom sign = true) (hstar : s.At k star)
    (hstarValue : star.value = "*") (has : s.At (k + 1) as) (hasValue : as.value = "as")
    (hlength : 2 ≤ (before ++ sign :: after).length) :
    ∃ more, before = star :: as :: more := by
  have hfirst := h.mem_of_at hstar (Nat.le_refl _) (by omega)
  have hsecond := h.mem_of_at has (by omega) (by omega)
  rw [Nat.sub_self] at hfirst
  rw [Nat.add_sub_cancel_left] at hsecond
  cases before with
  | nil =>
    obtain rfl := Option.some.inj hfirst
    rw [isFrom, hstarValue] at hsign
    exact absurd hsign (by decide)
  | cons t before =>
    obtain rfl := Option.some.inj hfirst
    cases before with
    | nil =>
      obtain rfl := Option.some.inj hsecond
      rw [isFrom, hasValue] at hsign
      exact absurd hsign (by decide)
    | cons u more =>
      obtain rfl := Option.some.inj hsecond
      exact ⟨more, rfl⟩

theorem exportAll_staysInside {keyword : Token} {module : Node} {k c d : Nat}
    (hkeyword : s.At k keyword) (hik : i ≤ k) (hm : s.Stands module c d) (hcd : c < d)
    (hdj : d ≤ j) (hwords : HasFrom s n k c) :
    (exportAll s n keyword module).StaysInside s i j := by
  obtain ⟨p, word, hkp, hpc, hword, hfrom, hnames⟩ := hwords
  obtain ⟨hrow, hlength⟩ := row_between (s.ends_token hkeyword) (hm.ends hcd)
  have hmem : word ∈ s.between keyword module :=
    List.mem_of_getElem? (hrow.mem_of_at hword (by omega) (by omega))
  unfold exportAll
  rcases span_cases isFrom (s.between keyword module) with
    ⟨before, sign, after, heq, hsign, hspan⟩ | ⟨hnone, -⟩
  · rw [hspan]
    dsimp only
    rw [heq] at hrow hlength
    have hall := hrow
    obtain ⟨hbefore, hrest⟩ := hrow.append
    obtain ⟨hat, hafter⟩ := hrest.cons
    rw [List.length_append, List.length_cons] at hlength
    refine (meets_first hm hcd).bind fun token htoken => ?_
    have hlast : (do offset sign 0 keyword; offsets (after ++ [token]) 1 sign :
        Draft Unit).StaysInside s i j := by
      refine (meets_offset hkeyword hat (by omega)).next ?_
      refine meets_offsets hat fun x hx => ?_
      rcases List.mem_append.1 hx with hx | hx
      · obtain ⟨l, hl, hlc, hlat⟩ := hafter.mem hx
        exact ⟨l, hlat, by omega⟩
      · obtain rfl := List.mem_singleton.1 hx
        exact ⟨c, htoken, by omega⟩
    split
    · exact Meets.next (hbefore.staysInside hkeyword hik (by omega) (by omega) 1) hlast
    · next hsome =>
      obtain ⟨star, as, hstarat, hstar, hasat, has, hlt⟩ :=
        hnames (by simpa [Option.isSome_iff_ne_none] using hsome)
      obtain ⟨more, hmore⟩ := hall.exists_before_eq hsign hstarat hstar hasat has (by simp; omega)
      have hspan : before.span (·.value != "as") = ([star], as :: more) := by
        rw [hmore, List.span_eq_takeWhile_dropWhile]
        simp [hstar, has]
      rw [hmore] at hbefore hlength
      obtain ⟨-, hrenamed⟩ := hbefore.cons
      simp only [List.length_cons] at hlength
      rw [hspan]
      simp only [List.getLast?_singleton]
      refine Meets.next (meets_offsets hkeyword fun x hx => ?_) ?_
      · obtain rfl := List.mem_singleton.1 hx
        exact ⟨k + 1, hstarat, by omega⟩
      refine Meets.next (hrenamed.staysInside hstarat (by omega) (by omega) ?_ 1) hlast
      simp only [List.length_cons]
      omega
  · rw [hnone word hmem] at hfrom
    cases hfrom

/-- A construct under a field of an export stands behind the keyword. -/
theorem exports_behind (h : s.Stands n i j) (hn : n.IsCompound) {keyword : Node} {k : Nat}
    (hkeyword : s.Stands keyword k (k + 1)) {c : Node} (hc : c ∈ n.codeChildren)
    (hturn : n.InTurn [keyword, c]) :
    ∃ a b, s.Stands c a b ∧ k < a ∧ a < b ∧ b ≤ j := by
  obtain ⟨k', l', -, hkstands, a, b, hla, hcstands, (hbj : b ≤ j)⟩ := h.turn hn hturn
  obtain ⟨rfl, rfl⟩ := hkeyword.unique (Nat.lt_succ_self k) hkstands
  exact ⟨a, b, hcstands, by omega, h.lt_of_mem hc hcstands, hbj⟩

/-- The word `from` stands among the tokens before the module, and a name for the
module begins with a star and an `as`. -/
theorem exportAll_words (h : s.Stands n i j) (hn : n.IsCompound) {word module : Node} {k c d : Nat}
    (hword : s.Stands word k (k + 1)) (hm : s.Stands module c d) (hcd : c < d)
    (hshape : match n.childOfKind? "namespace_export" with
      | none => ∃ sign, sign.Spells s.buffer "from" ∧ n.InTurn [word, sign, module]
      | some names =>
        names ∈ n.codeChildren ∧ names.IsCompound ∧
          (∃ star as name, star.Spells s.buffer "*" ∧ as.Spells s.buffer "as" ∧
            names.parts = star :: as :: name) ∧
          ∃ sign rest, sign.Spells s.buffer "from" ∧
            n.parts = word :: names :: sign :: module :: rest) :
    HasFrom s n k c := by
  split at hshape
  · obtain ⟨sign, hsign, hturn⟩ := hshape
    obtain ⟨k', l', -, hwstands, p, q, hlp, hsstands, c', d', hqc, hmstands, -⟩ := h.turn hn hturn
    obtain ⟨rfl, rfl⟩ := hword.unique (Nat.lt_succ_self k) hwstands
    obtain ⟨rfl, rfl⟩ := hm.unique hcd hmstands
    obtain ⟨rfl, t, ht, hvalue, -⟩ := hsstands.spells hsign (by decide)
    exact ⟨p, t, by omega, by omega, ht, by rw [isFrom, hvalue]; rfl, by simp_all⟩
  · obtain ⟨hnmem, hncompound, ⟨star, as, name, hstar, has, hnparts⟩, sign, rest, hsign, hparts⟩ :=
      hshape
    have hmem : ∀ x ∈ n.parts, x ∈ n.children := fun x hx => (List.mem_filter.1 hx).1
    next names _ =>
    have hrun := h.run_parts hn (List.ne_nil_of_mem (Node.mem_codeChildren.1 hnmem).1)
    rw [hparts] at hrun hmem
    obtain ⟨a, hwspans, m, hnspans, p, hsspans, q, hmspans, -⟩ := hrun
    obtain ⟨rfl, rfl⟩ := hword.unique (Nat.lt_succ_self k)
      (h.of_spans (hmem word (by simp)) hwspans)
    have hsstands := h.of_spans (hmem sign (by simp)) hsspans
    obtain ⟨rfl, t, ht, hvalue, -⟩ := hsstands.spells hsign (by decide)
    obtain ⟨rfl, rfl⟩ := hm.unique hcd (h.of_spans (hmem module (by simp)) hmspans)
    -- the tokens of the name for the module
    have hnstands := h.of_spans (hmem names (by simp)) hnspans
    have hnchildren : names.children ≠ [] := by
      intro hnil
      rw [Node.parts, hnil] at hnparts
      simp at hnparts
    have hnmems : ∀ x ∈ names.parts, x ∈ names.children := fun x hx => (List.mem_filter.1 hx).1
    have hnrun := hnstands.run_parts hncompound hnchildren
    rw [hnparts] at hnrun hnmems
    obtain ⟨e, hstspans, f, haspans, hrest⟩ := hnrun
    obtain ⟨rfl, u, hu, huvalue, -⟩ :=
      (hnstands.of_spans (hnmems star (by simp)) hstspans).spells hstar (by decide)
    obtain ⟨rfl, v, hv, hvvalue, -⟩ :=
      (hnstands.of_spans (hnmems as (by simp)) haspans).spells has (by decide)
    have hle := (hrest.chain (List.nil_sublist _)).le
    exact ⟨m, t, by omega, by omega, ht, by rw [isFrom, hvalue]; rfl,
      fun _ => ⟨u, v, hu, huvalue, hv, hvvalue, by omega⟩⟩

theorem exporting_staysInside (h : s.Stands n i j) (hn : n.IsCompound)
    (hshape : n.ExportingShape s.buffer) : (exporting s n).StaysInside s i j := by
  obtain ⟨word, hword, hspells, htarget, hdefault, hclause, hmodule⟩ := hshape
  have hwmem : word ∈ n.children := List.mem_of_find?_eq_some hword
  obtain ⟨k, l, hik, hwstands, (hlj : l ≤ j)⟩ := h.turn hn (List.singleton_sublist.2 hwmem)
  obtain ⟨rfl, -⟩ := hwstands.spells hspells (by decide)
  refine (keyword?_meets_some hword hwstands (by omega)).bind fun o ho => ?_
  obtain ⟨keyword, rfl, hkeyword⟩ := ho
  refine (meets_pure (Q := s.At k) hkeyword).bind fun keyword hkeyword => ?_
  dsimp only
  cases hother : n.keyword? "default" with
  | some default =>
    have hdmem : default ∈ n.children := List.mem_of_find?_eq_some hother
    obtain ⟨a, b, hia, hdstands, hbj⟩ := h.turn hn (List.singleton_sublist.2 hdmem)
    obtain ⟨rfl, -⟩ := hdstands.spells (hdefault default hother) (by decide)
    refine (keyword?_meets_some hother hdstands (by omega)).bind fun o ho => ?_
    obtain ⟨-, rfl, -⟩ := ho
    cases hsome : (n.field? "declaration").or (n.field? "value") with
    | none => exact meets_pure trivial
    | some target =>
      have hfield : n.field? "declaration" = some target ∨ n.field? "value" = some target := by
        rw [Option.or_eq_some_iff] at hsome
        exact hsome.imp_right (·.2)
      obtain ⟨hmem, hturn⟩ := htarget target hfield
      obtain ⟨a, b, htstands, hka, hab, hbj⟩ := exports_behind h hn hwstands hmem hturn
      refine (meets_first htstands hab).bind fun token htoken => ?_
      refine meets_offsets hkeyword fun x hx => ?_
      rcases List.mem_append.1 hx with hx | hx
      · obtain ⟨p, hkp, hpa, hp⟩ :=
          exists_at_of_mem_between (s.ends_token hkeyword) (s.ends_token htoken) hx
        exact ⟨p, hp, by omega⟩
      · obtain rfl := List.mem_singleton.1 hx
        exact ⟨a, htoken, by omega⟩
  | none =>
    refine (keyword?_meets_none hother).bind fun o ho => ?_
    subst ho
    cases hsome : n.field? "declaration" with
    | some target =>
      obtain ⟨hmem, hturn⟩ := htarget target (.inl hsome)
      obtain ⟨a, b, htstands, hka, hab, hbj⟩ := exports_behind h hn hwstands hmem hturn
      exact (meets_first htstands hab).bind fun token htoken =>
        meets_offset hkeyword htoken (by omega)
    | none =>
      cases hnames : n.childOfKind? "export_clause" with
      | some clause =>
        obtain ⟨hmem, henclosed, hturn⟩ := hclause clause hnames
        obtain ⟨a, b, hcstands, hka, hab, hbj⟩ := exports_behind h hn hwstands hmem hturn
        refine exportNames_staysInside hkeyword hik hcstands henclosed (by omega) hab hbj
          fun module hsource => ?_
        obtain ⟨hmmem, hmturn⟩ := hmodule module hsource
        rw [hnames] at hmturn
        obtain ⟨a', b', -, hcstands', c, d, hbc, hmstands, (hdj : d ≤ j)⟩ := h.turn hn hmturn
        obtain ⟨rfl, rfl⟩ := hcstands.unique hab hcstands'
        exact ⟨c, d, hmstands, hbc, h.lt_of_mem hmmem hmstands, hdj⟩
      | none =>
        cases hsource : n.field? "source" with
        | none => exact meets_pure trivial
        | some module =>
          obtain ⟨hmmem, hmshape⟩ := hmodule module hsource
          obtain ⟨c, d, hic, hcd, hdj, hmstands⟩ := h.child hn hmmem
          refine exportAll_staysInside hkeyword hik hmstands hcd hdj ?_
          refine exportAll_words h hn hwstands hmstands hcd ?_
          rw [hnames] at hmshape
          cases hns : n.childOfKind? "namespace_export" with
          | none => simpa only [hns] using hmshape
          | some names => simpa only [hns] using hmshape

end ScriptIndent.Rule
