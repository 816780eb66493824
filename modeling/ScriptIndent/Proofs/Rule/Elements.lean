import ScriptIndent.Proofs.Rule.Lasting

/-!
# ScriptIndent.Proofs.Rule.Elements

What rules record for the elements of lists.

```
[ a, b ]               the rule of an array ends with the elements
function f(a, b) { }   that of a function goes on with the body, which stands behind the list
export { a, b } from … that of an export goes on with what stands behind the names
```

Each rule that places the elements of a list relative to its opening delimiter goes on with tokens
outside of the list, if it goes on at all.  So what it records for an element, or for the closing
delimiter, it records in the end.
-/

namespace ScriptIndent

namespace Draft

variable {s : Source} {items : List Node} {left : Token} {right : Option Token} {levels : Int}
  {e : Entry}

/-- Elements are recorded relative to the opening delimiter, and the closing delimiter is, if it
begins none of them. -/
theorem records_elements (he : e ∈ Entry.elements s (items.map .node) (some left) right levels)
    (hright : ∀ t, right = some t → ∀ c ∈ items, s.firstOfNode? c ≠ some t) :
    (elements s items left right levels).Records e := by
  refine records_write he fun d hd htoken => ?_
  rcases Source.mem_elements.1 he with ⟨c, hc, t, ht, -, rfl⟩ | ⟨t, ht, -, rfl⟩ <;>
    rcases Source.mem_elements.1 hd with ⟨c', hc', t', ht', -, rfl⟩ | ⟨t', ht', -, rfl⟩ <;>
    obtain rfl : t' = t := htoken
  · rfl
  · exact absurd ht (hright t' ht' c hc)
  · exact absurd ht' (hright t' ht c' hc')
  · rfl

end Draft

namespace Rule

open Draft

variable {s : Source} {n list : Node} {i j k m l : Nat} {left right : Token} {e : Entry}

section Rules

variable (hleft : s.firstOfNode? list = some left)
  (hright : s.lastOfNode? list Token.isAny = some right) (hl : s.At l e.token)
  (helements : (elements s list.codeChildren left right 1).Records e)

section Block

include hleft hright helements

theorem block_records : (block s list).Records e := by
  rw [block, first_bind hleft, last, hright, require, pure_bind]
  exact helements

end Block

section Arrays

variable {k : Nat} (hstands : s.Stands list k (m + 1)) (hrightAt : s.At m right)

include hleft helements hstands hrightAt

theorem arrayList_records (hbracket : right.isClosingBracket = true) (hkm : k < m) :
    (arrayList s list).Records e := by
  rw [arrayList, first_bind hleft,
    (hstands.covers (by omega)).lastOfNode?_eq hstands.ordered hrightAt hbracket]
  exact helements

theorem objectList_records (hbrace : right.isClosingBrace = true) (hkm : k < m) :
    (objectList s list).Records e := by
  rw [objectList, first_bind hleft,
    (hstands.covers (by omega)).lastOfNode?_eq hstands.ordered hrightAt hbrace]
  exact helements

end Arrays

section Body

variable (hbody : ∀ keyword,
  (do offset (← firstOf s (n.field? "body")) 0 keyword : Draft Unit).Meets (Entry.Elsewhere s l)
    fun _ => True)

include hleft hright hl helements hbody

theorem function_records (hfield : n.field? "parameters" = some list)
    (hok : ∃ b, (function s n).result = .ok b) : (function s n).Records e := by
  refine records_of_ok hok fun keyword _ hok => ?_
  refine records_of_ok hok fun parameters hparameters hok => ?_
  refine records_of_ok hok fun opening hopening hok => ?_
  refine records_of_ok hok fun _ _ hok => ?_
  refine records_of_ok hok fun closing hclosing hok => ?_
  refine records_of_ok hok fun _ _ _ => ?_
  obtain rfl := Option.mem_unique (eq_of_part hparameters) hfield
  obtain rfl := Option.mem_unique (eq_of_require hopening) hleft
  obtain rfl := Option.mem_unique (eq_of_require hclosing) hright
  exact helements.elsewhere hl (hbody keyword)

theorem method_records (hfield : n.field? "parameters" = some list)
    (hok : ∃ b, (method s n).result = .ok b) : (method s n).Records e := by
  refine records_of_ok hok fun start _ hok => ?_
  refine records_of_ok hok fun key _ hok => ?_
  refine records_of_ok hok fun parameters hparameters hok => ?_
  refine records_of_ok hok fun opening hopening hok => ?_
  refine records_of_ok hok fun closing hclosing hok => ?_
  refine records_of_ok hok fun _ _ hok => ?_
  refine records_of_ok hok fun _ _ _ => ?_
  obtain rfl := Option.mem_unique (eq_of_part hparameters) hfield
  obtain rfl := Option.mem_unique (eq_of_require hopening) hleft
  obtain rfl := Option.mem_unique (eq_of_require hclosing) hright
  exact helements.elsewhere hl (hbody start)

end Body

section Arguments

variable (hfield : n.field? "arguments" = some list)

include hleft hright helements hfield

theorem call_records (hkind : list.kind ≠ "template_string")
    (hok : ∃ b, (call s n).result = .ok b) : (call s n).Records e := by
  simp only [call, hfield, beq_iff_eq, hkind, if_false] at hok ⊢
  refine records_of_ok hok fun token _ hok => ?_
  refine records_of_ok hok fun opening hopening hok => ?_
  refine records_of_ok hok fun closing hclosing hok => ?_
  refine records_of_ok hok fun callee _ hok => ?_
  refine records_of_ok hok fun _ _ hok => ?_
  refine records_of_ok hok fun _ _ _ => ?_
  obtain rfl := Option.mem_unique (eq_of_require hopening) hleft
  obtain rfl := Option.mem_unique (eq_of_require hclosing) hright
  exact helements

theorem creation_records (hok : ∃ b, (creation s n).result = .ok b) : (creation s n).Records e := by
  refine records_of_ok hok fun keyword _ hok => ?_
  refine records_of_ok hok fun constructed _ hok => ?_
  refine records_of_ok hok fun _ _ hok => ?_
  rw [hfield] at hok ⊢
  refine records_of_ok hok fun opening hopening hok => ?_
  refine records_of_ok hok fun closing hclosing hok => ?_
  refine records_of_ok hok fun _ _ _ => ?_
  obtain rfl := Option.mem_unique (eq_of_require hopening) hleft
  obtain rfl := Option.mem_unique (eq_of_require hclosing) hright
  exact helements

end Arguments

include hleft hright in
theorem switch_records {caseLevels : Int} (hfield : n.field? "body" = some list)
    (helements : (elements s list.codeChildren left right caseLevels).Records e)
    (hok : ∃ b, (switch s caseLevels n).result = .ok b) : (switch s caseLevels n).Records e := by
  refine records_of_ok hok fun keyword _ hok => ?_
  refine records_of_ok hok fun value _ hok => ?_
  refine records_of_ok hok fun _ _ hok => ?_
  refine records_of_ok hok fun _ _ hok => ?_
  refine records_of_ok hok fun clauses hclauses hok => ?_
  refine records_of_ok hok fun opening hopening hok => ?_
  refine records_of_ok hok fun closing hclosing hok => ?_
  refine records_of_ok hok fun _ _ hok => ?_
  refine records_of_ok hok fun _ _ hok => ?_
  refine records_of_ok hok fun _ _ _ => ?_
  obtain rfl := Option.mem_unique (eq_of_part hclauses) hfield
  obtain rfl := Option.mem_unique (eq_of_require hopening) hleft
  obtain rfl := Option.mem_unique (eq_of_require hclosing) hright
  exact helements

/-- Behind the names in braces an export goes on with `from` and a module. -/
theorem exportNames_records {module : Option Node} {keyword : Token}
    (hleft : s.firstOfNode? list = some left)
    (hright : s.lastOfNode? list Token.isAny = some right) (hl : s.At l e.token)
    (helements : (elements s list.codeChildren left right 1).Records e) (hrightAt : s.At m right)
    (hlm : l ≤ m)
    (hmodule : ∀ c, module = some c → ∃ a b, s.Stands c a b ∧ m < a ∧ a < b) :
    (exportNames s keyword list module).Records e := by
  have hany {tokens : List Token} {base : Token} {levels : Int} :
      (offsets tokens levels base).Meets (fun _ => True) fun _ => True :=
    meets_write fun _ _ => trivial
  rw [exportNames, first_bind hleft, last, hright, require, pure_bind]
  refine hany.records fun _ _ => helements.elsewhere hl ?_
  cases module with
  | none => exact meets_pure trivial
  | some c =>
    obtain ⟨a, b, hstands, hma, hab⟩ := hmodule c rfl
    dsimp only
    split
    · exact meets_pure trivial
    · next word rest heq =>
      have hat : ∀ t ∈ word :: rest, ∃ k, k ≠ l ∧ s.At k t := by
        intro t ht
        obtain ⟨k, hmk, -, hk⟩ := exists_at_of_mem_between (s.ends_token hrightAt)
          (hstands.ends hab) (heq ▸ ht : t ∈ s.between right c)
        exact ⟨k, by omega, hk⟩
      refine (meets_offsets_elsewhere fun t ht => ?_).next ?_
      · obtain rfl := List.mem_singleton.1 ht
        exact hat _ List.mem_cons_self
      refine (meets_first hstands hab).bind fun token htoken => meets_offsets_elsewhere fun t ht => ?_
      rcases List.mem_append.1 ht with ht | ht
      · exact hat t (List.mem_cons_of_mem word ht)
      · obtain rfl := List.mem_singleton.1 ht
        exact ⟨a, by omega, htoken⟩

theorem exporting_records (hn : s.Stands n i j) (hcompound : n.IsCompound)
    (hshape : n.ExportingShape s.buffer) (hstands : s.Stands list k (m + 1))
    (hchild : n.childOfKind? "export_clause" = some list) (hdefault : n.keyword? "default" = none)
    (hdeclaration : n.field? "declaration" = none) (hleft : s.firstOfNode? list = some left)
    (hright : s.lastOfNode? list Token.isAny = some right) (hl : s.At l e.token)
    (helements : (elements s list.codeChildren left right 1).Records e) (hrightAt : s.At m right)
    (hlm : l ≤ m) : (exporting s n).Records e := by
  obtain ⟨word, hword, hspells, -, -, hclause, hmodule⟩ := hshape
  obtain ⟨a, b, -, hwstands, -⟩ :=
    hn.turn hcompound (List.singleton_sublist.2 (List.mem_of_find?_eq_some hword))
  obtain ⟨rfl, -⟩ := hwstands.spells hspells (by decide)
  refine (keyword?_meets_some (E := fun _ => True) hword hwstands (by omega)).records fun o ho => ?_
  obtain ⟨keyword, rfl, hkeyword⟩ := ho
  refine (meets_pure (E := fun _ => True) (Q := s.At a) hkeyword).records fun keyword _ => ?_
  dsimp only
  refine (keyword?_meets_none (E := fun _ => True) hdefault).records fun o ho => ?_
  subst ho
  simp only [hdeclaration, hchild]
  refine exportNames_records hleft hright hl helements hrightAt hlm fun c hc => ?_
  obtain ⟨hmem, hturn⟩ := hmodule c hc
  rw [hchild] at hturn
  obtain ⟨_, _, -, hstands', a, b, hma, hcstands, -⟩ := hn.turn hcompound hturn
  obtain ⟨rfl, rfl⟩ := hstands.unique (hn.lt_of_mem (hclause list hchild).1 hstands) hstands'
  exact ⟨a, b, hcstands, hma, hn.lt_of_mem hmem hcstands⟩

theorem arrow_records (hn : s.Stands n i j) (hcompound : n.IsCompound)
    (hshape : n.ArrowShape s.buffer) (hfield : n.field? "parameters" = some list)
    (hstands : s.Stands list k (m + 1)) (hleftAt : s.At k left)
    (hopening : left.isOpeningParen = true)
    (hright : s.afterWhere? Token.isClosingParen (list.codeChildren.getLast?.elim left .node) =
      some right)
    (hl : s.At l e.token) (helements : (elements s list.codeChildren left right 1).Records e)
    (hlm : l ≤ m) : (arrow s n).Records e := by
  obtain ⟨parameters, sign, statement, hparameters, hsign, hstatement, hparts, hlist⟩ := hshape
  rw [hfield] at hlist
  obtain ⟨rfl, henclosed⟩ := hlist
  obtain ⟨a, b, hpstands, hsstands, hbstands, hasync⟩ := arrow_places hn hcompound hparts hsign
  have hab := hn.lt_of_mem hparameters hpstands
  obtain ⟨rfl, rfl⟩ := hpstands.unique hab hstands
  have hbj := hn.lt_of_mem hstatement.2 hbstands
  obtain ⟨-, u, hu, hvalue, hkind⟩ := hsstands.spells hsign (by decide)
  obtain ⟨head, second, hhead, hsecond, hfirsts⟩ := hn.exists_firsts (by omega)
  obtain ⟨c, t, hbc, hcb, ht, -, hscan⟩ := Source.exists_scanDown (i := m + 1 + 1) (by omega) hu
    (isPunctuator_of_value hvalue hkind (by decide))
  have hlist : (arrowParameters s n left).Records e := by
    rw [arrowParameters, hfield]
    dsimp only [Option.elim_some]
    rw [hright]
    exact helements
  have hbehind (sign : Token) (hsign : s.At c sign) :
      (do offset sign 1 head; body s statement head : Draft Unit).Meets (Entry.Elsewhere s l)
        fun _ => True :=
    (meets_offset_elsewhere (by omega) hsign).next ((meets_first hbstands hbj).bind fun _ htoken =>
      meets_offset_elsewhere (by omega) htoken)
  rw [arrow, hfirsts]
  simp only [List.head?_cons]
  refine records_part hstatement.1 ?_
  refine (meets_require (E := fun _ => True) (((hbstands.ends hbj).beforeWhere?_eq _).trans hscan)
    ht).records fun sign hsign => ?_
  rcases hasync with ⟨hasync, rfl⟩ | ⟨hasync, rfl⟩
  · obtain rfl := Option.mem_unique hleftAt hhead
    simp only [hasync, Bool.false_eq_true, if_false, Option.filter_some, hopening, if_true]
    exact hlist.elsewhere hl (hbehind sign hsign)
  · obtain rfl := Option.mem_unique hleftAt hsecond
    simp only [hasync, if_true, Option.filter_some, hopening]
    exact (meets_write (E := fun _ => True) fun _ _ => trivial).records fun _ _ =>
      hlist.elsewhere hl (hbehind sign hsign)

end Rules

end Rule

end ScriptIndent
