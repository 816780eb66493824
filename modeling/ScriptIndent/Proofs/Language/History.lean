import Mathlib.Data.List.Dedup
import ScriptIndent.Language.Registry

/-!
# ScriptIndent.Proofs.Language.History

What is known after languages have been registered in turn.

```
JavaScript  .js .mjs       accepted
Svelte      .svelte .JS    refused: the second ending is owned, and the first stays free
JavaScript  .js .Js .jsx   accepted, in place of the first: it owns .mjs still, and .jsx now
```

A registration looks at all endings before it stores anything, so one that is refused leaves the
registry as it was (`register_eq`).  The registry is a function of the accepted ones (`Records`): an
ending is owned by the language that has listed it, which is only one, and under a name the last
language of that name is found.  An accepted registration keeps this (`Records.register`), and so
does a whole run (`records_ofList`).
-/

namespace ScriptIndent

namespace Dictionary

variable {α β : Type}

/-- A new key is the last, and an old one stays in its place. -/
theorem keys_assign (key : String) (value : α) (d : Dictionary α) :
    (assign key value d).map Prod.fst =
      if key ∈ d.map Prod.fst then d.map Prod.fst else d.map Prod.fst ++ [key] := by
  induction d with
  | nil => rfl
  | cons p rest ih =>
    by_cases hp : p.1 = key
    · simp [assign, hp]
    · rw [assign, if_neg hp, List.map_cons, ih, List.map_cons]
      by_cases hkey : key ∈ rest.map Prod.fst
      · rw [if_pos hkey, if_pos (List.mem_cons_of_mem _ hkey)]
      · rw [if_neg hkey, if_neg (List.not_mem_cons_of_ne_of_not_mem (Ne.symm hp) hkey)]
        rfl

/-- One value is put under several keys. -/
theorem get?_foldl_assign (keyOf : β → String) (value : α) (xs : List β) (d : Dictionary α)
    (key : String) : get? (xs.foldl (fun d x => assign (keyOf x) value d) d) key =
      if ∃ x ∈ xs, keyOf x = key then some value else get? d key := by
  induction xs generalizing d with
  | nil => simp
  | cons x rest ih =>
    rw [List.foldl_cons, ih]
    by_cases hrest : ∃ y ∈ rest, keyOf y = key
    · obtain ⟨y, hy, hkey⟩ := hrest
      rw [if_pos ⟨y, hy, hkey⟩, if_pos ⟨y, List.mem_cons_of_mem x hy, hkey⟩]
    rw [if_neg hrest]
    by_cases hx : keyOf x = key
    · rw [if_pos ⟨x, List.mem_cons_self, hx⟩, hx, get?_assign_self]
    · rw [get?_assign_of_ne hx, if_neg]
      rintro ⟨y, hy, hkey⟩
      rcases List.mem_cons.1 hy with rfl | hy
      · exact hx hkey
      · exact hrest ⟨y, hy, hkey⟩

end Dictionary

/-- The language lists an ending, letters taken small. -/
def Language.Lists (l : Language) (ending : String) : Prop :=
  ∃ extension ∈ l.extensions, Text.lowercase extension = ending

namespace Languages

variable {r r' : Languages} {l : Language} {kept ls : List Language}

/-! ## one registration -/

/-- The conflict over an ending that another language owns. -/
def conflictOver? (r : Languages) (l : Language) (extension : String) : Option ExtensionConflict :=
  match r.owners.get? (Text.lowercase extension) with
  | some owner => if owner ≠ l.name then some ⟨extension, owner, l.name⟩ else none
  | none => none

/-- To look at an ending changes nothing. -/
theorem run_claim (r : Languages) (l : Language) (extension : String) :
    (claim l extension).run r =
      match r.conflictOver? l extension with
      | some conflict => .error conflict r
      | none => .ok () r := by
  rw [claim, EStateM.run_bind, conflictOver?]
  change EStateM.run (match r.owners.get? (Text.lowercase extension) with
    | some owner => if owner ≠ l.name then throw ⟨extension, owner, l.name⟩ else pure ()
    | none => pure () : Step) r = _
  cases r.owners.get? (Text.lowercase extension) with
  | none => rfl
  | some owner =>
    dsimp only
    split <;> rfl

/-- Endings are looked at up to the first conflict. -/
theorem run_forM_claim (r : Languages) (l : Language) (extensions : List String) :
    (extensions.forM (claim l)).run r =
      match extensions.findSome? (r.conflictOver? l) with
      | some conflict => .error conflict r
      | none => .ok () r := by
  induction extensions with
  | nil => rfl
  | cons extension rest ih =>
    rw [List.forM, EStateM.run_bind, run_claim, List.findSome?_cons]
    cases r.conflictOver? l extension with
    | none => exact ih
    | some conflict => rfl

/-- Endings are owned one after the other. -/
theorem run_forM_own (r : Languages) (l : Language) (extensions : List String) :
    (extensions.forM (own l)).run r = .ok () { r with
      owners := extensions.foldl
        (fun owners extension => owners.assign (Text.lowercase extension) l.name) r.owners } := by
  induction extensions generalizing r with
  | nil => rfl
  | cons extension rest ih =>
    rw [List.forM, EStateM.run_bind]
    exact ih { r with owners := r.owners.assign (Text.lowercase extension) l.name }

/-- A registration finds a conflict and has changed nothing, or it stores the language and all its
endings. -/
theorem register_eq (r : Languages) (l : Language) : r.register l =
    match l.extensions.findSome? (r.conflictOver? l) with
    | some conflict => .error ⟨conflict, r⟩
    | none => .ok {
        byName := r.byName.assign l.name l
        owners := l.extensions.foldl
          (fun owners extension => owners.assign (Text.lowercase extension) l.name) r.owners } := by
  rw [register, steps, EStateM.run_bind, run_forM_claim]
  cases l.extensions.findSome? (r.conflictOver? l) with
  | some conflict => rfl
  | none =>
    dsimp only
    rw [EStateM.run_bind]
    change (match (l.extensions.forM (own l)).run { r with byName := r.byName.assign l.name l } with
      | .ok () r => Except.ok r
      | .error conflict r => Except.error ⟨conflict, r⟩ : Except RefusedLanguage Languages) = _
    rw [run_forM_own]

/-- A registration that is refused leaves the registry as it was. -/
theorem languages_of_register {refused : RefusedLanguage} (h : r.register l = .error refused) :
    refused.languages = r := by
  rw [register_eq] at h
  split at h <;> cases h
  rfl

/-- A registration is refused for an ending that another language owns. -/
theorem register_eq_error_iff : (∃ refused, r.register l = .error refused) ↔
    ∃ ending owner, l.Lists ending ∧ r.owners.get? ending = some owner ∧ owner ≠ l.name := by
  have hconflict : (∃ refused, r.register l = .error refused) ↔
      l.extensions.findSome? (r.conflictOver? l) ≠ none := by
    rw [register_eq]
    cases l.extensions.findSome? (r.conflictOver? l) <;> simp
  rw [hconflict, ne_eq, List.findSome?_eq_none_iff]
  constructor
  · intro h
    by_contra hnone
    refine h fun extension hextension => ?_
    rw [conflictOver?]
    cases howner : r.owners.get? (Text.lowercase extension) with
    | none => rfl
    | some owner =>
      refine if_neg fun hne => ?_
      exact hnone ⟨_, owner, ⟨extension, hextension, rfl⟩, howner, hne⟩
  · rintro ⟨_, owner, ⟨extension, hextension, rfl⟩, howner, hne⟩ hnone
    have hfree := hnone extension hextension
    simp only [conflictOver?, howner, if_pos hne] at hfree
    cases hfree

/-- What an accepted registration adds. -/
theorem eq_of_register (h : r.register l = .ok r') :
    r'.byName = r.byName.assign l.name l ∧
    ∀ ending, l.Lists ending ∧ r'.owners.get? ending = some l.name ∨
      ¬l.Lists ending ∧ r'.owners.get? ending = r.owners.get? ending := by
  rw [register_eq] at h
  split at h
  · cases h
  · obtain rfl := Except.ok.inj h
    refine ⟨rfl, fun ending => ?_⟩
    dsimp only
    rw [Dictionary.get?_foldl_assign]
    by_cases hlists : ∃ extension ∈ l.extensions, Text.lowercase extension = ending
    · exact .inl ⟨hlists, if_pos hlists⟩
    · exact .inr ⟨hlists, if_neg hlists⟩

/-! ## registrations in turn -/

/-- The languages whose registration is accepted, of those that are registered in turn. -/
def accepted (r : Languages) : List Language → List Language
  | [] => []
  | l :: ls =>
    match r.register l with
    | .ok r' => l :: r'.accepted ls
    | .error refused => refused.languages.accepted ls

theorem accepted_sublist (r : Languages) (ls : List Language) : (r.accepted ls).Sublist ls := by
  induction ls generalizing r with
  | nil => exact .slnil
  | cons l ls ih =>
    rw [accepted]
    cases r.register l with
    | ok r' => exact (ih r').cons_cons l
    | error refused => exact (ih refused.languages).cons l

/-- A registry that holds what languages accepted in turn have said. -/
structure Records (r : Languages) (kept : List Language) : Prop where
  owners (ending owner : String) : r.owners.get? ending = some owner ↔
    ∃ l ∈ kept, l.name = owner ∧ l.Lists ending
  byName (name : String) : r.byName.get? name = (kept.filter (·.name = name)).getLast?
  nodup_names : (r.byName.map Prod.fst).Nodup
  mem_names (name : String) : name ∈ r.byName.map Prod.fst ↔ name ∈ kept.map (·.name)

theorem records_nil : Records {} [] where
  owners _ _ := by simp
  byName _ := rfl
  nodup_names := List.nodup_nil
  mem_names _ := Iff.rfl

/-- An accepted registration is recorded. -/
theorem Records.register (h : Records r kept) (hok : r.register l = .ok r') :
    Records r' (kept ++ [l]) := by
  obtain ⟨hnames, howners⟩ := eq_of_register hok
  have hfree (ending owner : String) (hlists : l.Lists ending)
      (howner : r.owners.get? ending = some owner) : owner = l.name := by
    by_contra hne
    obtain ⟨refused, herror⟩ := register_eq_error_iff.2 ⟨ending, owner, hlists, howner, hne⟩
    rw [hok] at herror
    cases herror
  refine ⟨fun ending owner => ?_, fun name => ?_, ?_, fun name => ?_⟩
  · simp only [List.mem_append, List.mem_singleton, or_and_right, exists_or, exists_eq_left,
      ← h.owners]
    obtain ⟨hlists, heq⟩ | ⟨hlists, heq⟩ := howners ending
    · rw [heq, Option.some.injEq]
      exact ⟨fun hname => .inr ⟨hname, hlists⟩,
        fun hname => hname.elim (fun howner => (hfree ending owner hlists howner).symm) And.left⟩
    · simp [heq, hlists]
  · rw [hnames, List.filter_append]
    by_cases hname : l.name = name
    · rw [List.filter_cons_of_pos (by simpa using hname), ← hname, Dictionary.get?_assign_self,
        List.filter_nil, List.getLast?_concat]
    · rw [List.filter_cons_of_neg (by simpa using hname), Dictionary.get?_assign_of_ne hname,
        h.byName, List.filter_nil, List.append_nil]
  · rw [hnames, Dictionary.keys_assign]
    split
    · exact h.nodup_names
    · next hnew => exact List.nodup_append.2 ⟨h.nodup_names, List.nodup_singleton _, by
        rintro a ha b hb rfl
        exact hnew (List.mem_singleton.1 hb ▸ ha)⟩
  · rw [hnames, Dictionary.keys_assign, List.map_append, List.mem_append, ← h.mem_names]
    split
    · next hold =>
      refine ⟨.inl, fun hname => hname.elim id fun hname => ?_⟩
      rwa [List.mem_singleton.1 hname]
    · rw [List.mem_append]
      rfl

/-- Registrations in turn, from what has been recorded on. -/
theorem Records.foldl (h : Records r kept) (ls : List Language) :
    Records (ls.foldl registered r) (kept ++ r.accepted ls) := by
  induction ls generalizing r kept with
  | nil => rwa [accepted, List.append_nil]
  | cons l ls ih =>
    rw [List.foldl_cons, registered, accepted]
    cases hregister : r.register l with
    | ok r' =>
      rw [List.append_cons]
      exact ih (h.register hregister)
    | error refused =>
      dsimp only
      rw [languages_of_register hregister]
      exact ih h

/-- A registry that is built from nothing records the accepted languages. -/
theorem records_ofList (ls : List Language) : Records (ofList ls) (accepted {} ls) :=
  records_nil.foldl ls

/-- What is owned stays owned by the same language, whatever is registered afterwards. -/
theorem owner_append {ending owner : String}
    (h : (ofList ls).owners.get? ending = some owner) (later : List Language) :
    (ofList (ls ++ later)).owners.get? ending = some owner := by
  have hlater := (records_ofList ls).foldl later
  rw [ofList, List.foldl_append]
  obtain ⟨l, hl, hlists⟩ := ((records_ofList ls).owners ending owner).1 h
  exact (hlater.owners ending owner).2 ⟨l, List.mem_append_left _ hl, hlists⟩

/-- There are as many languages as different names. -/
theorem Records.size_eq (h : Records r kept) : r.size = (kept.map (·.name)).dedup.length := by
  have hperm : (r.byName.map Prod.fst).Perm (kept.map (·.name)).dedup :=
    (List.perm_ext_iff_of_nodup h.nodup_names (List.nodup_dedup _)).2 fun name => by
      rw [h.mem_names, List.mem_dedup]
  rw [size, ← hperm.length_eq, List.length_map]

/-- The language of a file is the last one of the name that owns its ending. -/
theorem Records.get?_eq (h : Records r kept) (hnames : ∀ l ∈ kept, l.name ≠ "") {path : Path}
    {owner : String} (howner : r.owners.get? (ending path) = some owner) :
    r.get? path = (kept.filter (·.name = owner)).getLast? ∧ (r.get? path).isSome := by
  obtain ⟨l, hl, rfl, -⟩ := (h.owners _ _).1 howner
  have hget : r.get? path = (kept.filter (·.name = l.name)).getLast? := by
    rw [get?, howner]
    dsimp only
    rw [if_neg (hnames l hl), h.byName]
  refine ⟨hget, ?_⟩
  rw [hget, List.getLast?_isSome]
  exact List.ne_nil_of_mem (List.mem_filter.2 ⟨hl, by simp⟩)

/-- After languages with names have been registered in turn: a registration is refused exactly for
an ending that another language owns, and leaves the registry as it was; an ending is owned by the
name of every accepted language that lists it, and by no other name later on; the languages are
counted by their names; and a file has a language exactly if an accepted language lists its
ending, and then it is the last one accepted under the name of the owner. -/
theorem register_history (hnames : ∀ l ∈ ls, l.name ≠ "") :
    (∀ l, ((∃ refused, (ofList ls).register l = .error refused) ↔
        ∃ ending owner, l.Lists ending ∧ (ofList ls).owners.get? ending = some owner ∧
          owner ≠ l.name) ∧
      ∀ refused, (ofList ls).register l = .error refused →
        refused.languages = ofList ls ∧ ofList (ls ++ [l]) = ofList ls) ∧
    (∀ ending owner, (ofList ls).owners.get? ending = some owner ↔
      ∃ l ∈ accepted {} ls, l.name = owner ∧ l.Lists ending) ∧
    (∀ ending owner, (ofList ls).owners.get? ending = some owner →
      ∀ later, (ofList (ls ++ later)).owners.get? ending = some owner) ∧
    (ofList ls).size = ((accepted {} ls).map (·.name)).dedup.length ∧
    ∀ path, ((ofList ls).supports path = true ↔ ((ofList ls).get? path).isSome = true) ∧
      ((ofList ls).supports path = true ↔ ∃ l ∈ accepted {} ls, l.Lists (ending path)) ∧
      ∀ l ∈ accepted {} ls, l.Lists (ending path) →
        (ofList ls).get? path = ((accepted {} ls).filter (·.name = l.name)).getLast? := by
  have h := records_ofList ls
  have hkept : ∀ l ∈ accepted {} ls, l.name ≠ "" :=
    fun l hl => hnames l ((accepted_sublist {} ls).subset hl)
  refine ⟨fun l => ⟨register_eq_error_iff, fun refused herror => ?_⟩, h.owners,
    fun _ _ howner => owner_append howner, h.size_eq, fun path => ⟨?_, ?_, fun l hl hlists => ?_⟩⟩
  · have hsame := languages_of_register herror
    refine ⟨hsame, ?_⟩
    rw [ofList, List.foldl_append, List.foldl_cons, List.foldl_nil, ← ofList, registered, herror]
    exact hsame
  · cases howner : (ofList ls).owners.get? (ending path) with
    | none => simp [supports, get?, howner]
    | some owner => simp [supports, howner, (h.get?_eq hkept howner).2]
  · rw [supports, Option.isSome_iff_exists]
    constructor
    · rintro ⟨owner, howner⟩
      obtain ⟨l, hl, -, hlists⟩ := (h.owners _ _).1 howner
      exact ⟨l, hl, hlists⟩
    · rintro ⟨l, hl, hlists⟩
      exact ⟨l.name, (h.owners _ _).2 ⟨l, hl, rfl, hlists⟩⟩
  · exact (h.get?_eq hkept ((h.owners _ _).2 ⟨l, hl, rfl, hlists⟩)).1

/-! ## three registrations -/

/-- The first one to list endings of scripts. -/
def firstScript : Language :=
  { name := "JavaScript", grammar := "javascript", extensions := [".js", ".mjs"] }

/-- It lists an ending of its own, and one that is owned. -/
def lateMarkup : Language :=
  { name := "Svelte", grammar := "javascript", extensions := [".svelte", ".JS"] }

/-- The same name as the first one, with an ending in two spellings. -/
def secondScript : Language :=
  { name := "JavaScript", grammar := "javascript", extensions := [".js", ".Js", ".jsx"] }

/-- One is refused and leaves the registry as it was, and the other two count as one language, which
owns the endings of both. -/
theorem register_history_three :
    (∀ l ∈ [firstScript, lateMarkup, secondScript], l.name ≠ "") ∧
    (∃ refused, (ofList [firstScript]).register lateMarkup = .error refused ∧
      refused.languages = ofList [firstScript] ∧
      ofList [firstScript, lateMarkup] = ofList [firstScript]) ∧
    (ofList [firstScript, lateMarkup, secondScript]).size = 1 ∧
    (ofList [firstScript, lateMarkup, secondScript]).get? (.ofString "a.MJS") = some secondScript ∧
    (ofList [firstScript, lateMarkup, secondScript]).supports (.ofString "a.svelte") = false := by
  have hnames : ∀ l ∈ [firstScript, lateMarkup, secondScript], l.name ≠ "" := by decide
  have haccepted : accepted {} [firstScript, lateMarkup, secondScript] =
      [firstScript, secondScript] := by decide +kernel
  have hending : ending (.ofString "a.MJS") = ".mjs" := by decide +kernel
  have hother : ending (.ofString "a.svelte") = ".svelte" := by decide +kernel
  obtain ⟨-, -, -, hsize, hpath⟩ := register_history hnames
  obtain ⟨hlate, -⟩ := @register_history [firstScript] (by decide)
  obtain ⟨hrefused, hkept⟩ := hlate lateMarkup
  obtain ⟨refused, hrefused⟩ := hrefused.2
    ⟨".js", "JavaScript", ⟨".JS", by decide, by decide +kernel⟩, by decide +kernel, by decide⟩
  rw [haccepted] at hsize hpath
  refine ⟨hnames, ⟨refused, hrefused, hkept refused hrefused⟩, hsize.trans (by decide), ?_, ?_⟩
  · rw [(hpath (.ofString "a.MJS")).2.2 firstScript List.mem_cons_self
      (hending ▸ ⟨".mjs", by decide, by decide +kernel⟩)]
    rfl
  · rw [← Bool.not_eq_true, (hpath (.ofString "a.svelte")).2.1, hother]
    unfold Language.Lists
    decide +kernel

end Languages

end ScriptIndent
