import Mathlib.Data.List.Infix
import ScriptIndent.Language.Registry

/-!
# ScriptIndent.Proofs.Language.Exclusions

Which paths are passed over.

```
**/dist/**    a/dist/b.js     the part `dist` has a slash on either side
**/dist/**    dist/b.js       it stands at the top: matched without the first three characters
**/dist/**    a/dist          not excluded: nothing follows
**/dist/**    a/redist/b.js   not excluded: the part is another one
```

A star crosses slashes, so a pattern knows nothing of the names in a path.  A name in one with
slashes around it, though, stands where a name of the path stands and another one follows
(`Path.passes_toString_iff`), since the path is in normal form: no name in it is empty, and none
holds a slash.
-/

namespace ScriptIndent

/-! ## patterns -/

namespace Glob

variable {s text : List Char} {ps : List Piece}

private theorem anyTail_iff {p : List Char → Bool} :
    anyTail p s = true ↔ ∃ t, t <:+ s ∧ p t = true := by
  induction s with
  | nil => simp [anyTail]
  | cons c rest ih => simp [anyTail, List.suffix_cons_iff, or_and_right, exists_or, ih]

theorem accepts_star_iff :
    accepts (.star :: ps) s = true ↔ ∃ t, t <:+ s ∧ accepts ps t = true := by
  rw [accepts, anyTail_iff]

/-- Two stars match what one does. -/
theorem accepts_stars : accepts (.star :: .star :: ps) s = accepts (.star :: ps) s := by
  rw [Bool.eq_iff_iff, accepts_star_iff, accepts_star_iff]
  constructor
  · rintro ⟨t, ht, h⟩
    obtain ⟨u, hu, h⟩ := accepts_star_iff.1 h
    exact ⟨u, hu.trans ht, h⟩
  · rintro ⟨t, ht, h⟩
    exact ⟨t, ht, accepts_star_iff.2 ⟨t, t.suffix_refl, h⟩⟩

/-- A last star matches everything. -/
theorem accepts_star_nil : accepts [.star] s = true :=
  accepts_star_iff.2 ⟨[], s.nil_suffix, rfl⟩

theorem accepts_chars_iff : accepts (text.map .char ++ ps) s = true ↔
    ∃ rest, text ++ rest = s ∧ accepts ps rest = true := by
  induction text generalizing s with
  | nil => simp
  | cons d text ih =>
    cases s with
    | nil => simp [accepts]
    | cons c s =>
      rw [List.map_cons, List.cons_append, accepts, Bool.and_eq_true, ih, beq_iff_eq]
      simp only [List.cons_append, List.cons.injEq, and_assoc, exists_and_left, eq_comm]

/-- Characters that stand for themselves in a pattern. -/
def Plain (text : List Char) : Prop := ∀ c ∈ text, c ≠ '*' ∧ c ≠ '?' ∧ c ≠ '['

instance decidablePlain (text : List Char) : Decidable (Plain text) :=
  decidable_of_iff (text.all fun c => c != '*' && c != '?' && c != '[') <| by
    simp [Plain, and_assoc]

theorem Plain.append {rest : List Char} (h : Plain text) (hrest : Plain rest) :
    Plain (text ++ rest) := fun c hc => (List.mem_append.1 hc).elim (h c) (hrest c)

theorem compile_append (h : Plain text) (rest : List Char) :
    compile (text ++ rest) = text.map .char ++ compile rest := by
  induction text with
  | nil => rfl
  | cons c text ih =>
    obtain ⟨hstar, hany, hclass⟩ := h c List.mem_cons_self
    rw [List.cons_append, compile.eq_5 _ _ hstar hany hclass,
      ih fun d hd => h d (List.mem_cons_of_mem c hd)]
    rfl

theorem compile_star (rest : List Char) : compile ('*' :: rest) = .star :: compile rest := by
  rw [compile]

theorem compile_nil : compile [] = [] := by rw [compile]

/-- A text and two stars match what begins with the text. -/
theorem accepts_from_iff (h : Plain text) :
    accepts (compile (text ++ ['*', '*'])) s = true ↔ text <+: s := by
  rw [compile_append h, compile_star, compile_star, compile_nil, accepts_chars_iff]
  simp only [accepts_stars, accepts_star_nil, and_true, List.IsPrefix]

/-- With two stars on either side a text matches what holds it. -/
theorem accepts_within_iff (h : Plain text) :
    accepts (compile ('*' :: '*' :: (text ++ ['*', '*']))) s = true ↔ text <:+: s := by
  rw [compile_star, compile_star, accepts_stars, accepts_star_iff, List.infix_iff_prefix_suffix]
  simp only [accepts_from_iff h, and_comm]

/-- A star and a text match what ends with the text. -/
theorem accepts_to_iff (h : Plain text) :
    accepts (compile ('*' :: text)) s = true ↔ text <:+ s := by
  have hcompile : compile text = text.map .char ++ [] := by
    simpa [compile_nil] using compile_append h []
  rw [compile_star, hcompile, accepts_star_iff]
  simp only [accepts_chars_iff]
  constructor
  · rintro ⟨t, ht, rest, rfl, hrest⟩
    rw [List.isEmpty_iff.1 hrest, List.append_nil] at ht
    exact ht
  · exact fun ht => ⟨text, ht, [], List.append_nil _, rfl⟩

end Glob

/-! ## names in a path -/

/-- No part of a text that is split holds what it is split at. -/
theorem not_mem_of_mem_splitOn {α : Type} [DecidableEq α] {a : α} {s part : List α}
    (h : part ∈ s.splitOn a) : a ∉ part := by
  induction s generalizing part with
  | nil => simp_all [List.splitOn_eq_splitOnP]
  | cons c s ih =>
    rw [List.splitOn_cons_eq_if_modifyHead] at h
    cases hsplit : s.splitOn a with
    | nil => exact absurd hsplit (List.splitOn_ne_nil a s)
    | cons first rest =>
      rw [hsplit] at h ih
      split at h
      · obtain rfl | h := List.mem_cons.1 h
        · exact List.not_mem_nil
        · exact ih h
      · next hne =>
        obtain rfl | h := List.mem_cons.1 h
        · rw [List.mem_cons, not_or]
          exact ⟨fun hac => hne (beq_iff_eq.2 hac.symm), ih List.mem_cons_self⟩
        · exact ih (List.mem_cons_of_mem _ h)

namespace Path

variable {part other s : List Char} {names : List String}

/-- A part of a text from its start or a slash to a slash. -/
def Passes (part s : List Char) : Prop := part ++ ['/'] <+: s ∨ '/' :: (part ++ ['/']) <:+: s

theorem not_passes (h : '/' ∉ s) : ¬Passes part s := by
  rintro (htop | hbelow)
  · exact h (htop.subset (by simp))
  · exact h (hbelow.subset (by simp))

/-- Behind what holds no slash, a text that begins with one is found at the first slash or later. -/
theorem slash_infix_iff {rest : List Char} (h : '/' ∉ other) :
    '/' :: rest <:+: other ++ '/' :: s ↔ rest <+: s ∨ '/' :: rest <:+: s := by
  induction other with
  | nil => rw [List.nil_append, List.infix_cons_iff, List.prefix_cons_inj]
  | cons c other ih =>
    rw [List.mem_cons, not_or] at h
    rw [List.cons_append, List.infix_cons_iff, List.cons_prefix_cons, ih h.2]
    exact or_iff_right fun hhead => h.1 hhead.1

/-- Two parts without a slash in front of one are the same. -/
theorem slash_prefix_iff (hpart : '/' ∉ part) (hother : '/' ∉ other) :
    part ++ ['/'] <+: other ++ '/' :: s ↔ part = other := by
  constructor
  · rintro ⟨rest, heq⟩
    have hsplit := congrArg (List.splitOn '/') heq
    rw [List.append_assoc, List.singleton_append,
      List.splitOn_append_cons_self_of_not_mem hpart,
      List.splitOn_append_cons_self_of_not_mem hother] at hsplit
    exact List.head_eq_of_cons_eq hsplit
  · rintro rfl
    exact ⟨s, List.append_assoc _ _ _⟩

theorem passes_append_iff (hpart : '/' ∉ part) (hother : '/' ∉ other) :
    Passes part (other ++ '/' :: s) ↔ part = other ∨ Passes part s := by
  rw [Passes, slash_prefix_iff hpart hother, slash_infix_iff hother, Passes]

/-- A text of names with slashes between them passes through all but the last. -/
theorem passes_intercalate_iff (hpart : '/' ∉ part) {parts : List (List Char)}
    (hparts : ∀ other ∈ parts, '/' ∉ other) :
    Passes part (['/'].intercalate parts) ↔ part ∈ parts.dropLast := by
  induction parts with
  | nil => exact iff_of_false (not_passes List.not_mem_nil) List.not_mem_nil
  | cons other rest ih =>
    have hother := hparts other List.mem_cons_self
    cases rest with
    | nil =>
      rw [List.intercalate_singleton]
      exact iff_of_false (not_passes hother) List.not_mem_nil
    | cons next rest =>
      rw [List.intercalate_cons_cons, List.append_assoc, List.singleton_append,
        passes_append_iff hpart hother, ih fun part h => hparts part (List.mem_cons_of_mem _ h),
        List.dropLast_cons_cons, List.mem_cons]

/-- No name in a path holds a slash. -/
theorem slash_not_mem_of_mem_names {path name : String} (h : name ∈ (ofString path).names) :
    '/' ∉ name.toList := by
  obtain ⟨part, hpart, rfl⟩ := List.mem_map.1 (List.mem_of_mem_filter h)
  rw [String.toList_ofList]
  exact not_mem_of_mem_splitOn hpart

private theorem rootOf_cases (s : List Char) : rootOf s = "" ∨ rootOf s = "/" ∨ rootOf s = "//" := by
  unfold rootOf
  split <;> simp

/-- The text of a path passes through its names but the last. -/
theorem passes_toString_iff {name : String} (hname : name ≠ "") (hslash : '/' ∉ name.toList)
    (path : String) : Passes name.toList (ofString path).toString.toList ↔
      name ∈ (ofString path).names.dropLast := by
  have hnil : name.toList ≠ [] := by simpa using hname
  have hnames : Passes name.toList ("/".intercalate (ofString path).names).toList ↔
      name ∈ (ofString path).names.dropLast := by
    have hslashes : "/".toList = ['/'] := rfl
    rw [String.toList_intercalate, hslashes, passes_intercalate_iff hslash]
    · rw [← List.map_dropLast]
      exact List.mem_map_of_injective fun _ _ => String.toList_inj.1
    · rintro _ h
      obtain ⟨other, hother, rfl⟩ := List.mem_map.1 h
      exact slash_not_mem_of_mem_names hother
  have hfirst (s : List Char) : Passes name.toList ('/' :: s) ↔ Passes name.toList s :=
    (passes_append_iff hslash List.not_mem_nil).trans (or_iff_right hnil)
  rw [toString]
  split
  · next hdot =>
    have hempty : (ofString path).names = [] := by simp_all
    rw [hempty]
    exact iff_of_false (not_passes (by decide)) List.not_mem_nil
  · rw [String.toList_append, ← hnames]
    obtain hroot | hroot | hroot := rootOf_cases path.toList
    · rw [show (ofString path).root = "" from hroot]
      rfl
    · rw [show (ofString path).root = "/" from hroot]
      exact hfirst _
    · rw [show (ofString path).root = "//" from hroot]
      calc Passes name.toList ('/' :: '/' :: _) ↔ Passes name.toList ('/' :: _) := hfirst _
        _ ↔ Passes name.toList _ := hfirst _

end Path

/-! ## exclusions -/

namespace Language

/-- A pattern for anywhere in the tree excludes what it matches, and what it matches without its
first part. -/
theorem patternExcludes_anywhere_iff {path : String} (pattern : String) :
    patternExcludes path (anywhere ++ pattern) = true ↔
      Glob.accepts (Glob.compile ('*' :: '*' :: '/' :: pattern.toList)) path.toList = true ∨
      Glob.accepts (Glob.compile pattern.toList) path.toList = true := by
  have hstarts : (anywhere ++ pattern).startsWith anywhere = true := by simp
  have hdrop : ((anywhere ++ pattern).drop anywhere.length).toString.toList = pattern.toList := by
    rw [String.Slice.toString_eq, String.toList_copy_drop, String.toList_append]
    exact List.drop_left
  rw [patternExcludes, hstarts, Bool.true_and, Bool.or_eq_true, Glob.test, Glob.test, hdrop,
    String.toList_append]
  rfl

/-- The pattern for everything below a directory of a name, wherever it is. -/
theorem patternExcludes_below_iff {name : String} (hname : name ≠ "") (hslash : '/' ∉ name.toList)
    (hplain : Glob.Plain name.toList) (path : String) :
    patternExcludes (Path.ofString path).toString (anywhere ++ (name ++ "/**")) = true ↔
      name ∈ (Path.ofString path).names.dropLast := by
  have hend : Glob.Plain ['/'] := by decide
  have hparted : Glob.Plain ('/' :: (name.toList ++ ['/'])) := hend.append (hplain.append hend)
  have htext : (name ++ "/**").toList = (name.toList ++ ['/']) ++ ['*', '*'] := by
    rw [String.toList_append, List.append_assoc]
    rfl
  have hwithin : '*' :: '*' :: '/' :: (name ++ "/**").toList =
      '*' :: '*' :: (('/' :: (name.toList ++ ['/'])) ++ ['*', '*']) := by rw [htext]; rfl
  rw [patternExcludes_anywhere_iff, hwithin, htext,
    Glob.accepts_within_iff hparted, Glob.accepts_from_iff (hplain.append hend), or_comm,
    ← Path.passes_toString_iff hname hslash]
  rfl

/-- The pattern for all names with an ending, wherever they are. -/
theorem patternExcludes_ending_iff {ending : String} (hplain : Glob.Plain ending.toList)
    (path : String) : patternExcludes path (anywhere ++ ("*" ++ ending)) = true ↔
      ending.toList <:+ path.toList := by
  have hslash : Glob.Plain ['/'] := by decide
  have htext : ("*" ++ ending).toList = '*' :: ending.toList := String.toList_append
  rw [patternExcludes_anywhere_iff, htext, Glob.accepts_to_iff hplain, or_iff_right_of_imp]
  -- what has the ending behind a slash has it
  intro h
  rw [Glob.compile_star, Glob.compile_star, Glob.accepts_stars, Glob.accepts_star_iff] at h
  obtain ⟨t, ht, h⟩ := h
  rw [← List.singleton_append, Glob.compile_append hslash, Glob.accepts_chars_iff] at h
  obtain ⟨rest, rfl, h⟩ := h
  calc ending.toList <:+ rest := (Glob.accepts_to_iff hplain).1 h
    _ <:+ ['/'] ++ rest := List.suffix_append _ _
    _ <:+ path.toList := ht

theorem excludes_iff {l : Language} {path : String} : l.excludes path = true ↔
    ∃ pattern ∈ l.exclusions, patternExcludes (Path.ofString path).toString pattern = true :=
  List.any_eq_true

end Language

namespace Languages

/-- The directories that some built-in language passes over. -/
def skipped : List String :=
  ["node_modules", "dist", "build", "coverage", "vendor", ".svelte-kit"]

theorem plain_of_mem_skipped {name : String} (h : name ∈ skipped) :
    name ≠ "" ∧ '/' ∉ name.toList ∧ Glob.Plain name.toList := by
  revert h name
  decide

/-- The patterns of the built-in languages, each of them once. -/
theorem exclusions_builtin :
    builtin.byName.flatMap (·.2.exclusions) ⊆
      (Language.anywhere ++ ("*" ++ ".min.js")) ::
        skipped.map (fun name => Language.anywhere ++ (name ++ "/**")) ∧
    (Language.anywhere ++ ("*" ++ ".min.js")) ::
        skipped.map (fun name => Language.anywhere ++ (name ++ "/**")) ⊆
      builtin.byName.flatMap (·.2.exclusions) := by
  decide +kernel

theorem excludes_iff {r : Languages} {path : String} : r.excludes path = true ↔
    ∃ pattern ∈ r.byName.flatMap (·.2.exclusions),
      Language.patternExcludes (Path.ofString path).toString pattern = true := by
  simp only [excludes, List.any_eq_true, Language.excludes_iff, List.mem_flatMap]
  constructor
  · rintro ⟨entry, hentry, pattern, hpattern, h⟩
    exact ⟨pattern, ⟨entry, hentry, hpattern⟩, h⟩
  · rintro ⟨pattern, ⟨entry, hentry, hpattern⟩, h⟩
    exact ⟨entry, hentry, pattern, hpattern, h⟩

/-- The built-in languages pass over a path if a name in it other than the last is that of a
directory to skip, or if it ends like a minified script; and the pattern for a directory excludes
a path exactly if the name of the directory is a name in it other than the last. -/
theorem builtin_excludes_iff (path : String) :
    (builtin.excludes path = true ↔
      (∃ name ∈ skipped, name ∈ (Path.ofString path).names.dropLast) ∨
        ".min.js".toList <:+ (Path.ofString path).toString.toList) ∧
    ∀ (l : Language) (name : String), name ≠ "" → '/' ∉ name.toList → Glob.Plain name.toList →
      l.exclusions = [Language.anywhere ++ (name ++ "/**")] →
        (l.excludes path = true ↔ name ∈ (Path.ofString path).names.dropLast) := by
  constructor
  · have hminified : Glob.Plain ".min.js".toList := by decide
    have hpatterns (pattern : String) : pattern ∈ builtin.byName.flatMap (·.2.exclusions) ↔
        pattern = Language.anywhere ++ ("*" ++ ".min.js") ∨
          ∃ name ∈ skipped, Language.anywhere ++ (name ++ "/**") = pattern := by
      rw [← List.mem_map, ← List.mem_cons]
      exact ⟨fun h => exclusions_builtin.1 h, fun h => exclusions_builtin.2 h⟩
    simp only [excludes_iff, hpatterns, or_and_right, exists_or, exists_eq_left,
      Language.patternExcludes_ending_iff hminified]
    rw [or_comm]
    refine or_congr_left ⟨?_, ?_⟩
    · rintro ⟨_, ⟨name, hname, rfl⟩, h⟩
      obtain ⟨hne, hslash, hplain⟩ := plain_of_mem_skipped hname
      exact ⟨name, hname, (Language.patternExcludes_below_iff hne hslash hplain path).1 h⟩
    · rintro ⟨name, hname, h⟩
      obtain ⟨hne, hslash, hplain⟩ := plain_of_mem_skipped hname
      exact ⟨_, ⟨name, hname, rfl⟩,
        (Language.patternExcludes_below_iff hne hslash hplain path).2 h⟩
  · intro l name hne hslash hplain hexclusions
    rw [Language.excludes_iff, hexclusions]
    simp only [List.mem_singleton, exists_eq_left,
      Language.patternExcludes_below_iff hne hslash hplain path]

/-- A language that passes over one directory, whose name holds half a bracket. -/
def generated : Language where
  name := "Generated"
  grammar := "javascript"
  extensions := [".js"]
  exclusions := [Language.anywhere ++ ("gen]" ++ "/**")]

/-- A nested directory is passed over, and a file of the same name is not. -/
theorem builtin_excludes_generated :
    "gen]" ≠ "" ∧ '/' ∉ "gen]".toList ∧ Glob.Plain "gen]".toList ∧
    generated.excludes "./src//gen]/a.js" = true ∧ ¬generated.excludes "src/gen]" = true ∧
    builtin.excludes "rebuild/../build/a.js" = true := by
  have hname : "gen]" ≠ "" := by decide
  have hslash : '/' ∉ "gen]".toList := by decide
  have hplain : Glob.Plain "gen]".toList := by decide
  refine ⟨hname, hslash, hplain, ?_, ?_, ?_⟩
  · rw [(builtin_excludes_iff _).2 generated "gen]" hname hslash hplain rfl]
    decide +kernel
  · rw [(builtin_excludes_iff _).2 generated "gen]" hname hslash hplain rfl]
    decide +kernel
  · exact (builtin_excludes_iff _).1.2 (.inl ⟨"build", by decide, by decide +kernel⟩)

end Languages

end ScriptIndent
