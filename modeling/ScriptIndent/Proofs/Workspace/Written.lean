import Mathlib.Logic.Basic
import Mathlib.Tactic.SplitIfs
import ScriptIndent.Workspace.Change

/-!
# ScriptIndent.Proofs.Workspace.Written

What writing a file changes.

A file is written at a place, and directories may be made on the way to it.  Whatever was there
before is still there, and besides it there are only the file and directories (`Written`), so
that a path that goes down from a directory (`Descends`) leads to the file, or to what it has
led to before.

* `Workspace.writeIn_written` — writing a file in a directory;
* `Written.read_cases` — what a path that goes down leads to afterwards;
* `Grows.toOption_read_eq` — what it leads to if the file could not be written.
-/

namespace ScriptIndent.Workspace

/-! ## places -/

theorem isSome_below?_iff {top place : Place} :
    (below? top place).isSome = true ↔ top <+: place ∧ top.length < place.length := by
  unfold below?
  split_ifs with h
  · simpa [List.isPrefixOf_iff_prefix] using h
  · simpa [List.isPrefixOf_iff_prefix] using h

section Content

variable {w : Workspace} {place other : Place} {content : Content}

theorem content?_of_lookup (h : w.contents.lookup place = some content) :
    w.content? place = some content := by rw [content?, h]

/-- Where nothing is stored there is a directory, if anything. -/
theorem eq_directory_of_lookup_none (hlookup : w.contents.lookup place = none)
    (h : w.content? place = some content) : content = .directory := by
  rw [content?, hlookup] at h
  simp only at h
  split_ifs at h
  exact (Option.some.inj h).symm

/-- There is something at a place if it is the top, or something is stored at it or below. -/
theorem isSome_content?_iff : (w.content? place).isSome ↔
    place = [] ∨ ∃ entry ∈ w.contents, place <+: entry.1 := by
  cases hlookup : w.contents.lookup place with
  | some content =>
    obtain ⟨before, behind, heq, -⟩ := List.lookup_eq_some_iff.1 hlookup
    rw [content?_of_lookup hlookup]
    exact iff_of_true rfl (.inr ⟨(place, content), by simp [heq], List.prefix_refl place⟩)
  | none =>
    have hbelow (entry : Place × Content) (hentry : entry ∈ w.contents) :
        (below? place entry.1).isSome ↔ place <+: entry.1 := by
      rw [isSome_below?_iff]
      refine ⟨And.left, fun hpre => ⟨hpre, Nat.lt_of_le_of_ne hpre.length_le fun heq => ?_⟩⟩
      have hne := List.lookup_eq_none_iff.1 hlookup entry hentry
      simp [hpre.eq_of_length heq] at hne
    have hsome : (w.content? place).isSome ↔
        place = [] ∨ ∃ entry ∈ w.contents, (below? place entry.1).isSome := by
      rw [content?, hlookup]
      simp only [Option.isSome_ite, Bool.or_eq_true, List.isEmpty_iff, List.any_eq_true]
    rw [hsome]
    exact or_congr_right (exists_congr fun entry => and_congr_right fun hentry =>
      hbelow entry hentry)

/-- Above a place at which there is something, there is something. -/
theorem isSome_content?_of_prefix (h : other <+: place) (hplace : (w.content? place).isSome) :
    (w.content? other).isSome := by
  rw [isSome_content?_iff] at hplace ⊢
  obtain rfl | ⟨entry, hentry, hpre⟩ := hplace
  · exact .inl (List.prefix_nil.1 h)
  · exact .inr ⟨entry, hentry, h.trans hpre⟩

theorem lookup_put : (w.put place content).contents.lookup other =
    if other = place then some content else w.contents.lookup other := by
  have hlast : List.lookup other [(place, content)] =
      if other = place then some content else none := by
    rw [List.lookup_cons]
    by_cases h : other = place
    · simp [h]
    · rw [beq_eq_false_iff_ne.2 h, if_neg h]
      rfl
  have hfilter : List.lookup other (w.contents.filter (·.1 ≠ place)) =
      if other = place then none else w.contents.lookup other := by
    induction w.contents with
    | nil => simp
    | cons entry rest ih =>
      by_cases hentry : entry.1 = place
      · rw [List.filter_cons_of_neg (by simpa using hentry), ih]
        split_ifs with h
        · rfl
        · rw [List.lookup_cons, beq_eq_false_iff_ne.2 (hentry ▸ h)]
      · rw [List.filter_cons_of_pos (by simpa using hentry), List.lookup_cons, ih, List.lookup_cons]
        by_cases h : other = entry.1
        · simp [h, hentry]
        · rw [beq_eq_false_iff_ne.2 h]
  rw [put, List.lookup_append, hfilter, hlast]
  split_ifs <;> simp

theorem content?_put_self : (w.put place content).content? place = some content :=
  content?_of_lookup (by rw [lookup_put, if_pos rfl])

/-- What is put at a place leaves what is at the others, and adds only directories. -/
theorem content?_put_of_ne (h : other ≠ place) :
    (∀ c, w.content? other = some c → (w.put place content).content? other = some c) ∧
    ∀ c, w.content? other = none → (w.put place content).content? other = some c →
      c = .directory := by
  have hlookup : (w.put place content).contents.lookup other = w.contents.lookup other := by
    rw [lookup_put, if_neg h]
  constructor
  · intro c hc
    cases hold : w.contents.lookup other with
    | some d =>
      rw [content?_of_lookup hold] at hc
      rw [content?_of_lookup (hlookup.trans hold), hc]
    | none =>
      obtain rfl := eq_directory_of_lookup_none hold hc
      have hsome : ((w.put place content).content? other).isSome := by
        rw [isSome_content?_iff]
        refine (isSome_content?_iff.1 (Option.isSome_of_mem hc)).imp id ?_
        rintro ⟨entry, hentry, hpre⟩
        by_cases hplace : entry.1 = place
        · exact ⟨(place, content), by simp [put], hplace ▸ hpre⟩
        · exact ⟨entry, by simp [put, hentry, hplace], hpre⟩
      obtain ⟨d, hd⟩ := Option.isSome_iff_exists.1 hsome
      rw [hd, eq_directory_of_lookup_none (hlookup.trans hold) hd]
  · intro c hnone hc
    cases hold : w.contents.lookup other with
    | some d => rw [content?_of_lookup hold] at hnone; cases hnone
    | none => exact eq_directory_of_lookup_none (hlookup.trans hold) hc

end Content

/-! ## what is added -/

/-- A workspace with all that another one has, and besides it only directories, and maybe a file
at one of some places. -/
structure Grows (w w' : Workspace) (new : Place → Prop) : Prop where
  here_eq : w'.here = w.here
  kept : ∀ place content, ¬new place → w.content? place = some content →
    w'.content? place = some content
  added : ∀ place content, ¬new place → w.content? place = none →
    w'.content? place = some content → content = .directory

/-- A workspace after a file has been written at a place. -/
structure Written (w w' : Workspace) (place : Place) (bytes : Bytes) : Prop
    extends Grows w w' (· = place) where
  not_directory : w.content? place ≠ some .directory
  written : w'.content? place = some (.file bytes)

section Grows

variable {w w' w'' : Workspace} {new : Place → Prop}

theorem Grows.refl (w : Workspace) : Grows w w new where
  here_eq := rfl
  kept _ _ _ h := h
  added _ _ _ hnone h := by rw [hnone] at h; cases h

theorem Grows.trans (h : Grows w w' fun _ => False) (h' : Grows w' w'' new) : Grows w w'' new where
  here_eq := h'.here_eq.trans h.here_eq
  kept place content hnew hc := h'.kept place content hnew (h.kept place content id hc)
  added place content hnew hnone hc := by
    cases hmiddle : w'.content? place with
    | none => exact h'.added place content hnew hmiddle hc
    | some d =>
      obtain rfl := h.added place d id hnone hmiddle
      have hd := h'.kept place .directory hnew hmiddle
      exact (Option.mem_unique hd hc).symm

/-- A directory is made where nothing is. -/
theorem grows_makeDirectory (w : Workspace) (path : Path) :
    Grows w (w.makeDirectory path).workspace fun _ => False := by
  unfold makeDirectory
  split
  · exact .refl w
  · split
    · exact .refl w
    · next place _ _ hnone =>
      refine ⟨rfl, fun other content _ hc => ?_, fun other content _ hother hc => ?_⟩
      · have hne : other ≠ place := by
          rintro rfl
          rw [hnone] at hc
          cases hc
        exact (content?_put_of_ne hne).1 content hc
      · by_cases hplace : other = place
        · subst hplace
          rw [content?_put_self] at hc
          exact (Option.some.inj hc).symm
        · exact (content?_put_of_ne hplace).2 content hother hc

theorem workspace_unlessDirectory (c : Change) (path : Path) :
    (c.unlessDirectory path).workspace = c.workspace := by
  unfold Change.unlessDirectory
  split <;> rfl

theorem grows_makeAbove (w : Workspace) (root : String) (names : List String) :
    Grows w (w.makeAbove root names).workspace fun _ => False := by
  induction names generalizing w with
  | nil =>
    rw [makeAbove, workspace_unlessDirectory]
    exact grows_makeDirectory w _
  | cons name above ih =>
    rw [makeAbove]
    dsimp only
    split
    · split
      · exact ih w
      · rw [workspace_unlessDirectory]
        exact (ih w).trans (grows_makeDirectory _ _)
    · rw [workspace_unlessDirectory]
      exact grows_makeDirectory w _

/-- A path keeps leading where it has led, if only directories have been passed on the way. -/
theorem Grows.follow (h : Grows w w' new) (hnew : ∀ place, new place →
    w.content? place ≠ some .directory) {names : List String} {start place : Place}
    (hfollow : w.follow start names = .ok place) : w'.follow start names = .ok place := by
  induction names generalizing start with
  | nil => exact hfollow
  | cons name rest ih =>
    rw [Workspace.follow] at hfollow ⊢
    cases hcontent : w.content? start with
    | none => rw [hcontent] at hfollow; cases hfollow
    | some content =>
      rw [hcontent] at hfollow
      cases content with
      | file bytes => cases hfollow
      | directory =>
        rw [h.kept start .directory (fun hstart => hnew start hstart hcontent) hcontent]
        simp only at hfollow ⊢
        split_ifs at hfollow ⊢
        all_goals exact ih hfollow

end Grows

section Written

variable {w w' : Workspace} {place : Place} {bytes : Bytes}

/-- Where a file is written there has been no directory, and there is none. -/
theorem Written.new_ne_directory (h : Written w w' place bytes) :
    (∀ other, other = place → w.content? other ≠ some .directory) ∧
      ∀ other, other = place → w'.content? other ≠ some .directory := by
  constructor
  · rintro _ rfl
    exact h.not_directory
  · rintro _ rfl hcontent
    cases h.written.symm.trans hcontent

theorem placeOf_of_newPlace {path : Path} (h : w.newPlace path = .ok place) :
    w.placeOf path = .ok place := by
  rw [newPlace] at h
  cases hplace : w.placeOf path with
  | error trouble => rw [hplace] at h; cases h
  | ok found =>
    rw [hplace] at h
    simp only [bind, Except.bind] at h
    split at h
    · exact h
    · cases h
    · cases h

/-- Putting a file where no directory is writes it. -/
theorem put_written (h : w.content? place ≠ some .directory) :
    Written w (w.put place (.file bytes)) place bytes where
  here_eq := rfl
  kept _ content hne := (content?_put_of_ne hne).1 content
  added _ content hne := (content?_put_of_ne hne).2 content
  not_directory := h
  written := content?_put_self

/-- A file is written at the place of its path. -/
theorem write_written {path : Path} (h : (w.write path bytes).error = none) :
    ∃ place, w.placeOf path = .ok place ∧ Written w (w.write path bytes).workspace place bytes := by
  unfold write at h ⊢
  cases hplace : w.newPlace path with
  | error trouble => rw [hplace] at h; cases h
  | ok place =>
    rw [hplace] at h
    refine ⟨place, placeOf_of_newPlace hplace, ?_⟩
    simp only at h ⊢
    split at h
    · cases h
    · next _ hcontent => exact put_written hcontent

theorem Grows.placeOf {new : Place → Prop} (h : Grows w w' new) (hnew : ∀ place, new place →
    w.content? place ≠ some .directory) {path : Path} (hplace : w.placeOf path = .ok place) :
    w'.placeOf path = .ok place := by
  rw [Workspace.placeOf] at hplace ⊢
  rw [h.here_eq]
  split_ifs at hplace ⊢
  all_goals exact h.follow hnew hplace

/-- A file is written in a directory. -/
theorem writeIn_written {directory : Path} {name : String}
    (h : (w.writeIn directory name bytes).error = none) :
    ∃ place, Written w (w.writeIn directory name bytes).workspace place bytes ∧
      (w.writeIn directory name bytes).workspace.placeOf (directory.child name) = .ok place := by
  have hmade : Grows w (w.makeDirectories directory).workspace fun _ => False :=
    grows_makeAbove w _ _
  unfold writeIn at h ⊢
  dsimp only at h ⊢
  split_ifs at h ⊢ with herror
  · rw [h] at herror
    cases herror
  · obtain ⟨place, hplace, hwritten⟩ := write_written h
    refine ⟨place, ⟨hmade.trans hwritten.toGrows, fun hcontent => ?_, hwritten.written⟩,
      hwritten.toGrows.placeOf hwritten.new_ne_directory.1 hplace⟩
    exact hwritten.not_directory (hmade.kept place .directory id hcontent)

/-- A file that cannot be opened is not written. -/
theorem workspace_write_of_error {path : Path} (h : (w.write path bytes).error ≠ none) :
    (w.write path bytes).workspace = w := by
  unfold write at h ⊢
  cases hplace : w.newPlace path with
  | error trouble => rfl
  | ok place =>
    rw [hplace] at h
    dsimp only at h ⊢
    split at h
    · rfl
    · exact absurd rfl h

/-- If a file cannot be written in a directory, at most directories have been made. -/
theorem grows_writeIn_of_error {directory : Path} {name : String}
    (h : (w.writeIn directory name bytes).error ≠ none) :
    Grows w (w.writeIn directory name bytes).workspace fun _ => False := by
  have hmade : Grows w (w.makeDirectories directory).workspace fun _ => False :=
    grows_makeAbove w _ _
  unfold writeIn at h ⊢
  dsimp only at h ⊢
  split_ifs at h ⊢
  · exact hmade
  · rwa [workspace_write_of_error h]

end Written

/-! ## paths that go down -/

theorem follow_append (w : Workspace) (start : Place) (names rest : List String) :
    w.follow start (names ++ rest) = (w.follow start names).bind fun place => w.follow place rest := by
  induction names generalizing start with
  | nil => rfl
  | cons name names ih =>
    rw [List.cons_append, follow, follow]
    cases w.content? start with
    | none => rfl
    | some content =>
      cases content with
      | file bytes => rfl
      | directory =>
        simp only
        split_ifs
        · rfl
        · exact ih _
        · exact ih _

/-- Names of things in a directory. -/
def Down (names : List String) : Prop := ∀ name ∈ names, name ≠ ".." ∧ name.utf8ByteSize ≤ nameLimit

/-- Going down leads below the start if all that is passed are directories, and nowhere
otherwise. -/
theorem follow_down {names : List String} (h : Down names) (w : Workspace) (start : Place) :
    ((∀ k < names.length, w.content? (start ++ names.take k) = some .directory) ∧
      w.follow start names = .ok (start ++ names)) ∨
    (∃ k < names.length, w.content? (start ++ names.take k) ≠ some .directory) ∧
      ∃ trouble, w.follow start names = .error trouble ∧ trouble.isAbsence = true := by
  induction names generalizing start with
  | nil => exact .inl ⟨nofun, by simp [follow]⟩
  | cons name rest ih =>
    obtain ⟨hname, hlong⟩ := h name List.mem_cons_self
    have hrest : Down rest := fun other hother => h other (List.mem_cons_of_mem name hother)
    rw [follow]
    cases hcontent : w.content? start with
    | none => exact .inr ⟨⟨0, by simp, by simp [hcontent]⟩, _, rfl, rfl⟩
    | some content =>
      cases content with
      | file bytes => exact .inr ⟨⟨0, by simp, by simp [hcontent]⟩, _, rfl, rfl⟩
      | directory =>
        simp only
        rw [if_neg (Nat.not_lt.2 hlong), if_neg hname]
        obtain ⟨hall, hfollow⟩ | ⟨⟨k, hk, hno⟩, htrouble⟩ := ih hrest (start ++ [name])
        · refine .inl ⟨fun k hk => ?_, by rw [hfollow, List.append_assoc]; rfl⟩
          cases k with
          | zero => simpa using hcontent
          | succ k => simpa using hall k (by simpa using hk)
        · exact .inr ⟨⟨k + 1, by simpa using hk, by simpa using hno⟩, htrouble⟩

/-- A path that goes down from a directory that is there. -/
def Descends (w : Workspace) (path : Path) : Prop :=
  ∃ base rest, path.names = base ++ rest ∧ w.isDirectory ⟨path.root, base⟩ = .ok true ∧ Down rest

theorem Descends.child {w : Workspace} {path : Path} (h : w.Descends path) {name : String}
    (hname : Down [name]) : w.Descends (path.child name) := by
  obtain ⟨base, rest, heq, hbase, hrest⟩ := h
  refine ⟨base, rest ++ [name], by simp [Path.child, heq], hbase, fun other hother => ?_⟩
  obtain hother | hother := List.mem_append.1 hother
  · exact hrest other hother
  · exact hname other hother

section Reading

variable {w w' : Workspace} {place : Place} {bytes : Bytes} {path : Path}

theorem find_eq_ok_iff {content : Content} : w.find path = .ok content ↔
    ∃ place, w.placeOf path = .ok place ∧ w.content? place = some content := by
  rw [find]
  cases w.placeOf path with
  | error trouble => simp [bind, Except.bind]
  | ok place =>
    simp only [bind, Except.bind, Except.ok.injEq, exists_eq_left']
    cases w.content? place with
    | none => simp [throw, throwThe, MonadExceptOf.throw]
    | some found => simp [pure, Except.pure]

theorem toOption_read_eq_some_iff : (w.read path).toOption = some bytes ↔
    ∃ place, w.placeOf path = .ok place ∧ w.content? place = some (.file bytes) := by
  rw [← find_eq_ok_iff, read]
  cases w.find path with
  | error trouble => simp [Except.toOption]
  | ok content => cases content <;> simp [Except.toOption]

/-- It can be told whether anything is at a path if nothing worse than its absence is met. -/
theorem exists_has_iff : (∃ there, w.has path = .ok there) ↔
    ∀ trouble, w.placeOf path = .error trouble → trouble.isAbsence = true := by
  rw [has, find?, find]
  cases w.placeOf path with
  | ok place =>
    refine iff_of_true ?_ nofun
    simp only [bind, Except.bind]
    cases w.content? place <;> exact ⟨_, rfl⟩
  | error trouble =>
    simp only [bind, Except.bind, Except.error.injEq, forall_eq']
    split_ifs with h <;> simp [h, Except.map]

/-- Unless its text is no path at all, a path leads along its names. -/
theorem placeOf_cases (path : Path) :
    (∃ trouble, ∀ v : Workspace, v.placeOf path = .error trouble) ∨
    ∀ v : Workspace, v.placeOf path = v.follow (if path.root = "" then v.here else []) path.names := by
  by_cases hnull : path.toString.toList.contains '\x00'
  · exact .inl ⟨.nullCharacter, fun v => by rw [placeOf, if_pos hnull]⟩
  · by_cases hlong : pathLimit < path.toString.utf8ByteSize
    · exact .inl ⟨.nameTooLong, fun v => by rw [placeOf, if_neg hnull, if_pos hlong]⟩
    · exact .inr fun v => by rw [placeOf, if_neg hnull, if_neg hlong]

theorem placeOf_of_isDirectory (h : w.isDirectory path = .ok true) :
    ∃ place, w.placeOf path = .ok place ∧ w.content? place = some .directory := by
  rw [← find_eq_ok_iff]
  rw [isDirectory, find?] at h
  cases hfind : w.find path with
  | error trouble =>
    rw [hfind] at h
    simp only at h
    split_ifs at h <;> simp [Except.map] at h
  | ok content =>
    rw [hfind] at h
    simpa [Except.map] using h

/-- A path that goes down leads along names below a directory, both before and after something has
been added elsewhere. -/
theorem Grows.exists_placeOf {new : Place → Prop} (h : Grows w w' new)
    (hnew : ∀ place, new place → w.content? place ≠ some .directory) (hpath : w.Descends path) :
    (∃ trouble, w.placeOf path = .error trouble ∧ w'.placeOf path = .error trouble) ∨
    ∃ start rest, Down rest ∧ w.content? start = some .directory ∧
      w.placeOf path = w.follow start rest ∧ w'.placeOf path = w'.follow start rest := by
  obtain ⟨base, rest, hnames, hbase, hrest⟩ := hpath
  obtain ⟨trouble, htrouble⟩ | hfollow := placeOf_cases path
  · exact .inl ⟨trouble, htrouble w, htrouble w'⟩
  · obtain ⟨start, hstart, hdirectory⟩ := placeOf_of_isDirectory hbase
    have hlater : w'.placeOf ⟨path.root, base⟩ = .ok start := h.placeOf hnew hstart
    obtain ⟨trouble, htrouble⟩ | hfollowBase := placeOf_cases ⟨path.root, base⟩
    · rw [htrouble w] at hstart
      cases hstart
    · rw [hfollowBase] at hstart hlater
      refine .inr ⟨start, rest, hrest, hdirectory, ?_, ?_⟩
      · rw [hfollow, hnames, follow_append, hstart]
        rfl
      · rw [hfollow, hnames, follow_append, hlater]
        rfl

/-- Below a directory a file is found after something has been added elsewhere if and only if it
has been found before. -/
theorem Grows.follow_iff {new : Place → Prop} (h : Grows w w' new)
    (hnew : (∀ place, new place → w.content? place ≠ some .directory) ∧
      ∀ place, new place → w'.content? place ≠ some .directory) {start : Place}
    {rest : List String} (hrest : Down rest) (hplace : ¬new (start ++ rest)) {found : Bytes} :
    (w'.follow start rest = .ok (start ++ rest) ∧
        w'.content? (start ++ rest) = some (.file found)) ↔
      w.follow start rest = .ok (start ++ rest) ∧
        w.content? (start ++ rest) = some (.file found) := by
  constructor
  · rintro ⟨hfollow, hfile⟩
    have hcontent : w.content? (start ++ rest) = some (.file found) := by
      cases hold : w.content? (start ++ rest) with
      | none => cases h.added _ _ hplace hold hfile
      | some content => rwa [h.kept _ _ hplace hold] at hfile
    obtain ⟨-, hok⟩ | ⟨⟨k, hk, hno⟩, -⟩ := follow_down hrest w start
    · exact ⟨hok, hcontent⟩
    · -- what is passed is a directory now, and was there before, since the file was below it
      exfalso
      obtain ⟨hall, -⟩ | ⟨-, trouble, htrouble, -⟩ := follow_down hrest w' start
      · have hnow := hall k hk
        have hold : ¬new (start ++ rest.take k) := fun hpassed => hnew.2 _ hpassed hnow
        have hsome : (w.content? (start ++ rest.take k)).isSome :=
          isSome_content?_of_prefix
            ((List.prefix_append_right_inj start).2 (List.take_prefix k rest)) (by simp [hcontent])
        obtain ⟨content, hthere⟩ := Option.isSome_iff_exists.1 hsome
        rw [hthere] at hno
        rw [h.kept _ _ hold hthere] at hnow
        exact hno hnow
      · rw [htrouble] at hfollow
        cases hfollow
  · rintro ⟨hfollow, hfile⟩
    exact ⟨h.follow hnew.1 hfollow, h.kept _ _ hplace hfile⟩

/-- A path along names below a directory can be read if the names lead down to a file. -/
theorem toOption_read_eq_some_of_down {start : Place} {rest : List String} (hrest : Down rest)
    (hplace : w.placeOf path = w.follow start rest) : (w.read path).toOption = some bytes ↔
      w.follow start rest = .ok (start ++ rest) ∧
        w.content? (start ++ rest) = some (.file bytes) := by
  rw [toOption_read_eq_some_iff, hplace]
  obtain ⟨-, hok⟩ | ⟨-, trouble, htrouble, -⟩ := follow_down hrest w start
  · simp [hok]
  · simp [htrouble]

/-- What a path that goes down leads to after a file has been written: the file, or else what it
has led to before. -/
theorem Written.read_cases (h : Written w w' place bytes) (hpath : w.Descends path) {there : Bool}
    (hthere : w.has path = .ok there) :
    (∃ stands, w'.has path = .ok stands) ∧
      ((w'.placeOf path = .ok place ∧ (w'.read path).toOption = some bytes) ∨
        w'.placeOf path ≠ .ok place ∧ (w'.read path).toOption = (w.read path).toOption) := by
  have habsence := exists_has_iff.1 ⟨there, hthere⟩
  obtain ⟨trouble, hold, hnew⟩ | ⟨start, rest, hrest, -, hold, hnew⟩ :=
    h.toGrows.exists_placeOf h.new_ne_directory.1 hpath
  · have hnothing : (w'.read path).toOption = (w.read path).toOption := Option.ext fun found => by
      simp [toOption_read_eq_some_iff, hold, hnew]
    refine ⟨exists_has_iff.2 fun other hother => ?_, .inr ⟨by simp [hnew], hnothing⟩⟩
    obtain rfl := Except.error.inj (hnew.symm.trans hother)
    exact habsence trouble hold
  · have hends : w'.placeOf path = .ok (start ++ rest) ∨
        ∃ trouble, w'.placeOf path = .error trouble ∧ trouble.isAbsence = true := by
      rw [hnew]
      exact (follow_down hrest w' start).imp And.right And.right
    refine ⟨exists_has_iff.2 fun other hother => ?_, ?_⟩
    · obtain hok | ⟨trouble, htrouble, htells⟩ := hends
      · cases hok.symm.trans hother
      · obtain rfl := Except.error.inj (htrouble.symm.trans hother)
        exact htells
    · by_cases hplace : start ++ rest = place
      · obtain hok | ⟨trouble, htrouble, -⟩ := hends
        · rw [hplace] at hok
          exact .inl ⟨hok, toOption_read_eq_some_iff.2 ⟨place, hok, h.written⟩⟩
        · -- the path does not lead to the file now, and has led nowhere before
          refine .inr ⟨by simp [htrouble], Option.ext fun found => ?_⟩
          rw [toOption_read_eq_some_of_down hrest hnew, toOption_read_eq_some_of_down hrest hold,
            ← hnew, htrouble]
          refine iff_of_false nofun fun ⟨hfollow, _⟩ => ?_
          have hkept := h.toGrows.follow h.new_ne_directory.1 hfollow
          cases htrouble.symm.trans (hnew.trans hkept)
      · refine .inr ⟨?_, Option.ext fun found => ?_⟩
        · obtain hok | ⟨trouble, htrouble, -⟩ := hends
          · simp [hok, hplace]
          · simp [htrouble]
        · rw [toOption_read_eq_some_of_down hrest hnew, toOption_read_eq_some_of_down hrest hold]
          exact h.toGrows.follow_iff h.new_ne_directory hrest hplace

/-- If only directories have been made, a path that goes down leads to the file to which it has
led. -/
theorem Grows.toOption_read_eq (h : Grows w w' fun _ => False) (hpath : w.Descends path) :
    (w'.read path).toOption = (w.read path).toOption := by
  refine Option.ext fun found => ?_
  obtain ⟨trouble, hold, hnew⟩ | ⟨start, rest, hrest, -, hold, hnew⟩ :=
    h.exists_placeOf nofun hpath
  · simp [toOption_read_eq_some_iff, hold, hnew]
  · rw [toOption_read_eq_some_of_down hrest hnew, toOption_read_eq_some_of_down hrest hold]
    exact h.follow_iff ⟨nofun, nofun⟩ hrest id

end Reading

/-! ## writing again -/

section Again

variable {w w' : Workspace} {place : Place} {bytes : Bytes} {path : Path}

theorem isDirectory_of_placeOf (hplace : w.placeOf path = .ok place)
    (h : w.content? place = some .directory) : w.isDirectory path = .ok true := by
  have hfind : w.find path = .ok .directory := find_eq_ok_iff.2 ⟨place, hplace, h⟩
  rw [isDirectory, find?, hfind]
  rfl

/-- A directory is there once it has been made, or is found to be there. -/
theorem isDirectory_makeDirectory
    (h : ((w.makeDirectory path).unlessDirectory path).error = none) :
    (w.makeDirectory path).workspace.isDirectory path = .ok true := by
  have hgrows := grows_makeDirectory w path
  unfold Change.unlessDirectory at h
  split at h
  · assumption
  · unfold makeDirectory at h hgrows ⊢
    cases hplace : w.newPlace path with
    | error trouble => rw [hplace] at h; cases h
    | ok place =>
      rw [hplace] at h hgrows
      cases hcontent : w.content? place with
      | some content => simp only [hcontent] at h; cases h
      | none =>
        simp only [hcontent] at hgrows ⊢
        exact isDirectory_of_placeOf (hgrows.placeOf nofun (placeOf_of_newPlace hplace))
          content?_put_self

theorem isDirectory_makeAbove {root : String} {names : List String}
    (h : (w.makeAbove root names).error = none) :
    (w.makeAbove root names).workspace.isDirectory ⟨root, names.reverse⟩ = .ok true := by
  cases names with
  | nil =>
    rw [makeAbove] at h ⊢
    rw [workspace_unlessDirectory]
    exact isDirectory_makeDirectory h
  | cons name above =>
    rw [makeAbove] at h ⊢
    dsimp only at h ⊢
    split_ifs at h ⊢ with hmissing hhigher
    · rw [h] at hhigher
      cases hhigher
    · rw [workspace_unlessDirectory]
      exact isDirectory_makeDirectory h
    · rw [workspace_unlessDirectory]
      exact isDirectory_makeDirectory h

/-- The directory in which a file has been written is there. -/
theorem isDirectory_writeIn {directory : Path} {name : String}
    (h : (w.writeIn directory name bytes).error = none) :
    (w.writeIn directory name bytes).workspace.isDirectory directory = .ok true := by
  unfold writeIn at h ⊢
  dsimp only at h ⊢
  split_ifs at h ⊢ with herror
  · rw [h] at herror
    cases herror
  · have hmade := isDirectory_makeAbove (Option.not_isSome_iff_eq_none.1 herror)
    rw [List.reverse_reverse] at hmade
    obtain ⟨above, habove, hdirectory⟩ := placeOf_of_isDirectory hmade
    obtain ⟨place, -, hwritten⟩ := write_written h
    refine isDirectory_of_placeOf
      (hwritten.toGrows.placeOf hwritten.new_ne_directory.1 habove) ?_
    refine hwritten.kept above .directory ?_ hdirectory
    rintro rfl
    exact hwritten.not_directory hdirectory

/-- Something that a path leads down to can be replaced. -/
theorem newPlace_child {base : Path} {name : String} (hname : name ≠ "..")
    (h : w.placeOf (base.child name) = .ok place) : w.newPlace (base.child name) = .ok place := by
  obtain ⟨trouble, htrouble⟩ | hfollow := placeOf_cases (base.child name)
  · rw [htrouble w] at h
    cases h
  have hdirectory : w.content? place.dropLast = some .directory := by
    have hlast := h
    rw [hfollow, Path.child, follow_append] at hlast
    cases habove : w.follow (if base.root = "" then w.here else []) base.names with
    | error trouble => rw [habove] at hlast; cases hlast
    | ok above =>
      rw [habove, Except.bind, follow] at hlast
      split at hlast
      · cases hlast
      · cases hlast
      · next hcontent =>
        split_ifs at hlast
        obtain rfl := Except.ok.inj hlast
        rwa [List.dropLast_concat]
  rw [newPlace, h]
  simp only [bind, Except.bind, hdirectory]
  rfl

/-- A directory that is there is not made. -/
theorem makeDirectories_child {base : Path} {name : String} (hname : name ≠ "..")
    (h : w.isDirectory (base.child name) = .ok true) :
    w.makeDirectories (base.child name) = ⟨w, none⟩ := by
  obtain ⟨place, hplace, hcontent⟩ := placeOf_of_isDirectory h
  have hexists : w.makeDirectory (base.child name) = ⟨w, some ⟨.exists, base.child name⟩⟩ := by
    rw [makeDirectory, newPlace_child hname hplace]
    simp only [hcontent]
  have hnames : (base.child name).names.reverse = name :: base.names.reverse := by
    simp [Path.child]
  have hpath : (⟨base.root, (name :: base.names.reverse).reverse⟩ : Path) = base.child name := by
    simp [Path.child]
  rw [makeDirectories, hnames, makeAbove]
  dsimp only
  rw [show (base.child name).root = base.root from rfl, hpath, hexists, if_neg (by simp)]
  simp only [Change.unlessDirectory, h]

/-- Where a file has been written, another one can be. -/
theorem writeIn_again {base : Path} {above name : String} (habove : above ≠ "..")
    (hname : name ≠ "..") (h : (w.writeIn (base.child above) name bytes).error = none)
    (again : Bytes) : ((w.writeIn (base.child above) name bytes).workspace.writeIn
      (base.child above) name again).error = none := by
  obtain ⟨place, hwritten, hplace⟩ := writeIn_written h
  rw [writeIn, makeDirectories_child habove (isDirectory_writeIn h), if_neg nofun]
  simp only [write, newPlace_child hname hplace, hwritten.written]

/-- Nothing but a name that is too long can keep one from telling whether anything is at a path. -/
theorem follow_isAbsence {names : List String}
    (h : ∀ name ∈ names, name.utf8ByteSize ≤ nameLimit) {start : Place} {trouble : Trouble}
    (htrouble : w.follow start names = .error trouble) : trouble.isAbsence = true := by
  induction names generalizing start with
  | nil => cases htrouble
  | cons name rest ih =>
    rw [List.forall_mem_cons] at h
    rw [follow] at htrouble
    split at htrouble
    · cases htrouble
      rfl
    · cases htrouble
      rfl
    · rw [if_neg (Nat.not_lt.2 h.1)] at htrouble
      exact ih h.2 htrouble

/-- If it can be told in one workspace whether anything is at a path, then it can be told in all, as
long as its names are not too long. -/
theorem exists_has (h : ∀ name ∈ path.names, name.utf8ByteSize ≤ nameLimit) {there : Bool}
    (hthere : w.has path = .ok there) (w' : Workspace) : ∃ stands, w'.has path = .ok stands := by
  have habsence := exists_has_iff.1 ⟨there, hthere⟩
  refine exists_has_iff.2 fun trouble htrouble => ?_
  obtain ⟨found, hfound⟩ | hfollow := placeOf_cases path
  · obtain rfl := Except.error.inj ((hfound w').symm.trans htrouble)
    exact habsence found (hfound w)
  · rw [hfollow] at htrouble
    exact follow_isAbsence h htrouble

end Again

end ScriptIndent.Workspace
