import ScriptIndent.Proofs.Remark.Embedding
import ScriptIndent.Proofs.Stream.Leaders

/-!
# ScriptIndent.Proofs.Remark.Lines

The lines of a source with comments put in.

Comments of one line among the tokens of a source leave its lines together: each line is
found with comments among its tokens, and there are lines of nothing but comments besides
(`Embedding.groupsFrom_strewn`).  Such lines are settled like those of the source, but
that nothing is expected of a line that a comment leads (`Embedding.settle_strewn`).
-/

namespace ScriptIndent

namespace Embedding

variable {s s' : Source}

/-- Tokens and comments are found in order, with comments of one line among them. -/
inductive TokensStrewn (m : Embedding s s') : List Token → List Token → Prop
  | nil : TokensStrewn m [] []
  | keep {t t' : Token} {ts ts' : List Token} (ht : m.Aligned t t') (h : TokensStrewn m ts ts') :
    TokensStrewn m (t :: ts) (t' :: ts')
  | more {t' : Token} {ts ts' : List Token} (hcomment : t'.isComment = true)
    (hline : t'.line = t'.endLine) (h : TokensStrewn m ts ts') : TokensStrewn m ts (t' :: ts')

/-- A line is found with comments among its tokens, its first one where the first one of
the line is. -/
structure LineStrewn (m : Embedding s s') (line line' : List Token) : Prop where
  tokens : m.TokensStrewn line line'
  leader : ∃ t t', line.head? = some t ∧ line'.head? = some t' ∧ t'.line = m.row t.line

/-- Lines are found in order, with lines of comments among them. -/
inductive LinesStrewn (m : Embedding s s') : List (List Token) → List (List Token) → Prop
  | nil : LinesStrewn m [] []
  | keep {line line' : List Token} {lines lines' : List (List Token)}
    (hline : m.LineStrewn line line') (h : LinesStrewn m lines lines') :
    LinesStrewn m (line :: lines) (line' :: lines')
  | more {line' : List Token} {lines lines' : List (List Token)}
    (hcomments : ∀ t' ∈ line', t'.isComment = true) (h : LinesStrewn m lines lines') :
    LinesStrewn m lines (line' :: lines')

variable {m : Embedding s s'}

namespace TokensStrewn

variable {ts ts' us us' : List Token}

theorem append (ht : m.TokensStrewn ts ts') (hu : m.TokensStrewn us us') :
    m.TokensStrewn (ts ++ us) (ts' ++ us') := by
  induction ht with
  | nil => exact hu
  | keep ht _ ih => exact .keep ht ih
  | more hcomment hline _ ih => exact .more hcomment hline ih

theorem exists_aligned (h : m.TokensStrewn ts ts') {t : Token} (ht : t ∈ ts) :
    ∃ t' ∈ ts', m.Aligned t t' := by
  induction h with
  | nil => cases ht
  | @keep u u' _ _ hu _ ih =>
    rcases List.mem_cons.1 ht with rfl | ht
    · exact ⟨u', List.mem_cons_self, hu⟩
    · obtain ⟨t', ht', halign⟩ := ih ht
      exact ⟨t', List.mem_cons_of_mem _ ht', halign⟩
  | more _ _ _ ih =>
    obtain ⟨t', ht', halign⟩ := ih ht
    exact ⟨t', List.mem_cons_of_mem _ ht', halign⟩

/-- The code tokens are found as they are. -/
theorem code (h : m.TokensStrewn ts ts') :
    m.PairsAll (ts.filter (!·.isComment)) (ts'.filter (!·.isComment)) := by
  induction h with
  | nil => exact .nil
  | @keep t t' _ _ ht _ ih =>
    obtain ⟨⟨hcomment, hpairs⟩, -⟩ := ht
    rw [List.filter_cons, List.filter_cons, hcomment]
    cases hcode : t.isComment with
    | true => exact ih
    | false => exact .cons (hpairs hcode) ih
  | @more t' _ _ hcomment _ _ ih =>
    rw [List.filter_cons, hcomment]
    exact ih

end TokensStrewn

/-! ## cutting into lines -/

/-- What stands further down than all that was read opens a line. -/
theorem groupsFrom_cons_of_lt {reached : Nat} {current ts : List Token} {t : Token}
    (hcurrent : current ≠ []) (h : reached < t.line) (hline : t.line ≤ t.endLine) :
    Source.groupsFrom reached current (t :: ts) =
      current.reverse :: Source.groupsFrom t.endLine [t] ts := by
  rw [Source.groupsFrom, if_pos (by simp [hcurrent, h]),
    Nat.max_eq_right (Nat.le_trans (Nat.le_of_lt h) hline)]

/-- What stands on a line that was read goes on with it. -/
theorem groupsFrom_cons_of_le {reached : Nat} {current ts : List Token} {t : Token}
    (h : t.line ≤ reached) :
    Source.groupsFrom reached current (t :: ts) =
      Source.groupsFrom (max reached t.endLine) (t :: current) ts := by
  rw [Source.groupsFrom, if_neg (by simp [h])]

theorem groupsFrom_nil {reached : Nat} {current : List Token} (h : current ≠ []) :
    Source.groupsFrom reached current [] = [current.reverse] := by
  rw [Source.groupsFrom, if_neg (by simpa using h)]

/-- The line that is being read is finished if all that follows stands further down. -/
theorem groupsFrom_flush {reached : Nat} {current ts : List Token} (hcurrent : current ≠ [])
    (hlines : ∀ t ∈ ts, t.line ≤ t.endLine) (hreached : ∀ t ∈ ts, reached < t.line) :
    Source.groupsFrom reached current ts = current.reverse :: Source.groupsFrom 0 [] ts := by
  have happend : Source.groupsFrom reached current ([] ++ ts) =
      Source.groupsFrom reached current [] ++ Source.groupsFrom 0 [] ts :=
    groupsFrom_append hlines hreached fun t ht => by cases ht
  rwa [List.nil_append, groupsFrom_nil hcurrent, List.singleton_append] at happend

/-- The first token opens the first line. -/
theorem groupsFrom_first (t : Token) (ts : List Token) :
    Source.groupsFrom 0 [] (t :: ts) = Source.groupsFrom t.endLine [t] ts := by
  rw [Source.groupsFrom, if_neg (by simp), Nat.zero_max]

namespace LineStrewn

variable {line line' : List Token} {t t' : Token}

theorem singleton (ht : m.Aligned t t') : m.LineStrewn [t] [t'] :=
  ⟨.keep ht .nil, t, t', rfl, rfl, ht.2.1⟩

theorem ne_nil (h : m.LineStrewn line line') : line ≠ [] ∧ line' ≠ [] := by
  obtain ⟨t, t', ht, ht', -⟩ := h.leader
  constructor <;> rintro rfl
  · cases ht
  · cases ht'

/-- A line goes on. -/
theorem append (h : m.LineStrewn line line') {ts ts' : List Token} (hts : m.TokensStrewn ts ts') :
    m.LineStrewn (line ++ ts) (line' ++ ts') := by
  obtain ⟨t, t', ht, ht', hrow⟩ := h.leader
  exact ⟨h.tokens.append hts, t, t', by rw [List.head?_append, ht]; rfl,
    by rw [List.head?_append, ht']; rfl, hrow⟩

end LineStrewn

/-- Comments that stand on one line, and nothing besides. -/
def CommentsOn (line : Nat) (ts : List Token) : Prop :=
  ts ≠ [] ∧ ∀ t ∈ ts, t.isComment = true ∧ t.line = line ∧ t.endLine = line

theorem CommentsOn.tokens {line : Nat} {ts : List Token} (h : CommentsOn line ts) :
    m.TokensStrewn [] ts.reverse := by
  have hall : ∀ t ∈ ts.reverse, t.isComment = true ∧ t.line = line ∧ t.endLine = line :=
    fun t ht => h.2 t (List.mem_reverse.1 ht)
  generalize ts.reverse = us at hall
  induction us with
  | nil => exact .nil
  | cons u us ih =>
    obtain ⟨hcomment, hline, hend⟩ := hall u List.mem_cons_self
    exact .more hcomment (hline.trans hend.symm)
      (ih fun v hv => hall v (List.mem_cons_of_mem u hv))

/-- A token goes on with a line of comments. -/
theorem CommentsOn.line {line : Nat} {ts : List Token} (h : CommentsOn line ts) {t t' : Token}
    (ht : m.Aligned t t') (hline : t'.line = line) : m.LineStrewn [t] (ts.reverse ++ [t']) := by
  have hne : ts.reverse ≠ [] := by simpa using h.1
  obtain ⟨c, cs, hcs⟩ := List.exists_cons_of_ne_nil hne
  have hc := (h.2 c (List.mem_reverse.1 (hcs ▸ List.mem_cons_self))).2.1
  refine ⟨h.tokens.append (.keep ht .nil), t, c, rfl, ?_, ?_⟩
  · rw [hcs]
    rfl
  · rw [hc, ← hline, ht.2.1]

/-- Tokens with comments of one line among them are cut into the same lines, with comments
among them.  The line that is being read is one of the source, or one of nothing but
comments so far. -/
theorem groupsFrom_strewn {ts ts' : List Token} (h : m.TokensStrewn ts ts')
    (hts : ∀ t ∈ ts, t.line ≤ t.endLine) (hts' : ∀ t' ∈ ts', t'.line ≤ t'.endLine)
    (horder : ts'.Pairwise (·.endLine ≤ ·.line)) :
    (∀ {reached : Nat} {current current' : List Token},
      m.LineStrewn current.reverse current'.reverse →
      m.LinesStrewn (Source.groupsFrom reached current ts)
        (Source.groupsFrom (m.row reached) current' ts')) ∧
    ∀ {line : Nat} {current' : List Token}, CommentsOn line current' →
      (∀ t' ∈ ts', line ≤ t'.line) →
      m.LinesStrewn (Source.groupsFrom 0 [] ts) (Source.groupsFrom line current' ts') := by
  induction h with
  | nil =>
    refine ⟨fun hline => ?_, fun hcurrent _ => ?_⟩
    · obtain ⟨hne, hne'⟩ := hline.ne_nil
      rw [groupsFrom_nil (by simpa using hne), groupsFrom_nil (by simpa using hne')]
      exact .keep hline .nil
    · rw [groupsFrom_nil hcurrent.1]
      exact .more (fun t' ht' => (hcurrent.2 t' (List.mem_reverse.1 ht')).1) .nil
  | @keep t t' ts ts' ht _ ih =>
    obtain ⟨ihline, -⟩ := ih (fun u hu => hts u (List.mem_cons_of_mem t hu))
      (fun u hu => hts' u (List.mem_cons_of_mem t' hu)) horder.of_cons
    have hle := hts t List.mem_cons_self
    have hle' := hts' t' List.mem_cons_self
    have hopen : m.LinesStrewn (Source.groupsFrom t.endLine [t] ts)
        (Source.groupsFrom t'.endLine [t'] ts') := by
      rw [ht.2.2]
      exact ihline (.singleton ht)
    refine ⟨fun {reached current current'} hline => ?_, fun {line current'} hcurrent hbehind => ?_⟩
    · obtain ⟨hne, hne'⟩ := hline.ne_nil
      by_cases hnew : reached < t.line
      · have hnew' : m.row reached < t'.line := by
          rw [ht.2.1]
          exact m.row_lt hnew
        rw [groupsFrom_cons_of_lt (by simpa using hne) hnew hle,
          groupsFrom_cons_of_lt (by simpa using hne') hnew' hle']
        exact .keep hline hopen
      · have hold' : t'.line ≤ m.row reached := by
          rw [ht.2.1]
          exact Nat.not_lt.1 (mt row_lt_iff.1 hnew)
        rw [groupsFrom_cons_of_le (Nat.not_lt.1 hnew), groupsFrom_cons_of_le hold', ht.2.2,
          ← row_max]
        refine ihline ?_
        rw [List.reverse_cons, List.reverse_cons]
        exact hline.append (.keep ht .nil)
    · rw [groupsFrom_first]
      have hline := hbehind t' List.mem_cons_self
      by_cases hnew : line < t'.line
      · rw [groupsFrom_cons_of_lt hcurrent.1 hnew hle']
        exact .more (fun u hu => (hcurrent.2 u (List.mem_reverse.1 hu)).1) hopen
      · rw [groupsFrom_cons_of_le (Nat.not_lt.1 hnew), Nat.max_eq_right (by omega), ht.2.2]
        refine ihline ?_
        rw [List.reverse_singleton, List.reverse_cons]
        exact hcurrent.line ht (by omega)
  | @more c ts ts' hcomment hcline hstrewn ih =>
    obtain ⟨hbehind, horder⟩ := List.pairwise_cons.1 horder
    obtain ⟨ihline, ihcomments⟩ := ih hts (fun u hu => hts' u (List.mem_cons_of_mem c hu)) horder
    have hopen : m.LinesStrewn (Source.groupsFrom 0 [] ts) (Source.groupsFrom c.endLine [c] ts') := by
      refine ihcomments ⟨List.cons_ne_nil c [], fun u hu => ?_⟩ hbehind
      rw [List.mem_singleton.1 hu]
      exact ⟨hcomment, hcline, rfl⟩
    refine ⟨fun {reached current current'} hline => ?_, fun {line current'} hcurrent hall => ?_⟩
    · obtain ⟨hne, hne'⟩ := hline.ne_nil
      by_cases hnew : m.row reached < c.line
      · -- all that follows in the source stands further down, too
        have hreached : ∀ t ∈ ts, reached < t.line := by
          intro t ht
          obtain ⟨t', ht', halign⟩ := hstrewn.exists_aligned ht
          have := hbehind t' ht'
          rw [← hcline, halign.2.1] at this
          exact row_lt_iff.1 (Nat.lt_of_lt_of_le hnew this)
        rw [groupsFrom_flush (by simpa using hne) hts hreached,
          groupsFrom_cons_of_lt (by simpa using hne') hnew (Nat.le_of_eq hcline)]
        exact .keep hline hopen
      · rw [groupsFrom_cons_of_le (Nat.not_lt.1 hnew), Nat.max_eq_left (by omega)]
        refine ihline ?_
        rw [List.reverse_cons, ← List.append_nil current.reverse]
        exact hline.append (.more hcomment hcline .nil)
    · have hline := hall c List.mem_cons_self
      by_cases hnew : line < c.line
      · rw [groupsFrom_cons_of_lt hcurrent.1 hnew (Nat.le_of_eq hcline)]
        exact .more (fun u hu => (hcurrent.2 u (List.mem_reverse.1 hu)).1) hopen
      · rw [groupsFrom_cons_of_le (Nat.not_lt.1 hnew), Nat.max_eq_left (by omega)]
        refine ihcomments ⟨List.cons_ne_nil _ _, fun u hu => ?_⟩
          fun u hu => hall u (List.mem_cons_of_mem c hu)
        rcases List.mem_cons.1 hu with rfl | hu
        · exact ⟨hcomment, by omega, by omega⟩
        · exact hcurrent.2 u hu

/-- Tokens with comments of one line among them are cut into the same lines. -/
theorem linesStrewn {ts ts' : List Token} (h : m.TokensStrewn ts ts')
    (hts : ∀ t ∈ ts, t.line ≤ t.endLine) (hts' : ∀ t' ∈ ts', t'.line ≤ t'.endLine)
    (horder : ts'.Pairwise (·.endLine ≤ ·.line)) :
    m.LinesStrewn (Source.groupsFrom 0 [] ts) (Source.groupsFrom 0 [] ts') := by
  cases h with
  | nil => exact .nil
  | @keep t t' ts ts' ht h =>
    rw [groupsFrom_first, groupsFrom_first, ht.2.2]
    exact (groupsFrom_strewn h (fun u hu => hts u (List.mem_cons_of_mem t hu))
      (fun u hu => hts' u (List.mem_cons_of_mem t' hu)) horder.of_cons).1 (.singleton ht)
  | @more c _ ts' hcomment hcline h =>
    obtain ⟨hbehind, horder⟩ := List.pairwise_cons.1 horder
    rw [groupsFrom_first]
    refine (groupsFrom_strewn h hts (fun u hu => hts' u (List.mem_cons_of_mem c hu)) horder).2
      ⟨List.cons_ne_nil c [], fun u hu => ?_⟩ hbehind
    rw [List.mem_singleton.1 hu]
    exact ⟨hcomment, hcline, rfl⟩

/-! ## settling -/

/-- A line is found with a comment before it, or it is passed over as before. -/
theorem LineStrewn.leader_cases {R : Entry → Entry → Prop} {r r' : Registry}
    (hr : m.Registers R r r') {u u' : Token} {us us' : List Token}
    (h : m.LineStrewn (u :: us) (u' :: us')) :
    u'.isComment = true ∨ u'.isComment = false ∧
      (u'.isComment || r'.isIgnored u') = (u.isComment || r.isIgnored u) := by
  cases hcomment : u'.isComment with
  | true => exact .inl rfl
  | false =>
    cases h.tokens with
    | more hc => rw [hcomment] at hc; cases hc
    | keep halign =>
      have hcode := halign.1.1.symm.trans hcomment
      exact .inr ⟨rfl, by rw [hcode, hr.isIgnored (halign.1.2 hcode)]⟩

/-- Lines with comments among them are settled like those of the source.  Nothing is
expected of a line that a comment leads. -/
theorem settle_strewn {r r' : Registry} (hr : m.Registers (m.Places fun _ => False) r r')
    {led : Nat → Bool} {lines lines' : List (List Token)} (h : m.LinesStrewn lines lines')
    (hled : ∀ t ∈ Source.leaders lines', led t.line = t.isComment) {k k' : KnownLevels}
    (hk : m.Knows k k') {levels : LineLevels} (hok : (r.settle k lines).result = .ok levels) :
    (r'.settle k' lines').result =
      .ok ((m.shift levels).filter fun (line, _) => !led line) := by
  induction h generalizing k k' levels with
  | nil =>
    obtain rfl := Except.ok.inj hok
    rfl
  | @more line' lines lines' hcomments _ ih =>
    have hnil : line'.filter (!·.isComment) = [] :=
      List.filter_eq_nil_iff.2 fun t ht => by simp [hcomments t ht]
    rw [Registry.settle_cons_of_nil hnil]
    refine ih (fun t ht => hled t ?_) hk hok
    rw [Source.leaders, List.filterMap_cons]
    split
    · exact ht
    · exact List.mem_cons_of_mem _ ht
  | @keep line line' lines lines' hline _ ih =>
    obtain ⟨u, u', hu, hu', hrow⟩ := hline.leader
    obtain ⟨us, rfl⟩ := List.head?_eq_some_iff.1 hu
    obtain ⟨us', rfl⟩ := List.head?_eq_some_iff.1 hu'
    rw [Source.leaders, List.filterMap_cons_some (by rfl)] at hled
    have hledu : led (m.row u.line) = u'.isComment := hrow ▸ hled u' List.mem_cons_self
    have hledrest := fun t ht => hled t (List.mem_cons_of_mem u' ht)
    have hcode := hline.tokens.code
    cases hts : (u :: us).filter (!·.isComment) with
    | nil =>
      rw [hts] at hcode
      rw [Registry.settle_cons_of_nil hts] at hok
      rw [Registry.settle_cons_of_nil (List.forall₂_nil_left_iff.1 hcode)]
      exact ih hledrest hk hok
    | cons t code =>
      rw [hts] at hcode
      cases hts' : (u' :: us').filter (!·.isComment) with
      | nil => rw [hts'] at hcode; cases hcode
      | cons t' code' =>
        rw [hts'] at hcode
        have ht : m.Pairs t t' := by cases hcode with | cons h _ => exact h
        have hresolves := resolves hr hk (fun b' hb => hb.elim) ht
        generalize hlevel : r.resolve k t = x at hresolves
        generalize hlevel' : r'.resolve k' t' = x' at hresolves
        cases hresolves with
        | error =>
          rw [Registry.settle_cons_of_error hts hlevel] at hok
          cases hok
        | ok level =>
          have hrest : ∀ more,
              (r.settle (k.noteAll (t :: code) level) lines).result = .ok more →
              (r'.settle (k'.noteAll (t' :: code') level) lines').result =
                .ok ((m.shift more).filter fun (line, _) => !led line) :=
            fun _ => ih hledrest (hk.noteAll hcode level)
          rw [Registry.settle_cons_of_ok hts hlevel] at hok
          rw [Registry.settle_cons_of_ok hts' hlevel']
          have hcases := hline.leader_cases hr
          by_cases hskip : (u.isComment || r.isIgnored u) = true
          · rw [if_pos hskip] at hok
            have hskip' : (u'.isComment || r'.isIgnored u') = true := by
              rcases hcases with hcomment | ⟨-, heq⟩
              · rw [hcomment, Bool.true_or]
              · rw [heq, hskip]
            rw [if_pos hskip']
            exact hrest _ hok
          rw [if_neg hskip] at hok
          dsimp only at hok
          generalize hresult : (r.settle (k.noteAll (t :: code) level) lines).result = y at hok
          cases y with
          | error => cases hok
          | ok more =>
            obtain rfl := Except.ok.inj hok
            have hmore := hrest _ hresult
            have hcons : m.shift ((u.line, level) :: more) = (m.row u.line, level) :: m.shift more :=
              rfl
            rcases hcases with hcomment | ⟨hcomment, heq⟩
            · have hled' : led (m.row u.line) = true := hledu.trans hcomment
              rw [hcomment, Bool.true_or, if_pos rfl, hcons,
                List.filter_cons_of_neg (by simp [hled'])]
              exact hmore
            · have hled' : led (m.row u.line) = false := hledu.trans hcomment
              rw [heq, if_neg hskip, hcons, List.filter_cons_of_pos (by simp [hled'])]
              dsimp only
              rw [hmore, hrow]
              rfl

end Embedding

end ScriptIndent
