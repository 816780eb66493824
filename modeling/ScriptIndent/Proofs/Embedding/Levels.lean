import Mathlib.Data.List.Sort
import ScriptIndent.Proofs.Embedding.Settle
import ScriptIndent.Proofs.Offset.LineByLine

/-!
# ScriptIndent.Proofs.Embedding.Levels

What chains of bases add up to in a source and in a source around it.

```
r    x ↦ a + 1    a at level 0            r'   x ↦ a + 1    a ↦ { + 1
```

Lines *meet* if their code tokens correspond line by line; the larger source may have
more lines between them, without tokens of the smaller one (`Embedding.Meets`).  If the
registries agree, but an absolute entry of the smaller source may be lifted or hang on
a token at level 0 (`Embedding.Lifts`), then the levels along a chain of the smaller
source add up to the same in the larger one, lifted if the chain ends at an absolute
entry (`addsUp_meets`).  So the levels of lines that meet are the same, but for the lift
(`mem_levels_of_meets`, `exists_level_of_meets`).
-/

namespace ScriptIndent

namespace Registry

/-- The token at which the chain of a token ends: it has an absolute entry, or no entry.  The chain of
a code token of an earlier line ends where that of the line's first code token does. -/
inductive EndsAt (r : Registry) : List (List Token) → Token → Token → Prop
  | earlier {lines before after : List (List Token)} {line code : List Token}
      {first t last : Token} (hlines : lines = before ++ line :: after)
      (hcode : codeOf line = first :: code) (ht : t ∈ codeOf line)
      (hfirst : EndsAt r before first last) : EndsAt r lines t last
  | absent {lines : List (List Token)} {t : Token} (hnew : standsOn lines t = false)
      (hentry : r.get? t = none) : EndsAt r lines t t
  | start {lines : List (List Token)} {t : Token} {e : Entry}
      (hnew : standsOn lines t = false) (hentry : r.get? t = some e)
      (hbase : e.base = none) : EndsAt r lines t t
  | base {lines : List (List Token)} {t base last : Token} {e : Entry}
      (hnew : standsOn lines t = false) (hentry : r.get? t = some e)
      (hbase : e.base = some base) (hlast : EndsAt r lines base last) : EndsAt r lines t last

/-- A chain ends in one way. -/
theorem EndsAt.unique {r : Registry} {lines : List (List Token)} {t : Token}
    (hnodup : (lines.flatMap codeOf).Nodup) {last last' : Token}
    (h : r.EndsAt lines t last) (h' : r.EndsAt lines t last') : last' = last := by
  induction h generalizing last' with
  | @earlier lines before after line code first t last hlines hcode ht _ ih =>
    have hon : standsOn lines t = true := standsOn_iff.2 ⟨line, by simp [hlines], ht⟩
    cases h' with
    | earlier hlines' hcode' ht' hfirst' =>
      rw [hlines] at hnodup hlines'
      obtain ⟨rfl, rfl⟩ := eq_of_standsOn hnodup hlines' ht ht'
      obtain ⟨rfl, rfl⟩ := List.cons_eq_cons.1 (hcode'.symm.trans hcode)
      rw [List.flatMap_append, List.nodup_append] at hnodup
      exact ih hnodup.1 hfirst'
    | absent hnew => simp [hnew] at hon
    | start hnew => simp [hnew] at hon
    | base hnew => simp [hnew] at hon
  | absent hnew hentry =>
    cases h' with
    | earlier hlines _ ht => simp [standsOn, hlines, ht] at hnew
    | absent => rfl
    | start => rfl
    | base _ hentry' => simp [hentry] at hentry'
  | start hnew hentry hbase =>
    cases h' with
    | earlier hlines _ ht => simp [standsOn, hlines, ht] at hnew
    | absent => rfl
    | start => rfl
    | base _ hentry' hbase' =>
      obtain rfl := Option.mem_unique hentry hentry'
      simp [hbase] at hbase'
  | base hnew hentry hbase _ ih =>
    cases h' with
    | earlier hlines _ ht => simp [standsOn, hlines, ht] at hnew
    | absent _ hentry' => simp [hentry] at hentry'
    | start _ hentry' hbase' =>
      obtain rfl := Option.mem_unique hentry hentry'
      simp [hbase] at hbase'
    | base _ hentry' hbase' hlast' =>
      obtain rfl := Option.mem_unique hentry hentry'
      obtain rfl := Option.mem_unique hbase hbase'
      exact ih hnodup hlast'

end Registry

namespace Embedding

open Registry

variable {s s' : Source} {m : Embedding s s'}

/-! ## lines that meet -/

/-- A line that begins with a code token begins with the token that corresponds, or with
a comment that stands on the corresponding line. -/
structure LeadsWith (m : Embedding s s') (line line' : List Token) : Prop where
  code {t' : Token} : line'.head? = some t' → t'.isComment = false →
    ∃ t, line.head? = some t ∧ m.Pairs t t'
  comment {t t' : Token} : line.head? = some t → t.isComment = false →
    line'.head? = some t' → t'.isComment = true → t'.line = m.row t.line

/-- The code tokens of lines correspond line by line, among other lines. -/
inductive Meets (m : Embedding s s') : List (List Token) → List (List Token) → Prop
  | nil : Meets m [] []
  | line {line line' : List Token} {lines lines' : List (List Token)}
    (hcode : m.PairsAll (codeOf line) (codeOf line')) (hleads : m.LeadsWith line line')
    (h : Meets m lines lines') : Meets m (line :: lines) (line' :: lines')
  | outside {line' : List Token} {lines lines' : List (List Token)}
    (hnone : ∀ t' ∈ codeOf line', m.owns t' = false) (h : Meets m lines lines') :
    Meets m lines (line' :: lines')

/-- Lines meet piecewise. -/
theorem Meets.append {lines more lines' more' : List (List Token)} (h : m.Meets lines lines')
    (hmore : m.Meets more more') : m.Meets (lines ++ more) (lines' ++ more') := by
  induction h with
  | nil => exact hmore
  | line hcode hleads _ ih => exact .line hcode hleads ih
  | outside hnone _ ih => exact .outside hnone ih

/-- Lines without tokens of the smaller source. -/
theorem meets_outside {lines' : List (List Token)}
    (h : ∀ line' ∈ lines', ∀ t' ∈ codeOf line', m.owns t' = false) : m.Meets [] lines' := by
  induction lines' with
  | nil => exact .nil
  | cons line' rest ih =>
    exact .outside (h line' List.mem_cons_self) (ih fun l hl => h l (List.mem_cons_of_mem line' hl))

/-- Lines that correspond one by one meet. -/
theorem LinesStay.meets {lines lines' : List (List Token)} (h : m.LinesStay lines lines') :
    m.Meets lines lines' := by
  induction h with
  | nil => exact .nil
  | @cons line line' _ _ hline _ ih =>
    refine .line (rel_code hline) ⟨fun {t'} hhead hcode => ?_, fun {t t'} hhead hcode hhead' hcode' => ?_⟩
      ih
    · cases hline with
      | nil => cases hhead
      | cons hleader _ =>
        obtain rfl := Option.some.inj hhead
        obtain ⟨hcomment, hpairs⟩ := hleader
        exact ⟨_, rfl, hpairs (hcomment ▸ hcode)⟩
    · cases hline with
      | nil => cases hhead
      | cons hleader _ =>
        obtain rfl := Option.some.inj hhead
        obtain rfl := Option.some.inj hhead'
        rw [hleader.1, hcode] at hcode'
        cases hcode'

/-- The lines of the larger source can be split where those of the smaller one are. -/
theorem Meets.split {before after lines' : List (List Token)} {line : List Token}
    (h : m.Meets (before ++ line :: after) lines') :
    ∃ before' line' after', lines' = before' ++ line' :: after' ∧ m.Meets before before' ∧
      m.PairsAll (codeOf line) (codeOf line') ∧ m.LeadsWith line line' := by
  generalize hlines : before ++ line :: after = lines at h
  induction h generalizing before with
  | nil => simp at hlines
  | @line l l' rest rest' hcode hleads hrest ih =>
    cases before with
    | nil =>
      obtain ⟨rfl, rfl⟩ := List.cons_eq_cons.1 hlines
      exact ⟨[], l', rest', rfl, .nil, hcode, hleads⟩
    | cons b before =>
      obtain ⟨rfl, rfl⟩ := List.cons_eq_cons.1 hlines
      obtain ⟨before', line', after', rfl, hbefore, h⟩ := ih rfl
      exact ⟨l' :: before', line', after', rfl, .line hcode hleads hbefore, h⟩
  | @outside l' rest rest' hnone hrest ih =>
    obtain ⟨before', line', after', rfl, hbefore, h⟩ := ih hlines
    exact ⟨l' :: before', line', after', rfl, .outside hnone hbefore, h⟩

/-- The lines of the smaller source can be split where those of the larger one are, at
a line with a token of the smaller source. -/
theorem Meets.split_right {before' after' lines : List (List Token)} {line' : List Token}
    (h : m.Meets lines (before' ++ line' :: after')) {t' : Token} (ht' : t' ∈ codeOf line')
    (howns : m.owns t' = true) :
    ∃ before line after, lines = before ++ line :: after ∧ m.Meets before before' ∧
      m.PairsAll (codeOf line) (codeOf line') ∧ m.LeadsWith line line' := by
  generalize hlines : before' ++ line' :: after' = lines' at h
  induction h generalizing before' with
  | nil => simp at hlines
  | @line l l' rest rest' hcode hleads hrest ih =>
    cases before' with
    | nil =>
      obtain ⟨rfl, rfl⟩ := List.cons_eq_cons.1 hlines
      exact ⟨[], l, rest, rfl, .nil, hcode, hleads⟩
    | cons b before' =>
      obtain ⟨rfl, rfl⟩ := List.cons_eq_cons.1 hlines
      obtain ⟨before, line, after, rfl, hbefore, h⟩ := ih rfl
      exact ⟨l :: before, line, after, rfl, .line hcode hleads hbefore, h⟩
  | @outside l' rest rest' hnone hrest ih =>
    cases before' with
    | nil =>
      obtain ⟨rfl, rfl⟩ := List.cons_eq_cons.1 hlines
      rw [hnone t' ht'] at howns
      cases howns
    | cons b before' =>
      obtain ⟨rfl, rfl⟩ := List.cons_eq_cons.1 hlines
      obtain ⟨before, line, after, rfl, hbefore, h⟩ := ih rfl
      exact ⟨before, line, after, rfl, .outside hnone hbefore, h⟩

theorem Meets.standsOn_eq {lines lines' : List (List Token)} (h : m.Meets lines lines')
    {t t' : Token} (ht : m.Pairs t t') : standsOn lines' t' = standsOn lines t := by
  rw [Bool.eq_iff_iff]
  induction h with
  | nil => simp [standsOn]
  | line hcode _ _ ih => simpa [standsOn, mem_iff hcode ht] using or_congr_right ih
  | outside hnone _ ih =>
    rw [← ih, standsOn, List.any_cons, Bool.or_eq_true]
    refine or_iff_right fun hmem => ?_
    have := hnone t' (by simpa using hmem)
    simp [ht.owns] at this

/-! ## chains of bases -/

/-- Corresponding tokens are placed alike.  What is at an absolute level in the smaller
source is lifted, and may count from a held token in the larger one. -/
def Lifts (m : Embedding s s') (held : Token → Prop) (lift : Int) (e e' : Entry) : Prop :=
  match e.base with
  | some base => ∃ base', e'.base = some base' ∧ m.Pairs base base' ∧ e'.levels = e.levels
  | none => e'.levels = e.levels + lift ∧ ∀ base', e'.base = some base' → held base'

/-- An entry that carries over keeps what it says. -/
theorem Carries.lifts {e e' : Entry} (h : m.Carries e e') (held : Token → Prop) :
    m.Lifts held 0 e e' := by
  obtain ⟨-, hbase, hlevels⟩ := h
  rw [Lifts]
  generalize e.base = base at hbase
  cases hb : e'.base with
  | none =>
    rw [hb] at hbase
    cases hbase
    simp [hlevels]
  | some base' =>
    rw [hb] at hbase
    cases hbase with
    | some hpairs => exact ⟨base', rfl, hpairs, hlevels⟩

/-- So it does under any lift, if it has a base. -/
theorem Carries.lifts_of_base {e e' : Entry} (h : m.Carries e e') (hbase : e.base.isSome)
    (held : Token → Prop) (lift : Int) : m.Lifts held lift e e' := by
  have hlifts := h.lifts held
  rw [Lifts] at hlifts ⊢
  cases hb : e.base with
  | none => simp [hb] at hbase
  | some base => simpa [hb] using hlifts

variable {held : Token → Prop} {lift : Int} {r r' : Registry} {top lines lines' : List (List Token)}

/-- What levels add up to in the larger source, given where the chain ends. -/
def lifted (lift : Int) (entry : Option Entry) (level : Int) : Int :=
  if entry.isSome then level + lift else level

/-- Levels along a chain of the smaller source add up to the same in the larger one,
lifted if the chain ends at an absolute entry. -/
theorem addsUp_meets (hr : m.Registers (m.Lifts held lift) r r')
    (hheld : ∀ b', held b' → ∀ more, r'.AddsUp (top ++ more) b' 0)
    (htop : ∀ line ∈ top, ∀ t' ∈ codeOf line, m.owns t' = false) (h : m.Meets lines lines')
    {t t' : Token} (ht : m.Pairs t t') {level : Int} (hlevel : r.AddsUp lines t level) :
    ∃ last, r.EndsAt lines t last ∧
      r'.AddsUp (top ++ lines') t' (lifted lift (r.get? last) level) := by
  have hnew' : ∀ {lines lines' : List (List Token)} {t t' : Token}, m.Meets lines lines' →
      m.Pairs t t' → standsOn lines t = false → standsOn (top ++ lines') t' = false := by
    intro lines lines' t t' h ht hnew
    rw [standsOn, List.any_append, ← standsOn, ← standsOn, h.standsOn_eq ht, hnew, Bool.or_false]
    refine standsOn_eq_false.2 fun line hline hmem => ?_
    exact absurd ht.owns (by simp [htop line hline t' hmem])
  induction hlevel generalizing lines' t' with
  | @earlier lines before after line code first t level hlines hcode hmem _ ih =>
    subst hlines
    obtain ⟨before', line', after', rfl, hbefore, hpairs, -⟩ := h.split
    have hmem' := (mem_iff hpairs ht).2 hmem
    rw [hcode] at hpairs
    cases hcode' : codeOf line' with
    | nil => simp [hcode'] at hmem'
    | cons first' code' =>
      rw [hcode'] at hpairs
      cases hpairs with
      | cons hfirst _ =>
        obtain ⟨last, hlast, hlevel⟩ := ih hbefore hfirst
        refine ⟨last, .earlier rfl hcode hmem hlast, ?_⟩
        exact .earlier (List.append_assoc top before' _).symm hcode' hmem' hlevel
  | @absent lines t hnew hentry =>
    refine ⟨t, .absent hnew hentry, ?_⟩
    rw [hentry]
    exact .absent (hnew' h ht hnew) (hr.get?_eq_none ht hentry)
  | @start lines t e hnew hentry hbase =>
    obtain ⟨e', hget, he⟩ := hr.exists_get? ht hentry
    simp only [Lifts, hbase] at he
    refine ⟨t, .start hnew hentry hbase, ?_⟩
    have hlevels : lifted lift (some e) e.levels = e'.levels := by simp [lifted, he.1]
    rw [hentry, hlevels]
    cases hbase' : e'.base with
    | none => exact .start (hnew' h ht hnew) hget hbase'
    | some b' =>
      have := AddsUp.base (hnew' h ht hnew) hget hbase' (hheld b' (he.2 b' hbase') lines')
      rwa [Int.add_zero] at this
  | @base lines t base e level hnew hentry hbase _ ih =>
    obtain ⟨e', hget, he⟩ := hr.exists_get? ht hentry
    simp only [Lifts, hbase] at he
    obtain ⟨base', hbase', hpairs, hlevels⟩ := he
    obtain ⟨last, hlast, hadds⟩ := ih h hpairs
    refine ⟨last, .base hnew hentry hbase hlast, ?_⟩
    have := AddsUp.base (hnew' h ht hnew) hget hbase' hadds
    have heq : e'.levels + lifted lift (r.get? last) level =
        lifted lift (r.get? last) (e.levels + level) := by
      rw [lifted, lifted, hlevels]
      split <;> omega
    rwa [heq] at this

/-! ## levels of lines -/

/-- The token at which the chain of a judged line ends. -/
def LineEndsAt (r : Registry) (lines : List (List Token)) (n : Nat) (last : Token) : Prop :=
  ∃ above t, r.Judges lines above t ∧ t.line = n ∧ r.EndsAt above t last

/-- A line has one leader. -/
theorem eq_of_mem_leaders {t u : Token} (ht : t ∈ Source.leaders s.lines)
    (hu : u ∈ Source.leaders s.lines) (hline : t.line = u.line) : t = u := by
  have hpairwise := Source.pairwise_leaders (s := s) fun _ => Source.line_le_endLine
  obtain ⟨i, hi, rfl⟩ := List.getElem_of_mem ht
  obtain ⟨j, hj, rfl⟩ := List.getElem_of_mem hu
  rw [List.pairwise_iff_getElem] at hpairwise
  rcases Nat.lt_trichotomy i j with hij | rfl | hij
  · exact absurd hline (Nat.ne_of_lt (hpairwise i j hi hj hij))
  · rfl
  · exact absurd hline.symm (Nat.ne_of_lt (hpairwise j i hj hi hij))

/-- The chain of a judged line ends in one way. -/
theorem LineEndsAt.unique {n : Nat} {last last' : Token} (h : LineEndsAt r s.lines n last)
    (h' : LineEndsAt r s.lines n last') : last' = last := by
  obtain ⟨above, t, ⟨rest, below, hlines, hcode, -⟩, rfl, hlast⟩ := h
  obtain ⟨above', t', ⟨rest', below', hlines', hcode', -⟩, hline, hlast'⟩ := h'
  have hleads {above : List (List Token)} {t : Token} {rest : List Token} {below : List (List Token)}
      (h : s.lines = above ++ (t :: rest) :: below) : t ∈ Source.leaders s.lines :=
    List.mem_filterMap.2 ⟨t :: rest, by simp [h], rfl⟩
  obtain rfl := eq_of_mem_leaders (hleads hlines') (hleads hlines) hline
  have hnodup := s.nodup_lines
  rw [hlines] at hnodup
  obtain ⟨rfl, -⟩ := eq_of_standsOn hnodup (hlines.symm.trans hlines') (t := t')
    (by simp [codeOf, hcode]) (by simp [codeOf, hcode])
  rw [List.flatMap_append, List.nodup_append] at hnodup
  exact hlast.unique hnodup.1 hlast'

variable {levels levels' : LineLevels}

/-- The levels of judged lines are those that their chains add up to. -/
theorem mem_levels_iff (h : (r.settle [] s.lines).result = .ok levels) {n : Nat} {level : Int} :
    (n, level) ∈ levels ↔
      ∃ above t, r.Judges s.lines above t ∧ t.line = n ∧ r.AddsUp above t level := by
  have hnodup : (([] ++ s.lines).flatMap codeOf).Nodup := s.nodup_lines
  have hsettle := settle_settlesTo (r := r) remembers_nil hnodup
  rw [h] at hsettle
  exact hsettle.mem_iff

/-- If all lines have levels, the chain of the first code token of each adds up. -/
theorem exists_addsUp (h : (r.settle [] s.lines).result = .ok levels) {above : List (List Token)}
    {t : Token} (hopens : Opens s.lines above t) : ∃ level, r.AddsUp above t level := by
  have hnodup : (([] ++ s.lines).flatMap codeOf).Nodup := s.nodup_lines
  have hsettle := settle_settlesTo (r := r) remembers_nil hnodup
  rw [h] at hsettle
  obtain ⟨line, below, code, hlines, hcode⟩ := hopens
  have ht : t ∈ codeOf line := by simp [hcode]
  have hon : standsOn ([] ++ s.lines) t = true := standsOn_iff.2 ⟨line, by simp [hlines], ht⟩
  obtain ⟨level, -, hlevel⟩ := hsettle.remembers.known hon
  obtain ⟨above', line', below', first, code', hlines', hcode', ht', hfirst⟩ :=
    hlevel.exists_line hon
  rw [List.nil_append, hlines] at hlines'
  obtain ⟨rfl, rfl⟩ := eq_of_standsOn (hlines ▸ s.nodup_lines) hlines' ht ht'
  obtain ⟨rfl, rfl⟩ := List.cons_eq_cons.1 (hcode.symm.trans hcode')
  exact ⟨level, hfirst⟩

/-- A line with a level has a code token. -/
theorem exists_token_of_mem_levels (h : (r.settle [] s.lines).result = .ok levels) {n : Nat}
    {level : Int} (hmem : (n, level) ∈ levels) : ∃ t ∈ s.tokens, t.line = n := by
  obtain ⟨above, t, ⟨rest, below, hlines, hcode, -⟩, hline, -⟩ := (mem_levels_iff h).1 hmem
  exact ⟨t, Source.mem_tokens_of_mem_lines (show t :: rest ∈ s.lines by simp [hlines]) (by simp) hcode,
    hline⟩

/-- Levels in the order of their lines are the same if each level of the ones is one of
the others. -/
theorem eq_of_mem_iff (h : levels.Pairwise (·.1 < ·.1)) (h' : levels'.Pairwise (·.1 < ·.1))
    (hmem : ∀ x, x ∈ levels ↔ x ∈ levels') : levels = levels' := by
  have : Std.Antisymm fun x y : Nat × Int => x.1 < y.1 :=
    ⟨fun x y hxy hyx => absurd (Nat.lt_trans hxy hyx) (Nat.lt_irrefl _)⟩
  have : Std.Irrefl fun x y : Nat × Int => x.1 < y.1 := ⟨fun x => Nat.lt_irrefl x.1⟩
  exact h.eq_of_mem_iff h' hmem

section Lines

variable (hr : m.Registers (m.Lifts held lift) r r')
  (hheld : ∀ b', held b' → ∀ more, r'.AddsUp (top ++ more) b' 0)
  (htop : ∀ line ∈ top, ∀ t' ∈ codeOf line, m.owns t' = false) (h : m.Meets s.lines lines')
  (hlines' : s'.lines = top ++ lines') (hlevels : (r.settle [] s.lines).result = .ok levels)
  (hlevels' : (r'.settle [] s'.lines).result = .ok levels') {n : Nat} {level : Int}

include hr hheld htop h hlines' hlevels hlevels'

/-- A level of the smaller source is one of the larger source, if no comment leads the
line there. -/
theorem mem_levels_of_meets (hmem : (n, level) ∈ levels)
    (hleader : ∀ c ∈ Source.leaders s'.lines, c.line = m.row n → c.isComment = false) :
    ∃ last, LineEndsAt r s.lines n last ∧
      (m.row n, lifted lift (r.get? last) level) ∈ levels' := by
  obtain ⟨above, t, hjudges, rfl, hadds⟩ := (mem_levels_iff hlevels).1 hmem
  obtain ⟨rest, below, hlines, hcode, hjudged⟩ := id hjudges
  rw [hlines] at h
  obtain ⟨above', line', below', rfl, hmeets, hpairs, hleads⟩ := h.split
  have hhead : codeOf (t :: rest) = t :: codeOf rest := List.filter_cons_of_pos (by simp [hcode])
  rw [hhead] at hpairs
  obtain ⟨leader, tail, rfl⟩ : ∃ leader tail, line' = leader :: tail := by
    cases line' with
    | nil => cases hpairs
    | cons leader tail => exact ⟨leader, tail, rfl⟩
  have hmem' : leader ∈ Source.leaders s'.lines := by
    rw [hlines']
    exact List.mem_filterMap.2 ⟨leader :: tail, by simp, rfl⟩
  have hleader' : leader.isComment = false := by
    cases hcomment : leader.isComment with
    | false => rfl
    | true =>
      have := hleader leader hmem' (hleads.comment rfl hcode rfl hcomment)
      rwa [hcomment] at this
  obtain ⟨u, hu, ht⟩ := hleads.code rfl hleader'
  obtain rfl := Option.some.inj hu
  obtain ⟨last, hlast, hlevel⟩ := addsUp_meets hr hheld htop hmeets ht hadds
  refine ⟨last, ⟨above, t, hjudges, rfl, hlast⟩, (mem_levels_iff hlevels').2 ?_⟩
  refine ⟨top ++ above', leader, ⟨tail, below', ?_, hleader', ?_⟩, ht.line_eq, hlevel⟩
  · rw [hlines', List.append_assoc]
  · rw [hr.isIgnored ht, hjudged]

/-- A level of the larger source is one of the smaller source, if the tokens of the
smaller one stand on the line. -/
theorem exists_level_of_meets {n' : Nat} {level' : Int} (hmem : (n', level') ∈ levels')
    (howns : ∀ t' ∈ s'.tokens, t'.line = n' → m.owns t' = true) :
    ∃ n level last, n' = m.row n ∧ (n, level) ∈ levels ∧ LineEndsAt r s.lines n last ∧
      level' = lifted lift (r.get? last) level := by
  obtain ⟨above', t', ⟨rest', below', hline, hcode, hjudged⟩, rfl, hadds⟩ :=
    (mem_levels_iff hlevels').1 hmem
  have hin : t' ∈ codeOf (t' :: rest') := by simp [codeOf, hcode]
  have htoken : t' ∈ s'.tokens :=
    Source.mem_tokens_of_mem_lines (show t' :: rest' ∈ s'.lines by simp [hline]) (by simp) hcode
  have hown := howns t' htoken rfl
  -- a line above the smaller source has none of its tokens
  obtain ⟨above'', rfl, hlines''⟩ : ∃ above'', above' = top ++ above'' ∧
      lines' = above'' ++ (t' :: rest') :: below' := by
    rcases List.append_eq_append_iff.1 (hlines'.symm.trans hline) with
      ⟨above'', rfl, h⟩ | ⟨rest, rfl, h⟩
    · exact ⟨above'', rfl, h⟩
    · cases rest with
      | nil => exact ⟨[], by simp, by simpa using h.symm⟩
      | cons line rest =>
        obtain ⟨rfl, -⟩ := List.cons_eq_cons.1 h
        have := htop (t' :: rest') (by simp) t' hin
        rw [hown] at this
        cases this
  subst hlines''
  obtain ⟨above, line, below, hlines, hmeets, hpairs, hleads⟩ := h.split_right hin hown
  obtain ⟨t, hhead, ht⟩ := hleads.code rfl hcode
  obtain ⟨rest, rfl⟩ := List.head?_eq_some_iff.1 hhead
  have htcode : t.isComment = false := by
    obtain ⟨i, hi, -⟩ := ht
    exact Source.isComment_of_mem_tokens (Array.mem_of_getElem? hi)
  have hopens : Opens s.lines above t :=
    ⟨t :: rest, below, codeOf rest, hlines, List.filter_cons_of_pos (by simp [htcode])⟩
  obtain ⟨level, hlevel⟩ := exists_addsUp hlevels hopens
  obtain ⟨last, hlast, hlevel'⟩ := addsUp_meets hr hheld htop hmeets ht hlevel
  have hjudges : r.Judges s.lines above t :=
    ⟨rest, below, hlines, htcode, by rw [← hr.isIgnored ht, hjudged]⟩
  have hnodup : ((top ++ above'').flatMap codeOf).Nodup := by
    have := s'.nodup_lines
    rw [hline, List.flatMap_append, List.nodup_append] at this
    exact this.1
  exact ⟨t.line, level, last, ht.line_eq, (mem_levels_iff hlevels).2 ⟨above, t, hjudges, rfl, hlevel⟩,
    ⟨above, t, hjudges, rfl, hlast⟩, hlevel'.unique hnodup hadds⟩

end Lines

end Embedding

end ScriptIndent
