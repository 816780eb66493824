import ScriptIndent.Proofs.Embedding.Analysis
import ScriptIndent.Proofs.Offset.Chain

/-!
# ScriptIndent.Proofs.Embedding.Settle

Levels in a source and in a source around it.

If the registries of two sources agree, corresponding tokens have the same level,
or both are in a cycle (`resolves_from`), and corresponding lines are settled alike
(`settle_registers`).  An absolute entry of the smaller source may correspond to
an entry that counts from a token at level 0 in the larger one (`Places`).
-/

namespace ScriptIndent

namespace Embedding

variable {s s' : Source} {m : Embedding s s'} {held : Token → Prop}

/-- Corresponding tokens are placed alike.  What is at an absolute level in the
smaller source may be placed relative to a held token in the larger. -/
def Places (m : Embedding s s') (held : Token → Prop) (e e' : Entry) : Prop :=
  e'.levels = e.levels ∧
    (Option.Rel m.Pairs e.base e'.base ∨ e.base = none ∧ ∃ b', e'.base = some b' ∧ held b')

/-- The same is known of corresponding tokens. -/
def Knows (m : Embedding s s') (k k' : KnownLevels) : Prop :=
  ∀ t t', m.Pairs t t' → k'.get? t' = k.get? t

theorem Knows.note {k k' : KnownLevels} (h : m.Knows k k') {t t' : Token} (ht : m.Pairs t t')
    (level : Int) : m.Knows (k.note t level) (k'.note t' level) := by
  intro u u' hu
  have hiff := hu.eq_iff ht
  by_cases heq : u = t
  · obtain rfl := heq
    obtain rfl := hiff.2 rfl
    rw [KnownLevels.get?_note_self, KnownLevels.get?_note_self, h u u' hu]
  · rw [KnownLevels.get?_note_of_ne heq, KnownLevels.get?_note_of_ne (mt hiff.1 heq), h u u' hu]

theorem Knows.noteAll {k k' : KnownLevels} (h : m.Knows k k') {ts ts' : List Token}
    (hts : m.PairsAll ts ts') (level : Int) :
    m.Knows (k.noteAll ts level) (k'.noteAll ts' level) := by
  induction hts generalizing k k' with
  | nil => exact h
  | cons ht _ ih => exact ih (h.note ht level)

/-! ## chains of bases -/

/-- Both searches end with the same level, or both in a cycle. -/
inductive Resolves (m : Embedding s s') : Except Cycle Int → Except Cycle Int → Prop
  | ok (level : Int) : Resolves m (.ok level) (.ok level)
  | error {t t' : Token} (h : m.Pairs t t') : Resolves m (.error ⟨t⟩) (.error ⟨t'⟩)

theorem mem_iff {ts ts' : List Token} (h : m.PairsAll ts ts') {t t' : Token}
    (ht : m.Pairs t t') : t' ∈ ts' ↔ t ∈ ts := by
  rw [← List.contains_iff_mem, ← List.contains_iff_mem, rel_contains h ht]

variable {r r' : Registry} {k k' : KnownLevels}

private theorem resolves_from (hr : m.Registers (m.Places held) r r') (hk : m.Knows k k')
    (hheld : ∀ b', held b' → k'.get? b' = some 0) {seen seen' : List Token}
    (hseen : m.PairsAll seen seen') (total : Int) {t t' : Token} (ht : m.Pairs t t') :
    m.Resolves (r.resolveFrom k seen total t) (r'.resolveFrom k' seen' total t') := by
  fun_induction r.resolveFrom k seen total t generalizing seen' t' with
  | case1 seen total t level hknown =>
    rw [Registry.resolveFrom_of_known ((hk t t' ht).trans hknown)]
    exact .ok _
  | case2 seen total t hknown hmem =>
    rw [Registry.resolveFrom_of_seen ((hk t t' ht).trans hknown) ((mem_iff hseen ht).2 hmem)]
    exact .error ht
  | case3 seen total t hknown hmem hentry =>
    rw [Registry.resolveFrom_of_absent ((hk t t' ht).trans hknown) (mt (mem_iff hseen ht).1 hmem)
      (hr.get?_eq_none ht hentry)]
    exact .ok _
  | case4 seen total t hknown hmem e hentry hbase =>
    obtain ⟨e', hentry', hlevels, hcases⟩ := hr.exists_get? ht hentry
    have hknown' := (hk t t' ht).trans hknown
    have hmem' := mt (mem_iff hseen ht).1 hmem
    rw [hbase] at hcases
    rcases hcases with hrel | ⟨-, b', hbase', hb⟩
    · have hbase' : e'.base = none := by
        cases h : e'.base with
        | none => rfl
        | some b' => rw [h] at hrel; cases hrel
      rw [Registry.resolveFrom_of_start hknown' hmem' hentry' hbase', hlevels]
      exact .ok _
    · rw [Registry.resolveFrom_of_base hknown' hmem' hentry' hbase',
        Registry.resolveFrom_of_known (hheld b' hb), hlevels, Int.add_zero]
      exact .ok _
  | case5 seen total t hknown hmem e hentry base hbase ih =>
    obtain ⟨e', hentry', hlevels, hcases⟩ := hr.exists_get? ht hentry
    rw [hbase] at hcases
    obtain ⟨base', hbase', hpairs⟩ : ∃ base', e'.base = some base' ∧ m.Pairs base base' := by
      rcases hcases with hrel | ⟨hnone, -⟩
      · cases h : e'.base with
        | none => rw [h] at hrel; cases hrel
        | some base' =>
          rw [h] at hrel
          cases hrel with
          | some hpairs => exact ⟨base', rfl, hpairs⟩
      · cases hnone
    rw [Registry.resolveFrom_of_base ((hk t t' ht).trans hknown) (mt (mem_iff hseen ht).1 hmem)
      hentry' hbase', hlevels]
    exact ih (.cons ht hseen) hpairs

theorem resolves (hr : m.Registers (m.Places held) r r') (hk : m.Knows k k')
    (hheld : ∀ b', held b' → k'.get? b' = some 0) {t t' : Token} (ht : m.Pairs t t') :
    m.Resolves (r.resolve k t) (r'.resolve k' t') :=
  resolves_from hr hk hheld .nil 0 ht

/-! ## lines -/

/-- A code token and where it is found, or two comments. -/
def Stays (m : Embedding s s') (t t' : Token) : Prop :=
  t'.isComment = t.isComment ∧ (t.isComment = false → m.Pairs t t')

/-- Lines that correspond one by one. -/
abbrev LinesStay (m : Embedding s s') : List (List Token) → List (List Token) → Prop :=
  List.Forall₂ (List.Forall₂ m.Stays)

theorem rel_code {line line' : List Token} (h : List.Forall₂ m.Stays line line') :
    m.PairsAll (line.filter (!·.isComment)) (line'.filter (!·.isComment)) := by
  induction h with
  | nil => exact .nil
  | @cons t t' _ _ ht _ ih =>
    obtain ⟨hcomment, hpairs⟩ := ht
    rw [List.filter_cons, List.filter_cons, hcomment]
    cases hcode : t.isComment with
    | true => exact ih
    | false => exact .cons (hpairs hcode) ih

/-- Move the lines of levels. -/
def shift (m : Embedding s s') (levels : LineLevels) : LineLevels :=
  levels.map fun (line, level) => (m.row line, level)

/-- Both settlings lead to the same levels, on the corresponding lines, or both end at
a cycle. -/
inductive Settles (m : Embedding s s') : Except Cycle LineLevels → Except Cycle LineLevels → Prop
  | ok (levels : LineLevels) : Settles m (.ok levels) (.ok (m.shift levels))
  | error {t t' : Token} (h : m.Pairs t t') : Settles m (.error ⟨t⟩) (.error ⟨t'⟩)

/-- Corresponding lines are settled alike. -/
theorem settle_registers (hr : m.Registers (m.Places held) r r') (hk : m.Knows k k')
    (hheld : ∀ b', held b' → k'.get? b' = some 0) {lines lines' : List (List Token)}
    (h : m.LinesStay lines lines') :
    m.Settles (r.settle k lines).result (r'.settle k' lines').result := by
  induction h generalizing k k' with
  | nil => exact .ok []
  | @cons line line' lines lines' hline _ ih =>
    have hcode := rel_code hline
    cases hts : line.filter (!·.isComment) with
    | nil =>
      rw [hts] at hcode
      rw [Registry.settle_cons_of_nil hts,
        Registry.settle_cons_of_nil (List.forall₂_nil_left_iff.1 hcode)]
      exact ih hk hheld
    | cons t code =>
      cases hline with
      | nil => cases hts
      | @cons leader leader' line line' hleader hline =>
        rw [hts] at hcode
        cases hts' : (leader' :: line').filter (!·.isComment) with
        | nil => rw [hts'] at hcode; cases hcode
        | cons t' code' =>
          rw [hts'] at hcode
          have ht : m.Pairs t t' := by cases hcode with | cons h _ => exact h
          have hresolves := resolves hr hk hheld ht
          generalize hlevel : r.resolve k t = x at hresolves
          generalize hlevel' : r'.resolve k' t' = x' at hresolves
          cases hresolves with
          | error hcycle =>
            rw [Registry.settle_cons_of_error hts hlevel,
              Registry.settle_cons_of_error hts' hlevel']
            exact .error hcycle
          | ok level =>
            have hrest := ih (hk.noteAll hcode level) fun b' hb =>
              KnownLevels.get?_noteAll_of_some (hheld b' hb) (t' :: code') level
            obtain ⟨hcomment, hpairs⟩ := hleader
            have hskip : (leader'.isComment || r'.isIgnored leader') =
                (leader.isComment || r.isIgnored leader) := by
              rw [hcomment]
              cases hc : leader.isComment with
              | true => rfl
              | false => rw [hr.isIgnored (hpairs hc)]
            rw [Registry.settle_cons_of_ok hts hlevel, Registry.settle_cons_of_ok hts' hlevel',
              hskip]
            split
            · exact hrest
            · next hjudged =>
              have hc : leader.isComment = false := by
                rw [Bool.or_eq_true, not_or] at hjudged
                exact Bool.eq_false_iff.2 hjudged.1
              rw [(hpairs hc).line_eq]
              dsimp only
              generalize (r.settle (k.noteAll (t :: code) level) lines).result = y at hrest
              generalize (r'.settle (k'.noteAll (t' :: code') level) lines').result = y' at hrest
              cases hrest with
              | ok levels => exact .ok ((leader.line, level) :: levels)
              | error hcycle => exact .error hcycle

end Embedding

end ScriptIndent
