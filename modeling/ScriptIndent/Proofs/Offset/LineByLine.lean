import Mathlib.Data.List.Nodup
import Mathlib.Data.List.Pairwise
import Mathlib.Data.List.Sort
import ScriptIndent.Proofs.Layout.Restyle

/-!
# ScriptIndent.Proofs.Offset.LineByLine

Settling lines one by one, as a statement on chains of bases.

```
line 1   a ( b          b ↦ a + 1        level of line 1: that of a
line 2     c            c ↦ b + 2        level of line 2: that of line 1, plus 2
```

The chain of a token goes from base to base (`Registry.chain`).  It stops at a code
token of an earlier line, which stands for that line, at a token without an entry and
at an absolute entry; what has been added up by then is the level
(`Registry.AddsUp`).  A chain that never stops (`Registry.Endless`) has no level.

Nothing is assumed of the registry: its chains may run through later lines, through
comments and in circles.  Settling fails at the first line with an endless chain, and
else finds the level of every line (`Source.lineLevels_lineByLine`).
-/

namespace ScriptIndent

namespace Registry

/-! ## chains -/

/-- The code tokens of a line. -/
def codeOf (line : List Token) : List Token := line.filter (!·.isComment)

/-- The token is a code token of one of the lines. -/
def standsOn (lines : List (List Token)) (t : Token) : Bool :=
  lines.any fun line => (codeOf line).contains t

/-- Where the chain goes on from a token, the lines above being settled. -/
def next? (r : Registry) (earlier : List (List Token)) (t : Token) : Option Token :=
  if standsOn earlier t then none else (r.get? t).bind (·.base)

/-- The tokens of the chain that starts with a token. -/
def chain (r : Registry) (earlier : List (List Token)) (t : Token) : Nat → Option Token
  | 0 => some t
  | n + 1 => (r.chain earlier t n).bind (r.next? earlier)

/-- The chain never stops. -/
def Endless (r : Registry) (earlier : List (List Token)) (t : Token) : Prop :=
  ∀ n, (r.chain earlier t n).isSome

/-- What the levels along the chain of a token add up to where the chain stops.  A code
token of an earlier line has the level of the first code token of that line, whatever
its own entry says. -/
inductive AddsUp (r : Registry) : List (List Token) → Token → Int → Prop
  | earlier {lines before after : List (List Token)} {line code : List Token}
      {first t : Token} {level : Int} (hlines : lines = before ++ line :: after)
      (hcode : codeOf line = first :: code) (ht : t ∈ codeOf line)
      (hfirst : AddsUp r before first level) : AddsUp r lines t level
  | absent {lines : List (List Token)} {t : Token} (hnew : standsOn lines t = false)
      (hentry : r.get? t = none) : AddsUp r lines t 0
  | start {lines : List (List Token)} {t : Token} {e : Entry}
      (hnew : standsOn lines t = false) (hentry : r.get? t = some e)
      (hbase : e.base = none) : AddsUp r lines t e.levels
  | base {lines : List (List Token)} {t base : Token} {e : Entry} {level : Int}
      (hnew : standsOn lines t = false) (hentry : r.get? t = some e)
      (hbase : e.base = some base) (hlevel : AddsUp r lines base level) :
      AddsUp r lines t (e.levels + level)

variable {r : Registry} {lines earlier : List (List Token)} {t : Token}

theorem exists_cons_of_codeOf {line code : List Token} (h : codeOf line = t :: code) :
    ∃ leader tail, line = leader :: tail := by
  cases line with
  | nil => simp [codeOf] at h
  | cons leader tail => exact ⟨leader, tail, rfl⟩

theorem standsOn_iff : standsOn lines t = true ↔ ∃ line ∈ lines, t ∈ codeOf line := by
  simp [standsOn]

theorem standsOn_eq_false : standsOn lines t = false ↔ ∀ line ∈ lines, t ∉ codeOf line := by
  simp [standsOn]

/-- The chain from a token is that token, and then the chain from its base. -/
theorem chain_succ {u : Token} (h : r.next? earlier t = some u) (n : Nat) :
    r.chain earlier t (n + 1) = r.chain earlier u n := by
  induction n with
  | zero => simp [chain, h]
  | succ n ih =>
    rw [chain, ih]
    rfl

theorem chain_add {m : Nat} {u : Token} (h : r.chain earlier t m = some u) (n : Nat) :
    r.chain earlier t (m + n) = r.chain earlier u n := by
  induction n with
  | zero => exact h
  | succ n ih => rw [← Nat.add_assoc, chain, ih, chain]

/-- A chain does not go on behind its end. -/
theorem isSome_chain_of_le {m n : Nat} (hle : m ≤ n) (h : (r.chain earlier t n).isSome) :
    (r.chain earlier t m).isSome := by
  induction hle with
  | refl => exact h
  | @step n _ ih =>
    apply ih
    cases hn : r.chain earlier t n with
    | some u => rfl
    | none => simp [chain, hn] at h

/-- A chain that comes back to a token goes round for ever. -/
theorem endless_of_revisit {m n : Nat} {u : Token} (hlt : m < n)
    (hm : r.chain earlier t m = some u) (hn : r.chain earlier t n = some u) :
    r.Endless earlier t := by
  intro k
  induction k using Nat.strongRecOn with
  | ind k ih =>
    by_cases hk : k ≤ n
    · exact isSome_chain_of_le hk (by simp [hn])
    · have hback : r.chain earlier t k = r.chain earlier t (m + (k - n)) := by
        rw [chain_add hm, ← chain_add hn]
        congr 1
        omega
      rw [hback]
      exact ih _ (by omega)

theorem Endless.base {u : Token} (h : r.Endless earlier t) (hnext : r.next? earlier t = some u) :
    r.Endless earlier u :=
  fun n => chain_succ hnext n ▸ h (n + 1)

/-- A chain whose levels add up stops. -/
theorem AddsUp.not_endless {level : Int} (h : r.AddsUp lines t level) : ¬r.Endless lines t := by
  intro hendless
  induction h with
  | @earlier lines _ _ line _ _ _ _ hlines _ ht _ _ =>
    have hmem : line ∈ lines := by simp [hlines]
    simpa [chain, next?, standsOn_iff.2 ⟨line, hmem, ht⟩] using hendless 1
  | absent hnew hentry => simpa [chain, next?, hnew, hentry] using hendless 1
  | start hnew hentry hbase => simpa [chain, next?, hnew, hentry, hbase] using hendless 1
  | base hnew hentry hbase _ ih => exact ih (hendless.base (by simp [next?, hnew, hentry, hbase]))

/-- The level of a token on an earlier line does not change when more lines follow. -/
theorem AddsUp.append {level : Int} (h : r.AddsUp lines t level) (hon : standsOn lines t = true)
    (more : List (List Token)) : r.AddsUp (lines ++ more) t level := by
  cases h with
  | @earlier _ before after line _ _ _ _ hlines hcode ht hfirst =>
    have hlines' : lines ++ more = before ++ line :: (after ++ more) := by simp [hlines]
    exact .earlier hlines' hcode ht hfirst
  | absent hnew => simp [hnew] at hon
  | start hnew => simp [hnew] at hon
  | base hnew => simp [hnew] at hon

/-- The tokens of a line do not stand on lines above it. -/
theorem standsOn_eq_false_of_nodup {line : List Token}
    (hnodup : (((earlier ++ [line]) ++ lines).flatMap codeOf).Nodup) :
    ∀ t ∈ codeOf line, standsOn earlier t = false := by
  intro t ht
  rw [List.append_assoc, List.flatMap_append, List.nodup_append] at hnodup
  refine standsOn_eq_false.2 fun l hl hmem => ?_
  exact hnodup.2.2 t (List.mem_flatMap.2 ⟨l, hl, hmem⟩) t (by simp [ht]) rfl

/-- A token stands on one line only. -/
theorem eq_of_standsOn {before before' after after' : List (List Token)} {line line' : List Token}
    (hnodup : ((before ++ line :: after).flatMap codeOf).Nodup)
    (h : before ++ line :: after = before' ++ line' :: after') (ht : t ∈ codeOf line)
    (ht' : t ∈ codeOf line') : before = before' ∧ line = line' := by
  induction before generalizing before' with
  | nil =>
    cases before' with
    | nil => exact ⟨rfl, (List.cons_eq_cons.1 h).1⟩
    | cons l rest =>
      obtain ⟨rfl, rfl⟩ := List.cons_eq_cons.1 h
      rw [List.nil_append, List.flatMap_cons, List.nodup_append] at hnodup
      exact absurd rfl (hnodup.2.2 t ht t (List.mem_flatMap.2 ⟨line', by simp, ht'⟩))
  | cons l rest ih =>
    rw [List.cons_append, List.flatMap_cons, List.nodup_append] at hnodup
    cases before' with
    | nil =>
      obtain ⟨rfl, -⟩ := List.cons_eq_cons.1 h
      exact absurd rfl (hnodup.2.2 t ht' t (List.mem_flatMap.2 ⟨line, by simp, ht⟩))
    | cons l' rest' =>
      obtain ⟨rfl, htail⟩ := List.cons_eq_cons.1 h
      obtain ⟨rfl, rfl⟩ := ih hnodup.2.1 htail
      exact ⟨rfl, rfl⟩

/-- A chain adds up to one level. -/
theorem AddsUp.unique (hnodup : (lines.flatMap codeOf).Nodup) {level level' : Int}
    (h : r.AddsUp lines t level) (h' : r.AddsUp lines t level') : level' = level := by
  induction h generalizing level' with
  | @earlier lines before after line code first t level hlines hcode ht _ ih =>
    have hon : standsOn lines t = true := standsOn_iff.2 ⟨line, by simp [hlines], ht⟩
    cases h' with
    | earlier hlines' hcode' ht' hfirst' =>
      rw [hlines] at hnodup hlines'
      obtain ⟨rfl, rfl⟩ := eq_of_standsOn hnodup hlines' ht ht'
      obtain ⟨rfl, rfl⟩ := List.cons_eq_cons.1 (hcode'.symm.trans hcode)
      rw [List.flatMap_append, List.nodup_append] at hnodup
      exact ih hnodup.1 hfirst'
    | absent hnew => simp [hnew] at hon
    | start hnew => simp [hnew] at hon
    | base hnew => simp [hnew] at hon
  | absent hnew hentry =>
    cases h' with
    | earlier hlines _ ht => simp [standsOn, hlines, ht] at hnew
    | absent => rfl
    | start _ hentry' => simp [hentry] at hentry'
    | base _ hentry' => simp [hentry] at hentry'
  | start hnew hentry hbase =>
    cases h' with
    | earlier hlines _ ht => simp [standsOn, hlines, ht] at hnew
    | absent _ hentry' => simp [hentry] at hentry'
    | start _ hentry' => rw [Option.mem_unique hentry hentry']
    | base _ hentry' hbase' =>
      obtain rfl := Option.mem_unique hentry hentry'
      simp [hbase] at hbase'
  | base hnew hentry hbase _ ih =>
    cases h' with
    | earlier hlines _ ht => simp [standsOn, hlines, ht] at hnew
    | absent _ hentry' => simp [hentry] at hentry'
    | start _ hentry' hbase' =>
      obtain rfl := Option.mem_unique hentry hentry'
      simp [hbase] at hbase'
    | base _ hentry' hbase' hlevel' =>
      obtain rfl := Option.mem_unique hentry hentry'
      obtain rfl := Option.mem_unique hbase hbase'
      rw [ih hnodup hlevel']

/-! ## what is known after some lines -/

/-- Known are the levels of the code tokens of some lines, and no others. -/
structure Remembers (r : Registry) (k : KnownLevels) (earlier : List (List Token)) : Prop where
  known {t : Token} : standsOn earlier t = true →
    ∃ level, k.get? t = some level ∧ r.AddsUp earlier t level
  unknown {t : Token} : standsOn earlier t = false → k.get? t = none

variable {k : KnownLevels}

theorem remembers_nil : r.Remembers [] [] where
  known h := by simp [standsOn] at h
  unknown _ := rfl

theorem Remembers.standsOn_eq_false (hk : r.Remembers k earlier) (h : k.get? t = none) :
    standsOn earlier t = false := by
  cases hon : standsOn earlier t with
  | false => rfl
  | true =>
    obtain ⟨level, hlevel, -⟩ := hk.known hon
    simp [h] at hlevel

theorem Remembers.addsUp (hk : r.Remembers k earlier) {level : Int} (h : k.get? t = some level) :
    r.AddsUp earlier t level := by
  cases hon : standsOn earlier t with
  | false => simp [hk.unknown hon] at h
  | true =>
    obtain ⟨l, hl, hadds⟩ := hk.known hon
    obtain rfl := Option.mem_unique hl h
    exact hadds

/-- A level that is found is what the chain adds up to. -/
theorem Remembers.addsUp_of_resolveFrom (hk : r.Remembers k earlier) {seen : List Token}
    {total result : Int} (h : r.resolveFrom k seen total t = .ok result) :
    ∃ level, result = total + level ∧ r.AddsUp earlier t level := by
  fun_induction r.resolveFrom k seen total t with
  | case1 seen total t level hknown =>
    exact ⟨level, (Except.ok.inj h).symm, hk.addsUp hknown⟩
  | case2 => cases h
  | case3 seen total t hknown hmem hentry =>
    exact ⟨0, by simpa using (Except.ok.inj h).symm,
      .absent (hk.standsOn_eq_false hknown) hentry⟩
  | case4 seen total t hknown hmem e hentry hbase =>
    exact ⟨e.levels, (Except.ok.inj h).symm,
      .start (hk.standsOn_eq_false hknown) hentry hbase⟩
  | case5 seen total t hknown hmem e hentry base hbase ih =>
    obtain ⟨level, rfl, hlevel⟩ := ih h
    exact ⟨e.levels + level, by omega, .base (hk.standsOn_eq_false hknown) hentry hbase hlevel⟩

/-- A search that fails has come back to a token of an endless chain.  The tokens seen
are those of the chain up to here. -/
theorem Remembers.endless_of_resolveFrom (hk : r.Remembers k earlier) {seen : List Token}
    {total : Int} {cycle : Cycle} {n : Nat} {start : Token}
    (ht : r.chain earlier start n = some t)
    (hseen : ∀ u ∈ seen, ∃ m < n, r.chain earlier start m = some u)
    (h : r.resolveFrom k seen total t = .error cycle) :
    r.Endless earlier start ∧ ∃ n, r.chain earlier start n = some cycle.token := by
  fun_induction r.resolveFrom k seen total t generalizing n with
  | case1 => cases h
  | case2 seen total t hknown hmem =>
    obtain rfl := Except.error.inj h
    obtain ⟨m, hm, hchain⟩ := hseen t hmem
    exact ⟨endless_of_revisit hm hchain ht, n, ht⟩
  | case3 => cases h
  | case4 => cases h
  | case5 seen total t hknown hmem e hentry base hbase ih =>
    have hnext : r.chain earlier start (n + 1) = some base := by
      simp [chain, ht, next?, hk.standsOn_eq_false hknown, hentry, hbase]
    refine ih hnext (fun u hu => ?_) h
    rcases List.mem_cons.1 hu with rfl | hu
    · exact ⟨n, by omega, ht⟩
    · obtain ⟨m, hm, hchain⟩ := hseen u hu
      exact ⟨m, by omega, hchain⟩

/-- The code tokens of one more line are known by then. -/
theorem Remembers.noteAll (hk : r.Remembers k earlier) {line code : List Token} {first : Token}
    {level : Int} (hcode : codeOf line = first :: code) (hlevel : r.AddsUp earlier first level)
    (hnew : ∀ t ∈ codeOf line, standsOn earlier t = false) :
    r.Remembers (k.noteAll (codeOf line) level) (earlier ++ [line]) where
  known {t} h := by
    by_cases ht : t ∈ codeOf line
    · refine ⟨level, KnownLevels.get?_noteAll_of_mem (hk.unknown (hnew t ht)) ht level, ?_⟩
      exact .earlier rfl hcode ht hlevel
    · have hon : standsOn earlier t = true := by simpa [standsOn, ht] using h
      obtain ⟨l, hl, hadds⟩ := hk.known hon
      exact ⟨l, KnownLevels.get?_noteAll_of_some hl _ level, hadds.append hon [line]⟩
  unknown {t} h := by
    have hboth : standsOn earlier t = false ∧ t ∉ codeOf line := by simpa [standsOn] using h
    rw [KnownLevels.get?_noteAll_of_not_mem hboth.2, hk.unknown hboth.1]

/-- A line without code tokens changes nothing. -/
theorem Remembers.append_of_nil (hk : r.Remembers k earlier) {line : List Token}
    (hcode : codeOf line = []) : r.Remembers k (earlier ++ [line]) where
  known {t} h := by
    have hon : standsOn earlier t = true := by simpa [standsOn, hcode] using h
    obtain ⟨l, hl, hadds⟩ := hk.known hon
    exact ⟨l, hl, hadds.append hon [line]⟩
  unknown {t} h := hk.unknown (by simpa [standsOn, hcode] using h)

/-! ## settling -/

/-- The token is the first code token of one of the lines, and these are the lines
above. -/
def Opens (lines above : List (List Token)) (t : Token) : Prop :=
  ∃ line below code, lines = above ++ line :: below ∧ codeOf line = t :: code

/-- The token is the first of one of the lines, and these are the lines above.  It is no
comment, and the line is judged. -/
def Judges (r : Registry) (lines above : List (List Token)) (t : Token) : Prop :=
  ∃ rest below, lines = above ++ (t :: rest) :: below ∧ t.isComment = false ∧
    r.isIgnored t = false

/-- No line opens among no lines. -/
theorem not_opens_nil {above : List (List Token)} : ¬Opens [] above t := by
  rintro ⟨line, below, code, h, -⟩
  simp at h

/-- A line opens the rest, or is below the first one. -/
theorem opens_cons_iff {line : List Token} {above : List (List Token)} :
    Opens (line :: lines) above t ↔
      (above = [] ∧ ∃ code, codeOf line = t :: code) ∨
        ∃ above', above = line :: above' ∧ Opens lines above' t := by
  constructor
  · rintro ⟨line', below, code, hlines, hcode⟩
    cases above with
    | nil =>
      obtain ⟨rfl, rfl⟩ := List.cons_eq_cons.1 hlines
      exact .inl ⟨rfl, code, hcode⟩
    | cons a above' =>
      obtain ⟨rfl, rfl⟩ := List.cons_eq_cons.1 hlines
      exact .inr ⟨above', rfl, line', below, code, rfl, hcode⟩
  · rintro (⟨rfl, code, hcode⟩ | ⟨above', rfl, line', below, code, rfl, hcode⟩)
    · exact ⟨line, lines, code, rfl, hcode⟩
    · exact ⟨line', below, code, rfl, hcode⟩

theorem judges_cons_iff {line : List Token} {above : List (List Token)} :
    r.Judges (line :: lines) above t ↔
      (above = [] ∧ line.head? = some t ∧ t.isComment = false ∧ r.isIgnored t = false) ∨
        ∃ above', above = line :: above' ∧ r.Judges lines above' t := by
  constructor
  · rintro ⟨rest, below, hlines, hjudged⟩
    cases above with
    | nil =>
      obtain ⟨rfl, rfl⟩ := List.cons_eq_cons.1 hlines
      exact .inl ⟨rfl, rfl, hjudged⟩
    | cons a above' =>
      obtain ⟨rfl, rfl⟩ := List.cons_eq_cons.1 hlines
      exact .inr ⟨above', rfl, rest, below, rfl, hjudged⟩
  · rintro (⟨rfl, hhead, hjudged⟩ | ⟨above', rfl, rest, below, rfl, hjudged⟩)
    · obtain ⟨rest, rfl⟩ := List.head?_eq_some_iff.1 hhead
      exact ⟨rest, lines, rfl, hjudged⟩
    · exact ⟨rest, below, rfl, hjudged⟩

/-- What settling lines below some others leads to: all levels are remembered, and the
judged lines have theirs. -/
structure SettlesTo (r : Registry) (earlier lines : List (List Token)) (k : KnownLevels)
    (levels : LineLevels) : Prop where
  remembers : r.Remembers k (earlier ++ lines)
  mem_iff {n : Nat} {level : Int} : (n, level) ∈ levels ↔
    ∃ above t, r.Judges lines above t ∧ t.line = n ∧ r.AddsUp (earlier ++ above) t level

/-- The first line with an endless chain, below some others. -/
def FailsAt (r : Registry) (earlier lines : List (List Token)) (cycle : Cycle) : Prop :=
  ∃ above t, Opens lines above t ∧ r.Endless (earlier ++ above) t ∧
    (∃ n, r.chain (earlier ++ above) t n = some cycle.token) ∧
    ∀ above' t', Opens above above' t' → ¬r.Endless (earlier ++ above') t'

/-- A line that does not fail itself fails where the lines below it do. -/
theorem FailsAt.cons {line : List Token} {cycle : Cycle}
    (h : r.FailsAt (earlier ++ [line]) lines cycle)
    (hline : ∀ t code, codeOf line = t :: code → ¬r.Endless earlier t) :
    r.FailsAt earlier (line :: lines) cycle := by
  obtain ⟨above, t, hopens, hendless, hchain, hfirst⟩ := h
  rw [List.append_assoc, List.singleton_append] at hendless hchain
  refine ⟨line :: above, t, opens_cons_iff.2 (.inr ⟨above, rfl, hopens⟩), hendless, hchain, ?_⟩
  intro above' t' hopens'
  rcases opens_cons_iff.1 hopens' with ⟨rfl, code, hcode⟩ | ⟨above'', rfl, hbelow⟩
  · simpa using hline t' code hcode
  · simpa using hfirst above'' t' hbelow

/-- A code token has the level of the line that it stands on. -/
theorem AddsUp.exists_line {level : Int} (h : r.AddsUp lines t level)
    (hon : standsOn lines t = true) :
    ∃ above line below first code, lines = above ++ line :: below ∧
      codeOf line = first :: code ∧ t ∈ codeOf line ∧ r.AddsUp above first level := by
  cases h with
  | earlier hlines hcode ht hfirst => exact ⟨_, _, _, _, _, hlines, hcode, ht, hfirst⟩
  | absent hnew => simp [hnew] at hon
  | start hnew => simp [hnew] at hon
  | base hnew => simp [hnew] at hon

/-- When all levels are remembered, the chain of each line stops. -/
theorem Remembers.not_endless (hk : r.Remembers k lines)
    (hnodup : (lines.flatMap codeOf).Nodup) {above : List (List Token)} (h : Opens lines above t) :
    ¬r.Endless above t := by
  obtain ⟨line, below, code, rfl, hcode⟩ := h
  have ht : t ∈ codeOf line := by simp [hcode]
  have hon : standsOn (above ++ line :: below) t = true := standsOn_iff.2 ⟨line, by simp, ht⟩
  obtain ⟨level, -, hlevel⟩ := hk.known hon
  obtain ⟨above', line', below', first, code', hlines, hcode', ht', hfirst⟩ := hlevel.exists_line hon
  obtain ⟨rfl, rfl⟩ := eq_of_standsOn hnodup hlines ht ht'
  obtain ⟨rfl, rfl⟩ := List.cons_eq_cons.1 (hcode.symm.trans hcode')
  exact hfirst.not_endless

variable {line : List Token} {levels : LineLevels}

/-- Put a line that is not judged before settled ones. -/
theorem SettlesTo.cons_of_not_judged (h : r.SettlesTo (earlier ++ [line]) lines k levels)
    (hline : ∀ t, line.head? = some t → t.isComment = false → r.isIgnored t = true) :
    r.SettlesTo earlier (line :: lines) k levels where
  remembers := by simpa using h.remembers
  mem_iff {n level} := by
    rw [h.mem_iff]
    constructor
    · rintro ⟨above, t, hjudges, hn, hlevel⟩
      exact ⟨line :: above, t, judges_cons_iff.2 (.inr ⟨above, rfl, hjudges⟩), hn,
        by simpa using hlevel⟩
    · rintro ⟨above, t, hjudges, hn, hlevel⟩
      rcases judges_cons_iff.1 hjudges with ⟨rfl, hhead, hcode, hjudged⟩ | ⟨above', rfl, hbelow⟩
      · simp [hline t hhead hcode] at hjudged
      · exact ⟨above', t, hbelow, hn, by simpa using hlevel⟩

/-- Put a judged line before settled ones. -/
theorem SettlesTo.cons_of_judged (h : r.SettlesTo (earlier ++ [line]) lines k levels)
    (hhead : line.head? = some t) (hcode : t.isComment = false) (hjudged : r.isIgnored t = false)
    {level : Int} (hlevel : ∀ level', r.AddsUp earlier t level' ↔ level' = level) :
    r.SettlesTo earlier (line :: lines) k ((t.line, level) :: levels) where
  remembers := by simpa using h.remembers
  mem_iff {n level'} := by
    rw [List.mem_cons, h.mem_iff]
    constructor
    · rintro (heq | ⟨above, u, hjudges, hn, hadds⟩)
      · obtain ⟨rfl, rfl⟩ := Prod.mk.injEq .. ▸ heq
        exact ⟨[], t, judges_cons_iff.2 (.inl ⟨rfl, hhead, hcode, hjudged⟩), rfl,
          by simpa using (hlevel _).2 rfl⟩
      · exact ⟨line :: above, u, judges_cons_iff.2 (.inr ⟨above, rfl, hjudges⟩), hn,
          by simpa using hadds⟩
    · rintro ⟨above, u, hjudges, hn, hadds⟩
      rcases judges_cons_iff.1 hjudges with ⟨rfl, hhead', -, -⟩ | ⟨above', rfl, hbelow⟩
      · obtain rfl := Option.mem_unique hhead hhead'
        rw [List.append_nil] at hadds
        rw [hlevel] at hadds
        exact .inl (by rw [← hn, hadds])
      · exact .inr ⟨above', u, hbelow, hn, by simpa using hadds⟩

/-- Settling lines finds all their levels, or the first endless chain. -/
theorem settle_settlesTo (hk : r.Remembers k earlier)
    (hnodup : ((earlier ++ lines).flatMap codeOf).Nodup) :
    match (r.settle k lines).result with
    | .error cycle => r.FailsAt earlier lines cycle
    | .ok levels => r.SettlesTo earlier lines (r.settle k lines).known levels := by
  induction lines generalizing earlier k with
  | nil =>
    rw [settle]
    refine ⟨by simpa using hk, fun {n level} => ?_⟩
    simp [Judges]
  | cons line rest ih =>
    have hsplit : earlier ++ line :: rest = (earlier ++ [line]) ++ rest := by simp
    rw [hsplit] at hnodup
    cases hcode : codeOf line with
    | nil =>
      have hsettle : r.settle k (line :: rest) = r.settle k rest := settle_cons_of_nil hcode
      have hline : ∀ t, line.head? = some t → t.isComment = false → r.isIgnored t = true := by
        intro t hhead ht
        obtain ⟨tail, rfl⟩ := List.head?_eq_some_iff.1 hhead
        simp [codeOf, ht] at hcode
      have hrest := ih (hk.append_of_nil hcode) hnodup
      rw [hsettle]
      split
      · next cycle hresult =>
        rw [hresult] at hrest
        exact FailsAt.cons hrest (by simp [hcode])
      · next levels hresult =>
        rw [hresult] at hrest
        exact hrest.cons_of_not_judged hline
    | cons t code =>
      obtain ⟨leader, tail, rfl⟩ := exists_cons_of_codeOf hcode
      have hnew := standsOn_eq_false_of_nodup hnodup
      have hunique : ((earlier).flatMap codeOf).Nodup := by
        rw [List.append_assoc, List.flatMap_append, List.nodup_append] at hnodup
        exact hnodup.1
      cases hresolve : r.resolve k t with
      | error cycle =>
        rw [settle_cons_of_error hcode hresolve]
        have hstart : r.chain earlier t 0 = some t := rfl
        obtain ⟨hendless, hchain⟩ := hk.endless_of_resolveFrom hstart (by simp) hresolve
        exact ⟨[], t, opens_cons_iff.2 (.inl ⟨rfl, code, hcode⟩), by simpa using hendless,
          by simpa using hchain, fun above' t' h => absurd h not_opens_nil⟩
      | ok level =>
        obtain ⟨level', heq, hlevel⟩ := hk.addsUp_of_resolveFrom hresolve
        obtain rfl : level = level' := by omega
        have hline : ∀ u code', codeOf (leader :: tail) = u :: code' → ¬r.Endless earlier u := by
          intro u code' hcode'
          obtain ⟨rfl, -⟩ := List.cons_eq_cons.1 (hcode.symm.trans hcode')
          exact hlevel.not_endless
        have hrest := ih (hk.noteAll hcode hlevel hnew) hnodup
        rw [hcode] at hrest
        rw [settle_cons_of_ok hcode hresolve]
        by_cases hjudged : (leader.isComment || r.isIgnored leader) = true
        · rw [if_pos hjudged]
          split
          · next cycle hresult =>
            rw [hresult] at hrest
            exact FailsAt.cons hrest hline
          · next levels hresult =>
            rw [hresult] at hrest
            refine hrest.cons_of_not_judged fun u hhead hu => ?_
            obtain rfl := Option.some.inj hhead
            simpa [hu] using hjudged
        · rw [if_neg hjudged]
          rw [Bool.or_eq_true, not_or, Bool.not_eq_true, Bool.not_eq_true] at hjudged
          obtain rfl : leader = t := by
            simp only [codeOf, List.filter_cons, hjudged.1] at hcode
            exact (List.cons_eq_cons.1 hcode).1
          dsimp only
          cases hresult : (r.settle (k.noteAll (leader :: code) level) rest).result with
          | error cycle =>
            rw [hresult] at hrest
            exact FailsAt.cons hrest hline
          | ok levels =>
            rw [hresult] at hrest
            exact hrest.cons_of_judged rfl hjudged.1 hjudged.2 fun level' =>
              ⟨fun h => hlevel.unique hunique h, fun h => h ▸ hlevel⟩

end Registry

namespace Source

open Registry

variable {s : Source}

theorem isComment_of_mem_tokens {t : Token} (h : t ∈ s.tokens) : t.isComment = false := by
  obtain ⟨i, hi⟩ := Array.getElem?_of_mem h
  obtain ⟨p, hp, rfl⟩ := exists_codePiece hi
  have hcode := (List.mem_filter.1 (List.mem_of_getElem? hp)).2
  rw [Bool.not_eq_true'] at hcode
  exact hcode

theorem nodup_tokens (s : Source) : s.tokens.toList.Nodup := by
  rw [List.nodup_iff_getElem?_ne_getElem?]
  intro i j hij hj heq
  rw [Array.length_toList] at hj
  have hget : s.tokens[j]? = some s.tokens[j] := Array.getElem?_eq_getElem hj
  rw [Array.getElem?_toList, Array.getElem?_toList, hget] at heq
  have := eq_of_getElem? heq hget
  omega

theorem flatMap_codeOf (s : Source) :
    s.lines.flatMap codeOf = s.merged.filter (!·.isComment) := by
  rw [← flatten_lines, List.filter_flatten, List.flatMap]
  rfl

/-- The code tokens of all lines are those of the source. -/
theorem flatMap_lines (s : Source) : (s.lines.flatMap codeOf).Perm s.tokens.toList := by
  have htokens : s.tokens.toList.filter (!·.isComment) = s.tokens.toList :=
    List.filter_eq_self.2 fun t ht => by
      simp [isComment_of_mem_tokens (Array.mem_toList_iff.1 ht)]
  have hcomments : s.comments.filter (!·.isComment) = [] :=
    List.filter_eq_nil_iff.2 fun t ht => by simp [isComment_of_mem_comments ht]
  have hperm := (List.mergeSort_perm (s.tokens.toList ++ s.comments)
    fun a b => decide (a.start ≤ b.start)).filter (!·.isComment)
  rwa [List.filter_append, htokens, hcomments, List.append_nil, ← merged, ← flatMap_codeOf] at hperm

theorem nodup_lines (s : Source) : (s.lines.flatMap codeOf).Nodup :=
  s.flatMap_lines.nodup_iff.2 s.nodup_tokens

theorem standsOn_lines {t : Token} (h : t ∈ s.tokens) : standsOn s.lines t = true := by
  have hmem := s.flatMap_lines.mem_iff.2 (Array.mem_toList_iff.2 h)
  obtain ⟨line, hline, ht⟩ := List.mem_flatMap.1 hmem
  exact standsOn_iff.2 ⟨line, hline, ht⟩

/-- A new resolver fails on the lines of a source if and only if some line has an
endless chain, and then at the first such line.  Else it gives each line that starts
with a judged code token the level that the chain of this token adds up to, and from
then on every code token has the level of its line. -/
theorem lineLevels_lineByLine (s : Source) (r : Registry) (width : Int) :
    (∀ cycle, (({ width } : Resolver).lineLevels s r).1 = .error cycle →
      ∃ above t, Opens s.lines above t ∧ r.Endless above t ∧
        (∃ n, r.chain above t n = some cycle.token) ∧
        ∀ above' t', Opens above above' t' → ¬r.Endless above' t') ∧
    ((∃ cycle, (({ width } : Resolver).lineLevels s r).1 = .error cycle) ↔
      ∃ above t, Opens s.lines above t ∧ r.Endless above t) ∧
    ∀ levels, (({ width } : Resolver).lineLevels s r).1 = .ok levels →
      levels.Pairwise (·.1 < ·.1) ∧
      (∀ line level, (line, level) ∈ levels ↔
        ∃ above t, r.Judges s.lines above t ∧ t.line = line ∧ r.AddsUp above t level) ∧
      ∀ t ∈ s.tokens, ∃ above line below first code level,
        s.lines = above ++ line :: below ∧ codeOf line = first :: code ∧ t ∈ codeOf line ∧
          r.AddsUp above first level ∧
          (({ width } : Resolver).lineLevels s r).2.resolve r t = .ok level := by
  have hnodup : (([] ++ s.lines).flatMap codeOf).Nodup := s.nodup_lines
  have hsettle := settle_settlesTo (r := r) remembers_nil hnodup
  have hresult : (({ width } : Resolver).lineLevels s r).1 = (r.settle [] s.lines).result := rfl
  have hknown : (({ width } : Resolver).lineLevels s r).2.known =
    (r.settle [] s.lines).known := rfl
  rw [hresult]
  cases hlevels : (r.settle [] s.lines).result with
  | error cycle =>
    rw [hlevels] at hsettle
    obtain ⟨above, t, hopens, hendless, hchain, hfirst⟩ := hsettle
    refine ⟨?_, ⟨fun _ => ⟨above, t, hopens, hendless⟩, fun _ => ⟨cycle, rfl⟩⟩, ?_⟩
    · intro cycle' hcycle
      obtain rfl := Except.error.inj hcycle
      exact ⟨above, t, hopens, hendless, hchain, hfirst⟩
    · intro levels h
      cases h
  | ok levels =>
    rw [hlevels] at hsettle
    refine ⟨?_, ⟨?_, ?_⟩, ?_⟩
    · intro cycle h
      cases h
    · rintro ⟨cycle, h⟩
      cases h
    · rintro ⟨above, t, hopens, hendless⟩
      exact absurd hendless (hsettle.remembers.not_endless s.nodup_lines hopens)
    · intro levels' h
      obtain rfl := Except.ok.inj h
      refine ⟨pairwise_levels hlevels, fun _ _ => hsettle.mem_iff, fun t ht => ?_⟩
      obtain ⟨level, hlevel, hadds⟩ := hsettle.remembers.known (standsOn_lines ht)
      obtain ⟨above, line, below, first, code, hlines, hcode, hmem, hfirst⟩ :=
        hadds.exists_line (standsOn_lines ht)
      refine ⟨above, line, below, first, code, level, hlines, hcode, hmem, hfirst, ?_⟩
      rw [Resolver.resolve, hknown, Registry.resolve, resolveFrom_of_known hlevel, Int.zero_add]

/-! ## levels of a given source -/

/-- All tokens and comments by their start, sorted by insertion.  This can be computed. -/
def inserted (s : Source) : List Token :=
  (s.tokens.toList ++ s.comments).insertionSort (·.start ≤ ·.start)

/-- Where no two tokens and comments start together, there is only one order of them. -/
theorem merged_eq_inserted (h : s.inserted.Pairwise (·.start < ·.start)) :
    s.merged = s.inserted := by
  have hperm : s.merged.Perm s.inserted :=
    calc s.merged.Perm (s.tokens.toList ++ s.comments) := List.mergeSort_perm _ _
      List.Perm _ s.inserted := (List.perm_insertionSort _ _).symm
  have hsymm : Std.Symm fun a b : Token => a.start ≠ b.start := ⟨fun _ _ h => h.symm⟩
  have hapart : s.inserted.Pairwise fun a b => a.start ≠ b.start := h.imp Int.ne_of_lt
  refine hperm.eq_of_pairwise (fun a b ha hb hab hba => ?_) s.pairwise_merged (h.imp Int.le_of_lt)
  by_contra hne
  exact hapart.forall (hperm.mem_iff.1 ha) hb hne (Int.le_antisymm hab hba)

/-- The levels of a given source, by computing. -/
theorem lineLevels_eq_ok {r : Registry} {width : Int} {levels : LineLevels}
    (hsorted : s.inserted.Pairwise (·.start < ·.start))
    (hlevels : (r.settle [] (groupsFrom 0 [] s.inserted)).result.toOption = some levels) :
    (({ width } : Resolver).lineLevels s r).1 = .ok levels := by
  change (r.settle [] s.lines).result = _
  rw [lines, merged_eq_inserted hsorted]
  cases hresult : (r.settle [] (groupsFrom 0 [] s.inserted)).result with
  | error cycle =>
    rw [hresult] at hlevels
    cases hlevels
  | ok found =>
    rw [hresult] at hlevels
    exact congrArg Except.ok (Option.some.inj hlevels)

end Source

end ScriptIndent
