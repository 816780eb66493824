import ScriptIndent.Proofs.Offset.LineByLine

/-!
# ScriptIndent.Proofs.Offset.Calls

A resolver that is asked again and again.

```
level of t      lines of a        lines of a        level of t
   └ known: none   └ known: some     └ known: the same  └ known: the same
```

Settling lines notes the levels of their tokens, and a cycle does not take back what has been
noted above it.  Settling the lines once more then finds all that is noted as it was
(`Registry.settle_settle`), so it comes to the same end, be it the levels or the cycle.

1. Asking for the level of a token leaves the resolver as it is.
2. Asking for the lines leaves it as the first such question did, and every answer is the first
   one (`Resolver.lineLevels_lineLevels`).
3. So any sequence of questions leaves one of two resolvers, the new one and the one that has been
   asked for the lines once (`Resolver.run_answers`).
-/

namespace ScriptIndent

namespace KnownLevels

/-- What is known after noting a level for several tokens is known of each of them. -/
theorem isSome_get?_noteAll (k : KnownLevels) {u : Token} {ts : List Token} (h : u ∈ ts)
    (level : Int) : ((k.noteAll ts level).get? u).isSome := by
  cases hk : k.get? u with
  | some l => simp [get?_noteAll_of_some hk]
  | none => simp [get?_noteAll_of_mem hk h]

/-- Nothing is noted for tokens whose level is known. -/
theorem noteAll_of_known {k : KnownLevels} {ts : List Token}
    (h : ∀ t ∈ ts, (k.get? t).isSome) (level : Int) : k.noteAll ts level = k := by
  induction ts with
  | nil => rfl
  | cons t rest ih =>
    have hnote : k.note t level = k := if_pos (h t List.mem_cons_self)
    rw [noteAll, List.foldl_cons, hnote]
    exact ih fun u hu => h u (List.mem_cons_of_mem t hu)

end KnownLevels

namespace Registry

variable {r : Registry} {k : KnownLevels} {lines : List (List Token)}

/-! ## settling once more -/

/-- What is known after settling a line with a level and more lines is what these leave. -/
theorem known_settle_cons_of_ok {leader t : Token} {line code : List Token} {level : Int}
    (h : codeOf (leader :: line) = t :: code) (hresolve : r.resolve k t = .ok level) :
    (r.settle k ((leader :: line) :: lines)).known =
      (r.settle (k.noteAll (t :: code) level) lines).known := by
  rw [settle_cons_of_ok h hresolve]
  split <;> rfl

/-- Settling that does not fail at a line fails at the lines below. -/
theorem result_settle_of_cons {leader t : Token} {line code : List Token} {level : Int}
    {cycle : Cycle} (hcode : codeOf (leader :: line) = t :: code)
    (hresolve : r.resolve k t = .ok level)
    (h : (r.settle k ((leader :: line) :: lines)).result = .error cycle) :
    (r.settle (k.noteAll (t :: code) level) lines).result = .error cycle := by
  rw [settle_cons_of_ok hcode hresolve] at h
  split at h
  · exact h
  · cases hresult : (r.settle (k.noteAll (t :: code) level) lines).result with
    | error cycle' =>
      rw [hresult] at h
      exact h
    | ok levels =>
      rw [hresult] at h
      cases h

/-- Settling keeps the levels that are known. -/
theorem get?_settle_of_some {t : Token} {level : Int} (h : k.get? t = some level)
    (lines : List (List Token)) : (r.settle k lines).known.get? t = some level := by
  induction lines generalizing k with
  | nil => exact h
  | cons line rest ih =>
    cases hcode : codeOf line with
    | nil =>
      rw [settle_cons_of_nil hcode]
      exact ih h
    | cons u code =>
      obtain ⟨leader, tail, rfl⟩ := exists_cons_of_codeOf hcode
      cases hresolve : r.resolve k u with
      | error cycle =>
        rw [settle_cons_of_error hcode hresolve]
        exact h
      | ok l =>
        rw [known_settle_cons_of_ok hcode hresolve]
        exact ih (KnownLevels.get?_noteAll_of_some h _ l)

/-- The first code token of a line has the level that has been found for it. -/
theorem get?_noteAll_of_resolve {t : Token} {level : Int} (h : r.resolve k t = .ok level)
    (code : List Token) : (k.noteAll (t :: code) level).get? t = some level := by
  cases hk : k.get? t with
  | some l =>
    rw [resolve, resolveFrom_of_known hk, Int.zero_add] at h
    obtain rfl := Except.ok.inj h
    exact KnownLevels.get?_noteAll_of_some hk _ l
  | none => exact KnownLevels.get?_noteAll_of_mem hk List.mem_cons_self level

/-- Settling lines with what is known from settling them comes to the same end. -/
theorem settle_settle (r : Registry) (k : KnownLevels) (lines : List (List Token)) :
    r.settle (r.settle k lines).known lines = r.settle k lines := by
  induction lines generalizing k with
  | nil => rfl
  | cons line rest ih =>
    cases hcode : codeOf line with
    | nil => rw [settle_cons_of_nil hcode, settle_cons_of_nil hcode, ih]
    | cons t code =>
      obtain ⟨leader, tail, rfl⟩ := exists_cons_of_codeOf hcode
      cases hresolve : r.resolve k t with
      | error cycle =>
        -- nothing has been noted for this line, so the search is the same
        rw [settle_cons_of_error hcode hresolve, settle_cons_of_error hcode hresolve]
      | ok level =>
        rw [known_settle_cons_of_ok hcode hresolve]
        have hfirst : (k.noteAll (t :: code) level).get? t = some level :=
          get?_noteAll_of_resolve hresolve code
        have hagain :
            r.resolve (r.settle (k.noteAll (t :: code) level) rest).known t = .ok level := by
          rw [resolve, resolveFrom_of_known (get?_settle_of_some hfirst rest), Int.zero_add]
        have hnoted : KnownLevels.noteAll (r.settle (k.noteAll (t :: code) level) rest).known
            (t :: code) level = (r.settle (k.noteAll (t :: code) level) rest).known := by
          refine KnownLevels.noteAll_of_known (fun u hu => ?_) level
          obtain ⟨l, hl⟩ := Option.isSome_iff_exists.1 (k.isSome_get?_noteAll hu level)
          simp [get?_settle_of_some hl]
        rw [settle_cons_of_ok hcode hagain, settle_cons_of_ok hcode hresolve, hnoted, ih]

/-- Settling that fails at a line remembers the lines above it. -/
theorem remembers_of_error {earlier : List (List Token)} {cycle : Cycle}
    (hk : r.Remembers k earlier) (hnodup : ((earlier ++ lines).flatMap codeOf).Nodup)
    (h : (r.settle k lines).result = .error cycle) :
    ∃ above line below t code, lines = above ++ line :: below ∧ codeOf line = t :: code ∧
      r.Remembers (r.settle k lines).known (earlier ++ above) ∧
      r.resolve (r.settle k lines).known t = .error cycle := by
  induction lines generalizing earlier k with
  | nil => cases h
  | cons line rest ih =>
    have hsplit : earlier ++ line :: rest = (earlier ++ [line]) ++ rest := by simp
    rw [hsplit] at hnodup
    cases hcode : codeOf line with
    | nil =>
      rw [settle_cons_of_nil hcode] at h ⊢
      obtain ⟨above, line', below, t, code, rfl, hcode', hremembers, hresolve⟩ :=
        ih (hk.append_of_nil hcode) hnodup h
      exact ⟨line :: above, line', below, t, code, rfl, hcode',
        by simpa using hremembers, hresolve⟩
    | cons t code =>
      obtain ⟨leader, tail, rfl⟩ := exists_cons_of_codeOf hcode
      cases hresolve : r.resolve k t with
      | error cycle' =>
        rw [settle_cons_of_error hcode hresolve] at h ⊢
        obtain rfl := Except.error.inj h
        exact ⟨[], leader :: tail, rest, t, code, rfl, hcode, by simpa using hk, hresolve⟩
      | ok level =>
        obtain ⟨level', heq, hlevel⟩ := hk.addsUp_of_resolveFrom hresolve
        obtain rfl : level = level' := by omega
        have hnoted := hk.noteAll hcode hlevel (standsOn_eq_false_of_nodup hnodup)
        have hrest := result_settle_of_cons hcode hresolve h
        rw [hcode] at hnoted
        obtain ⟨above, line', below, t', code', rfl, hcode', hremembers, hresolve'⟩ :=
          ih hnoted hnodup hrest
        rw [known_settle_cons_of_ok hcode hresolve]
        exact ⟨(leader :: tail) :: above, line', below, t', code', rfl, hcode',
          by simpa using hremembers, hresolve'⟩

end Registry

namespace Resolver

/-- A question to a resolver: for the level of a token, or for the levels or the widths of the
lines. -/
inductive Call where
  | level (t : Token)
  | lineLevels
  | lineWidths

/-- What a resolver answers. -/
inductive Answer where
  | level (outcome : Except Cycle Int)
  | lines (outcome : Except Cycle LineLevels)

/-- The question is for the lines. -/
def Call.isForLines : Call → Bool
  | .level _ => false
  | .lineLevels | .lineWidths => true

/-- Answer a question. -/
def answer (v : Resolver) (s : Source) (r : Registry) : Call → Answer × Resolver
  | .level t => (.level (v.resolve r t), v)
  | .lineLevels => (.lines (v.lineLevels s r).1, (v.lineLevels s r).2)
  | .lineWidths => (.lines (v.lineWidths s r).1, (v.lineWidths s r).2)

/-- Answer questions one after the other. -/
def run (v : Resolver) (s : Source) (r : Registry) : List Call → List Answer × Resolver
  | [] => ([], v)
  | call :: rest =>
    let (answer, next) := v.answer s r call
    let (answers, last) := next.run s r rest
    (answer :: answers, last)

variable {v : Resolver} {s : Source} {r : Registry} {calls : List Call}

/-- Asking for the lines once more brings the same answer, and changes nothing. -/
theorem lineLevels_lineLevels (v : Resolver) (s : Source) (r : Registry) :
    (v.lineLevels s r).2.lineLevels s r = v.lineLevels s r := by
  cases hsettled : v.settled with
  | some levels => simp only [lineLevels, hsettled]
  | none =>
    have hfirst : v.lineLevels s r = ((r.settle v.known s.lines).result,
        { v with known := (r.settle v.known s.lines).known,
                 settled := (r.settle v.known s.lines).result.toOption }) := by
      rw [lineLevels, hsettled]
    rw [hfirst]
    cases hresult : (r.settle v.known s.lines).result with
    | ok levels => rfl
    | error cycle =>
      rw [lineLevels]
      simp [Except.toOption, Registry.settle_settle, hresult]

/-! ## sequences of questions -/

/-- The resolver that a question leaves. -/
theorem answer_snd (v : Resolver) (s : Source) (r : Registry) (call : Call) :
    (v.answer s r call).2 = if call.isForLines then (v.lineLevels s r).2 else v := by
  cases call <;> rfl

/-- Questions leave the resolver that the first question for the lines has left, if there is
one among them. -/
theorem run_snd (v : Resolver) (s : Source) (r : Registry) (calls : List Call) :
    (v.run s r calls).2 = if calls.any Call.isForLines then (v.lineLevels s r).2 else v := by
  induction calls generalizing v with
  | nil => rfl
  | cons call rest ih =>
    have hrest : (v.run s r (call :: rest)).2 = ((v.answer s r call).2.run s r rest).2 := rfl
    rw [hrest, ih, answer_snd, List.any_cons]
    cases call.isForLines with
    | true => simp [lineLevels_lineLevels]
    | false => simp

/-- Each question is answered by the resolver that the earlier ones have left. -/
theorem getElem?_run (v : Resolver) (s : Source) (r : Registry) (calls : List Call) (i : Nat) :
    (v.run s r calls).1[i]? =
      calls[i]?.map fun call => ((v.run s r (calls.take i)).2.answer s r call).1 := by
  induction calls generalizing v i with
  | nil => rfl
  | cons call rest ih =>
    cases i with
    | zero => rfl
    | succ i => exact ih (v.answer s r call).2 i

/-- However a resolver has been asked before, it answers for the lines as it did at first. -/
theorem lineLevels_run (v : Resolver) (s : Source) (r : Registry) (calls : List Call) :
    (v.run s r calls).2.lineLevels s r = v.lineLevels s r := by
  rw [run_snd]
  split
  · exact lineLevels_lineLevels v s r
  · rfl

theorem lineWidths_run (v : Resolver) (s : Source) (r : Registry) (calls : List Call) :
    (v.run s r calls).2.lineWidths s r = v.lineWidths s r := by
  rw [lineWidths, lineLevels_run, lineWidths]

/-- Questions for levels of tokens among the others leave no trace in the resolver. -/
theorem run_filter_snd (v : Resolver) (s : Source) (r : Registry) (calls : List Call) :
    (v.run s r (calls.filter Call.isForLines)).2 = (v.run s r calls).2 := by
  rw [run_snd, run_snd]
  simp [List.any_filter]

/-- Asking for the lines in vain leaves the levels of the lines above the cycle. -/
theorem remembers_of_lineLevels {width : Int} {cycle : Cycle}
    (h : (({ width } : Resolver).lineLevels s r).1 = .error cycle) :
    (({ width } : Resolver).lineLevels s r).2.settled = none ∧
    ∃ above line below t code, s.lines = above ++ line :: below ∧
      Registry.codeOf line = t :: code ∧
      r.Remembers (({ width } : Resolver).lineLevels s r).2.known above ∧
      (({ width } : Resolver).lineLevels s r).2.resolve r t = .error cycle := by
  have hresult : (r.settle [] s.lines).result = .error cycle := h
  refine ⟨?_, ?_⟩
  · change (r.settle [] s.lines).result.toOption = none
    rw [hresult]
    rfl
  · obtain ⟨above, line, below, t, code, hlines, hcode, hremembers, hresolve⟩ :=
      Registry.remembers_of_error Registry.remembers_nil s.nodup_lines hresult
    exact ⟨above, line, below, t, code, hlines, hcode, hremembers, hresolve⟩

/-- A resolver, asked again and again for the level of a token, for the levels of the lines or
for their widths, in any order.  Neither a source nor a registry is among what a question
leaves: the same ones go into each.

Every question for the lines brings what the first one would bring of a new resolver, the
levels or the cycle.  The level of a token is found as by a new resolver until the lines have
been asked for, and from then on as after the first of these questions.

If there is a cycle, the resolver keeps the levels of the lines above it and nothing else; it
is these that the next questions find, and the same cycle. -/
theorem run_answers (s : Source) (r : Registry) (width : Int) (calls : List Call) :
    let fresh : Resolver := { width }
    let asked := (fresh.lineLevels s r).2
    let answers := (fresh.run s r calls).1
    let last := (fresh.run s r calls).2
    (∀ i : Nat, calls[i]? = some Call.lineLevels →
      answers[i]? = some (Answer.lines (fresh.lineLevels s r).1)) ∧
    (∀ i : Nat, calls[i]? = some Call.lineWidths →
      answers[i]? = some (Answer.lines (fresh.lineWidths s r).1)) ∧
    (∀ (i : Nat) (t : Token), calls[i]? = some (Call.level t) →
      answers[i]? = some (Answer.level
        (if (calls.take i).any Call.isForLines then asked.resolve r t else fresh.resolve r t))) ∧
    last = (if calls.any Call.isForLines then asked else fresh) ∧
    last = (fresh.run s r (calls.filter Call.isForLines)).2 ∧
    ∀ cycle, (fresh.lineLevels s r).1 = .error cycle →
      asked.settled = none ∧
      ∃ above line below t code, s.lines = above ++ line :: below ∧
        Registry.codeOf line = t :: code ∧ r.Remembers asked.known above ∧
        asked.resolve r t = .error cycle := by
  intro fresh asked answers last
  refine ⟨fun i hi => ?_, fun i hi => ?_, fun i t hi => ?_, run_snd fresh s r calls,
    (run_filter_snd fresh s r calls).symm, fun cycle => remembers_of_lineLevels⟩
  · have hanswer :
        answers[i]? = some (.lines ((fresh.run s r (calls.take i)).2.lineLevels s r).1) := by
      rw [getElem?_run, hi]
      rfl
    rw [hanswer, lineLevels_run]
  · have hanswer :
        answers[i]? = some (.lines ((fresh.run s r (calls.take i)).2.lineWidths s r).1) := by
      rw [getElem?_run, hi]
      rfl
    rw [hanswer, lineWidths_run]
  · have hanswer : answers[i]? = some (.level ((fresh.run s r (calls.take i)).2.resolve r t)) := by
      rw [getElem?_run, hi]
      rfl
    rw [hanswer, run_snd, apply_ite fun v : Resolver => v.resolve r t]

/-- Two statements, each on a line of its own. -/
def twoStatements : Source :=
  .ofTree "a\nb".toUTF8.data
    ⟨"program", true, false, false, [], 0, 3,
      [⟨"identifier", true, false, false, [], 0, 1, []⟩,
        ⟨"identifier", true, false, false, [], 2, 3, []⟩]⟩
    none []

/-- The second one is measured from itself. -/
def looping : Registry where
  records := (twoStatements.tokens.toList.drop 1).map fun t => ⟨t, some t, 1⟩

/-- The cycle on the second line. -/
def secondCycle : Cycle :=
  ⟨{ start := 2, stop := 3, kind := .identifier, value := "b", line := 2, column := 0, endLine := 2,
     index := some 1 }⟩

-- the first question breaks off below the first line, and so does the next one
example : (({ width := 2 } : Resolver).run twoStatements looping [.lineLevels, .lineWidths]).1 =
    [.lines (.error secondCycle), .lines (.error secondCycle)] := by
  cbv

example : (({ width := 2 } : Resolver).run twoStatements looping [.lineLevels]).2.known.map
    (fun p => (p.1.value, p.2)) = [("a", 0)] := by
  cbv

end Resolver

end ScriptIndent
