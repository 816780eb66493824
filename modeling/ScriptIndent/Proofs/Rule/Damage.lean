import ScriptIndent.Rule.Visit

/-!
# ScriptIndent.Proofs.Rule.Damage

Damage that rules trip over.

Most of what a tree may lack makes a rule miss a token, and the rule says which.  Some rules
ask for more than tokens: they ask a part of their construct where it stands, without looking
whether the part is there, or they count on two tokens at once.  `Source.damages` lists what a
node lacks of that, in the order in which its rule comes to it.

A draft *misses* a list of damages if it goes through only if the list is empty, and stops at no
damage but the first of the list (`Draft.Misses`).  A missing token may stop it before.  Every
visit misses what its node lacks, whatever the source and the tree (`Rule.visit?_misses`).
-/

namespace ScriptIndent

/-- The damages at parts of which something is asked. -/
def absences (asked : List (Aspect × Option Node)) : List Damage :=
  asked.filterMap fun (aspect, p) => if p.isNone then some (.absent aspect) else none

namespace Draft

variable {α β : Type}

/-- The draft goes through only if nothing is missing, and it stops at no damage but the first. -/
def Misses (d : Draft α) (damages : List Damage) : Prop :=
  match d.result with
  | .ok _ => damages = []
  | .error (.damaged x) => damages.head? = some x
  | .error (.tokenNotFound _ _ _) => True

variable {d : Draft α} {f : α → Draft β} {s : Source} {n : Node}
  {asked more : List (Aspect × Option Node)} {ds es : List Damage}

theorem Misses.eq_nil {a : α} (h : d.Misses ds) (ha : d.result = .ok a) : ds = [] := by
  rw [Misses, ha] at h
  exact h

theorem Misses.head?_eq {x : Damage} (h : d.Misses ds) (hx : d.result = .error (.damaged x)) :
    ds.head? = some x := by
  rw [Misses, hx] at h
  exact h

/-! ## sequences -/

theorem misses_pure (a : α) : (pure a : Draft α).Misses [] := rfl

theorem misses_write (entries : List Entry) : (write entries).Misses [] := rfl

theorem misses_fail (x : Damage) (rest : List Damage) :
    (fail (.damaged x) : Draft α).Misses (x :: rest) := rfl

/-- A missing token says nothing about damage. -/
theorem misses_tokenNotFound (description nodeKind : String) (line : Nat) :
    (fail (.tokenNotFound description nodeKind line) : Draft α).Misses ds := trivial

/-- What a draft misses comes before what is missed when it goes on. -/
theorem Misses.append (h : d.Misses ds) (hf : ∀ a, (f a).Misses es) :
    (d >>= f).Misses (ds ++ es) := by
  cases hd : d.result with
  | ok a =>
    rw [h.eq_nil hd, bind_of_ok hd]
    exact hf a
  | error e =>
    rw [bind_of_error hd]
    cases e with
    | damaged x =>
      obtain ⟨rest, rfl⟩ := List.head?_eq_some_iff.1 (h.head?_eq hd)
      exact rfl
    | tokenNotFound => trivial

/-- Go on after a draft that misses nothing. -/
theorem Misses.bind (h : d.Misses []) (hf : ∀ a, (f a).Misses es) : (d >>= f).Misses es :=
  h.append hf

/-- A draft that misses nothing goes on after another. -/
theorem Misses.andThen (h : d.Misses ds) (hf : ∀ a, (f a).Misses []) : (d >>= f).Misses ds := by
  simpa using h.append hf

theorem misses_each {f : α → Draft Unit} (h : ∀ a, (f a).Misses []) (as : List α) :
    (each f as).Misses [] := by
  induction as with
  | nil => exact misses_pure ()
  | cons a rest ih => exact (h a).bind fun _ => ih

/-! ## tokens -/

theorem misses_offsets (tokens : List Token) (levels : Int) (base : Token) :
    (offsets tokens levels base).Misses [] := rfl

theorem misses_offset (token : Token) (levels : Int) (base : Token) :
    (offset token levels base).Misses [] := rfl

theorem misses_elements (items : List Node) (left : Token) (right : Option Token) (levels : Int) :
    (elements s items left right levels).Misses [] := rfl

theorem misses_require (description : String) (t : Option Token) :
    (require s n description t).Misses [] := by
  cases t with
  | none => exact misses_tokenNotFound ..
  | some t => exact misses_pure t

theorem misses_first : (first s n).Misses [] := misses_require _ _

theorem misses_last : (last s n).Misses [] := misses_require _ _

theorem misses_keyword? (value : String) : (keyword? s n value).Misses [] := by
  rw [keyword?]
  split
  · exact misses_pure none
  · exact misses_first.bind fun t => misses_pure (some t)

/-- Go on with the token of a keyword, or else with the first token. -/
theorem misses_word {value : String} {f : Token → Draft β} (hf : ∀ t, (f t).Misses es) :
    (do match ← keyword? s n value with
        | some t => pure t >>= f
        | none => first s n >>= f).Misses es := by
  refine (misses_keyword? value).bind fun word => ?_
  cases word with
  | some t => exact (misses_pure t).bind hf
  | none => exact misses_first.bind hf

/-! ## parts -/

private theorem absences_append :
    absences (asked ++ more) = absences asked ++ absences more := List.filterMap_append

/-- Go on after a draft that asks something of parts. -/
theorem Misses.before (h : d.Misses (absences asked)) (hf : ∀ a, (f a).Misses (absences more)) :
    (d >>= f).Misses (absences (asked ++ more)) :=
  absences_append ▸ h.append hf

/-- Go on with a part, of which something is asked. -/
theorem misses_part {aspect : Aspect} {p : Option Node} {f : Node → Draft β}
    (hf : ∀ m, (f m).Misses (absences more)) :
    (part aspect p >>= f).Misses (absences ((aspect, p) :: more)) := by
  cases p with
  | none => exact misses_fail (.absent aspect) _
  | some m => exact (misses_pure m).bind fun _ => hf _

/-- Go on with the first token of a part. -/
theorem misses_firstOf {p : Option Node} {f : Token → Draft β}
    (hf : ∀ t, (f t).Misses (absences more)) :
    (firstOf s p >>= f).Misses (absences ((.start, p) :: more)) := by
  cases p with
  | none => exact misses_fail (.absent .start) _
  | some m => exact misses_first.bind hf

end Draft

/-! ## what nodes lack -/

namespace Source

variable (s : Source)

/-- What a construct lacks, below other nodes. -/
def damagesOf (ancestors : List Node) (n : Node) : Construct → List Damage
  | .member => absences [(.start, n.field? "property")]
  | .subscript => absences [(.start, n.field? "index"), (.stop, n.field? "object")]
  | .call =>
    match n.field? "arguments" with
    | none => []
    | some arguments =>
      if arguments.kind == "template_string" then absences [(.start, n.field? "function")]
      else absences [(.stop, n.field? "function")]
  | .creation => absences [(.start, n.field? "constructor")]
  | .templateLiteral =>
    (n.children.filter (·.kind == "template_substitution")).filterMap fun substitution =>
      if (s.firstOfNode? substitution).isNone then some (.absent .stop) else none
  | .conditional =>
    match s.firsts n 2 with
    | [_, _] => absences [(.start, n.field? "consequence")]
    | tokens => .tooFewTokens tokens.length :: absences [(.start, n.field? "consequence")]
  | .doLoop => absences [(.stop, n.field? "body"), (.start, n.field? "condition")]
  | .forInLoop =>
    absences ((if (n.field? "operator").isNone then [(.stop, n.field? "left")] else []) ++
      [(.start, n.field? "body")])
  | .switch => absences [(.start, n.field? "value"), (.start, n.field? "body")]
  | .headed | .forLoop | .guarded | .handler | .classDefinition | .staticBlock =>
    absences [(.start, n.field? "body")]
  | .function => absences [(.start, n.field? "parameters"), (.start, n.field? "body")]
  | .arrow =>
    if s.firsts n 2 = [] then .noTokens :: absences [(.start, n.field? "body")]
    else absences [(.start, n.field? "body")]
  | .method =>
    absences [(.kind, n.field? "name"), (.start, n.field? "parameters"),
      (.start, n.field? "body")]
  | .pair => absences [(.kind, n.field? "key")]
  | .fieldDefinition => absences [(.kind, n.field? "property")]
  | .importing => absences [(.start, n.field? "source")]
  | .chain =>
    absences [(.stop, n.field? "left"), (.start, n.field? "right"),
      (.start, (Rule.chainTop s n ancestors).field? "left")]
  | .ternary => absences [(.stop, n.field? "condition"), (.stop, n.field? "consequence")]
  | .declarator =>
    if (n.field? "value").isNone then [] else absences [(.stop, n.field? "name")]
  | .plain | .program | .arrayList | .objectList | .block | .sequence | .declaration | .operand
  | .yielding | .clause | .labeled | .jump | .exit | .metaProperty | .importSpecifier | .aliased
  | .exporting => []

/-- What a node lacks, in the order in which its rule comes to it. -/
def damages (place : Node.Placed) : List Damage :=
  (Construct.ofKind? place.node.kind).elim [] (s.damagesOf place.ancestors place.node)

end Source

namespace Rule

open Draft

variable {s : Source} {n : Node}

/-! ## lists -/

theorem program_misses : (program s n).Misses [] :=
  misses_each (fun _ => misses_first.bind fun _ => misses_write _) _

theorem arrayList_misses : (arrayList s n).Misses [] :=
  misses_first.bind fun _ => misses_elements ..

theorem objectList_misses : (objectList s n).Misses [] :=
  misses_first.bind fun _ => misses_elements ..

theorem block_misses : (block s n).Misses [] :=
  misses_first.bind fun _ => misses_last.bind fun _ => misses_elements ..

theorem staticBlock_misses : (staticBlock s n).Misses (absences [(.start, n.field? "body")]) :=
  misses_firstOf fun _ => misses_first.bind fun _ => misses_offset ..

theorem sequence_misses : (sequence s n).Misses [] :=
  misses_first.bind fun _ => misses_elements ..

theorem declaration_misses : (declaration s n).Misses [] :=
  misses_first.bind fun _ => misses_elements ..

theorem declarator_misses (ancestors : List Node) :
    (declarator s n).Misses (s.damagesOf ancestors n .declarator) := by
  rw [declarator, Source.damagesOf]
  split
  · exact misses_pure ()
  · refine misses_first.bind fun _ => misses_part fun _ => ?_
    exact (misses_require ..).bind fun _ => misses_offsets ..

/-! ## operators -/

theorem chain_misses (ancestors : List Node) :
    (chain s ancestors n).Misses (s.damagesOf ancestors n .chain) := by
  refine misses_part fun _ => (misses_require ..).bind fun _ => ?_
  exact misses_firstOf fun _ => misses_firstOf fun _ => misses_offsets ..

theorem ternary_misses (ancestors : List Node) :
    (ternary s ancestors n).Misses (s.damagesOf ancestors n .ternary) := by
  refine misses_part fun _ => (misses_require ..).bind fun _ => ?_
  refine misses_part fun _ => (misses_require ..).bind fun _ => ?_
  refine misses_first.bind fun _ => (misses_offsets ..).bind fun _ => ?_
  exact (misses_offsets ..).bind fun _ => misses_offsets ..

theorem operand_misses : (operand s n).Misses [] :=
  misses_first.bind fun _ => misses_offsets ..

theorem yielding_misses : (yielding s n).Misses [] := by
  rw [yielding]
  split
  · exact misses_pure ()
  · split
    · refine (misses_offset ..).bind fun _ => ?_
      split
      · exact misses_offsets ..
      · exact misses_pure ()
    · exact misses_pure ()

/-! ## control flow -/

theorem body_misses (keyword : Token) : (body s n keyword).Misses [] :=
  misses_first.bind fun _ => misses_offset ..

theorem conditional_misses (ancestors : List Node) :
    (conditional s n).Misses (s.damagesOf ancestors n .conditional) := by
  rw [conditional, Source.damagesOf]
  match s.firsts n 2 with
  | [] | [_] | _ :: _ :: _ :: _ => exact misses_fail ..
  | [_, _] =>
    refine misses_part fun _ => (misses_offset ..).bind fun _ => ?_
    refine (misses_offsets ..).bind fun _ => (body_misses _).bind fun _ => ?_
    split
    · exact misses_pure ()
    · refine misses_first.bind fun _ => (misses_offset ..).bind fun _ => ?_
      split
      · exact misses_pure ()
      · exact body_misses _

theorem headed_misses : (headed s n).Misses (absences [(.start, n.field? "body")]) := by
  refine misses_first.bind fun _ => (misses_require ..).bind fun _ => misses_part fun _ => ?_
  refine (misses_require ..).bind fun _ => (misses_offset ..).bind fun _ => ?_
  exact (misses_offset ..).bind fun _ => body_misses _

theorem doLoop_misses (ancestors : List Node) :
    (doLoop s n).Misses (s.damagesOf ancestors n .doLoop) := by
  refine misses_first.bind fun _ => misses_part fun _ => (misses_require ..).bind fun _ => ?_
  refine misses_part fun _ => misses_first.bind fun _ => misses_last.bind fun _ => ?_
  refine (body_misses _).bind fun _ => (misses_offset ..).bind fun _ => ?_
  exact (misses_offset ..).bind fun _ => misses_elements ..

theorem forLoop_misses : (forLoop s n).Misses (absences [(.start, n.field? "body")]) := by
  refine misses_first.bind fun _ => (misses_require ..).bind fun _ => misses_part fun _ => ?_
  refine (misses_require ..).bind fun _ => (misses_offset ..).bind fun _ => ?_
  exact (misses_elements ..).bind fun _ => body_misses _

theorem forInWord_misses : (forInWord s n).Misses
    (absences (if (n.field? "operator").isNone then [(.stop, n.field? "left")] else [])) := by
  rw [forInWord]
  cases n.field? "operator" with
  | some operator => exact misses_first
  | none => exact misses_part fun _ => misses_require ..

theorem forInLoop_misses (ancestors : List Node) :
    (forInLoop s n).Misses (s.damagesOf ancestors n .forInLoop) := by
  refine misses_first.bind fun _ => (misses_keyword? _).bind fun _ => ?_
  refine (misses_require ..).bind fun _ => ?_
  refine forInWord_misses.before fun _ => misses_part fun _ => ?_
  refine (misses_require ..).bind fun _ => (misses_offsets ..).bind fun _ => ?_
  refine (misses_offset ..).bind fun _ => (misses_offsets ..).bind fun _ => ?_
  refine (misses_write _).bind fun _ => (misses_offset ..).bind fun _ => ?_
  exact body_misses _

theorem switch_misses (caseLevels : Int) (ancestors : List Node) :
    (switch s caseLevels n).Misses (s.damagesOf ancestors n .switch) := by
  refine misses_first.bind fun _ => misses_part fun _ => misses_first.bind fun _ => ?_
  refine misses_last.bind fun _ => misses_part fun _ => misses_first.bind fun _ => ?_
  refine misses_last.bind fun _ => (misses_offset ..).bind fun _ => ?_
  refine (misses_elements ..).bind fun _ => (misses_offset ..).bind fun _ => ?_
  exact misses_elements ..

theorem clauseColon_misses (keyword : Token) : (clauseColon s n keyword).Misses [] := by
  rw [clauseColon]
  split
  · refine (misses_require ..).bind fun _ => misses_first.bind fun _ => ?_
    exact (misses_offsets ..).bind fun _ => misses_pure _
  · exact (misses_require ..).bind fun _ => (misses_offset ..).bind fun _ => misses_pure _

theorem clause_misses : (clause s n).Misses [] := by
  refine misses_first.bind fun _ => (clauseColon_misses _).bind fun _ => ?_
  exact misses_each (fun _ => misses_first.bind fun _ => misses_offset ..) _

theorem guarded_misses : (guarded s n).Misses (absences [(.start, n.field? "body")]) := by
  refine misses_first.bind fun keyword => misses_firstOf fun _ => (misses_offset ..).bind fun _ => ?_
  have hfinalizer : (match n.field? "finalizer" with
      | none => pure ()
      | some finalizer => do
        let word ← first s finalizer
        match finalizer.field? "body" with
        | none => offset word 0 keyword
        | some block => do
          let brace ← first s block
          offsets [word, brace] 0 keyword : Draft Unit).Misses [] := by
    cases n.field? "finalizer" with
    | none => exact misses_pure ()
    | some finalizer =>
      refine misses_first.bind fun _ => ?_
      cases finalizer.field? "body" with
      | none => exact misses_offset ..
      | some block => exact misses_first.bind fun _ => misses_offsets ..
  cases n.field? "handler" with
  | none => exact hfinalizer
  | some handler =>
    exact misses_first.bind fun _ => (misses_offset ..).bind fun _ => hfinalizer

theorem handler_misses : (handler s n).Misses (absences [(.start, n.field? "body")]) := by
  have hbody : ∀ keyword, (do offset (← firstOf s (n.field? "body")) 0 keyword : Draft Unit).Misses
      (absences [(.start, n.field? "body")]) := fun _ => misses_firstOf fun _ => misses_offset ..
  refine misses_first.bind fun _ => ?_
  split
  · exact hbody _
  · refine (misses_require ..).bind fun _ => (misses_offset ..).bind fun _ => ?_
    exact (misses_elements ..).bind fun _ => hbody _

theorem labeled_misses : (labeled s n).Misses [] :=
  misses_first.bind fun _ => (misses_require ..).bind fun _ => misses_offsets ..

theorem jump_misses : (jump s n).Misses [] := by
  rw [jump]
  split
  · exact misses_pure ()
  · exact misses_first.bind fun _ => misses_offsets ..

theorem exit_misses : (exit s n).Misses [] := by
  rw [exit]
  split
  · exact misses_pure ()
  · exact misses_first.bind fun _ => misses_offsets ..

/-! ## functions and classes -/

theorem function_misses (ancestors : List Node) :
    (function s n).Misses (s.damagesOf ancestors n .function) := by
  refine misses_first.bind fun _ => misses_part fun _ => misses_first.bind fun _ => ?_
  refine (misses_each (fun _ => misses_offset ..) _).bind fun _ => misses_last.bind fun _ => ?_
  refine (misses_offset ..).bind fun _ => (misses_elements ..).bind fun _ => ?_
  exact misses_firstOf fun _ => misses_offset ..

theorem arrow_misses (ancestors : List Node) :
    (arrow s n).Misses (s.damagesOf ancestors n .arrow) := by
  have hbody : ∀ (statement : Node) (head sign : Token),
      (do offset sign 1 head; body s statement head : Draft Unit).Misses [] :=
    fun _ _ _ => (misses_offset ..).bind fun _ => body_misses _
  rw [arrow, Source.damagesOf]
  cases s.firsts n 2 with
  | nil => exact misses_fail ..
  | cons head more =>
    rw [if_neg (List.cons_ne_nil _ _)]
    refine misses_part fun statement => (misses_require ..).bind fun sign => ?_
    by_cases hasync : n.children.head?.any (·.kind == "async")
    · simp only [hasync, if_true]
      refine (misses_offsets ..).bind fun _ => ?_
      split
      · exact hbody ..
      · exact (misses_elements ..).bind fun _ => hbody ..
    · simp only [hasync, Bool.false_eq_true, if_false]
      split
      · exact hbody ..
      · exact (misses_elements ..).bind fun _ => hbody ..

theorem memberKey_misses (start : Token) (key : Option Node) :
    (memberKey s start key).Misses (absences [(.kind, key)]) := by
  refine misses_part fun _ => ?_
  split
  · refine misses_first.bind fun _ => misses_last.bind fun _ => ?_
    refine (misses_offsets ..).bind fun _ => (misses_offset ..).bind fun _ => ?_
    exact (misses_elements ..).bind fun _ => misses_pure _
  · refine misses_first.bind fun _ => (misses_offsets ..).bind fun _ => ?_
    exact (misses_offset ..).bind fun _ => misses_last

theorem method_misses (ancestors : List Node) :
    (method s n).Misses (s.damagesOf ancestors n .method) := by
  refine misses_first.bind fun _ => ?_
  refine (memberKey_misses ..).before fun _ => ?_
  refine misses_part fun _ => misses_first.bind fun _ => misses_last.bind fun _ => ?_
  refine (misses_offsets ..).bind fun _ => (misses_offset ..).bind fun _ => ?_
  exact (misses_elements ..).bind fun _ => misses_firstOf fun _ => misses_offset ..

theorem memberValue_misses (start : Token) (key value : Option Node) :
    (memberValue s start key value).Misses (absences [(.kind, key)]) := by
  refine (memberKey_misses ..).andThen fun _ => ?_
  split
  · exact misses_pure ()
  · exact misses_first.bind fun _ => misses_offsets ..

theorem pair_misses : (pair s n).Misses (absences [(.kind, n.field? "key")]) :=
  misses_first.bind fun _ => memberValue_misses ..

theorem fieldDefinition_misses :
    (fieldDefinition s n).Misses (absences [(.kind, n.field? "property")]) :=
  misses_first.bind fun _ => memberValue_misses ..

theorem classDefinition_misses :
    (classDefinition s n).Misses (absences [(.start, n.field? "body")]) := by
  refine misses_word fun keyword => ?_
  have hbody : (do offset (← firstOf s (n.field? "body")) 0 keyword : Draft Unit).Misses
      (absences [(.start, n.field? "body")]) := misses_firstOf fun _ => misses_offset ..
  have hheritage : (match n.childOfKind? "class_heritage" with
      | none => do offset (← firstOf s (n.field? "body")) 0 keyword
      | some heritage => do
        let word ← first s heritage
        offset word 1 keyword
        offsets (s.after? word).toList 1 word
        offset (← firstOf s (n.field? "body")) 0 keyword : Draft Unit).Misses
      (absences [(.start, n.field? "body")]) := by
    cases n.childOfKind? "class_heritage" with
    | none => exact hbody
    | some heritage =>
      refine misses_first.bind fun _ => (misses_offset ..).bind fun _ => ?_
      exact (misses_offsets ..).bind fun _ => hbody
  cases n.field? "name" with
  | none => exact hheritage
  | some name => exact misses_first.bind fun _ => (misses_offset ..).bind fun _ => hheritage

/-! ## accesses and calls -/

theorem access_misses : (access s n).Misses (absences [(.start, n.field? "property")]) :=
  misses_first.bind fun _ => misses_part fun _ =>
    (misses_require ..).bind fun _ => misses_offsets ..

theorem subscript_misses (ancestors : List Node) :
    (subscript s n).Misses (s.damagesOf ancestors n .subscript) := by
  refine misses_first.bind fun _ => misses_part fun _ => (misses_require ..).bind fun _ => ?_
  refine misses_part fun _ => (misses_offsets ..).bind fun _ => ?_
  exact (misses_offset ..).bind fun _ => misses_elements ..

theorem metaProperty_misses : (metaProperty s n).Misses [] := by
  rw [metaProperty]
  split
  · exact misses_offsets ..
  · exact misses_pure ()

theorem call_misses (ancestors : List Node) :
    (call s n).Misses (s.damagesOf ancestors n .call) := by
  rw [call, Source.damagesOf]
  cases n.field? "arguments" with
  | none => exact misses_pure ()
  | some arguments =>
    dsimp only
    split
    · exact misses_first.bind fun _ => misses_firstOf fun _ => misses_offset ..
    · refine misses_first.bind fun _ => misses_first.bind fun _ => misses_last.bind fun _ => ?_
      refine misses_part fun _ => (misses_offsets ..).bind fun _ => ?_
      exact (misses_offset ..).bind fun _ => misses_elements ..

theorem creation_misses : (creation s n).Misses (absences [(.start, n.field? "constructor")]) := by
  refine misses_first.bind fun _ => misses_firstOf fun _ => (misses_offset ..).bind fun _ => ?_
  split
  · exact misses_pure ()
  · refine misses_first.bind fun _ => misses_last.bind fun _ => ?_
    exact (misses_offset ..).bind fun _ => misses_elements ..

theorem substitutedFirsts_misses (substitutions : List Node) :
    (substitutedFirsts s substitutions).Misses (substitutions.filterMap fun substitution =>
      if (s.firstOfNode? substitution).isNone then some (.absent .stop) else none) := by
  induction substitutions with
  | nil => exact misses_pure []
  | cons substitution rest ih =>
    rw [substitutedFirsts]
    cases hfirst : s.firstOfNode? substitution with
    | none =>
      rw [List.filterMap_cons_some (b := .absent .stop) (by simp [hfirst])]
      exact misses_fail ..
    | some opening =>
      rw [List.filterMap_cons_none (by simp [hfirst])]
      exact ih.andThen fun _ => misses_pure _

theorem templateLiteral_misses (ancestors : List Node) :
    (templateLiteral s n).Misses (s.damagesOf ancestors n .templateLiteral) :=
  misses_first.bind fun _ => (substitutedFirsts_misses _).andThen fun _ =>
    (misses_offsets ..).bind fun _ => misses_offsets ..

/-! ## modules -/

theorem importPart_misses (p : Node) : (importPart s n p).Misses [] := by
  rw [importPart]
  split
  · exact misses_pure _
  · split
    · dsimp only
      split
      · refine (misses_require ..).bind fun _ => (misses_require ..).bind fun _ => ?_
        exact (misses_elements ..).bind fun _ => misses_pure _
      · exact misses_pure _
    · exact misses_pure _

theorem importParts_misses (parts : List Node) : (importParts s n parts).Misses [] := by
  induction parts with
  | nil => exact misses_pure []
  | cons p rest ih => exact (importPart_misses p).bind fun _ => ih.bind fun _ => misses_pure _

theorem importing_misses : (importing s n).Misses (absences [(.start, n.field? "source")]) := by
  refine misses_first.bind fun _ => misses_part fun _ => misses_first.bind fun _ => ?_
  refine (importParts_misses _).bind fun _ => (misses_offsets ..).bind fun _ => ?_
  split
  · exact misses_pure ()
  · exact (misses_offset ..).bind fun _ => misses_offsets ..

theorem aliased_misses : (aliased s n).Misses [] := by
  rw [aliased]
  split
  · exact misses_pure ()
  · exact misses_offsets ..

theorem importSpecifier_misses : (importSpecifier s n).Misses [] := by
  rw [importSpecifier]
  split
  · exact aliased_misses
  · exact misses_pure ()

theorem exportAll_misses (keyword : Token) (module : Node) :
    (exportAll s n keyword module).Misses [] := by
  rw [exportAll]
  split
  · exact misses_tokenNotFound ..
  · next word after _ =>
    refine misses_first.bind fun token => ?_
    have hmodule : (do offset word 0 keyword; offsets (after ++ [token]) 1 word :
        Draft Unit).Misses [] := (misses_offset ..).bind fun _ => misses_offsets ..
    split
    · exact (misses_offsets ..).bind fun _ => hmodule
    · dsimp only
      split
      · exact (misses_offsets ..).bind fun _ => (misses_offsets ..).bind fun _ => hmodule
      · exact misses_tokenNotFound ..

theorem exportNames_misses (keyword : Token) (clause : Node) (module : Option Node) :
    (exportNames s keyword clause module).Misses [] := by
  refine misses_first.bind fun _ => misses_last.bind fun _ => ?_
  refine (misses_offset ..).bind fun _ => (misses_elements ..).bind fun _ => ?_
  split
  · exact misses_pure ()
  · split
    · exact misses_pure ()
    · exact (misses_offset ..).bind fun _ => misses_first.bind fun _ => misses_offsets ..

theorem exporting_misses : (exporting s n).Misses [] := by
  refine misses_word fun keyword => (misses_keyword? _).bind fun word => ?_
  cases word with
  | some word =>
    cases (n.field? "declaration").or (n.field? "value") with
    | none => exact misses_pure ()
    | some target => exact misses_first.bind fun _ => misses_offsets ..
  | none =>
    cases n.field? "declaration" with
    | some declaration => exact misses_first.bind fun _ => misses_offset ..
    | none =>
      cases n.childOfKind? "export_clause" with
      | some clause => exact exportNames_misses ..
      | none =>
        cases n.field? "source" with
        | some module => exact exportAll_misses ..
        | none => exact misses_pure ()

/-! ## visits -/

theorem ofConstruct_misses (caseLevels : Int) (ancestors : List Node) (construct : Construct) :
    (ofConstruct s caseLevels ancestors n construct).Misses (s.damagesOf ancestors n construct) := by
  cases construct with
  | plain => exact misses_pure ()
  | program => exact program_misses
  | arrayList => exact arrayList_misses
  | objectList => exact objectList_misses
  | block => exact block_misses
  | staticBlock => exact staticBlock_misses
  | sequence => exact sequence_misses
  | declaration => exact declaration_misses
  | declarator => exact declarator_misses ancestors
  | chain => exact chain_misses ancestors
  | ternary => exact ternary_misses ancestors
  | operand => exact operand_misses
  | yielding => exact yielding_misses
  | conditional => exact conditional_misses ancestors
  | headed => exact headed_misses
  | doLoop => exact doLoop_misses ancestors
  | forLoop => exact forLoop_misses
  | forInLoop => exact forInLoop_misses ancestors
  | switch => exact switch_misses caseLevels ancestors
  | clause => exact clause_misses
  | guarded => exact guarded_misses
  | handler => exact handler_misses
  | labeled => exact labeled_misses
  | jump => exact jump_misses
  | exit => exact exit_misses
  | function => exact function_misses ancestors
  | arrow => exact arrow_misses ancestors
  | method => exact method_misses ancestors
  | classDefinition => exact classDefinition_misses
  | fieldDefinition => exact fieldDefinition_misses
  | pair => exact pair_misses
  | member => exact access_misses
  | subscript => exact subscript_misses ancestors
  | metaProperty => exact metaProperty_misses
  | call => exact call_misses ancestors
  | creation => exact creation_misses
  | templateLiteral => exact templateLiteral_misses ancestors
  | importing => exact importing_misses
  | importSpecifier => exact importSpecifier_misses
  | aliased => exact aliased_misses
  | exporting => exact exporting_misses

/-- A visit goes through only if the node lacks nothing, and it stops at no damage but the first. -/
theorem visit?_misses {caseLevels : Int} {place : Node.Placed} {draft : Draft Unit}
    (h : visit? s caseLevels place = some draft) : draft.Misses (s.damages place) := by
  obtain ⟨construct, hconstruct, rfl⟩ := Option.map_eq_some_iff.1 h
  rw [Source.damages, hconstruct]
  exact (ofConstruct_misses ..).andThen fun _ => misses_write _

end Rule

end ScriptIndent
