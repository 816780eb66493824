import ScriptIndent.Command.Usage
import ScriptIndent.Text.Digit

/-!
# ScriptIndent.Command.Grammar

Reading arguments by a grammar of options and positional arguments.

An argument that starts with a dash is an option, or a word if nothing is
behind the dash, if it looks like a negative number or if there is a space in
it.  The name of a long option may be cut short as long as it stays unique.
Behind an option a text can be attached, with an equals sign if the name is
whole or long: the value of an option that takes one, and behind a flag of one
letter more options of one letter.  Behind a double dash there are words only.

Positional arguments take words in turn, as many as each can, whenever an
option follows or the arguments end.  What nothing takes is left over.
-/

namespace ScriptIndent.Command

/-! ## grammars -/

/-- What an option does to what has been read so far. -/
inductive OptionAction (σ : Type) where
  | flag (act : σ → Except Stop σ)
  /-- The option takes a value.  A double dash in its place gives it none. -/
  | valued (act : Option String → σ → Except Stop σ)

structure OptionRule (σ : Type) where
  names : List String
  action : OptionAction σ

/-- All names of an option. -/
def OptionRule.label {σ : Type} (r : OptionRule σ) : String := "/".intercalate r.names

/-- How many words a positional argument takes. -/
inductive Arity where
  | one
  | optional
  /-- At least one. -/
  | many
  /-- One, and all that follows, options included. -/
  | rest
  deriving DecidableEq, Repr

structure PositionalRule (σ : Type) where
  name : String
  arity : Arity
  required : Bool
  take : List String → σ → Except Stop σ

/-- The options and the positional arguments of a command. -/
structure Grammar (σ : Type) where
  options : List (OptionRule σ)
  positionals : List (PositionalRule σ)

/-! ## classes of arguments -/

/-- An option as it is used. -/
structure OptionUse (σ : Type) where
  rule : OptionRule σ
  name : String
  /-- The text that is attached to the name. -/
  attached : Option (List Char)

/-- The name is one letter behind one dash. -/
def OptionUse.isLetter {σ : Type} (u : OptionUse σ) : Bool := u.name.toList[1]? != some '-'

/-- What an argument is. -/
inductive Mark (σ : Type) where
  | word
  /-- The double dash. -/
  | divider
  | option (use : OptionUse σ)
  /-- An option that the grammar does not have. -/
  | unknown

namespace Mark

variable {σ : Type}

def isWord : Mark σ → Bool
  | .word => true
  | _ => false

def isDivider : Mark σ → Bool
  | .divider => true
  | _ => false

/-- An option, known or not. -/
def isOption : Mark σ → Bool
  | .option _ | .unknown => true
  | _ => false

end Mark

/-- An argument and what it is. -/
abbrev Argument (σ : Type) := String × Mark σ

namespace Grammar

variable {σ : Type}

/-- The names of options, each with its rule. -/
def names (g : Grammar σ) : List (String × OptionRule σ) :=
  g.options.flatMap fun r => r.names.map (·, r)

/-- The rule of a name. -/
def rule? (g : Grammar σ) (name : String) : Option (OptionRule σ) := g.names.lookup name

/-- Digits that look like a number, with a point or without one. -/
def isDigits (s : List Char) : Bool :=
  let whole := s.takeWhile fun c => (Text.digitValue? c).isSome
  let atEnd (s : List Char) := s.isEmpty || s == ['\n']
  match s.drop whole.length with
  | '.' :: fraction =>
    let places := fraction.takeWhile fun c => (Text.digitValue? c).isSome
    !places.isEmpty && atEnd (fraction.drop places.length)
  | rest => !whole.isEmpty && atEnd rest

/-- The uses of options that an argument can stand for, if it is no full
name. -/
def candidates (g : Grammar σ) (arg : List Char) : List (OptionUse σ) :=
  match arg with
  | '-' :: '-' :: _ =>
    let start := arg.takeWhile (· != '=')
    let attached := match arg.drop start.length with
      | _ :: text => some text
      | [] => none
    g.names.filterMap fun (name, rule) =>
      if start.isPrefixOf name.toList then some ⟨rule, name, attached⟩ else none
  | _ =>
    g.names.filterMap fun (name, rule) =>
      if name.toList = arg.take 2 then some ⟨rule, name, some (arg.drop 2)⟩
      else if arg.isPrefixOf name.toList then some ⟨rule, name, none⟩
      else none

/-- The name and the text on the sides of an equals sign, if the name is that
of an option. -/
def assigned? (g : Grammar σ) (arg : List Char) : Option (OptionUse σ) :=
  let name := String.ofList (arg.takeWhile (· != '='))
  match arg.dropWhile (· != '=') with
  | _ :: text => (g.rule? name).map fun rule => ⟨rule, name, some text⟩
  | [] => none

/-- An argument that looks like an option, but has no known name. -/
def unnamed (arg : List Char) : Mark σ :=
  if isDigits (arg.drop 1) || arg.contains ' ' then .word else .unknown

/-- What an argument is, other than a double dash. -/
def classify (g : Grammar σ) (arg : String) : Except Stop (Mark σ) :=
  let cs := arg.toList
  if cs.head? != some '-' then .ok .word
  else
    match g.rule? arg with
    | some rule => .ok (.option ⟨rule, arg, none⟩)
    | none =>
      if cs.length = 1 then .ok .word
      else
        match g.assigned? cs with
        | some use => .ok (.option use)
        | none =>
          match g.candidates cs with
          | [] => .ok (unnamed cs)
          | [use] => .ok (.option use)
          | uses => .error (.error (.ambiguous arg (uses.map (·.name))))

/-- What all arguments are. -/
def mark (g : Grammar σ) : List String → Except Stop (List (Argument σ))
  | [] => .ok []
  | arg :: rest =>
    if arg = "--" then .ok ((arg, .divider) :: rest.map (·, .word))
    else do
      let m ← g.classify arg
      let ms ← g.mark rest
      return (arg, m) :: ms

end Grammar

/-! ## positional arguments -/

namespace Arity

variable {σ : Type}

/-- The number of arguments at the front that pass a test. -/
def countWhile (test : Mark σ → Bool) (args : List (Argument σ)) : Nat :=
  (args.takeWhile (test ·.2)).length

/-- The number of arguments that a positional argument takes, double dashes
included. -/
def take? (a : Arity) (args : List (Argument σ)) : Option Nat :=
  let before := countWhile Mark.isDivider args
  let words := args.drop before
  let hasWord := words.head?.any (·.2.isWord)
  match a with
  | .one =>
    if hasWord then some (before + 1 + countWhile Mark.isDivider (words.drop 1)) else none
  | .optional =>
    let word := if hasWord then 1 else 0
    some (before + word + countWhile Mark.isDivider (words.drop word))
  | .many =>
    if hasWord then some (before + countWhile (!·.isOption) words) else none
  | .rest => if hasWord then some args.length else none

end Arity

/-- What has been read. -/
structure Reading (σ : Type) where
  state : σ
  /-- The positional arguments that have taken nothing yet. -/
  pending : List (PositionalRule σ)
  /-- What nothing takes. -/
  leftOver : List String := []

namespace Reading

variable {σ : Type}

/-- The texts that a positional argument is given.  The first double dash is
left out, unless all that follows is given. -/
def given (a : Arity) (args : List (Argument σ)) : List String :=
  let texts := args.map (·.1)
  if a = .rest then texts else texts.erase "--"

/-- Let positional arguments take words in turn.  The answer holds the number
of arguments taken. -/
def takeWords (state : σ) (args : List (Argument σ)) :
    List (PositionalRule σ) → Except Stop (Nat × σ × List (PositionalRule σ))
  | [] => .ok (0, state, [])
  | rule :: rules =>
    match rule.arity.take? args with
    | none => .ok (0, state, rule :: rules)
    | some n => do
      let state ← rule.take (given rule.arity (args.take n)) state
      let (more, state, pending) ← takeWords state (args.drop n) rules
      return (n + more, state, pending)

/-- Let pending positional arguments take words. -/
def words (r : Reading σ) (args : List (Argument σ)) : Except Stop (Nat × Reading σ) := do
  let (n, state, pending) ← takeWords r.state args r.pending
  return (n, { r with state, pending })

/-! ## options -/

/-- What the use of an option amounts to: the actions to take, and whether the
next argument is taken as a value. -/
structure Effect (σ : Type) where
  actions : List (σ → Except Stop σ)
  takesNext : Bool := false

/-- The value in a text.  A double dash has none. -/
def value? (text : String) : Option String := if text = "--" then none else some text

/-- An option without a text attached. -/
def bare (rule : OptionRule σ) (next : Option (Argument σ)) : Except Stop (Effect σ) :=
  match rule.action with
  | .flag act => .ok { actions := [act] }
  | .valued act =>
    match next.filter (·.2.isWord) with
    | some (text, _) => .ok { actions := [act (value? text)], takesNext := true }
    | none => .error (.error (.expectedValue rule.label))

/-- An option with a text attached.  Behind a flag of one letter, the text
starts with the letter of another option, and what is left of it is attached to
that one. -/
def attached (g : Grammar σ) (next : Option (Argument σ)) (rule : OptionRule σ)
    (isLetter : Bool) (text : List Char) : Except Stop (Effect σ) :=
  let unexpected := .error (.error (.unexpectedValue rule.label (String.ofList text)))
  match rule.action with
  | .valued act => .ok { actions := [act (value? (String.ofList text))] }
  | .flag act =>
    match text with
    | [] => unexpected
    | c :: rest =>
      match if isLetter then g.rule? (String.ofList ['-', c]) else none with
      | none => unexpected
      | some rule => do
        let effect ← if rest.isEmpty then bare rule next else attached g next rule true rest
        return { effect with actions := act :: effect.actions }

/-- What the use of an option amounts to. -/
def effect (g : Grammar σ) (use : OptionUse σ) (next : Option (Argument σ)) :
    Except Stop (Effect σ) :=
  match use.attached with
  | none => bare use.rule next
  | some text => attached g next use.rule use.isLetter text

/-- Take in the use of an option.  The answer holds the number of arguments
taken. -/
def option (r : Reading σ) (g : Grammar σ) (use : OptionUse σ) (next : Option (Argument σ)) :
    Except Stop (Nat × Reading σ) := do
  let e ← effect g use next
  let state ← e.actions.foldlM (fun state act => act state) r.state
  return (if e.takesNext then 2 else 1, { r with state })

/-! ## all arguments -/

/-- Leave arguments over. -/
def leave (r : Reading σ) (args : List (Argument σ)) : Reading σ :=
  { r with leftOver := r.leftOver ++ args.map (·.1) }

/-- Take in the front of some arguments, of which one is an option.  The answer
holds the number of arguments taken. -/
def front (r : Reading σ) (g : Grammar σ) (arg : Argument σ) (rest : List (Argument σ)) :
    Except Stop (Nat × Reading σ) :=
  match arg.2 with
  | .option use => r.option g use rest.head?
  | .unknown => .ok (1, r.leave [arg])
  | _ => do
    let (n, r) ← r.words (arg :: rest)
    if n ≠ 0 then return (n, r)
    else
      let unused := (arg :: rest).takeWhile (!·.2.isOption)
      return (unused.length, r.leave unused)

/-- Take in arguments behind the first `skip` ones, which are taken in
already. -/
def all (g : Grammar σ) (skip : Nat) (r : Reading σ) :
    List (Argument σ) → Except Stop (Reading σ)
  | [] => do
    let (_, r) ← r.words []
    return r
  | arg :: rest =>
    if skip ≠ 0 then all g (skip - 1) r rest
    else if (arg :: rest).any (·.2.isOption) then do
      let (n, r) ← r.front g arg rest
      all g (n - 1) r rest
    else do
      let (n, r) ← r.words (arg :: rest)
      return r.leave ((arg :: rest).drop n)

end Reading

/-- Read arguments.  The answer holds what is left over. -/
def Grammar.read {σ : Type} (g : Grammar σ) (state : σ) (args : List String) :
    Except Stop (σ × List String) := do
  let args ← g.mark args
  let r ← Reading.all g 0 { state, pending := g.positionals } args
  match (r.pending.filter (·.required)).map (·.name) with
  | [] => return (r.state, r.leftOver)
  | names => throw (.error (.missing names))

end ScriptIndent.Command
