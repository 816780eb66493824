import ScriptIndent.Source.Query

/-!
# ScriptIndent.Offset.Registry

The registry: for each token, how far it is indented and from where.

An entry places a token a number of levels deeper than the line of a base
token, or, without a base, at an absolute level.  A token has at most one entry
and the entry recorded last stands.  Beside the entries the registry keeps
ranges of the text whose lines are not judged.
-/

namespace ScriptIndent

/-- The declared indentation of a token. -/
structure Entry where
  token : Token
  /-- The token whose line the levels count from; an entry without one starts
  from level 0. -/
  base : Option Token
  levels : Int
  deriving DecidableEq, Repr

namespace Entry

/-- The entry gives an absolute level. -/
def isStart (e : Entry) : Bool := e.base.isNone

/-- Place tokens relative to a base.  No token is placed relative to itself,
and without a base none is placed. -/
def offsets (tokens : List Token) (levels : Int) : Option Token → List Entry
  | none => []
  | some base => (tokens.filter (· ≠ base)).map fun t => ⟨t, some base, levels⟩

/-- Place tokens at an absolute level. -/
def starts (tokens : List Token) (level : Int) : List Entry :=
  tokens.map fun t => ⟨t, none, level⟩

/-- Place the elements of a delimited list: the first token of each some levels
deeper than the opening delimiter, and the closing delimiter level with it. -/
def elements (s : Source) (items : List Anchor) (left right : Option Token) (levels : Int) :
    List Entry :=
  offsets (items.filterMap s.first?) levels left ++ offsets right.toList 0 left

end Entry

/-- The entries recorded for a source and the ranges that are not judged. -/
structure Registry where
  /-- The entries in the order in which their tokens were first recorded. -/
  records : List Entry := []
  /-- The ranges that are not judged, the second offset excluded. -/
  ignored : List (Offset × Offset) := []

namespace Registry

/-- Record an entry in place of the token's earlier one, or at the end. -/
def put (e : Entry) : List Entry → List Entry
  | [] => [e]
  | old :: rest => if old.token = e.token then e :: rest else old :: put e rest

/-- Record an entry. -/
def insert (r : Registry) (e : Entry) : Registry := { r with records := put e r.records }

/-- Record entries one after the other. -/
def record (r : Registry) (es : List Entry) : Registry := es.foldl insert r

/-- Leave the range from one token to another unjudged. -/
def ignore (r : Registry) : Option Token → Option Token → Registry
  | some first, some last => { r with ignored := r.ignored ++ [(first.start, last.stop)] }
  | _, _ => r

/-- The token starts in a range that is not judged. -/
def isIgnored (r : Registry) (t : Token) : Bool :=
  r.ignored.any fun (start, stop) => start ≤ t.start && t.start < stop

/-- The entry of a token. -/
def get? (r : Registry) (t : Token) : Option Entry := r.records.find? (·.token = t)

/-- The token has an entry. -/
def contains (r : Registry) (t : Token) : Bool := (r.get? t).isSome

/-- The number of tokens with an entry. -/
def size (r : Registry) : Nat := r.records.length

/-- The entries in the order of their tokens in the text. -/
def entries (r : Registry) : List Entry :=
  r.records.mergeSort fun a b => a.token.start ≤ b.token.start

/-! ## the view by token -/

theorem find?_put_self (e : Entry) (es : List Entry) :
    (put e es).find? (·.token = e.token) = some e := by
  induction es with
  | nil => simp [put]
  | cons old rest ih => by_cases h : old.token = e.token <;> simp [put, h, ih]

theorem find?_put_of_ne {e : Entry} {t : Token} (h : e.token ≠ t) (es : List Entry) :
    (put e es).find? (·.token = t) = es.find? (·.token = t) := by
  induction es with
  | nil => simp [put, h]
  | cons old rest ih =>
    by_cases ho : old.token = e.token
    · simp [put, ho, h]
    · by_cases ht : old.token = t
      · rw [put, if_neg ho, List.find?_cons_of_pos (by simpa), List.find?_cons_of_pos (by simpa)]
      · rw [put, if_neg ho, List.find?_cons_of_neg (by simpa), List.find?_cons_of_neg (by simpa), ih]

/-- The entry recorded last stands. -/
@[simp] theorem get?_insert_self (r : Registry) (e : Entry) :
    (r.insert e).get? e.token = some e := find?_put_self e r.records

/-- An entry changes nothing for other tokens. -/
theorem get?_insert_of_ne {e : Entry} {t : Token} (h : e.token ≠ t) (r : Registry) :
    (r.insert e).get? t = r.get? t := find?_put_of_ne h r.records

theorem mem_of_get? {r : Registry} {t : Token} {e : Entry} (h : r.get? t = some e) :
    e ∈ r.records ∧ e.token = t :=
  ⟨List.mem_of_find?_eq_some h, by simpa using List.find?_some h⟩

end Registry

end ScriptIndent
