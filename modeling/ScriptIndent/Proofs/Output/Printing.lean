import Mathlib.Logic.Basic
import ScriptIndent.Output.Encoding

/-!
# ScriptIndent.Proofs.Output.Printing

What reaches a stream that cannot take every character.

```
ascii     a → é · b
plain     a -> é . b      symbols get their plain spellings, one symbol after the other
forced    a -> ? . b      what is left that the stream cannot take becomes a question mark
```

The replacements do not feed on each other, since no plain spelling holds a symbol
(`Encoding.plain_eq`), and the way through bytes and back only changes what the stream cannot take
(`Encoding.forced_eq`).  So whatever attempt succeeds, the text is replaced character by character,
and nothing of the attempts before it is left on the stream (`print_eq`).
-/

namespace ScriptIndent

namespace Encoding

/-! ## plain spellings -/

/-- What stands for a character after a table of spellings: itself, unless it is in the table. -/
def respell (table : List (Char × List Char)) (c : Char) : List Char :=
  (table.lookup c).getD [c]

/-- What holds none of the symbols of a table stays as it is. -/
theorem flatMap_respell_eq_self {table : List (Char × List Char)} {s : List Char}
    (h : ∀ c ∈ s, table.lookup c = none) : s.flatMap (respell table) = s := by
  induction s with
  | nil => rfl
  | cons c s ih =>
    rw [List.forall_mem_cons] at h
    rw [List.flatMap_cons, respell, h.1, ih h.2]
    rfl

/-- Symbols that are replaced one after the other are replaced at once, if no spelling holds a
symbol that comes later. -/
theorem foldl_replaceSymbol {table : List (Char × List Char)}
    (h : table.Pairwise fun entry later => ∀ c ∈ entry.2, c ≠ later.1) (s : List Char) :
    table.foldl replaceSymbol s = s.flatMap (respell table) := by
  induction table generalizing s with
  | nil => exact (flatMap_respell_eq_self fun _ _ => rfl).symm
  | cons entry table ih =>
    obtain ⟨hentry, htable⟩ := List.pairwise_cons.1 h
    rw [List.foldl_cons, ih htable, replaceSymbol, List.flatMap_assoc]
    congr 1
    funext c
    rw [respell, List.lookup_cons]
    cases hc : c == entry.1 with
    | true =>
      refine flatMap_respell_eq_self fun d hd => List.lookup_eq_none_iff.2 fun later hlater => ?_
      exact bne_iff_ne.2 (hentry later hlater d hd)
    | false => exact List.append_nil _

theorem plain_eq (s : List Char) : plain s = s.flatMap (respell plainSpellings) :=
  foldl_replaceSymbol (by simp [plainSpellings]) s

/-! ## bytes -/

variable {e : Encoding}

/-- Where not every character can be taken, those that can be have one byte each. -/
theorem toNat_lt_of_takes (he : e ≠ .utf8) {c : Char} (h : e.takes c = true) : c.toNat < 256 := by
  cases e with
  | ascii => exact Nat.lt_trans (of_decide_eq_true h) (by decide)
  | latin1 => exact of_decide_eq_true h
  | utf8 => exact absurd rfl he

private theorem decode_bytes (he : e ≠ .utf8) {c : Char} (h : e.takes c = true) :
    e.decode (e.bytes c) = [c] := by
  have hbyte : (UInt8.ofNat c.toNat).toNat = c.toNat :=
    Nat.mod_eq_of_lt (toNat_lt_of_takes he h)
  cases e with
  | ascii | latin1 =>
    rw [bytes, decode, List.map_singleton, hbyte, Char.ofNat_toNat]
    all_goals exact he
  | utf8 => exact absurd rfl he

/-- Bytes are read one after the other. -/
theorem decode_append (he : e ≠ .utf8) (first rest : List UInt8) :
    e.decode (first ++ rest) = e.decode first ++ e.decode rest := by
  cases e with
  | ascii | latin1 =>
    exact List.map_append
  | utf8 => exact absurd rfl he

private theorem forced_eq (he : e ≠ .utf8) (s : List Char) :
    e.forced s = s.map fun c => if e.takes c then c else '?' := by
  induction s with
  | nil => cases e <;> rfl
  | cons c s ih =>
    rw [forced, encode, List.flatMap_cons, decode_append he, List.map_cons]
    refine congrArg₂ (· ++ ·) (?_ : _ = [_]) ih
    split
    · next h => exact decode_bytes he h
    · cases e with
      | ascii | latin1 => rfl
      | utf8 => exact absurd rfl he

/-! ## what is printed -/

/-- What stands for a character where a text cannot be printed as it is. -/
def substitute (e : Encoding) (c : Char) : List Char :=
  match plainSpellings.lookup c with
  | some spelling => spelling
  | none => if e.takes c then [c] else ['?']

/-- Every stream can take the plain spellings. -/
theorem takesAll_plainSpelling (e : Encoding) {entry : Char × List Char}
    (h : entry ∈ plainSpellings) : e.takesAll entry.2 = true := by
  cases e <;> revert entry <;> decide

theorem takesAll_of_lookup_eq_some {c : Char} {spelling : List Char}
    (h : plainSpellings.lookup c = some spelling) : e.takesAll spelling = true := by
  obtain ⟨above, below, hsplit, -⟩ := List.lookup_eq_some_iff.1 h
  exact @takesAll_plainSpelling e (c, spelling) (by simp [hsplit])

theorem takesAll_append (s t : List Char) :
    e.takesAll (s ++ t) = (e.takesAll s && e.takesAll t) := List.all_append

theorem takesAll_flatMap_substitute (e : Encoding) (s : List Char) :
    e.takesAll (s.flatMap e.substitute) = true := by
  induction s with
  | nil => rfl
  | cons c s ih =>
    rw [List.flatMap_cons, takesAll_append, ih, Bool.and_true, substitute]
    split
    · next spelling h => exact takesAll_of_lookup_eq_some h
    · split
      · next h => simpa [takesAll] using h
      · cases e <;> rfl

/-- If plain spellings are enough, then no question mark is needed. -/
theorem flatMap_substitute_of_takesAll_plain {s : List Char} (h : e.takesAll (plain s) = true) :
    s.flatMap e.substitute = plain s := by
  rw [plain_eq] at h ⊢
  induction s with
  | nil => rfl
  | cons c s ih =>
    rw [List.flatMap_cons, takesAll_append, Bool.and_eq_true] at h
    rw [List.flatMap_cons, List.flatMap_cons, ih h.2, substitute]
    cases hc : plainSpellings.lookup c with
    | some spelling => rw [respell, hc, Option.getD_some]
    | none =>
      have htakes : e.takes c = true := by simpa [respell, hc, takesAll] using h.1
      rw [respell, hc, Option.getD_none]
      exact congrArg (· ++ _) (if_pos htakes)

/-- Plain spellings and then question marks are substitutes. -/
theorem forced_plain (he : e ≠ .utf8) (s : List Char) :
    e.forced (plain s) = s.flatMap e.substitute := by
  rw [forced_eq he, plain_eq, List.map_flatMap]
  congr 1
  funext c
  rw [respell, substitute]
  cases hc : plainSpellings.lookup c with
  | some spelling =>
    have hkept : ∀ d ∈ spelling, (if e.takes d then d else '?') = d := fun d hd =>
      if_pos (List.all_eq_true.1 (takesAll_of_lookup_eq_some hc) d hd)
    calc spelling.map (fun d => if e.takes d then d else '?') = spelling.map id :=
          List.map_congr_left hkept
      _ = spelling := List.map_id _
  | none => exact (apply_ite (fun d => [d]) _ _ _)

end Encoding

open Encoding

variable {e : Encoding} {text stop : List Char}

/-- Where an end can be printed, an attempt prints all or nothing. -/
theorem Printed.attempt_eq (h : e.takesAll stop = true) (text : List Char) :
    Printed.attempt e [] text stop =
      if e.takesAll text then ⟨text ++ stop, false⟩ else ⟨[], true⟩ := by
  rw [attempt, if_pos h, List.nil_append]

/-- A failed attempt leaves nothing behind, so the next one is like a first one. -/
theorem Printed.orElse_failed (h : e.takesAll stop = true) (text : List Char) :
    Printed.orElse ⟨[], true⟩ e text stop =
      if e.takesAll text then ⟨text ++ stop, false⟩ else ⟨[], true⟩ :=
  Printed.attempt_eq h text

/-- A text is printed as it is if a stream can take it.  Otherwise each symbol has its plain
spelling in its place, and each other character that the stream cannot take a question mark.  The
end follows in both cases, and nothing else reaches the stream. -/
theorem print_eq (e : Encoding) (text stop : List Char) (h : e.takesAll stop = true) :
    let printed := if e.takesAll text then text else text.flatMap e.substitute
    print e text stop = ⟨printed ++ stop, false⟩ ∧ e.takesAll (printed ++ stop) = true := by
  have htakes : e.takesAll (if e.takesAll text then text else text.flatMap e.substitute) = true := by
    split
    · assumption
    · exact e.takesAll_flatMap_substitute text
  refine ⟨?_, by rw [takesAll_append, htakes, h]; rfl⟩
  rw [print, Printed.attempt_eq h]
  by_cases htext : e.takesAll text = true
  · rw [if_pos htext, if_pos htext]
    rfl
  have he : e ≠ .utf8 := by
    rintro rfl
    exact htext (List.all_eq_true.2 fun _ _ => rfl)
  rw [if_neg htext, if_neg htext, Printed.orElse_failed h]
  by_cases hplain : e.takesAll (plain text) = true
  · rw [if_pos hplain, flatMap_substitute_of_takesAll_plain hplain]
    rfl
  · rw [if_neg hplain, Printed.orElse_failed h, forced_plain he,
      if_pos (e.takesAll_flatMap_substitute text)]

/-- A symbol, a letter that no spelling is listed for, and a symbol that the encoding has a
character for, all before a line feed. -/
theorem print_eq_latin1 :
    Encoding.latin1.takesAll ['\n'] = true ∧
      print .latin1 ['→', 'Ω', 'é', '·'] ['\n'] =
        ⟨['-', '>', '?', 'é', '.', '\n'], false⟩ :=
  ⟨by decide, (print_eq .latin1 ['→', 'Ω', 'é', '·'] ['\n'] (by decide)).1.trans (by decide)⟩

end ScriptIndent
