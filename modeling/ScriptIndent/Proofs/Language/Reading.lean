import ScriptIndent.Source.Reading

/-!
# ScriptIndent.Proofs.Language.Reading

The tree by which a text is read.

A text in a plain language is parsed as a whole.  In a host language the parser of the script is
given the text with everything outside of its blocks blanked, which the tree of the document
locates.  Either way the result depends on the tree of the script alone (`Finds.result_eq`).
-/

namespace ScriptIndent.Reading

variable {parsers : Parsers} {layout : Host.Layout} {language : Language} {bytes script : Bytes}
  {blocks : List ScriptBlock} {root : Node}

/-- The script in a text, and its tree as the parsers give it: the whole text, or, in a host
language, the text with everything outside of its blocks blanked. -/
inductive Finds (parsers : Parsers) (layout : Host.Layout) (language : Language) (bytes : Bytes) :
    Bytes → List ScriptBlock → Node → Prop
  | whole {root : Node} (plain : language.hostGrammar = none)
      (parsed : parsers language.grammar bytes = some root) :
      Finds parsers layout language bytes bytes [] root
  | embedded {grammar : String} {host root : Node} (hosted : language.hostGrammar = some grammar)
      (located : parsers grammar bytes = some host)
      (parsed : parsers language.grammar (Host.scripts bytes host layout).masked = some root) :
      Finds parsers layout language bytes (Host.scripts bytes host layout).masked
        (Host.scripts bytes host layout).blocks root

/-- What is read is what the tree of the script gives. -/
theorem Finds.result_eq (h : Finds parsers layout language bytes script blocks root)
    (path : Option String) :
    (inLanguage parsers layout language bytes path).result = ofTree script root path blocks := by
  cases h with
  | whole plain parsed => simp only [inLanguage, plain, Reading.script, parsed]
  | embedded hosted located parsed =>
    simp only [inLanguage, hosted, located, Reading.script, parsed]

/-- A file with the ending of scripts is parsed as a whole. -/
theorem Finds.of_script {path : String} (hpath : Languages.ending (.ofString path) = ".js")
    (hparsed : parsers "javascript" bytes = some root) :
    Finds parsers layout (Languages.builtin.ofSource ((some path).map .ofString)) bytes bytes []
      root := by
  have howner : Languages.builtin.owners.get? ".js" = some "JavaScript" := by decide +kernel
  have hname : Languages.builtin.byName.get? "JavaScript" = some .javascript := by decide +kernel
  have hlanguage : Languages.builtin.ofSource ((some path).map .ofString) = .javascript := by
    simp [Languages.ofSource, Languages.get?, hpath, howner, hname]
  rw [hlanguage]
  exact .whole rfl hparsed

end ScriptIndent.Reading
