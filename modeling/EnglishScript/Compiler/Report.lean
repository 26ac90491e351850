import EnglishScript.Compiler
import EnglishScript.Text.JsonString

namespace EnglishScript.CompileResult

/-- A list of texts, one a line. -/
def listField (items : List Text) : Text :=
  utf8 "[\n" ++ Text.join (utf8 ",\n") (items.map fun t => utf8 "    " ++ Text.jsonString t) ++ utf8 "\n  ]"

/-- The fields with something in them, each with its value as JSON. -/
def fields (r : CompileResult) : List (String × Text) :=
  let text (name : String) (t : Text) : List (String × Text) :=
    if t.isEmpty then [] else [(name, Text.jsonString t)]
  let list (name : String) (ts : List Text) : List (String × Text) :=
    if ts.isEmpty then [] else [(name, listField ts)]
  [("success", utf8 (if r.success then "true" else "false"))] ++ list "tokens" r.tokens ++ list "ast" r.statements
    ++ text "generatedCode" r.code ++ text "error" r.error ++ list "errors" r.errors

/-- The result as JSON text, with a line end. -/
def json (r : CompileResult) : Text :=
  let line (f : String × Text) : Text := utf8 "  \"" ++ utf8 f.1 ++ utf8 "\": " ++ f.2
  utf8 "\x7b\n" ++ Text.join (utf8 ",\n") (r.fields.map line) ++ utf8 "\n\x7d\n"

end EnglishScript.CompileResult
