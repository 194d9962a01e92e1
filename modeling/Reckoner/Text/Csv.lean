/-! Tables as text, with a comma between fields and a line feed after each record. A field that
holds a comma, a quotation mark or a line feed is quoted, with its quotation marks doubled. A
missing field and an empty one look the same. -/
namespace Reckoner.Text.Csv

def needsQuotes (cs : List Char) : Bool := cs.any fun c => c == ',' || c == '"' || c == '\n'

def doubled (cs : List Char) : List Char := cs.flatMap fun c => if c == '"' then ['"', '"'] else [c]

def field (f : Option String) : List Char :=
  let cs := (f.getD "").toList
  if needsQuotes cs then '"' :: doubled cs ++ ['"'] else cs

def record (fields : List (Option String)) : List Char :=
  [','].intercalate (fields.map field) ++ ['\n']

def table (records : List (List (Option String))) : String :=
  String.ofList (records.flatMap record)

end Reckoner.Text.Csv
