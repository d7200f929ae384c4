import JsonRules.Settings
import JsonRules.Settings.Statement

/-!
Reading a settings file. It may state the output format under the key `output`, and truth values under
`explain` and `parse_dates`, each at most once; anything else makes it invalid. The format is a text or
a choice, and the table that holds a choice may be written in any way that TOML has for tables.
-/
namespace JsonRules.Settings

inductive Place where
  | document
  | output
  | format
deriving DecidableEq

/-- What the statements up to some point say. `opened` tells that the table `output` has had a header of
its own. -/
structure Draft where
  output : Option OutputFormat
  explain : Option Bool
  parseDates : Option Bool
  place : Place
  opened : Bool
deriving DecidableEq

namespace Draft

def empty : Draft := ⟨none, none, none, .document, false⟩

/-- States the output format. A second format would be a repeated key or a second choice. -/
def choose? (d : Draft) (name : String) : Option Draft := do
  let format ← OutputFormat.named? name
  if d.output.isSome then none else some { d with output := some format }

def setExplain? (d : Draft) (b : Bool) : Option Draft :=
  if d.explain.isSome then none else some { d with explain := some b }

def setParseDates? (d : Draft) (b : Bool) : Option Draft :=
  if d.parseDates.isSome then none else some { d with parseDates := some b }

def entry? (d : Draft) (path : Path) (value : Setting) : Option Draft :=
  match d.place, path, value with
  | .document, ⟨"output", none⟩, .text name => d.choose? name
  | .document, ⟨"output", none⟩, .choice name => d.choose? name
  | .document, ⟨"output", some name⟩, .nothing => d.choose? name
  | .document, ⟨"explain", none⟩, .truth b => d.setExplain? b
  | .document, ⟨"parse_dates", none⟩, .truth b => d.setParseDates? b
  | .output, ⟨name, none⟩, .nothing => d.choose? name
  | _, _, _ => none

/-- A header opens a table that no entry has defined and no header has opened before. The table
`output` may be opened behind the table of its choice. -/
def header? (d : Draft) : Path → Option Draft
  | ⟨"output", none⟩ =>
    if d.opened || (d.place = .document && d.output.isSome) then
      none
    else
      some { d with place := .output, opened := true }
  | ⟨"output", some name⟩ => (d.choose? name).map fun d => { d with place := .format }
  | _ => none

def step? (d : Draft) : Statement → Option Draft
  | .header table => d.header? table
  | .entry path value => d.entry? path value

def config? (d : Draft) : Option Config :=
  if d.opened && d.output.isNone then
    none
  else
    some ⟨d.output, d.explain.getD false, d.parseDates.getD false⟩

end Draft

def withoutMark : List Char → List Char
  | '\ufeff' :: rest => rest
  | cs => cs

end JsonRules.Settings

namespace JsonRules.Config

def parse? (text : String) : Option Config := do
  let cs := Settings.withoutMark text.toList
  let statements ← Settings.statements? (cs.length + 1) cs
  (← statements.foldlM Settings.Draft.step? .empty).config?

end JsonRules.Config
