import DocStore.Toml.Text
import DocStore.Word

-- Writes TOML documents: the scalars of a table, then its tables under their headings.
namespace DocStore.Toml

-- A scalar as it stands behind its key. Integers have 64 bits and a sign; fractions and dates are
-- not kept.
def leafText? : Toml → Option String
  | .text s => some (quote s)
  | .int n => if Word.isSigned n then some (toString n) else none
  | .bool b => some (if b then "true" else "false")
  | _ => none

-- The lines of entries that are scalars.
def lines? : List (String × Toml) → Option String
  | [] => some ""
  | (_, .table _) :: rest => lines? rest
  | (key, v) :: rest => do return key ++ " = " ++ (← leafText? v) ++ "\n" ++ (← lines? rest)

-- The tables among the entries, each under its heading.
def sections? : List (String × Toml) → Option String
  | [] => some ""
  | (key, .table entries) :: rest => do
    return "\n[" ++ key ++ "]\n" ++ (← lines? entries) ++ (← sections? rest)
  | _ :: rest => sections? rest

-- The text of a document whose tables hold scalars.
def render? : Toml → Option String
  | .table entries => do return (← lines? entries) ++ (← sections? entries)
  | _ => none

end DocStore.Toml
