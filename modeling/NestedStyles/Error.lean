import NestedStyles.Document.Edit

/-!
# Errors

Why a stylesheet cannot be compiled.
-/

namespace NestedStyles

/-- Why the text of a source is not a stylesheet. -/
structure ParseError where
  uri : String
  reason : String
  deriving DecidableEq, Repr

def ParseError.message (error : ParseError) : String := "Parse error in '" ++ error.uri ++ "': " ++ error.reason

inductive CompileError where
  | parse (error : ParseError)
  | notFound (identifier : String)
  | importNotFound (href identifier : String)
  | circularImport (uri : String)
  | importDepth (href : String) (limit : Nat)
  | unknownMixin (name : String)
  | expansionLimit (limit : Nat)
  | edit (error : EditError)
  /-- A pass went on for longer than there are nodes. This does not happen to well-formed documents. -/
  | unfinished
  deriving DecidableEq, Repr

namespace CompileError

def message : CompileError → String
  | parse error => error.message
  | notFound identifier => "Stylesheet not found: " ++ identifier
  | importNotFound href identifier => "Import of '" ++ href ++ "' failed: no resolver matched '" ++ identifier ++ "'"
  | circularImport uri => "Circular import detected: " ++ uri
  | importDepth href limit =>
    "Maximum import depth (" ++ toString limit ++ ") exceeded while importing '" ++ href ++ "'"
  | unknownMixin name => "Unknown mixin: " ++ name
  | expansionLimit limit => "Mixin expansion limit (" ++ toString limit ++ ") exceeded"
  | edit error => "Internal tree error: " ++ error.message
  | unfinished => "Internal tree error: the links of the tree do not end"

/-- Whether the error is about the compiler itself and not about the stylesheet. -/
def isInternal : CompileError → Bool
  | edit _ | unfinished => true
  | _ => false

end CompileError

end NestedStyles
