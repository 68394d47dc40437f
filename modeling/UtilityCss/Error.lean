import UtilityCss.Path

/-!
Everything that stops a compilation, by cause. The wording is in `Error.message` alone.
-/
namespace UtilityCss

inductive TextFault where
  | missingOpening
  | closedPrelude (name : String)
  | closedItem (text : String)
  | invalidDeclaration (text : String)
  deriving DecidableEq, Repr

inductive DirectiveFault where
  | nested
  | hasBody
  | unquotedPath
  | selectorAndBody
  | neitherSelectorNorBody
  | invalidPath (params : String)
  | foreignThemeContent (css : String)
  | foreignForwarding
  deriving DecidableEq, Repr

inductive Error where
  | text (fault : TextFault) (line column : Nat)
  | directive (name : String) (fault : DirectiveFault)
  | invalidUtilityName (name : String)
  | emptyUtility (name : String)
  | invalidPrefix (given : String)
  | invalidThemeValue (key value : String)
  | unknownUtility (candidate : String)
  | circularApply (name : String)
  | unresolvedImport (id : String) (base : Path)
  | circularImport (path : Path) (chain : List Path)
  | unresolvedModule (id : String) (base : Path)
  | missingLoader (name : String)
  | unresolvedThemeCall (arguments : String)
  /-- stands for an expansion that does not end; the compiler has no such message -/
  | circularThemeCall (key : String)
  | moduleFailure (message : String)
  | unreadable (path : Path)
  deriving DecidableEq, Repr

def TextFault.message : TextFault → String
  | .missingOpening => "Missing opening \x7b"
  | .closedPrelude name => "Unexpected \x7d in `@" ++ name ++ "` prelude"
  | .closedItem text => "Unexpected \x7d after `" ++ text ++ "`"
  | .invalidDeclaration text => "Invalid declaration: `" ++ text ++ "`"

def DirectiveFault.message : DirectiveFault → String
  | .nested => "cannot be nested."
  | .hasBody => "cannot have a body."
  | .unquotedPath => "paths must be quoted."
  | .selectorAndBody => "cannot have both a selector and a body."
  | .neitherSelectorNorBody => "has no selector or body."
  | .invalidPath params => "has an invalid path: `" ++ params ++ "`"
  | .foreignThemeContent css =>
    "blocks must only contain custom properties or `@keyframes`.\n\n" ++ css
  | .foreignForwarding => "with `theme(…)` must only import stylesheets containing `@theme` blocks."

def Error.message : Error → String
  | .text fault line column =>
    "CSS parse error at line " ++ Nat.repr line ++ ", column " ++ Nat.repr column ++ ": "
      ++ fault.message
  | .directive name fault => "`@" ++ name ++ "` " ++ fault.message
  | .invalidUtilityName name =>
    "`@utility " ++ name ++ "` defines an invalid utility name. " ++
      "Utilities should be alphanumeric and start with a lowercase letter."
  | .emptyUtility name =>
    "`@utility " ++ name ++ "` is empty. Utilities should include at least one property."
  | .invalidPrefix given =>
    "The prefix \"" ++ given ++ "\" is invalid. " ++
      "Prefixes must be lowercase ASCII letters (a-z) only."
  | .invalidThemeValue key value =>
    "Invalid theme value `" ++ value ++ "` for namespace `" ++ key ++ "`"
  | .unknownUtility candidate => "Cannot apply unknown utility class: " ++ candidate
  | .circularApply name =>
    "You cannot `@apply` the `" ++ name ++
      "` utility here because it creates a circular dependency."
  | .unresolvedImport id base => "Could not resolve `" ++ id ++ "` from `" ++ base.text ++ "`"
  | .circularImport path chain =>
    "Circular import detected: `" ++ path.text ++ "` is already being imported (" ++
      String.intercalate " -> " (chain.map Path.text) ++ ")"
  | .unresolvedModule id base =>
    "Could not resolve module `" ++ id ++ "` from `" ++ base.text ++ "`"
  | .missingLoader name => "No loader provided to resolve `@" ++ name ++ "`"
  | .unresolvedThemeCall arguments =>
    "Could not resolve value for theme function: `theme(" ++ arguments ++ ")`. " ++
      "Consider checking if the path is correct or provide a fallback value to silence this error."
  | .circularThemeCall key => "The theme value of `" ++ key ++ "` refers to itself."
  | .moduleFailure message => "Plugin error: " ++ message
  | .unreadable path => "Failed to read stylesheet '" ++ path.text ++ "'"

end UtilityCss
