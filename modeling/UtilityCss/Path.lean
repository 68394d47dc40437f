import UtilityCss.Text.Basic

/-!
File paths. A path is kept as it was written and printed so; two paths are the same when their
components are.
-/
namespace UtilityCss

structure Path where
  text : String
  deriving DecidableEq, Repr, Inhabited

namespace Path

inductive Component where
  | root
  | current
  | parent
  | name (text : String)
  deriving DecidableEq, Repr

def isAbsolute (p : Path) : Bool :=
  Text.startsWith "/" p.text

def pieceComponent? (piece : String) : Option Component :=
  if piece = "" ∨ piece = "." then none
  else if piece = ".." then some .parent
  else some (.name piece)

/-- A leading `.` is a component, any later one is not. -/
def components (p : Path) : List Component :=
  let pieces := Text.splitAll '/' p.text
  let lead : List Component :=
    if p.isAbsolute then [.root] else if pieces.head? = some "." then [.current] else []
  lead ++ pieces.filterMap pieceComponent?

def same (p q : Path) : Bool :=
  p.components == q.components

theorem same_self (p : Path) : p.same p = true := by
  simp [same]

theorem same_congr {p q : Path} (h : p.same q = true) : p.same = q.same := by
  have h : p.components = q.components := by simpa [same] using h
  funext other
  simp only [same, h]

def join (base : Path) (id : String) : Path :=
  if Text.startsWith "/" id then ⟨id⟩
  else if base.text = "" ∨ Text.endsWith "/" base.text then ⟨base.text ++ id⟩
  else ⟨base.text ++ "/" ++ id⟩

def fileName? (p : Path) : Option String :=
  match p.components.getLast? with
  | some (.name s) => some s
  | _ => none

/-- The text behind the last point of the file name. A name whose only point stands first has no
extension; a name that ends in a point has an empty one. -/
def extension? (p : Path) : Option String :=
  p.fileName?.bind fun name =>
    let after := (name.toList.reverse.takeWhile (· != '.')).reverse
    let before := name.toList.length - after.length - 1
    if Text.hasChar '.' name && 0 < before then some (String.ofList after) else none

/-- Give a path without an extension this one. What follows the file name, slashes and points, goes;
a path without a file name stays as it is. -/
def withDefaultExtension (p : Path) (extension : String) : Path :=
  if p.extension?.isSome || p.fileName?.isNone then p
  else
    let pieces := Text.splitAll '/' p.text
    let kept := (pieces.reverse.dropWhile fun piece => piece == "" || piece == ".").reverse
    ⟨String.intercalate "/" kept ++ "." ++ extension⟩

end Path

end UtilityCss
