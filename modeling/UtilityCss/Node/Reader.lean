import UtilityCss.Error
import UtilityCss.Lexeme.Basic
import UtilityCss.Node.Basic

/-!
Reading stylesheet text into a tree. The reader takes one lexeme at a time. Selectors, params and
values keep the text they were written with; white space around them is dropped. Nothing is
repaired: the first fault ends the reading.
-/
namespace UtilityCss

structure Item where
  /-- the text read so far -/
  text : String
  /-- the item began with a curly block that nothing has followed yet -/
  blockFirst : Bool := false
  /-- the text before the first colon, and the text behind it -/
  colon : Option (String × String) := none
  /-- the place behind the first lexeme, or behind the bracket that it opened -/
  opened : Option Location := none

/-- The text that a delimiter ends. A block at the front counts with its opening bracket only. -/
def Item.cut (i : Item) : String :=
  if i.blockFirst then "\x7b" else i.text

def Item.extend (i : Item) (text : String) : Item :=
  { i with text := i.text ++ text, colon := i.colon.map fun (p, v) => (p, v ++ text) }

inductive Pending where
  | nothing
  | atRule (name prelude : String)
  | item (i : Item)

inductive Header where
  | rule (selector : String)
  | atRule (name params : String)

def Header.node : Header → List Node → Node
  | .rule selector, nodes => .rule selector nodes
  | .atRule name params, nodes => .ofAtName name params nodes

/-- An open block: its header, and the nodes before it, last one first. -/
structure Level where
  header : Header
  before : List Node

structure Reader where
  /-- the open blocks, innermost first -/
  levels : List Level := []
  /-- the nodes of the current block, last one first -/
  nodes : List Node := []
  pending : Pending := .nothing
  /-- the brackets that are open inside what is pending, innermost first -/
  brackets : List Bracket := []
  place : Location := {}

def splitImportant (value : String) : String × Bool :=
  match Text.stripEnd? "important" (Text.lower value) with
  | none => (value, false)
  | some rest =>
    let marked := Text.dropEndWhile Text.isBlank rest.toList
    if marked.getLast? = some '!' then
      (Text.trimEnd (String.ofList (value.toList.take (marked.length - 1))), true)
    else (value, false)

/-- The declaration that an item is, if it has a colon; `text` is what a fault shows. -/
def Item.declaration (i : Item) (text : String) (place : Location) : Except Error Node :=
  match i.colon with
  | none => .error (.text (.invalidDeclaration (Text.trim text)) place.line place.column)
  | some (property, value) =>
    let (value, important) := splitImportant (Text.trim value)
    .ok (.declaration (Text.trim property) (some value) important)

namespace Reader

def push (r : Reader) (node : Node) : Reader :=
  { r with nodes := node :: r.nodes, pending := .nothing }

def openBlock (r : Reader) (header : Header) : Reader :=
  { r with levels := ⟨header, r.nodes⟩ :: r.levels, nodes := [], pending := .nothing }

def closeBlock (r : Reader) : Reader :=
  match r.levels with
  | [] => r
  | level :: levels =>
    { r with levels, nodes := level.header.node r.nodes.reverse :: level.before }

def settle (r : Reader) : Except Error Reader :=
  match r.pending with
  | .nothing => .ok r
  | .atRule name prelude => .ok (r.push (.ofAtName name (Text.trim prelude) []))
  | .item i => (i.declaration i.text r.place).map r.push

def extend (r : Reader) (text : String) : Reader :=
  match r.pending with
  | .nothing => r
  | .atRule name prelude => { r with pending := .atRule name (prelude ++ text) }
  | .item i => { r with pending := .item (i.extend text) }

/-- Add a lexeme inside brackets; everything but the awaited closing bracket is text. -/
def feedInside (r : Reader) (inner : Bracket) (outer : List Bracket) (l : Lexeme) : Reader :=
  let r := r.extend l.text
  match l.kind with
  | .opening b => { r with brackets := b :: inner :: outer }
  | .closing b =>
    if b = inner then
      match outer, r.pending with
      | [], .item i =>
        { r with brackets := [], pending := .item { i with opened := i.opened.or r.place } }
      | _, _ => { r with brackets := outer }
    else r
  | _ => r

def feedFirst (r : Reader) (start : Location) (l : Lexeme) : Except Error Reader :=
  match l.kind with
  | .space => .ok r
  | .semicolon => .ok r
  | .comment body => .ok (r.push (.comment body))
  | .atKeyword name => .ok { r with pending := .atRule name "" }
  | .closing .curly =>
    if r.levels.isEmpty then .error (.text .missingOpening start.line start.column)
    else .ok r.closeBlock
  | .opening .curly =>
    .ok { r with
      pending := .item { text := l.text, blockFirst := true, opened := some r.place }
      brackets := [.curly] }
  | .opening b => .ok { r with pending := .item { text := l.text }, brackets := [b] }
  | _ => .ok { r with pending := .item { text := l.text, opened := some r.place } }

def feedPrelude (r : Reader) (name prelude : String) (l : Lexeme) : Except Error Reader :=
  match l.kind with
  | .semicolon => .ok (r.push (.ofAtName name (Text.trim prelude) []))
  | .opening .curly => .ok (r.openBlock (.atRule name (Text.trim prelude)))
  | .closing .curly =>
    if r.levels.isEmpty then .error (.text (.closedPrelude name) r.place.line r.place.column)
    else .ok (r.push (.ofAtName name (Text.trim prelude) [])).closeBlock
  | .opening b => .ok { r.extend l.text with brackets := [b] }
  | _ => .ok (r.extend l.text)

def feedItem (r : Reader) (i : Item) (start : Location) (l : Lexeme) : Except Error Reader :=
  let whole := { i with blockFirst := false }
  match l.kind with
  | .semicolon => (i.declaration i.cut r.place).map r.push
  | .opening .curly => .ok (r.openBlock (.rule (Text.trim i.cut)))
  | .closing .curly =>
    if r.levels.isEmpty then
      let place := i.opened.getD start
      .error (.text (.closedItem (Text.trim i.cut)) place.line place.column)
    else (i.declaration i.text start).map fun node => (r.push node).closeBlock
  | .colon =>
    let colon := i.colon.map (fun (p, v) => (p, v ++ l.text)) |>.or (some (i.cut, ""))
    .ok { r with pending := .item { whole with text := i.text ++ l.text, colon } }
  | .opening b => .ok { r with pending := .item (whole.extend l.text), brackets := [b] }
  | _ => .ok { r with pending := .item (whole.extend l.text) }

def feed (r : Reader) (l : Lexeme) : Except Error Reader :=
  let next := { r with place := r.place.advance l.text.toList }
  match r.brackets with
  | inner :: outer => .ok (next.feedInside inner outer l)
  | [] =>
    match r.pending with
    | .nothing => next.feedFirst r.place l
    | .atRule name prelude => next.feedPrelude name prelude l
    | .item i => next.feedItem i r.place l

def closeAll : List Level → List Node → List Node
  | [], nodes => nodes
  | level :: levels, nodes => closeAll levels (level.header.node nodes.reverse :: level.before)

def finish (r : Reader) : Except Error (List Node) :=
  r.settle.map fun r => (closeAll r.levels r.nodes).reverse

end Reader

def parse (css : String) : Except Error (List Node) :=
  (lex css.toList).foldlM Reader.feed {} >>= Reader.finish

end UtilityCss
