import UtilityCss.Directive.Import

/-!
Stylesheets in a directory tree. An id without an extension gets `.css`. Nothing is known about what
lies outside of the tree except that it is made of directories. Names and paths have limits, in
bytes of UTF-8; beyond them nothing can be looked up, so such a path is unreadable and not merely
missing.
-/
namespace UtilityCss

structure TreeFile where
  names : List String
  content : String

structure FileTree where
  /-- the path of the topmost directory -/
  mount : Path
  /-- the file written last comes first, and of two with the same names it counts -/
  files : List TreeFile := []
  /-- the directories below the topmost one, by the names on the way to them -/
  directories : List (List String) := []

namespace FileTree

def enter (names : List String) (piece : String) : List String :=
  if piece = "" ∨ piece = "." then names
  else if piece = ".." then names.dropLast
  else names ++ [piece]

def visited (names : List String) : List String → List (List String)
  | [] => []
  | piece :: rest => enter names piece :: visited (enter names piece) rest

/-- Write a file at a path that is relative to the topmost directory, and make the directories on
the way to it. -/
def write (t : FileTree) (path content : String) : FileTree :=
  let pieces := Text.splitAll '/' path
  { t with
    files := ⟨pieces.foldl enter [], content⟩ :: t.files
    directories := visited [] pieces.dropLast ++ t.directories }

inductive Place where
  | outside
  | inside (names : List String)

/-- Why a path leads to no file: there is nothing at its end or on the way, or what it asks for
cannot be done, such as to go on behind a file or to read a directory. -/
inductive Fault where
  | missing
  | unreadable

def nameLimit : Nat := 255

def pathLimit : Nat := 4096

/-- Whether a path can be followed at all: it is within the limit and holds no null character. -/
def isFollowable (path : Path) : Bool :=
  path.text.utf8ByteSize < pathLimit && !Text.hasChar '\x00' path.text

def file? (t : FileTree) (names : List String) : Option TreeFile :=
  t.files.find? fun file => file.names == names

def isPresent (t : FileTree) (names : List String) : Bool :=
  (t.file? names).isSome || t.directories.contains names

def lookUp (present : String → Bool) (name : String) : Except Fault Unit :=
  if nameLimit < name.utf8ByteSize then .error .unreadable
  else if present name then .ok ()
  else .error .missing

/-- Follow one piece of a path. Behind a file nothing can follow, not even a slash. -/
def step (t : FileTree) (place : Place) (piece : String) : Except Fault Place :=
  match place with
  | .outside =>
    if ["", ".", ".."].contains piece then .ok .outside
    else (lookUp (fun _ => false) piece).map fun _ => .outside
  | .inside names =>
    if (t.file? names).isSome then .error .unreadable
    else if piece = "" ∨ piece = "." then .ok place
    else if piece = ".." then .ok (if names.isEmpty then .outside else .inside names.dropLast)
    else
      (lookUp (fun name => t.isPresent (names ++ [name])) piece).map fun _ =>
        .inside (names ++ [piece])

def follow (t : FileTree) (path : Path) : Except Fault Place :=
  match Text.strip? t.mount.text path.text with
  | some rest =>
    if rest.isEmpty || Text.startsWith "/" rest then
      (Text.splitAll '/' rest).foldlM t.step (.inside [])
    else (Text.splitAll '/' path.text).foldlM t.step .outside
  | none => (Text.splitAll '/' path.text).foldlM t.step .outside

def pathOf (t : FileTree) (names : List String) : Path :=
  ⟨String.intercalate "/" (t.mount.text :: names)⟩

def sheetOf (t : FileTree) (file : TreeFile) : Sheet :=
  { path := t.pathOf file.names, base := t.pathOf file.names.dropLast, content := file.content }

def find? (t : FileTree) (path : Path) : Except Fault TreeFile :=
  if isFollowable path then
    match t.follow path with
    | .error fault => .error fault
    | .ok .outside => .error .unreadable
    | .ok (.inside names) =>
      match t.file? names with
      | some file => .ok file
      | none => .error .unreadable
  else .error .unreadable

def load (t : FileTree) (id : String) (base : Path) : Except Error Sheet :=
  let path := (base.join id).withDefaultExtension "css"
  match t.find? path with
  | .ok file => .ok (t.sheetOf file)
  | .error .missing => .error (.unresolvedImport id base)
  | .error .unreadable => .error (.unreadable path)

theorem mem_of_find? {t : FileTree} {path : Path} {file : TreeFile} (h : t.find? path = .ok file) :
    file ∈ t.files := by
  unfold find? at h
  split at h
  · split at h
    · simp at h
    · simp at h
    · split at h
      · next hfile =>
        obtain rfl := Except.ok.inj h
        exact List.mem_of_find?_eq_some hfile
      · simp at h
  · simp at h

def loader (t : FileTree) : SheetLoader where
  load := t.load
  paths := t.files.map fun file => (t.sheetOf file).path
  path_mem h := by
    unfold load at h
    dsimp only at h
    split at h
    · next file hfind =>
      obtain rfl := Except.ok.inj h
      exact ⟨(t.sheetOf file).path, List.mem_map.2 ⟨file, mem_of_find? hfind, rfl⟩,
        Path.same_self _⟩
    · simp at h
    · simp at h

end FileTree

end UtilityCss
