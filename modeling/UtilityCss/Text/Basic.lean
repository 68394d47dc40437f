import UtilityCss.Text.Blank

/-!
Cutting and searching text. Every function is stated on the characters of its argument; the laws say
what text is cut off and what remains.
-/
namespace UtilityCss.Text

def dropHead? : List Char → List Char → Option (List Char)
  | [], cs => some cs
  | p :: ps, c :: cs => if p = c then dropHead? ps cs else none
  | _ :: _, [] => none

theorem dropHead?_eq_some_iff {pre cs rest : List Char} :
    dropHead? pre cs = some rest ↔ cs = pre ++ rest := by
  induction pre generalizing cs with
  | nil => simp [dropHead?, eq_comm]
  | cons p ps ih =>
    cases cs with
    | nil => simp [dropHead?]
    | cons c cs =>
      by_cases h : p = c
      · subst h; simp [dropHead?, ih]
      · simp [dropHead?, h, Ne.symm h]

def strip? (pre s : String) : Option String :=
  (dropHead? pre.toList s.toList).map String.ofList

def stripEnd? (suf s : String) : Option String :=
  (dropHead? suf.toList.reverse s.toList.reverse).map fun cs => String.ofList cs.reverse

theorem strip?_eq_some_iff {pre s rest : String} : strip? pre s = some rest ↔ s = pre ++ rest := by
  unfold strip?
  constructor
  · intro h
    obtain ⟨cs, hcs, rfl⟩ := Option.map_eq_some_iff.1 h
    apply String.toList_injective
    simp [dropHead?_eq_some_iff.1 hcs]
  · rintro rfl
    refine Option.map_eq_some_iff.2 ⟨rest.toList, dropHead?_eq_some_iff.2 (by simp), ?_⟩
    simp

theorem stripEnd?_eq_some_iff {suf s rest : String} :
    stripEnd? suf s = some rest ↔ s = rest ++ suf := by
  unfold stripEnd?
  constructor
  · intro h
    obtain ⟨cs, hcs, rfl⟩ := Option.map_eq_some_iff.1 h
    apply String.toList_injective
    have hrev := congrArg List.reverse (dropHead?_eq_some_iff.1 hcs)
    simpa using hrev
  · rintro rfl
    refine Option.map_eq_some_iff.2 ⟨rest.toList.reverse, dropHead?_eq_some_iff.2 (by simp), ?_⟩
    simp

def startsWith (pre s : String) : Bool :=
  (strip? pre s).isSome

def endsWith (suf s : String) : Bool :=
  (stripEnd? suf s).isSome

def between? (opening closing s : String) : Option String :=
  (strip? opening s).bind (stripEnd? closing)

theorem between?_eq_some_iff {opening closing s inner : String} :
    between? opening closing s = some inner ↔ s = opening ++ inner ++ closing := by
  simp only [between?, Option.bind_eq_some_iff, strip?_eq_some_iff, stripEnd?_eq_some_iff]
  constructor
  · rintro ⟨_, rfl, rfl⟩
    exact (String.append_assoc ..).symm
  · rintro rfl
    exact ⟨inner ++ closing, String.append_assoc .., rfl⟩

def startsWithAny (cs : List Char) (s : String) : Bool :=
  s.toList.head?.any cs.contains

def hasChar (c : Char) (s : String) : Bool :=
  s.toList.contains c

def occursIn (part : List Char) : List Char → Bool
  | [] => part.isEmpty
  | c :: cs => part.isPrefixOf (c :: cs) || occursIn part cs

def contains (part s : String) : Bool :=
  occursIn part.toList s.toList

def cutAt? (p : Char → Bool) (s : String) : Option (String × String) :=
  match s.toList.dropWhile (fun c => !p c) with
  | [] => none
  | c :: rest => some (String.ofList (s.toList.takeWhile fun c => !p c), String.ofList (c :: rest))

def splitOnce? (c : Char) (s : String) : Option (String × String) :=
  match s.toList.dropWhile (· != c) with
  | [] => none
  | _ :: rest => some (String.ofList (s.toList.takeWhile (· != c)), String.ofList rest)

def splitAll (c : Char) (s : String) : List String :=
  (s.toList.splitOnP (· == c)).map String.ofList

/-- Lower case, for the letters A to Z only. -/
def lower (s : String) : String :=
  String.ofList (s.toList.map Char.toLower)

def replaceChar (c : Char) (by_ s : String) : String :=
  String.ofList (s.toList.flatMap fun x => if x = c then by_.toList else [x])

theorem toList_replaceChar {by_ : String} {r : Char} (h : by_.toList = [r]) (c : Char)
    (s : String) : (replaceChar c by_ s).toList = s.toList.map fun x => if x = c then r else x := by
  rw [replaceChar, String.toList_ofList, h]
  induction s.toList with
  | nil => rfl
  | cons x xs ih =>
    rw [List.flatMap_cons, ih, List.map_cons]
    split <;> rfl

/-- Replace every occurrence of `part`, found from the left without overlap; `skip` characters of
the last occurrence are still to be passed over. -/
def replaceFrom (part by_ : List Char) : Nat → List Char → List Char
  | _, [] => []
  | skip + 1, _ :: cs => replaceFrom part by_ skip cs
  | 0, c :: cs =>
    if part.isPrefixOf (c :: cs) then by_ ++ replaceFrom part by_ (part.length - 1) cs
    else c :: replaceFrom part by_ 0 cs

def replaceAll (part by_ s : String) : String :=
  String.ofList (replaceFrom part.toList by_.toList 0 s.toList)

def unquote? (s : String) : Option String :=
  (between? "\"" "\"" s).or (between? "'" "'" s)

end UtilityCss.Text
