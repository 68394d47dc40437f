import UtilityCss.Node.Printer
import UtilityCss.Proofs.ClosedText

/-!
Reading printed text. A tree whose texts are closed is read back as what was printed of it: contexts
are opened, nodes that print nothing are gone, and a mark of importance in a value is read as one.
-/
namespace UtilityCss

open Text Lexeme

/-! ### Texts that can be printed -/

def importantMark (important : Bool) : String :=
  if important then " !important" else ""

def preludeText (params : String) : String :=
  if params.isEmpty then "" else " " ++ params

structure IsHead (z : Char) (s : String) : Prop where
  ne_empty : s ≠ ""
  start : ((lex (s.toList ++ [z])).head?.any fun l => l.kind.isItemStart) = true
  closed : IsClosed z s

instance (z : Char) (s : String) : Decidable (IsHead z s) :=
  decidable_of_iff (s ≠ "" ∧
    ((lex (s.toList ++ [z])).head?.any fun l => l.kind.isItemStart) = true ∧ IsClosed z s)
    ⟨fun ⟨h₁, h₂, h₃⟩ => ⟨h₁, h₂, h₃⟩, fun h => ⟨h.1, h.2, h.3⟩⟩

def IsProperty (s : String) : Prop :=
  IsHead ':' s ∧ ':' ∉ s.toList ∧ trim s = s

def IsSelector (s : String) : Prop :=
  IsHead '\x7b' (s ++ " ") ∧ trim (s ++ " ") = s

def IsValue (s : String) : Prop :=
  IsClosed ';' (" " ++ s) ∧
    (splitImportant (trim s)).1 ++ importantMark (splitImportant (trim s)).2 = s

def IsParams (bare : Bool) (s : String) : Prop :=
  if bare then IsClosed ';' (preludeText s) ∧ trim (preludeText s) = s
  else IsClosed '\x7b' (preludeText s ++ " ") ∧ trim (preludeText s ++ " ") = s

def IsBareName (s : String) : Prop :=
  startsName s.toList = true ∧ ∀ c ∈ s.toList, isNameChar c = true ∧ c.toNat ≠ 0

instance (s : String) : Decidable (IsProperty s) := inferInstanceAs (Decidable (_ ∧ _ ∧ _))

instance (s : String) : Decidable (IsSelector s) := inferInstanceAs (Decidable (_ ∧ _))

instance (s : String) : Decidable (IsValue s) := inferInstanceAs (Decidable (_ ∧ _))

instance (bare : Bool) (s : String) : Decidable (IsParams bare s) :=
  inferInstanceAs (Decidable (if bare then _ else _))

instance (s : String) : Decidable (IsBareName s) :=
  decidable_of_iff (startsName s.toList = true ∧
    s.toList.all (fun c => isNameChar c && c.toNat != 0) = true) (by simp [IsBareName])

mutual

/-- Every text that is printed of a node is closed. -/
def Node.IsPrintable : Node → Prop
  | .declaration _ none _ => True
  | .declaration property (some value) important =>
    IsProperty property ∧ IsValue (value ++ importantMark important)
  | .rule selector nodes => IsSelector selector ∧ AllPrintable nodes
  | .atRule name params nodes =>
    IsBareName name ∧ IsParams nodes.isEmpty params ∧ AllPrintable nodes
  | .comment text => contains "*/" text = false
  | .context _ nodes => AllPrintable nodes
  | .atRoot _ => True

def AllPrintable : List Node → Prop
  | [] => True
  | n :: ns => n.IsPrintable ∧ AllPrintable ns

end

mutual

instance Node.decidablePrintable : (node : Node) → Decidable node.IsPrintable
  | .declaration _ none _ => inferInstanceAs (Decidable True)
  | .declaration property (some value) important =>
    inferInstanceAs (Decidable (IsProperty property ∧ IsValue (value ++ importantMark important)))
  | .rule selector nodes =>
    have := decidableAllPrintable nodes
    inferInstanceAs (Decidable (IsSelector selector ∧ AllPrintable nodes))
  | .atRule name params nodes =>
    have := decidableAllPrintable nodes
    inferInstanceAs
      (Decidable (IsBareName name ∧ IsParams nodes.isEmpty params ∧ AllPrintable nodes))
  | .comment text => inferInstanceAs (Decidable (contains "*/" text = false))
  | .context _ nodes => decidableAllPrintable nodes
  | .atRoot _ => inferInstanceAs (Decidable True)

instance decidableAllPrintable : (nodes : List Node) → Decidable (AllPrintable nodes)
  | [] => inferInstanceAs (Decidable True)
  | n :: ns =>
    have := n.decidablePrintable
    have := decidableAllPrintable ns
    inferInstanceAs (Decidable (n.IsPrintable ∧ AllPrintable ns))

end

def Node.ofValue (property text : String) : Node :=
  .declaration property (some (splitImportant (trim text)).1) (splitImportant (trim text)).2

mutual

def Node.printed : Node → List Node
  | .declaration _ none _ => []
  | .declaration property (some value) important =>
    [.ofValue property (value ++ importantMark important)]
  | .rule selector nodes => [.rule selector (printedAll nodes)]
  | .atRule name params nodes => [.atRule name params (printedAll nodes)]
  | .comment text => [.comment text]
  | .context _ nodes => printedAll nodes
  | .atRoot _ => []

def printedAll : List Node → List Node
  | [] => []
  | n :: ns => n.printed ++ printedAll ns

end

/-! ### Names and comments -/

private theorem decodeName_plain {cs : List Char} (h : ∀ c ∈ cs, c ≠ '\\' ∧ c.toNat ≠ 0) :
    decodeName .plain cs = cs := by
  induction cs with
  | nil => rfl
  | cons c cs ih =>
    have hc := h c (by simp)
    simp [decodeName, decodeStep, decodePlain, hc.1, hc.2, ih fun x hx => h x (by simp [hx])]

private theorem startsName_append {cs : List Char} (rest : List Char) (h : startsName cs = true)
    (hslash : '\\' ∉ cs) : startsName (cs ++ rest) = true := by
  cases cs with
  | nil => cases h
  | cons c cs =>
    rw [List.mem_cons, not_or] at hslash
    rw [startsName_cons, if_neg (Ne.symm hslash.1)] at h
    rw [List.cons_append, startsName_cons, if_neg (Ne.symm hslash.1)]
    split at h
    -- a hyphen alone begins no name, so there is a second character
    next hdash =>
      cases cs with
      | nil => cases h
      | cons d cs => rwa [if_pos hdash]
    next hdash => rwa [if_neg hdash]

theorem IsBareName.not_slash {name : String} (h : IsBareName name) : '\\' ∉ name.toList := by
  intro hmem
  exact absurd (h.2 _ hmem).1 (by decide)

theorem IsBareName.scan {name : String} (h : IsBareName name) {z : Char} (hz : z = ' ' ∨ z = ';')
    (rest : List Char) :
    Lexeme.scan '@' (name.toList ++ z :: rest) = (.atKeyword name, 1 + name.toList.length) := by
  have hstop : isNameChar z = false ∧ z ≠ '\\' := by rcases hz with rfl | rfl <;> decide
  have hall : name.toList.takeWhile isNameChar = name.toList :=
    List.takeWhile_eq_self_iff.2 fun c hc => (h.2 c hc).1
  have hlength : nameLength (name.toList ++ z :: rest) = name.toList.length := by
    rw [nameLength_text rest h.not_slash hstop.1 hstop.2, hall]
  have hplain : ∀ c ∈ name.toList, c ≠ '\\' ∧ c.toNat ≠ 0 := fun c hc =>
    ⟨fun hs => h.not_slash (hs ▸ hc), (h.2 c hc).2⟩
  simp only [Lexeme.scan, startsName_append _ h.1 h.not_slash, if_true, hlength, List.take_left,
    decodeName_plain hplain, String.ofList_toList]

theorem IsBareName.ofAtName {name : String} (h : IsBareName name) (params : String)
    (nodes : List Node) : Node.ofAtName name params nodes = .atRule name params nodes := by
  have hname : strip? "@" name = none := by
    cases hs : strip? "@" name with
    | none => rfl
    | some rest =>
      have hmem : '@' ∈ name.toList := by
        rw [strip?_eq_some_iff.1 hs]
        simp
      exact absurd (h.2 _ hmem).1 (by decide)
  simp [Node.ofAtName, hname]

theorem reach_comment {text : List Char} (rest : List Char) {s : CommentState} (hs : s ≠ .closed)
    (hstar : s = .star → text.head? ≠ some '/') (h : occursIn ['*', '/'] text = false) :
    reach commentStep s (text ++ '*' :: '/' :: rest) = text.length + 2 := by
  induction text generalizing s with
  | nil =>
    have opens : ∀ next, commentStep s '*' next = some .star := by
      intro next
      cases s with
      | closed => exact absurd rfl hs
      | _ => rfl
    have closes : ∀ next, commentStep .star '/' next = some .closed := fun _ => rfl
    simp only [List.nil_append, reach, opens, closes]
    cases rest <;> simp [reach, commentStep]
  | cons c text ih =>
    simp only [occursIn, Bool.or_eq_false_iff] at h
    have step : ∀ next, commentStep s c next = some (if c = '*' then .star else .body) := by
      intro next
      unfold commentStep
      split
      · exact absurd rfl hs
      · exact absurd rfl (hstar rfl)
      · rfl
    simp only [List.cons_append, reach, step]
    rw [ih (by split <;> simp) ?_ h.2]
    · simp
    · -- a star in the text is not followed by a slash
      intro hc hhead
      split at hc
      case isTrue hc' =>
        obtain ⟨text, rfl⟩ : ∃ t, text = '/' :: t := by
          cases text with
          | nil => simp at hhead
          | cons d t => exact ⟨t, by simpa using hhead⟩
        simp [hc'] at h
      case isFalse => cases hc

/-! ### Reading the pieces of a node -/

theorem trim_space_left (s : String) : trim (" " ++ s) = trim s := by
  have hblank : isBlank ' ' = true := by decide
  simp [trim, hblank]

theorem IsHead.starts {z : Char} {s : String} (h : IsHead z s) (rest : List Char) :
    ∃ c cs, s.toList ++ rest = c :: cs ∧ isSpace c = false := by
  have hne : s.toList ≠ [] := fun hs => h.ne_empty (String.toList_injective (by simpa using hs))
  obtain ⟨c, cs, hcs⟩ := List.exists_cons_of_ne_nil hne
  refine ⟨c, cs ++ rest, by rw [hcs]; rfl, ?_⟩
  cases hc : isSpace c with
  | false => rfl
  | true =>
    have hstart := h.start
    rw [hcs, List.cons_append, lex, scan_space _ hc] at hstart
    simp [Lexeme.Kind.isItemStart] at hstart

namespace Reader

variable {r : Reader}

theorem read_closed {s : String} {z : Char} (rest : List Char) (hs : IsClosed z s)
    (hz : isTerminator z = true) (hp : r.pending ≠ .nothing) (hb : r.brackets = []) :
    ∃ r', r.read (s.toList ++ z :: rest) = r'.read (z :: rest) ∧ r.Runs s [] r' := by
  obtain ⟨ls, hls, hclosed⟩ := hs
  obtain ⟨htext, hlex, hcolon⟩ := lexBefore?_eq_some hz hls
  rw [← hb] at hclosed
  obtain ⟨r', hfeed, runs⟩ := feedAll_within ls hp hclosed hcolon
  exact ⟨r', read_append ls (hlex rest) hfeed, hb ▸ htext ▸ runs⟩

theorem read_head {s : String} {z : Char} (rest : List Char) (hs : IsHead z s)
    (hz : isTerminator z = true) (hp : r.pending = .nothing) (hb : r.brackets = []) :
    ∃ i r', r.read (s.toList ++ z :: rest) = r'.read (z :: rest) ∧ r.AtItem s [] i r' := by
  obtain ⟨ls, hls, hclosed⟩ := hs.closed
  obtain ⟨htext, hlex, hcolon⟩ := lexBefore?_eq_some hz hls
  cases ls with
  | nil => exact absurd htext.symm hs.ne_empty
  | cons l ls =>
    have hstart := hs.start
    rw [hlex []] at hstart
    obtain ⟨i, r', hfeed, item⟩ :=
      feedAll_item_within l ls hp hb hstart (bracketsBehind_cons.1 hclosed).2
      fun x hx => hcolon x (List.mem_cons_of_mem l hx)
    exact ⟨i, r', read_append (l :: ls) (hlex rest) hfeed, htext ▸ item⟩

private theorem read_colon {i : Item} (rest : List Char) (hp : r.pending = .item i)
    (hb : r.brackets = []) (hi : i.colon = none) :
    ∃ j place, r.read (':' :: rest) = { r with pending := .item j, place }.read rest ∧
      j.colon = some (i.cut, "") := by
  refine ⟨{ i with blockFirst := false, text := i.text ++ ":", colon := some (i.cut, "") },
    r.place.advance [':'], read_single rest rfl ?_, rfl⟩
  simp [feed, hb, hp, feedItem, hi]

structure Adds (r : Reader) (new : List Node) (r' : Reader) : Prop where
  levels : r'.levels = r.levels
  nodes : r'.nodes = new ++ r.nodes
  pending : r'.pending = .nothing
  brackets : r'.brackets = []

theorem Adds.trans {s t : Reader} {xs ys : List Node} (h₁ : r.Adds xs s) (h₂ : s.Adds ys t) :
    r.Adds (ys ++ xs) t :=
  ⟨h₂.levels.trans h₁.levels, by rw [h₂.nodes, h₁.nodes, List.append_assoc],
    h₂.pending, h₂.brackets⟩

theorem read_declaration {property text : String} (rest : List Char) (hprop : IsProperty property)
    (htext : IsClosed ';' (" " ++ text)) (hp : r.pending = .nothing) (hb : r.brackets = []) :
    ∃ r', r.read (property.toList ++ ':' :: ((" " ++ text).toList ++ ';' :: rest)) = r'.read rest ∧
      r.Adds [.ofValue property text] r' := by
  obtain ⟨i, r₁, read₁, item⟩ := read_head _ hprop.1 (by decide) hp hb
  obtain ⟨j, place₂, read₂, hj⟩ := read_colon _ item.pending item.brackets (item.colon hprop.2.1)
  obtain ⟨r₃, read₃, runs⟩ := read_closed (r := { r₁ with pending := .item j, place := place₂ })
    rest htext (by decide) (by simp) item.brackets
  have grows := runs.pending
  cases hq : r₃.pending with
  | nothing => exact absurd hq grows.ne_nothing
  | atRule => rw [hq] at grows; cases grows
  | item k =>
    rw [hq] at grows
    have hk : k.colon = some (property, " " ++ text) := by
      cases grows with
      | item _ _ colon _ =>
        have cut : i.cut = property := by simp [Item.cut, item.first, item.text_eq]
        simpa [cut] using colon _ _ hj
    have hnode : ∀ shown place, k.declaration shown place = .ok (.ofValue property text) := by
      intro shown place
      simp only [Item.declaration, hk, trim_space_left, hprop.2.2, Node.ofValue]
    -- the semicolon settles the item
    obtain ⟨place₄, read₄⟩ := read_semicolon rest runs.brackets (.inl ⟨k, hq, hnode⟩)
    have hnodes : r₃.nodes = r.nodes := runs.nodes.trans item.nodes
    refine ⟨_, read₁.trans (read₂.trans (read₃.trans read₄)),
      runs.levels.trans item.levels, ?_, rfl, runs.brackets⟩
    rw [← hnodes]
    rfl

theorem read_comment {text : String} (rest : List Char) (h : contains "*/" text = false)
    (hp : r.pending = .nothing) (hb : r.brackets = []) :
    ∃ r', r.read ('/' :: '*' :: text.toList ++ '*' :: '/' :: rest) = r'.read rest ∧
      r.Adds [.comment text] r' := by
  have hreach : reach commentStep .body (text.toList ++ '*' :: '/' :: rest) =
      text.toList.length + 2 :=
    reach_comment rest (by simp) (by simp) h
  have hbody : commentBody ('/' :: '*' :: (text.toList ++ ['*', '/'])) = text := by
    have hstrip : stripEnd? "*/" (text ++ "*/") = some text := stripEnd?_eq_some_iff.2 rfl
    have hinner : String.ofList (text.toList ++ ['*', '/']) = text ++ "*/" := by
      apply String.toList_injective
      simp
    simp [commentBody, hinner, hstrip]
  have htake :
      ('/' :: '*' :: (text.toList ++ '*' :: '/' :: rest)).take (2 + (text.toList.length + 2)) =
      '/' :: '*' :: (text.toList ++ ['*', '/']) := by
    rw [Nat.add_comm 2]
    simp [List.take_append, List.take_of_length_le]
  have hscan : scan '/' ('*' :: (text.toList ++ ['*', '/']) ++ rest) =
      (.comment text, 2 + (text.toList.length + 2)) := by
    simp only [scan, List.cons_append, List.append_assoc, List.nil_append, hreach, htake, hbody]
  have hlex := lex_append '/' ('*' :: (text.toList ++ ['*', '/'])) rest (by
    rw [hscan]
    simp
    omega)
  have hall : ('*' :: (text.toList ++ ['*', '/'])).drop (2 + (text.toList.length + 2) - 1) =
      [] := by
    apply List.drop_of_length_le
    simp
    omega
  rw [hscan, hall, List.nil_append] at hlex
  have hfeed : ∀ t, ∃ r', r.feed ⟨.comment text, t⟩ = .ok r' ∧ r.Adds [.comment text] r' := by
    intro t
    simp only [feed, hb, hp, feedFirst]
    exact ⟨_, rfl, rfl, rfl, rfl, rfl⟩
  obtain ⟨r', hfeed, adds⟩ := hfeed _
  refine ⟨r', ?_, adds⟩
  have hread := read_append [_] hlex (by simpa using hfeed)
  simpa using hread

structure AtPrelude (r : Reader) (name params : String) (r' : Reader) : Prop where
  levels : r'.levels = r.levels
  nodes : r'.nodes = r.nodes
  brackets : r'.brackets = []
  pending : r'.pending = .atRule name params

private theorem read_atName {name : String} {z : Char} (rest : List Char) (h : IsBareName name)
    (hz : z = ' ' ∨ z = ';') (hp : r.pending = .nothing) (hb : r.brackets = []) :
    ∃ r', r.read ('@' :: name.toList ++ z :: rest) = r'.read (z :: rest) ∧
      r.AtPrelude name "" r' := by
  have hscan := h.scan hz rest
  have hlex := lex_append '@' name.toList (z :: rest) (by rw [hscan]; simp)
  have hall : name.toList.drop (1 + name.toList.length - 1) = [] := by simp
  rw [hscan, hall, List.nil_append] at hlex
  have hfeed : ∀ t, ∃ r', r.feed ⟨.atKeyword name, t⟩ = .ok r' ∧ r.AtPrelude name "" r' := by
    intro t
    simp only [feed, hb, hp, feedFirst]
    exact ⟨_, rfl, rfl, rfl, rfl, rfl⟩
  obtain ⟨r', hfeed, prelude_⟩ := hfeed _
  exact ⟨r', read_append [_] hlex (by simpa using hfeed), prelude_⟩

theorem read_prelude {name text : String} {z : Char} (rest : List Char) (hn : IsBareName name)
    (htext : IsClosed z text) (hz : isTerminator z = true)
    (hfirst : ∀ c ∈ (text.toList ++ [z]).head?, c = ' ' ∨ c = ';') (hp : r.pending = .nothing)
    (hb : r.brackets = []) :
    ∃ r', r.read ('@' :: name.toList ++ (text.toList ++ z :: rest)) = r'.read (z :: rest) ∧
      r.AtPrelude name text r' := by
  obtain ⟨c, cs, hcs⟩ : ∃ c cs, text.toList ++ z :: rest = c :: cs := by
    cases text.toList <;> exact ⟨_, _, rfl⟩
  have hc : c = ' ' ∨ c = ';' := hfirst c (by rw [← head?_append_cons _ z rest, hcs]; rfl)
  obtain ⟨r₁, read₁, pre⟩ := read_atName (r := r) cs hn hc hp hb
  obtain ⟨r₂, read₂, runs⟩ :=
    read_closed (r := r₁) rest htext hz (by rw [pre.pending]; simp) pre.brackets
  have grows := runs.pending
  rw [pre.pending] at grows
  refine ⟨r₂, ?_, runs.levels.trans pre.levels, runs.nodes.trans pre.nodes, runs.brackets, ?_⟩
  · rw [hcs, read₁, ← hcs, read₂]
  · cases hq : r₂.pending with
    | atRule =>
      rw [hq] at grows
      cases grows
      simp
    | _ => rw [hq] at grows; cases grows

theorem isSpace_indent (depth : Nat) : ∀ c ∈ (indent depth).toList, isSpace c = true := by
  intro c hc
  simp only [indent, String.toList_ofList, List.mem_replicate] at hc
  rw [hc.2]
  rfl

def ReadsAs (text : String) (nodes : List Node) : Prop :=
  ∀ (r : Reader) (ws rest : List Char), (∀ c ∈ ws, isSpace c = true) → r.pending = .nothing →
    r.brackets = [] → ∃ r' ws', (∀ c ∈ ws', isSpace c = true) ∧
      r.read (ws ++ (text.toList ++ rest)) = r'.read (ws' ++ rest) ∧ r.Adds nodes.reverse r'

theorem ReadsAs.of_line {node : Node} {text : String} (depth : Nat) (core : List Char)
    (htext : text.toList = (indent depth).toList ++ (core ++ ['\n']))
    (hhead : ∃ c cs, core = c :: cs ∧ isSpace c = false)
    (h : ∀ (r : Reader) (rest : List Char), r.pending = .nothing → r.brackets = [] →
      ∃ r', r.read (core ++ rest) = r'.read rest ∧ r.Adds [node] r') : ReadsAs text [node] := by
  intro r ws rest hws hp hb
  have hindent : ∀ c ∈ ws ++ (indent depth).toList, isSpace c = true := by
    intro c hc
    rcases List.mem_append.1 hc with hc | hc
    · exact hws c hc
    · exact isSpace_indent depth c hc
  obtain ⟨c, cs, rfl, hc⟩ := hhead
  obtain ⟨place, read₁⟩ :=
    read_spaces (ws ++ (indent depth).toList) (c :: cs ++ '\n' :: rest) hindent
    (by simpa using hc) hp hb
  -- the line break is left over, as space in front of the next node
  obtain ⟨r', read₂, adds⟩ := h { r with place } ('\n' :: rest) hp hb
  refine ⟨r', ['\n'], List.all_eq_true.1 rfl, ?_, adds.levels, adds.nodes, adds.pending,
    adds.brackets⟩
  rw [htext]
  simpa using read₁.trans read₂

theorem read_block (header : Header) {nodes new : List Node} (depth : Nat) (rest : List Char)
    (body : ReadsAs (renderAll (depth + 1) nodes) new) (hb : r.brackets = [])
    (hopen : (∃ i, r.pending = .item i ∧ header = .rule (trim i.cut)) ∨
      ∃ name params, r.pending = .atRule name params ∧ header = .atRule name (trim params)) :
    ∃ r', r.read ('\x7b' :: '\n' :: ((renderAll (depth + 1) nodes).toList ++
        ((indent depth).toList ++ '\x7d' :: rest))) = r'.read rest ∧
          r.Adds [header.node new] r' := by
  obtain ⟨place₁, read₁⟩ := read_open _ hb hopen
  obtain ⟨r₂, ws, hws, read₂, adds⟩ := body
    { r with levels := ⟨header, r.nodes⟩ :: r.levels, nodes := [], pending := .nothing,
             place := place₁ } ['\n'] ((indent depth).toList ++ '\x7d' :: rest)
    (List.all_eq_true.1 rfl) rfl hb
  have hindent : ∀ c ∈ ws ++ (indent depth).toList, isSpace c = true := by
    intro c hc
    rcases List.mem_append.1 hc with hc | hc
    · exact hws c hc
    · exact isSpace_indent depth c hc
  obtain ⟨place₃, read₃⟩ :=
    read_spaces (r := r₂) (ws ++ (indent depth).toList) ('\x7d' :: rest) hindent
    (by simp; decide) adds.pending adds.brackets
  obtain ⟨place₄, read₄⟩ :=
    read_close (r := { r₂ with place := place₃ }) rest adds.levels adds.pending
    adds.brackets
  rw [List.append_assoc] at read₃
  refine ⟨_, read₁.trans (read₂.trans (read₃.trans read₄)), rfl, ?_, adds.pending, adds.brackets⟩
  simp [adds.nodes]

theorem readsAs_nothing : ReadsAs "" [] := by
  intro r ws rest hws hp hb
  exact ⟨r, ws, hws, by simp, rfl, rfl, hp, hb⟩

theorem preludeText_head {params : String} (behind : List Char)
    (h : ∀ c ∈ behind.head?, c = ' ' ∨ c = ';') :
    ∀ c ∈ ((preludeText params).toList ++ behind).head?, c = ' ' ∨ c = ';' := by
  unfold preludeText
  split
  · simpa using h
  · simp

mutual

theorem render_printed (node : Node) (depth : Nat) (h : node.IsPrintable) :
    ReadsAs (node.render depth) node.printed := by
  match node with
  | .declaration property none important => exact readsAs_nothing
  | .declaration property (some value) important =>
    obtain ⟨hprop, hv⟩ := h
    refine .of_line depth
      (property.toList ++ ':' :: ((" " ++ (value ++ importantMark important)).toList ++
      [';'])) (by simp [Node.render, importantMark]) (hprop.1.starts _) fun r rest hp hb => ?_
    simpa using read_declaration rest hprop hv.1 hp hb
  | .rule selector nodes =>
    obtain ⟨hs, hnodes⟩ := h
    refine .of_line depth ((selector ++ " ").toList ++ '\x7b' :: '\n' ::
      ((renderAll (depth + 1) nodes).toList ++ ((indent depth).toList ++ ['\x7d'])))
      (by simp [Node.render]) (hs.1.starts _) fun r rest hp hb => ?_
    obtain ⟨i, r₁, read₁, item⟩ := read_head ('\n' :: ((renderAll (depth + 1) nodes).toList ++
      ((indent depth).toList ++ '\x7d' :: rest))) hs.1 (by decide) hp hb
    have hcut : trim i.cut = selector := by simpa [Item.cut, item.first, item.text_eq] using hs.2
    obtain ⟨r₂, read₂, adds⟩ := read_block (.rule selector) depth rest
      (renderAll_printed nodes (depth + 1) hnodes) item.brackets
        (.inl ⟨i, item.pending, by rw [hcut]⟩)
    refine ⟨r₂, ?_, adds.levels.trans item.levels, ?_, adds.pending, adds.brackets⟩
    · simpa using read₁.trans read₂
    · rw [adds.nodes, item.nodes]
      rfl
  -- the params stand in front of a semicolon here, and in front of a block below
  | .atRule name params [] =>
    obtain ⟨hn, hparams, -⟩ := h
    refine .of_line depth ('@' :: name.toList ++ ((preludeText params).toList ++ [';']))
      (by simp [Node.render, preludeText]) ⟨'@', _, rfl, by decide⟩ fun r rest hp hb => ?_
    obtain ⟨r₁, read₁, pre⟩ := read_prelude (z := ';') rest hn hparams.1 (by decide)
      (preludeText_head [';'] (by simp)) hp hb
    obtain ⟨place, read₂⟩ := read_semicolon rest pre.brackets (.inr ⟨name, _, pre.pending, rfl⟩)
    rw [hparams.2, hn.ofAtName] at read₂
    refine ⟨_, (congrArg r.read (by simp)).trans (read₁.trans read₂), pre.levels, ?_, rfl,
      pre.brackets⟩
    exact congrArg _ pre.nodes
  | .atRule name params (n :: ns) =>
    obtain ⟨hn, hparams, hnodes⟩ := h
    refine .of_line depth
      ('@' :: name.toList ++ ((preludeText params ++ " ").toList ++ '\x7b' :: '\n' ::
      ((renderAll (depth + 1) (n :: ns)).toList ++ ((indent depth).toList ++ ['\x7d']))))
      (by simp [Node.render, preludeText]) ⟨'@', _, rfl, by decide⟩ fun r rest hp hb => ?_
    obtain ⟨r₁, read₁, pre⟩ := read_prelude (z := '\x7b') ('\n' ::
      ((renderAll (depth + 1) (n :: ns)).toList ++ ((indent depth).toList ++ '\x7d' :: rest))) hn
        hparams.1
      (by decide) (by simpa using preludeText_head [' ', '\x7b'] (by simp)) hp hb
    obtain ⟨r₂, read₂, adds⟩ := read_block (.atRule name params) depth rest
      (renderAll_printed (n :: ns) (depth + 1) hnodes) pre.brackets
      (.inr ⟨name, _, pre.pending, by rw [hparams.2]⟩)
    refine ⟨r₂, (congrArg r.read (by simp)).trans (read₁.trans read₂),
      adds.levels.trans pre.levels, ?_, adds.pending, adds.brackets⟩
    rw [adds.nodes, pre.nodes, Header.node, hn.ofAtName]
  | .comment text =>
    refine .of_line depth ('/' :: '*' :: text.toList ++ ['*', '/']) (by simp [Node.render])
      ⟨'/', _, rfl, by decide⟩ fun r rest hp hb => ?_
    simpa using read_comment rest h hp hb
  | .context entries nodes => exact renderAll_printed nodes depth h
  | .atRoot nodes => exact readsAs_nothing

theorem renderAll_printed (nodes : List Node) (depth : Nat) (h : AllPrintable nodes) :
    ReadsAs (renderAll depth nodes) (printedAll nodes) := by
  match nodes with
  | [] => exact readsAs_nothing
  | node :: nodes =>
    intro r ws rest hws hp hb
    obtain ⟨r₁, ws₁, hws₁, read₁, adds₁⟩ := render_printed node depth h.1 r ws
      ((renderAll depth nodes).toList ++ rest) hws hp hb
    obtain ⟨r₂, ws₂, hws₂, read₂, adds₂⟩ := renderAll_printed nodes depth h.2 r₁ ws₁ rest hws₁
      adds₁.pending adds₁.brackets
    refine ⟨r₂, ws₂, hws₂, ?_, ?_⟩
    · simpa [renderAll] using read₁.trans read₂
    · simpa [printedAll] using adds₁.trans adds₂

end

end Reader

theorem parse_renderAll {nodes : List Node} (h : AllPrintable nodes) :
    parse (renderAll 0 nodes) = .ok (printedAll nodes) := by
  obtain ⟨r, ws, hws, hread, adds⟩ := Reader.renderAll_printed nodes 0 h {} [] [] (by simp) rfl rfl
  obtain ⟨place, hspaces⟩ :=
    Reader.read_spaces (r := r) ws [] hws (by simp) adds.pending adds.brackets
  rw [List.nil_append, List.append_nil] at hread
  rw [Reader.parse_eq_read, hread, hspaces, Reader.read_nil]
  have hnodes : r.nodes = (printedAll nodes).reverse := by simpa using adds.nodes
  have hlevels : r.levels = [] := adds.levels
  change Reader.finish { r with place } = .ok (printedAll nodes)
  simp [Reader.finish, Reader.settle, adds.pending, Except.map, hlevels, hnodes, Reader.closeAll]

end UtilityCss
