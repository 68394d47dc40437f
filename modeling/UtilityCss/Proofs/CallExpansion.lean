import UtilityCss.Proofs.ApplyExpansion

/-!
Expanding theme calls. A text whose calls are closed and stand apart from what follows them holds no
call once they are expanded. The variables of the theme and the rules of class names are put into
the tree as they are, so what they hold stays.
-/
namespace UtilityCss

namespace ThemeCall

variable {inName : Bool} {cs cs' before behind : List Char}

/-- A call stands in a text: an opening that is not the end of a longer name, and a parenthesis that
closes it. -/
def Occurs (cs : List Char) : Prop :=
  ∃ before behind, cs = before ++ opening ++ behind ∧
    (∀ c ∈ before.getLast?, isNamePart c = false) ∧ (close? 0 none behind).isSome

/-- No name reaches from one text into another: the first ends outside of a name, or the second
begins with what neither goes on with a name nor opens a call. -/
def Apart (cs cs' : List Char) : Prop :=
  (∀ c ∈ cs.getLast?, isNamePart c = false) ∨ ∀ c ∈ cs'.head?, isNamePart c = false ∧ c ≠ '('

/-! ### Texts without an opening -/

theorem find?_cons_eq_none {c : Char} : find? inName (c :: cs) = none ↔
    (inName = false → ¬opening <+: c :: cs) ∧ find? (isNamePart c) cs = none := by
  rw [find?]
  split
  next h =>
    rw [Bool.and_eq_true, List.isPrefixOf_iff_prefix, Bool.not_eq_true'] at h
    simp [h]
  next h =>
    rw [Bool.and_eq_true, List.isPrefixOf_iff_prefix, Bool.not_eq_true', not_and] at h
    simpa using fun _ => h

theorem find?_eq_none_mono (h : find? false cs = none) : find? inName cs = none := by
  cases cs with
  | nil => rfl
  | cons c cs =>
    rw [find?_cons_eq_none] at h ⊢
    exact ⟨fun _ => h.1 rfl, h.2⟩

theorem getLast?_cons_of_ne_nil {c : Char} (h : cs ≠ []) : (c :: cs).getLast? = cs.getLast? := by
  obtain ⟨d, ds, rfl⟩ := List.exists_cons_of_ne_nil h
  exact List.getLast?_cons_cons

theorem find?_ne_none (hlast : ∀ c ∈ before.getLast?, isNamePart c = false)
    (hname : before = [] → inName = false) : find? inName (before ++ opening ++ behind) ≠ none := by
  -- the name that may end before the text is told apart as in the search
  induction before generalizing inName with
  | nil =>
    intro h
    exact (find?_cons_eq_none.1 h).1 (hname rfl) (List.prefix_append opening behind)
  | cons c before ih =>
    intro h
    have hnext : ∀ d ∈ before.getLast?, isNamePart d = false := by
      intro d hd
      by_cases hnil : before = []
      · simp [hnil] at hd
      · exact hlast d (getLast?_cons_of_ne_nil hnil ▸ hd)
    refine ih hnext (fun hnil => ?_) (find?_cons_eq_none.1 h).2
    exact hlast c (by simp [hnil])

theorem not_occurs_of_find? (h : find? false cs = none) : ¬Occurs cs := by
  rintro ⟨before, behind, rfl, hlast, -⟩
  exact find?_ne_none hlast (fun _ => rfl) h

theorem not_opening_append {c : Char} (happart : Apart (c :: cs) cs')
    (h : ¬opening <+: c :: cs) : ¬opening <+: c :: cs ++ cs' := by
  intro hopening
  rcases List.prefix_or_prefix_of_prefix hopening (List.prefix_append (c :: cs) cs') with
    hleft | ⟨tail, htail⟩
  · exact h hleft
  · -- the opening is divided into the whole first text and the beginning of the second
    obtain ⟨d, ds, rfl⟩ : ∃ d ds, tail = d :: ds := by
      refine List.exists_cons_of_ne_nil fun hnil => h ?_
      rw [← htail, hnil, List.append_nil]
    rcases happart with hlast | hhead
    · have hname : ∀ x ∈ opening.dropLast, isNamePart x = true := by simp [opening, isNamePart]
      have hmem : (c :: cs).getLast (by simp) ∈ opening.dropLast := by
        rw [← htail, List.dropLast_append_of_ne_nil (by simp)]
        exact List.mem_append_left _ (List.getLast_mem _)
      have hend := hlast _ (List.getLast?_eq_some_getLast (by simp))
      rw [hname _ hmem] at hend
      cases hend
    · have hpart : ∀ x ∈ opening, isNamePart x = true ∨ x = '(' := by simp [opening, isNamePart]
      rw [← htail, List.prefix_append_right_inj] at hopening
      obtain ⟨rest, rfl⟩ := hopening
      obtain ⟨hname, hparen⟩ := hhead d rfl
      rcases hpart d (htail ▸ by simp) with hd | hd
      · rw [hd] at hname
        cases hname
      · exact hparen hd

theorem find?_append (h : find? inName cs = none) (h' : find? false cs' = none)
    (happart : Apart cs cs') : find? inName (cs ++ cs') = none := by
  induction cs generalizing inName with
  | nil => exact find?_eq_none_mono h'
  | cons c cs ih =>
    obtain ⟨hopening, hrest⟩ := find?_cons_eq_none.1 h
    rw [List.cons_append, find?_cons_eq_none]
    refine ⟨fun hname => not_opening_append happart (hopening hname), ?_⟩
    by_cases hnil : cs = []
    · subst hnil
      exact find?_eq_none_mono h'
    · refine ih hrest ?_
      rwa [Apart, getLast?_cons_of_ne_nil hnil] at happart

theorem find?_before (h : find? inName cs = some (before, behind)) :
    cs = before ++ opening ++ behind ∧ find? inName before = none ∧ (before = [] → inName = false) ∧
      ∀ c ∈ before.getLast?, isNamePart c = false := by
  induction cs generalizing inName before with
  | nil => simp [find?] at h
  | cons c cs ih =>
    rw [find?] at h
    split at h
    next hopening =>
      cases h
      rw [Bool.and_eq_true, List.isPrefixOf_iff_prefix, Bool.not_eq_true'] at hopening
      obtain ⟨rest, hrest⟩ := hopening.2
      refine ⟨?_, rfl, fun _ => hopening.1, by simp⟩
      rw [← hrest]
      rw [opening, List.cons_append, List.cons.injEq] at hrest
      rw [← hrest.2]
      rfl
    next hopening =>
      obtain ⟨⟨before', behind'⟩, hfind, heq⟩ := Option.map_eq_some_iff.1 h
      cases heq
      obtain ⟨hcs, hbefore, hname, hlast⟩ := ih hfind
      refine ⟨by rw [hcs]; rfl, find?_cons_eq_none.2 ⟨fun hname hbare => ?_, hbefore⟩, by simp, ?_⟩
      · refine hopening ?_
        rw [hname, Bool.not_false, Bool.true_and, List.isPrefixOf_iff_prefix]
        exact hbare.trans ⟨opening ++ behind, by rw [hcs]; simp⟩
      · by_cases hnil : before' = []
        · subst hnil
          intro d hd
          cases hd
          exact hname rfl
        · rwa [getLast?_cons_of_ne_nil hnil]

/-! ### Expanded texts -/

/-- The calls of a text are all closed, each is followed by the end of the text or by what keeps a
name apart, and what stands in their places can be expanded in the same way. -/
inductive Spaced : List Char → Prop
  | plain {cs : List Char} (h : next cs = .plain) : Spaced cs
  | call {cs : List Char} {c : ThemeCall} (h : next cs = .call c)
      (alpha : ∀ alpha, c.alpha = some alpha → find? false (percentOf alpha).toList = none)
      (fallback : ∀ fallback, c.fallback = some fallback → Spaced fallback.toList)
      (apart : ∀ x ∈ c.rest.head?, isNamePart x = false ∧ x ≠ '(')
      (rest : Spaced c.rest) : Spaced cs

theorem next_call {c : ThemeCall} (h : next cs = .call c) :
    ∃ behind, find? false cs = some (c.before, behind) := by
  unfold next at h
  split at h
  · cases h
  next before behind hfind =>
    split at h
    · cases h
    · cases h
      exact ⟨behind, hfind⟩

theorem find?_of_next_plain (h : next cs = .plain) : find? false cs = none := by
  unfold next at h
  split at h
  · assumption
  · split at h <;> cases h

theorem find?_withOpacity {c : ThemeCall} {value : List Char}
    (halpha : ∀ alpha, c.alpha = some alpha → find? false (percentOf alpha).toList = none)
    (h : find? false value = none) : find? false (c.withOpacity value) = none := by
  unfold withOpacity
  split
  next alpha heq =>
    unfold withAlpha
    split
    · simpa using h
    · have hmix : find? false "color-mix(in oklab, ".toList = none := by decide +kernel
      have hblank : find? false " ".toList = none := by decide +kernel
      have hend : find? false ", transparent)".toList = none := by decide +kernel
      have hcolor := find?_append hmix h (.inl (by simp [isNamePart]))
      have hopacity := find?_append hblank (halpha alpha heq) (.inl (by simp [isNamePart]))
      have hboth := find?_append hcolor hopacity (.inr (by simp [isNamePart]))
      have hwhole := find?_append hboth hend (.inr (by simp [isNamePart]))
      simpa only [String.toList_append, String.toList_ofList, List.append_assoc] using hwhole
  next => exact h

end ThemeCall

namespace Theme

open ThemeCall

variable {t : Theme} {chain : List String} {cs out : List Char}

theorem expandCalls_plain (h : next cs = .plain) : t.expandCalls chain cs = .ok cs := by
  rw [expandCalls]
  split <;> simp_all

theorem expandCalls_unclosed {before : List Char} (h : next cs = .unclosed before) :
    t.expandCalls chain cs = .ok (before ++ cs) := by
  rw [expandCalls]
  split <;> simp_all

/-- What is put for a call before the calls in it are expanded: the value of the variable that its
path names, or else the fallback. -/
def source? (t : Theme) (c : ThemeCall) : Option (List Char) :=
  match t.pathKey? c.path with
  | some key => some ((t.get? key).getD "").toList
  | none => c.fallback.map String.toList

/-- The expanded text in the place of a call. A fallback is not given the opacity. -/
def finish (t : Theme) (c : ThemeCall) (out : List Char) : List Char :=
  if (t.pathKey? c.path).isSome then c.withOpacity out else out

def repeated? (t : Theme) (chain : List String) (c : ThemeCall) : Option String :=
  (t.pathKey? c.path).filter chain.contains

def chainOf (t : Theme) (chain : List String) (c : ThemeCall) : List String :=
  (t.pathKey? c.path).toList ++ chain

def callValue (t : Theme) (chain : List String) (c : ThemeCall) : Except Error (List Char) :=
  match t.repeated? chain c, t.source? c with
  | some key, _ => .error (.circularThemeCall key)
  | none, some source => (t.expandCalls (t.chainOf chain c) source).map (t.finish c)
  | none, none => .error (.unresolvedThemeCall (Text.trim (String.ofList c.arguments)))

theorem expandCalls_eq_bind {c : ThemeCall} (h : next cs = .call c) :
    t.expandCalls chain cs = (do
      let value ← t.callValue chain c
      let others ← t.expandCalls chain c.rest
      return c.before ++ value ++ others) := by
  rw [expandCalls]
  split
  next hplain => rw [hplain] at h; cases h
  next hunclosed => rw [hunclosed] at h; cases h
  next c' hcall =>
    rw [hcall] at h
    cases h
    congr 1
    dsimp only [callValue, repeated?, source?, chainOf]
    split
    next key hkey =>
      have hfinish : t.finish c = c.withOpacity := by
        funext out
        simp [finish, hkey]
      rw [hfinish]
      by_cases hmem : key ∈ chain
      · have hrepeated : (some key).filter chain.contains = some key := by simpa using hmem
        simp [hkey, hrepeated, hmem]
      · have hnew : (some key).filter chain.contains = none := by simpa using hmem
        simp [hkey, hnew, hmem]
    next hkey =>
      have hfinish : t.finish c = id := by
        funext out
        simp [finish, hkey]
      rw [hfinish]
      split <;> simp_all [Except.map_id]

theorem expandCalls_induction {motive : List String → List Char → Prop}
    (plain : ∀ chain cs, next cs = .plain → motive chain cs)
    (unclosed : ∀ chain cs before, next cs = .unclosed before → motive chain cs)
    (call : ∀ chain cs c, next cs = .call c →
      (∀ source, t.source? c = some source → t.repeated? chain c = none →
        motive (t.chainOf chain c) source) →
      motive chain c.rest → motive chain cs) (chain : List String) (cs : List Char) :
    motive chain cs := by
  induction chain, cs using expandCalls.induct t with
  | case1 chain cs hplain => exact plain chain cs hplain
  | case2 chain cs before hunclosed => exact unclosed chain cs before hunclosed
  | case3 chain cs c hcall ihvalue ihfallback ihrest =>
    refine call chain cs c hcall (fun source hsource hnew => ?_) ihrest
    rw [source?] at hsource
    rw [repeated?] at hnew
    rw [chainOf]
    cases hkey : t.pathKey? c.path with
    | some key =>
      rw [hkey] at hsource hnew
      obtain rfl := Option.some.inj hsource
      exact ihvalue key hkey (by simpa using hnew)
    | none =>
      rw [hkey] at hsource
      obtain ⟨fallback, hfallback, rfl⟩ := Option.map_eq_some_iff.1 hsource
      exact ihfallback fallback hfallback

theorem callValue_eq_ok {c : ThemeCall} {value : List Char} :
    t.callValue chain c = .ok value ↔
      ∃ source inner, t.repeated? chain c = none ∧ t.source? c = some source ∧
        t.expandCalls (t.chainOf chain c) source = .ok inner ∧ value = t.finish c inner := by
  rw [callValue]
  split
  next hrepeated => simp [hrepeated]
  next source hnew hsource =>
    constructor
    · intro hvalue
      obtain ⟨inner, hinner, rfl⟩ := Except.exists_of_map hvalue
      exact ⟨source, inner, hnew, hsource, hinner, rfl⟩
    · rintro ⟨source', inner, -, hsource', hinner, rfl⟩
      rw [hsource] at hsource'
      cases hsource'
      rw [hinner]
      rfl
  next hnew hsource => simp [hsource]

theorem expandCalls_call {c : ThemeCall} (h : next cs = .call c) :
    t.expandCalls chain cs = .ok out ↔
      ∃ value others, t.callValue chain c = .ok value ∧ t.expandCalls chain c.rest = .ok others ∧
        out = c.before ++ value ++ others := by
  rw [expandCalls_eq_bind h]
  constructor
  · intro hout
    obtain ⟨value, hvalue, hout⟩ := Except.exists_of_bind hout
    obtain ⟨others, hothers, hout⟩ := Except.exists_of_bind hout
    exact ⟨value, others, hvalue, hothers, (Except.ok.inj hout).symm⟩
  · rintro ⟨value, others, hvalue, hothers, rfl⟩
    rw [hvalue, hothers]
    rfl

/-- What is expanded begins as the text does, where the text does not begin with a name. -/
theorem head?_expandCalls (h : Spaced cs) (hhead : ∀ x ∈ cs.head?, isNamePart x = false ∧ x ≠ '(')
    (hout : t.expandCalls chain cs = .ok out) : out.head? = cs.head? := by
  cases h with
  | plain hplain =>
    rw [expandCalls_plain hplain] at hout
    cases hout
    rfl
  | @call _ c hcall _ _ _ _ =>
    obtain ⟨value, others, -, -, rfl⟩ := (expandCalls_call hcall).1 hout
    obtain ⟨behind, hfind⟩ := next_call hcall
    obtain ⟨hcs, -⟩ := find?_before hfind
    have hbefore : c.before ≠ [] := by
      intro hnil
      rw [hcs, hnil] at hhead
      have hname := (hhead 't' rfl).1
      simp [isNamePart] at hname
    obtain ⟨x, xs, hx⟩ := List.exists_cons_of_ne_nil hbefore
    rw [hcs, hx]
    rfl

private theorem spaced_get? (ht : ∀ entry ∈ t.entries, Spaced entry.2.value.toList) (key : String) :
    Spaced ((t.get? key).getD "").toList := by
  rw [get?, entry?]
  cases hentry : t.entries.lookup key with
  | none => exact .plain rfl
  | some entry =>
    obtain ⟨l₁, l₂, heq, -⟩ := List.lookup_eq_some_iff.1 hentry
    exact ht (key, entry) (heq ▸ by simp)

private theorem spaced_source {c : ThemeCall} {source : List Char}
    (ht : ∀ entry ∈ t.entries, Spaced entry.2.value.toList)
    (hfallback : ∀ fallback, c.fallback = some fallback → Spaced fallback.toList)
    (h : t.source? c = some source) : Spaced source := by
  rw [source?] at h
  split at h
  next key _ => exact Option.some.inj h ▸ spaced_get? ht key
  next =>
    obtain ⟨fallback, heq, rfl⟩ := Option.map_eq_some_iff.1 h
    exact hfallback fallback heq

private theorem find?_finish {c : ThemeCall} {inner : List Char}
    (halpha : ∀ alpha, c.alpha = some alpha → find? false (percentOf alpha).toList = none)
    (h : find? false inner = none) : find? false (t.finish c inner) = none := by
  rw [finish]
  split
  · exact find?_withOpacity halpha h
  · exact h

theorem find?_expandCalls (ht : ∀ entry ∈ t.entries, Spaced entry.2.value.toList) (h : Spaced cs)
    (hout : t.expandCalls chain cs = .ok out) : find? false out = none := by
  induction chain, cs using expandCalls_induction (t := t) generalizing out with
  | plain chain cs hplain =>
    rw [expandCalls_plain hplain] at hout
    cases hout
    exact find?_of_next_plain hplain
  | unclosed chain cs before hunclosed => cases h <;> simp_all
  | call chain cs c hcall ihsource ihrest =>
    cases h with
    | plain hplain => simp_all
    | call hcall' halpha hfallback hapart hrest =>
      rw [hcall] at hcall'
      cases hcall'
      obtain ⟨value, others, hvalue, hothers, rfl⟩ := (expandCalls_call hcall).1 hout
      obtain ⟨source, inner, hnew, hsource, hinner, rfl⟩ := callValue_eq_ok.1 hvalue
      obtain ⟨behind, hfind⟩ := next_call hcall
      obtain ⟨-, hbefore, -, hlast⟩ := find?_before hfind
      have hspaced := spaced_source ht hfallback hsource
      have hclear : find? false (t.finish c inner) = none :=
        find?_finish halpha (ihsource source hsource hnew hspaced hinner)
      -- both joints are safe: no name ends before the call, and none goes on behind it
      refine find?_append (find?_append hbefore hclear (.inl hlast))
        (ihrest hrest hothers) (.inr ?_)
      rwa [head?_expandCalls hrest hapart hothers]

end Theme

/-! ### The texts of a tree -/

mutual

def Node.callTexts : Node → List String
  | .declaration _ value _ => value.toList
  | .atRule name params nodes =>
    (if callAtRules.contains name then [params] else []) ++ allCallTexts nodes
  | .rule _ nodes => allCallTexts nodes
  | .context _ nodes => allCallTexts nodes
  | .atRoot nodes => allCallTexts nodes
  | .comment _ => []

def allCallTexts : List Node → List String
  | [] => []
  | n :: ns => n.callTexts ++ allCallTexts ns

end

@[simp] theorem allCallTexts_append (nodes nodes' : List Node) :
    allCallTexts (nodes ++ nodes') = allCallTexts nodes ++ allCallTexts nodes' := by
  induction nodes with
  | nil => rfl
  | cons n ns ih => simp [allCallTexts, ih]

theorem Except.mapM_append {ε α β : Type} {f : α → Except ε β} {xs ys : List α} {xs' ys' : List β}
    (hxs : xs.mapM f = .ok xs') (hys : ys.mapM f = .ok ys') :
    (xs ++ ys).mapM f = .ok (xs' ++ ys') := by
  rw [List.mapM_append, hxs, hys]
  rfl

mutual

theorem Node.callTexts_expandCalls {t : Theme} : ∀ {node node' : Node},
    node.expandCalls t = .ok node' → node.callTexts.mapM t.expandText = .ok node'.callTexts
  | .declaration property none important, node', heq => by
    rw [Node.expandCalls] at heq
    cases heq
    rfl
  | .declaration property (some value) important, node', heq => by
    rw [Node.expandCalls] at heq
    obtain ⟨value', hvalue, heq⟩ := Except.exists_of_bind heq
    cases heq
    simp [Node.callTexts, hvalue]
  | .atRule name params nodes, node', heq => by
    rw [Node.expandCalls] at heq
    dsimp only at heq
    rw [Node.callTexts]
    split at heq
    next hname =>
      obtain ⟨params', hparams, heq⟩ := Except.exists_of_bind heq
      obtain ⟨nodes', hnodes, heq⟩ := Except.exists_of_bind heq
      cases heq
      rw [Node.callTexts, if_pos hname, if_pos hname]
      exact Except.mapM_append (by simp [hparams]) (callTexts_expandAllCalls hnodes)
    next hname =>
      obtain ⟨_, hparams, heq⟩ := Except.exists_of_bind heq
      cases hparams
      obtain ⟨nodes', hnodes, heq⟩ := Except.exists_of_bind heq
      cases heq
      rw [Node.callTexts, if_neg hname]
      exact callTexts_expandAllCalls hnodes
  | .rule selector nodes, node', heq => by
    rw [Node.expandCalls] at heq
    obtain ⟨nodes', hnodes, rfl⟩ := Except.exists_of_map heq
    exact callTexts_expandAllCalls hnodes
  | .context entries nodes, node', heq => by
    rw [Node.expandCalls] at heq
    obtain ⟨nodes', hnodes, rfl⟩ := Except.exists_of_map heq
    exact callTexts_expandAllCalls hnodes
  | .atRoot nodes, node', heq => by
    rw [Node.expandCalls] at heq
    obtain ⟨nodes', hnodes, rfl⟩ := Except.exists_of_map heq
    exact callTexts_expandAllCalls hnodes
  | .comment text, node', heq => by
    rw [Node.expandCalls] at heq
    cases heq
    rfl

theorem callTexts_expandAllCalls {t : Theme} : ∀ {nodes nodes' : List Node},
    expandAllCalls t nodes = .ok nodes' →
      (allCallTexts nodes).mapM t.expandText = .ok (allCallTexts nodes')
  | [], nodes', heq => by
    rw [expandAllCalls] at heq
    cases heq
    rfl
  | n :: ns, nodes', heq => by
    rw [expandAllCalls] at heq
    obtain ⟨first, hfirst, heq⟩ := Except.exists_of_bind heq
    obtain ⟨rest, hrest, heq⟩ := Except.exists_of_bind heq
    cases heq
    exact Except.mapM_append (Node.callTexts_expandCalls hfirst) (callTexts_expandAllCalls hrest)

end

theorem Node.exists_callTexts_inside {node : Node} {children : List Node}
    (h : node.children? = some children) :
    ∃ own, ∀ f, (node.inside f).callTexts = own ++ allCallTexts (f children) := by
  cases node with
  | declaration | comment => simp [Node.children?] at h
  | atRule name params nodes =>
    cases h
    exact ⟨if callAtRules.contains name then [params] else [], fun f => rfl⟩
  | rule | context | atRoot =>
    cases h
    exact ⟨[], fun f => rfl⟩

theorem Address.exists_callTexts_modify {address : Address} {nodes : List Node} {target : Node}
    (h : address.get? nodes = some target) :
    ∃ before behind, ∀ f,
      allCallTexts (address.modify f nodes) = before ++ (f target).callTexts ++ behind := by
  have hlist : ∀ {i : Nat} {nodes : List Node} {node : Node}, nodes[i]? = some node →
      ∃ before behind, ∀ g, allCallTexts (nodes.modify i g) =
        before ++ (g node).callTexts ++ behind := by
    intro i nodes node hnode
    refine ⟨allCallTexts (nodes.take i), allCallTexts (nodes.drop (i + 1)), fun g => ?_⟩
    obtain ⟨hlt, rfl⟩ := List.getElem?_eq_some_iff.1 hnode
    rw [List.modify_eq_take_cons_drop hlt]
    simp [allCallTexts]
  match address with
  | [] => cases h
  | [i] => exact hlist h
  | i :: j :: rest =>
    -- the texts around the target: those beside its ancestors, level by level
    obtain ⟨parent, hparent, h⟩ := Option.bind_eq_some_iff.1 h
    obtain ⟨children, hchildren, h⟩ := Option.bind_eq_some_iff.1 h
    obtain ⟨before, behind, hlist⟩ := hlist hparent
    obtain ⟨own, hown⟩ := Node.exists_callTexts_inside hchildren
    obtain ⟨before', behind', hinside⟩ := Address.exists_callTexts_modify h
    refine ⟨before ++ own ++ before', behind' ++ behind, fun f => ?_⟩
    rw [modify_cons_cons, hlist, hown, hinside]
    simp

theorem Address.exists_callTexts {address : Address} {nodes : List Node} {target : Node}
    (h : address.get? nodes = some target) :
    ∃ before behind, allCallTexts nodes = before ++ target.callTexts ++ behind ∧
      ∀ f, allCallTexts (address.modify f nodes) = before ++ (f target).callTexts ++ behind := by
  obtain ⟨before, behind, hmodify⟩ := Address.exists_callTexts_modify h
  refine ⟨before, behind, ?_, hmodify⟩
  have hself := hmodify id
  rwa [Address.modify_eq_self (f := id) fun _ _ => rfl] at hself

/-! ### The compiled stylesheet -/

def CallFree (nodes : List Node) : Prop :=
  ∀ s ∈ allCallTexts nodes, ¬ThemeCall.Occurs s.toList

section Compiled

variable {css : String} {options : CompileOptions}

private theorem callFree_placeTheme {t : Theme} {nodes : List Node} (h : CallFree nodes) :
    CallFree (placeTheme t nodes) ↔
      ((Address.find? (Node.isPlaceholder themeKey) nodes).isSome → CallFree t.nodes) := by
  unfold placeTheme
  split
  next hnone => simpa [hnone] using h
  next address haddress =>
    obtain ⟨target, hget, hplaceholder⟩ := Address.get?_of_find? haddress
    cases target with
    | context entries inner =>
      obtain ⟨before, behind, hself, htexts⟩ := Address.exists_callTexts hget
      simp only [CallFree, hself, Node.callTexts, List.forall_mem_append] at h
      simp only [CallFree, htexts, Node.mapChildren?, Node.children?, Node.withChildren,
        Option.map_some, Option.getD_some, Node.callTexts, allCallTexts_append,
        List.forall_mem_append, haddress,
        Option.isSome_some, true_imp_iff]
      tauto
    | _ => simp [Node.isPlaceholder] at hplaceholder

theorem Compiler.Ready.callFree_placed {c : Compiler} (h : c.Ready) (raws : List String) :
    CallFree (c.placed raws) ↔
      CallFree c.tree ∧ (c.site.isSome → CallFree (c.system.generate raws).rules) := by
  unfold Compiler.placed
  split
  next hsite => simp [hsite]
  next address hsite =>
    obtain ⟨entries, hget, -⟩ := h.site_empty hsite
    obtain ⟨before, behind, hself, htexts⟩ := Address.exists_callTexts hget
    simp only [CallFree, htexts, hself, Node.withChildren, Node.callTexts, allCallTexts,
      List.forall_mem_append, List.append_nil, hsite]
    tauto

/-- The texts that are expanded, and the variables they may name, are spaced. -/
structure Compilation.IsSpaced (r : Compilation css options) : Prop where
  theme : ∀ entry ∈ r.system.theme.entries, ThemeCall.Spaced entry.2.value.toList
  texts : ∀ s ∈ allCallTexts (replaceDirective .utility [] r.applied), ThemeCall.Spaced s.toList

theorem Compilation.IsSpaced.expanded {r : Compilation css options} (h : r.IsSpaced) :
    CallFree r.expanded := by
  intro s hs
  obtain ⟨s', hs', hexpand⟩ := Except.exists_of_mem_mapM (callTexts_expandAllCalls r.expand_eq) hs
  obtain ⟨out, hout, rfl⟩ := Except.exists_of_map hexpand
  rw [String.toList_ofList]
  exact ThemeCall.not_occurs_of_find? (Theme.find?_expandCalls h.theme (h.texts s' hs') hout)

/-- Calls stay in the compiled tree, whatever is built afterwards, only where the variables of the
theme or the rules of class names hold them. -/
theorem Compilation.calls_eliminated (r : Compilation css options) (h : r.IsSpaced)
    (batches : List (List String)) :
    (compile css options).result = .ok r.compiler ∧
      (CallFree (r.compiler.buildAll batches).tree ↔
        ((Address.find? (Node.isPlaceholder themeKey) r.expanded).isSome →
          CallFree r.system.theme.nodes) ∧
        (r.compiler.site.isSome → CallFree (r.system.generate batches.flatten).rules)) := by
  refine ⟨r.compile_eq, ?_⟩
  rw [r.tree_buildAll, (compile_ready r.compile_eq).callFree_placed]
  exact and_congr_left fun _ => callFree_placeTheme h.expanded

end Compiled

/-! ### A stylesheet with calls, and one whose theme holds one -/

def calledTheme : Theme := { entries := [("--a", ⟨"1px", {}⟩)] }

def calledNodes (width params : String) : List Node :=
  [placeholder themeKey, .rule ".c" [.decl "width" width], .atRule "supports" params [],
    placeholder utilitiesKey]

theorem next_variable :
    ThemeCall.next "theme(--a)".toList = .call ⟨[], "--a".toList, "--a", none, none, []⟩ := by
  cbv

theorem next_fallback : ThemeCall.next "(width: theme(--b, 2px))".toList =
    .call ⟨"(width: ".toList, "--b, 2px".toList, "--b", none, some "2px", [')']⟩ := by
  cbv

theorem callValue_variable :
    calledTheme.callValue [] ⟨[], "--a".toList, "--a", none, none, []⟩ = .ok "1px".toList := by
  have hkey : calledTheme.pathKey? "--a" = some "--a" := by decide +kernel
  refine Theme.callValue_eq_ok.2 ⟨"1px".toList, _, ?_, ?_, Theme.expandCalls_plain rfl, ?_⟩
  · simp [Theme.repeated?, hkey]
  · rw [Theme.source?, hkey]
    rfl
  · simp [Theme.finish, ThemeCall.withOpacity]

private theorem expandText_variable : calledTheme.expandText "theme(--a)" = .ok "1px" := by
  have hcalls : calledTheme.expandCalls [] "theme(--a)".toList = .ok "1px".toList :=
    (Theme.expandCalls_call next_variable).2
      ⟨_, [], callValue_variable, Theme.expandCalls_plain rfl, rfl⟩
  rw [Theme.expandText, hcalls]
  rfl

private theorem expandText_fallback :
    calledTheme.expandText "(width: theme(--b, 2px))" = .ok "(width: 2px)" := by
  have hkey : calledTheme.pathKey? "--b" = none := by decide +kernel
  have hvalue : calledTheme.callValue []
      ⟨"(width: ".toList, "--b, 2px".toList, "--b", none, some "2px", [')']⟩ =
        .ok "2px".toList := by
    refine Theme.callValue_eq_ok.2 ⟨"2px".toList, _, ?_, ?_, Theme.expandCalls_plain rfl, ?_⟩
    · simp [Theme.repeated?, hkey]
    · rw [Theme.source?, hkey]
      rfl
    · simp [Theme.finish, ThemeCall.withOpacity]
  have hcalls : calledTheme.expandCalls [] "(width: theme(--b, 2px))".toList =
      .ok "(width: 2px)".toList :=
    (Theme.expandCalls_call next_fallback).2 ⟨_, [')'], hvalue, Theme.expandCalls_plain rfl, rfl⟩
  rw [Theme.expandText, hcalls]
  rfl

def calledRun : Compilation
    ("@theme \x7b --a: 1px; \x7d .c \x7b width: theme(--a); \x7d @supports (width: theme(--b, 2px)); " ++
      "@tailwind utilities;")
    { base := ⟨"/"⟩ } :=
  let parsed : List Node :=
    [.atRule "theme" "" [.decl "--a" "1px"], .rule ".c" [.decl "width" "theme(--a)"],
      .atRule "supports" "(width: theme(--b, 2px))" [], .atRule "tailwind" "utilities" []]
  let nodes := calledNodes "theme(--a)" "(width: theme(--b, 2px))"
  let collected : Collected :=
    { theme := calledTheme, themePlaced := true, utilitiesPlaced := true }
  .plain parsed nodes (calledNodes "1px" "(width: 2px)") collected (by cbv) (by cbv) (by cbv)
    (by
      have hparams : ThemeParams.parse "" = .ok {} := by cbv
      have hadd : Theme.add {} "--a" "1px" {} = .ok calledTheme := rfl
      have hvariable : Text.startsWith "--" "--a" = true := rfl
      have htheme : Directive.ofName "theme" = .theme := by decide
      have hsupports : Directive.ofName "supports" = .other := by decide
      have htailwind : Directive.ofName "tailwind" = .tailwind := by decide
      have hplace : Text.trim "utilities" = "utilities" := by cbv
      simp [collect, walkExcept, walk, walkFrom, walkNode, Collected.visit, Collected.addTheme,
        Collected.placeUtilities, hparams, htheme, hsupports, htailwind, hplace, Walked.ofAnswer,
        Theme.addNode, Node.decl, hadd, hvariable, bind, Except.bind, pure, Except.pure, Except.map,
        Node.withChildren, parsed, nodes, calledNodes, collected])
    rfl rfl rfl
    (by
      have hkept : replaceDirective .utility [] nodes = nodes := rfl
      have htheme : (collected.system false).theme = calledTheme := rfl
      rw [hkept, htheme]
      simp [nodes, calledNodes, placeholder, expandAllCalls, Node.expandCalls,
        Node.decl, callAtRules, expandText_variable, expandText_fallback, bind, Except.bind,
        Except.map, pure, Except.pure])

theorem calledRun_isSpaced : calledRun.IsSpaced where
  theme := by
    intro entry hentry
    obtain rfl := List.mem_singleton.1 hentry
    exact .plain rfl
  texts := by
    have htexts : allCallTexts (replaceDirective .utility [] calledRun.applied) =
        ["theme(--a)", "(width: theme(--b, 2px))"] := rfl
    rw [htexts]
    simp only [List.forall_mem_cons]
    refine ⟨.call next_variable (by simp) (by simp) (by simp) (.plain rfl), ?_, by simp⟩
    refine .call next_fallback (by simp) ?_ ?_ (.plain rfl)
    · rintro _ ⟨⟩
      exact .plain rfl
    · rintro _ ⟨⟩
      exact ⟨rfl, by decide⟩

theorem Compilation.calls_eliminated_variable : calledRun.IsSpaced ∧
    CallFree (calledRun.compiler.buildAll [["[a:b]"]]).tree := by
  refine ⟨calledRun_isSpaced, (calledRun.calls_eliminated calledRun_isSpaced _).2.2 ⟨?_, ?_⟩⟩
  · have htexts : allCallTexts calledRun.system.theme.nodes = ["1px"] := rfl
    intro _ s hs
    obtain rfl := List.mem_singleton.1 (htexts ▸ hs)
    exact ThemeCall.not_occurs_of_find? (by decide +kernel)
  · have hrules := (calledRun.system.generate_property rfl rfl rfl).1
    intro _ s hs
    rw [List.flatten_singleton, hrules] at hs
    obtain rfl := List.mem_singleton.1 hs
    exact ThemeCall.not_occurs_of_find? (by decide +kernel)

/-- A call in a variable of the theme stays where the variable is printed. -/
theorem compile_keeps_call : ∃ c,
    (compile "@theme \x7b --a: 1px; --b: theme(--a); \x7d" { base := ⟨"/"⟩ }).result = .ok c ∧
      ¬CallFree c.tree := by
  let parsed : List Node := [.atRule "theme" "" [.decl "--a" "1px", .decl "--b" "theme(--a)"]]
  let collected : Collected :=
    { theme := { entries := [("--a", ⟨"1px", {}⟩), ("--b", ⟨"theme(--a)", {}⟩)] },
      themePlaced := true }
  let run : Compilation "@theme \x7b --a: 1px; --b: theme(--a); \x7d" { base := ⟨"/"⟩ } :=
    .plain parsed [placeholder themeKey] [placeholder themeKey] collected (by cbv) (by cbv) (by cbv)
      (by cbv) rfl rfl rfl rfl
  refine ⟨run.compiler, run.compile_eq, fun h => ?_⟩
  have htexts : allCallTexts run.compiler.tree = ["1px", "theme(--a)"] := rfl
  exact h "theme(--a)" (htexts ▸ by simp) ⟨[], "--a)".toList, rfl, by simp, rfl⟩

end UtilityCss
