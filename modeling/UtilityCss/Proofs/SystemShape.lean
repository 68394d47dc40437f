import UtilityCss.Proofs.RuleOrder
import UtilityCss.Proofs.TreeLaw

/-!
What the utilities and variants of a design system put into a tree. The built-in utilities make
declarations only, and the built-in variants add rules and at-rules only, so what is generated keeps
every law, and has the shape, of what the stylesheet itself defines.
-/
namespace UtilityCss

/-! ### Utilities -/

def AllDecls (nodes : List Node) : Prop :=
  ∀ n ∈ nodes, ∃ property value, n = .decl property value

theorem AllDecls.has {nodes : List Node} (h : AllDecls nodes) (s : Shape) : AllHave s nodes := by
  rw [allHave_iff]
  intro n hn
  obtain ⟨property, value, rfl⟩ := h n hn
  exact trivial

@[simp] theorem allDecls_nil : AllDecls [] := by
  simp [AllDecls]

@[simp] theorem allDecls_cons_decl {property value : String} {nodes : List Node} :
    AllDecls (.decl property value :: nodes) ↔ AllDecls nodes := by
  simp only [AllDecls, List.forall_mem_cons, and_iff_right_iff_imp]
  intro _
  exact ⟨property, value, rfl⟩

@[simp] theorem allDecls_declareAll (properties : List String) (value : String) :
    AllDecls (declareAll properties value) := by
  intro n hn
  obtain ⟨property, _, rfl⟩ := List.mem_map.1 hn
  exact ⟨property, value, rfl⟩

namespace Utility

def Declares (u : Utility) : Prop :=
  ∀ c theme nodes, u.resolve c theme = some nodes → AllDecls nodes

@[simp] theorem fixed_declares (declarations : List (String × String)) :
    (fixed declarations).Declares := by
  intro c theme nodes h n hn
  cases h
  obtain ⟨⟨property, value⟩, _, rfl⟩ := List.mem_map.1 hn
  exact ⟨property, value, rfl⟩

theorem valued_declares (rule : ValueRule) {declare : String → List Node}
    (hdeclare : ∀ value, AllDecls (declare value)) : (valued rule declare).Declares := by
  intro c theme nodes h
  obtain ⟨value, _, rfl⟩ := Option.map_eq_some_iff.1 h
  exact hdeclare value

@[simp] theorem valued_declareAll (rule : ValueRule) (properties : List String) :
    (valued rule (declareAll properties)).Declares :=
  valued_declares rule (allDecls_declareAll properties)

theorem fontSize_declares {size : String} {lineHeight : Option String} {modifier : Option Modifier}
    {theme : Theme} {nodes : List Node} (h : fontSize size lineHeight modifier theme = some nodes) :
    AllDecls nodes := by
  have hheight : ∀ height : Option String,
      AllDecls (.decl "font-size" size :: (height.map (Node.decl "line-height")).toList) := by
    intro height
    cases height <;> simp
  unfold fontSize at h
  dsimp only at h
  split at h
  all_goals
    obtain ⟨height, _, heq⟩ := Option.bind_eq_some_iff.1 h
    cases heq
    exact hheight height

theorem asColor_declares {color : String} {modifier : Option Modifier} {theme : Theme}
    {property : String} {nodes : List Node}
    (h : (asColor color modifier theme).map (fun color => [Node.decl property color]) =
      some nodes) :
    AllDecls nodes := by
  obtain ⟨value, _, rfl⟩ := Option.map_eq_some_iff.1 h
  simp

@[simp] theorem font_declares : font.Declares := by
  intro c theme nodes h
  simp only [font] at h
  split at h
  · cases h
  split at h
  · split at h <;> cases h <;> simp
  · split at h
    · cases h
      simp
    · obtain ⟨value, _, rfl⟩ := Option.map_eq_some_iff.1 h
      simp
  · cases h

@[simp] theorem text_declares : text.Declares := by
  intro c theme nodes h
  simp only [text] at h
  split at h
  · cases h
  split at h
  · split at h
    · exact fontSize_declares h
    · exact fontSize_declares h
    · exact fontSize_declares h
    · exact fontSize_declares h
    · exact asColor_declares h
  · split at h
    · exact asColor_declares h
    · obtain ⟨⟨size, nested⟩, _, h⟩ := Option.bind_eq_some_iff.1 h
      exact fontSize_declares h
  · cases h

@[simp] theorem content_declares : content.Declares := by
  intro c theme nodes h
  simp only [content] at h
  split at h
  · split at h <;> cases h
    simp
  · cases h

@[simp] theorem background_declares : background.Declares := by
  intro c theme nodes h
  simp only [background] at h
  split at h
  · cases h
  split at h
  · split at h
    · split at h <;> cases h
      simp
    · exact asColor_declares h
  · obtain ⟨color, _, h⟩ := Option.bind_eq_some_iff.1 h
    exact asColor_declares h
  · cases h

@[simp] theorem colored_declares (space property : String) : (colored space property).Declares := by
  intro c theme nodes h
  simp only [colored] at h
  split at h
  · cases h
  split at h
  all_goals
    obtain ⟨color, _, h⟩ := Option.bind_eq_some_iff.1 h
    obtain ⟨color', _, h⟩ := Option.bind_eq_some_iff.1 h
    cases h
    simp

@[simp] theorem line_declares (rule : LineRule) : rule.utility.Declares := by
  intro c theme nodes h
  simp only [LineRule.utility] at h
  have hwide : ∀ width, (if c.modifier?.isSome = true then none
      else some [Node.decl rule.width width]) = some nodes → AllDecls nodes := by
    intro width hwidth
    split at hwidth <;> cases hwidth
    simp
  split at h
  · cases h
  split at h
  · split at h
    · exact hwide _ h
    · exact hwide _ h
    · exact hwide _ h
    · exact asColor_declares h
  · split at h
    · exact asColor_declares h
    · split at h
      · exact hwide _ h
      · cases h
  · cases h

end Utility

def AllDeclare (table : List (String × Utility)) : Prop :=
  ∀ entry ∈ table, entry.2.Declares

@[simp] theorem allDeclare_nil : AllDeclare [] := by
  simp [AllDeclare]

@[simp] theorem allDeclare_cons {entry : String × Utility} {table : List (String × Utility)} :
    AllDeclare (entry :: table) ↔ entry.2.Declares ∧ AllDeclare table := by
  simp [AllDeclare]

@[simp] theorem allDeclare_append {xs ys : List (String × Utility)} :
    AllDeclare (xs ++ ys) ↔ AllDeclare xs ∧ AllDeclare ys := by
  simp only [AllDeclare, List.mem_append, or_imp, forall_and]

theorem allDeclare_flatMap {α : Type} {f : α → List (String × Utility)} {xs : List α}
    (h : ∀ x, AllDeclare (f x)) : AllDeclare (xs.flatMap f) := by
  intro entry hentry
  obtain ⟨x, _, hx⟩ := List.mem_flatMap.1 hentry
  exact h x entry hx

theorem allDeclare_map {α : Type} {f : α → String × Utility} {xs : List α}
    (h : ∀ x, (f x).2.Declares) : AllDeclare (xs.map f) := by
  intro entry hentry
  obtain ⟨x, _, rfl⟩ := List.mem_map.1 hentry
  exact h x

namespace Utility

@[simp] theorem fixedTable_declares (table : List (String × String × String)) :
    AllDeclare (fixedTable table) :=
  allDeclare_map fun _ => fixed_declares _

@[simp] theorem colorKeywords_declare (name property : String) :
    AllDeclare (colorKeywords name property) :=
  allDeclare_map fun _ => fixed_declares _

private theorem layout_declares : AllDeclare layout := by
  have hinsets : AllDeclare insetUtilities := allDeclare_flatMap fun _ => by simp
  have hspan : ∀ rule, (valued rule fun s =>
      [.decl "grid-column" ("span " ++ s ++ " / span " ++ s)]).Declares :=
    fun rule => valued_declares rule fun _ => by simp
  have hgrid : AllDeclare gridUtilities := by simp [gridUtilities, hspan]
  simp [layout, hinsets, hgrid]

private theorem typography_declares : AllDeclare typography := by
  simp [typography]

private theorem spacing_declares : AllDeclare spacing := by
  have hdistance : ∀ space property negative, (distance space property negative).Declares :=
    fun _ _ _ => valued_declareAll _ _
  refine allDeclare_append.2 ⟨allDeclare_append.2 ⟨?_, ?_⟩, ?_⟩
  · exact allDeclare_map fun _ => hdistance _ _ _
  · exact allDeclare_flatMap fun _ => by simp [hdistance]
  · exact allDeclare_map fun _ => hdistance _ _ _

private theorem sizing_declares : AllDeclare sizing := by
  refine allDeclare_flatMap fun rule => allDeclare_append.2 ⟨?_, by simp⟩
  exact allDeclare_map fun _ => fixed_declares _

private theorem paint_declares : AllDeclare paint := by
  refine allDeclare_append.2 ⟨allDeclare_append.2 ⟨by simp, ?_⟩, ?_⟩
  · exact allDeclare_flatMap fun _ => by simp
  · exact allDeclare_flatMap fun rule => by simp [LineRule.utilities]

theorem builtin_declare : AllDeclare UtilityRegistry.builtin.definitions := by
  have heffects : AllDeclare effects := by simp [effects]
  simp only [UtilityRegistry.builtin, allDeclare_append]
  exact ⟨⟨⟨⟨⟨layout_declares, typography_declares⟩, spacing_declares⟩, sizing_declares⟩,
    paint_declares⟩, heffects⟩

end Utility

/-! ### Variants -/

theorem Shape.Uniform.law {s : Shape} (hs : s.Uniform) : TreeLaw (Node.Has s) fun _ => True where
  declaration _ _ _ := trivial
  rule _ _ := allHave_iff
  atRule _ _ _ := by
    rw [true_and]
    exact allHave_iff
  children h hnodes := allHave_iff.1 (h.children hnodes)
  withChildren h hnodes := h.setChildren hs (allHave_iff.2 hnodes)
  accepts _ _ := trivial

theorem Variant.accepted_of_any (v : Variant) : v.Accepted fun _ => True := by
  induction v with
  | arbitrary selector relative => exact Shell.named_true _
  | compound root modifier inner ih => exact ih
  | static root | functional root value modifier => trivial

namespace VariantRegistry

variable {s : Shape} {r : VariantRegistry}

def Keeps (s : Shape) (r : VariantRegistry) : Prop :=
  r.Obeys (Node.Has s)

theorem Keeps.ofSelectors (hs : s.Uniform) (h : r.Keeps s) (name : String)
    (selectors : List String) : (r.ofSelectors name selectors).Keeps s :=
  Obeys.ofSelectors hs.law h name fun _ _ => Shell.named_true _

theorem Keeps.ofBody (hs : s.Uniform) (h : r.Keeps s) (name : String) {body : List Node}
    (hbody : AllHave s body) : (r.ofBody name body).Keeps s :=
  Obeys.ofBody hs.law h name (allHave_iff.1 hbody)

/-- The built-in variants keep every shape in which contexts may stand around anything. -/
theorem builtin_keeps (hs : s.Uniform) (theme : Theme) : (builtin theme).Keeps s :=
  builtin_obeys hs.law theme

end VariantRegistry

section Generated

variable {P : Node → Prop} {ok : String → Prop} {s : Shape} {d : DesignSystem}

namespace DesignSystem

structure Obeys (P : Node → Prop) (d : DesignSystem) : Prop where
  utilities : ∀ entry ∈ d.utilities.definitions, ∀ c theme nodes,
    entry.2.resolve c theme = some nodes → ∀ n ∈ nodes, P n
  variants : d.variants.Obeys P

theorem obeys_ofTheme (law : TreeLaw P ok) (theme : Theme) : (ofTheme theme).Obeys P where
  utilities entry hentry c theme nodes h n hn := by
    obtain ⟨property, value, rfl⟩ := Utility.builtin_declare entry hentry c theme nodes h n hn
    exact law.declaration _ _ _
  variants := by
    rw [variants_ofTheme]
    exact VariantRegistry.builtin_obeys law theme

theorem Obeys.remember (h : d.Obeys P) (important : Bool) (invalid : List String) :
    Obeys P { d with important, invalid } :=
  ⟨h.utilities, h.variants⟩

theorem Obeys.addUtility (h : d.Obeys P) (name : String) {u : Utility}
    (hu : ∀ c theme nodes, u.resolve c theme = some nodes → ∀ n ∈ nodes, P n) :
    (d.addUtility name u).Obeys P where
  utilities entry hentry := by
    rcases List.mem_append.1 hentry with hentry | hentry
    · exact h.utilities entry hentry
    · rw [List.mem_singleton.1 hentry]
      exact hu
  variants := h.variants

theorem mem_ofKind {root : String} {kind : UtilityKind} {u : Utility}
    (h : u ∈ d.utilities.ofKind root kind) : (root, u) ∈ d.utilities.definitions := by
  obtain ⟨h, _⟩ := List.mem_filter.1 h
  obtain ⟨⟨name, u'⟩, hmem, heq⟩ := List.mem_filterMap.1 h
  dsimp only at heq
  split at heq
  next hname =>
    cases heq
    exact hname ▸ hmem
  next => cases heq

theorem Obeys.declarations (law : TreeLaw P ok) (h : d.Obeys P) {c : Candidate} {nodes : List Node}
    (hnodes : nodes ∈ d.declarations c) : ∀ n ∈ nodes, P n := by
  unfold DesignSystem.declarations at hnodes
  split at hnodes
  · obtain ⟨value, _, rfl⟩ := Option.map_eq_some_iff.1 (Option.mem_toList.1 hnodes)
    exact List.forall_mem_singleton.2 (law.declaration _ _ _)
  · obtain ⟨u, hu, hresolve⟩ := List.mem_filterMap.1 hnodes
    exact h.utilities _ (mem_ofKind hu) c d.theme nodes hresolve
  · obtain ⟨u, hu, hresolve⟩ := List.mem_filterMap.1 hnodes
    exact h.utilities _ (mem_ofKind hu) c d.theme nodes hresolve

theorem Obeys.applyVariants (law : TreeLaw P ok) (h : d.Obeys P) {variants : List Variant}
    (hvariants : ∀ v ∈ variants, v.Accepted ok) {node node' : Node} (hnode : P node)
    (happly : d.applyVariants variants node = some node') : P node' := by
  unfold DesignSystem.applyVariants at happly
  induction variants generalizing node with
  | nil =>
    cases happly
    exact hnode
  | cons v vs ih =>
    rw [List.foldlM_cons] at happly
    obtain ⟨first, hfirst, happly⟩ := Option.bind_eq_some_iff.1 happly
    rw [List.forall_mem_cons] at hvariants
    exact ih hvariants.2 (applyVariant_obeys law h.variants hvariants.1 hnode hfirst) happly

theorem Obeys.rulesOf (law : TreeLaw P ok) (h : d.Obeys P) {c : Candidate}
    (hvariants : ∀ v ∈ c.variants, v.Accepted ok) {rule : Node × List Nat}
    (hrule : rule ∈ d.rulesOf c) : P rule.1 := by
  obtain ⟨nodes, hnodes, hmade⟩ := List.mem_filterMap.1 hrule
  obtain ⟨node, hnode, rfl⟩ := Option.map_eq_some_iff.1 hmade
  refine h.applyVariants law hvariants ((law.rule _ _).2 ?_) hnode
  have hdeclared := h.declarations law hnodes
  split
  · exact law.markAllImportant hdeclared
  · exact hdeclared

theorem Obeys.generate (law : TreeLaw P ok) (h : d.Obeys P) {raws : List String}
    (hraws : ∀ raw ∈ raws, ∀ c ∈ d.parse raw, ∀ v ∈ c.variants, v.Accepted ok) :
    ∀ n ∈ (d.generate raws).rules, P n := by
  rw [generate_rules]
  intro n hn
  obtain ⟨r, hr, rfl⟩ := List.mem_map.1 hn
  obtain ⟨hraw, c, hc, hrule⟩ := exists_reading_of_mem_placedRules hr
  exact h.rulesOf law (hraws r.raw hraw c hc) hrule

structure Has (s : Shape) (d : DesignSystem) : Prop where
  utilities : ∀ entry ∈ d.utilities.definitions, ∀ c theme nodes,
    entry.2.resolve c theme = some nodes → AllHave s nodes
  variants : d.variants.Keeps s

theorem Has.obeys (h : d.Has s) : d.Obeys (Node.Has s) where
  utilities entry hentry c theme nodes hnodes :=
    allHave_iff.1 (h.utilities entry hentry c theme nodes hnodes)
  variants := h.variants

theorem has_ofTheme (hs : s.Uniform) (theme : Theme) : (ofTheme theme).Has s where
  utilities entry hentry c theme nodes h :=
    (Utility.builtin_declare entry hentry c theme nodes h).has s
  variants := (obeys_ofTheme hs.law theme).variants

theorem Has.addUtility (h : d.Has s) (name : String) {u : Utility}
    (hu : ∀ c theme nodes, u.resolve c theme = some nodes → AllHave s nodes) :
    (d.addUtility name u).Has s where
  utilities entry hentry := by
    rcases List.mem_append.1 hentry with hentry | hentry
    · exact h.utilities entry hentry
    · rw [List.mem_singleton.1 hentry]
      exact hu
  variants := h.variants

theorem Has.generate (hs : s.Uniform) (h : d.Has s) (raws : List String) :
    AllHave s (d.generate raws).rules :=
  allHave_iff.2 (h.obeys.generate hs.law fun _ _ _ _ v _ => v.accepted_of_any)

end DesignSystem

end Generated

end UtilityCss
