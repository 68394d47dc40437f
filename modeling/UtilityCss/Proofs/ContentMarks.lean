import UtilityCss.Proofs.ClassRules
import UtilityCss.Proofs.VariantContent

/-!
What variants do to the content of a rule. They put it into rules and at-rules, maybe together with
declarations of their own, and never look into it. So content that differs in marks of importance
only is treated alike, and what a variant makes of marked content is unmarked only in the
declarations that the variant adds.
-/
namespace UtilityCss

/-! ### Importance -/

mutual

def Node.IsImportant : Node → Prop
  | .declaration _ _ important => important = true
  | .comment _ => True
  | .rule _ nodes => AllImportant nodes
  | .atRule _ _ nodes => AllImportant nodes
  | .context _ nodes => AllImportant nodes
  | .atRoot _ => True

def AllImportant : List Node → Prop
  | [] => True
  | n :: ns => n.IsImportant ∧ AllImportant ns

end

mutual

def Node.decideImportant : (node : Node) → Decidable node.IsImportant
  | .declaration _ _ important => inferInstanceAs (Decidable (important = true))
  | .comment _ => .isTrue trivial
  | .rule _ nodes => decideAllImportant nodes
  | .atRule _ _ nodes => decideAllImportant nodes
  | .context _ nodes => decideAllImportant nodes
  | .atRoot _ => .isTrue trivial

def decideAllImportant : (nodes : List Node) → Decidable (AllImportant nodes)
  | [] => .isTrue trivial
  | n :: ns => @instDecidableAnd _ _ n.decideImportant (decideAllImportant ns)

end

instance (node : Node) : Decidable node.IsImportant := node.decideImportant

instance (nodes : List Node) : Decidable (AllImportant nodes) := decideAllImportant nodes

theorem allImportant_iff {nodes : List Node} : AllImportant nodes ↔ ∀ n ∈ nodes, n.IsImportant := by
  induction nodes with
  | nil => simp [AllImportant]
  | cons n ns ih => simp [AllImportant, ih]

@[simp] theorem allImportant_append {nodes nodes' : List Node} :
    AllImportant (nodes ++ nodes') ↔ AllImportant nodes ∧ AllImportant nodes' := by
  simp only [allImportant_iff, List.forall_mem_append]

@[simp] theorem markAllImportant_append (nodes nodes' : List Node) :
    markAllImportant (nodes ++ nodes') = markAllImportant nodes ++ markAllImportant nodes' := by
  induction nodes with
  | nil => simp [markAllImportant]
  | cons n ns ih => simp [markAllImportant, ih]

theorem markAllImportant_flatMap {α : Type} (f : α → List Node) (xs : List α) :
    markAllImportant (xs.flatMap f) = xs.flatMap fun x => markAllImportant (f x) := by
  induction xs with
  | nil => rfl
  | cons x xs ih => rw [List.flatMap_cons, List.flatMap_cons, markAllImportant_append, ih]

mutual

theorem Node.isImportant_mark : ∀ node : Node, node.markImportant.IsImportant
  | .declaration .. => rfl
  | .comment _ => trivial
  | .rule _ nodes => allImportant_mark nodes
  | .atRule _ _ nodes => allImportant_mark nodes
  | .context _ nodes => allImportant_mark nodes
  | .atRoot _ => trivial

theorem allImportant_mark : ∀ nodes : List Node, AllImportant (markAllImportant nodes)
  | [] => trivial
  | n :: ns => ⟨n.isImportant_mark, allImportant_mark ns⟩

end

mutual

theorem Node.IsImportant.mark : ∀ {node : Node}, node.IsImportant → node.markImportant = node
  | .declaration .., h => by rw [Node.markImportant, show _ = true from h]
  | .comment _, _ => rfl
  | .rule .., h => by rw [Node.markImportant, AllImportant.mark h]
  | .atRule .., h => by rw [Node.markImportant, AllImportant.mark h]
  | .context .., h => by rw [Node.markImportant, AllImportant.mark h]
  | .atRoot _, _ => rfl

theorem AllImportant.mark : ∀ {nodes : List Node}, AllImportant nodes →
    markAllImportant nodes = nodes
  | [], _ => rfl
  | _ :: _, h => by rw [markAllImportant, h.1.mark, AllImportant.mark h.2]

end

theorem markAllImportant_eq_self {nodes : List Node} :
    markAllImportant nodes = nodes ↔ AllImportant nodes :=
  ⟨fun h => h ▸ allImportant_mark nodes, AllImportant.mark⟩

@[simp] theorem markAllImportant_mark (nodes : List Node) :
    markAllImportant (markAllImportant nodes) = markAllImportant nodes :=
  (allImportant_mark nodes).mark

mutual

theorem Node.propertyIndices_mark : ∀ node : Node,
    node.markImportant.propertyIndices = node.propertyIndices
  | .declaration property value important => by
    cases value <;> simp [Node.markImportant, Node.propertyIndices]
  | .comment _ => rfl
  | .rule _ nodes => by
    rw [Node.markImportant, Node.propertyIndices, Node.propertyIndices,
      allPropertyIndices_mark nodes]
  | .atRule _ _ nodes => by
    rw [Node.markImportant, Node.propertyIndices, Node.propertyIndices,
      allPropertyIndices_mark nodes]
  | .context .. => by simp [Node.markImportant, Node.propertyIndices]
  | .atRoot _ => rfl

theorem allPropertyIndices_mark : ∀ nodes : List Node,
    allPropertyIndices (markAllImportant nodes) = allPropertyIndices nodes
  | [] => rfl
  | n :: ns => by
    rw [markAllImportant, allPropertyIndices, allPropertyIndices, n.propertyIndices_mark,
      allPropertyIndices_mark ns]

end

theorem propertySort_mark (nodes : List Node) :
    propertySort (markAllImportant nodes) = propertySort nodes := by
  rw [propertySort, propertySort, allPropertyIndices_mark]

/-! ### Enclosures -/

/-- A way to put content into other nodes that does not look at its marks. -/
structure Enclosure (f : List Node → List Node) : Prop where
  /-- content that differs in its marks only is put into the same nodes -/
  alike : ∀ {content content' : List Node}, markAllImportant content = markAllImportant content' →
    markAllImportant (f content) = markAllImportant (f content')
  /-- what is not important is so by itself or by the content -/
  important : ∀ {content content' : List Node}, (AllImportant content → AllImportant content') →
    AllImportant (f content) → AllImportant (f content')

namespace Enclosure

variable {f g : List Node → List Node}

theorem id : Enclosure fun content => content :=
  ⟨fun h => h, fun h => h⟩

theorem const (nodes : List Node) : Enclosure fun _ => nodes :=
  ⟨fun _ => rfl, fun _ h => h⟩

theorem comp (hg : Enclosure g) (hf : Enclosure f) : Enclosure fun content => g (f content) :=
  ⟨fun h => hg.alike (hf.alike h), fun h => hg.important (hf.important h)⟩

theorem append (hf : Enclosure f) (hg : Enclosure g) :
    Enclosure fun content => f content ++ g content where
  alike h := by rw [markAllImportant_append, markAllImportant_append, hf.alike h, hg.alike h]
  important h hall := by
    rw [allImportant_append] at hall ⊢
    exact ⟨hf.important h hall.1, hg.important h hall.2⟩

theorem rule (selector : String) (hf : Enclosure f) :
    Enclosure fun content => [.rule selector (f content)] where
  alike h := by simp only [markAllImportant, Node.markImportant, hf.alike h]
  important h hall := ⟨hf.important h hall.1, trivial⟩

theorem atRule (name params : String) (hf : Enclosure f) :
    Enclosure fun content => [.atRule name params (f content)] where
  alike h := by simp only [markAllImportant, Node.markImportant, hf.alike h]
  important h hall := ⟨hf.important h hall.1, trivial⟩

theorem context (entries : List (String × String)) (hf : Enclosure f) :
    Enclosure fun content => [.context entries (f content)] where
  alike h := by simp only [markAllImportant, Node.markImportant, hf.alike h]
  important h hall := ⟨hf.important h hall.1, trivial⟩

theorem around (shell : Shell) (hf : Enclosure f) :
    Enclosure fun content => [shell.around (f content)] := by
  cases shell with
  | rule selector => exact hf.rule selector
  | atRule name params => exact hf.atRule name params

theorem nestIn (shells : List Shell) :
    Enclosure fun content => UtilityCss.nestIn shells content := by
  induction shells with
  | nil => exact .id
  | cons shell shells ih => exact ih.around shell

theorem nests (nests : List Nest) :
    Enclosure fun content => nests.map fun nest => nest.around content := by
  induction nests with
  | nil => exact .const []
  | cons nest nests ih => exact ((Enclosure.nestIn nest.inner).around nest.outer).append ih

mutual

theorem fillLeaves : ∀ {node : Node}, node.Has .inline →
    Enclosure fun content => [node.fillLeaves content]
  | .rule selector nodes, h => by
    simp only [Node.fillLeaves]
    split
    · exact Enclosure.id.rule selector
    · exact (fillAllLeaves h).rule selector
  | .atRule name params nodes, h => by
    simp only [Node.fillLeaves]
    split
    · exact Enclosure.id.atRule name params
    · exact (fillAllLeaves h).atRule name params
  | .context entries nodes, h => by
    simp only [Node.fillLeaves]
    exact (fillAllLeaves h.2).context entries
  | .atRoot _, h => h.1.elim
  | .declaration .., _ => by
    simp only [Node.fillLeaves]
    exact .const _
  | .comment _, _ => by
    simp only [Node.fillLeaves]
    exact .const _

theorem fillAllLeaves : ∀ {nodes : List Node}, AllHave .inline nodes →
    Enclosure fun content => UtilityCss.fillAllLeaves content nodes
  | [], _ => .const []
  | _ :: _, h => (fillLeaves h.1).append (fillAllLeaves h.2)

end

mutual

theorem replaced (directive : Directive) : ∀ {node : Node}, node.Has .inline →
    Enclosure fun content => node.replaced directive content
  | .atRule name params nodes, h => by
    simp only [Node.replaced]
    split
    · exact Enclosure.id
    · exact (allReplaced directive h).atRule name params
  | .rule selector nodes, h => by
    simp only [Node.replaced]
    exact (allReplaced directive h).rule selector
  | .context entries nodes, h => by
    simp only [Node.replaced]
    exact (allReplaced directive h.2).context entries
  | .atRoot _, h => h.1.elim
  | .declaration .., _ => by
    simp only [Node.replaced]
    exact .const _
  | .comment _, _ => by
    simp only [Node.replaced]
    exact .const _

theorem allReplaced (directive : Directive) : ∀ {nodes : List Node}, AllHave .inline nodes →
    Enclosure fun content => UtilityCss.allReplaced directive content nodes
  | [], _ => .const []
  | _ :: _, h => (replaced directive h.1).append (allReplaced directive h.2)

end

end Enclosure

/-! ### Variants -/

def Enclosing (apply : Node → Option Node) : Prop :=
  (∀ selector content, apply (.rule selector content) = none) ∨
    ∃ f, Enclosure f ∧
      ∀ selector content, apply (.rule selector content) = some (.rule selector (f content))

namespace Enclosing

theorem mapChildren? {f : List Node → List Node} (hf : Enclosure f) :
    Enclosing fun node => node.mapChildren? f :=
  .inr ⟨f, hf, fun _ _ => rfl⟩

theorem bind {first second : Node → Option Node} (hfirst : Enclosing first)
    (hsecond : Enclosing second) : Enclosing fun node => (first node).bind second := by
  rcases hfirst with hnone | ⟨f, hf, hfirst⟩
  · exact .inl fun selector content => by simp only [hnone, Option.bind_none]
  rcases hsecond with hnone | ⟨g, hg, hsecond⟩
  · exact .inl fun selector content => by simp only [hfirst, Option.bind_some, hnone]
  · exact .inr
      ⟨_, hg.comp hf, fun selector content => by simp only [hfirst, Option.bind_some, hsecond]⟩

end Enclosing

theorem FillsEach.encloses {nests : List Nest} {apply : Node → Option Node}
    (h : FillsEach nests apply) : Enclosing apply :=
  .inr ⟨_, .nests nests, fun selector content => h (.rule selector content)⟩

theorem NestsContent.encloses {ok : String → Prop} {apply : Node → Option Node}
    (h : NestsContent ok apply) : Enclosing apply := by
  rcases h with hnone | ⟨nests, -, -, hfills⟩
  · exact .inl fun selector content => hnone _
  · exact hfills.encloses

namespace VariantRegistry

variable {r : VariantRegistry}

def Encloses (r : VariantRegistry) : Prop :=
  r.Each fun _ d => d.kind ≠ .compound → ∀ v theme, Enclosing fun node => d.apply node v theme

theorem builtin_encloses (theme : Theme) : (builtin theme).Encloses := by
  intro name d hd hne v theme'
  cases builtin_stock theme name d hd with
  | compound hkind _ => exact absurd hkind hne
  | nests _ happly => exact (happly v theme').encloses
  | element _ selector happly _ =>
    rw [happly]
    exact .mapChildren? (((Enclosure.const [_]).append .id).rule selector)

theorem Encloses.ofSelectors (h : r.Encloses) (name : String) (selectors : List String) :
    (r.ofSelectors name selectors).Encloses :=
  Each.set h fun _ _ _ _ => (ofSelectors_fillsEach selectors).encloses

theorem Encloses.ofBody (h : r.Encloses) (name : String) {body : List Node}
    (hbody : AllHave .inline body) : (r.ofBody name body).Encloses := by
  refine Each.set h fun _ _ _ _ =>
    .inr ⟨_, Enclosure.allReplaced .slot hbody, fun selector content => ?_⟩
  simp only [Node.mapChildren?, Node.children?, Option.map_some, Node.withChildren,
    Option.getD_some, replaceDirective_eq]

/-- Putting a variant on a rule puts its content into an enclosure. A compound is built without the
content, which then goes into its leaves. -/
theorem Encloses.applyVariant (h : r.Encloses) (hkeeps : r.Keeps .inline)
    (theme : Theme) {v : Variant}
    (hv : r.Admits v) (depth : Nat) : Enclosing (UtilityCss.applyVariant r theme depth v) := by
  refine applyVariant_induction h (fun _ h => h.encloses) (fun root modifier inner => ?_) hv
  have hs : Shape.inline.Uniform := fun _ h => h
  have hfill : ∀ selector content,
      UtilityCss.applyVariant r theme depth (.compound root modifier inner)
        (.rule selector content) =
        (r.blocks? theme depth (.compound root modifier inner)).map fun blocks =>
          .rule selector (UtilityCss.fillAllLeaves content blocks) := fun selector content =>
    applyVariant_compound_eq_fill r theme depth root modifier inner rfl
  cases hblocks : r.blocks? theme depth (.compound root modifier inner) with
  | none => exact .inl fun selector content => by rw [hfill, hblocks, Option.map_none]
  | some blocks =>
    have hinline : AllHave .inline blocks := by
      obtain ⟨made, hmade, rfl⟩ := Option.map_eq_some_iff.1 hblocks
      have hhas := applyVariant_obeys hs.law hkeeps (Variant.accepted_of_any _) hs.law.slot hmade
      exact allHave_iff.2 (hs.law.inside hhas)
    exact .inr ⟨_, .fillAllLeaves hinline,
      fun selector content => by rw [hfill, hblocks, Option.map_some]⟩

end VariantRegistry

end UtilityCss
