import Mathlib.Data.Fintype.EquivFin
import Mathlib.Logic.Relation
import UtilityCss.Proofs.ApplyMarks
import UtilityCss.Proofs.DefinitionOrder

/-!
Definitions that go around in a circle. A definition is never ready if it lies on a circle of uses
or leads to one, and every other definition is ready in some round. So registering gets stuck
exactly if there is a circle. What it names then is the first definition that leads to one, which
need not lie on it.
-/
namespace UtilityCss

/-! ### Circles -/

section Circles

variable {names : List Node → List String} {pending more : List (String × List Node)}
  {a b : String × List Node}

def Uses (names : List Node → List String) (pending : List (String × List Node))
    (a b : String × List Node) : Prop :=
  a ∈ pending ∧ b ∈ pending ∧ b.1 ∈ names a.2

def OnCircle (names : List Node → List String) (pending : List (String × List Node))
    (a : String × List Node) : Prop :=
  Relation.TransGen (Uses names pending) a a

/-- A definition on a circle, or one that uses such a definition directly or through others. -/
def LeadsToCircle (names : List Node → List String) (pending : List (String × List Node))
    (a : String × List Node) : Prop :=
  ∃ b, Relation.ReflTransGen (Uses names pending) a b ∧ OnCircle names pending b

theorem OnCircle.leads (h : OnCircle names pending a) : LeadsToCircle names pending a :=
  ⟨a, .refl, h⟩

theorem LeadsToCircle.next (h : LeadsToCircle names pending a) :
    ∃ b, Uses names pending a b ∧ LeadsToCircle names pending b := by
  obtain ⟨c, hreach, hcircle⟩ := h
  rcases Relation.ReflTransGen.cases_head hreach with rfl | ⟨b, hab, hbc⟩
  · obtain ⟨b, hab, hba⟩ := Relation.TransGen.head'_iff.1 hcircle
    exact ⟨b, hab, a, hba, hcircle⟩
  · exact ⟨b, hab, c, hbc, hcircle⟩

theorem LeadsToCircle.mem (h : LeadsToCircle names pending a) : a ∈ pending := by
  obtain ⟨b, hab, -⟩ := h.next
  exact hab.1

theorem LeadsToCircle.mono (hsub : pending ⊆ more) (h : LeadsToCircle names pending a) :
    LeadsToCircle names more a := by
  have huses : ∀ x y, Uses names pending x y → Uses names more x y :=
    fun x y hxy => ⟨hsub hxy.1, hsub hxy.2.1, hxy.2.2⟩
  obtain ⟨b, hreach, hcircle⟩ := h
  exact ⟨b, Relation.ReflTransGen.mono huses _ _ hreach, Relation.TransGen.mono huses _ _ hcircle⟩

/-- Among finitely many definitions, those that each use another one of them cannot go on forever.
-/
theorem leadsToCircle_of_next {P : String × List Node → Prop}
    (hnext : ∀ a, P a → ∃ b, P b ∧ Uses names pending a b) (ha : P a) :
    LeadsToCircle names pending a := by
  choose! next hkeeps huses using hnext
  let walk (n : Nat) : String × List Node := next^[n] a
  have hwalk : ∀ n, P (walk n) := by
    intro n
    induction n with
    | zero => exact ha
    | succ n ih => simpa only [walk, Function.iterate_succ_apply'] using hkeeps _ ih
  have hstep : ∀ n, Uses names pending (walk n) (walk (n + 1)) := by
    intro n
    simpa only [walk, Function.iterate_succ_apply'] using huses _ (hwalk n)
  have hreach : ∀ i k, Relation.ReflTransGen (Uses names pending) (walk i) (walk (i + k)) := by
    intro i k
    induction k with
    | zero => exact .refl
    | succ k ih => exact ih.tail (hstep (i + k))
  -- the walk stays among the definitions, so it comes back to one of them
  let place (n : Nat) : {entry // entry ∈ pending} := ⟨walk n, (hstep n).1⟩
  have : Finite {entry // entry ∈ pending} := List.finite_toSet pending
  obtain ⟨i, j, hne, heq⟩ := Finite.exists_ne_map_eq_of_infinite place
  have hback : walk i = walk j := congrArg Subtype.val heq
  have hcircle : ∀ {i j}, i < j → walk i = walk j → LeadsToCircle names pending a := by
    intro i j hlt hback
    obtain ⟨k, rfl⟩ : ∃ k, j = i + 1 + k := Nat.exists_eq_add_of_lt hlt |>.imp fun k hk => by omega
    have hthere := hreach 0 i
    rw [Nat.zero_add] at hthere
    refine ⟨walk i, hthere, ?_⟩
    have haround : Relation.TransGen (Uses names pending) (walk i) (walk (i + 1 + k)) :=
      Relation.TransGen.head' (hstep i) (hreach (i + 1) k)
    rw [← hback] at haround
    exact haround
  rcases Nat.lt_or_gt_of_ne hne with hlt | hlt
  · exact hcircle hlt hback
  · exact hcircle hlt hback.symm

def LeadsFirst (names : List Node → List String) (pending : List (String × List Node))
    (a : String × List Node) : Prop :=
  LeadsToCircle names pending a ∧
    ∃ before behind, pending = before ++ a :: behind ∧ ∀ b ∈ before, ¬LeadsToCircle names pending b

theorem LeadsFirst.unique (ha : LeadsFirst names pending a) (hb : LeadsFirst names pending b) :
    a = b := by
  obtain ⟨hleads, before, behind, hpending, hbefore⟩ := ha
  obtain ⟨hleads', before', behind', hpending', hbefore'⟩ := hb
  rcases List.append_eq_append_iff.1 (hpending.symm.trans hpending') with
    ⟨between, rfl, heq⟩ | ⟨between, rfl, heq⟩
  · cases between with
    | nil => exact (List.cons.inj heq).1
    | cons c between =>
      obtain ⟨rfl, -⟩ := List.cons.inj heq
      exact absurd hleads (hbefore' a (by simp))
  · cases between with
    | nil => exact (List.cons.inj heq).1.symm
    | cons c between =>
      obtain ⟨rfl, -⟩ := List.cons.inj heq
      exact absurd hleads' (hbefore b (by simp))

theorem leadsToCircle_congr {names' : List Node → List String}
    (h : ∀ a ∈ pending, ∀ b ∈ pending, b.1 ∈ names a.2 ↔ b.1 ∈ names' a.2) :
    LeadsToCircle names pending = LeadsToCircle names' pending ∧
      OnCircle names pending = OnCircle names' pending := by
  have huses : Uses names pending = Uses names' pending := by
    funext a b
    apply propext
    exact and_congr_right fun ha => and_congr_right fun hb => h a ha b hb
  unfold LeadsToCircle OnCircle
  rw [huses]
  exact ⟨rfl, rfl⟩

end Circles

/-! ### Rounds -/

section Rounds

open DesignSystem

variable {pending : List (String × List Node)} {a : String × List Node}

theorem isReady_iff {waiting : List String} {body : List Node} :
    isReady waiting body = true ↔ ∀ name ∈ appliedNames body, name ∉ waiting := by
  simp [isReady, List.all_eq_true]

theorem LeadsToCircle.mem_waitingAmong (h : LeadsToCircle appliedNames pending a) :
    a ∈ waitingAmong pending := by
  obtain ⟨b, ⟨ha, hb, hname⟩, -⟩ := h.next
  refine List.mem_filter.2 ⟨ha, ?_⟩
  rw [Bool.not_eq_true', ← Bool.not_eq_true, isReady_iff]
  exact fun hready => hready b.1 hname (List.mem_map_of_mem hb)

theorem leadsToCircle_waitingAmong :
    LeadsToCircle appliedNames (waitingAmong pending) a ↔ LeadsToCircle appliedNames pending a := by
  constructor
  · exact .mono List.filter_sublist.subset
  · apply leadsToCircle_of_next
    intro a ha
    obtain ⟨b, huses, hb⟩ := ha.next
    exact ⟨b, hb, ha.mem_waitingAmong, hb.mem_waitingAmong, huses.2.2⟩

theorem leadsToCircle_of_readyAmong (h : readyAmong pending = []) (ha : a ∈ pending) :
    LeadsToCircle appliedNames pending a := by
  apply leadsToCircle_of_next (P := (· ∈ pending)) _ ha
  intro a ha
  have hwaits : ¬isReady (pending.map Prod.fst) a.2 = true := List.filter_eq_nil_iff.1 h a ha
  rw [isReady_iff] at hwaits
  push Not at hwaits
  obtain ⟨name, hname, hwaiting⟩ := hwaits
  obtain ⟨b, hb, rfl⟩ := List.mem_map.1 hwaiting
  exact ⟨b, hb, ha, hb, hname⟩

/-- What a round defines does not lead to circles, so the first definition that does stays the
first. -/
theorem LeadsFirst.of_waitingAmong (h : LeadsFirst appliedNames (waitingAmong pending) a) :
    LeadsFirst appliedNames pending a := by
  obtain ⟨hleads, before, behind, hwaiting, hbefore⟩ := h
  obtain ⟨front, back, rfl, hfront, hback⟩ := List.filter_eq_append_iff.1 hwaiting
  obtain ⟨ready, rest, rfl, hready, -, -⟩ := List.filter_eq_cons_iff.1 hback
  refine ⟨leadsToCircle_waitingAmong.1 hleads, front ++ ready, rest, by simp, ?_⟩
  intro b hb hcircle
  have hwaits := (List.mem_filter.1 hcircle.mem_waitingAmong).2
  rcases List.mem_append.1 hb with hb | hb
  · refine hbefore b ?_ (leadsToCircle_waitingAmong.2 hcircle)
    rw [← hfront]
    exact List.mem_filter.2 ⟨hb, hwaits⟩
  · exact hready b hb hwaits

end Rounds

/-! ### Class names that cannot be applied -/

def appliedParamsAt : Node × Nat → Option String
  | (.atRule name params _, _) => if Directive.ofName name = .apply then some params else none
  | _ => none

def appliedParams (body : List Node) : List String :=
  (outline body).filterMap appliedParamsAt

def appliedClasses (body : List Node) : List String :=
  (appliedParams body).flatMap fun params => (splitApplyImportant (Text.words params)).1

def readBase (raw : String) : String :=
  (Candidate.stripImportant ((Text.segment ':' raw).getLast?.getD "")).1

/-- The bases that the class names in a body are read by. -/
def usedNames (body : List Node) : List String :=
  (appliedClasses body).map readBase

def FailsOn (d : DesignSystem) (paramsList : List String) (e : Error) : Prop :=
  ∃ params ∈ paramsList, ∃ raw ∈ (splitApplyImportant (Text.words params)).1,
    ¬d.IsValid raw ∧ e = .unknownUtility raw

theorem FailsOn.mono {d : DesignSystem} {fewer more : List String} {e : Error}
    (h : FailsOn d fewer e) (hsub : fewer ⊆ more) : FailsOn d more e := by
  obtain ⟨params, hparams, hraw⟩ := h
  exact ⟨params, hsub hparams, hraw⟩

theorem Traced.error_of_bind {α β : Type} {x : Traced α} {f : α → Traced β} {e : Error}
    (h : (x >>= f).result = .error e) :
    x.result = .error e ∨ ∃ a, x.result = .ok a ∧ (f a).result = .error e := by
  rw [Traced.result_bind] at h
  cases hx : x.result with
  | error e' =>
    rw [hx] at h
    exact .inl (congrArg _ (Except.error.inj h))
  | ok a =>
    rw [hx] at h
    exact .inr ⟨a, rfl, h⟩

theorem Traced.error_of_bind_pure {α β : Type} {x : Traced α} {f : α → β} {e : Error}
    (h : (x >>= fun a => pure (f a)).result = .error e) : x.result = .error e := by
  rcases Traced.error_of_bind h with h | ⟨_, _, h⟩
  · exact h
  · cases h

theorem DesignSystem.failsOn_expandApply {d : DesignSystem} {params : String} {e : Error}
    (h : (d.expandApply params).result = .error e) : FailsOn d [params] e := by
  unfold DesignSystem.expandApply at h
  dsimp only at h
  rcases Traced.error_of_bind h with h | ⟨_, _, h⟩
  · cases h
  · split at h
    next raw rest hreported =>
      cases h
      have hmem : raw ∈ (d.generate (splitApplyImportant (Text.words params)).1).reported := by
        rw [hreported]
        exact List.mem_cons_self
      rw [DesignSystem.mem_reported] at hmem
      refine ⟨params, List.mem_singleton.2 rfl, raw, hmem.1, ?_, rfl⟩
      rw [DesignSystem.isValid_iff]
      exact not_not_intro hmem.2
    · cases h

mutual

theorem Node.failsOn_substituteApply (d : DesignSystem) {e : Error} : ∀ (node : Node) (depth : Nat),
    (node.substituteApply d).result = .error e →
      FailsOn d ((node.outline depth).filterMap appliedParamsAt) e
  | .atRule name params nodes, depth, h => by
    rw [Node.substituteApply] at h
    rw [Node.outline, List.filterMap_cons]
    split at h
    · cases h
    next hname =>
      simp only [appliedParamsAt, hname, if_true]
      exact (DesignSystem.failsOn_expandApply h).mono (by simp)
    next hutility happly =>
      rw [appliedParamsAt, if_neg happly]
      exact failsOn_substituteAllApply d nodes (depth + 1) (Traced.error_of_bind_pure h)
  | .rule selector nodes, depth, h => by
    rw [Node.substituteApply] at h
    rw [Node.outline, List.filterMap_cons]
    exact failsOn_substituteAllApply d nodes (depth + 1) (Traced.error_of_bind_pure h)
  | .context entries nodes, depth, h => by
    rw [Node.substituteApply] at h
    rw [Node.outline]
    exact failsOn_substituteAllApply d nodes depth (Traced.error_of_bind_pure h)
  | .atRoot nodes, depth, h => by
    rw [Node.substituteApply] at h
    rw [Node.outline, List.filterMap_cons]
    exact failsOn_substituteAllApply d nodes (depth + 1) (Traced.error_of_bind_pure h)
  | .declaration .., _, h => by
    rw [Node.substituteApply] at h
    cases h
  | .comment _, _, h => by
    rw [Node.substituteApply] at h
    cases h

theorem failsOn_substituteAllApply (d : DesignSystem) {e : Error} :
    ∀ (nodes : List Node) (depth : Nat),
    (substituteAllApply d nodes).result = .error e →
      FailsOn d ((outlineAll depth nodes).filterMap appliedParamsAt) e
  | [], _, h => by
    rw [substituteAllApply] at h
    cases h
  | n :: ns, depth, h => by
    rw [substituteAllApply] at h
    rw [outlineAll, List.filterMap_append]
    rcases Traced.error_of_bind h with h | ⟨_, _, h⟩
    · exact (n.failsOn_substituteApply d depth h).mono (List.subset_append_left _ _)
    · have h := Traced.error_of_bind_pure h
      exact (failsOn_substituteAllApply d ns depth h).mono (List.subset_append_right _ _)

end

theorem exists_invalid_of_error {d : DesignSystem} {body : List Node} {e : Error}
    (h : (substituteAllApply d body).result = .error e) :
    ∃ raw ∈ appliedClasses body, ¬d.IsValid raw ∧ e = .unknownUtility raw := by
  obtain ⟨params, hparams, raw, hraw, hinvalid, he⟩ := failsOn_substituteAllApply d body 0 h
  exact ⟨raw, List.mem_flatMap.2 ⟨params, hparams, hraw⟩, hinvalid, he⟩

/-! ### The names by which definitions wait -/

theorem mem_appliedNames {name : String} {body : List Node} :
    name ∈ appliedNames body ↔
      name ≠ "" ∧ ∃ params ∈ appliedParams body, ∃ raw ∈ Text.words params,
        baseName raw = name := by
  rw [appliedNames_eq]
  simp only [List.mem_flatMap, appliedParams, List.mem_filterMap]
  constructor
  · rintro ⟨⟨node, depth⟩, hentry, hname⟩
    unfold appliedAt at hname
    split at hname
    next atName params nodes depth heq =>
      split at hname
      next happly =>
        obtain ⟨hmem, hne⟩ := List.mem_filter.1 hname
        obtain ⟨raw, hraw, rfl⟩ := List.mem_map.1 hmem
        refine ⟨by simpa using hne, params, ⟨_, hentry, ?_⟩, raw, hraw, rfl⟩
        rw [heq, appliedParamsAt, if_pos happly]
      · simp at hname
    · simp at hname
  · rintro ⟨hne, params, ⟨⟨node, depth⟩, hentry, hparams⟩, raw, hraw, rfl⟩
    refine ⟨_, hentry, ?_⟩
    unfold appliedParamsAt at hparams
    split at hparams
    next atName params' nodes depth' heq =>
      split at hparams
      next happly =>
        cases hparams
        rw [heq, appliedAt, if_pos happly]
        exact List.mem_filter.2 ⟨List.mem_map_of_mem hraw, by simpa using hne⟩
      · cases hparams
    · cases hparams

private theorem mem_words_of_split {words : List String} {raw : String} (h : raw ∈ words) :
    raw ∈ (splitApplyImportant words).1 ∨ raw = "!important" ∧
      (splitApplyImportant words).2 = true := by
  unfold splitApplyImportant
  split
  next hlast =>
    obtain ⟨front, rfl⟩ := List.getLast?_eq_some_iff.1 hlast
    simpa using h
  next => exact .inl h

private theorem split_subset {words : List String} : (splitApplyImportant words).1 ⊆ words := by
  intro raw hraw
  unfold splitApplyImportant at hraw
  split at hraw
  · exact List.mem_of_mem_dropLast hraw
  · exact hraw

theorem mem_appliedNames_of_used {name : String} {body : List Node}
    (hname : isUtilityName name = true) (h : name ∈ usedNames body) : name ∈ appliedNames body := by
  obtain ⟨raw, hraw, hbase⟩ := List.mem_map.1 h
  obtain ⟨params, hparams, hraw⟩ := List.mem_flatMap.1 hraw
  obtain ⟨c, cs, hchars⟩ := exists_char_of_isUtilityName hname
  refine mem_appliedNames.2 ⟨?_, params, hparams, raw, split_subset hraw, ?_⟩
  · rintro rfl
    simp at hchars
  · exact trimMarks_of_stripImportant hname hbase

/-- Marks that do not make a definition wait for a name that its body does not use: no class name
has a second mark around the name of a definition, and no definition is named like the mark that
stands behind all class names. -/
structure PlainMarks (pending : List (String × List Node)) : Prop where
  single : ∀ entry ∈ pending, ∀ raw ∈ appliedClasses entry.2,
    baseName raw ∈ pending.map Prod.fst → readBase raw = baseName raw
  unnamed : ∀ entry ∈ pending, ∀ params ∈ appliedParams entry.2,
    (splitApplyImportant (Text.words params)).2 = true → "important" ∉ pending.map Prod.fst

theorem PlainMarks.used_iff {pending : List (String × List Node)} (h : PlainMarks pending)
    (hnames : ∀ entry ∈ pending, isUtilityName entry.1 = true) :
    ∀ a ∈ pending, ∀ b ∈ pending, b.1 ∈ appliedNames a.2 ↔ b.1 ∈ usedNames a.2 := by
  intro a ha b hb
  refine ⟨fun hmem => ?_, mem_appliedNames_of_used (hnames b hb)⟩
  obtain ⟨-, params, hparams, raw, hraw, hbase⟩ := mem_appliedNames.1 hmem
  have hdefined : b.1 ∈ pending.map Prod.fst := List.mem_map_of_mem hb
  rcases mem_words_of_split hraw with hraw | ⟨rfl, hmark⟩
  · have hclass : raw ∈ appliedClasses a.2 := List.mem_flatMap.2 ⟨params, hparams, hraw⟩
    refine List.mem_map.2 ⟨raw, hclass, ?_⟩
    rw [h.single a ha raw hclass (hbase ▸ hdefined), hbase]
  · have himportant : b.1 = "important" := by
      rw [← hbase]
      decide +kernel
    exact absurd (himportant ▸ hdefined) (h.unnamed a ha params hparams hmark)

/-! ### Class names that can be applied -/

namespace DesignSystem

variable {d d' : DesignSystem} {pending : List (String × List Node)}

def Accepts (d : DesignSystem) (raw : String) : Prop :=
  d.isInvalid raw = false ∧ ∃ base rawVariants variants,
    (Candidate.dropPrefix? d.theme.keyPrefix (Text.segment ':' raw)).map List.reverse =
        some (base :: rawVariants) ∧
      rawVariants.mapM (Variant.parse? d.variants) = some variants ∧
      ∀ selector nodes, (d.applyVariants variants (.rule selector nodes)).isSome

/-- Every class name in these bodies means something, if need be once its base is defined. -/
def Resolves (d : DesignSystem) (pending : List (String × List Node)) : Prop :=
  ∀ entry ∈ pending, ∀ raw ∈ appliedClasses entry.2,
    (readBase raw ∉ pending.map Prod.fst → d.IsValid raw) ∧
      (readBase raw ∈ pending.map Prod.fst → d.Accepts raw)

private theorem parseBase_of_defined {utilities : UtilityRegistry} {name : String}
    {body : List Node}
    (hname : isUtilityName name = true) (hbody : .ofBody body ∈ utilities.get name) :
    Candidate.parseBase utilities name = [(.static name, false)] := by
  have hstatic : utilities.has name .static = true := by
    have hmem : Utility.ofBody body ∈ utilities.ofKind name .static :=
      List.mem_filter.2 ⟨hbody, by rfl⟩
    rw [UtilityRegistry.has_eq]
    simpa using List.ne_nil_of_mem hmem
  have hbracket : Text.hasChar '[' name = false := by
    rw [Text.hasChar, List.contains_eq_mem, decide_eq_false_iff_not]
    intro hmem
    simp only [isUtilityName, Bool.and_eq_true, List.all_eq_true] at hname
    have hallowed := hname.2 _ hmem
    revert hallowed
    decide
  rw [Candidate.parseBase, hstatic, hbracket]
  rfl

theorem Accepts.exists_reading {raw : String} {body : List Node} (h : d.Accepts raw)
    (hname : isUtilityName (readBase raw) = true)
    (hbody : .ofBody body ∈ d.utilities.get (readBase raw)) :
    ∃ c ∈ d.parse raw, c.kind = .static (readBase raw) ∧ c.negative = false ∧
      ∀ selector nodes, (d.applyVariants c.variants (.rule selector nodes)).isSome := by
  obtain ⟨-, base, rawVariants, variants, hsegments, hparsed, haccept⟩ := h
  have hbase : (Candidate.stripImportant base).1 = readBase raw := by
    have hlast : (Text.segment ':' raw).getLast? = some base := by
      rw [Candidate.parts_eq hsegments, List.getLast?_concat]
    simp [readBase, hlast]
  have hnonempty : (readBase raw).isEmpty = false := by
    obtain ⟨c, cs, hchars⟩ := exists_char_of_isUtilityName hname
    rw [← Bool.not_eq_true, String.isEmpty_iff]
    intro hempty
    simp [hempty] at hchars
  refine ⟨⟨.static (readBase raw), variants, false, (Candidate.stripImportant base).2, raw⟩, ?_,
    rfl, rfl, haccept⟩
  simp [DesignSystem.parse, Candidate.parse, hsegments, hparsed, hbase, hnonempty,
    parseBase_of_defined hname hbody]

private theorem isValid_of_declarations {raw : String} {c : Candidate} {body : List Node}
    (hvalid : d.isInvalid raw = false) (hc : c ∈ d.parse raw) (hbody : body ∈ d.declarations c)
    (happly : ∀ selector nodes, (d.applyVariants c.variants (.rule selector nodes)).isSome) :
    d.IsValid raw := by
  rw [isValid_iff, ownRules, readings, hvalid]
  intro hnone
  have hrules := List.map_eq_nil_iff.1 (List.flatMap_eq_nil_iff.1 hnone c hc)
  have hnode := List.filterMap_eq_nil_iff.1 hrules body hbody
  rw [Option.map_eq_none_iff] at hnode
  exact Option.isSome_iff_ne_none.1 (happly _ _) hnode

theorem Accepts.isValid {raw : String} {body : List Node} (h : d.Accepts raw)
    (hname : isUtilityName (readBase raw) = true)
    (hbody : .ofBody body ∈ d.utilities.get (readBase raw)) : d.IsValid raw := by
  obtain ⟨c, hc, hkind, hnegative, happly⟩ := h.exists_reading hname hbody
  refine isValid_of_declarations h.1 hc (?_ : body ∈ _) happly
  rw [declarations, hkind]
  refine List.mem_filterMap.2 ⟨.ofBody body, List.mem_filter.2 ⟨hbody, by rfl⟩, ?_⟩
  simp [Utility.ofBody, hnegative]

theorem DiffersOn.accepts {names : List String} {raw : String} (h : d.DiffersOn names d')
    (haccepts : d.Accepts raw) : d'.Accepts raw := by
  obtain ⟨hvalid, base, rawVariants, variants, hsegments, hparsed, haccept⟩ := haccepts
  refine ⟨?_, base, rawVariants, variants, ?_, ?_, fun selector nodes => ?_⟩
  · rw [isInvalid, h.invalid]
    exact hvalid
  · rw [h.theme]
    exact hsegments
  · rw [h.variants]
    exact hparsed
  · rw [applyVariants, h.variants, h.theme]
    exact haccept selector nodes

/-! ### Getting stuck -/

theorem error_of_expandBodies {entries : List (String × List Node)} {e : Error}
    (h : d.expandBodies entries = .error e) :
    ∃ entry ∈ entries, (substituteAllApply d entry.2).result = .error e := by
  induction entries with
  | nil => cases h
  | cons entry entries ih =>
    rw [expandBodies_cons] at h
    cases hbody : (substituteAllApply d entry.2).result with
    | error e' =>
      rw [hbody] at h
      cases h
      exact ⟨entry, List.mem_cons_self, hbody⟩
    | ok body =>
      rw [hbody] at h
      cases hrest : d.expandBodies entries with
      | error e' =>
        simp only [hrest, Except.bind, Except.map] at h
        cases h
        obtain ⟨other, hother, herror⟩ := ih hrest
        exact ⟨other, List.mem_cons_of_mem _ hother, herror⟩
      | ok bodies =>
        simp only [hrest, Except.bind, Except.map] at h
        cases h

theorem leadsFirst_of_defineRounds {n : Nat} {name : String}
    (h : defineRounds n d pending = some (.error (.circularApply name))) :
    ∃ entry, LeadsFirst appliedNames pending entry ∧ entry.1 = name := by
  induction n generalizing d pending with
  | zero => cases pending <;> cases h
  | succ n ih =>
    cases pending with
    | nil => cases h
    | cons entry rest =>
      rw [defineRounds] at h
      split at h
      next hnone =>
        cases h
        have hleads := leadsToCircle_of_readyAmong (List.isEmpty_iff.1 hnone) List.mem_cons_self
        exact ⟨entry, ⟨hleads, [], rest, rfl, by simp⟩, rfl⟩
      · split at h
        next e herror =>
          -- a body that cannot be expanded is another failure
          cases h
          obtain ⟨_, _, hbody⟩ := error_of_expandBodies herror
          obtain ⟨_, _, _, he⟩ := exists_invalid_of_error hbody
          cases he
        next bodies _ =>
          obtain ⟨stuck, hfirst, hname⟩ := ih h
          exact ⟨stuck, hfirst.of_waitingAmong, hname⟩

/-- What holds between two rounds: the system differs from the first one in the names to be defined,
and those that are not waiting are defined. -/
structure BetweenRounds (d : DesignSystem) (names : List String) (d' : DesignSystem)
    (waiting : List String) : Prop where
  differs : d.DiffersOn names d'
  defined : ∀ name ∈ names, name ∉ waiting → ∃ body, .ofBody body ∈ d'.utilities.get name

variable {all : List (String × List Node)}

theorem Resolves.isValid (hresolves : d.Resolves all) (hmarks : PlainMarks all)
    (hnames : ∀ entry ∈ all, isUtilityName entry.1 = true) (hsub : pending ⊆ all)
    (h : d.BetweenRounds (all.map Prod.fst) d' (pending.map Prod.fst)) {entry : String × List Node}
    (hentry : entry ∈ readyAmong pending) {raw : String} (hraw : raw ∈ appliedClasses entry.2) :
    d'.IsValid raw := by
  have hmem := hsub (List.mem_filter.1 hentry).1
  have hvalid : ∀ name ∈ all.map Prod.fst, isUtilityName name = true := List.forall_mem_map.2 hnames
  by_cases hbase : readBase raw ∈ all.map Prod.fst
  · have hused : readBase raw ∈ appliedNames entry.2 :=
      mem_appliedNames_of_used (hvalid _ hbase) (List.mem_map_of_mem hraw)
    have hnotWaiting : readBase raw ∉ pending.map Prod.fst :=
      fun hwaits => (ready_unused pending entry hentry).2 _ hwaits hused
    obtain ⟨body, hbody⟩ := h.defined _ hbase hnotWaiting
    exact (h.differs.accepts ((hresolves entry hmem raw hraw).2 hbase)).isValid
      (hvalid _ hbase) hbody
  · have hother : baseName raw ∉ all.map Prod.fst :=
      fun hname => hbase (hmarks.single entry hmem raw hraw hname ▸ hname)
    have halike : d.Alike d' fun name => name ∈ [raw] ∧ name ∉ d.invalid :=
      (h.differs.alike hvalid).mono fun name hname => List.mem_singleton.1 hname.1 ▸ hother
    rw [IsValid, halike.generate h.differs.invalid]
    exact (hresolves entry hmem raw hraw).1 hbase

theorem BetweenRounds.round (h : d.BetweenRounds (all.map Prod.fst) d' (pending.map Prod.fst))
    (hresolves : d.Resolves all) (hmarks : PlainMarks all)
    (hnames : ∀ entry ∈ all, isUtilityName entry.1 = true) (hsub : pending ⊆ all) :
    ∃ bodies, d'.expandBodies (readyAmong pending) = .ok bodies ∧
      d.BetweenRounds (all.map Prod.fst) (d'.addBodies bodies)
        ((waitingAmong pending).map Prod.fst) := by
  cases hbodies : d'.expandBodies (readyAmong pending) with
  | error e =>
    obtain ⟨entry, hentry, herror⟩ := error_of_expandBodies hbodies
    obtain ⟨raw, hraw, hinvalid, -⟩ := exists_invalid_of_error herror
    exact absurd (hresolves.isValid hmarks hnames hsub h hentry hraw) hinvalid
  | ok bodies =>
    have hfst := map_fst_of_expandBodies hbodies
    refine ⟨bodies, rfl, ?_, fun name hname hwaits => ?_⟩
    · refine h.differs.addBodies fun entry hentry => ?_
      have hready : entry.1 ∈ (readyAmong pending).map Prod.fst := hfst ▸ List.mem_map_of_mem hentry
      obtain ⟨e, he, heq⟩ := List.mem_map.1 hready
      exact heq ▸ List.mem_map_of_mem (hsub (List.mem_filter.1 he).1)
    · rw [get_addBodies]
      by_cases hpending : name ∈ pending.map Prod.fst
      · -- none of its definitions waits, so this round has defined it
        obtain ⟨entry, hentry, rfl⟩ := List.mem_map.1 hpending
        have hready : entry ∈ readyAmong pending := by
          refine List.mem_filter.2 ⟨hentry, ?_⟩
          by_contra hnot
          exact hwaits (List.mem_map_of_mem (List.mem_filter.2 ⟨hentry, by simpa using hnot⟩))
        obtain ⟨body, -, hmem⟩ := exists_body_of_expandBodies hbodies hready
        refine ⟨body, List.mem_append_right _ (List.mem_filterMap.2 ⟨_, hmem, ?_⟩)⟩
        exact if_pos rfl
      · obtain ⟨body, hbody⟩ := h.defined name hname hpending
        exact ⟨body, List.mem_append_left _ hbody⟩

private theorem exists_circular_of_defineRounds (hresolves : d.Resolves all)
    (hmarks : PlainMarks all)
    (hnames : ∀ entry ∈ all, isUtilityName entry.1 = true) {n : Nat} (hlength : pending.length ≤ n)
    (hsub : pending ⊆ all) (h : d.BetweenRounds (all.map Prod.fst) d' (pending.map Prod.fst))
    {entry : String × List Node} (hleads : LeadsToCircle appliedNames pending entry) :
    ∃ name, defineRounds n d' pending = some (.error (.circularApply name)) := by
  induction n generalizing d' pending with
  | zero =>
    have hmem := hleads.mem
    rw [List.eq_nil_of_length_eq_zero (Nat.le_zero.1 hlength)] at hmem
    cases hmem
  | succ n ih =>
    cases pending with
    | nil => cases hleads.mem
    | cons first rest =>
      rw [defineRounds]
      split
      · exact ⟨first.1, rfl⟩
      next hready =>
        obtain ⟨bodies, hbodies, hnext⟩ := h.round hresolves hmarks hnames hsub
        have hless : (waitingAmong (first :: rest)).length < (first :: rest).length :=
          length_filter_not_lt (mt List.isEmpty_iff.2 hready)
        rw [hbodies]
        refine ih (by omega) ?_ hnext (leadsToCircle_waitingAmong.2 hleads)
        exact fun e he => hsub (List.mem_filter.1 he).1

private theorem leadsFirst_of_defineUtilities
    (hnames : ∀ entry ∈ pending, isUtilityName entry.1 = true)
    {name : String} (h : (d.defineUtilities pending).result = .error (.circularApply name)) :
    ∃ entry, LeadsFirst appliedNames pending entry ∧ entry.1 = name := by
  have hrun := defineRounds_eq (Nat.le_refl pending.length) hnames d
  exact leadsFirst_of_defineRounds (hrun.trans (congrArg some h))

private theorem exists_circular_of_defineUtilities (hresolves : d.Resolves pending)
    (hmarks : PlainMarks pending)
    (hnames : ∀ entry ∈ pending, isUtilityName entry.1 = true) {entry : String × List Node}
    (hleads : LeadsToCircle appliedNames pending entry) :
    ∃ name, (d.defineUtilities pending).result = .error (.circularApply name) := by
  have hrun := defineRounds_eq (Nat.le_refl pending.length) hnames d
  have hstart : d.BetweenRounds (pending.map Prod.fst) d (pending.map Prod.fst) :=
    ⟨DiffersOn.refl _ d, fun name hname hnot => absurd hname hnot⟩
  obtain ⟨name, h⟩ := exists_circular_of_defineRounds hresolves hmarks hnames
    (Nat.le_refl pending.length) (List.Subset.refl _) hstart hleads
  exact ⟨name, Option.some.inj (hrun.symm.trans h)⟩

/-- When registering gets stuck, it names the first definition that leads to a circle of uses. It
gets stuck exactly if there is a circle, where all class names mean something, if need be once their
bases are defined. The definition that is named lies on a circle if all that lead to one do. No mark
may be taken for a name. -/
theorem defineUtilities_circular (d : DesignSystem) {pending : List (String × List Node)}
    (hnames : ∀ entry ∈ pending, isUtilityName entry.1 = true) (hmarks : PlainMarks pending) :
    (∀ name, (d.defineUtilities pending).result = .error (.circularApply name) →
        ∃ entry, LeadsFirst usedNames pending entry ∧ entry.1 = name) ∧
      (d.Resolves pending →
        ((∃ name, (d.defineUtilities pending).result = .error (.circularApply name)) ↔
          ∃ entry, OnCircle usedNames pending entry) ∧
        ∀ name, (d.defineUtilities pending).result = .error (.circularApply name) ↔
          ∃ entry, LeadsFirst usedNames pending entry ∧ entry.1 = name) ∧
      ((∀ entry, LeadsToCircle usedNames pending entry → OnCircle usedNames pending entry) →
        ∀ name, (d.defineUtilities pending).result = .error (.circularApply name) →
          ∃ entry, OnCircle usedNames pending entry ∧ entry.1 = name) := by
  obtain ⟨hleadsEq, hcircleEq⟩ := leadsToCircle_congr (hmarks.used_iff hnames)
  have hfirstEq : LeadsFirst appliedNames pending = LeadsFirst usedNames pending := by
    unfold LeadsFirst
    rw [hleadsEq]
  have hsound : ∀ name, (d.defineUtilities pending).result = .error (.circularApply name) →
      ∃ entry, LeadsFirst usedNames pending entry ∧ entry.1 = name := by
    intro name h
    rw [← hfirstEq]
    exact leadsFirst_of_defineUtilities hnames h
  refine ⟨hsound, fun hresolves => ?_, fun hall name h => ?_⟩
  · have hstuck : ∀ {entry}, LeadsToCircle usedNames pending entry →
        ∃ name, (d.defineUtilities pending).result = .error (.circularApply name) := by
      intro entry hleads
      rw [← hleadsEq] at hleads
      exact exists_circular_of_defineUtilities hresolves hmarks hnames hleads
    refine ⟨⟨?_, ?_⟩, fun name => ⟨hsound name, ?_⟩⟩
    · rintro ⟨name, h⟩
      obtain ⟨entry, ⟨⟨circle, -, hcircle⟩, -⟩, -⟩ := hsound name h
      exact ⟨circle, hcircle⟩
    · rintro ⟨entry, hcircle⟩
      exact hstuck hcircle.leads
    · rintro ⟨entry, hfirst, rfl⟩
      obtain ⟨name, h⟩ := hstuck hfirst.1
      obtain ⟨other, hother, rfl⟩ := hsound name h
      rw [h, hfirst.unique hother]
  · obtain ⟨entry, hfirst, hname⟩ := hsound name h
    exact ⟨entry, hall entry hfirst.1, hname⟩

theorem IgnoresMarks.accepts (hd : d.IgnoresMarks) {raw base : String} {rawVariants : List String}
    {variants : List Variant} (hvalid : d.isInvalid raw = false)
    (hsegments : (Candidate.dropPrefix? d.theme.keyPrefix (Text.segment ':' raw)).map List.reverse =
      some (base :: rawVariants))
    (hparsed : rawVariants.mapM (Variant.parse? d.variants) = some variants)
    (hempty : (d.applyVariants variants (.rule "" [])).isSome) : d.Accepts raw := by
  refine ⟨hvalid, base, rawVariants, variants, hsegments, hparsed, fun selector nodes => ?_⟩
  have hadmits : ∀ v ∈ variants, d.variants.Admits v := by
    intro v hv
    obtain ⟨s, -, hs⟩ := exists_of_mem_mapM hparsed hv
    exact Variant.parse?_admits hs
  rcases hd.applyVariants hadmits with hnone | ⟨f, -, hsome⟩
  · simp [hnone] at hempty
  · simp [hsome]

def circularUtilities : List (String × List Node) :=
  [("pad", [.atRule "apply" "p-[1px]" []]), ("card", [.atRule "apply" "hover:panel pad" []]),
    ("panel", [.atRule "apply" "card! flex !important" []])]

theorem defineUtilities_circular_card :
    ((ofTheme {}).defineUtilities circularUtilities).result = .error (.circularApply "card") ∧
      ∃ body, OnCircle usedNames circularUtilities ("card", body) := by
  have hmarks : PlainMarks circularUtilities := ⟨by decide +kernel, by decide +kernel⟩
  have hother : ∀ entry ∈ circularUtilities, ∀ raw ∈ appliedClasses entry.2,
      readBase raw ∉ circularUtilities.map Prod.fst → 0 < ((ofTheme {}).ownRules raw).length := by
    decide +kernel
  have hdefined : ∀ entry ∈ circularUtilities, ∀ raw ∈ appliedClasses entry.2,
      readBase raw ∈ circularUtilities.map Prod.fst → raw ∈ ["hover:panel", "pad", "card!"] := by
    decide +kernel
  have haccepts : ∀ raw ∈ ["hover:panel", "pad", "card!"], (ofTheme {}).Accepts raw := by
    simp only [List.forall_mem_cons, List.not_mem_nil, false_implies, implies_true, and_true]
    refine ⟨?_, ?_, ?_⟩
    · exact (ignoresMarks_ofTheme {}).accepts (by decide +kernel)
        (show _ = some ("panel" :: ["hover"]) by decide +kernel)
        (show _ = some [.static "hover"] by decide +kernel) (by decide +kernel)
    · exact (ignoresMarks_ofTheme {}).accepts (by decide +kernel)
        (show _ = some ("pad" :: []) by decide +kernel)
        rfl (by decide +kernel)
    · exact (ignoresMarks_ofTheme {}).accepts (by decide +kernel)
        (show _ = some ("card!" :: []) by decide +kernel) rfl (by decide +kernel)
  have hresolves : (ofTheme {}).Resolves circularUtilities := fun entry hentry raw hraw =>
    ⟨fun hbase => isValid_iff.2 (List.length_pos_iff.1 (hother entry hentry raw hraw hbase)),
      fun hbase => haccepts raw (hdefined entry hentry raw hraw hbase)⟩
  obtain ⟨-, hexact, -⟩ := defineUtilities_circular (ofTheme {}) (by decide +kernel) hmarks
  have hcard : Uses usedNames circularUtilities circularUtilities[1] circularUtilities[2] :=
    ⟨List.getElem_mem _, List.getElem_mem _, by decide +kernel⟩
  have hpanel : Uses usedNames circularUtilities circularUtilities[2] circularUtilities[1] :=
    ⟨List.getElem_mem _, List.getElem_mem _, by decide +kernel⟩
  have hcircle : OnCircle usedNames circularUtilities circularUtilities[1] :=
    .tail (.single hcard) hpanel
  refine ⟨((hexact hresolves).2 "card").2 ⟨circularUtilities[1], ⟨hcircle.leads, ?_⟩, rfl⟩, _,
    hcircle⟩
  refine ⟨[circularUtilities[0]], [circularUtilities[2]], rfl, ?_⟩
  intro entry hentry hleads
  obtain ⟨other, huses, -⟩ := hleads.next
  rw [List.mem_singleton.1 hentry] at huses
  have hunused : ∀ other ∈ circularUtilities, other.1 ∉ usedNames circularUtilities[0].2 := by
    decide +kernel
  exact hunused other huses.2.1 huses.2.2

def trailingUtilities : List (String × List Node) :=
  [("a", [.atRule "apply" "b" []]), ("b", [.atRule "apply" "b" []])]

def importantUtilities : List (String × List Node) :=
  [("important", [.atRule "apply" "flex !important" []])]

/-- The definition that is named need not lie on a circle, and a mark can be taken for a name. -/
theorem defineUtilities_circular_apart :
    (((ofTheme {}).defineUtilities trailingUtilities).result = .error (.circularApply "a") ∧
        ∀ body, ¬OnCircle usedNames trailingUtilities ("a", body)) ∧
      ((ofTheme {}).defineUtilities importantUtilities).result =
        .error (.circularApply "important") ∧
        ∀ entry, ¬OnCircle usedNames importantUtilities entry := by
  refine ⟨⟨?_, fun body hcircle => ?_⟩, ?_, fun entry hcircle => ?_⟩
  · exact (result_defineUtilities_cons ..).trans (if_pos (List.isEmpty_iff.1 (by decide +kernel)))
  · obtain ⟨other, -, hother, -, hused⟩ := Relation.TransGen.tail'_iff.1 hcircle
    have hunused : ∀ other ∈ trailingUtilities, "a" ∉ usedNames other.2 := by decide +kernel
    exact hunused other hother hused
  · exact (result_defineUtilities_cons ..).trans (if_pos (List.isEmpty_iff.1 (by decide +kernel)))
  · obtain ⟨other, -, hother, hentry, hused⟩ := Relation.TransGen.tail'_iff.1 hcircle
    have hunused : ∀ entry ∈ importantUtilities, ∀ other ∈ importantUtilities,
        entry.1 ∉ usedNames other.2 := by decide +kernel
    exact hunused entry hentry other hother hused

end DesignSystem

end UtilityCss
