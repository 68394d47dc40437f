import UtilityCss.Proofs.Compilation
import UtilityCss.Proofs.FileDirectives

/-!
Which modules are loaded. Only the directives of a stylesheet ask a loader for modules; neither a
module that runs nor a utility that is asked for styles does. So the loader is asked for the modules
that were collected, in document order, each with the directory of its stylesheet, and for none
twice.
-/
namespace UtilityCss

def Event.request? : Event → Option ModuleRequest
  | .load id dir kind => some ⟨id, dir, kind⟩
  | _ => none

namespace Traced

variable {α β : Type}

def requests (x : Traced α) : List ModuleRequest :=
  x.events.filterMap Event.request?

theorem requests_bind {x : Traced α} {f : α → Traced β} {a : α} (h : x.result = .ok a) :
    (x >>= f).requests = x.requests ++ (f a).requests := by
  change (Traced.bind x f).requests = _
  rw [Traced.bind, h]
  exact List.filterMap_append

structure Quietly (x : Traced α) (P : α → Prop) : Prop where
  requests : x.requests = []
  result : ∀ a, x.result = .ok a → P a

theorem quietly_pure {P : α → Prop} {a : α} (h : P a) : (pure a : Traced α).Quietly P where
  requests := rfl
  result := by
    rintro b ⟨⟩
    exact h

theorem quietly_fail {P : α → Prop} (e : Error) : (fail e : Traced α).Quietly P :=
  ⟨rfl, fun _ h => nomatch h⟩

theorem quietly_report {P : Unit → Prop} {events : List Event}
    (h : events.filterMap Event.request? = []) (hunit : P ()) : (report events).Quietly P :=
  ⟨h, fun _ _ => hunit⟩

theorem Quietly.bind {P : α → Prop} {Q : β → Prop} {x : Traced α} {f : α → Traced β}
    (hx : x.Quietly P) (hf : ∀ a, P a → (f a).Quietly Q) : (x >>= f).Quietly Q := by
  cases h : x.result with
  | ok a =>
    have hfa := hf a (hx.result a h)
    refine ⟨by rw [requests_bind h, hx.requests, hfa.requests]; rfl, fun b hb => ?_⟩
    rw [result_bind, h] at hb
    exact hfa.result b hb
  | error e =>
    have hbind : x >>= f = ⟨x.events, .error e⟩ := by
      change Traced.bind x f = _
      rw [Traced.bind, h]
    rw [hbind]
    exact ⟨hx.requests, fun _ hb => nomatch hb⟩

theorem Quietly.foldlM {P : β → Prop} {step : β → α → Traced β} {xs : List α} {b : β} (hb : P b)
    (hstep : ∀ x ∈ xs, ∀ b, P b → (step b x).Quietly P) : (xs.foldlM step b).Quietly P := by
  induction xs generalizing b with
  | nil => exact quietly_pure hb
  | cons x xs ih =>
    rw [List.forall_mem_cons] at hstep
    rw [List.foldlM_cons]
    exact (hstep.1 b hb).bind fun next hnext => ih hnext hstep.2

end Traced

namespace DesignSystem

variable {d : DesignSystem}

def IsQuiet (d : DesignSystem) : Prop :=
  ∀ entry ∈ d.utilities.definitions, ∀ c, (entry.2.calls c).filterMap Event.request? = []

theorem IsQuiet.addUtility (h : d.IsQuiet) (name : String) {u : Utility}
    (hu : ∀ c, (u.calls c).filterMap Event.request? = []) : (d.addUtility name u).IsQuiet := by
  intro entry hentry
  rcases List.mem_append.1 hentry with hentry | hentry
  · exact h entry hentry
  · rw [List.mem_singleton.1 hentry]
    exact hu

theorem IsQuiet.addBody (h : d.IsQuiet) (name : String) (body : List Node) :
    (d.addUtility name (.ofBody body)).IsQuiet :=
  h.addUtility name fun _ => rfl

theorem IsQuiet.remember (h : d.IsQuiet) (important : Bool) (invalid : List String) :
    IsQuiet { d with important, invalid } := h

theorem IsQuiet.calls (h : d.IsQuiet) (c : Candidate) :
    (d.calls c).filterMap Event.request? = [] := by
  have hofKind : ∀ root kind, ((d.utilities.ofKind root kind).flatMap fun u => u.calls c).filterMap
      Event.request? = [] := by
    intro root kind
    rw [List.filterMap_flatMap, List.flatMap_eq_nil_iff]
    intro u hu
    exact h _ (mem_ofKind hu) c
  unfold DesignSystem.calls
  split
  · rfl
  · exact hofKind _ _
  · exact hofKind _ _

theorem IsQuiet.expandApply (h : d.IsQuiet) (params : String) :
    (d.expandApply params).Quietly fun _ => True := by
  have hevents : ∀ raws, (d.generate raws).events.filterMap Event.request? = [] := by
    intro raws
    simp only [DesignSystem.generate, List.filterMap_flatMap, List.flatMap_eq_nil_iff]
    exact fun _ _ c _ => h.calls c
  unfold DesignSystem.expandApply
  refine (Traced.quietly_report (P := fun _ => True) (hevents _) trivial).bind fun _ _ => ?_
  split
  · exact Traced.quietly_fail _
  · exact Traced.quietly_pure trivial

end DesignSystem

mutual

theorem Node.quietly_substituteApply {d : DesignSystem} (h : d.IsQuiet) :
    ∀ node : Node, (node.substituteApply d).Quietly fun _ => True
  | .atRule name params nodes => by
    rw [Node.substituteApply]
    split
    · exact Traced.quietly_pure trivial
    · exact h.expandApply params
    · exact (quietly_substituteAllApply h nodes).bind fun _ _ => Traced.quietly_pure trivial
  | .rule selector nodes => by
    rw [Node.substituteApply]
    exact (quietly_substituteAllApply h nodes).bind fun _ _ => Traced.quietly_pure trivial
  | .context entries nodes => by
    rw [Node.substituteApply]
    exact (quietly_substituteAllApply h nodes).bind fun _ _ => Traced.quietly_pure trivial
  | .atRoot nodes => by
    rw [Node.substituteApply]
    exact (quietly_substituteAllApply h nodes).bind fun _ _ => Traced.quietly_pure trivial
  | .declaration property value important => by
    rw [Node.substituteApply]
    exact Traced.quietly_pure trivial
  | .comment text => by
    rw [Node.substituteApply]
    exact Traced.quietly_pure trivial

theorem quietly_substituteAllApply {d : DesignSystem} (h : d.IsQuiet) :
    ∀ nodes : List Node, (substituteAllApply d nodes).Quietly fun _ => True
  | [] => by
    rw [substituteAllApply]
    exact Traced.quietly_pure trivial
  | n :: ns => by
    rw [substituteAllApply]
    refine (Node.quietly_substituteApply h n).bind fun _ _ => ?_
    exact (quietly_substituteAllApply h ns).bind fun _ _ => Traced.quietly_pure trivial

end

theorem DesignSystem.IsQuiet.defineUtilities {d : DesignSystem} (h : d.IsQuiet)
    (pending : List (String × List Node)) : (d.defineUtilities pending).Quietly IsQuiet := by
  -- each round leaves fewer utilities waiting
  induction hlength : pending.length using Nat.strongRecOn generalizing d pending with
  | ind n ih =>
    unfold DesignSystem.defineUtilities
    cases pending with
    | nil => exact Traced.quietly_pure h
    | cons entry rest =>
      dsimp only
      split
      · exact Traced.quietly_fail _
      next hready =>
        refine (Traced.Quietly.foldlM h fun entry _ d hd => ?_).bind fun next hnext => ?_
        · exact (quietly_substituteAllApply hd entry.2).bind fun body _ =>
            Traced.quietly_pure (hd.addBody entry.1 body)
        · refine ih _ ?_ hnext _ rfl
          rw [← hlength]
          exact length_filter_not_lt hready

namespace ModuleCache

def asked (cache : ModuleCache) : List ModuleRequest :=
  (cache.entries.map Prod.fst).reverse

end ModuleCache

end UtilityCss
