import UtilityCss.Directive.Apply

/-!
Registering the utilities that a stylesheet defines. A body may use other custom utilities, so they
are registered in rounds: in each round those that use none that is still waiting. If all of them
wait, the definitions go around in a circle.
-/
namespace UtilityCss

def baseName (raw : String) : String :=
  let base := ((Text.segment ':' raw).getLast?.getD "").toList
  String.ofList (Text.dropEndWhile (· == '!') (base.dropWhile (· == '!')))

def appliedNames (body : List Node) : List String :=
  (outline body).flatMap fun
    | (.atRule name params _, _) =>
      if Directive.ofName name = .apply then
        ((Text.words params).map baseName).filter fun base => !base.isEmpty
      else []
    | _ => []

/-- A utility made of fixed nodes; a class name with a minus sign is rejected. -/
def Utility.ofBody (body : List Node) : Utility :=
  { kind := .static, resolve := fun c _ => if c.negative then none else some body }

def DesignSystem.addUtility (d : DesignSystem) (name : String) (utility : Utility) : DesignSystem :=
  { d with utilities := d.utilities.add name utility }

def DesignSystem.defineUtility (d : DesignSystem) (name : String) (body : List Node) :
    Traced DesignSystem := do
  let body ← substituteAllApply d body
  return d.addUtility name (.ofBody body)

def isReady (waiting : List String) (body : List Node) : Bool :=
  (appliedNames body).all fun name => !waiting.contains name

theorem length_filter_not_lt {α : Type} {p : α → Bool} {xs : List α}
    (h : xs.filter p ≠ []) : (xs.filter fun x => !p x).length < xs.length := by
  obtain ⟨a, ha⟩ := List.exists_mem_of_ne_nil _ h
  obtain ⟨hmem, hp⟩ := List.mem_filter.1 ha
  exact List.length_filter_lt_length_iff_exists.2 ⟨a, hmem, by simp [hp]⟩

def DesignSystem.defineUtilities (d : DesignSystem) (pending : List (String × List Node)) :
    Traced DesignSystem :=
  let waiting := pending.map Prod.fst
  match pending with
  | [] => pure d
  | (name, body) :: rest =>
    let pending := (name, body) :: rest
    let ready := pending.filter fun entry => isReady waiting entry.2
    if _ : ready = [] then Traced.fail (.circularApply name)
    else do
      let d ← ready.foldlM (fun d entry => d.defineUtility entry.1 entry.2) d
      d.defineUtilities (pending.filter fun entry => !isReady waiting entry.2)
termination_by pending.length
decreasing_by exact length_filter_not_lt ‹_›

end UtilityCss
