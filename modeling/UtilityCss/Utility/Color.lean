import UtilityCss.Candidate.Basic
import UtilityCss.Decimal.Layout
import UtilityCss.Theme.Basic
import UtilityCss.Value.DataType

/-!
Colours with an opacity.
-/
namespace UtilityCss

open Decimal (Binary64 Layout)

/-- Opacities have the fewest digits that read back, never an exponent, and no point if they are
whole. -/
def opacityLayout : Layout :=
  { positional := fun _ => true, keepPoint := false, tie := .up }

def percentOf (alpha : String) : String :=
  match Binary64.ofText? alpha with
  | some x => (x.timesNat 100).render opacityLayout ++ "%"
  | none => alpha

/-- Mix a colour with transparency; a full opacity leaves it alone. -/
def withAlpha (color alpha : String) : String :=
  if percentOf alpha = "100%" then color
  else "color-mix(in oklab, " ++ color ++ " " ++ percentOf alpha ++ ", transparent)"

def asColor (color : String) (modifier : Option Modifier) (theme : Theme) : Option String :=
  match modifier with
  | none => some color
  | some (.arbitrary alpha) => some (withAlpha color alpha)
  | some (.named name) =>
    match theme.resolve? (some name) ["--opacity"] with
    | some alpha => some (withAlpha color alpha)
    | none => if Value.isOpacity name then some (withAlpha color (name ++ "%")) else none

end UtilityCss
