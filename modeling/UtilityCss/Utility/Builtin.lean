import UtilityCss.Utility.Layout
import UtilityCss.Utility.Paint
import UtilityCss.Utility.Sizing
import UtilityCss.Utility.Typography

/-!
All built-in utilities.
-/
namespace UtilityCss

namespace Utility

def effectTable : List (String × String × String) :=
  [("animate-none", "animation", "none"), ("ease-linear", "transition-timing-function", "linear"),
    ("ease-initial", "transition-timing-function", "initial"),
    ("rounded-none", "border-radius", "0"),
    ("rounded-full", "border-radius", "calc(infinity * 1px)")]

def opacityValue : UtilityValue → Theme → Option String
  | .named s, _ => if Value.isOpacity s then some (s ++ "%") else none
  | _, _ => none

def effects : List (String × Utility) :=
  fixedTable effectTable ++
  [("opacity", valued { spaces := ["--opacity"], bare := opacityValue } (declareAll ["opacity"])),
    ("rounded", valued { spaces := ["--radius"] } (declareAll ["border-radius"])),
    ("duration", valued
      { spaces := ["--transition-duration"], bare := wholeValue fun s => s ++ "ms" }
      (declareAll ["transition-duration"])),
    ("ease", valued { spaces := ["--ease"] } (declareAll ["transition-timing-function"])),
    ("animate", valued { spaces := ["--animate"] } (declareAll ["animation"]))]

end Utility

def UtilityRegistry.builtin : UtilityRegistry :=
  ⟨Utility.layout ++ Utility.typography ++ Utility.spacing ++ Utility.sizing ++ Utility.paint ++
    Utility.effects⟩

end UtilityCss
