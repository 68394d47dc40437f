import UtilityCss.Candidate.Parser
import UtilityCss.Utility.Builtin
import UtilityCss.Variant.Apply
import UtilityCss.Variant.Builtin

/-!
A theme with the utilities and variants that may be used with it.
-/
namespace UtilityCss

structure DesignSystem where
  theme : Theme
  utilities : UtilityRegistry
  variants : VariantRegistry
  /-- every generated declaration is important -/
  important : Bool := false
  /-- the class names that are known to mean nothing -/
  invalid : List String := []

namespace DesignSystem

def ofTheme (theme : Theme) : DesignSystem :=
  { theme, utilities := .builtin, variants := .builtin theme }

def parse (d : DesignSystem) (raw : String) : List Candidate :=
  Candidate.parse d.utilities d.variants d.theme.keyPrefix raw

def parseVariant? (d : DesignSystem) (raw : String) : Option Variant :=
  Variant.parse? d.variants raw

def isInvalid (d : DesignSystem) (raw : String) : Bool :=
  d.invalid.contains raw

end DesignSystem

end UtilityCss
