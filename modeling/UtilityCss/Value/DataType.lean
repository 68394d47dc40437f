import UtilityCss.Decimal.Binary64
import UtilityCss.Text.DecimalDigit
import UtilityCss.Text.Letter
import UtilityCss.Text.Nesting
import UtilityCss.Value.Decode

/-!
The data types of values, told from their text. A value that begins with a reference to a variable
has no type of its own.
-/
namespace UtilityCss

inductive DataType where
  | color
  | length
  | percentage
  | number
  | integer
  | url
  | image
  | angle
  | position
  | bgSize
  | lineWidth
  | familyName
  | genericName
  | absoluteSize
  | relativeSize
  deriving DecidableEq, Repr

def DataType.name : DataType → String
  | .color => "color"
  | .length => "length"
  | .percentage => "percentage"
  | .number => "number"
  | .integer => "integer"
  | .url => "url"
  | .image => "image"
  | .angle => "angle"
  | .position => "position"
  | .bgSize => "bg-size"
  | .lineWidth => "line-width"
  | .familyName => "family-name"
  | .genericName => "generic-name"
  | .absoluteSize => "absolute-size"
  | .relativeSize => "relative-size"

def DataType.all : List DataType :=
  [.color, .length, .percentage, .number, .integer, .url, .image, .angle, .position, .bgSize,
    .lineWidth, .familyName, .genericName, .absoluteSize, .relativeSize]

def DataType.ofName? (name : String) : Option DataType :=
  DataType.all.find? fun type => type.name == name

namespace Value

open Text

def lengthUnits : List String :=
  ["cm", "mm", "Q", "in", "pc", "pt", "px", "em", "ex", "ch", "rem", "lh", "rlh", "vw", "vh",
    "vmin", "vmax", "vb", "vi", "svw", "svh", "lvw", "lvh", "dvw", "dvh", "cqw", "cqh", "cqi",
    "cqb", "cqmin", "cqmax"]

def angleUnits : List String :=
  ["deg", "rad", "grad", "turn"]

def colorFunctions : List String :=
  ["rgb", "rgba", "hsl", "hsla", "hwb", "lab", "lch", "oklab", "oklch", "color", "color-mix",
    "light-dark"]

def namedColors : List String :=
  ["transparent", "currentcolor", "aliceblue", "antiquewhite", "aqua", "aquamarine", "azure",
    "beige", "bisque", "black", "blanchedalmond", "blue", "blueviolet", "brown", "burlywood",
    "cadetblue", "chartreuse", "chocolate", "coral", "cornflowerblue", "cornsilk", "crimson",
    "cyan", "darkblue", "darkcyan", "darkgoldenrod", "darkgray", "darkgreen", "darkgrey",
    "darkkhaki", "darkmagenta", "darkolivegreen", "darkorange", "darkorchid", "darkred",
    "darksalmon", "darkseagreen", "darkslateblue", "darkslategray", "darkslategrey",
    "darkturquoise", "darkviolet", "deeppink", "deepskyblue", "dimgray", "dimgrey", "dodgerblue",
    "firebrick", "floralwhite", "forestgreen", "fuchsia", "gainsboro", "ghostwhite", "gold",
    "goldenrod", "gray", "green", "greenyellow", "grey", "honeydew", "hotpink", "indianred",
    "indigo", "ivory", "khaki", "lavender", "lavenderblush", "lawngreen", "lemonchiffon",
    "lightblue", "lightcoral", "lightcyan", "lightgoldenrodyellow", "lightgray", "lightgreen",
    "lightgrey", "lightpink", "lightsalmon", "lightseagreen", "lightskyblue", "lightslategray",
    "lightslategrey", "lightsteelblue", "lightyellow", "lime", "limegreen", "linen", "magenta",
    "maroon", "mediumaquamarine", "mediumblue", "mediumorchid", "mediumpurple", "mediumseagreen",
    "mediumslateblue", "mediumspringgreen", "mediumturquoise", "mediumvioletred", "midnightblue",
    "mintcream", "mistyrose", "moccasin", "navajowhite", "navy", "oldlace", "olive", "olivedrab",
    "orange", "orangered", "orchid", "palegoldenrod", "palegreen", "paleturquoise",
    "palevioletred", "papayawhip", "peachpuff", "peru", "pink", "plum", "powderblue", "purple",
    "rebeccapurple", "red", "rosybrown", "royalblue", "saddlebrown", "salmon", "sandybrown",
    "seagreen", "seashell", "sienna", "silver", "skyblue", "slateblue", "slategray", "slategrey",
    "snow", "springgreen", "steelblue", "tan", "teal", "thistle", "tomato", "turquoise", "violet",
    "wheat", "white", "whitesmoke", "yellow", "yellowgreen", "canvas", "canvastext", "linktext",
    "visitedtext", "activetext", "buttonface", "buttontext", "field", "fieldtext", "highlight",
    "highlighttext", "graytext", "mark", "marktext", "accentcolor", "accentcolortext"]

def genericFonts : List String :=
  ["serif", "sans-serif", "monospace", "cursive", "fantasy", "system-ui", "ui-serif",
    "ui-sans-serif", "ui-monospace", "ui-rounded", "math", "emoji", "fangsong"]

def absoluteSizes : List String :=
  ["xx-small", "x-small", "small", "medium", "large", "x-large", "xx-large", "xxx-large"]

def imageStarts : List String :=
  ["url(", "linear-gradient(", "radial-gradient(", "conic-gradient(", "repeating-", "image-set(",
    "image(", "cross-fade(", "element("]

def dropSign : List Char → List Char
  | '+' :: cs => cs
  | '-' :: cs => cs
  | cs => cs

/-- What follows the digits of a number without an exponent; digits of any script count. -/
def afterMantissa? (cs : List Char) : Option (List Char) :=
  let rest := cs.dropWhile isDecimalDigit
  let fraction := (rest.drop 1).dropWhile isDecimalDigit
  if rest.length < cs.length then some (if rest.head? = some '.' then fraction else rest)
  else if rest.head? = some '.' && fraction.length < (rest.drop 1).length then some fraction
  else none

def afterExponent (cs : List Char) : List Char :=
  match cs with
  | 'e' :: rest =>
    let digits := dropSign rest
    let after := digits.dropWhile isDecimalDigit
    if after.length < digits.length then after else cs
  | _ => cs

def afterNumber? (s : String) : Option String :=
  (afterMantissa? (dropSign s.toList)).map fun rest => String.ofList (afterExponent rest)

def isNumber (s : String) : Bool :=
  afterNumber? s == some ""

def isPositiveInteger (s : String) : Bool :=
  !s.isEmpty && s.toList.all Char.isDigit

def hasUnit (units : List String) (s : String) : Bool :=
  (afterNumber? s).any units.contains

def usesMath (s : String) : Bool :=
  mathFunctions.any fun name => contains (name ++ "(") s

def isSpacing (s : String) : Bool :=
  isNumber s && !startsWithAny ['-', '+'] s &&
    (Decimal.Binary64.ofText? s).any fun x => (x.timesNat 4).isWhole

def isOpacity (s : String) : Bool :=
  isNumber s && (Decimal.Binary64.ofText? s).any fun x => x.isBetweenZeroAnd 100

def isHexColor (s : String) : Bool :=
  (strip? "#" s).any fun digits =>
    digits.toList.all isHex && [3, 4, 6, 8].contains digits.length
where
  isHex (c : Char) : Bool := c.isDigit || ('a' ≤ c && c ≤ 'f') || ('A' ≤ c && c ≤ 'F')

def isColor (s : String) : Bool :=
  let s := lower s
  isHexColor s || namedColors.contains s ||
    (splitOnce? '(' s).any fun (name, _) => colorFunctions.contains name && endsWith ")" s

def isLength (s : String) : Bool :=
  s == "0" || hasUnit lengthUnits s || usesMath s

def isPercentage (s : String) : Bool :=
  hasUnit ["%"] s || usesMath s

def isUrl (s : String) : Bool :=
  startsWith "url(" s

def isImage (s : String) : Bool :=
  (segment ',' s).all fun part => imageStarts.any fun start => startsWith start (trim part)

def startsQuoted (s : String) : Bool :=
  startsWithAny ['"', '\''] s

/-- A list of font names; a single one has to be quoted. -/
def isFamilyName (s : String) : Bool :=
  ((segment ',' s).all fun part =>
    let part := trim part
    startsQuoted part || genericFonts.contains part ||
      (splitAll ' ' part).all fun word => word.toList.head?.any isLetter) &&
  (hasChar ',' s || startsQuoted s)

def isPosition (s : String) : Bool :=
  (splitAll ' ' s).all fun part =>
    ["center", "top", "right", "bottom", "left"].contains part || isLength part || isPercentage part

def isBgSize (s : String) : Bool :=
  (segment ',' s).all fun layer =>
    let layer := trim layer
    layer == "cover" || layer == "contain" ||
      (splitAll ' ' layer).all fun part => part == "auto" || isLength part || isPercentage part

def isLineWidth (s : String) : Bool :=
  ["thin", "medium", "thick"].contains s || isLength s

def hasType (s : String) : DataType → Bool
  | .color => isColor s
  | .length => isLength s
  | .percentage => isPercentage s
  | .number => isNumber s || usesMath s
  | .integer => isPositiveInteger (String.ofList (s.toList.dropWhile (· == '-')))
  | .url => isUrl s
  | .image => isImage s
  | .angle => hasUnit angleUnits s
  | .position => isPosition s
  | .bgSize => isBgSize s
  | .lineWidth => isLineWidth s
  | .familyName => isFamilyName s
  | .genericName => genericFonts.contains s
  | .absoluteSize => absoluteSizes.contains s
  | .relativeSize => s == "larger" || s == "smaller"

def inferType (s : String) (types : List DataType) : Option DataType :=
  if startsWith "var(" s then none else types.find? (hasType s)

end Value

end UtilityCss
