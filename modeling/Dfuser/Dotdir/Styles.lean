import Dfuser.Lib.Python
import Dfuser.Lib.Text

/-!
# Colours and shapes of directory graphs

`scripts/bash/dotdir` draws a directory tree as a graph.  A directory is coloured by
its depth, with a colour of a gradient; a file is coloured by its extension and
shaped by its name or its extension.  The gradient is interpolated over exact
rationals here.

* `hexToRGB`, `RGBToHex`, `colorDict`, `linearGradient`, `gradientHex` — colours.
* `extColorMap`, `filenameShapeMap`, `extShapeMap` — the tables of the script.
* `splitext` — the extension of a file name.
-/

namespace Dfuser
namespace Dotdir

/-! ### Colours -/

/-- A colour as its three channels. -/
structure RGB where
  r : ℤ
  g : ℤ
  b : ℤ
  deriving DecidableEq, Repr

/-- The value of a hexadecimal digit. -/
def hexDigit (c : Char) : Option ℤ :=
  if '0' ≤ c ∧ c ≤ '9' then some (c.toNat - 48)
  else if 'a' ≤ c ∧ c ≤ 'f' then some (c.toNat - 87)
  else if 'A' ≤ c ∧ c ≤ 'F' then some (c.toNat - 55)
  else none

/-- `int(s, 16)` of a sequence of digits; `none` for a `ValueError`. -/
def intOfHex (s : Str) : Option ℤ :=
  if s = [] then none else s.foldlM (fun v c => (hexDigit c).map fun d => 16 * v + d) 0

/-- `hex_to_RGB`: the three pairs of digits after the number sign. -/
def hexToRGB (hex : Str) : Option RGB := do
  let r ← intOfHex ((hex.drop 1).take 2)
  let g ← intOfHex ((hex.drop 3).take 2)
  let b ← intOfHex ((hex.drop 5).take 2)
  return ⟨r, g, b⟩

/-- `"{0:x}".format(v)`. -/
def formatHex (v : ℤ) : Str :=
  if 0 ≤ v then Nat.toDigits 16 v.toNat else '-' :: Nat.toDigits 16 (-v).toNat

/-- One channel of `RGB_to_hex`. -/
def channelToHex (v : ℤ) : Str := if v < 16 then '0' :: formatHex v else formatHex v

/-- `RGB_to_hex`. -/
def RGBToHex (c : RGB) : Str := '#' :: (channelToHex c.r ++ channelToHex c.g ++ channelToHex c.b)

/-- The colours of a gradient, as text and by channel. -/
structure ColorDict where
  hex : List Str
  r : List ℤ
  g : List ℤ
  b : List ℤ
  deriving DecidableEq, Repr

/-- `color_dict`. -/
def colorDict (gradient : List RGB) : ColorDict :=
  ⟨gradient.map RGBToHex, gradient.map RGB.r, gradient.map RGB.g, gradient.map RGB.b⟩

/-- One channel of the colour at step `t` of `n`. -/
def interpolate (s f : ℤ) (t n : ℕ) : ℤ := pyInt (s + (t / (n - 1 : ℚ)) * (f - s))

/-- `linear_gradient`: `n` colours from one to another; the first one is there even
when `n` is zero. -/
def linearGradient (startHex finishHex : Str) (n : ℕ) : Option ColorDict := do
  let s ← hexToRGB startHex
  let f ← hexToRGB finishHex
  let rest := (List.range' 1 (n - 1)).map fun t =>
    RGB.mk (interpolate s.r f.r t n) (interpolate s.g f.g t n) (interpolate s.b f.b t n)
  return colorDict (s :: rest)

/-- `gradient["hex"]`, which the script computes when it is loaded. -/
def gradientHex : List Str :=
  ((linearGradient "#f0f0f0".toList "#737373".toList 10).map ColorDict.hex).getD []

/-! ### Files -/

/-- `ext_color_map`: the colour of a file by its extension. -/
def extColorMap : List (Str × Str) :=
  [("".toList, "#f9f9f9".toList), (".a".toList, "#6699cc".toList),
    (".bin".toList, "#996699".toList), (".c".toList, "#ffff99".toList),
    (".cloc".toList, "#fafad2".toList), (".cls".toList, "#ffcccb".toList),
    (".cpp".toList, "#8e8cd8".toList), (".css".toList, "#ffcc80".toList),
    (".dox".toList, "#d3d3d3".toList), (".elf".toList, "#99e699".toList),
    (".geom".toList, "#ffcc99".toList), (".gitignore".toList, "#add8e6".toList),
    (".h".toList, "#66cc99".toList), (".html".toList, "#b3ecff".toList),
    (".inc".toList, "#fffacd".toList), (".ini".toList, "#fff176".toList),
    (".jpeg".toList, "#ffdd99".toList), (".js".toList, "#a28bb1".toList),
    (".json".toList, "#ff6f61".toList), (".m".toList, "#ff9a8b".toList),
    (".mat".toList, "#e6ccb2".toList), (".md".toList, "#99e699".toList),
    (".mk".toList, "#ff8c69".toList), (".out".toList, "#add8e6".toList),
    (".png".toList, "#66cdaa".toList), (".py".toList, "#87cefa".toList),
    (".rst".toList, "#80b1d3".toList), (".sh".toList, "#ff8c69".toList),
    (".so".toList, "#8e8cd8".toList), (".sty".toList, "#b3de69".toList),
    (".v0".toList, "#a9a9e8".toList), (".xml".toList, "#ffffe0".toList),
    (".yml".toList, "#ffeb99".toList)]

/-- `filename_shape_map`: the shape of a file by its name. -/
def filenameShapeMap : List (Str × Str) :=
  [("Makefile".toList, "octagon".toList), ("CMakeLists.txt".toList, "hexagon".toList),
    ("Dockerfile".toList, "cylinder".toList), ("LICENSE".toList, "note".toList),
    ("README".toList, "note".toList), ("requirements.txt".toList, "parallelogram".toList),
    ("setup.py".toList, "parallelogram".toList), ("Vagrantfile".toList, "house".toList),
    ("docker-compose.yml".toList, "cylinder".toList), ("package.json".toList, "folder".toList),
    ("webpack.config.js".toList, "trapezium".toList), ("tsconfig.json".toList, "hexagon".toList),
    ("jest.config.js".toList, "trapezium".toList), ("babel.config.js".toList, "trapezium".toList),
    ("Gruntfile.js".toList, "triangle".toList), ("Gulpfile.js".toList, "triangle".toList),
    ("karma.conf.js".toList, "triangle".toList), ("tslint.json".toList, "hexagon".toList),
    (".editorconfig".toList, "note".toList), (".gitattributes".toList, "note".toList),
    (".gitmodules".toList, "folder".toList), (".prettierrc".toList, "trapezium".toList),
    (".eslintrc".toList, "trapezium".toList), (".nvmrc".toList, "parallelogram".toList),
    (".env".toList, "folder".toList), (".babelrc".toList, "trapezium".toList),
    (".gitignore".toList, "folder".toList), ("build.gradle".toList, "octagon".toList),
    ("pom.xml".toList, "hexagon".toList), ("Gemfile".toList, "parallelogram".toList),
    ("Pipfile".toList, "parallelogram".toList), ("yarn.lock".toList, "folder".toList),
    ("package-lock.json".toList, "folder".toList), ("Procfile".toList, "folder".toList),
    (".travis.yml".toList, "cylinder".toList), ("circle.yml".toList, "cylinder".toList),
    ("azure-pipelines.yml".toList, "cylinder".toList), ("Jenkinsfile".toList, "cylinder".toList),
    ("tox.ini".toList, "parallelogram".toList)]

/-- `ext_shape_map`: the shape of a file by its extension. -/
def extShapeMap : List (Str × Str) :=
  [(".a".toList, "diamond".toList), (".bin".toList, "cylinder".toList),
    (".c".toList, "box".toList), (".cloc".toList, "note".toList),
    (".cls".toList, "parallelogram".toList), (".cpp".toList, "box3d".toList),
    (".css".toList, "triangle".toList), (".dox".toList, "note".toList),
    (".elf".toList, "hexagon".toList), (".geom".toList, "octagon".toList),
    (".git".toList, "tab".toList), (".gitignore".toList, "tab".toList),
    (".gitkeep".toList, "tab".toList), (".gitmodules".toList, "tab".toList),
    (".h".toList, "box".toList), (".html".toList, "oval".toList),
    (".inc".toList, "folder".toList), (".ini".toList, "note".toList),
    (".jpeg".toList, "egg".toList), (".js".toList, "parallelogram".toList),
    (".json".toList, "cylinder".toList), (".m".toList, "box".toList),
    (".mat".toList, "ellipse".toList), (".md".toList, "note".toList),
    (".mk".toList, "component".toList), (".out".toList, "house".toList),
    (".png".toList, "egg".toList), (".py".toList, "hexagon".toList),
    (".rst".toList, "note".toList), (".sh".toList, "trapezium".toList),
    (".so".toList, "cylinder".toList), (".sty".toList, "component".toList),
    (".v0".toList, "pentagon".toList), (".xml".toList, "folder".toList),
    (".yml".toList, "note".toList), (".tar.gz".toList, "folder".toList),
    (".zip".toList, "folder".toList), (".7z".toList, "folder".toList)]

/-- `os.path.splitext(filename)[1]` of a name without slashes: from its last dot on,
unless only dots stand before that one. -/
def splitext (filename : Str) : Str :=
  let ext := (filename.reverse.takeWhile (· ≠ '.')).reverse
  let root := filename.take (filename.length - ext.length - 1)
  if ext.length < filename.length ∧ root.any (· ≠ '.') then '.' :: ext else []

end Dotdir
end Dfuser
