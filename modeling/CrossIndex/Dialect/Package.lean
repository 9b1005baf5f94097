import CrossIndex.Path.Extension

/-!
The root directory of a Python package, known from its `__init__.py`.
-/

namespace CrossIndex

/-- The directory of a path that ends in the marker and `__init__.py`. -/
def packageRootOf? (path : Path) (marker : String) : Option Path :=
  if path.endsWith ((Path.ofString marker).joinText "__init__.py") then path.parent? else none

end CrossIndex
