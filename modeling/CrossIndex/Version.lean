/-!
The version of this library, which its programs report.
-/

namespace CrossIndex

def version : String := "0.5.4"

end CrossIndex
