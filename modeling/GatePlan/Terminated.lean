/-
Texts that end at a NUL. A path, an argument of a tool and the wording of a
fault are handed on as the characters before the first NUL; what follows it is
lost.
-/
namespace GatePlan

def nul : Char := '\x00'

/-- The characters of a text before its first NUL. -/
def beforeNul (text : String) : String :=
  String.ofList (text.toList.takeWhile (· ≠ nul))

end GatePlan
