/-!
# Texts within texts
-/

namespace PlainLedger.Text

/-- The first list stands somewhere in the second. -/
def occursIn {α : Type} [DecidableEq α] (needle : List α) : List α → Bool
  | [] => needle.isEmpty
  | c :: cs => needle.isPrefixOf (c :: cs) || occursIn needle cs

def contains (text needle : String) : Bool := occursIn needle.toList text.toList

end PlainLedger.Text
