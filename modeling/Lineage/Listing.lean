import Lineage.Ty.Encode
import Lineage.Ty.Text

/-!
# Lists of instances in writing

Instances are listed one a line, or as a JSON list. Either way the text ends with a line feed.
-/

namespace Lineage

/-- Texts with a line feed behind each of them. -/
def lines (texts : List String) : String := String.join (texts.map (· ++ "\n"))

/-- Instances, one a line. -/
def Ty.listing (ts : List Ty) : String := lines (ts.map Ty.text)

/-- Instances as a JSON list. -/
def Ty.jsonListing (ts : List Ty) : String := lines [(Json.Value.list (Ty.toValues ts)).text]

/-- Instances in one of the two forms. -/
def Ty.listingAs (json : Bool) (ts : List Ty) : String :=
  if json then Ty.jsonListing ts else Ty.listing ts

end Lineage
