set_option autoImplicit false

namespace Predictive.Text

/-- `text` with blanks in front of it up to `width` characters; a longer text stays as it is. -/
def padLeft (width : Nat) (text : String) : String :=
  String.ofList (text.toList.leftpad width ' ')

end Predictive.Text
