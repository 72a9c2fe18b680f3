import TapeLang.LabelCode.Basic

/-!
# Listings

Label code for readers, one operation on a line.
-/

namespace TapeLang

namespace Operation

def line : Operation → String
  | .prologue => "prologue"
  | .epilogue => "epilogue"
  | .bind l => s!"L{l}:"
  | .jump l => s!"jmp L{l}"
  | .branchIfZero l => s!"jz L{l}"
  | .move count (.mask bits) => s!"move {count} (mask {bits})"
  | .move count (.length cells) => s!"move {count} (wrap {cells})"
  | .add amount => s!"add {amount}"
  | .reset => "reset"
  | .read index => s!"read #{index}"
  | .write index => s!"write #{index}"

end Operation

/-- The lines of `operations`, with a line break between them. -/
def listing (operations : Array Operation) : String :=
  "\n".intercalate (operations.toList.map Operation.line)

end TapeLang
