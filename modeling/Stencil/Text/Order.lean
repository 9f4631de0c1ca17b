import Stencil.Text.Basic
/-!
# The order of texts

Texts are ordered by the code points of their characters, which is also the order of their bytes in
UTF-8.
-/

namespace Stencil.Text

def order : Text → Text → Ordering
  | [], [] => .eq
  | [], _ :: _ => .lt
  | _ :: _, [] => .gt
  | a :: as, b :: bs =>
    match compare a.toNat b.toNat with
    | .eq => order as bs
    | o => o

end Stencil.Text
